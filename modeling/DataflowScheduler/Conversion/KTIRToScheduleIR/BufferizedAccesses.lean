import Mathlib.Data.List.GetD
import DataflowScheduler.Conversion.KTIRToScheduleIR.KTIRBufferize

/-!
# What a bufferized indirect access joins

A load or a store joins every element of its tensor with an element of the base and an entry of the
address buffer. The indirect transfer joins them as the access does exactly where its decomposition of
the subscripts loses nothing: walking variables start at zero and walk the box in the rhythm of the
tile, the other subscripts stand still, and all of the tile is walked.
-/

namespace DataflowScheduler

namespace KTIRBufferize

open Affine Operands RowMajor

/-! ## The access relation -/

/-- What an element of the tensor is joined with: an index of the base, and the place of an entry in
the address buffer. -/
structure Join where
  base : List Int
  entry : Int
  deriving Repr, DecidableEq

namespace ConstructIndirectAccessTileOp

variable (tileOp : ConstructIndirectAccessTileOp) (arguments : Nat → Int)

/-- The tile dimension of a variable. -/
def tileDim (k : Nat) : Nat := (tileOp.getTileDim k).getD 0

def lower (k : Nat) : Int := (tileOp.variablesSpaceSet[k]?.map Range.lower).getD 0

/-- The shape of the tile. -/
def tileShape : List Nat :=
  (List.range tileOp.numIntermediateVariables).map fun j =>
    (tileOp.variablesSpaceSet[tileOp.variablesSpaceOrder.results.idxOf (.dim j)]?.map
      Range.size).getD 1

/-- The variables at a coordinate of the tile. -/
def intermediateValues (coordinate : List Int) : List Int :=
  (List.range tileOp.numIntermediateVariables).map fun k =>
    tileOp.lower k + coordinate.getD (tileOp.tileDim k) 0

def captured : List Int := tileOp.capturedVariables.map (Value.eval arguments)

end ConstructIndirectAccessTileOp

/-- The value of a subscript. -/
def subscriptValue (values : List Int) : Attribute → Int
  | .integer k => k
  | .affineMap m => (m.results.headD (.constant 0)).eval (fun p => values.getD p 0) fun _ => 0

/-- What the access joins the element at a coordinate of the tile with. -/
def ConstructIndirectAccessTileOp.join (tileOp : ConstructIndirectAccessTileOp)
    (arguments : Nat → Int) (coordinate : List Int) : Join where
  base := tileOp.perDimSubscriptMaps.map
    (subscriptValue (tileOp.captured arguments ++ tileOp.intermediateValues coordinate))
  entry := (tileOp.captured arguments ++ tileOp.intermediateValues coordinate).getD
      (tileOp.indAddrBufDimPositions.headD 0) 0 *
    tileOp.indAddrBufMemref.stride.eval arguments

/-- The whole tile. -/
def ConstructIndirectAccessTileOp.whole (tileOp : ConstructIndirectAccessTileOp) : Slice where
  offsets := tileOp.tileShape.map fun _ => .index 0
  sizes := tileOp.tileShape.map fun (size : Nat) => .index size
  strides := tileOp.tileShape.map fun _ => .index 1

/-- The part of the tile that is accessed. -/
def Access.part (access : Access) (tileOp : ConstructIndirectAccessTileOp) : Slice :=
  access.slice.getD tileOp.whole

namespace Slice

variable (slice : Slice) (arguments : Nat → Int)

def offsetsAt : List Int := slice.offsets.map (OpFoldResult.eval arguments)

def sizesAt : List Nat := slice.sizes.map fun size => (size.eval arguments).toNat

def stridesAt : List Int := slice.strides.map (OpFoldResult.eval arguments)

/-- The coordinates of the tensor's elements, in its row-major order. -/
def coordinates : List (List Int) :=
  box (slice.offsetsAt arguments) (slice.sizesAt arguments) (slice.stridesAt arguments)

end Slice

/-- The joins of a transfer, the box of the base in row-major order. -/
def IndTransferOp.joins (op : IndTransferOp) (arguments : Nat → Int) : List Join :=
  ((⟨op.offsets, op.sizes, op.strides⟩ : Slice).coordinates arguments).map fun base =>
    ⟨base, op.indAddrBufIndex.eval arguments * op.indAddrBuf.stride.eval arguments⟩

/-- Every element of the tensor is joined with what the access joins it with. -/
def JoinsKept (tileOp : ConstructIndirectAccessTileOp) (access : Access) (op : IndTransferOp)
    (arguments : Nat → Int) : Prop :=
  ((access.part tileOp).coordinates arguments).map (tileOp.join arguments) = op.joins arguments

instance (tileOp : ConstructIndirectAccessTileOp) (access : Access) (op : IndTransferOp)
    (arguments : Nat → Int) : Decidable (JoinsKept tileOp access op arguments) :=
  inferInstanceAs (Decidable (_ = _))

/-- What the verifiers check: the position is a variable, the order a permutation of the tile's
dimensions, and a slice has an offset, a size and a stride for each of them. -/
structure Verified (tileOp : ConstructIndirectAccessTileOp) (access : Access) : Prop where
  positions : ∀ p ∈ tileOp.indAddrBufDimPositions,
    p < tileOp.capturedVariables.length + tileOp.numIntermediateVariables
  set : tileOp.variablesSpaceSet.length = tileOp.numIntermediateVariables
  order : ∃ perm : List Nat, perm.Perm (List.range tileOp.numIntermediateVariables) ∧
    tileOp.variablesSpaceOrder.results = perm.map .dim
  slice : ∀ slice ∈ access.slice, slice.offsets.length = tileOp.numIntermediateVariables ∧
    slice.sizes.length = tileOp.numIntermediateVariables ∧
    slice.strides.length = tileOp.numIntermediateVariables

/-! ## Where nothing is lost -/

section Condition

variable (s : Simplifier) (tileOp : ConstructIndirectAccessTileOp)

/-- The variable that walks a dimension of the base: the first whose subtraction from the subscript
leaves captured variables only. -/
def walkingIv : Attribute → Option Nat
  | .integer _ => none
  | .affineMap m =>
      match m.results with
      | [expr] => tileOp.foundIv s expr
      | _ => none

/-- The sizes of the base's dimensions: what the walking variables walk. -/
def walkedSizes (sizes : List Nat) : List Nat :=
  tileOp.perDimSubscriptMaps.map fun map =>
    match walkingIv s tileOp map with
    | some k => sizes.getD (tileOp.tileDim k) 1
    | none => 1

/-- The entry of the address buffer is the same for all of the tensor and is found with stride one. -/
def EntryKept (access : Access) (arguments : Nat → Int) : Prop :=
  ∀ p ∈ tileOp.indAddrBufDimPositions,
    if p < tileOp.capturedVariables.length then
      (tileOp.captured arguments).getD p 0 = 0 ∨ tileOp.indAddrBufMemref.stride.eval arguments = 1
    else
      tileOp.indAddrBufMemref.stride.eval arguments = 0 ∨
        ∀ coordinate ∈ (access.part tileOp).coordinates arguments,
          (tileOp.intermediateValues coordinate).getD (p - tileOp.capturedVariables.length) 0 = 0

/-- A walking variable starts at zero, and one step of it passes as many elements of the tensor as of
the box, unless there is no step. -/
def WalksAlike (access : Access) (arguments : Nat → Int) (d k : Nat) : Prop :=
  tileOp.lower k = 0 ∧
    (((access.part tileOp).sizesAt arguments)[tileOp.tileDim k]? = some 1 ∨
      ((access.part tileOp).stridesAt arguments)[tileOp.tileDim k]? = some 0 ∨
      step ((access.part tileOp).sizesAt arguments) (tileOp.tileDim k) =
        step (walkedSizes s tileOp ((access.part tileOp).sizesAt arguments)) d)

/-- A subscript keeps the value it has where all variables are zero. -/
def StandsStill (access : Access) (arguments : Nat → Int) (map : Attribute) : Prop :=
  ∀ coordinate ∈ (access.part tileOp).coordinates arguments,
    subscriptValue (tileOp.captured arguments ++ tileOp.intermediateValues coordinate) map =
      subscriptValue (tileOp.captured arguments ++
        List.replicate tileOp.numIntermediateVariables 0) map

/-- **Nothing is lost**: the tensor has as many elements as the variables walk, and if it has any, the
entry is kept, walking variables walk the base as they walk the tile and the other subscripts stand
still. -/
def NothingLost (access : Access) (arguments : Nat → Int) : Prop :=
  ((access.part tileOp).sizesAt arguments).prod =
      (walkedSizes s tileOp ((access.part tileOp).sizesAt arguments)).prod ∧
    (0 < ((access.part tileOp).sizesAt arguments).prod →
      EntryKept tileOp access arguments ∧
      ∀ d map, tileOp.perDimSubscriptMaps[d]? = some map →
        match walkingIv s tileOp map with
        | some k => WalksAlike s tileOp access arguments d k
        | none => StandsStill tileOp access arguments map)

end Condition

/-! ## What the helpers compute -/

theorem eval_expandAffineExpr {operands : List Value} {e : Expr} {v : Value}
    (h : expandAffineExpr operands e = some v) (arguments : Nat → Int) :
    v.eval arguments =
      e.eval (fun p => (operands.map (Value.eval arguments)).getD p 0) fun _ => 0 := by
  induction e generalizing v with
  | dim p =>
      have hget : operands[p]? = some v := h
      rw [Expr.eval_dim, List.getD_eq_getElem?_getD, List.getElem?_map, hget]
      rfl
  | symbol p => cases h
  | constant c =>
      cases h
      rfl
  | binary kind l r ihl ihr =>
      unfold expandAffineExpr at h
      split at h
      · split at h
        · next a b ha hb =>
            cases h
            show kind.apply (a.eval arguments) (b.eval arguments) = _
            rw [ihl ha, ihr hb]
            rfl
        · cases h
      · cases h

theorem eval_addOffsets (f o : OpFoldResult) (arguments : Nat → Int) :
    (addOffsets f o).eval arguments = f.eval arguments + o.eval arguments := by
  unfold addOffsets
  split
  · next hf ho =>
      rw [eval_of_getConstantIntValue hf, eval_of_getConstantIntValue ho]
      rfl
  · next hf _ => rw [eval_of_getConstantIntValue hf, Int.zero_add]
  · next _ ho => rw [eval_of_getConstantIntValue ho, Int.add_zero]
  · show (getValueOrCreateConstantIndexOp f).eval arguments +
      (getValueOrCreateConstantIndexOp o).eval arguments = _
    rw [eval_getValueOrCreateConstantIndexOp, eval_getValueOrCreateConstantIndexOp]

theorem eval_foldOffset (f : OpFoldResult) (arguments : Nat → Int) :
    (foldOffset f).eval arguments = f.eval arguments := by
  rcases f with a | (n | k | ⟨kind, l, r⟩) <;> rfl

/-- Zeros at the end of a list do not show. -/
theorem getD_append_replicate (l : List Int) (n p : Nat) :
    (l ++ List.replicate n 0).getD p 0 = l.getD p 0 := by
  by_cases hp : p < l.length
  · rw [List.getD_append _ _ _ _ hp]
  · rw [List.getD_append_right _ _ _ _ (by omega), List.getD_eq_default l _ (by omega),
      List.getD_eq_getElem?_getD, List.getElem?_replicate]
    split <;> rfl

/-- Captured dimensions are replaced by themselves, the others by what they are beyond the captured
variables. -/
theorem replacedDim_makeCapturedRepls (tileOp : ConstructIndirectAccessTileOp)
    (arguments : Nat → Int) (p : Nat) :
    Expr.replacedDim tileOp.makeCapturedRepls (fun p => (tileOp.captured arguments).getD p 0)
      (fun _ => 0) p = (tileOp.captured arguments).getD p 0 := by
  unfold Expr.replacedDim ConstructIndirectAccessTileOp.makeCapturedRepls
  rw [List.getElem?_map]
  by_cases hp : p < tileOp.capturedVariables.length + tileOp.numIntermediateVariables
  · rw [List.getElem?_range hp]
    by_cases hc : p < tileOp.capturedVariables.length
    · simp [hc]
    · have hlen : (tileOp.captured arguments).length ≤ p := by
        simpa [ConstructIndirectAccessTileOp.captured] using hc
      simp [hc, List.getElem?_eq_none hlen]
  · rw [List.getElem?_eq_none (by simpa using hp)]
    rfl

section Subscripts

variable {s : Simplifier} {tileOp : ConstructIndirectAccessTileOp} {slice : Option Slice}

/-- The captured part is the subscript where all variables are zero. -/
theorem eval_materializeCapturedPart {expr : Expr} {f : OpFoldResult}
    (h : materializeCapturedPart tileOp (capturedMap s tileOp expr) = .ok f)
    (arguments : Nat → Int) :
    f.eval arguments = expr.eval (fun p => (tileOp.captured arguments).getD p 0) fun _ => 0 := by
  have hexpand : expandOverCaptured tileOp (capturedMap s tileOp expr) = .ok f := by
    unfold materializeCapturedPart at h
    split at h
    · exact h
    · exact h
  unfold expandOverCaptured at hexpand
  split at hexpand
  · next v vs hmap =>
      cases hexpand
      unfold expandAffineMap capturedMap at hmap
      rw [List.mapM_cons, List.mapM_nil] at hmap
      obtain ⟨v', hv, hvs⟩ := Option.bind_eq_some_iff.mp hmap
      cases hvs
      rw [OpFoldResult.eval_value, eval_expandAffineExpr hv, Expr.eval_replaceDims]
      congr 1
      funext p
      exact replacedDim_makeCapturedRepls tileOp arguments p
  · cases hexpand

/-- A subscript that refers to no variable is worth what it is worth without them. -/
theorem eval_of_not_refsIv {expr : Expr} (h : tileOp.refsIv expr = false) (arguments : Nat → Int)
    (vs : List Int) :
    expr.eval (fun p => (tileOp.captured arguments ++ vs).getD p 0) (fun _ => 0) =
      expr.eval (fun p => (tileOp.captured arguments).getD p 0) fun _ => 0 := by
  induction expr with
  | dim p =>
      have hp : p < (tileOp.captured arguments).length := by
        simpa [ConstructIndirectAccessTileOp.refsIv, ConstructIndirectAccessTileOp.captured] using h
      rw [Expr.eval_dim, Expr.eval_dim, List.getD_append _ _ _ _ hp]
  | symbol p => rfl
  | constant c => rfl
  | binary kind l r ihl ihr =>
      rw [ConstructIndirectAccessTileOp.refsIv, Bool.or_eq_false_iff] at h
      rw [Expr.eval, ihl h.1, ihr h.2]
      rfl

/-- **A subscript with a walking variable** is its captured part and the variable. -/
theorem eval_of_foundIv {expr : Expr} {k : Nat} (h : tileOp.foundIv s expr = some k)
    (arguments : Nat → Int) (vs : List Int) :
    k < tileOp.numIntermediateVariables ∧
    expr.eval (fun p => (tileOp.captured arguments ++ vs).getD p 0) (fun _ => 0) =
      (tileOp.subtractIv s expr k).eval (fun p => (tileOp.captured arguments).getD p 0)
        (fun _ => 0) + vs.getD k 0 := by
  unfold ConstructIndirectAccessTileOp.foundIv at h
  have hrefs := List.find?_some h
  rw [Bool.not_eq_true'] at hrefs
  refine ⟨List.mem_range.mp (List.mem_of_find?_eq_some h), ?_⟩
  rw [← eval_of_not_refsIv hrefs arguments vs]
  unfold ConstructIndirectAccessTileOp.subtractIv
  rw [s.eval_simplifyAffineExpr, s.builder.eval_binary, s.builder.eval_binary]
  have hget : (tileOp.captured arguments ++ vs).getD (tileOp.capturedVariables.length + k) 0 =
      vs.getD k 0 := by
    have hlen : (tileOp.captured arguments).length = tileOp.capturedVariables.length := by
      simp [ConstructIndirectAccessTileOp.captured]
    rw [List.getD_append_right _ _ _ _ (by omega), hlen, Nat.add_sub_cancel_left]
  rw [Expr.eval_dim, Expr.eval_constant, hget]
  dsimp only [BinaryKind.apply]
  omega

/-- What a dimension of the box is to the subscript it was made for. -/
structure BoxDim.For (s : Simplifier) (tileOp : ConstructIndirectAccessTileOp)
    (slice : Option Slice) (map : Attribute) (dim : BoxDim) : Prop where
  walked : ∀ k, walkingIv s tileOp map = some k → k < tileOp.numIntermediateVariables ∧
    ∃ j, tileOp.getTileDim k = some j ∧ dim.size = (sliceDim tileOp slice k j).size ∧
      dim.stride = (sliceDim tileOp slice k j).stride ∧
      ∀ (arguments : Nat → Int) (vs : List Int),
        dim.offset.eval arguments + vs.getD k 0 =
          subscriptValue (tileOp.captured arguments ++ vs) map +
            (sliceDim tileOp slice k j).offset.eval arguments
  still : walkingIv s tileOp map = none → dim.size = .index 1 ∧ dim.stride = .index 1 ∧
    ∀ arguments : Nat → Int, dim.offset.eval arguments =
      subscriptValue (tileOp.captured arguments ++
        List.replicate tileOp.numIntermediateVariables 0) map

theorem boxDim_for {map : Attribute} {subscript : Subscript} {dim : BoxDim}
    (hsub : decomposeMap s tileOp map = .ok subscript)
    (hdim : boxDim tileOp slice subscript = .ok dim) : dim.For s tileOp slice map := by
  unfold decomposeMap at hsub
  split at hsub
  · cases hsub
  · next m =>
      split at hsub
      · next expr hresults =>
          have hwalk : walkingIv s tileOp (.affineMap m) = tileOp.foundIv s expr := by
            rw [walkingIv, hresults]
          have hvalue : ∀ values, subscriptValue values (.affineMap m) =
              expr.eval (fun p => values.getD p 0) fun _ => 0 := by
            intro values
            rw [subscriptValue, hresults]
            rfl
          split at hsub
          · next k hk =>
              cases hsub
              unfold boxDim at hdim
              dsimp only at hdim
              split at hdim
              · cases hdim
              · next j hj =>
                  obtain ⟨f, hf, rfl⟩ := Except.map_eq_ok.mp hdim
                  constructor
                  · intro k' hk'
                    obtain rfl : k = k' := Option.some.inj (hk.symm.trans (hwalk ▸ hk'))
                    refine ⟨(eval_of_foundIv hk (fun _ => 0) []).1, j, hj, rfl, rfl, ?_⟩
                    intro arguments vs
                    rw [hvalue, (eval_of_foundIv hk arguments vs).2, eval_addOffsets,
                      eval_materializeCapturedPart hf]
                    omega
                  · intro hnone
                    rw [hwalk, hk] at hnone
                    cases hnone
          · next hk =>
              cases hsub
              obtain ⟨f, hf, rfl⟩ := Except.map_eq_ok.mp hdim
              constructor
              · intro k hk'
                rw [hwalk, hk] at hk'
                cases hk'
              · intro _
                refine ⟨rfl, rfl, fun arguments => ?_⟩
                rw [hvalue, eval_materializeCapturedPart hf]
                congr 1
                funext p
                exact (getD_append_replicate _ _ p).symm
      · cases hsub

theorem decompose_ok {maps : List Attribute} {used : List Nat} {subscripts : List Subscript}
    (h : decompose s tileOp used maps = .ok subscripts) :
    List.Forall₂ (fun map subscript => decomposeMap s tileOp map = .ok subscript) maps
      subscripts := by
  induction maps generalizing used subscripts with
  | nil =>
      cases h
      exact .nil
  | cons map maps ih =>
      unfold decompose at h
      split at h
      · cases h
      · next hmap =>
          obtain ⟨rest, hrest, rfl⟩ := Except.map_eq_ok.mp h
          exact .cons hmap (ih hrest)
      · next hmap =>
          split at h
          · cases h
          · obtain ⟨rest, hrest, rfl⟩ := Except.map_eq_ok.mp h
            exact .cons hmap (ih hrest)

theorem boxDims_for {maps : List Attribute} {subscripts : List Subscript} {dims : List BoxDim}
    (hsub : List.Forall₂ (fun map subscript => decomposeMap s tileOp map = .ok subscript) maps
      subscripts)
    (hdim : List.Forall₂ (fun subscript dim => boxDim tileOp slice subscript = .ok dim) subscripts
      dims) :
    List.Forall₂ (fun map (dim : BoxDim) => dim.For s tileOp slice map) maps dims := by
  induction hsub generalizing dims with
  | nil =>
      cases hdim
      exact .nil
  | cons hmap _ ih =>
      cases hdim with
      | cons hbox hboxes => exact .cons (boxDim_for hmap hbox) (ih hboxes)

/-- **What a rewritten access is made of.** -/
theorem matchAndRewrite_ok {access : Access} {op : IndTransferOp}
    (h : matchAndRewrite s tileOp access = .ok op) :
    tileOp.getIabIndex = .ok op.indAddrBufIndex ∧
    op.indAddrBuf = buildIABView tileOp.indAddrBufMemref ∧
    ∃ dims : List BoxDim,
      List.Forall₂ (fun map (dim : BoxDim) => dim.For s tileOp access.slice map)
        tileOp.perDimSubscriptMaps dims ∧
      op.offsets = dims.map (fun dim => foldOffset dim.offset) ∧
      op.sizes = dims.map BoxDim.size ∧ op.strides = dims.map BoxDim.stride := by
  have hlower : lowerIndirect s tileOp access.direction access.tensorType access.slice = .ok op := by
    unfold matchAndRewrite at h
    split at h
    · next hd => exact hd ▸ h
    · next hd => exact hd ▸ h
  obtain ⟨info, hinfo, rfl⟩ := Except.map_eq_ok.mp hlower
  unfold deriveIndirectOpInfo at hinfo
  obtain ⟨iabIndex, hiab, hinfo⟩ := Except.bind_eq_ok.mp hinfo
  obtain ⟨subscripts, hsub, hinfo⟩ := Except.bind_eq_ok.mp hinfo
  obtain ⟨dims, hdims, hinfo⟩ := Except.bind_eq_ok.mp hinfo
  cases hinfo
  exact ⟨hiab, rfl, dims, boxDims_for (decompose_ok hsub) (Except.mapM_eq_ok hdims), rfl, rfl, rfl⟩

end Subscripts

/-! ## The part of the tile -/

section Part

variable {tileOp : ConstructIndirectAccessTileOp} {access : Access}

/-- A variable has a dimension of the tile. -/
theorem Verified.getTileDim (hv : Verified tileOp access) {k j : Nat}
    (hk : k < tileOp.numIntermediateVariables) (hj : tileOp.getTileDim k = some j) :
    j < tileOp.numIntermediateVariables ∧
      tileOp.variablesSpaceOrder.results.idxOf (.dim j) = k := by
  obtain ⟨perm, hperm, hresults⟩ := hv.order
  unfold ConstructIndirectAccessTileOp.getTileDim at hj
  rw [hresults] at hj ⊢
  have hlen : k < perm.length := by
    rw [hperm.length_eq, List.length_range]
    exact hk
  rw [List.getElem?_map, List.getElem?_eq_getElem hlen] at hj
  cases hj
  refine ⟨List.mem_range.mp (hperm.mem_iff.mp (List.getElem_mem hlen)), ?_⟩
  have hnodup : (perm.map Expr.dim).Nodup :=
    (hperm.nodup_iff.mpr List.nodup_range).map fun a b h => Expr.dim.inj h
  have hidx := hnodup.idxOf_getElem k (by simpa using hlen)
  simpa using hidx

/-- What a walked dimension covers is what the part of the tile covers along the variable's dimension. -/
theorem Verified.sliceDim (hv : Verified tileOp access) {k j : Nat}
    (hk : k < tileOp.numIntermediateVariables) (hj : tileOp.getTileDim k = some j)
    (arguments : Nat → Int) :
    ((access.part tileOp).offsetsAt arguments)[j]? =
        some ((sliceDim tileOp access.slice k j).offset.eval arguments) ∧
    ((access.part tileOp).sizesAt arguments)[j]? =
        some ((sliceDim tileOp access.slice k j).size.eval arguments).toNat ∧
    ((access.part tileOp).stridesAt arguments)[j]? =
        some ((sliceDim tileOp access.slice k j).stride.eval arguments) := by
  obtain ⟨hjn, hidx⟩ := hv.getTileDim hk hj
  unfold Access.part Slice.offsetsAt Slice.sizesAt Slice.stridesAt KTIRBufferize.sliceDim
  cases hslice : access.slice with
  | none =>
      have hset : k < tileOp.variablesSpaceSet.length := hv.set ▸ hk
      simp [ConstructIndirectAccessTileOp.whole, ConstructIndirectAccessTileOp.tileShape, hjn, hidx,
        getTripCount, hset]
  | some slice =>
      obtain ⟨ho, hs, ht⟩ := hv.slice slice hslice
      simp [ho ▸ hjn, hs ▸ hjn, ht ▸ hjn]

theorem intermediateValues_getD (coordinate : List Int) {k : Nat}
    (hk : k < tileOp.numIntermediateVariables) :
    (tileOp.intermediateValues coordinate).getD k 0 =
      tileOp.lower k + coordinate.getD (tileOp.tileDim k) 0 := by
  simp [ConstructIndirectAccessTileOp.intermediateValues, hk]

end Part

/-! ## The joins position by position -/

section Joins

variable {s : Simplifier} {tileOp : ConstructIndirectAccessTileOp} {access : Access}
  {op : IndTransferOp} {dims : List BoxDim} {arguments : Nat → Int}

/-- Each subscript has its dimension. -/
theorem exists_dim
    (h : List.Forall₂ (fun map (dim : BoxDim) => dim.For s tileOp access.slice map)
      tileOp.perDimSubscriptMaps dims) {d : Nat} {map : Attribute}
    (hmap : tileOp.perDimSubscriptMaps[d]? = some map) :
    ∃ dim, dims[d]? = some dim ∧ dim.For s tileOp access.slice map := by
  obtain ⟨hd, rfl⟩ := List.getElem?_eq_some_iff.mp hmap
  have hd' : d < dims.length := h.length_eq ▸ hd
  exact ⟨dims[d], List.getElem?_eq_getElem hd', h.get hd hd'⟩

/-- The sizes of the box are what the walking variables walk. -/
theorem sizes_dims (hv : Verified tileOp access)
    (h : List.Forall₂ (fun map (dim : BoxDim) => dim.For s tileOp access.slice map)
      tileOp.perDimSubscriptMaps dims) :
    (dims.map fun dim => (dim.size.eval arguments).toNat) =
      walkedSizes s tileOp ((access.part tileOp).sizesAt arguments) := by
  apply List.ext_getElem?
  intro d
  unfold walkedSizes
  rw [List.getElem?_map, List.getElem?_map]
  cases hmap : tileOp.perDimSubscriptMaps[d]? with
  | none =>
      have hnone : dims[d]? = none := by
        rw [List.getElem?_eq_none_iff] at hmap ⊢
        exact h.length_eq ▸ hmap
      rw [hnone]
      rfl
  | some map =>
      obtain ⟨dim, hdim, hfor⟩ := exists_dim h hmap
      rw [hdim]
      cases hwalk : walkingIv s tileOp map with
      | none =>
          rw [Option.map_some, (hfor.still hwalk).1, Option.map_some, hwalk]
          rfl
      | some k =>
          obtain ⟨hk, j, hj, hsize, -, -⟩ := hfor.walked k hwalk
          obtain ⟨-, hs, -⟩ := hv.sliceDim hk hj arguments
          have htile : tileOp.tileDim k = j := by
            rw [ConstructIndirectAccessTileOp.tileDim, hj]
            rfl
          rw [Option.map_some, Option.map_some, hwalk]
          dsimp only
          rw [htile, hsize, List.getD_eq_getElem?_getD, hs]
          rfl

/-- **The joins agree position by position** on the base and on the entry. -/
theorem joinsKept_iff (hv : Verified tileOp access) (h : matchAndRewrite s tileOp access = .ok op)
    (arguments : Nat → Int) :
    ∃ dims : List BoxDim,
      List.Forall₂ (fun map (dim : BoxDim) => dim.For s tileOp access.slice map)
        tileOp.perDimSubscriptMaps dims ∧
      (JoinsKept tileOp access op arguments ↔
        ((access.part tileOp).sizesAt arguments).prod =
          (walkedSizes s tileOp ((access.part tileOp).sizesAt arguments)).prod ∧
        ∀ p < ((access.part tileOp).sizesAt arguments).prod,
          tileOp.join arguments (boxAt ((access.part tileOp).offsetsAt arguments)
            ((access.part tileOp).stridesAt arguments)
            (digits ((access.part tileOp).sizesAt arguments) p)) =
          ⟨boxAt (dims.map fun dim => dim.offset.eval arguments)
            (dims.map fun dim => dim.stride.eval arguments)
            (digits (walkedSizes s tileOp ((access.part tileOp).sizesAt arguments)) p),
            op.indAddrBufIndex.eval arguments⟩) := by
  obtain ⟨-, hbuf, dims, hdims, hoffsets, hsizes, hstrides⟩ := matchAndRewrite_ok h
  have hstride : op.indAddrBuf.stride.eval arguments = 1 := by
    rw [hbuf, buildIABView]
    split
    · next heq => rw [heq]; rfl
    · rfl
  refine ⟨dims, hdims, ?_⟩
  have ho : (⟨op.offsets, op.sizes, op.strides⟩ : Slice).offsetsAt arguments =
      dims.map fun dim => dim.offset.eval arguments := by
    rw [Slice.offsetsAt, hoffsets, List.map_map]
    apply List.map_congr_left
    intro dim _
    exact eval_foldOffset dim.offset arguments
  have hs : (⟨op.offsets, op.sizes, op.strides⟩ : Slice).sizesAt arguments =
      walkedSizes s tileOp ((access.part tileOp).sizesAt arguments) := by
    rw [← sizes_dims hv hdims, Slice.sizesAt, hsizes, List.map_map]
    rfl
  have ht : (⟨op.offsets, op.sizes, op.strides⟩ : Slice).stridesAt arguments =
      dims.map fun dim => dim.stride.eval arguments := by
    rw [Slice.stridesAt, hstrides, List.map_map]
    rfl
  unfold JoinsKept IndTransferOp.joins Slice.coordinates box
  rw [ho, hs, ht, hstride, List.map_map, List.map_map, map_points_eq_iff, Int.mul_one]
  rfl

/-- A list is the image of another element by element. -/
theorem map_eq_iff_getElem? {α β : Type} {f : α → β} {l : List α} {l' : List β}
    (hlen : l'.length = l.length) :
    l.map f = l' ↔ ∀ (d : Nat) (a : α), l[d]? = some a → l'[d]? = some (f a) := by
  constructor
  · rintro rfl d a ha
    rw [List.getElem?_map, ha]
    rfl
  · intro h
    apply List.ext_getElem?
    intro d
    rw [List.getElem?_map]
    cases ha : l[d]? with
    | none =>
        rw [List.getElem?_eq_none_iff] at ha
        exact (List.getElem?_eq_none (hlen ▸ ha)).symm
    | some a => exact (h d a ha).symm

/-- The coordinate of the tile at a position. -/
theorem coordinate_getD (hv : Verified tileOp access) {k j p : Nat}
    (hk : k < tileOp.numIntermediateVariables) (hj : tileOp.getTileDim k = some j)
    (hp : p < ((access.part tileOp).sizesAt arguments).prod) :
    (tileOp.intermediateValues (boxAt ((access.part tileOp).offsetsAt arguments)
        ((access.part tileOp).stridesAt arguments)
        (digits ((access.part tileOp).sizesAt arguments) p))).getD k 0 =
      tileOp.lower k + ((sliceDim tileOp access.slice k j).offset.eval arguments +
        (p / step ((access.part tileOp).sizesAt arguments) j %
          ((sliceDim tileOp access.slice k j).size.eval arguments).toNat : Nat) *
        (sliceDim tileOp access.slice k j).stride.eval arguments) := by
  obtain ⟨ho, hs, ht⟩ := hv.sliceDim hk hj arguments
  have htile : tileOp.tileDim k = j := by
    rw [ConstructIndirectAccessTileOp.tileDim, hj]
    rfl
  rw [intermediateValues_getD _ hk, htile, List.getD_eq_getElem?_getD,
    getElem?_boxAt hp ho hs ht]
  rfl

theorem forall_coordinates {P : List Int → Prop} :
    (∀ coordinate ∈ (access.part tileOp).coordinates arguments, P coordinate) ↔
      ∀ p < ((access.part tileOp).sizesAt arguments).prod,
        P (boxAt ((access.part tileOp).offsetsAt arguments)
          ((access.part tileOp).stridesAt arguments)
          (digits ((access.part tileOp).sizesAt arguments) p)) := by
  unfold Slice.coordinates box
  rw [points_eq_map_digits, List.map_map, List.forall_mem_map]
  simp only [List.mem_range, Function.comp_apply]

/-- **A walked dimension** has the subscript's values exactly if its variable starts at zero and walks
it in the rhythm of the tile. -/
theorem walked_iff (hv : Verified tileOp access)
    (h : List.Forall₂ (fun map (dim : BoxDim) => dim.For s tileOp access.slice map)
      tileOp.perDimSubscriptMaps dims)
    (hprod : ((access.part tileOp).sizesAt arguments).prod =
      (walkedSizes s tileOp ((access.part tileOp).sizesAt arguments)).prod)
    (hpos : 0 < ((access.part tileOp).sizesAt arguments).prod) {d k : Nat} {map : Attribute}
    (hmap : tileOp.perDimSubscriptMaps[d]? = some map) (hwalk : walkingIv s tileOp map = some k) :
    (∀ p < ((access.part tileOp).sizesAt arguments).prod,
      (boxAt (dims.map fun dim => dim.offset.eval arguments)
        (dims.map fun dim => dim.stride.eval arguments)
        (digits (walkedSizes s tileOp ((access.part tileOp).sizesAt arguments)) p))[d]? =
      some (subscriptValue (tileOp.captured arguments ++ tileOp.intermediateValues
        (boxAt ((access.part tileOp).offsetsAt arguments)
          ((access.part tileOp).stridesAt arguments)
          (digits ((access.part tileOp).sizesAt arguments) p))) map)) ↔
      WalksAlike s tileOp access arguments d k := by
  obtain ⟨dim, hdim, hfor⟩ := exists_dim h hmap
  obtain ⟨hk, j, hj, hsize, hstride, hvalue⟩ := hfor.walked k hwalk
  obtain ⟨-, hs, ht⟩ := hv.sliceDim hk hj arguments
  have htile : tileOp.tileDim k = j := by
    rw [ConstructIndirectAccessTileOp.tileDim, hj]
    rfl
  have hbox : (walkedSizes s tileOp ((access.part tileOp).sizesAt arguments))[d]? =
      some ((sliceDim tileOp access.slice k j).size.eval arguments).toNat := by
    rw [← sizes_dims hv h, List.getElem?_map, hdim, Option.map_some, hsize]
  have hdvd := step_mul_dvd hs
  have hdvd' := step_mul_dvd hbox
  rw [← hprod] at hdvd'
  unfold WalksAlike
  rw [htile, hs, ht]
  generalize hσ : ((sliceDim tileOp access.slice k j).size.eval arguments).toNat = σ at *
  generalize hτ : (sliceDim tileOp access.slice k j).stride.eval arguments = τ at *
  have hσpos : 0 < σ := Nat.pos_of_mul_pos_left (Nat.pos_of_dvd_of_pos hdvd hpos)
  -- At each position: the digits of the box against those of the tile.
  have hposition : ∀ p < ((access.part tileOp).sizesAt arguments).prod,
      ((boxAt (dims.map fun dim => dim.offset.eval arguments)
        (dims.map fun dim => dim.stride.eval arguments)
        (digits (walkedSizes s tileOp ((access.part tileOp).sizesAt arguments)) p))[d]? =
      some (subscriptValue (tileOp.captured arguments ++ tileOp.intermediateValues
        (boxAt ((access.part tileOp).offsetsAt arguments)
          ((access.part tileOp).stridesAt arguments)
          (digits ((access.part tileOp).sizesAt arguments) p))) map)) ↔
      ((p / step (walkedSizes s tileOp ((access.part tileOp).sizesAt arguments)) d % σ : Nat) : Int) *
        τ = tileOp.lower k +
          ((p / step ((access.part tileOp).sizesAt arguments) j % σ : Nat) : Int) * τ := by
    intro p hp
    have hcoordinate := coordinate_getD hv hk hj hp
    have hoffset := hvalue arguments (tileOp.intermediateValues
      (boxAt ((access.part tileOp).offsetsAt arguments)
        ((access.part tileOp).stridesAt arguments)
        (digits ((access.part tileOp).sizesAt arguments) p)))
    have ho' : (dims.map fun dim => dim.offset.eval arguments)[d]? =
        some (dim.offset.eval arguments) := by
      rw [List.getElem?_map, hdim]
      rfl
    have ht' : (dims.map fun dim => dim.stride.eval arguments)[d]? = some τ := by
      rw [List.getElem?_map, hdim, Option.map_some, hstride, hτ]
    rw [getElem?_boxAt (hprod ▸ hp) ho' hbox ht', Option.some_inj]
    rw [hcoordinate, hσ, hτ] at hoffset
    constructor
    · intro heq
      omega
    · intro heq
      omega
  constructor
  · intro hall
    have hlower : tileOp.lower k = 0 := by
      have hzero := (hposition 0 hpos).mp (hall 0 hpos)
      simpa using hzero.symm
    refine ⟨hlower, ?_⟩
    by_cases hτ0 : τ = 0
    · exact Or.inr (Or.inl (congrArg some hτ0))
    · have hdigits : ∀ p < ((access.part tileOp).sizesAt arguments).prod,
          p / step ((access.part tileOp).sizesAt arguments) j % σ =
            p / step (walkedSizes s tileOp ((access.part tileOp).sizesAt arguments)) d % σ := by
        intro p hp
        have heq := (hposition p hp).mp (hall p hp)
        rw [hlower, Int.zero_add] at heq
        exact (Int.natCast_inj.mp (Int.eq_of_mul_eq_mul_right hτ0 heq)).symm
      rcases (forall_digit_iff hσpos hdvd hdvd' hpos).mp hdigits with hone | hstep
      · exact Or.inl (congrArg some hone)
      · exact Or.inr (Or.inr hstep)
  · rintro ⟨hlower, halike⟩ p hp
    rw [hposition p hp, hlower, Int.zero_add]
    rcases halike with hone | hzero | hstep
    · rw [Option.some.inj hone, Nat.mod_one, Nat.mod_one]
    · rw [Option.some.inj hzero, Int.mul_zero, Int.mul_zero]
    · rw [hstep]

/-- **A dimension without a walking variable** has the subscript's values exactly if the subscript
stands still. -/
theorem still_iff (hv : Verified tileOp access)
    (h : List.Forall₂ (fun map (dim : BoxDim) => dim.For s tileOp access.slice map)
      tileOp.perDimSubscriptMaps dims)
    (hprod : ((access.part tileOp).sizesAt arguments).prod =
      (walkedSizes s tileOp ((access.part tileOp).sizesAt arguments)).prod) {d : Nat}
    {map : Attribute} (hmap : tileOp.perDimSubscriptMaps[d]? = some map)
    (hwalk : walkingIv s tileOp map = none) :
    (∀ p < ((access.part tileOp).sizesAt arguments).prod,
      (boxAt (dims.map fun dim => dim.offset.eval arguments)
        (dims.map fun dim => dim.stride.eval arguments)
        (digits (walkedSizes s tileOp ((access.part tileOp).sizesAt arguments)) p))[d]? =
      some (subscriptValue (tileOp.captured arguments ++ tileOp.intermediateValues
        (boxAt ((access.part tileOp).offsetsAt arguments)
          ((access.part tileOp).stridesAt arguments)
          (digits ((access.part tileOp).sizesAt arguments) p))) map)) ↔
      StandsStill tileOp access arguments map := by
  obtain ⟨dim, hdim, hfor⟩ := exists_dim h hmap
  obtain ⟨hsize, hstride, hvalue⟩ := hfor.still hwalk
  have hbox : (walkedSizes s tileOp ((access.part tileOp).sizesAt arguments))[d]? = some 1 := by
    rw [← sizes_dims hv h, List.getElem?_map, hdim, Option.map_some, hsize]
    rfl
  have ho' : (dims.map fun dim => dim.offset.eval arguments)[d]? =
      some (dim.offset.eval arguments) := by
    rw [List.getElem?_map, hdim]
    rfl
  have ht' : (dims.map fun dim => dim.stride.eval arguments)[d]? = some 1 := by
    rw [List.getElem?_map, hdim, Option.map_some, hstride]
    rfl
  unfold StandsStill
  rw [forall_coordinates]
  refine forall₂_congr fun p hp => ?_
  rw [getElem?_boxAt (hprod ▸ hp) ho' hbox ht', Nat.mod_one, hvalue, Option.some_inj]
  constructor
  · intro heq
    rw [← heq]
    exact Int.add_zero _
  · intro heq
    rw [heq]
    exact Int.add_zero _

/-- **The entry** that is read is the entry of the access exactly if it is kept. -/
theorem entry_iff {index : Value}
    (hindex : tileOp.getIabIndex = .ok index)
    (hpos : 0 < ((access.part tileOp).sizesAt arguments).prod) :
    (∀ p < ((access.part tileOp).sizesAt arguments).prod,
      (tileOp.join arguments (boxAt ((access.part tileOp).offsetsAt arguments)
        ((access.part tileOp).stridesAt arguments)
        (digits ((access.part tileOp).sizesAt arguments) p))).entry = index.eval arguments) ↔
      EntryKept tileOp access arguments := by
  have hlen : (tileOp.captured arguments).length = tileOp.capturedVariables.length := by
    simp [ConstructIndirectAccessTileOp.captured]
  unfold ConstructIndirectAccessTileOp.getIabIndex at hindex
  unfold EntryKept ConstructIndirectAccessTileOp.join
  split at hindex
  · next iabPos hiab =>
      rw [hiab]
      simp only [List.headD_cons, List.mem_singleton, forall_eq]
      split at hindex
      · next hcaptured =>
          cases hindex
          rw [if_pos hcaptured]
          have hvalue : (tileOp.captured arguments).getD iabPos 0 =
              tileOp.capturedVariables[iabPos].eval arguments := by
            simp [ConstructIndirectAccessTileOp.captured, hcaptured]
          have hget : ∀ vs, (tileOp.captured arguments ++ vs).getD iabPos 0 =
              tileOp.capturedVariables[iabPos].eval arguments := by
            intro vs
            rw [List.getD_append _ _ _ _ (hlen ▸ hcaptured), hvalue]
          rw [hvalue]
          constructor
          · intro hall
            have hzero := hall 0 hpos
            rw [hget] at hzero
            by_cases hk : tileOp.capturedVariables[iabPos].eval arguments = 0
            · exact Or.inl hk
            · exact Or.inr (Int.eq_one_of_mul_eq_self_right hk hzero)
          · rintro (hk | hone) p -
            · rw [hget, hk, Int.zero_mul]
            · rw [hget, hone, Int.mul_one]
      · next hvariable =>
          split at hindex
          · cases hindex
            rw [if_neg hvariable, forall_coordinates]
            have hget : ∀ vs, (tileOp.captured arguments ++ vs).getD iabPos 0 =
                vs.getD (iabPos - tileOp.capturedVariables.length) 0 := by
              intro vs
              rw [List.getD_append_right _ _ _ _ (by omega), hlen]
            constructor
            · intro hall
              by_cases hzero : tileOp.indAddrBufMemref.stride.eval arguments = 0
              · exact Or.inl hzero
              · refine Or.inr fun p hp => ?_
                have heq := hall p hp
                rw [hget] at heq
                exact (Int.mul_eq_zero.mp heq).resolve_right hzero
            · rintro (hzero | hall) p hp
              · rw [hzero, Int.mul_zero]
                rfl
              · rw [hget, hall p hp, Int.zero_mul]
                rfl
          · cases hindex
  · cases hindex

end Joins

/-- **Bufferizing an indirect access keeps the access relation** exactly where nothing is lost: for
every load, store or slice of a tile that is rewritten, and all values of its operands, the transfer
joins each element of the tensor, in row-major order, with the element of the base and the entry of the
address buffer that the access joins it with, if and only if the decomposition of the subscripts loses
nothing. -/
theorem matchAndRewrite_joinsKept_iff (s : Simplifier) (tileOp : ConstructIndirectAccessTileOp)
    (access : Access) (op : IndTransferOp) (hv : Verified tileOp access)
    (h : matchAndRewrite s tileOp access = .ok op) (arguments : Nat → Int) :
    JoinsKept tileOp access op arguments ↔ NothingLost s tileOp access arguments := by
  obtain ⟨hindex, -, -⟩ := matchAndRewrite_ok h
  obtain ⟨dims, hdims, hiff⟩ := joinsKept_iff hv h arguments
  rw [hiff]
  unfold NothingLost
  refine and_congr_right fun hprod => ?_
  rcases Nat.eq_zero_or_pos ((access.part tileOp).sizesAt arguments).prod with hempty | hpos
  · simp [hempty]
  · have hjoin : ∀ (x : Join) (base : List Int) (entry : Int),
        x = ⟨base, entry⟩ ↔ x.entry = entry ∧ x.base = base := by
      rintro ⟨base, entry⟩ base' entry'
      rw [Join.mk.injEq, and_comm]
    have hlen : ∀ p, (boxAt (dims.map fun dim => dim.offset.eval arguments)
        (dims.map fun dim => dim.stride.eval arguments)
        (digits (walkedSizes s tileOp ((access.part tileOp).sizesAt arguments)) p)).length =
          tileOp.perDimSubscriptMaps.length := by
      intro p
      apply length_boxAt
      · rw [List.length_map, hdims.length_eq]
      · exact List.length_map _
      · rw [List.length_map, hdims.length_eq]
    simp only [hjoin, hpos, forall_true_left, forall_and]
    rw [entry_iff hindex hpos]
    refine and_congr_right fun _ => ?_
    calc (∀ p < ((access.part tileOp).sizesAt arguments).prod, _ = _)
        ↔ ∀ (d : Nat) (map : Attribute), tileOp.perDimSubscriptMaps[d]? = some map →
            ∀ p < ((access.part tileOp).sizesAt arguments).prod, _ := by
          constructor
          · intro hall d map hmap p hp
            exact (map_eq_iff_getElem? (hlen p)).mp (hall p hp) d map hmap
          · intro hall p hp
            exact (map_eq_iff_getElem? (hlen p)).mpr fun d map hmap => hall d map hmap p hp
      _ ↔ _ := by
          refine forall_congr' fun d => forall_congr' fun map => forall_congr' fun hmap => ?_
          cases hwalk : walkingIv s tileOp map with
          | none => exact still_iff hv hdims hprod hmap hwalk
          | some k => exact walked_iff hv hdims hprod hpos hmap hwalk

/-! ## A row of four elements -/

/-- Cancels a subtracted summand and simplifies nothing else. -/
def cancelSummand : Simplifier where
  builder := .plain
  simplifyAffineExpr e _ _ :=
    match e with
    | .binary .add (.binary .add a b) (.binary .mul c (.constant k)) =>
        if b = c ∧ k = -1 then a else e
    | _ => e
  eval_simplifyAffineExpr := by
    intro e _ _ dims symbols
    split
    · next a b c k =>
        split
        · next h =>
            obtain ⟨rfl, rfl⟩ := h
            simp only [Expr.eval, BinaryKind.apply]
            omega
        · rfl
    · rfl

/-- Four elements of a row, from the variable's lower bound on: the first captured variable picks the
entry, the second is where the row starts. -/
def fourOfRow (lower : Int) : ConstructIndirectAccessTileOp where
  indAddrBufMemref := ⟨.index 1⟩
  indAddrBufDimPositions := [0]
  perDimSubscriptMaps := [.affineMap ⟨3, 0, [.binary .add (.dim 1) (.dim 2)]⟩]
  capturedVariables := [.argument 0, .argument 1]
  numIntermediateVariables := 1
  variablesSpaceSet := [⟨lower, 4⟩]
  variablesSpaceOrder := .identity 1

/-- A load of all four. -/
def loadFour : Access := ⟨.load, [some 4], none⟩

def indLoadFour : IndTransferOp where
  direction := .load
  tensorType := [some 4]
  indAddrBuf := ⟨.index 1⟩
  indAddrBufIndex := .argument 0
  offsets := [.value (.argument 1)]
  sizes := [.index 4]
  strides := [.index 1]

theorem fourOfRow_verified (lower : Int) : Verified (fourOfRow lower) loadFour where
  positions := by simp [fourOfRow]
  set := rfl
  order := ⟨[0], List.Perm.refl _, rfl⟩
  slice := by simp [loadFour]

theorem matchAndRewrite_fourOfRow (lower : Int) :
    matchAndRewrite cancelSummand (fourOfRow lower) loadFour = .ok indLoadFour := rfl

/-- From zero on, the row is kept. -/
theorem matchAndRewrite_joinsKept_iff_fourOfRow :
    NothingLost cancelSummand (fourOfRow 0) loadFour (fun _ => 7) :=
  (matchAndRewrite_joinsKept_iff cancelSummand (fourOfRow 0) loadFour indLoadFour
    (fourOfRow_verified 0) (matchAndRewrite_fourOfRow 0) fun _ => 7).mp (by decide)

/-- **A lower bound is lost**: from two on, the load takes the elements from zero on. -/
theorem not_joinsKept_fourOfRow :
    ∃ op, Verified (fourOfRow 2) loadFour ∧
      matchAndRewrite cancelSummand (fourOfRow 2) loadFour = .ok op ∧
      ¬JoinsKept (fourOfRow 2) loadFour op fun _ => 7 :=
  ⟨indLoadFour, fourOfRow_verified 2, matchAndRewrite_fourOfRow 2, by decide⟩

end KTIRBufferize

end DataflowScheduler
