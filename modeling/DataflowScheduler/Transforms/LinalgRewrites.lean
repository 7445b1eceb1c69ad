import DataflowScheduler.Transforms.SlicedOperands
import Mathlib.Data.Prod.Lex

/-!
# The patterns of `SimplifyLinalg` in any order

The slices of `NormalizeStrides` are sound, those of `ShrinkOperands` only if they are in the
operand: the bounds of a dimension can come from other dimensions, and nothing compares them with an
extent that is known at run time only. The patterns stop to match in any case.
-/

namespace DataflowScheduler

namespace SimplifyLinalg

open Affine Structured

variable {α : Type} {lib : AffineLibrary} {g : Generic α}

/-! ## What is kept of a slice -/

section Keep

variable {d : Dim} {dim : DimSlice} {rebased : Expr} {loopRanges : List (Option Nat)}

theorem keepSlice_eq_some {d : DimType} {dim' : DimSlice}
    (h : keepSlice lib loopRanges d dim = some (dim', rebased)) :
    dim' = dim ∧ ¬ (dim.offset = 0 ∧ dim.stride = 1 ∧ d.extent.map Int.ofNat = some dim.size) ∧
      rebased = lib.simplifyAffineExpr loopRanges.length (rebase d.index dim.offset dim.stride) ∧
      changesRange loopRanges dim rebased = false := by
  rw [keepSlice] at h
  split at h
  · cases h
  · next hpart =>
    simp only at h
    split at h
    · cases h
    · next hchanges =>
      cases h
      exact ⟨rfl, hpart, rfl, Bool.eq_false_iff.mpr hchanges⟩

theorem valueAt_rebase (dims : Nat → Int) (e : Expr) (offset stride : Int) :
    valueAt dims (rebase e offset stride) = (valueAt dims e + -offset).fdiv stride := rfl

/-- What is accessed through an exact division is what was accessed. -/
theorem valueAt_rebased {dims : Nat → Int} {e : Expr} {offset stride k : Int} (hstride : 0 < stride)
    (h : offset + k * stride = valueAt dims e) (n : Nat) :
    valueAt dims (lib.simplifyAffineExpr n (rebase e offset stride)) = k := by
  rw [valueAt, lib.eval_simplify]
  show valueAt dims (rebase e offset stride) = k
  have hsub : valueAt dims e + -offset = k * stride := by omega
  rw [valueAt_rebase, hsub]
  exact Int.mul_fdiv_cancel k hstride.ne'

/-- A kept slice is sound if it is in the dimension, holds what is accessed, and takes what is
accessed plainly from its start. -/
theorem soundSlice_of_keepSlice
    (h : keepSlice lib g.staticLoopRanges d.toDimType dim = some (dim, rebased))
    (hstride : 0 < dim.stride) (hfits : (materialize d (some (dim, rebased))).Fits d.size)
    (hindex : ∀ p ∈ g.points, ∃ k, 0 ≤ k ∧ k < dim.size ∧
      dim.offset + k * dim.stride = valueAt (loopsAt p) d.index)
    (hplain : ∀ loop, d.index = .dim loop → dim.offset = 0 ∧ dim.stride = 1) :
    SoundSlice g d dim rebased := by
  obtain ⟨-, -, rfl, hrange⟩ := keepSlice_eq_some h
  refine ⟨hstride, hfits, ?_, ?_, ?_⟩
  · intro p hp
    obtain ⟨k, hpos, hlt, heq⟩ := hindex p hp
    rw [valueAt_rebased hstride heq]
    exact ⟨hpos, hlt, heq⟩
  · intro loop hloop
    obtain ⟨hoffset, hone⟩ := hplain loop hloop
    rw [hloop, hoffset, hone]
    exact lib.simplify_dim _ loop
  · intro loop hloop
    rw [hloop, changesRange, decide_eq_false_iff_not, ne_eq, not_not] at hrange
    obtain ⟨n, hn, hsize⟩ := Option.map_eq_some_iff.mp hrange
    rw [hn, ← hsize]
    rfl

/-- Where the slices that are kept come from. -/
theorem of_mem_sliceDims {dims : List Dim} {slices : List (Option DimSlice)} {slice : OperandSlice}
    (h : sliceDims lib loopRanges (dims.map Dim.toDimType) slices = some slice)
    (hlength : slices.length = dims.length) :
    slice.length = dims.length ∧
      ∀ d dim rebased, (d, some (dim, rebased)) ∈ dims.zip slice →
        (d, some dim) ∈ dims.zip slices ∧
          keepSlice lib loopRanges d.toDimType dim = some (dim, rebased) := by
  rw [sliceDims] at h
  split at h
  · obtain rfl := Option.some.inj h
    refine ⟨by simp [hlength], ?_⟩
    intro d dim rebased hmem
    obtain ⟨i, hi, heq⟩ := List.getElem_of_mem hmem
    simp only [List.length_zip, List.length_map] at hi
    simp only [List.getElem_zip, List.getElem_map, Prod.mk.injEq] at heq
    obtain ⟨hd, hkeep⟩ := heq
    obtain ⟨dim', hdim', hkeep⟩ := Option.bind_eq_some_iff.mp hkeep
    rw [hd] at hkeep
    obtain ⟨rfl, -⟩ := keepSlice_eq_some hkeep
    refine ⟨List.mem_iff_getElem.mpr ⟨i, by simp; omega, ?_⟩, hkeep⟩
    simp [hd, hdim']
  · cases h

end Keep

/-! ## `NormalizeStrides` -/

namespace FlatExpr

theorem foldl_gcd_dvd (coefficients : List Int) (stride : Nat) :
    let gcd := coefficients.foldl (fun stride coeff => Nat.gcd stride coeff.natAbs) stride
    gcd ∣ stride ∧ ∀ coeff ∈ coefficients, gcd ∣ coeff.natAbs := by
  induction coefficients generalizing stride with
  | nil => simp
  | cons coeff coefficients ih =>
    obtain ⟨hdvd, hrest⟩ := ih (Nat.gcd stride coeff.natAbs)
    rw [Nat.dvd_gcd_iff] at hdvd
    exact ⟨hdvd.1, List.forall_mem_cons.mpr ⟨hdvd.2, hrest⟩⟩

theorem foldl_add_dvd {stride : Int} {coefficients : List Int} (h : ∀ c ∈ coefficients, stride ∣ c)
    (values : List Int) (sum : Int) :
    stride ∣ (List.zipWith (· * ·) coefficients values).foldl (· + ·) sum - sum := by
  induction coefficients generalizing values sum with
  | nil => simp
  | cons c coefficients ih =>
    rw [List.forall_mem_cons] at h
    cases values with
    | nil => simp
    | cons v values =>
      have hrest := ih h.2 values (sum + c * v)
      have hhead : stride ∣ c * v := Int.dvd_mul_of_dvd_left h.1
      rw [List.zipWith_cons_cons, List.foldl_cons]
      have := Int.dvd_add hrest hhead
      rwa [show ∀ a : Int, a - (sum + c * v) + c * v = a - sum by omega] at this

/-- Indices are congruent to the constant term modulo the gcd of the coefficients. -/
theorem stride_dvd (f : FlatExpr) (values : List Int) :
    (f.stride : Int) ∣ f.eval values - f.constant := by
  apply foldl_add_dvd
  intro c hc
  exact Int.natCast_dvd.mpr ((foldl_gcd_dvd f.coefficients 0).2 c hc)

end FlatExpr

section Strided

variable {loopRanges : List (Option Nat)}

theorem stridedSlice_eq_some {d : DimType} {dim : DimSlice}
    (h : stridedSlice lib loopRanges d = some dim) :
    ∃ (n : Nat) (flat : FlatExpr), d.extent = some n ∧
      lib.getFlattenedAffineExpr loopRanges.length d.index = some flat ∧ 1 < flat.stride ∧
      dim.offset = flat.constant % flat.stride ∧ dim.offset < n ∧
      dim.size = -((-((n : Int) - dim.offset)).fdiv flat.stride) ∧ dim.stride = flat.stride := by
  obtain ⟨n, hn, h⟩ := Option.bind_eq_some_iff.mp h
  obtain ⟨flat, hflat, h⟩ := Option.bind_eq_some_iff.mp h
  simp only at h
  split at h
  · cases h
  · next hstride =>
    split at h
    · cases h
    · next hoffset =>
      cases h
      exact ⟨n, flat, hn, hflat, by omega, rfl, by simpa using hoffset, rfl, rfl⟩

/-- The number of elements at offset and stride in an extent. -/
theorem ceilDiv_bounds {a stride : Int} (hstride : 0 < stride) :
    (-((-a).fdiv stride) - 1) * stride < a ∧ a ≤ -((-a).fdiv stride) * stride := by
  rw [Int.fdiv_eq_ediv_of_nonneg _ hstride.le]
  have hdiv := Int.mul_ediv_add_emod (-a) stride
  have hmod := Int.emod_lt_of_pos (-a) hstride
  have hpos := Int.emod_nonneg (-a) hstride.ne'
  rw [Int.mul_comm] at hdiv
  rw [Int.sub_mul, Int.neg_mul]
  constructor <;> omega

/-- An index into a dimension is an element of the strided slice. -/
theorem stridedSlice_index {d : DimType} {dim : DimSlice}
    (h : stridedSlice lib loopRanges d = some dim) {dims : Nat → Int} (hd : d.Admits dims) :
    ∃ k, 0 ≤ k ∧ k < dim.size ∧ dim.offset + k * dim.stride = valueAt dims d.index := by
  obtain ⟨n, flat, hn, hflat, hone, hoffset, -, hsize, hstride⟩ := stridedSlice_eq_some h
  obtain ⟨values, hvalues⟩ := lib.eval_flattened _ _ _ hflat dims
  have hpos : (0 : Int) < flat.stride := by omega
  have hdvd : (flat.stride : Int) ∣ valueAt dims d.index - dim.offset := by
    have hconstant : (flat.stride : Int) ∣ flat.constant - dim.offset := by
      rw [hoffset]
      exact Int.dvd_self_sub_emod
    have hsum := Int.dvd_add (flat.stride_dvd values) hconstant
    rw [← hvalues] at hsum
    rwa [sub_add_sub_cancel] at hsum
  obtain ⟨k, hk⟩ := hdvd
  have hmod := Int.emod_lt_of_pos flat.constant hpos
  have hlow := hd.1
  have hhigh := hd.2 n hn
  rw [Int.mul_comm] at hk
  refine ⟨k, ?_, ?_, by rw [hstride]; omega⟩
  · by_contra hneg
    have : k * flat.stride ≤ -1 * flat.stride :=
      Int.mul_le_mul_of_nonneg_right (by omega) hpos.le
    omega
  · have hceil := (ceilDiv_bounds (a := n - dim.offset) hpos).2
    rw [← hsize] at hceil
    exact Int.lt_of_mul_lt_mul_right (a := (flat.stride : Int)) (by omega) hpos.le

/-- The strided slice is in the dimension. -/
theorem stridedSlice_fits {d : Dim} {dim : DimSlice}
    (h : stridedSlice lib loopRanges d.toDimType = some dim)
    (htyped : ∀ n, d.extent = some n → d.size = n) (rebased : Expr) :
    (materialize d (some (dim, rebased))).Fits d.size := by
  obtain ⟨n, flat, hn, -, hone, hoffset, -, hsize, hstride⟩ := stridedSlice_eq_some h
  have hpos : (0 : Int) < flat.stride := by omega
  have hceil := (ceilDiv_bounds (a := n - dim.offset) hpos).1
  rw [← hsize] at hceil
  rw [htyped n hn]
  show dim.size.toNat = 0 ∨ 0 ≤ dim.offset ∧
    dim.offset + ((dim.size.toNat : Int) - 1) * dim.stride < n
  by_cases hempty : dim.size.toNat = 0
  · exact .inl hempty
  · refine .inr ⟨hoffset ▸ Int.emod_nonneg _ hpos.ne', ?_⟩
    have hnat : (dim.size.toNat : Int) = dim.size := Int.toNat_of_nonneg (by omega)
    rw [hnat, hstride]
    omega

/-- The coefficient of a plain access is one. -/
theorem stridedSlice_dim {d : DimType} {loop : Nat} (hd : d.index = .dim loop) :
    stridedSlice lib loopRanges d = none := by
  rw [Option.eq_none_iff_forall_ne_some]
  intro dim h
  obtain ⟨n, flat, -, hflat, hone, -⟩ := stridedSlice_eq_some h
  rw [hd] at hflat
  obtain ⟨zeros, hzero⟩ := lib.eval_flattened _ _ _ hflat fun _ => 0
  obtain ⟨ones, hunit⟩ := lib.eval_flattened _ _ _ hflat fun _ => 1
  have hdvd := Int.dvd_sub (flat.stride_dvd ones) (flat.stride_dvd zeros)
  rw [← hzero, ← hunit] at hdvd
  have hle := Int.le_of_dvd (by simp) hdvd
  simp at hle
  omega

theorem mem_zip_map {β γ : Type} {l : List β} {f : β → γ} {b : β} {c : γ}
    (h : (b, c) ∈ l.zip (l.map f)) : f b = c := by
  obtain ⟨i, hi, heq⟩ := List.getElem_of_mem h
  simp only [List.getElem_zip, List.getElem_map, Prod.mk.injEq] at heq
  rw [← heq.1, heq.2]

/-- **Normalized strides are sound.** -/
theorem computeStridedSlice_sound (hg : g.WellFormed) (hin : g.InBounds) :
    AllSound g (computeStridedSlice lib g.staticLoopRanges) := by
  intro o ho slice hslice
  obtain ⟨hlength, hmem⟩ := of_mem_sliceDims hslice (by simp [Operand.types])
  refine ⟨hlength, ?_⟩
  intro d dim rebased hd
  obtain ⟨hstrided, hkeep⟩ := hmem d dim rebased hd
  have hdims : d ∈ g.dims := List.mem_flatMap.mpr ⟨o, ho, (List.of_mem_zip hd).1⟩
  rw [Operand.types, List.map_map] at hstrided
  have hsome : stridedSlice lib g.staticLoopRanges d.toDimType = some dim :=
    mem_zip_map (f := stridedSlice lib g.staticLoopRanges ∘ Dim.toDimType) hstrided
  obtain ⟨-, flat, -, -, hone, -, -, -, hstride⟩ := stridedSlice_eq_some hsome
  apply soundSlice_of_keepSlice hkeep
  · omega
  · exact stridedSlice_fits hsome (hg.typed d hdims) rebased
  · intro p hp
    exact stridedSlice_index hsome (hg.admits hin hp hdims)
  · intro loop hloop
    rw [stridedSlice_dim hloop] at hsome
    cases hsome

end Strided

/-! ## `ShrinkOperands` -/

/-- The slices that `ShrinkOperands` takes of dimensions that are dynamic are in them, and those of
plain accesses start at the first element. -/
def ShrinkFits (lib : AffineLibrary) (g : Generic α) : Prop :=
  ∀ o ∈ g.operands, ¬ (o.types.all fun d => isConstant d.index) = true →
    ∀ bounds, lib.getConstantBounds g.staticLoopRanges o.types = some bounds →
      ∀ d lb ub, (d, (some lb, some ub)) ∈ o.dims.zip bounds →
        (keepSlice lib g.staticLoopRanges d.toDimType ⟨lb, ub - lb + 1, 1⟩).isSome →
          (d.extent = none → ub < lb ∨ ub < d.size) ∧ ∀ loop, d.index = .dim loop → lb = 0

section Accessed

theorem boundedSlice_eq_some {b : Option Int × Option Int} {dim : DimSlice}
    (h : boundedSlice b = some dim) :
    ∃ lb ub, b = (some lb, some ub) ∧ dim = ⟨lb, ub - lb + 1, 1⟩ := by
  obtain ⟨_ | lb, _ | ub⟩ := b
  · cases h
  · cases h
  · cases h
  · exact ⟨lb, ub, rfl, (Option.some.inj h).symm⟩

/-- Where the slices that are taken come from. -/
theorem of_mem_computeAccessedSlice {loopRanges : List (Option Nat)} {o : Operand α}
    {slice : OperandSlice} (h : computeAccessedSlice lib loopRanges o.types = some slice) :
    ¬ (o.types.all fun d => isConstant d.index) = true ∧
      ∃ bounds, lib.getConstantBounds loopRanges o.types = some bounds ∧
        slice.length = o.dims.length ∧
          ∀ d dim rebased, (d, some (dim, rebased)) ∈ o.dims.zip slice →
            ∃ lb ub, (d, (some lb, some ub)) ∈ o.dims.zip bounds ∧ dim = ⟨lb, ub - lb + 1, 1⟩ ∧
              keepSlice lib loopRanges d.toDimType dim = some (dim, rebased) := by
  rw [computeAccessedSlice] at h
  split at h
  · cases h
  · next hconstant =>
    obtain ⟨bounds, hbounds, h⟩ := Option.bind_eq_some_iff.mp h
    have hlength := (lib.constantBounds _ _ _ hbounds).length
    rw [Operand.types, List.length_map] at hlength
    obtain ⟨hslice, hmem⟩ := of_mem_sliceDims h (by rw [List.length_map, hlength])
    refine ⟨hconstant, bounds, hbounds, hslice, ?_⟩
    intro d dim rebased hd
    obtain ⟨hdim, hkeep⟩ := hmem d dim rebased hd
    rw [List.zip_map_right] at hdim
    obtain ⟨⟨d', b⟩, hmem', heq⟩ := List.mem_map.mp hdim
    obtain ⟨rfl, hb⟩ := Prod.mk.inj heq
    obtain ⟨lb, ub, rfl, rfl⟩ := boundedSlice_eq_some hb
    exact ⟨lb, ub, hmem', rfl, hkeep⟩

/-- Bounds of a dimension of the operand are bounds of the dimension of its type. -/
theorem mem_zip_types {o : Operand α} {bounds : List (Option Int × Option Int)} {d : Dim}
    {b : Option Int × Option Int} (h : (d, b) ∈ o.dims.zip bounds) :
    (d.toDimType, b) ∈ o.types.zip bounds := by
  rw [Operand.types, List.zip_map_left]
  exact List.mem_map_of_mem (f := Prod.map Dim.toDimType id) h

/-- **Accessed slices are sound where they fit.** -/
theorem computeAccessedSlice_sound (hg : g.WellFormed) (hin : g.InBounds) (h : ShrinkFits lib g) :
    AllSound g (computeAccessedSlice lib g.staticLoopRanges) := by
  intro o ho slice hslice
  obtain ⟨hconstant, bounds, hbounds, hlength, hmem⟩ := of_mem_computeAccessedSlice hslice
  have hlaws := lib.constantBounds _ _ _ hbounds
  refine ⟨hlength, ?_⟩
  intro d dim rebased hd
  obtain ⟨lb, ub, hb, rfl, hkeep⟩ := hmem d dim rebased hd
  have hdims : ∀ d ∈ o.dims, d ∈ g.dims := fun d hd => List.mem_flatMap.mpr ⟨o, ho, hd⟩
  have hdim := hdims d (List.of_mem_zip hd).1
  obtain ⟨hlow, hsize, hextent⟩ := hlaws.given _ _ _ (mem_zip_types hb)
  obtain ⟨hdynamic, hplain⟩ := h o ho hconstant bounds hbounds d lb ub hb (by rw [hkeep]; rfl)
  apply soundSlice_of_keepSlice hkeep
  · exact Int.one_pos
  · show (ub - lb + 1).toNat = 0 ∨ 0 ≤ lb ∧ lb + (((ub - lb + 1).toNat : Int) - 1) * 1 < d.size
    cases hstatic : d.extent with
    | none =>
      have := hdynamic hstatic
      omega
    | some n =>
      have := hextent n hstatic
      rw [hg.typed d hdim n hstatic]
      omega
  · intro p hp
    have hadmits : ∀ t ∈ o.types, t.Admits (loopsAt p) := by
      intro t ht
      obtain ⟨d, hd, rfl⟩ := List.mem_map.mp ht
      exact hg.admits hin hp (hdims d hd)
    obtain ⟨hlb, hub⟩ := hlaws.valid _ (hg.inRanges hp) hadmits _ _ (mem_zip_types hb)
    have hlb := hlb lb rfl
    have hub := hub ub rfl
    refine ⟨valueAt (loopsAt p) d.index - lb, by omega, ?_, ?_⟩
    · show valueAt (loopsAt p) d.index - lb < ub - lb + 1
      omega
    · show lb + (valueAt (loopsAt p) d.index - lb) * 1 = valueAt (loopsAt p) d.index
      omega
  · intro loop hloop
    exact ⟨hplain loop hloop, rfl⟩

end Accessed

/-! ## Runs of patterns -/

/-- A step finds slices that fit. Only `ShrinkOperands` asks for anything. -/
def StepFits (lib : AffineLibrary) (g : Generic α) : Pattern α → Prop
  | .shrinkOperands => ShrinkFits lib g
  | .normalizeStrides => True
  | .demoteInitToInput _ => True

/-- All steps of a run find slices that fit. -/
def StepsFit (lib : AffineLibrary) : Generic α → List (Pattern α) → Prop
  | _, [] => True
  | g, pattern :: patterns =>
      StepFits lib g pattern ∧
        ∀ r, matchAndRewrite lib g pattern = some r → StepsFit lib r.generic patterns

/-- The pattern only slices operands. -/
def Pattern.slices : Pattern α → Bool
  | .shrinkOperands => true
  | .normalizeStrides => true
  | .demoteInitToInput _ => false

section Runs

variable [Inhabited α]

theorem matchAndRewrite_keeps {pattern : Pattern α} {r : Rewritten α} (hg : g.WellFormed)
    (hin : g.InBounds) (hfit : StepFits lib g pattern)
    (hr : matchAndRewrite lib g pattern = some r) :
    Keeps g r ∧ (pattern.slices = true → r.generic.staticLoopRanges = g.staticLoopRanges) := by
  cases pattern with
  | shrinkOperands =>
    obtain ⟨hkeeps, hstatic⟩ :=
      sliceOperands_keeps hg hin (computeAccessedSlice_sound hg hin hfit) hr
    exact ⟨hkeeps, fun _ => hstatic⟩
  | normalizeStrides =>
    obtain ⟨hkeeps, hstatic⟩ := sliceOperands_keeps hg hin (computeStridedSlice_sound hg hin) hr
    exact ⟨hkeeps, fun _ => hstatic⟩
  | demoteInitToInput contents => exact ⟨demoteInitToInput_keeps hg hin hr, fun h => by cases h⟩

theorem rewriteAll_keeps {patterns : List (Pattern α)} {r : Rewritten α} (hg : g.WellFormed)
    (hin : g.InBounds) (hfit : StepsFit lib g patterns) (hr : rewriteAll lib g patterns = some r) :
    Keeps g r ∧
      (patterns.all Pattern.slices = true → r.generic.staticLoopRanges = g.staticLoopRanges) := by
  induction patterns generalizing g r with
  | nil =>
    cases hr
    exact ⟨.unchanged hg hin, fun _ => rfl⟩
  | cons pattern patterns ih =>
    obtain ⟨first, hfirst, hr⟩ := Option.bind_eq_some_iff.mp hr
    obtain ⟨next, hnext, rfl⟩ := Option.map_eq_some_iff.mp hr
    obtain ⟨hkeeps, hstatic⟩ := matchAndRewrite_keeps hg hin hfit.1 hfirst
    obtain ⟨hkeeps', hstatic'⟩ := ih hkeeps.wellFormed hkeeps.inBounds (hfit.2 first hfirst) hnext
    have htogether : Keeps g (first.andThen fun _ => next) := hkeeps.andThen hkeeps'
    refine ⟨htogether, ?_⟩
    intro hslices
    rw [List.all_cons, Bool.and_eq_true] at hslices
    exact (hstatic' hslices.2).trans (hstatic hslices.1)

end Runs

/-! ## Termination -/

/-- A pattern makes one operation of another. -/
def Rewrites (lib : AffineLibrary) (g' g : Generic α) : Prop :=
  ∃ pattern r, matchAndRewrite lib g pattern = some r ∧ r.generic = g'

/-- `NormalizeStrides` looks at the dimension. -/
def isStrided (lib : AffineLibrary) (numLoops : Nat) (e : Expr) : Bool :=
  (lib.getFlattenedAffineExpr numLoops e).any fun flat => decide (1 < flat.stride)

def dynamicDims (d : Dim) : Nat := d.extent.elim 1 fun _ => 0

/-- A static extent, and whether it is accessed with a stride. -/
def weight (lib : AffineLibrary) (numLoops : Nat) (d : Dim) : Nat :=
  d.extent.elim 0 fun n => 2 * n + (isStrided lib numLoops d.index).toNat

def total (f : Dim → Nat) (dims : List Dim) : Nat := dims.foldr (fun d sum => f d + sum) 0

def unchangedInits (g : Generic α) : Nat := (List.range g.inits.length).countP (isUnchanged g)

/-- What gets smaller: the inits that are yielded unchanged, the dynamic dimensions, the weights. -/
def rank (lib : AffineLibrary) (g : Generic α) : Nat × Nat × Nat :=
  (unchangedInits g, total dynamicDims g.dims, total (weight lib g.numLoops) g.dims)

/-- The dimension is less than the other. -/
def Lowers (lib : AffineLibrary) (numLoops : Nat) (d' d : Dim) : Prop :=
  dynamicDims d' < dynamicDims d ∨
    dynamicDims d' = dynamicDims d ∧ weight lib numLoops d' < weight lib numLoops d

section Termination

variable {numLoops : Nat}

/-- Where some dimensions are lowered and the others are kept, the totals are lowered. -/
theorem total_lowers {pairs : List (Dim × Dim)}
    (h : ∀ x ∈ pairs, x.2 = x.1 ∨ Lowers lib numLoops x.2 x.1) :
    (pairs.map Prod.snd = pairs.map Prod.fst ∨
      total dynamicDims (pairs.map Prod.snd) < total dynamicDims (pairs.map Prod.fst) ∨
      total dynamicDims (pairs.map Prod.snd) = total dynamicDims (pairs.map Prod.fst) ∧
        total (weight lib numLoops) (pairs.map Prod.snd) <
          total (weight lib numLoops) (pairs.map Prod.fst)) ∧
    ((∃ x ∈ pairs, Lowers lib numLoops x.2 x.1) →
      pairs.map Prod.snd ≠ pairs.map Prod.fst) := by
  induction pairs with
  | nil => simp
  | cons x pairs ih =>
    rw [List.forall_mem_cons] at h
    obtain ⟨ih, ihne⟩ := ih h.2
    have htotal : ∀ (f : Dim → Nat) (d : Dim) (dims : List Dim),
        total f (d :: dims) = f d + total f dims := fun _ _ _ => rfl
    have hirrefl : x.2 = x.1 → ¬ Lowers lib numLoops x.2 x.1 := by
      intro heq hlowers
      rw [heq, Lowers] at hlowers
      omega
    constructor
    · simp only [List.map_cons, htotal]
      rcases h.1 with heq | hlowers
      · rw [heq]
        rcases ih with hsame | hless
        · exact .inl (by rw [hsame])
        · omega
      · rw [Lowers] at hlowers
        rcases ih with hsame | hless
        · rw [hsame]
          omega
        · omega
    · rintro ⟨y, hy, hlowers⟩ heq
      rw [List.map_cons, List.map_cons] at heq
      obtain ⟨hhead, htail⟩ := List.cons.inj heq
      rcases List.mem_cons.mp hy with rfl | hy
      · exact hirrefl hhead hlowers
      · exact ihne ⟨y, hy, hlowers⟩ htail

/-- A slice of a dynamic dimension makes it static, one of a static dimension makes it smaller or
takes the stride from its index. -/
theorem lowers_of_bounded {d : Dim} {lb ub : Int} {rebased : Expr} {loopRanges : List (Option Nat)}
    (hgiven : 0 ≤ lb ∧ lb ≤ ub + 1 ∧ ∀ n, d.extent = some n → ub < n)
    (h : keepSlice lib loopRanges d.toDimType ⟨lb, ub - lb + 1, 1⟩ =
      some (⟨lb, ub - lb + 1, 1⟩, rebased)) :
    Lowers lib numLoops (slicedDim d (some (⟨lb, ub - lb + 1, 1⟩, rebased))) d := by
  obtain ⟨-, hpart, -, -⟩ := keepSlice_eq_some h
  rw [Lowers, dynamicDims, dynamicDims, weight, weight]
  cases hextent : d.extent with
  | none => exact .inl Nat.zero_lt_one
  | some n =>
    refine .inr ⟨rfl, ?_⟩
    have hub := hgiven.2.2 n hextent
    have hne : ¬ (lb = 0 ∧ (n : Int) = ub - lb + 1) := by
      rintro ⟨hlb, hsize⟩
      exact hpart ⟨hlb, rfl, by rw [hextent, ← hsize]; rfl⟩
    have hbool := Bool.toNat_le (isStrided lib numLoops rebased)
    show 2 * (ub - lb + 1).toNat + (isStrided lib numLoops rebased).toNat < 2 * n + _
    omega

theorem lowers_of_strided {d : Dim} {dim : DimSlice} {rebased : Expr}
    {loopRanges : List (Option Nat)} (hloops : loopRanges.length = numLoops)
    (hdim : stridedSlice lib loopRanges d.toDimType = some dim)
    (h : keepSlice lib loopRanges d.toDimType dim = some (dim, rebased)) :
    Lowers lib numLoops (slicedDim d (some (dim, rebased))) d := by
  obtain ⟨-, -, hrebased, -⟩ := keepSlice_eq_some h
  obtain ⟨n, flat, hn, hflat, hone, hoffset, hlt, hsize, hstride⟩ := stridedSlice_eq_some hdim
  rw [hloops] at hflat hrebased
  have hstrided : isStrided lib numLoops d.index = true := by
    rw [isStrided, hflat]
    exact decide_eq_true hone
  -- the division by the stride is exact and leaves none
  have hplain : isStrided lib numLoops rebased = false := by
    rw [isStrided, Option.any_eq_false]
    intro rebasedFlat hrebasedFlat
    rw [hrebased, hstride] at hrebasedFlat
    have hdvd : (flat.stride : Int) ∣ flat.constant - dim.offset := by
      rw [hoffset]
      exact Int.dvd_self_sub_emod
    have hmul := lib.stride_rebased _ _ _ hflat _ hdvd _ hrebasedFlat
    have hunit : rebasedFlat.stride = 1 := Nat.eq_of_mul_eq_mul_right
      (show 0 < flat.stride by omega) (hmul.trans (Nat.one_mul _).symm)
    simp [hunit]
  rw [Lowers, dynamicDims, dynamicDims, weight, weight, hn]
  refine .inr ⟨rfl, ?_⟩
  show 2 * dim.size.toNat + (isStrided lib numLoops rebased).toNat <
    2 * n + (isStrided lib numLoops d.index).toNat
  rw [hstrided, hplain, Bool.toNat_true, Bool.toNat_false]
  have hpositive : (0 : Int) < flat.stride := by omega
  have hceil := (ceilDiv_bounds (a := n - dim.offset) hpositive).1
  rw [← hsize] at hceil
  have hpos : 0 ≤ dim.offset := hoffset ▸ Int.emod_nonneg _ (by omega)
  by_cases hsmall : dim.size ≤ 1
  · omega
  · have : (dim.size - 1) * 2 ≤ (dim.size - 1) * flat.stride :=
      Int.mul_le_mul_of_nonneg_left (by omega) (by omega)
    omega

theorem exists_isSome_of_sliceDims {loopRanges : List (Option Nat)} {types : List DimType}
    {slices : List (Option DimSlice)} {slice : OperandSlice}
    (h : sliceDims lib loopRanges types slices = some slice) : ∃ s ∈ slice, s.isSome = true := by
  rw [sliceDims] at h
  split at h
  · next hany =>
    cases h
    exact List.any_eq_true.mp hany
  · cases h

/-- The slice takes a part of some dimension, and lowers every dimension that it takes a part of. -/
structure LowersSlice (lib : AffineLibrary) (numLoops : Nat) (o : Operand α) (slice : OperandSlice) :
    Prop where
  length : slice.length = o.dims.length
  sliced : ∃ s ∈ slice, s.isSome = true
  lowers : ∀ d dim rebased, (d, some (dim, rebased)) ∈ o.dims.zip slice →
    Lowers lib numLoops (slicedDim d (some (dim, rebased))) d

/-- The dimensions of an operand, each with what becomes of it. -/
def dimPairs (computeSlice : List DimType → Option OperandSlice) (o : Operand α) :
    List (Dim × Dim) :=
  (computeSlice o.types).elim (o.dims.map fun d => (d, d)) fun slice =>
    (o.dims.zip slice).map fun d => (d.1, slicedDim d.1 d.2)

section DimPairs

variable {computeSlice : List DimType → Option OperandSlice} {o : Operand α}
  (h : ∀ o : Operand α, ∀ slice, computeSlice o.types = some slice →
    LowersSlice lib numLoops o slice)

include h

theorem map_fst_dimPairs : (dimPairs computeSlice o).map Prod.fst = o.dims := by
  rw [dimPairs]
  cases hslice : computeSlice o.types with
  | none =>
    rw [Option.elim_none, List.map_map]
    exact List.map_id _
  | some slice =>
    rw [Option.elim_some, List.map_map]
    exact List.map_fst_zip (h o slice hslice).length.ge

omit h in
theorem map_snd_dimPairs :
    (dimPairs computeSlice o).map Prod.snd = (slicedOperand computeSlice o).dims := by
  rw [dimPairs, slicedOperand]
  cases hslice : computeSlice o.types with
  | none =>
    rw [Option.elim_none, List.map_map]
    exact List.map_id _
  | some slice =>
    rw [Option.elim_some, List.map_map]
    rfl

theorem lowers_of_mem_dimPairs {x : Dim × Dim} (hx : x ∈ dimPairs computeSlice o) :
    x.2 = x.1 ∨ Lowers lib numLoops x.2 x.1 := by
  rw [dimPairs] at hx
  cases hslice : computeSlice o.types with
  | none =>
    rw [hslice, Option.elim_none] at hx
    obtain ⟨d, -, rfl⟩ := List.mem_map.mp hx
    exact .inl rfl
  | some slice =>
    rw [hslice, Option.elim_some] at hx
    obtain ⟨⟨d, _ | ⟨dim, rebased⟩⟩, hd, rfl⟩ := List.mem_map.mp hx
    · exact .inl rfl
    · exact .inr ((h o slice hslice).lowers d dim rebased hd)

theorem exists_mem_dimPairs (hsome : (computeSlice o.types).isSome = true) :
    ∃ x ∈ dimPairs computeSlice o, Lowers lib numLoops x.2 x.1 := by
  obtain ⟨slice, hslice⟩ := Option.isSome_iff_exists.mp hsome
  obtain ⟨hlength, ⟨s, hs, hsome⟩, hlowers⟩ := h o slice hslice
  obtain ⟨⟨dim, rebased⟩, rfl⟩ := Option.isSome_iff_exists.mp hsome
  obtain ⟨i, hi, heq⟩ := List.getElem_of_mem hs
  have hd : (o.dims[i], some (dim, rebased)) ∈ o.dims.zip slice :=
    List.mem_iff_getElem.mpr ⟨i, by simp; omega, by simp [heq]⟩
  refine ⟨(o.dims[i], slicedDim o.dims[i] (some (dim, rebased))), ?_, hlowers _ _ _ hd⟩
  rw [dimPairs, hslice]
  exact List.mem_map.mpr ⟨_, hd, rfl⟩

end DimPairs

/-- One rank is below the other. -/
def Below : Nat × Nat × Nat → Nat × Nat × Nat → Prop := Prod.Lex (· < ·) (Prod.Lex (· < ·) (· < ·))

theorem below_wf : WellFounded Below :=
  WellFounded.prod_lex Nat.lt_wfRel.wf (WellFounded.prod_lex Nat.lt_wfRel.wf Nat.lt_wfRel.wf)

/-- Slicing operands lowers the rank. -/
theorem rank_sliceOperands {computeSlice : List DimType → Option OperandSlice}
    (h : ∀ o : Operand α, ∀ slice, computeSlice o.types = some slice →
      LowersSlice lib g.numLoops o slice)
    {r : Rewritten α} (hr : sliceOperands computeSlice g = some r) :
    Below (rank lib r.generic) (rank lib g) := by
  rw [sliceOperands] at hr
  split at hr
  · next hany =>
    cases hr
    have hdims : (g.operands.flatMap (dimPairs computeSlice)).map Prod.fst = g.dims := by
      rw [List.map_flatMap, Generic.dims]
      simp only [map_fst_dimPairs h]
    have hdims' : (g.operands.flatMap (dimPairs computeSlice)).map Prod.snd =
        (slicedGeneric g computeSlice).dims := by
      rw [List.map_flatMap, Generic.dims, operands_slicedGeneric, List.flatMap_map]
      simp only [map_snd_dimPairs]
    have hpairs : ∀ x ∈ g.operands.flatMap (dimPairs computeSlice),
        x.2 = x.1 ∨ Lowers lib g.numLoops x.2 x.1 := by
      intro x hx
      obtain ⟨o, -, hx⟩ := List.mem_flatMap.mp hx
      exact lowers_of_mem_dimPairs h hx
    have hexists : ∃ x ∈ g.operands.flatMap (dimPairs computeSlice),
        Lowers lib g.numLoops x.2 x.1 := by
      obtain ⟨o, ho, hsome⟩ := List.any_eq_true.mp hany
      obtain ⟨x, hx, hlowers⟩ := exists_mem_dimPairs h hsome
      exact ⟨x, List.mem_flatMap.mpr ⟨o, ho, hx⟩, hlowers⟩
    obtain ⟨htotal, hne⟩ := total_lowers hpairs
    have hunchanged : unchangedInits (slicedGeneric g computeSlice) = unchangedInits g := by
      rw [unchangedInits, unchangedInits, slicedGeneric, List.length_map]
      rfl
    rw [Below, Prod.lex_iff, Prod.lex_iff]
    refine .inr ⟨hunchanged, ?_⟩
    rcases htotal with hsame | hless
    · exact absurd hsame (hne hexists)
    · rw [hdims, hdims'] at hless
      exact hless
  · cases hr

theorem lowersSlice_of_accessed {loopRanges : List (Option Nat)} {o : Operand α}
    {slice : OperandSlice} (h : computeAccessedSlice lib loopRanges o.types = some slice) :
    LowersSlice lib numLoops o slice := by
  obtain ⟨-, bounds, hbounds, hlength, hmem⟩ := of_mem_computeAccessedSlice h
  refine ⟨hlength, ?_, ?_⟩
  · rw [computeAccessedSlice] at h
    split at h
    · cases h
    · obtain ⟨bounds, -, h⟩ := Option.bind_eq_some_iff.mp h
      exact exists_isSome_of_sliceDims h
  · intro d dim rebased hd
    obtain ⟨lb, ub, hb, rfl, hkeep⟩ := hmem d dim rebased hd
    exact lowers_of_bounded ((lib.constantBounds _ _ _ hbounds).given _ _ _ (mem_zip_types hb)) hkeep

theorem lowersSlice_of_strided {loopRanges : List (Option Nat)} (hloops : loopRanges.length = numLoops)
    {o : Operand α} {slice : OperandSlice}
    (h : computeStridedSlice lib loopRanges o.types = some slice) :
    LowersSlice lib numLoops o slice := by
  obtain ⟨hlength, hmem⟩ := of_mem_sliceDims h (by simp [Operand.types])
  refine ⟨hlength, exists_isSome_of_sliceDims h, ?_⟩
  intro d dim rebased hd
  obtain ⟨hstrided, hkeep⟩ := hmem d dim rebased hd
  rw [Operand.types, List.map_map] at hstrided
  exact lowers_of_strided hloops
    (mem_zip_map (f := stridedSlice lib loopRanges ∘ Dim.toDimType) hstrided) hkeep

/-! ### Demoting -/

section Demoted

variable {contents : Nat → Index → α} {i j : Nat}

theorem length_inits_demoteInit (contents : Nat → Index → α) (g : Generic α) (j : Nat) :
    (demoteInit contents g j).generic.inits.length = g.inits.length := by
  rw [demoteInit]
  split
  · cases g.inits[j]? with
    | none => rfl
    | some init => exact List.length_set ..
  · rfl

/-- An init is only yielded unchanged if it was. -/
theorem isUnchanged_demoteInit (h : isUnchanged (demoteInit contents g j).generic i = true) :
    isUnchanged g i = true := by
  rw [demoteInit] at h
  split at h
  · cases hinit : g.inits[j]? with
    | none =>
      rw [hinit] at h
      exact h
    | some init =>
      rw [hinit] at h
      have hyield : (g.body.yields.map (replaceUse (.init j) (.input g.inputs.length)))[i]? =
          some (.init i) := of_decide_eq_true h
      rw [List.getElem?_map] at hyield
      obtain ⟨v, hv, hreplace⟩ := Option.map_eq_some_iff.mp hyield
      rw [replaceUse] at hreplace
      split at hreplace
      · cases hreplace
      · exact decide_eq_true (hreplace ▸ hv)
  · exact h

/-- The demoted init is not. -/
theorem not_isUnchanged_demoteInit (hj : j < g.inits.length) :
    ¬ isUnchanged (demoteInit contents g j).generic j = true := by
  intro h
  have hbefore := isUnchanged_demoteInit h
  rw [demoteInit, if_pos hbefore, List.getElem?_eq_getElem hj] at h
  have hyield : (g.body.yields.map (replaceUse (.init j) (.input g.inputs.length)))[j]? =
      some (.init j) := of_decide_eq_true h
  rw [List.getElem?_map, of_decide_eq_true hbefore, Option.map_some, replaceUse, if_pos rfl]
    at hyield
  cases hyield

/-- No init among those that were looked at is yielded unchanged any more. -/
theorem isUnchanged_foldl_demoteInit (contents : Nat → Index → α) {js : List Nat}
    {r : Rewritten α} (hjs : ∀ j ∈ js, j < r.generic.inits.length) :
    let last := js.foldl (fun r j => r.andThen fun g => demoteInit contents g j) r
    last.generic.inits.length = r.generic.inits.length ∧
      ∀ i, isUnchanged last.generic i = true → isUnchanged r.generic i = true ∧ i ∉ js := by
  induction js generalizing r with
  | nil => exact ⟨rfl, fun i h => ⟨h, List.not_mem_nil⟩⟩
  | cons j js ih =>
    rw [List.forall_mem_cons] at hjs
    have hlength := length_inits_demoteInit contents r.generic j
    obtain ⟨hinits, hrest⟩ := ih (r := r.andThen fun g => demoteInit contents g j) fun i hi => by
      show i < (demoteInit contents r.generic j).generic.inits.length
      rw [hlength]
      exact hjs.2 i hi
    refine ⟨hinits.trans hlength, ?_⟩
    intro i hi
    obtain ⟨hunchanged, hmem⟩ := hrest i hi
    refine ⟨isUnchanged_demoteInit hunchanged, ?_⟩
    rw [List.mem_cons, not_or]
    refine ⟨?_, hmem⟩
    rintro rfl
    exact not_isUnchanged_demoteInit hjs.1 hunchanged

theorem rank_demoteInitToInput {r : Rewritten α} (hr : demoteInitToInput contents g = some r) :
    Below (rank lib r.generic) (rank lib g) := by
  rw [demoteInitToInput] at hr
  split at hr
  · next hany =>
    obtain rfl := Option.some.inj hr
    have hrange : ∀ j ∈ List.range g.inits.length, j < (unchanged g).generic.inits.length :=
      fun j hj => List.mem_range.mp hj
    obtain ⟨hlength, hlast⟩ := isUnchanged_foldl_demoteInit contents hrange
    rw [Below, Prod.lex_iff]
    left
    show unchangedInits _ < unchangedInits g
    have hzero : unchangedInits ((List.range g.inits.length).foldl
        (fun r j => r.andThen fun g => demoteInit contents g j) (unchanged g)).generic = 0 := by
      rw [unchangedInits, List.countP_eq_zero, hlength]
      intro i hi hunchanged
      exact (hlast i hunchanged).2 hi
    rw [hzero]
    exact List.countP_pos_iff.mpr (List.any_eq_true.mp hany)
  · cases hr

end Demoted

/-- **The patterns stop to match.** -/
theorem rewrites_wf (lib : AffineLibrary) : WellFounded (Rewrites (α := α) lib) := by
  refine Subrelation.wf (r := InvImage Below (rank lib)) ?_ (InvImage.wf _ below_wf)
  rintro _ g ⟨pattern, r, hr, rfl⟩
  have hloops : g.staticLoopRanges.length = g.numLoops := by
    rw [Generic.staticLoopRanges, List.length_map, List.length_range]
  cases pattern with
  | shrinkOperands =>
    exact rank_sliceOperands (fun _ _ hslice => lowersSlice_of_accessed hslice) hr
  | normalizeStrides =>
    exact rank_sliceOperands (fun _ _ hslice => lowersSlice_of_strided hloops hslice) hr
  | demoteInitToInput contents => exact rank_demoteInitToInput hr

end Termination

/-! ## The patterns together -/

/-- What stands for the results of an operation has their elements, the slices that are taken exist,
the loops keep their ranges and the accesses are in bounds. -/
structure KeepsResults [Inhabited α] (g : Generic α) (r : Rewritten α) : Prop where
  fits : r.fits = true
  results : ∀ j < g.inits.length, (r.replace j (r.generic.result j)).Same (g.result j)
  loopRanges : r.generic.loopRanges = g.loopRanges
  inBounds : r.generic.InBounds

/-- **The patterns keep the results.** In any order they match, they stop to match in any order,
and where all slices fit each result is found in what they make. -/
theorem rewriteAll_keepsResults [Inhabited α] (lib : AffineLibrary) (g : Generic α)
    (patterns : List (Pattern α)) (hg : g.WellFormed) (hin : g.InBounds)
    (hfit : StepsFit lib g patterns) :
    (∀ r, rewriteAll lib g patterns = some r → KeepsResults g r ∧
      (patterns.all Pattern.slices = true → r.generic.staticLoopRanges = g.staticLoopRanges)) ∧
    Acc (Rewrites lib) g := by
  refine ⟨?_, (rewrites_wf lib).apply g⟩
  intro r hr
  obtain ⟨hkeeps, hstatic⟩ := rewriteAll_keeps hg hin hfit hr
  exact ⟨⟨hkeeps.fits, fun j hj => hkeeps.results j hj _ (.refl _), hkeeps.loopRanges,
    hkeeps.inBounds⟩, hstatic⟩

/-! ### Two operations -/

def dropDivision : Expr → Expr
  | .binary .floorDiv e (.constant c) => if c = 1 then e else .binary .floorDiv e (.constant c)
  | e => e

def dropZero : Expr → Expr
  | .binary .add e (.constant c) => if c = 0 then e else .binary .add e (.constant c)
  | e => e

def dropOpposite : Expr → Expr
  | .binary .add (.binary .add e (.constant b)) (.constant c) =>
      if b + c = 0 then e else .binary .add (.binary .add e (.constant b)) (.constant c)
  | e => e

theorem eval_dropDivision (e : Expr) (dims symbols : Nat → Int) :
    (dropDivision e).eval dims symbols = e.eval dims symbols := by
  unfold dropDivision
  split
  · split
    · next heq =>
      subst heq
      exact (Int.fdiv_one _).symm
    · rfl
  · rfl

theorem eval_dropZero (e : Expr) (dims symbols : Nat → Int) :
    (dropZero e).eval dims symbols = e.eval dims symbols := by
  unfold dropZero
  split
  · split
    · next heq =>
      subst heq
      exact (Int.add_zero _).symm
    · rfl
  · rfl

theorem eval_dropOpposite (e : Expr) (dims symbols : Nat → Int) :
    (dropOpposite e).eval dims symbols = e.eval dims symbols := by
  unfold dropOpposite
  split
  · next e b c =>
    split
    · show e.eval dims symbols = e.eval dims symbols + b + c
      omega
    · rfl
  · rfl

/-- `d0 + 2` -/
def shifted : Expr := .binary .add (.dim 0) (.constant 2)

/-- `2 * d0` -/
def doubled : Expr := .binary .mul (.dim 0) (.constant 2)

/-- `2 * d0 + 1` -/
def doubledNext : Expr := .binary .add doubled (.constant 1)

/-- The bounds of the operands below. -/
def knownBounds (loopRanges : List (Option Nat)) (types : List DimType) :
    Option (List (Option Int × Option Int)) :=
  if loopRanges = [some 4] ∧ types = [⟨some 8, shifted⟩] then some [(some 2, some 5)]
  else if loopRanges = [some 4] ∧ types = [⟨some 4, .dim 0⟩] then some [(some 0, some 3)]
  else if loopRanges = [none] ∧ types = [⟨none, doubled⟩, ⟨some 8, doubledNext⟩] then
    some [(some 0, some 6), (some 1, some 7)]
  else if loopRanges = [none] ∧ types = [⟨none, .dim 0⟩] then some [(some 0, none)]
  else none

/-- Bounds of one index. -/
theorem constantBounds_one {range extent : Option Nat} {e : Expr} {b : Option Int × Option Int}
    (hlb : ∀ lb, b.1 = some lb → ∀ dims : Nat → Int, 0 ≤ dims 0 → lb ≤ valueAt dims e)
    (hub : ∀ ub, b.2 = some ub → ∀ dims : Nat → Int,
      (∀ n, range = some n → dims 0 < n) → valueAt dims e ≤ ub)
    (hgiven : ∀ lb ub, b = (some lb, some ub) →
      0 ≤ lb ∧ lb ≤ ub + 1 ∧ ∀ n, extent = some n → ub < n) :
    ConstantBounds [range] [⟨extent, e⟩] [b] where
  length := rfl
  valid := by
    intro dims hranges _ d b' hmem
    rw [List.zip_cons_cons, List.zip_nil_left, List.mem_singleton] at hmem
    cases hmem
    have hloop := hranges 0 Nat.zero_lt_one
    exact ⟨fun lb h => hlb lb h dims hloop.1, fun ub h => hub ub h dims hloop.2⟩
  given := by
    intro d lb ub hmem
    rw [List.zip_cons_cons, List.zip_nil_left, List.mem_singleton] at hmem
    cases hmem
    exact hgiven lb ub rfl

/-- The first dimension is bounded by the extent of the second. -/
theorem constantBounds_doubled : ConstantBounds [none]
    [⟨none, doubled⟩, ⟨some 8, doubledNext⟩] [(some 0, some 6), (some 1, some 7)] where
  length := rfl
  valid := by
    intro dims hranges hadmits d b hmem
    have hloop : 0 ≤ dims 0 := (hranges 0 Nat.zero_lt_one).1
    have hlast : dims 0 * 2 + 1 < 8 := (hadmits ⟨some 8, doubledNext⟩ (by simp)).2 8 rfl
    have hdoubled : valueAt dims doubled = dims 0 * 2 := rfl
    have hnext : valueAt dims doubledNext = dims 0 * 2 + 1 := rfl
    simp only [List.zip_cons_cons, List.zip_nil_left, List.mem_cons, List.not_mem_nil, or_false,
      Prod.mk.injEq] at hmem
    rcases hmem with ⟨rfl, rfl⟩ | ⟨rfl, rfl⟩
    · rw [hdoubled]
      constructor
      · rintro _ ⟨⟩
        omega
      · rintro _ ⟨⟩
        omega
    · rw [hnext]
      constructor
      · rintro _ ⟨⟩
        omega
      · rintro _ ⟨⟩
        omega
  given := by
    intro d lb ub hmem
    simp only [List.zip_cons_cons, List.zip_nil_left, List.mem_cons, List.not_mem_nil, or_false,
      Prod.mk.injEq, Option.some.injEq] at hmem
    rcases hmem with ⟨rfl, rfl, rfl⟩ | ⟨rfl, rfl, rfl⟩
    · simp
    · simp

theorem constantBounds_knownBounds {loopRanges : List (Option Nat)} {types : List DimType}
    {bounds : List (Option Int × Option Int)} (h : knownBounds loopRanges types = some bounds) :
    ConstantBounds loopRanges types bounds := by
  rw [knownBounds] at h
  split at h
  · next heq =>
    obtain ⟨rfl, rfl⟩ := heq
    cases h
    have hvalue : ∀ dims, valueAt dims shifted = dims 0 + 2 := fun _ => rfl
    apply constantBounds_one
    · rintro _ ⟨⟩ dims hdims
      rw [hvalue]
      omega
    · rintro _ ⟨⟩ dims hdims
      have := hdims 4 rfl
      rw [hvalue]
      omega
    · rintro _ _ ⟨⟩
      simp
  split at h
  · next heq =>
    obtain ⟨rfl, rfl⟩ := heq
    cases h
    apply constantBounds_one
    · rintro _ ⟨⟩ dims hdims
      exact hdims
    · rintro _ ⟨⟩ dims hdims
      have : dims 0 < 4 := hdims 4 rfl
      show dims 0 ≤ 3
      omega
    · rintro _ _ ⟨⟩
      simp
  split at h
  · next heq =>
    obtain ⟨rfl, rfl⟩ := heq
    cases h
    exact constantBounds_doubled
  split at h
  · next heq =>
    obtain ⟨rfl, rfl⟩ := heq
    cases h
    apply constantBounds_one
    · rintro _ ⟨⟩ dims hdims
      exact hdims
    · rintro _ ⟨⟩
    · rintro _ _ ⟨⟩
  · cases h

/-- Simplification and bounds as far as the operations below need them. -/
def knownLibrary : AffineLibrary where
  simplifyAffineExpr _ e := dropOpposite (dropZero (dropDivision e))
  getFlattenedAffineExpr _ _ := none
  getConstantBounds := knownBounds
  eval_simplify _ e dims symbols := by
    rw [eval_dropOpposite, eval_dropZero, eval_dropDivision]
  simplify_dim _ _ := rfl
  eval_flattened _ _ _ h := by cases h
  stride_rebased _ _ _ h := by cases h
  constantBounds _ _ _ h := constantBounds_knownBounds h

/-- A vector of so many elements. -/
def vector (dims : List Dim) : Operand Nat := ⟨dims, fun index => index.headI.toNat⟩

/-- The first result is four elements of eight, the second one is left as it was. -/
def shiftedCopy : Generic Nat where
  numLoops := 1
  inputs := [vector [⟨⟨some 8, shifted⟩, 8⟩]]
  inits := [vector [⟨⟨some 4, .dim 0⟩, 4⟩], vector [⟨⟨some 4, .dim 0⟩, 4⟩]]
  body := ⟨[], [.input 0, .init 1]⟩

theorem shiftedCopy_wellFormed : shiftedCopy.WellFormed where
  typed := by simp [shiftedCopy, vector, Generic.dims, Generic.operands]
  ranged := by decide
  agrees := by
    intro d hd loop hplain
    simp only [shiftedCopy, vector, Generic.dims, Generic.operands, List.cons_append,
      List.nil_append, List.flatMap_cons, List.flatMap_nil, List.append_nil, List.mem_cons,
      List.not_mem_nil, or_false] at hd
    rcases hd with rfl | rfl | rfl
    · cases hplain
    · cases hplain
      rfl
    · cases hplain
      rfl
  inScope := by simp [shiftedCopy, Body.values, BodyValue.InScope]
  yields := rfl

theorem shiftedCopy_inBounds : shiftedCopy.InBounds := by
  unfold Generic.InBounds
  decide

/-- All dimensions are static, and the plain ones start at zero. -/
theorem shiftedCopy_shrinkFits : ShrinkFits knownLibrary shiftedCopy := by
  intro o ho _ bounds hbounds d lb ub hmem _
  have hranges : shiftedCopy.staticLoopRanges = [some 4] := rfl
  rw [hranges] at hbounds
  have hops : o = vector [⟨⟨some 8, shifted⟩, 8⟩] ∨ o = vector [⟨⟨some 4, .dim 0⟩, 4⟩] := by
    simpa [shiftedCopy, Generic.operands] using ho
  rcases hops with rfl | rfl
  · have hknown : knownLibrary.getConstantBounds [some 4]
        (vector [⟨⟨some 8, shifted⟩, 8⟩]).types = some [(some 2, some 5)] := rfl
    rw [hknown] at hbounds
    cases hbounds
    cases List.mem_singleton.mp hmem
    exact ⟨fun h => (by cases h), fun _ h => (by cases h)⟩
  · have hknown : knownLibrary.getConstantBounds [some 4]
        (vector [⟨⟨some 4, .dim 0⟩, 4⟩]).types = some [(some 0, some 3)] := rfl
    rw [hknown] at hbounds
    cases hbounds
    cases List.mem_singleton.mp hmem
    exact ⟨fun h => (by cases h), fun _ _ => rfl⟩

/-- Both patterns match one after the other. -/
theorem shiftedCopy_keepsResults :
    (rewriteAll knownLibrary shiftedCopy
        [.shrinkOperands, .demoteInitToInput fun _ _ => 0]).map
          (fun r => r.generic.inputs.map Operand.types) =
        some [[⟨some 4, .dim 0⟩], [⟨some 4, .dim 0⟩]] ∧
      ∀ r, rewriteAll knownLibrary shiftedCopy
        [.shrinkOperands, .demoteInitToInput fun _ _ => 0] = some r →
          KeepsResults shiftedCopy r := by
  have hfit : StepsFit knownLibrary shiftedCopy
      [.shrinkOperands, .demoteInitToInput fun _ _ => 0] :=
    ⟨shiftedCopy_shrinkFits, fun _ _ => ⟨trivial, fun _ _ => trivial⟩⟩
  refine ⟨by decide, ?_⟩
  intro r hr
  exact ((rewriteAll_keepsResults knownLibrary shiftedCopy _ shiftedCopy_wellFormed
    shiftedCopy_inBounds hfit).1 r hr).1

/-- Two elements at once, up to the end of a dimension of eight. -/
def pairCopy : Generic Nat where
  numLoops := 1
  inputs := [vector [⟨⟨none, doubled⟩, 5⟩, ⟨⟨some 8, doubledNext⟩, 8⟩]]
  inits := [vector [⟨⟨none, .dim 0⟩, 3⟩]]
  body := ⟨[], [.input 0]⟩

theorem pairCopy_wellFormed : pairCopy.WellFormed where
  typed := by simp [pairCopy, vector, Generic.dims, Generic.operands]
  ranged := by decide
  agrees := by
    intro d hd loop hplain
    simp only [pairCopy, vector, Generic.dims, Generic.operands, List.cons_append,
      List.nil_append, List.flatMap_cons, List.flatMap_nil, List.append_nil, List.mem_cons,
      List.not_mem_nil, or_false] at hd
    rcases hd with rfl | rfl | rfl
    · cases hplain
    · cases hplain
    · cases hplain
      rfl
  inScope := by simp [pairCopy, Body.values, BodyValue.InScope]
  yields := rfl

/-- Seven elements are taken of a dimension that has five. -/
theorem pairCopy_not_keepsResults :
    pairCopy.WellFormed ∧ pairCopy.InBounds ∧
      (rewriteAll knownLibrary pairCopy [.shrinkOperands]).isSome = true ∧
        ∀ r, rewriteAll knownLibrary pairCopy [.shrinkOperands] = some r →
          ¬ KeepsResults pairCopy r := by
  refine ⟨pairCopy_wellFormed, ?_, by decide, ?_⟩
  · unfold Generic.InBounds
    decide
  · intro r hr hkeeps
    have hfits : (rewriteAll knownLibrary pairCopy [.shrinkOperands]).map Rewritten.fits =
        some false := by decide
    rw [hr, Option.map_some, hkeeps.fits] at hfits
    cases hfits

end SimplifyLinalg

end DataflowScheduler
