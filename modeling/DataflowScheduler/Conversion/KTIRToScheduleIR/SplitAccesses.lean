import DataflowScheduler.Conversion.KTIRToScheduleIR.SplitValues

/-!
# The accesses of a split group

The resolving function runs on every grid element and all of them write the one address buffer, so
what an access finds there is what some grid element resolved, from its own base, stride and index
view. The access is the original one exactly where these are worth the same on every grid element,
and the variables that were named for the subscripts reach the entry the subscripts reach.
-/

namespace DataflowScheduler

namespace IndirectComputeGroupSplit

open RowMajor Strides

variable {R G : Type}

variable [DecidableEq R] {other : Nat → G → List Int → Int}

/-! ## Kept accesses -/

/-- The operands of the call of the function that was split. -/
def SplitCandidate.callArgs (c : SplitCandidate R) : List Value :=
  match c.callSite with
  | some (_, _, args) => args
  | none => []

/-- Whatever the memory holds, whatever order the grid elements resolve the indices in and whatever
accesses were executed before: each access goes to the byte of the element the original one goes to. -/
def AccessesKept (other : Nat → G → List Int → Int) (grid : List G) (caller : Value → Int)
    (split : Split R) : Prop :=
  ∀ (mem : Memory R) (order : List G) (done : List (Execution G)) (x : Execution G)
    (point : List Int), order.Perm grid → x.element ∈ grid →
    x.Passes (split.candidate.callArgs.map caller) →
    split.candidate.indirectOp.variablesSpaceSet point = true →
    accessedByte (x.eval other) split.candidate.elemBytes split.candidate.wordSize point
        (afterAccesses other split.inserted done
          (afterIdxToAddr other split.idxToAddr.ops
            ((newOperands split.candidate split.candidate.callArgs).map caller) order mem))
        split.inserted =
      some (split.candidate.indirectOp.element (x.eval other) mem point * split.candidate.elemBytes)

/-- What a grid element's resolving function takes a value of the original function for. -/
def SplitCandidate.resolves (c : SplitCandidate R) (other : Nat → G → List Int → Int)
    (caller : Value → Int) (w : G) (v : Value) : Int :=
  v.eval other (forwarded (c.callArgs.map caller)) w

/-- How far into the index view the subscripts of the indirect dimension reach. -/
def SplitCandidate.subscripted (c : SplitCandidate R) (vars : List Int) : Int :=
  distance ((c.indirectOp.perDimSubscriptMaps[c.indirDim]?).elim [] (mapValues vars))
    c.idxView.getStrides

/-- How far into it the variables reach that were named for them. -/
def SplitCandidate.named (c : SplitCandidate R) (vars : List Int) : Int :=
  distance (c.indAddrBufDimPositions.map fun position => vars.getD position 0) c.idxView.getStrides

/-- The grid elements agree on the address of an access: the one that named variables select is an
entry of the buffer, and every grid element resolves it with the base and stride of the access, and
from the index that the access reads unless the stride makes all indices alike. -/
structure ElementsAgree (other : Nat → G → List Int → Int) (grid : List G) (caller : Value → Int)
    (c : SplitCandidate R) (x : Execution G) (point : List Int) : Prop where
  inBuffer : ∃ i ∈ c.idxView.indices, distance i c.idxView.getStrides =
    c.named (c.indirectOp.variables (x.eval other) point)
  resolved : c.elemBytes ≠ 0 → ∀ w ∈ grid,
    c.resolves other caller w c.baseAddr = x.eval other c.baseAddr ∧
    c.resolves other caller w c.strideValue = x.eval other c.strideValue ∧
    (c.resolves other caller w c.idxView.offset +
        c.named (c.indirectOp.variables (x.eval other) point) =
      x.eval other c.idxView.offset +
        c.subscripted (c.indirectOp.variables (x.eval other) point) ∨
      x.eval other c.strideValue = 0)

/-- What the verifiers of the operations check: a kind and a map for each dimension, an index memref
for each indirect one, and a memory space of ktdp. -/
structure ConstructIndirectAccessTilesOp.Verified (op : ConstructIndirectAccessTilesOp R) : Prop where
  kinds : op.perDimSubscriptKinds.length = op.perDimSubscriptMaps.length
  memrefs : op.perDimSubscriptKinds.count true = op.indirectMemrefs.length
  space : ∀ view, .constructMemoryView view ∈ op.indirectMemrefs →
    ∃ kind ctId, view.memorySpace = .ktdp kind ctId

section Access

variable {builder : Affine.Builder} {info : AddressBufferInfo R} {split : Split R}
  {bytes : BitVec 32} {address : SizeT} {id : Nat} {name : String} {grid : List G}
  {caller : Value → Int}

omit [DecidableEq R] in
/-- What a clone in the resolving function is worth. -/
theorem eval_forwarded {c : SplitCandidate R} (hcaller : caller (.constant 0) = 0) (w : G) {v : Value}
    (h : ∀ arg ∈ walkDependency v, arg ∈ c.forwardedArgs) :
    (materializeDependency c.forwardedArgs v).eval other
        (entryBlock ((newOperands c c.callArgs).map caller)) w = c.resolves other caller w v :=
  eval_materializeDependency w v fun arg harg => entryBlock_newOperands hcaller (h arg harg)

omit [DecidableEq R] in
/-- All arguments of the three chains are forwarded. -/
theorem SplitCandidate.Accepted.mem_forwardedArgs {c : SplitCandidate R} (h : c.Accepted builder) :
    (∀ arg ∈ walkDependency c.baseAddr, arg ∈ c.forwardedArgs) ∧
    (∀ arg ∈ walkDependency c.strideValue, arg ∈ c.forwardedArgs) ∧
    (∀ arg ∈ walkDependency c.idxView.offset, arg ∈ c.forwardedArgs) := by
  rw [h.forwardedArgs]
  unfold collectForwardedArgs
  dsimp only
  refine ⟨fun arg harg => ?_, fun arg harg => ?_, fun arg harg => ?_⟩
  · rw [List.mem_eraseDups]
    exact List.mem_append_left _ (List.mem_append_left _ harg)
  · rw [List.mem_eraseDups]
    refine List.mem_append_left _ (List.mem_append_right _ ?_)
    unfold SplitCandidate.strideValue at harg
    cases hstride : c.stride with
    | attr value =>
        rw [hstride] at harg
        cases harg
    | value v =>
        rw [hstride] at harg
        exact harg
  · rw [List.mem_eraseDups]
    exact List.mem_append_right _ (List.mem_append_left _ harg)

/-- The words of the address that a grid element resolves from an index. -/
def resolvedWords (other : Nat → G → List Int → Int) (caller : Value → Int) (c : SplitCandidate R)
    (w : G) (index : Int) : Int :=
  let args := entryBlock ((newOperands c c.callArgs).map caller)
  (convertElementsToWords (materializeDependency c.forwardedArgs c.baseAddr) c.elemBytes
      c.wordSize).eval other args w +
    index * (convertElementsToWords (materializeDependency c.forwardedArgs c.strideValue) c.elemBytes
      c.wordSize).eval other args w

/-- A base or stride that is not constant is a whole number of words. -/
def WholeWords (other : Nat → G → List Int → Int) (grid : List G) (caller : Value → Int)
    (c : SplitCandidate R) : Prop :=
  ∀ w ∈ grid, ∀ v ∈ [c.baseAddr, c.strideValue], getConstantIntValue v = none →
    (c.wordSize : Int) ∣ c.resolves other caller w v * c.elemBytes

omit [DecidableEq R] in
/-- The words are those of the address in bytes. -/
theorem resolvedWords_mul {c : SplitCandidate R} (h : c.Accepted builder)
    (hcaller : caller (.constant 0) = 0) (hwords : WholeWords other grid caller c) {w : G}
    (hw : w ∈ grid) (index : Int) :
    resolvedWords other caller c w index * c.wordSize =
      (c.resolves other caller w c.baseAddr + index * c.resolves other caller w c.strideValue) *
        c.elemBytes := by
  obtain ⟨hbase, hstride, -⟩ := h.mem_forwardedArgs
  have hconst : ∀ v : Value, ∀ k, getConstantIntValue v = some k →
      c.resolves other caller w v = k := by
    intro v k hv
    cases v with
    | constant k' =>
        cases hv
        rfl
    | blockArgument arg => cases hv
    | result op operands => cases hv
  have hdvd : ∀ v ∈ [c.baseAddr, c.strideValue],
      (∀ elems, getConstantIntValue v = some elems → (c.wordSize : Int) ∣ elems * c.elemBytes) →
      (c.wordSize : Int) ∣ c.resolves other caller w v * c.elemBytes := by
    intro v hv hchecked
    cases hk : getConstantIntValue v with
    | none => exact hwords w hw v hv hk
    | some k =>
        rw [hconst v k hk]
        exact hchecked k hk
  have hstrideConst : ∀ elems, getConstantIntValue c.strideValue = some elems →
      c.stride.getConstantIntValue = some elems := by
    intro elems he
    unfold SplitCandidate.strideValue at he
    cases hs : c.stride with
    | attr k =>
        rw [hs] at he
        exact he
    | value v =>
        rw [hs] at he
        exact he
  have hb := hdvd c.baseAddr (by simp) h.baseWords
  have hs := hdvd c.strideValue (by simp) fun elems he => h.strideWords elems (hstrideConst elems he)
  rw [← eval_forwarded hcaller w hbase] at hb
  rw [← eval_forwarded hcaller w hstride] at hs
  have hb' := eval_convertElementsToWords h.wordSize hb
  have hs' := eval_convertElementsToWords h.wordSize hs
  rw [eval_forwarded hcaller w hbase] at hb'
  rw [eval_forwarded hcaller w hstride] at hs'
  unfold resolvedWords
  dsimp only
  linear_combination hb' + index * hs'

/-- No grid element reads an index from the address buffer: its bytes are handed out by the tracker and
nobody else's. -/
def Undisturbed (other : Nat → G → List Int → Int) (grid : List G) (caller : Value → Int)
    (split : Split R) : Prop :=
  ∀ w ∈ grid, ∀ op ∈ split.idxToAddr.ops, ∀ view ∈ op.addrBufViews,
    ∀ i ∈ split.candidate.idxView.indices, ∀ j ∈ view.indices,
      view.location (split.candidate.resolves other caller w) j ≠
        split.candidate.idxView.location (split.candidate.resolves other caller w) i

/-- How far the direct subscripts of an access reach. -/
def SplitCandidate.direct (c : SplitCandidate R) (ν : Value → Int) (vars : List Int) : Int :=
  distance ((c.indirectOp.perDimSubscriptMaps.set c.indirDim
      ⟨c.indirectOp.capturedVariables.length + c.indirectOp.numIntermediateVariables, 0,
        [.constant 0]⟩).map fun map => (mapValues vars map).headD 0)
    (c.baseView.strideValues ν)

omit [DecidableEq R] in
/-- The element of the original access: the base, the index times the stride, the direct subscripts. -/
theorem element_eq {c : SplitCandidate R} (h : c.Accepted builder) (hv : c.indirectOp.Verified)
    (x : Execution G) (mem : Memory R) (point : List Int) :
    c.indirectOp.element (x.eval other) mem point =
      x.eval other c.baseAddr +
        (mem (c.idxView.memorySpace, x.eval other c.idxView.offset +
            c.subscripted (c.indirectOp.variables (x.eval other) point)) *
          x.eval other c.strideValue +
        c.direct (x.eval other) (c.indirectOp.variables (x.eval other) point)) := by
  have hcount : c.indirectOp.perDimSubscriptKinds.count true = 1 := by
    rw [hv.memrefs, h.indirectMemrefs]
    rfl
  have hstride : (c.baseView.strideValues (x.eval other))[c.indirDim]? =
      some (x.eval other c.strideValue) := by
    rw [ConstructMemoryViewOp.strideValues, List.getElem?_map, h.stride]
    unfold SplitCandidate.strideValue
    cases c.stride with
    | attr k => rfl
    | value v => rfl
  have hzero : (mapValues (c.indirectOp.variables (x.eval other) point)
      ⟨c.indirectOp.capturedVariables.length + c.indirectOp.numIntermediateVariables, 0,
        [.constant 0]⟩).headD 0 = 0 := rfl
  obtain ⟨map, hmap, hdistance⟩ := distance_subscripts (c.indirectOp.variables (x.eval other) point)
    (MemRef.read (x.eval other) mem) (.constructMemoryView c.idxView) hzero hv.kinds hcount
    h.indirDim hstride
  have hread : MemRef.read (x.eval other) mem (.constructMemoryView c.idxView)
      (mapValues (c.indirectOp.variables (x.eval other) point) map) =
        mem (c.idxView.memorySpace, x.eval other c.idxView.offset +
          c.subscripted (c.indirectOp.variables (x.eval other) point)) := by
    rw [MemRef.read, location_of_static h.noStrides rfl h.staticStrides,
      SplitCandidate.subscripted, hmap]
    rfl
  unfold ConstructIndirectAccessTilesOp.element
  rw [h.base, h.indirectMemrefs]
  dsimp only [ConstructMemoryViewOp.location]
  rw [hdistance, hread]
  rfl

/-- The operations of both halves over their two views: `target` looks at the address buffer, `iab` at
the indirect address buffer, both with the strides of the index view. -/
structure Halves (other : Nat → G → List Int → Int) (split : Split R) (offset iabBase : Int)
    (iabSpace : R) (target iab : ConstructMemoryViewOp R) (tile : ConstructIndirectAccessTileOp R) :
    Prop where
  idxToAddr : split.idxToAddr.ops =
    [.idx32ToAddr (cloneView split.candidate.forwardedArgs split.candidate.idxView) target
      (convertElementsToWords
        (materializeDependency split.candidate.forwardedArgs split.candidate.baseAddr)
        split.candidate.elemBytes split.candidate.wordSize)
      (convertElementsToWords
        (materializeDependency split.candidate.forwardedArgs split.candidate.strideValue)
        split.candidate.elemBytes split.candidate.wordSize)]
  inserted : split.inserted = [.copy target iab, .constructIndirectAccessTile tile]
  byte : ∀ (x : Execution G) (mem : Memory R) (elemBytes wordSize : Nat) (point : List Int),
    tile.byte (x.eval other) mem elemBytes wordSize point =
      mem (iab.location (x.eval other)
        (split.candidate.indAddrBufDimPositions.map fun position =>
          (split.candidate.indirectOp.variables (x.eval other) point).getD position 0)) * wordSize +
      split.candidate.direct (x.eval other)
        (split.candidate.indirectOp.variables (x.eval other) point) * elemBytes
  indices : target.indices = split.candidate.idxView.indices
  target : ∀ (ν : Value → Int) (j : List Int), (∀ k, ν (.constant k) = k) → target.location ν j =
    (globalMemSpace, offset + distance j split.candidate.idxView.getStrides)
  iab : ∀ (ν : Value → Int) (j : List Int), (∀ k, ν (.constant k) = k) → iab.location ν j =
    (.resource iabSpace, iabBase + distance j split.candidate.idxView.getStrides)

omit [DecidableEq R] in
theorem Split.Over.halves (hover : split.Over info bytes address id name)
    (h : split.candidate.Accepted builder) :
    ∃ target iab tile, Halves other split (address / bytes.setWidth 64).toInt info.iabBase.toInt
      info.iabMemSpace target iab tile := by
  refine ⟨_, _, _, ⟨(congrArg ModuleOp.ops hover.idxToAddr).trans rfl, hover.inserted.trans rfl,
    ?_, ?_, ?_, ?_⟩⟩
  · intro x mem elemBytes wordSize point
    refine congrArg₂ (· + ·) rfl (congrArg (· * (elemBytes : Int)) ?_)
    -- The base view starts at zero.
    exact Int.zero_add _
  · rfl
  · intro ν j hν
    refine (location_of_static (by rfl) (by rfl) h.staticStrides ν j).trans ?_
    exact congrArg (fun o => (globalMemSpace, o + _)) (hν _)
  · intro ν j hν
    refine (location_of_static (by rfl) (by rfl) h.staticStrides ν j).trans ?_
    exact congrArg (fun o => (MemorySpace.resource info.iabMemSpace, o + _)) (hν _)

omit [DecidableEq R] in
/-- Where a grid element's resolving function finds an index. -/
theorem location_cloneView {c : SplitCandidate R} (h : c.Accepted builder)
    (hcaller : caller (.constant 0) = 0) (w : G) (j : List Int) :
    (cloneView c.forwardedArgs c.idxView).location
        (Value.eval other (entryBlock ((newOperands c c.callArgs).map caller)) w) j =
      (c.idxView.memorySpace, c.resolves other caller w c.idxView.offset +
        distance j c.idxView.getStrides) := by
  have hnone : (cloneView c.forwardedArgs c.idxView).strides = [] := by
    show materializeDependencies _ c.idxView.strides = []
    rw [h.noStrides]
    rfl
  rw [location_of_static hnone rfl h.staticStrides]
  show (_, Value.eval other _ w (materializeDependency _ _) + _) = _
  rw [eval_forwarded hcaller w h.mem_forwardedArgs.2.2]
  rfl

section Found

variable {offset iabBase : Int} {iabSpace : R} {target iab : ConstructMemoryViewOp R}
  {tile : ConstructIndirectAccessTileOp R}

/-- An entry of the address buffer holds what the last grid element resolved from the index there. -/
theorem Halves.resolved (hs : Halves other split offset iabBase iabSpace target iab tile)
    (h : split.candidate.Accepted builder) (hcaller : caller (.constant 0) = 0)
    (hfree : Undisturbed other grid caller split) (order : List G) {w : G} (hw : w ∈ grid)
    (mem : Memory R) {i : List Int} (hi : i ∈ split.candidate.idxView.indices) :
    afterIdxToAddr other split.idxToAddr.ops
        ((newOperands split.candidate split.candidate.callArgs).map caller) (order ++ [w]) mem
        (globalMemSpace, offset + distance i split.candidate.idxView.getStrides) =
      resolvedWords other caller split.candidate w (mem (split.candidate.idxView.memorySpace,
        split.candidate.resolves other caller w split.candidate.idxView.offset +
          distance i split.candidate.idxView.getStrides)) := by
  have hlocation : ∀ (args : List Int) (w' : G) (j : List Int),
      target.location (Value.eval other (entryBlock args) w') j =
        (globalMemSpace, offset + distance j split.candidate.idxView.getStrides) :=
    fun args w' j => hs.target _ j fun _ => rfl
  have hi' : i ∈ (cloneView split.candidate.forwardedArgs split.candidate.idxView).indices := hi
  rw [← hlocation ((newOperands split.candidate split.candidate.callArgs).map caller) w, hs.idxToAddr,
    afterIdxToAddr_last hi', location_cloneView h hcaller]
  · rfl
  · intro j _ heq
    rw [hlocation, hlocation] at heq
    have hdistance : distance j split.candidate.idxView.getStrides =
        distance i split.candidate.idxView.getStrides := Int.add_left_cancel (Prod.mk.inj heq).2
    rw [location_cloneView h hcaller, location_cloneView h hcaller, hdistance]
  · intro w' _ j hj
    have hne := hfree w hw _ (hs.idxToAddr ▸ List.mem_singleton_self _) target
      (List.mem_singleton_self _) i hi j (hs.indices ▸ hj)
    rw [hs.target _ j fun _ => rfl, location_of_static h.noStrides rfl h.staticStrides] at hne
    rw [hlocation, location_cloneView h hcaller]
    exact hne

/-- Copies do not touch the address buffer. -/
theorem Halves.afterAccesses_global (hs : Halves other split offset iabBase iabSpace target iab tile)
    (done : List (Execution G)) (mem : Memory R) (l : Int) :
    afterAccesses other split.inserted done mem (globalMemSpace, l) = mem (globalMemSpace, l) := by
  rw [hs.inserted]
  apply afterAccesses_of_not_written
  intro y _ j _
  rw [hs.iab _ j fun _ => rfl]
  intro heq
  cases (Prod.mk.inj heq).1

/-- The byte of an access, from the entry that its copy left. -/
theorem Halves.accessedByte_eq (hs : Halves other split offset iabBase iabSpace target iab tile)
    (x : Execution G) (mem : Memory R) (elemBytes wordSize : Nat) (point : List Int) :
    accessedByte (x.eval other) elemBytes wordSize point mem split.inserted =
      some (Writes.store mem (target.indices.map fun i =>
          (iab.location (x.eval other) i, mem (target.location (x.eval other) i)))
          (.resource iabSpace, iabBase +
            split.candidate.named (split.candidate.indirectOp.variables (x.eval other) point)) *
          wordSize +
        split.candidate.direct (x.eval other)
          (split.candidate.indirectOp.variables (x.eval other) point) * elemBytes) := by
  rw [hs.inserted]
  show some (tile.byte _ (Writes.store _ (Op.writes _ _ _)) _ _ _) = _
  rw [hs.byte, hs.iab _ _ fun _ => rfl]
  rfl

/-- **What an access of the rewritten function finds** where the named variables select an entry of
the buffer: the words the last grid element resolved from the index there. -/
theorem Halves.accessedByte_inBuffer
    (hs : Halves other split offset iabBase iabSpace target iab tile)
    (h : split.candidate.Accepted builder) (hcaller : caller (.constant 0) = 0)
    (hfree : Undisturbed other grid caller split) {order : List G} {w : G} (hw : w ∈ grid)
    (mem : Memory R) (done : List (Execution G)) (x : Execution G) (point : List Int)
    (elemBytes wordSize : Nat) {i : List Int} (hi : i ∈ split.candidate.idxView.indices)
    (hnamed : distance i split.candidate.idxView.getStrides =
      split.candidate.named (split.candidate.indirectOp.variables (x.eval other) point)) :
    accessedByte (x.eval other) elemBytes wordSize point
        (afterAccesses other split.inserted done (afterIdxToAddr other split.idxToAddr.ops
          ((newOperands split.candidate split.candidate.callArgs).map caller) (order ++ [w]) mem))
        split.inserted =
      some (resolvedWords other caller split.candidate w (mem (split.candidate.idxView.memorySpace,
          split.candidate.resolves other caller w split.candidate.idxView.offset +
            split.candidate.named (split.candidate.indirectOp.variables (x.eval other) point))) *
          wordSize +
        split.candidate.direct (x.eval other)
          (split.candidate.indirectOp.variables (x.eval other) point) * elemBytes) := by
  rw [hs.accessedByte_eq, ← hnamed, ← hs.resolved h hcaller hfree order hw mem hi]
  congr 3
  apply Writes.store_of_mem
  · refine ⟨_, List.mem_map_of_mem (hs.indices ▸ hi), ?_⟩
    exact hs.iab _ i fun _ => rfl
  · intro write hwrite heq
    obtain ⟨j, hj, rfl⟩ := List.mem_map.mp hwrite
    rw [hs.iab _ j fun _ => rfl] at heq
    dsimp only
    rw [hs.target _ j fun _ => rfl, hs.afterAccesses_global,
      Int.add_left_cancel (Prod.mk.inj heq).2]

/-- Where they select none, it finds what was in the indirect address buffer before. -/
theorem Halves.accessedByte_outside
    (hs : Halves other split offset iabBase iabSpace target iab tile)
    {order : List G} {arguments : List Int}
    (mem : Memory R) (done : List (Execution G)) (x : Execution G) (point : List Int)
    (elemBytes wordSize : Nat)
    (hnamed : ∀ i ∈ split.candidate.idxView.indices, distance i split.candidate.idxView.getStrides ≠
      split.candidate.named (split.candidate.indirectOp.variables (x.eval other) point)) :
    accessedByte (x.eval other) elemBytes wordSize point
        (afterAccesses other split.inserted done
          (afterIdxToAddr other split.idxToAddr.ops arguments order mem)) split.inserted =
      some (mem (.resource iabSpace, iabBase +
          split.candidate.named (split.candidate.indirectOp.variables (x.eval other) point)) *
          wordSize +
        split.candidate.direct (x.eval other)
          (split.candidate.indirectOp.variables (x.eval other) point) * elemBytes) := by
  have hmiss : ∀ (y : Execution G), ∀ j ∈ target.indices, iab.location (y.eval other) j ≠
      (.resource iabSpace, iabBase +
        split.candidate.named (split.candidate.indirectOp.variables (x.eval other) point)) := by
    intro y j hj heq
    rw [hs.iab _ j fun _ => rfl] at heq
    exact hnamed j (hs.indices ▸ hj) (Int.add_left_cancel (Prod.mk.inj heq).2)
  rw [hs.accessedByte_eq]
  congr 3
  rw [Writes.store_of_not_mem, hs.inserted,
    afterAccesses_of_not_written fun y _ j hj => hmiss y j hj, hs.idxToAddr,
    afterIdxToAddr_of_not_written]
  · intro w _ j _
    rw [hs.target _ j fun _ => rfl]
    intro heq
    cases (Prod.mk.inj heq).1
  · intro write hwrite
    obtain ⟨j, hj, rfl⟩ := List.mem_map.mp hwrite
    exact hmiss x j hj

end Found

/-- **The accesses are kept exactly where the grid elements agree on them**, for a split with its two
halves. -/
theorem Halves.accessesKept_iff {offset iabBase : Int} {iabSpace : R}
    {target iab : ConstructMemoryViewOp R} {tile : ConstructIndirectAccessTileOp R}
    (hs : Halves other split offset iabBase iabSpace target iab tile)
    (h : split.candidate.Accepted builder) (hv : split.candidate.indirectOp.Verified)
    (hcaller : caller (.constant 0) = 0) (hfree : Undisturbed other grid caller split)
    (hwords : WholeWords other grid caller split.candidate) :
    AccessesKept other grid caller split ↔
      ∀ (x : Execution G) (point : List Int), x.element ∈ grid →
        x.Passes (split.candidate.callArgs.map caller) →
        split.candidate.indirectOp.variablesSpaceSet point = true →
        ElementsAgree other grid caller split.candidate x point := by
  have hword : (split.candidate.wordSize : Int) ≠ 0 := by
    have := h.wordSize
    omega
  constructor
  · intro hkept x point hx hpasses hpoint
    have hin : ∃ i ∈ split.candidate.idxView.indices, distance i split.candidate.idxView.getStrides =
        split.candidate.named (split.candidate.indirectOp.variables (x.eval other) point) := by
      by_contra hmiss
      push Not at hmiss
      -- What the access finds then does not depend on the other memories.
      have hfound : ∀ k : Int, k * split.candidate.wordSize =
          x.eval other split.candidate.baseAddr * split.candidate.elemBytes := by
        intro k
        obtain ⟨kind, ctId, hspace⟩ := hv.space split.candidate.idxView (by simp [h.indirectMemrefs])
        have hk := hkept (fun l => if l.1 = .resource iabSpace then k else 0) grid [] x point
          (List.Perm.refl _) hx hpasses hpoint
        rw [hs.accessedByte_outside _ _ _ _ _ _ hmiss, element_eq h hv, hspace] at hk
        have hk' := Option.some.inj hk
        simp only [if_true, reduceCtorEq, if_false] at hk'
        linear_combination hk'
      have h0 := hfound 0
      have h1 := hfound 1
      rw [← h0] at h1
      exact hword (by simpa using h1)
    refine ⟨hin, fun helem w hw => ?_⟩
    obtain ⟨i, hi, hnamed⟩ := hin
    obtain ⟨l₁, l₂, hsplit⟩ := List.append_of_mem hw
    have hperm : (l₁ ++ l₂ ++ [w]).Perm grid := by
      rw [hsplit, List.append_assoc]
      exact List.Perm.append_left l₁ (List.perm_append_singleton w l₂)
    -- With `w` last, the access is worth what `w` resolved, whatever the index memory holds.
    have hfound : ∀ mem : Memory R,
        split.candidate.resolves other caller w split.candidate.baseAddr +
          mem (split.candidate.idxView.memorySpace,
            split.candidate.resolves other caller w split.candidate.idxView.offset +
              split.candidate.named (split.candidate.indirectOp.variables (x.eval other) point)) *
            split.candidate.resolves other caller w split.candidate.strideValue =
        x.eval other split.candidate.baseAddr +
          mem (split.candidate.idxView.memorySpace,
            x.eval other split.candidate.idxView.offset + split.candidate.subscripted
              (split.candidate.indirectOp.variables (x.eval other) point)) *
            x.eval other split.candidate.strideValue := by
      intro mem
      have hk := hkept mem (l₁ ++ l₂ ++ [w]) [] x point hperm hx hpasses hpoint
      rw [hs.accessedByte_inBuffer h hcaller hfree hw mem [] x point _ _ hi hnamed,
        resolvedWords_mul h hcaller hwords hw, element_eq h hv] at hk
      have hk' := Option.some.inj hk
      have hcancel : (split.candidate.elemBytes : Int) ≠ 0 := by exact_mod_cast helem
      apply mul_right_cancel₀ hcancel
      linear_combination hk'
    have hzero := hfound fun _ => 0
    have hone := hfound fun _ => 1
    simp only [zero_mul, add_zero, one_mul] at hzero hone
    have hstride : split.candidate.resolves other caller w split.candidate.strideValue =
        x.eval other split.candidate.strideValue := by
      rw [hzero] at hone
      exact Int.add_left_cancel hone
    refine ⟨hzero, hstride, ?_⟩
    by_contra hne
    push Not at hne
    -- A memory that holds one index only.
    have hsingle := hfound fun l => if l.2 = x.eval other split.candidate.idxView.offset +
      split.candidate.subscripted (split.candidate.indirectOp.variables (x.eval other) point)
      then 1 else 0
    simp only [if_neg hne.1, if_true, zero_mul, one_mul, add_zero, hzero] at hsingle
    apply hne.2
    linear_combination -hsingle
  · intro hagree mem order done x point horder hx hpasses hpoint
    obtain ⟨⟨i, hi, hnamed⟩, hresolved⟩ := hagree x point hx hpasses hpoint
    have hne : order ≠ [] := by
      rintro rfl
      rw [horder.symm.eq_nil] at hx
      cases hx
    have hlast : order.getLast hne ∈ grid := horder.mem_iff.mp (List.getLast_mem hne)
    rw [← List.dropLast_append_getLast hne, hs.accessedByte_inBuffer h hcaller hfree hlast mem done x
      point _ _ hi hnamed, resolvedWords_mul h hcaller hwords hlast, element_eq h hv]
    congr 1
    by_cases helem : split.candidate.elemBytes = 0
    · simp [helem]
    · obtain ⟨hbase, hstride, hindex⟩ := hresolved helem _ hlast
      rw [hbase, hstride]
      rcases hindex with hindex | hzero
      · rw [hindex]
        ring
      · rw [hzero]
        ring

end Access

/-! ## Named variables -/

omit [DecidableEq R] in
/-- The values of captured variables that are literal zeros are zero, so the substitution changes no
value. -/
theorem replacedDim_zeroCaptured {ν : Value → Int} (hν : ∀ k, ν (.constant k) = k)
    (capturedVars : List Value) (point : List Int) (symbols : Nat → Int) (p : Nat) :
    Affine.Expr.replacedDim (zeroCaptured capturedVars)
        (fun k => (capturedVars.map ν ++ point).getD k 0) symbols p =
      (capturedVars.map ν ++ point).getD p 0 := by
  unfold Affine.Expr.replacedDim zeroCaptured
  rw [List.getElem?_mapIdx]
  cases hp : capturedVars[p]? with
  | none => rfl
  | some v =>
      simp only [Option.map_some, Option.getD_some]
      split
      · next hzero =>
          have hv : v = .constant 0 := by
            cases v with
            | constant k =>
                cases hzero
                rfl
            | blockArgument arg => cases hzero
            | result op operands => cases hzero
          have hget : (capturedVars.map ν ++ point)[p]? = some 0 := by
            rw [List.getElem?_append_left, List.getElem?_map, hp, hv, Option.map_some, hν]
            rw [List.length_map]
            exact (List.getElem?_eq_some_iff.mp hp).1
          rw [List.getD_eq_getElem?_getD, hget]
          rfl
      · rfl

/-- No subscript folds to zero while the first captured variable it mentions is alive. -/
def ZerosNamed (builder : Affine.Builder) (capturedVars : List Value) (subscript : Affine.Expr) :
    Prop :=
  subscript.replaceDims builder (zeroCaptured capturedVars) = .constant 0 →
    ∀ p, (List.range (zeroCaptured capturedVars).length).find? (fun p => subscript.isFunctionOfDim p) =
      some p → capturedVars[p]? = some (.constant 0)

omit [DecidableEq R] in
/-- **A named variable has the value of the subscript** it was named for. -/
theorem resolveSubscriptPosition_value {builder : Affine.Builder} {capturedVars : List Value}
    {subscript : Affine.Expr} {position : Nat} {ν : Value → Int} (hν : ∀ k, ν (.constant k) = k)
    (h : resolveSubscriptPosition builder subscript (zeroCaptured capturedVars) = some position)
    (hzeros : ZerosNamed builder capturedVars subscript) (point : List Int) :
    (capturedVars.map ν ++ point).getD position 0 =
      subscript.eval (fun k => (capturedVars.map ν ++ point).getD k 0) (fun _ => 0) := by
  have heval := Affine.Expr.eval_replaceDims builder (zeroCaptured capturedVars)
    (fun k => (capturedVars.map ν ++ point).getD k 0) (fun _ => 0) subscript
  rw [funext (replacedDim_zeroCaptured hν capturedVars point fun _ => 0)] at heval
  unfold resolveSubscriptPosition at h
  split at h
  · next p hp =>
      cases h
      rw [← heval, hp]
      rfl
  · next hconst =>
      have hcaptured := hzeros hconst position h
      have hget : (capturedVars.map ν ++ point)[position]? = some 0 := by
        rw [List.getElem?_append_left, List.getElem?_map, hcaptured, Option.map_some, hν]
        rw [List.length_map]
        exact (List.getElem?_eq_some_iff.mp hcaptured).1
      rw [← heval, hconst, List.getD_eq_getElem?_getD, hget]
      rfl
  · cases h

omit [DecidableEq R] in
/-- Named variables reach as far as the subscripts. -/
theorem resolvePositions_values {builder : Affine.Builder} {capturedVars : List Value} {dim r : Nat}
    {subscripts : List Affine.Expr} {positions : List Nat} {ν : Value → Int}
    (hν : ∀ k, ν (.constant k) = k)
    (h : resolvePositions (R := R) builder (zeroCaptured capturedVars) dim r subscripts = .ok positions)
    (hzeros : ∀ subscript ∈ subscripts, ZerosNamed builder capturedVars subscript) (point : List Int) :
    positions.map (fun p => (capturedVars.map ν ++ point).getD p 0) =
      subscripts.map fun e => e.eval (fun k => (capturedVars.map ν ++ point).getD k 0) fun _ => 0 := by
  induction subscripts generalizing r positions with
  | nil =>
      cases h
      rfl
  | cons subscript subscripts ih =>
      rw [List.forall_mem_cons] at hzeros
      unfold resolvePositions at h
      split at h
      · cases h
      · next position hposition =>
          cases hrest : resolvePositions (R := R) builder (zeroCaptured capturedVars) dim (r + 1)
              subscripts with
          | error e =>
              rw [hrest] at h
              cases h
          | ok rest =>
              rw [hrest] at h
              cases h
              rw [List.map_cons, List.map_cons, ih hrest hzeros.2,
                resolveSubscriptPosition_value hν hposition hzeros.1]

omit [DecidableEq R] in
/-- So with zeros named as zeros, the entry that is named is the one the subscripts select. -/
theorem SplitCandidate.Accepted.named_eq_subscripted (other : Nat → G → List Int → Int)
    {builder : Affine.Builder} {c : SplitCandidate R} (h : c.Accepted builder) {map : Affine.Map}
    (hmap : c.indirectOp.perDimSubscriptMaps[c.indirDim]? = some map)
    (hzeros : ∀ subscript ∈ map.results,
      ZerosNamed builder c.indirectOp.capturedVariables subscript)
    (x : Execution G) (point : List Int) :
    c.named (c.indirectOp.variables (x.eval other) point) =
      c.subscripted (c.indirectOp.variables (x.eval other) point) := by
  have hpositions := h.positions
  unfold deriveIndAddrBufDimPositions at hpositions
  rw [hmap] at hpositions
  unfold SplitCandidate.named SplitCandidate.subscripted ConstructIndirectAccessTilesOp.variables
  rw [hmap, resolvePositions_values (fun _ => rfl) hpositions hzeros]
  rfl

/-! ## Values that are the same on all grid elements -/

mutual

/-- Whether a value is computed of constants and the function's arguments, by operations that do the
same on all grid elements. -/
def Value.isUniform (same : Nat → Bool) : Value → Bool
  | .blockArgument arg => arg.block == 0
  | .constant _ => true
  | .result (.other id) operands => same id && areUniform same operands
  | .result .muli operands => areUniform same operands
  | .result .divsi operands => areUniform same operands

def areUniform (same : Nat → Bool) : List Value → Bool
  | [] => true
  | v :: vs => v.isUniform same && areUniform same vs

end

/-- Products and quotients are the same on all grid elements. -/
theorem Operation.apply_element {other : Nat → G → List Int → Int} (w w' : G) {op : Operation}
    (h : ∀ id, op = .other id → other id w = other id w') (operands : List Int) :
    op.apply other w operands = op.apply other w' operands := by
  cases op with
  | other id => exact congrFun (h id rfl) operands
  | muli => rcases operands with _ | ⟨a, _ | ⟨b, _ | ⟨_, _⟩⟩⟩ <;> rfl
  | divsi => rcases operands with _ | ⟨a, _ | ⟨b, _ | ⟨_, _⟩⟩⟩ <;> rfl

section Uniform

variable {other : Nat → G → List Int → Int} {same : Nat → Bool} {arguments : List Int}
  {x : Execution G}

mutual

/-- Such a value is the same in the resolving function. -/
theorem eval_of_isUniform (hsame : ∀ id, same id → ∀ w w' : G, other id w = other id w')
    (hpasses : x.Passes arguments) (w : G) : (v : Value) → v.isUniform same →
    v.eval other (forwarded arguments) w = x.eval other v
  | .blockArgument arg, h => by
      obtain ⟨block, number⟩ := arg
      obtain rfl : block = 0 := by simpa [Value.isUniform] using h
      exact (hpasses number).symm
  | .constant _, _ => rfl
  | .result (.other id) operands, h => by
      rw [Value.isUniform, Bool.and_eq_true] at h
      show other id w _ = other id x.element _
      rw [evalAll_of_areUniform hsame hpasses w operands h.2, hsame id h.1 w x.element]
  | .result .muli operands, h => by
      show Operation.apply other w .muli _ = Operation.apply other x.element .muli _
      rw [evalAll_of_areUniform hsame hpasses w operands h]
      exact Operation.apply_element w x.element (by intro id hid; cases hid) _
  | .result .divsi operands, h => by
      show Operation.apply other w .divsi _ = Operation.apply other x.element .divsi _
      rw [evalAll_of_areUniform hsame hpasses w operands h]
      exact Operation.apply_element w x.element (by intro id hid; cases hid) _

theorem evalAll_of_areUniform (hsame : ∀ id, same id → ∀ w w' : G, other id w = other id w')
    (hpasses : x.Passes arguments) (w : G) : (vs : List Value) → areUniform same vs →
    evalAll other (forwarded arguments) w vs = evalAll other x.env x.element vs
  | [], _ => rfl
  | v :: vs, h => by
      rw [areUniform, Bool.and_eq_true] at h
      show _ :: _ = _ :: _
      rw [eval_of_isUniform hsame hpasses w v h.1, evalAll_of_areUniform hsame hpasses w vs h.2]
      rfl

end

end Uniform

omit [DecidableEq R] in
/-- So where base, stride and index view are computed so, and the subscripts are indices of the view,
all grid elements agree. -/
theorem SplitCandidate.Accepted.elementsAgree {builder : Affine.Builder} {c : SplitCandidate R}
    (h : c.Accepted builder) {map : Affine.Map}
    (hmap : c.indirectOp.perDimSubscriptMaps[c.indirDim]? = some map)
    (hzeros : ∀ subscript ∈ map.results,
      ZerosNamed builder c.indirectOp.capturedVariables subscript)
    {same : Nat → Bool} (hsame : ∀ id, same id → ∀ w w' : G, other id w = other id w')
    (hbase : c.baseAddr.isUniform same) (hstride : c.strideValue.isUniform same)
    (hoffset : c.idxView.offset.isUniform same) (grid : List G) (caller : Value → Int)
    {x : Execution G} (hpasses : x.Passes (c.callArgs.map caller)) {point : List Int}
    (hindex : mapValues (c.indirectOp.variables (x.eval other) point) map ∈ c.idxView.indices) :
    ElementsAgree other grid caller c x point := by
  have hnamed := h.named_eq_subscripted other hmap hzeros x point
  refine ⟨⟨_, hindex, ?_⟩, fun _ w _ => ⟨?_, ?_, Or.inl ?_⟩⟩
  · rw [hnamed, SplitCandidate.subscripted, hmap]
    rfl
  · exact eval_of_isUniform hsame hpasses w c.baseAddr hbase
  · exact eval_of_isUniform hsame hpasses w c.strideValue hstride
  · rw [hnamed, SplitCandidate.resolves, eval_of_isUniform hsame hpasses w c.idxView.offset hoffset]

/-! ## The whole pass -/

/-- **A split keeps the accesses exactly where all grid elements agree on them**: in every run of the
pass, the rewritten function of a candidate goes to the words of the original, for every content of the
memory and every order of the grid elements, if and only if at every execution and every point the
named variables select an entry of the buffer, and base, stride and index are those of the access on
every grid element. -/
theorem runOnOperation_accessesKept_iff (uniqued : List String → String → String)
    (builder : Affine.Builder) (device : Option (Device R)) (tree : MemoryTree R) (s : State R)
    (run : Run R) (hrun : runOnOperation uniqued builder device tree s = .ok run) (split : Split R)
    (hsplit : split ∈ run.splits) (hverified : split.candidate.indirectOp.Verified)
    (other : Nat → G → List Int → Int) (grid : List G) (caller : Value → Int)
    (hcaller : caller (.constant 0) = 0) (hfree : Undisturbed other grid caller split)
    (hwords : WholeWords other grid caller split.candidate) :
    AccessesKept other grid caller split ↔
      ∀ (x : Execution G) (point : List Int), x.element ∈ grid →
        x.Passes (split.candidate.callArgs.map caller) →
        split.candidate.indirectOp.variablesSpaceSet point = true →
        ElementsAgree other grid caller split.candidate x point := by
  unfold runOnOperation at hrun
  obtain ⟨ops, hops, hrun⟩ := Except.bind_eq_ok.mp hrun
  split at hrun
  · cases hrun
    cases hsplit
  · obtain ⟨info, hinfo, hrun⟩ := Except.bind_eq_ok.mp hrun
    obtain ⟨orchestrator, horch, hrun⟩ := Except.bind_eq_ok.mp hrun
    cases hrun
    obtain ⟨⟨op, -, hok⟩, bytes, address, id, name, hover⟩ := splitAll_splits ops s split hsplit
    have haccepted := analyzeCandidate_accepted hok
    obtain ⟨target, iab, tile, hs⟩ : ∃ target iab tile, Halves other split _ _ _ target iab tile :=
      hover.halves haccepted
    exact hs.accessesKept_iff haccepted hverified hcaller hfree hwords

/-- **A split of a uniform access keeps it**: where base, stride and the offset of the index view are
computed of constants and arguments by operations that do the same on all grid elements, and the
subscripts are indices of that view, the rewritten function of a candidate goes to the words of the
original, in every run of the pass. -/
theorem runOnOperation_accessesKept_of_uniform (uniqued : List String → String → String)
    (builder : Affine.Builder) (device : Option (Device R)) (tree : MemoryTree R) (s : State R)
    (run : Run R) (hrun : runOnOperation uniqued builder device tree s = .ok run) (split : Split R)
    (hsplit : split ∈ run.splits) (hverified : split.candidate.indirectOp.Verified)
    (other : Nat → G → List Int → Int) (grid : List G) (caller : Value → Int)
    (hcaller : caller (.constant 0) = 0) (hfree : Undisturbed other grid caller split)
    (hwords : WholeWords other grid caller split.candidate) (same : Nat → Bool)
    (hsame : ∀ id, same id → ∀ w w' : G, other id w = other id w')
    (hbase : split.candidate.baseAddr.isUniform same)
    (hstride : split.candidate.strideValue.isUniform same)
    (hoffset : split.candidate.idxView.offset.isUniform same) (map : Affine.Map)
    (hmap : split.candidate.indirectOp.perDimSubscriptMaps[split.candidate.indirDim]? = some map)
    (hzeros : ∀ subscript ∈ map.results,
      ZerosNamed builder split.candidate.indirectOp.capturedVariables subscript)
    (hindices : ∀ (x : Execution G) (point : List Int), x.element ∈ grid →
      x.Passes (split.candidate.callArgs.map caller) →
      split.candidate.indirectOp.variablesSpaceSet point = true →
      mapValues (split.candidate.indirectOp.variables (x.eval other) point) map ∈
        split.candidate.idxView.indices) :
    AccessesKept other grid caller split := by
  unfold runOnOperation at hrun
  obtain ⟨ops, hops, hrun⟩ := Except.bind_eq_ok.mp hrun
  split at hrun
  · cases hrun
    cases hsplit
  · obtain ⟨info, hinfo, hrun⟩ := Except.bind_eq_ok.mp hrun
    obtain ⟨orchestrator, horch, hrun⟩ := Except.bind_eq_ok.mp hrun
    cases hrun
    obtain ⟨⟨op, -, hok⟩, bytes, address, id, name, hover⟩ := splitAll_splits ops s split hsplit
    have haccepted := analyzeCandidate_accepted hok
    obtain ⟨target, iab, tile, hs⟩ : ∃ target iab tile, Halves other split _ _ _ target iab tile :=
      hover.halves haccepted
    refine (hs.accessesKept_iff haccepted hverified hcaller hfree hwords).mpr ?_
    intro x point hx hpasses hspace
    exact haccepted.elementsAgree hmap hzeros hsame hbase hstride hoffset grid caller hpasses
      (hindices x point hx hpasses hspace)

/-! ## Two grid elements -/

/-- A device with a global memory, resource `false`, and an indirect address buffer in it. -/
def twoLevelTree : MemoryTree Bool where
  nodes := [⟨0, false, none, none, [1], some 4096, none⟩, ⟨1, true, none, some 0, [], some 64, none⟩]
  resourceToNode := fun r => some (if r then 1 else 0)
  aliasToNode := fun _ => none
  nodup_ids := by decide
  isSome_resourceToNode := by simp
  resource_of_resourceToNode := by
    intro r id h
    cases r <;> simp_all

/-- Words of two bytes. -/
def halfWords : LoadStoreAttr Bool := ⟨fun _ => 2, fun _ => Nat.two_pos⟩

def twoLevelDevice : Device Bool where
  kinds := [⟨some halfWords, none, [0]⟩]
  parentKinds := fun _ => [0]
  indirectAddressBuffer := fun r => if r then some (some (.integer .signed 32)) else none
  memSpaceMapping := fun _ => none

/-- Two indices, from the entry that the call passes on. -/
def twoIndices : ConstructMemoryViewOp Bool where
  type := ⟨[some 2], .integer .signed 32⟩
  offset := .blockArgument ⟨0, 0⟩
  sizes := []
  strides := []
  staticSizes := [some 2]
  staticStrides := [some 1]
  memorySpace := globalMemSpace
  coordinateSet := fun _ => true

/-- Rows of 64 half words, from the element `base`. -/
def rowsFrom (base : Value) : ConstructMemoryViewOp Bool where
  type := ⟨[some 8, some 64], .other (.float 16)⟩
  offset := base
  sizes := []
  strides := []
  staticSizes := [some 8, some 64]
  staticStrides := [some 64, some 1]
  memorySpace := globalMemSpace
  coordinateSet := fun _ => true

/-- A gather of the rows that the two indices select, each of its first two half words. -/
def gatherRows (base : Value) : ConstructIndirectAccessTilesOp Bool where
  base := .constructMemoryView (rowsFrom base)
  indirectMemrefs := [.constructMemoryView twoIndices]
  perDimSubscriptKinds := [true, false]
  perDimSubscriptMaps := [⟨2, 0, [.dim 0]⟩, ⟨2, 0, [.dim 1]⟩]
  capturedVariables := []
  numIntermediateVariables := 2
  variablesSpaceOrder := .identity 2
  variablesSpaceSet := fun point => point ∈ [[0, 0], [0, 1], [1, 0], [1, 1]]
  type := [2, 2]
  users := [.load]

def gatherTop (base : Value) : List (ModuleOp Bool) :=
  [⟨0, some "local_schedule_0",
      [⟨"gather", 1, none, some [.constructIndirectAccessTiles (gatherRows base)]⟩]⟩,
    ⟨1, none, [⟨"main", 1, none, some [.call (some 0) "gather" [.blockArgument ⟨0, 0⟩]]⟩]⟩]

def gatherSplit (base : Value) : Run Bool :=
  (runOnOperation (fun _ name => name) .plain (some twoLevelDevice) twoLevelTree
    ⟨gatherTop base, MemoryTracker.ofTree twoLevelTree⟩).toOption.getD ⟨[], none, ⟨[], .empty⟩⟩

/-- The split of the gather from element 128. -/
def constantBase : Split Bool := ((gatherSplit (.constant 128)).splits.head?).get rfl

/-- The split of the gather from an element that each grid element computes for itself. -/
def ownBase : Split Bool := ((gatherSplit (.result (.other 0) [])).splits.head?).get rfl

/-- A row further on each grid element. -/
def rowOfElement (_ : Nat) (w : Fin 2) (_ : List Int) : Int := 64 * w.val

/-- The call passes 512 on. -/
def passes512 : Value → Int := Value.eval rowOfElement (fun _ => 512) 0

theorem gatherRows_verified (base : Value) : (gatherRows base).Verified where
  kinds := rfl
  memrefs := rfl
  space := by
    intro view hview
    obtain rfl : view = twoIndices := by simpa [gatherRows] using hview
    exact ⟨.global, -1, rfl⟩

theorem runOnOperation_accessesKept_iff_constantBase :
    AccessesKept rowOfElement [0, 1] passes512 constantBase ↔
      ∀ (x : Execution (Fin 2)) (point : List Int), x.element ∈ [0, 1] →
        x.Passes (constantBase.candidate.callArgs.map passes512) →
        constantBase.candidate.indirectOp.variablesSpaceSet point = true →
        ElementsAgree rowOfElement [0, 1] passes512 constantBase.candidate x point := by
  refine runOnOperation_accessesKept_iff (fun _ name => name) .plain (some twoLevelDevice) twoLevelTree
    ⟨gatherTop (.constant 128), MemoryTracker.ofTree twoLevelTree⟩ (gatherSplit (.constant 128))
    (Except.eq_ok_getD _ rfl) constantBase ?_ (gatherRows_verified (.constant 128)) rowOfElement [0, 1]
    passes512 rfl ?_ ?_
  · exact List.mem_of_mem_head? (Option.some_get _).symm
  · unfold Undisturbed
    decide +kernel
  · unfold WholeWords
    decide +kernel

theorem runOnOperation_accessesKept_of_uniform_constantBase :
    AccessesKept rowOfElement [0, 1] passes512 constantBase := by
  refine runOnOperation_accessesKept_of_uniform (fun _ name => name) .plain (some twoLevelDevice)
    twoLevelTree ⟨gatherTop (.constant 128), MemoryTracker.ofTree twoLevelTree⟩
    (gatherSplit (.constant 128)) (Except.eq_ok_getD _ rfl) constantBase
    (List.mem_of_mem_head? (Option.some_get _).symm) (gatherRows_verified (.constant 128))
    rowOfElement [0, 1] passes512 rfl ?_ ?_ (fun _ => false) ?_ rfl rfl rfl ⟨2, 0, [.dim 0]⟩ rfl ?_ ?_
  · unfold Undisturbed
    decide +kernel
  · unfold WholeWords
    decide +kernel
  · intro id hid
    cases hid
  · intro subscript hsubscript
    obtain rfl := List.mem_singleton.mp hsubscript
    intro hzero
    cases hzero
  · intro x point _ _ hspace
    -- nothing is captured, so the variables are the point
    have hall : ∀ point ∈ [[0, 0], [0, 1], [1, 0], [(1 : Int), 1]],
        mapValues point ⟨2, 0, [.dim 0]⟩ ∈ twoIndices.indices := by decide +kernel
    exact hall point (of_decide_eq_true hspace)

/-- A base that every grid element computes for itself: all resolve into the same two entries, and the
first grid element finds the rows of the second. -/
theorem not_accessesKept_ownBase :
    gatherSplit (.result (.other 0) []) ∈ (runOnOperation (fun _ name => name) .plain
      (some twoLevelDevice) twoLevelTree
      ⟨gatherTop (.result (.other 0) []), MemoryTracker.ofTree twoLevelTree⟩).toOption ∧
    ownBase ∈ (gatherSplit (.result (.other 0) [])).splits ∧
    ¬ AccessesKept rowOfElement [0, 1] passes512 ownBase := by
  refine ⟨rfl, List.mem_of_mem_head? (Option.some_get _).symm, fun hkept => ?_⟩
  have hbyte := hkept (fun _ => 0) [0, 1] [] ⟨0, fun arg => [512].getD arg.number 0⟩ [0, 0]
    (List.Perm.refl _) (by decide) (fun _ => rfl) (by decide +kernel)
  exact absurd hbyte (by decide +kernel)

end IndirectComputeGroupSplit

end DataflowScheduler
