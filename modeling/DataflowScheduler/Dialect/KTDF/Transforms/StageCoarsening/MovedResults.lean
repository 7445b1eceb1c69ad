import DataflowScheduler.Dialect.KTDF.Transforms.StageCoarsening.CorrectedScopes
import DataflowScheduler.Util.Except
import Mathlib.Data.List.Pairwise

/-!
# Moved results

The IR that `ScopeCorrection` leaves, and when it is corrected.
-/

namespace DataflowScheduler

namespace ScopeCorrection

/-! ## Names -/

theorem eq_of_mem_flatMap {α β : Type} {f : α → List β} {l : List α} (h : (l.flatMap f).Nodup)
    {a a' : α} (ha : a ∈ l) (ha' : a' ∈ l) {b : β} (hb : b ∈ f a) (hb' : b ∈ f a') : a = a' := by
  by_contra hne
  have hdisjoint := (List.nodup_flatMap.mp h).2
  have hsymm : Std.Symm (Function.onFun List.Disjoint f) := ⟨fun _ _ h => h.symm⟩
  exact hdisjoint.forall ha ha' hne hb hb'

theorem mem_resultsOf {id : Nat} {types : List ResultType} {v : Value} :
    v ∈ resultsOf id types ↔ ∃ k < types.length, v = .result id k := by
  rw [resultsOf, List.mem_map]
  constructor
  · rintro ⟨k, hk, rfl⟩
    exact ⟨k, List.mem_range.mp hk, rfl⟩
  · rintro ⟨k, hk, rfl⟩
    exact ⟨k, List.mem_range.mpr hk, rfl⟩

theorem nodup_map_result (id : Nat) {l : List Nat} (h : l.Nodup) : (l.map (Value.result id)).Nodup :=
  h.map fun _ _ heq => (Value.result.inj heq).2

theorem getElem?_resultsOf {id : Nat} {types : List ResultType} {k : Nat} (h : k < types.length) :
    (resultsOf id types)[k]? = some (.result id k) := by
  rw [resultsOf, List.getElem?_map, List.getElem?_range h]
  rfl

theorem nodup_resultsOf (id : Nat) (types : List ResultType) : (resultsOf id types).Nodup :=
  nodup_map_result id List.nodup_range

/-- What ops in scope read is visible, or defined by one of them. -/
theorem BodyInScope.mem_of_operand {visible : Value → Prop} {scope : List Value} {ops : List Op}
    (h : BodyInScope visible scope ops) {op : Op} (hop : op ∈ ops) {v : Value}
    (hv : v ∈ op.operands) : v ∈ scope ∨ visible v ∨ v ∈ ops.flatMap Op.results := by
  induction ops generalizing scope with
  | nil => cases hop
  | cons op' ops ih =>
      rcases List.mem_cons.mp hop with rfl | hop
      · rcases h.1 v hv with hscope | hvisible
        · exact .inl hscope
        · exact .inr (.inl hvisible)
      · rw [List.flatMap_cons, List.mem_append]
        rcases ih h.2 hop with hscope | hvisible | hmem
        · rcases List.mem_append.mp hscope with hscope | hself
          · exact .inl hscope
          · exact .inr (.inr (.inl hself))
        · exact .inr (.inl hvisible)
        · exact .inr (.inr (.inr hmem))

section

variable {ir : IR} {outer : PrivateOp}

theorem id_mem_names {q : PrivateOp} (hq : q ∈ ir.privateOps) : q.id ∈ ir.names :=
  List.mem_flatMap.mpr ⟨q, hq, List.mem_cons_self⟩

theorem op_id_mem_names {q : PrivateOp} (hq : q ∈ ir.privateOps) {op : Op} (hop : op ∈ q.body) :
    op.id ∈ ir.names :=
  List.mem_flatMap.mpr ⟨q, hq, List.mem_cons_of_mem _ (List.mem_map_of_mem hop)⟩

namespace IR.Valid

variable (h : ir.Valid outer)

include h

theorem outer_mem : outer ∈ ir.privateOps :=
  List.mem_filterMap.mpr ⟨ir.outer, List.mem_cons_self, h.outer_eq⟩

theorem privateOp_unique {q q' : PrivateOp} (hq : q ∈ ir.privateOps) (hq' : q' ∈ ir.privateOps)
    (hid : q.id = q'.id) : q = q' :=
  eq_of_mem_flatMap h.names hq hq' List.mem_cons_self (hid ▸ List.mem_cons_self)

theorem body_nodup {q : PrivateOp} (hq : q ∈ ir.privateOps) : (q.body.map Op.id).Nodup :=
  ((List.nodup_flatMap.mp h.names).1 q hq).of_cons

theorem op_unique {q q' : PrivateOp} (hq : q ∈ ir.privateOps) (hq' : q' ∈ ir.privateOps) {op op' : Op}
    (hop : op ∈ q.body) (hop' : op' ∈ q'.body) (hid : op.id = op'.id) : q = q' ∧ op = op' := by
  have hmem := List.mem_cons_of_mem q.id (List.mem_map_of_mem (f := Op.id) hop)
  have hmem' := List.mem_cons_of_mem q'.id (List.mem_map_of_mem (f := Op.id) hop')
  have hsame : q = q' := eq_of_mem_flatMap h.names hq hq' hmem (hid ▸ hmem')
  exact ⟨hsame, List.inj_on_of_nodup_map (h.body_nodup hq) hop (hsame ▸ hop') hid⟩

theorem op_id_ne {q q' : PrivateOp} (hq : q ∈ ir.privateOps) (hq' : q' ∈ ir.privateOps) {op : Op}
    (hop : op ∈ q'.body) : op.id ≠ q.id := by
  intro hid
  have hmem := List.mem_cons_of_mem q'.id (List.mem_map_of_mem (f := Op.id) hop)
  have hsame : q = q' := eq_of_mem_flatMap h.names hq hq' List.mem_cons_self (hid ▸ hmem)
  have hnodup := (List.nodup_flatMap.mp h.names).1 q hq
  exact (List.nodup_cons.mp hnodup).1 (hid ▸ List.mem_map_of_mem (hsame ▸ hop))

/-- Results of ops are no results of private ops. -/
theorem result_ne {q q' : PrivateOp} (hq : q ∈ ir.privateOps) (hq' : q' ∈ ir.privateOps) {v : Value}
    (hv : v ∈ q'.body.flatMap Op.results) (k : Nat) : v ≠ .result q.id k := by
  rintro rfl
  obtain ⟨op, hop, hv⟩ := List.mem_flatMap.mp hv
  obtain ⟨k', -, heq⟩ := mem_resultsOf.mp hv
  exact h.op_id_ne hq hq' hop (Value.result.inj heq).1.symm

/-- The outer private op reads no result of a private op. -/
theorem outer_uses {v : Value} (hv : v ∈ outer.uses) {q : PrivateOp} (hq : q ∈ ir.privateOps)
    (k : Nat) : v ≠ .result q.id k := by
  rcases List.mem_append.mp hv with hv | hv
  · obtain ⟨op, hop, hv⟩ := List.mem_flatMap.mp hv
    rcases h.reads.mem_of_operand hop hv with hscope | houtside | hresult
    · cases hscope
    · rintro rfl
      exact houtside
    · exact h.result_ne hq h.outer_mem hresult k
  · exact h.result_ne hq h.outer_mem (h.inScope.yields outer h.outer_mem v hv) k

end IR.Valid

end

/-! ## The IR that is left -/

section

variable (ir : IR) (outer : PrivateOp) (q : PrivateOp)

def keptIndices : List Nat :=
  (List.range outer.resultTypes.length).filter fun idx => idx ∉ movedIndices ir outer

/-- The results that are moved. -/
def movedResults : List Value := (movedIndices ir outer).map (.result outer.id)

def keptResults : List Value := (keptIndices ir outer).map (.result outer.id)

/-- The private op of the inner pipeline, in which there was `q`. -/
def movedPrivate : PrivateOp where
  id := ir.next
  resultTypes := (movedOps ir outer).flatMap Op.resultTypes ++ q.resultTypes
  body := movedOps ir outer ++ q.body
  yields := movedValues ir outer ++ q.yields

/-- The private op of the outer pipeline. -/
def keptPrivate : PrivateOp where
  id := ir.next + 1
  resultTypes := (keptIndices ir outer).filterMap fun idx => outer.resultTypes[idx]?
  body := outer.body.filter fun op => op ∉ movedOps ir outer
  yields := outer.yields.filter fun v => v ∉ movedValues ir outer

/-- What is read instead of a value: first the moved results are replaced, then those of the inner
private op, then those that are kept. -/
def substitution (v : Value) : Value :=
  redirect (keptResults ir outer) (ir.next + 1) 0
    (redirect q.results ir.next (movedIndices ir outer).length
      (redirect (movedResults ir outer) ir.next 0 v))

/-- The IR after results moved to the pipeline `p`. -/
def movedIR (p : Nat) : IR where
  next := ir.next + 2
  outer :=
    { ir.outer with
      privateOp := some (keptPrivate ir outer)
      ops := ir.outer.ops.map (Op.mapValues (substitution ir outer q)) }
  inner := ir.inner.map fun pipeline =>
    if pipeline.id = p then
      { pipeline with
        privateOp := some ((movedPrivate ir outer q).mapValues (substitution ir outer q))
        ops := pipeline.ops.map (Op.mapValues (substitution ir outer q)) }
    else pipeline.mapValues (substitution ir outer q)

/-- The info about all that is moved, to the pipeline `p`. -/
def movedInfo (p : Nat) : ScopeCorrectionInfo :=
  ⟨p, movedIndices ir outer, movedOps ir outer, movedResults ir outer⟩

end

section

variable {ir : IR} {outer q : PrivateOp} {p : Nat}

theorem getPrivateOp_mem (hp : ir.getPrivateOp p = some q) : q ∈ ir.privateOps := by
  obtain ⟨pipeline, hpipeline, hq⟩ := Option.bind_eq_some_iff.mp hp
  exact List.mem_filterMap.mpr ⟨pipeline, List.mem_of_find?_eq_some hpipeline, hq⟩

theorem length_movedValues : (movedValues ir outer).length =
    ((movedOps ir outer).flatMap Op.resultTypes).length := by
  rw [movedValues, List.length_flatMap, List.length_flatMap]
  congr 1
  apply List.map_congr_left
  intro op _
  show (resultsOf op.id op.resultTypes).length = _
  rw [resultsOf, List.length_map, List.length_range]

theorem movedIndices_nodup : (movedIndices ir outer).Nodup := List.nodup_range.filter _

theorem keptIndices_nodup : (keptIndices ir outer).Nodup := List.nodup_range.filter _

theorem length_movedResults : (movedResults ir outer).length = (movedIndices ir outer).length :=
  List.length_map _

theorem replaceResults_of_le {new : PrivateOp} {first : Nat} {oldResults : List Value}
    (hlen : oldResults = [] ∨ first + oldResults.length ≤ new.resultTypes.length)
    (hnodup : oldResults.Nodup) (hnew : ∀ i, Value.result new.id i ∉ oldResults) (ir : IR) :
    replaceResults new first oldResults ir = .ok (ir.mapValues (redirect oldResults new.id first)) := by
  rw [replaceResults, if_neg (by grind), foldl_replaceAllUsesWith hnodup hnew]

theorem recreate_inner : recreatePrivateOp ir.next (some q)
    ((movedInfo ir outer p).getMovingResultTypes ++ q.resultTypes) (movedOps ir outer) [] =
      .ok (movedPrivate ir outer q) := by
  have hyields : (q.yields.filter fun v => !definedBy [] v) = q.yields := by
    apply List.filter_eq_self.mpr
    intro v _
    cases v <;> simp [definedBy]
  rw [recreatePrivateOp, hyields]
  simp [movedPrivate, movedInfo, ScopeCorrectionInfo.getMovingResultTypes, movedValues]

theorem length_movedPrivate : (movedPrivate ir outer q).resultTypes.length =
    (movedValues ir outer).length + q.resultTypes.length := by
  rw [length_movedValues]
  exact List.length_append

theorem length_results (q : PrivateOp) : q.results.length = q.resultTypes.length := by
  rw [PrivateOp.results, resultsOf, List.length_map, List.length_range]

theorem movedResults_nodup : (movedResults ir outer).Nodup := nodup_map_result _ movedIndices_nodup

/-- The inner private op is extended if it has a result for every index that is read. -/
theorem extendInnerPrivate_of_le (h : ir.Valid outer) (hq : q ∈ ir.privateOps)
    (hlen : (movedIndices ir outer).length ≤ (movedValues ir outer).length) :
    extendInnerPrivate (movedInfo ir outer p) q ir =
      .ok ((({ ir with next := ir.next + 1 }.setPrivateOp p (movedPrivate ir outer q)).mapValues
        (redirect (movedResults ir outer) ir.next 0)).mapValues
          (redirect q.results ir.next (movedIndices ir outer).length)) := by
  have hmoved : ∀ i, Value.result (movedPrivate ir outer q).id i ∉ movedResults ir outer := by
    intro i hi
    obtain ⟨idx, -, heq⟩ := List.mem_map.mp hi
    have hlt := h.lt_next _ (id_mem_names h.outer_mem)
    have hid : outer.id = ir.next := (Value.result.inj heq).1
    omega
  have hinner : ∀ i, Value.result (movedPrivate ir outer q).id i ∉ q.results := by
    intro i hi
    obtain ⟨k, -, heq⟩ := mem_resultsOf.mp hi
    have hlt := h.lt_next _ (id_mem_names hq)
    have hid : ir.next = q.id := (Value.result.inj heq).1
    omega
  have hnodup : q.results.Nodup := nodup_resultsOf _ _
  unfold extendInnerPrivate
  rw [show (movedInfo ir outer p).opsToMove = movedOps ir outer from rfl, recreate_inner]
  show (replaceResults _ 0 (movedResults ir outer) _).bind _ = _
  rw [replaceResults_of_le (.inr (by rw [length_movedResults, length_movedPrivate]; omega))
    movedResults_nodup hmoved]
  show replaceResults _ (movedResults ir outer).length q.results _ = _
  rw [replaceResults_of_le
    (.inr (by rw [length_movedResults, length_movedPrivate, length_results]; omega))
    hnodup hinner, length_movedResults]
  rfl

/-- It is not extended if that is missing: either a moved result has none, or the last result that
the op had. -/
theorem extendInnerPrivate_of_lt
    (hlen : (movedValues ir outer).length < (movedIndices ir outer).length) :
    ∃ e, extendInnerPrivate (movedInfo ir outer p) q ir = .error e := by
  unfold extendInnerPrivate
  rw [show (movedInfo ir outer p).opsToMove = movedOps ir outer from rfl, recreate_inner]
  have hsecond : q.results ≠ [] → ∀ ir', replaceResults (movedPrivate ir outer q)
      (movedInfo ir outer p).oldResults.length q.results ir' = .error .resultOutOfRange := by
    intro hne ir'
    have hlength : (movedInfo ir outer p).oldResults.length = (movedIndices ir outer).length :=
      length_movedResults
    rw [replaceResults, if_pos ⟨hne, by rw [length_movedPrivate, length_results, hlength]; omega⟩]
  have hfirst : q.results = [] → ∀ ir', replaceResults (movedPrivate ir outer q) 0
      (movedInfo ir outer p).oldResults ir' = .error .resultOutOfRange := by
    intro hnil ir'
    have hlength : (movedInfo ir outer p).oldResults.length = (movedIndices ir outer).length :=
      length_movedResults
    have hzero : q.resultTypes.length = 0 := by rw [← length_results, hnil]; rfl
    have hne : (movedInfo ir outer p).oldResults ≠ [] := fun hempty => by
      rw [hempty] at hlength
      exact absurd hlength (by simp only [List.length_nil]; omega)
    rw [replaceResults, if_pos ⟨hne, by rw [length_movedPrivate, hlength, hzero]; omega⟩]
  show ∃ e, (replaceResults _ 0 _ _).bind _ = .error e
  by_cases hnil : q.results = []
  · rw [hfirst hnil]
    exact ⟨_, rfl⟩
  · cases replaceResults (movedPrivate ir outer q) 0 (movedInfo ir outer p).oldResults _ with
    | error e => exact ⟨e, rfl⟩
    | ok ir' => exact ⟨_, hsecond hnil ir'⟩

/-! ### The outer private op -/

theorem redirect_of_private {id' : Nat} {types : List ResultType} {v : Value}
    (hv : ∀ k, v ≠ .result id' k) (id first : Nat) : redirect (resultsOf id' types) id first v = v := by
  apply redirect_of_notMem
  intro hmem
  obtain ⟨k, -, heq⟩ := mem_resultsOf.mp hmem
  exact hv k heq

theorem redirect_of_outer {indices : List Nat} {v : Value} (hv : ∀ k, v ≠ .result outer.id k)
    (id first : Nat) : redirect (indices.map (.result outer.id)) id first v = v := by
  apply redirect_of_notMem
  intro hmem
  obtain ⟨k, -, heq⟩ := List.mem_map.mp hmem
  exact hv k heq.symm

theorem mem_movedOps {op : Op} : op ∈ movedOps ir outer ↔
    op ∈ (movedIndices ir outer).filterMap (yieldedFrom outer) := by
  rw [movedOps, List.mem_reverse, List.mem_dedup, List.mem_reverse]

theorem movedOps_mem {op : Op} (h : op ∈ movedOps ir outer) : op ∈ outer.body := by
  obtain ⟨idx, -, hop⟩ := List.mem_filterMap.mp (mem_movedOps.mp h)
  exact yieldedFrom_mem hop

theorem recreate_outer (h : ir.Valid outer) : recreatePrivateOp (ir.next + 1) (some outer)
    ((keptIndices ir outer).filterMap fun idx => outer.resultTypes[idx]?) []
    (((movedIndices ir outer).filterMap (yieldedFrom outer)).map Op.id) =
      .ok (keptPrivate ir outer) := by
  have hbody : ∀ op ∈ outer.body,
      op.id ∈ ((movedIndices ir outer).filterMap (yieldedFrom outer)).map Op.id ↔
        op ∈ movedOps ir outer := by
    intro op hop
    constructor
    · intro hid
      obtain ⟨op', hop', heq⟩ := List.mem_map.mp hid
      have hmoved := mem_movedOps.mpr hop'
      obtain ⟨-, hsame⟩ := h.op_unique h.outer_mem h.outer_mem (movedOps_mem hmoved) hop heq
      exact hsame ▸ hmoved
    · exact fun hmoved => List.mem_map_of_mem (mem_movedOps.mp hmoved)
  have hyields : ∀ v ∈ outer.yields, definedBy
      (((movedIndices ir outer).filterMap (yieldedFrom outer)).map Op.id) v = true ↔
        v ∈ movedValues ir outer := by
    intro v hv
    obtain ⟨op, hop, hresult⟩ := List.mem_flatMap.mp (h.inScope.yields outer h.outer_mem v hv)
    obtain ⟨k, hk, rfl⟩ := mem_resultsOf.mp hresult
    rw [definedBy, decide_eq_true_iff, hbody op hop, movedValues, List.mem_flatMap]
    constructor
    · exact fun hmoved => ⟨op, hmoved, hresult⟩
    · rintro ⟨op', hmoved, hresult'⟩
      obtain ⟨k', -, heq⟩ := mem_resultsOf.mp hresult'
      obtain ⟨-, hsame⟩ := h.op_unique h.outer_mem h.outer_mem hop (movedOps_mem hmoved)
        (Value.result.inj heq).1
      exact hsame ▸ hmoved
  have hfilterBody : (outer.body.filter fun op =>
      op.id ∉ ((movedIndices ir outer).filterMap (yieldedFrom outer)).map Op.id) =
      outer.body.filter fun op => op ∉ movedOps ir outer :=
    List.filter_congr fun op hop => decide_eq_decide.mpr (not_congr (hbody op hop))
  have hfilterYields : (outer.yields.filter fun v => !definedBy
      (((movedIndices ir outer).filterMap (yieldedFrom outer)).map Op.id) v) =
      outer.yields.filter fun v => v ∉ movedValues ir outer := by
    apply List.filter_congr
    intro v hv
    rw [Bool.eq_iff_iff, Bool.not_eq_true', decide_eq_true_iff, ← hyields v hv,
      Bool.not_eq_true]
  rw [recreatePrivateOp, hfilterBody, hfilterYields]
  rfl

theorem length_keptPrivate :
    (keptPrivate ir outer).resultTypes.length = (keptIndices ir outer).length := by
  show ((keptIndices ir outer).filterMap fun idx => outer.resultTypes[idx]?).length = _
  rw [List.length_filterMap_eq_countP]
  apply List.countP_eq_length.mpr
  intro idx hidx
  have hlt := List.mem_range.mp (List.mem_filter.mp hidx).1
  rw [List.getElem?_eq_getElem hlt]
  rfl

/-- What is left of the outer private op reads no result of a private op. -/
theorem keptPrivate_uses {v : Value} (hv : v ∈ (keptPrivate ir outer).uses) :
    v ∈ outer.uses := by
  rcases List.mem_append.mp hv with hv | hv
  · obtain ⟨op, hop, hv⟩ := List.mem_flatMap.mp hv
    exact List.mem_append_left _ (List.mem_flatMap.mpr ⟨op, (List.mem_filter.mp hop).1, hv⟩)
  · exact List.mem_append_right _ (List.mem_filter.mp hv).1

theorem updateOuterPrivate_eq (h : ir.Valid outer) {ir' : IR}
    (houter : ir'.outer.privateOp = some outer) (hnext : ir'.next = ir.next + 1) :
    updateOuterPrivate outer.id (movedIndices ir outer) ir' =
      .ok ({ ir' with
        next := ir.next + 2
        outer := { ir'.outer with privateOp := some (keptPrivate ir outer) } }.mapValues
          (redirect (keptResults ir outer) (ir.next + 1) 0)) := by
  have hheld : getHeldPrivate outer.id ir' = .ok outer := by
    rw [getHeldPrivate, houter]
    exact if_pos rfl
  have hkept : ∀ i, Value.result (keptPrivate ir outer).id i ∉ keptResults ir outer := by
    intro i hi
    obtain ⟨idx, -, heq⟩ := List.mem_map.mp hi
    have hlt := h.lt_next _ (id_mem_names h.outer_mem)
    have hid : outer.id = ir.next + 1 := (Value.result.inj heq).1
    omega
  have hnodup : (keptResults ir outer).Nodup := nodup_map_result _ keptIndices_nodup
  have hlength : (keptResults ir outer).length = (keptIndices ir outer).length := List.length_map _
  refine Except.bind_eq_ok.mpr ⟨outer, hheld, ?_⟩
  refine Except.bind_eq_ok.mpr ⟨keptPrivate ir outer, ?_, ?_⟩
  · rw [hnext]
    exact recreate_outer h
  · rw [hnext]
    exact replaceResults_of_le (.inr (by rw [hlength, length_keptPrivate]; omega)) hnodup hkept _

theorem movePrivateResults_of_le (h : ir.Valid outer) (hp : ir.getPrivateOp p = some q)
    (hlen : (movedIndices ir outer).length ≤ (movedValues ir outer).length) :
    movePrivateResultsToInnerPipeline outer.id ir (movedInfo ir outer p) =
      .ok (movedIR ir outer q p) := by
  have hmem := getPrivateOp_mem hp
  have htarget : ir.getPrivateOp (movedInfo ir outer p).targetPipeline = some q := hp
  have hheld : getHeldPrivate outer.id ir = .ok outer := by
    rw [getHeldPrivate, h.outer_eq]
    exact if_pos rfl
  have hinner : moveToInnerPrivate (movedInfo ir outer p) ir =
      extendInnerPrivate (movedInfo ir outer p) q ir := by
    rw [moveToInnerPrivate, htarget]
  refine Except.bind_eq_ok.mpr ⟨outer, hheld, Except.bind_eq_ok.mpr
    ⟨_, hinner.trans (extendInnerPrivate_of_le h hmem hlen), ?_⟩⟩
  rw [IR.mapValues_mapValues]
  generalize hf : redirect q.results ir.next (movedIndices ir outer).length ∘
    redirect (movedResults ir outer) ir.next 0 = f
  have hfix : ∀ v ∈ outer.uses, f v = v := by
    intro v hv
    rw [← hf]
    show redirect _ _ _ (redirect (List.map _ _) _ _ v) = v
    rw [redirect_of_outer (h.outer_uses hv h.outer_mem)]
    exact redirect_of_private (h.outer_uses hv hmem) _ _
  have hfixKept : (keptPrivate ir outer).mapValues
      (redirect (keptResults ir outer) (ir.next + 1) 0) = keptPrivate ir outer :=
    PrivateOp.mapValues_eq_self fun v hv =>
      redirect_of_outer (h.outer_uses (keptPrivate_uses hv) h.outer_mem) _ _
  have hsub : redirect (keptResults ir outer) (ir.next + 1) 0 ∘ f = substitution ir outer q := by
    rw [← hf]
    rfl
  have houter : ((({ ir with next := ir.next + 1 } : IR).setPrivateOp p
      (movedPrivate ir outer q)).mapValues f).outer.privateOp = some outer := by
    show ir.outer.privateOp.map (PrivateOp.mapValues f) = some outer
    rw [h.outer_eq, Option.map_some, PrivateOp.mapValues_eq_self hfix]
  show updateOuterPrivate outer.id (movedIndices ir outer) _ = _
  rw [updateOuterPrivate_eq h houter rfl]
  show Except.ok (IR.mk (ir.next + 2)
    ⟨ir.outer.id, some ((keptPrivate ir outer).mapValues _), (ir.outer.ops.map _).map _⟩
    (((ir.inner.map _).map _).map _)) = _
  have hops : ∀ ops : List Op, (ops.map (Op.mapValues f)).map
      (Op.mapValues (redirect (keptResults ir outer) (ir.next + 1) 0)) =
      ops.map (Op.mapValues (substitution ir outer q)) := by
    intro ops
    rw [List.map_map, ← hsub]
    exact List.map_congr_left fun op _ => Op.mapValues_mapValues _ _ op
  rw [hfixKept, hops, List.map_map, List.map_map]
  congr 2
  apply List.map_congr_left
  intro pipeline _
  show ((if pipeline.id = p then _ else pipeline).mapValues f).mapValues _ = _
  rw [PipelineOp.mapValues_mapValues, hsub]
  split <;> rfl

/-! ### Runs that fail -/

theorem replaceResults_eq_ok {new : PrivateOp} {first : Nat} {oldResults : List Value} {ir ir' : IR}
    (hrun : replaceResults new first oldResults ir = .ok ir') : ∃ f, ir' = ir.mapValues f := by
  unfold replaceResults at hrun
  split at hrun
  · cases hrun
  · cases hrun
    generalize oldResults.zipIdx first = pairs
    induction pairs generalizing ir with
    | nil => exact ⟨fun v => v, ir.mapValues_id.symm⟩
    | cons pair pairs ih =>
        obtain ⟨f, hf⟩ := @ih (ir.replaceAllUsesWith pair.1 (.result new.id pair.2))
        exact ⟨_, hf.trans (IR.mapValues_mapValues _ f ir)⟩

/-- After a move the outer private op is another one. -/
theorem outer_of_move {held : Nat} {info : ScopeCorrectionInfo} {ir ir' : IR}
    (hrun : movePrivateResultsToInnerPipeline held ir info = .ok ir') :
    ∃ new, ir'.outer.privateOp = some new ∧ ir.next ≤ new.id := by
  obtain ⟨_, -, hrun⟩ := Except.bind_eq_ok.mp hrun
  obtain ⟨ir₁, hinner, hrun⟩ := Except.bind_eq_ok.mp hrun
  have hnext : ir.next ≤ ir₁.next := by
    unfold moveToInnerPrivate at hinner
    split at hinner
    · obtain ⟨new, -, hinner⟩ := Except.bind_eq_ok.mp hinner
      obtain ⟨ir₂, hfirst, hsecond⟩ := Except.bind_eq_ok.mp hinner
      obtain ⟨f, rfl⟩ := replaceResults_eq_ok hfirst
      obtain ⟨g, rfl⟩ := replaceResults_eq_ok hsecond
      exact Nat.le_succ _
    · obtain ⟨new, hnew, -⟩ := Except.bind_eq_ok.mp hinner
      cases hnew
  obtain ⟨outer, -, hrun⟩ := Except.bind_eq_ok.mp hrun
  obtain ⟨new, hnew, hrun⟩ := Except.bind_eq_ok.mp hrun
  obtain ⟨f, rfl⟩ := replaceResults_eq_ok hrun
  cases hnew
  exact ⟨_, rfl, hnext⟩

/-- Whoever moves results a second time reads the outer private op that the first erased. -/
theorem move_twice (h : ir.Valid outer) (info info' : ScopeCorrectionInfo)
    (infos : List ScopeCorrectionInfo) : ∃ e, (info :: info' :: infos).foldlM
      (movePrivateResultsToInnerPipeline outer.id) ir = .error e := by
  rw [List.foldlM_cons]
  cases hfirst : movePrivateResultsToInnerPipeline outer.id ir info with
  | error e => exact ⟨e, rfl⟩
  | ok ir₁ =>
      obtain ⟨new, hnew, hle⟩ := outer_of_move hfirst
      have hlt := h.lt_next _ (id_mem_names h.outer_mem)
      have hheld : getHeldPrivate outer.id ir₁ = .error .useAfterErase := by
        rw [getHeldPrivate, hnew]
        exact if_neg (by omega)
      refine ⟨.useAfterErase, ?_⟩
      show (info' :: infos).foldlM (movePrivateResultsToInnerPipeline outer.id) ir₁ = _
      rw [List.foldlM_cons, movePrivateResultsToInnerPipeline, hheld]
      rfl

/-- Moving to a pipeline ends well if it has a private op, and there are as many moved results as the
moved ops define, or fewer. -/
theorem movePrivateResults_eq_ok (h : ir.Valid outer) {ir' : IR} :
    movePrivateResultsToInnerPipeline outer.id ir (movedInfo ir outer p) = .ok ir' ↔
      ∃ q, ir.getPrivateOp p = some q ∧
        (movedIndices ir outer).length ≤ (movedValues ir outer).length ∧
        ir' = movedIR ir outer q p := by
  constructor
  · intro hrun
    have hrun' := hrun
    obtain ⟨_, -, hrun⟩ := Except.bind_eq_ok.mp hrun
    obtain ⟨ir₁, hinner, -⟩ := Except.bind_eq_ok.mp hrun
    unfold moveToInnerPrivate at hinner
    split at hinner
    · next q hq =>
        have hq : ir.getPrivateOp p = some q := hq
        have hlen : (movedIndices ir outer).length ≤ (movedValues ir outer).length := by
          by_contra hlt
          obtain ⟨e, he⟩ := @extendInnerPrivate_of_lt ir outer q p (by omega)
          rw [he] at hinner
          cases hinner
        refine ⟨q, hq, hlen, ?_⟩
        rw [movePrivateResults_of_le h hq hlen] at hrun'
        exact (Except.ok.inj hrun').symm
    · obtain ⟨new, hnew, -⟩ := Except.bind_eq_ok.mp hinner
      cases hnew
  · rintro ⟨q, hq, hlen, rfl⟩
    exact movePrivateResults_of_le h hq hlen

/-! ### Targets -/

theorem targetPipeline_eq_some {outer p : Nat} {target : Option Nat} {uses : List Nat} :
    targetPipeline outer target uses = some p ↔
      (target = some p ∨ (target = none ∧ uses ≠ [])) ∧ ∀ c ∈ uses, c = p ∧ c ≠ outer := by
  induction uses generalizing target with
  | nil => simp [targetPipeline]
  | cons c uses ih =>
      rw [targetPipeline]
      rw [List.forall_mem_cons]
      split
      · grind
      · split
        · rw [ih]
          grind
        · grind

theorem mem_getUses {v : Value} : p ∈ ir.getUses v ↔
    ∃ pipeline ∈ ir.pipelines, v ∈ pipeline.uses ∧ pipeline.id = p := by
  rw [IR.getUses, List.mem_flatMap]
  constructor
  · rintro ⟨pipeline, hpipeline, hmem⟩
    obtain ⟨u, hu, hp⟩ := List.mem_map.mp hmem
    obtain ⟨hu, heq⟩ := List.mem_filter.mp hu
    exact ⟨pipeline, hpipeline, of_decide_eq_true heq ▸ hu, hp⟩
  · rintro ⟨pipeline, hpipeline, hv, hp⟩
    exact ⟨pipeline, hpipeline, List.mem_map.mpr ⟨v, List.mem_filter.mpr ⟨hv, by simp⟩, hp⟩⟩

theorem getTarget_eq_some {idx : Nat} : getTarget ir outer idx = some p ↔
    outer.resultTypes[idx]? ≠ some .token ∧ p ∈ ir.getUses (.result outer.id idx) ∧
      p ≠ ir.outer.id ∧ ∀ p' ∈ ir.getUses (.result outer.id idx), p' = p := by
  unfold getTarget
  split
  · next htoken => simp [htoken]
  · next htoken =>
      rw [targetPipeline_eq_some]
      constructor
      · intro ⟨hfirst, hall⟩
        have hne := (hfirst.resolve_left nofun).2
        obtain ⟨c, hc⟩ := List.exists_mem_of_ne_nil _ hne
        obtain ⟨rfl, hout⟩ := hall c hc
        exact ⟨htoken, hc, hout, fun p' hp' => (hall p' hp').1⟩
      · rintro ⟨-, hmem, hne, hall⟩
        refine ⟨.inr ⟨rfl, List.ne_nil_of_mem hmem⟩, fun c hc => ?_⟩
        have heq := hall c hc
        exact ⟨heq, heq ▸ hne⟩

end

end ScopeCorrection

end DataflowScheduler
