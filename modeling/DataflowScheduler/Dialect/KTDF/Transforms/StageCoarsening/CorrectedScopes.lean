import DataflowScheduler.Dialect.KTDF.Transforms.StageCoarsening.ScopeCorrection
import Mathlib.Data.List.Forall2
import Mathlib.Data.List.Dedup
import Mathlib.Data.List.Induction
import Mathlib.Tactic.Common

/-!
# Corrected scopes

When `ScopeCorrection` leaves every use of a private result with what it stood for.
-/

namespace DataflowScheduler

namespace ScopeCorrection

/-! ## Ops in scope -/

def Value.IsOutside : Value → Prop
  | .outside _ => True
  | .result .. => False

instance : DecidablePred Value.IsOutside
  | .outside _ => .isTrue trivial
  | .result .. => .isFalse id

/-- Every op reads results of ops before it, or what is visible. -/
def BodyInScope (visible : Value → Prop) : List Value → List Op → Prop
  | _, [] => True
  | scope, op :: ops =>
      (∀ v ∈ op.operands, v ∈ scope ∨ visible v) ∧ BodyInScope visible (scope ++ op.results) ops

instance decidableBodyInScope (visible : Value → Prop) [DecidablePred visible] :
    (scope : List Value) → (ops : List Op) → Decidable (BodyInScope visible scope ops)
  | _, [] => .isTrue trivial
  | scope, op :: ops =>
      have := decidableBodyInScope visible (scope ++ op.results) ops
      inferInstanceAs (Decidable ((∀ v ∈ op.operands, v ∈ scope ∨ visible v) ∧ _))

namespace IR

/-- What is visible in all pipelines, as far as it exists: results of `ktdf.private` ops, and what
stands outside. -/
def Visible (ir : IR) (v : Value) : Prop := v.IsOutside ∨ ∃ q ∈ ir.privateOps, v ∈ q.results

instance (ir : IR) : DecidablePred ir.Visible := fun v =>
  inferInstanceAs (Decidable (v.IsOutside ∨ ∃ q ∈ ir.privateOps, v ∈ q.results))

/-- Everything that is read exists. A `ktdf.private` yields results of its ops. -/
structure InScope (ir : IR) : Prop where
  bodies : ∀ q ∈ ir.privateOps, BodyInScope ir.Visible [] q.body
  yields : ∀ q ∈ ir.privateOps, ∀ v ∈ q.yields, v ∈ q.body.flatMap Op.results
  users : ∀ p ∈ ir.pipelines, ∀ op ∈ p.ops, ∀ v ∈ op.operands, ir.Visible v

/-- The names of the `ktdf.private` ops, and of the ops in them. -/
def names (ir : IR) : List Nat := ir.privateOps.flatMap fun q => q.id :: q.body.map Op.id

/-- What holds of verified IR whose outer pipeline has a private op. -/
structure Valid (ir : IR) (outer : PrivateOp) : Prop where
  outer_eq : ir.outer.privateOp = some outer
  inScope : ir.InScope
  reads : BodyInScope Value.IsOutside [] outer.body
  pipelines : (ir.pipelines.map PipelineOp.id).Nodup
  names : ir.names.Nodup
  lt_next : ∀ id ∈ ir.names, id < ir.next
  yields_length : ∀ q ∈ ir.privateOps, q.yields.length = q.resultTypes.length

end IR

/-! ## What is to hold -/

/-- What is to hold of corrected IR, where `f` gives the value that is read instead of a value. -/
structure Corrected (ir ir' : IR) (outer : PrivateOp) (f : Value → Value) : Prop where
  /-- The ops of all pipelines are those that were there, and read other values. -/
  outerOps : ir'.outer.ops = ir.outer.ops.map (Op.mapValues f)
  innerOps : List.Forall₂ (fun p p' => p'.id = p.id ∧ p'.ops = p.ops.map (Op.mapValues f) ∧
    ∀ q, p.privateOp = some q → ∃ q', p'.privateOp = some q' ∧
      (∀ op ∈ q.body, op.mapValues f ∈ q'.body) ∧ ∀ v ∈ q.yields, v ∈ q'.yields)
    ir.inner ir'.inner
  /-- Private ops contain clones of their ops only. -/
  clones : ∀ q' ∈ ir'.privateOps, ∀ op' ∈ q'.body, ∃ q ∈ ir.privateOps, ∃ op ∈ q.body,
    op' = op.mapValues f
  /-- A use of an outer result refers to a result of the pipeline that it is in, or of the outer one,
  that yields the same result of a clone of the same op. -/
  outerResults : ∀ idx v p, outer.yields[idx]? = some v → p ∈ ir.getUses (.result outer.id idx) →
    ∃ q' k', f (.result outer.id idx) = .result q'.id k' ∧ q'.yields[k']? = some v ∧
      (ir'.getPrivateOp p = some q' ∨ ir'.getPrivateOp ir.outer.id = some q')
  /-- A result that is used in one inner pipeline only, and is no token, is yielded there. -/
  movedResults : ∀ idx v p, outer.yields[idx]? = some v →
    outer.resultTypes[idx]? ≠ some .token → p ≠ ir.outer.id →
    p ∈ ir.getUses (.result outer.id idx) → (∀ p' ∈ ir.getUses (.result outer.id idx), p' = p) →
    ∃ q' k', f (.result outer.id idx) = .result q'.id k' ∧ q'.yields[k']? = some v ∧
      ir'.getPrivateOp p = some q'
  /-- The results of inner private ops keep their meaning. -/
  innerResults : ∀ p ∈ ir.inner, ∀ q, p.privateOp = some q → ∀ k v, q.yields[k]? = some v →
    ir.getUses (.result q.id k) ≠ [] → ∃ q' k', f (.result q.id k) = .result q'.id k' ∧
      q'.yields[k']? = some v ∧ ir'.getPrivateOp p.id = some q'
  /-- No use refers to an erased op, and every result of a private op is yielded. -/
  inScope : ir'.InScope
  yields_length : ∀ q' ∈ ir'.privateOps, q'.yields.length = q'.resultTypes.length

/-! ## When it holds -/

section

variable (ir : IR) (outer : PrivateOp)

/-- The results that are used in one inner pipeline only. -/
def movedIndices : List Nat :=
  (List.range outer.resultTypes.length).filter fun idx => (getTarget ir outer idx).isSome

/-- The op that a result is yielded from. -/
def yieldedFrom (idx : Nat) : Option Op := outer.yields[idx]?.bind (getDefiningOp outer.body)

/-- The ops that these are yielded from, in this order. -/
def movedOps : List Op :=
  ((movedIndices ir outer).filterMap (yieldedFrom outer)).reverse.dedup.reverse

/-- All that the moved ops define. -/
def movedValues : List Value := (movedOps ir outer).flatMap Op.results

/-- The results of one inner pipeline, which has a private op, are moved in the order in which their
ops define them, and nothing else needs these ops. -/
structure Movable : Prop where
  oneTarget : ∀ idx idx' p p', getTarget ir outer idx = some p →
    getTarget ir outer idx' = some p' → p = p'
  privateOp : ∀ idx p, getTarget ir outer idx = some p → (ir.getPrivateOp p).isSome
  inOrder : (movedIndices ir outer).filterMap (fun idx => outer.yields[idx]?) <+:
    movedValues ir outer
  /-- All that the ops define is moved, or no inner result shows that it is not. -/
  innerResults : ∀ idx p q, getTarget ir outer idx = some p → ir.getPrivateOp p = some q →
    ∀ k < q.resultTypes.length, ir.getUses (.result q.id k) ≠ [] →
      (movedValues ir outer).length - (movedIndices ir outer).length ≤ k ∧
      q.yields[k - ((movedValues ir outer).length - (movedIndices ir outer).length)]? = q.yields[k]?
  kept : ∀ idx v, idx ∉ movedIndices ir outer → outer.yields[idx]? = some v →
    v ∉ movedValues ir outer
  staying : ∀ op ∈ outer.body, op ∉ movedOps ir outer → ∀ v ∈ op.operands,
    v ∉ movedValues ir outer
  moving : BodyInScope Value.IsOutside [] (movedOps ir outer)

end

/-! ## Replacing results -/

/-- The results of an op from one index on, instead of some values. -/
def redirect (oldResults : List Value) (id first : Nat) (v : Value) : Value :=
  if v ∈ oldResults then .result id (first + oldResults.idxOf v) else v

theorem redirect_of_notMem {oldResults : List Value} {v : Value} (h : v ∉ oldResults)
    (id first : Nat) : redirect oldResults id first v = v := if_neg h

theorem redirect_getElem {oldResults : List Value} (hnodup : oldResults.Nodup) {i : Nat} {v : Value}
    (h : oldResults[i]? = some v) (id first : Nat) :
    redirect oldResults id first v = .result id (first + i) := by
  obtain ⟨hlt, rfl⟩ := List.getElem?_eq_some_iff.mp h
  rw [redirect, if_pos (List.getElem_mem hlt), hnodup.idxOf_getElem]

theorem Op.mapValues_mapValues (f g : Value → Value) (op : Op) :
    (op.mapValues f).mapValues g = op.mapValues (g ∘ f) := by
  simp [Op.mapValues]

theorem PrivateOp.mapValues_mapValues (f g : Value → Value) (q : PrivateOp) :
    (q.mapValues f).mapValues g = q.mapValues (g ∘ f) := by
  simp [PrivateOp.mapValues, Op.mapValues_mapValues, Function.comp_def]

theorem PipelineOp.mapValues_mapValues (f g : Value → Value) (p : PipelineOp) :
    (p.mapValues f).mapValues g = p.mapValues (g ∘ f) := by
  simp [PipelineOp.mapValues, Op.mapValues_mapValues, PrivateOp.mapValues_mapValues,
    Function.comp_def]

theorem IR.mapValues_mapValues (f g : Value → Value) (ir : IR) :
    (ir.mapValues f).mapValues g = ir.mapValues (g ∘ f) := by
  simp [IR.mapValues, PipelineOp.mapValues_mapValues, Function.comp_def]

/-! What reads only values that stay is unchanged. -/

theorem map_eq_self {α : Type} {f : α → α} {l : List α} (h : ∀ a ∈ l, f a = a) : l.map f = l :=
  (List.map_congr_left h).trans (List.map_id _)

theorem Op.mapValues_eq_self {f : Value → Value} {op : Op} (h : ∀ v ∈ op.operands, f v = v) :
    op.mapValues f = op := by
  rw [Op.mapValues, map_eq_self h]

theorem PrivateOp.mapValues_eq_self {f : Value → Value} {q : PrivateOp}
    (h : ∀ v ∈ q.uses, f v = v) : q.mapValues f = q := by
  have hbody : ∀ op ∈ q.body, op.mapValues f = op := fun op hop =>
    Op.mapValues_eq_self fun v hv =>
      h v (List.mem_append_left _ (List.mem_flatMap.mpr ⟨op, hop, hv⟩))
  rw [PrivateOp.mapValues, map_eq_self hbody,
    map_eq_self fun v hv => h v (List.mem_append_right _ hv)]

theorem PipelineOp.mapValues_eq_self {f : Value → Value} {p : PipelineOp}
    (h : ∀ v ∈ p.uses, f v = v) : p.mapValues f = p := by
  have hops : ∀ op ∈ p.ops, op.mapValues f = op := fun op hop =>
    Op.mapValues_eq_self fun v hv =>
      h v (List.mem_append_left _ (List.mem_flatMap.mpr ⟨op, hop, hv⟩))
  have hprivate : p.privateOp.map (PrivateOp.mapValues f) = p.privateOp := by
    cases hq : p.privateOp with
    | none => rfl
    | some q =>
        have huses : ∀ v ∈ q.uses, f v = v := fun v hv => h v (List.mem_append_right _ (by
          rw [hq]
          exact hv))
        rw [Option.map_some, PrivateOp.mapValues_eq_self huses]
  rw [PipelineOp.mapValues, map_eq_self hops, hprivate]

theorem IR.mapValues_id (ir : IR) : ir.mapValues (fun v => v) = ir := by
  have hpipeline : ∀ p : PipelineOp, p.mapValues (fun v => v) = p := fun p =>
    PipelineOp.mapValues_eq_self fun _ _ => rfl
  rw [IR.mapValues, hpipeline, map_eq_self fun p _ => hpipeline p]

/-- Replacing one value after the other is replacing them at once. -/
theorem foldl_replaceAllUsesWith {id : Nat} {oldResults : List Value} (hnodup : oldResults.Nodup)
    (hnew : ∀ i, Value.result id i ∉ oldResults) (first : Nat) (ir : IR) :
    (oldResults.zipIdx first).foldl
        (fun ir old => ir.replaceAllUsesWith old.1 (.result id old.2)) ir =
      ir.mapValues (redirect oldResults id first) := by
  induction oldResults generalizing first ir with
  | nil =>
      have hid : redirect [] id first = fun v => v := funext fun v => if_neg List.not_mem_nil
      rw [hid, IR.mapValues_id]
      rfl
  | cons old oldResults ih =>
      obtain ⟨hnotMem, hnodup⟩ := List.nodup_cons.mp hnodup
      have hrest : ∀ i, Value.result id i ∉ oldResults := fun i hmem =>
        hnew i (List.mem_cons_of_mem _ hmem)
      rw [List.zipIdx_cons, List.foldl_cons, ih hnodup hrest, IR.replaceAllUsesWith,
        IR.mapValues_mapValues]
      congr 1
      funext v
      show redirect oldResults id (first + 1) (if v = old then .result id first else v) = _
      by_cases hv : v = old
      · rw [if_pos hv, redirect_of_notMem (hrest first), redirect, if_pos (hv ▸ List.mem_cons_self),
          hv, List.idxOf_cons_self, Nat.add_zero]
      · rw [if_neg hv, redirect, redirect]
        by_cases hmem : v ∈ oldResults
        · rw [if_pos hmem, if_pos (List.mem_cons_of_mem _ hmem),
            List.idxOf_cons_ne _ (fun h => hv h.symm)]
          congr 1
          omega
        · rw [if_neg hmem, if_neg (by simp [hv, hmem])]

/-! ## The infos -/

section

variable {ir : IR} {outer : PrivateOp}

/-- Adding a result adds its pipeline, unless that is there. -/
theorem mem_targets_addResult {id idx target : Nat} {ops : List Op}
    {infos : List ScopeCorrectionInfo} {p : Nat} :
    p ∈ (addResult id idx target ops infos).map ScopeCorrectionInfo.targetPipeline ↔
      p = target ∨ p ∈ infos.map ScopeCorrectionInfo.targetPipeline := by
  induction infos with
  | nil => simp [addResult]
  | cons info infos ih =>
      rw [addResult]
      split
      · next heq =>
          show p ∈ info.targetPipeline :: _ ↔ p = target ∨ p ∈ info.targetPipeline :: _
          rw [List.mem_cons, heq]
          tauto
      · rw [List.map_cons, List.map_cons, List.mem_cons, List.mem_cons, ih]
        tauto

/-- The pipelines of the infos are those that results go to. -/
theorem mem_targets_analyze {l : List Nat} {p : Nat} :
    p ∈ (l.foldl (analyzeResult ir outer) ([], [])).2.map ScopeCorrectionInfo.targetPipeline ↔
      ∃ idx ∈ l, getTarget ir outer idx = some p := by
  induction l using List.reverseRecOn with
  | nil => simp
  | append_singleton l idx ih =>
      rw [List.foldl_append, List.foldl_cons, List.foldl_nil, analyzeResult]
      cases htarget : getTarget ir outer idx with
      | none =>
          show p ∈ List.map _ (l.foldl (analyzeResult ir outer) ([], [])).2 ↔ _
          rw [ih]
          grind
      | some target =>
          show p ∈ List.map _ (addResult _ _ _ _ _) ↔ _
          rw [mem_targets_addResult, ih]
          grind

/-- Keeping first occurrences: another element is new, or is not kept. -/
theorem dedup_append {α : Type} [DecidableEq α] (l : List α) (o : Option α) :
    (l ++ o.toList).reverse.dedup.reverse =
      l.reverse.dedup.reverse ++ o.toList.filter fun a => a ∉ l := by
  cases o with
  | none => simp
  | some a =>
      show (l ++ [a]).reverse.dedup.reverse = _ ++ [a].filter _
      rw [List.reverse_append, List.reverse_singleton, List.singleton_append]
      by_cases h : a ∈ l
      · rw [List.dedup_cons_of_mem (List.mem_reverse.mpr h)]
        simp [h]
      · rw [List.dedup_cons_of_notMem (fun hmem => h (List.mem_reverse.mp hmem)),
          List.reverse_cons]
        simp [h]

theorem yieldedFrom_mem {idx : Nat} {op : Op} (h : yieldedFrom outer idx = some op) :
    op ∈ outer.body := by
  obtain ⟨v, -, hop⟩ := Option.bind_eq_some_iff.mp h
  cases v with
  | outside n => cases hop
  | result id k => exact List.mem_of_find?_eq_some hop

/-- An op is visited if it is one of those that are moved. -/
theorem id_mem_map_dedup (hnames : (outer.body.map Op.id).Nodup) {indices : List Nat} {idx : Nat}
    {op : Op} (hop : yieldedFrom outer idx = some op) :
    op.id ∈ (indices.filterMap (yieldedFrom outer)).reverse.dedup.reverse.map Op.id ↔
      op ∈ indices.filterMap (yieldedFrom outer) := by
  have hmem : ∀ op', op' ∈ (indices.filterMap (yieldedFrom outer)).reverse.dedup.reverse ↔
      op' ∈ indices.filterMap (yieldedFrom outer) := fun op' => by
    rw [List.mem_reverse, List.mem_dedup, List.mem_reverse]
  constructor
  · intro hid
    obtain ⟨op', hop', heq⟩ := List.mem_map.mp hid
    obtain ⟨idx', -, hfrom⟩ := List.mem_filterMap.mp ((hmem op').mp hop')
    have hsame := List.inj_on_of_nodup_map hnames (yieldedFrom_mem hfrom) (yieldedFrom_mem hop) heq
    exact hsame ▸ (hmem op').mp hop'
  · exact fun hop' => List.mem_map_of_mem ((hmem op).mpr hop')

/-- If all results that are moved go to one pipeline, there is one info about all of them. -/
theorem analyze_of_oneTarget (hnames : (outer.body.map Op.id).Nodup) {p : Nat} {l : List Nat}
    (hone : ∀ idx ∈ l, ∀ p', getTarget ir outer idx = some p' → p' = p) :
    l.foldl (analyzeResult ir outer) ([], []) =
      let indices := l.filter fun idx => (getTarget ir outer idx).isSome
      let ops := (indices.filterMap (yieldedFrom outer)).reverse.dedup.reverse
      (ops.map Op.id, if indices = [] then [] else
        [⟨p, indices, ops, indices.map (.result outer.id)⟩]) := by
  induction l using List.reverseRecOn with
  | nil => rfl
  | append_singleton l idx ih =>
      have ih := ih fun idx hidx => hone idx (List.mem_append_left _ hidx)
      rw [List.foldl_append, List.foldl_cons, List.foldl_nil, ih, analyzeResult]
      cases htarget : getTarget ir outer idx with
      | none => simp [List.filter_append, htarget]
      | some target =>
          have hp : target = p := hone idx (by simp) target htarget
          generalize hindices : (l.filter fun idx => (getTarget ir outer idx).isSome) = indices
          have hfilter : ((l ++ [idx]).filter fun idx => (getTarget ir outer idx).isSome) =
              indices ++ [idx] := by
            rw [List.filter_append, hindices, List.filter_cons_of_pos (by rw [htarget]; rfl)]
            rfl
          -- the ops that are new to the visited ones are those that the info does not list
          have hops : ((yieldedFrom outer idx).filter fun op => op.id ∉
              (indices.filterMap (yieldedFrom outer)).reverse.dedup.reverse.map Op.id).toList =
              (yieldedFrom outer idx).toList.filter fun op =>
                op ∉ indices.filterMap (yieldedFrom outer) := by
            rw [Option.toList_filter]
            apply List.filter_congr
            intro op hop
            exact decide_eq_decide.mpr
              (not_congr (id_mem_map_dedup hnames (Option.mem_toList.mp hop)))
          have hconcat : ((indices ++ [idx]).filterMap (yieldedFrom outer)).reverse.dedup.reverse =
              (indices.filterMap (yieldedFrom outer)).reverse.dedup.reverse ++
                (yieldedFrom outer idx).toList.filter fun op =>
                  op ∉ indices.filterMap (yieldedFrom outer) := by
            rw [List.filterMap_append, ← dedup_append]
            congr 4
          show (_ ++ List.map Op.id ((yieldedFrom outer idx).filter _).toList,
            addResult _ _ _ ((yieldedFrom outer idx).filter _).toList _) = (_, _)
          simp only [hfilter, hops, hconcat, List.map_append, hp]
          rw [if_neg (List.append_ne_nil_of_right_ne_nil _ (List.cons_ne_nil _ _))]
          by_cases hnil : indices = []
          · rw [if_pos hnil, hnil]
            rfl
          · rw [if_neg hnil, addResult, if_pos rfl]
            rfl

end

end ScopeCorrection

end DataflowScheduler
