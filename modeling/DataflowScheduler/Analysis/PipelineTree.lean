import Mathlib.Logic.Function.Basic
import Mathlib.Data.List.Nodup
import Mathlib.Data.List.ReduceOption
import Mathlib.Data.List.Perm.Subperm

/-!
# The stages of a pipeline

The part of `PipelineTree` that holds one pipeline: its stage nodes in order, and for each the
stages that depend on it. Nodes are pointers in the source; here a `StageRef` is the identity of a
node, and a pipeline keeps that its nodes are allocated, and linked in once each.
-/

namespace DataflowScheduler

/-- A `StageNode*`. -/
abbrev StageRef := Nat

/-- The stages that depend on each stage, one entry a token. -/
abbrev Dependencies := StageRef → List StageRef

/-! ## Dependencies of a stage -/

namespace StageNode

/-- `StageNode::nullifyDependency`: the first occurrence of the target becomes null. -/
def nullifyDependency (target : StageRef) : List StageRef → List (Option StageRef)
  | [] => []
  | dep :: deps =>
      if dep = target then none :: deps.map some else some dep :: nullifyDependency target deps

/-- `StageNode::removeNullifiedDependencies`. -/
def removeNullifiedDependencies (deps : List (Option StageRef)) : List StageRef :=
  deps.reduceOption

/-- Nullifying a dependency and removing what is null erases one occurrence. -/
theorem removeNullified_nullify (target : StageRef) (deps : List StageRef) :
    removeNullifiedDependencies (nullifyDependency target deps) = deps.erase target := by
  have hall : ∀ deps : List StageRef, (deps.map some).reduceOption = deps := by
    intro deps
    rw [List.reduceOption, List.filterMap_map]
    exact List.filterMap_some
  induction deps with
  | nil => rfl
  | cons dep deps ih =>
      rw [nullifyDependency]
      by_cases h : dep = target
      · subst h
        rw [if_pos rfl, List.erase_cons_head]
        exact hall deps
      · rw [if_neg h, List.erase_cons_tail (by simpa using h), ← ih]
        rfl

end StageNode

/-- One pipeline of the tree. `Operation` is what a stage was built from; a stage that planning
adds has none. -/
structure Pipeline (Operation : Type) where
  /-- The stage nodes, in pipeline order. -/
  stages : List StageRef
  operation : StageRef → Option Operation
  stageId : StageRef → Nat
  dependencies : Dependencies
  /-- The node that is allocated next. -/
  nextRef : StageRef
  nodup_stages : stages.Nodup
  lt_nextRef : ∀ s ∈ stages, s < nextRef

/-! ## Topological order -/

/-- Number of entries for each stage in the dependencies of the given ones. -/
def inDegrees (dependencies : Dependencies) (stages : List StageRef) : StageRef → Nat :=
  fun s => (stages.flatMap dependencies).count s

/-- Take one token away from a dependent, and queue it with its last one. The counter is an `int`
that may go below zero, and only reaching zero queues. -/
def reduceInDegree (state : (StageRef → Int) × List StageRef) (dependent : StageRef) :
    (StageRef → Int) × List StageRef :=
  let inDegree := Function.update state.1 dependent (state.1 dependent - 1)
  (inDegree, if inDegree dependent = 0 then state.2 ++ [dependent] else state.2)

/-- The loop of `topologicalSortStages`. More rounds than there are stages mean failure, so fuel for
one more than that decides the outcome. -/
def sortLoop (dependencies : Dependencies) : Nat → (StageRef → Int) → List StageRef →
    List StageRef
  | 0, _, _ => []
  | _ + 1, _, [] => []
  | fuel + 1, inDegree, current :: worklist =>
      let (inDegree, worklist) := (dependencies current).foldl reduceInDegree (inDegree, worklist)
      current :: sortLoop dependencies fuel inDegree worklist

/-- `PipelineTree::topologicalSortStages`. `none` is a cycle. -/
def topologicalSortStages (dependencies : Dependencies) (stages : List StageRef) :
    Option (List StageRef) :=
  let inDegree : StageRef → Int := fun s => inDegrees dependencies stages s
  let worklist := stages.filter fun s => inDegree s = 0
  let sorted := sortLoop dependencies (stages.length + 1) inDegree worklist
  if sorted.length = stages.length then some sorted else none

/-! ### Every stage is sorted in -/

/-- What the sort keeps: nodes that have been queued are distinct stages whose tokens are all taken,
so none is queued again. -/
structure Queued (stages : List StageRef) (inDegree : StageRef → Int) (queued : List StageRef) :
    Prop where
  nodup : queued.Nodup
  le_zero : ∀ s ∈ queued, inDegree s ≤ 0
  mem_stages : ∀ s ∈ queued, s ∈ stages

theorem Queued.reduceInDegree {stages : List StageRef} {sorted : List StageRef}
    {state : (StageRef → Int) × List StageRef} (h : Queued stages state.1 (sorted ++ state.2))
    {dependent : StageRef} (hmem : dependent ∈ stages) :
    Queued stages (reduceInDegree state dependent).1
      (sorted ++ (reduceInDegree state dependent).2) := by
  unfold DataflowScheduler.reduceInDegree
  have hle : ∀ s, Function.update state.1 dependent (state.1 dependent - 1) s ≤ state.1 s := by
    intro s
    rw [Function.update_apply]
    split
    · next heq =>
        rw [heq]
        omega
    · exact Int.le_refl _
  dsimp only
  by_cases hzero : Function.update state.1 dependent (state.1 dependent - 1) dependent = 0
  · rw [if_pos hzero]
    rw [Function.update_self] at hzero
    -- The dependent still had a token, so it has not been queued.
    have hnew : dependent ∉ sorted ++ state.2 := by
      intro hin
      have := h.le_zero dependent hin
      omega
    have hperm : (sorted ++ (state.2 ++ [dependent])).Perm (dependent :: (sorted ++ state.2)) := by
      rw [← List.append_assoc]
      exact List.perm_append_singleton ..
    refine ⟨(hperm.nodup_iff).mpr (List.nodup_cons.mpr ⟨hnew, h.nodup⟩), ?_, ?_⟩
    · intro s hs
      rcases List.mem_cons.mp (hperm.mem_iff.mp hs) with rfl | hs
      · rw [Function.update_self]
        omega
      · exact Int.le_trans (hle s) (h.le_zero s hs)
    · intro s hs
      rcases List.mem_cons.mp (hperm.mem_iff.mp hs) with rfl | hs
      · exact hmem
      · exact h.mem_stages s hs
  · rw [if_neg hzero]
    exact ⟨h.nodup, fun s hs => Int.le_trans (hle s) (h.le_zero s hs), h.mem_stages⟩

theorem Queued.foldl_reduceInDegree {stages sorted deps : List StageRef}
    {state : (StageRef → Int) × List StageRef} (h : Queued stages state.1 (sorted ++ state.2))
    (hmem : ∀ s ∈ deps, s ∈ stages) :
    Queued stages (deps.foldl DataflowScheduler.reduceInDegree state).1
      (sorted ++ (deps.foldl DataflowScheduler.reduceInDegree state).2) := by
  induction deps generalizing state with
  | nil => exact h
  | cons dep deps ih =>
      exact ih (h.reduceInDegree (hmem dep List.mem_cons_self))
        fun s hs => hmem s (List.mem_cons_of_mem _ hs)

/-- The dependents of a pipeline's stages are its stages. -/
def ClosedUnder (dependencies : Dependencies) (stages : List StageRef) : Prop :=
  ∀ s ∈ stages, ∀ t ∈ dependencies s, t ∈ stages

instance (dependencies : Dependencies) (stages : List StageRef) :
    Decidable (ClosedUnder dependencies stages) :=
  inferInstanceAs (Decidable (∀ s ∈ stages, ∀ t ∈ dependencies s, t ∈ stages))

theorem sortLoop_queued {dependencies : Dependencies} {stages sorted : List StageRef}
    (hclosed : ClosedUnder dependencies stages) {fuel : Nat} {inDegree : StageRef → Int}
    {worklist : List StageRef} (h : Queued stages inDegree (sorted ++ worklist)) :
    (sorted ++ sortLoop dependencies fuel inDegree worklist).Nodup ∧
      ∀ s ∈ sorted ++ sortLoop dependencies fuel inDegree worklist, s ∈ stages := by
  have hsub : (sorted ++ ([] : List StageRef)).Sublist (sorted ++ worklist) :=
    (List.Sublist.refl sorted).append (List.nil_sublist worklist)
  induction fuel generalizing inDegree sorted worklist with
  | zero => exact ⟨h.nodup.sublist hsub, fun s hs => h.mem_stages s (hsub.subset hs)⟩
  | succ fuel ih =>
      cases worklist with
      | nil => exact ⟨h.nodup, h.mem_stages⟩
      | cons current worklist =>
          rw [sortLoop]
          have hcurrent : current ∈ stages := h.mem_stages current (by simp)
          rw [List.append_cons] at h
          have hnext := @Queued.foldl_reduceInDegree _ _ _ (inDegree, worklist) h
            (hclosed current hcurrent)
          have := ih hnext ((List.Sublist.refl _).append (List.nil_sublist _))
          rw [← List.append_cons] at this
          exact this

/-- A sort that succeeds puts every stage in exactly once. -/
theorem topologicalSortStages_perm {dependencies : Dependencies} {stages sorted : List StageRef}
    (hnd : stages.Nodup) (hclosed : ClosedUnder dependencies stages)
    (h : topologicalSortStages dependencies stages = some sorted) : sorted.Perm stages := by
  unfold topologicalSortStages at h
  dsimp only at h
  split at h
  · next hlen =>
      cases h
      have hstart : Queued stages (fun s => (inDegrees dependencies stages s : Int))
          ([] ++ stages.filter fun s => decide ((inDegrees dependencies stages s : Int) = 0)) := by
        refine ⟨hnd.filter _, fun s hs => ?_, fun s hs => List.mem_of_mem_filter hs⟩
        have := (List.mem_filter.mp hs).2
        rw [decide_eq_true_eq] at this
        exact Int.le_of_eq this
      obtain ⟨hnodup, hmem⟩ := sortLoop_queued hclosed hstart
      exact (hnodup.subperm hmem).perm_of_length_le (Nat.le_of_eq hlen.symm)
  · cases h

end DataflowScheduler
