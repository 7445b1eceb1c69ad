import DataflowScheduler.Analysis.PipelineTree
import DataflowScheduler.Util.TopologicalOrder

/-!
# Sorting the stages of a pipeline
-/

namespace DataflowScheduler

namespace PipelineTree

/-- `PipelineTree::identifySourceStages`. -/
def identifySourceStages (dependencies : Dependencies) (stages : List StageRef) : List StageRef :=
  let hasIncoming := stages.flatMap dependencies
  stages.filter fun stage => stage ∉ hasIncoming

/-- The second stage depends on the first. -/
def Feeds (dependencies : Dependencies) (stages : List StageRef) (s t : StageRef) : Prop :=
  s ∈ stages ∧ t ∈ dependencies s

variable {dependencies : Dependencies} {stages sorted left : List StageRef}

/-! ## Counting edges -/

/-- No edges are left to what only comes after sorted stages. -/
theorem inDegrees_eq_zero_iff {t : StageRef} :
    inDegrees dependencies (stages.filter (· ∉ sorted)) t = 0 ↔
      ∀ s, Feeds dependencies stages s t → s ∈ sorted := by
  rw [inDegrees, List.count_eq_zero]
  constructor
  · intro h s hs
    by_contra hnew
    refine h (List.mem_flatMap.mpr ⟨s, ?_, hs.2⟩)
    exact List.mem_filter.mpr ⟨hs.1, decide_eq_true hnew⟩
  · intro h hmem
    obtain ⟨s, hs, ht⟩ := List.mem_flatMap.mp hmem
    obtain ⟨hs, hnew⟩ := List.mem_filter.mp hs
    exact of_decide_eq_true hnew (h s ⟨hs, ht⟩)

/-- Sorting a stage takes its own edges away. -/
theorem inDegrees_filter_concat (hnd : stages.Nodup) {current : StageRef}
    (hcurrent : current ∈ stages) (hnew : current ∉ sorted) (t : StageRef) :
    inDegrees dependencies (stages.filter (· ∉ sorted)) t =
      inDegrees dependencies (stages.filter (· ∉ sorted ++ [current])) t +
        (dependencies current).count t := by
  have hmem : current ∈ stages.filter (· ∉ sorted) :=
    List.mem_filter.mpr ⟨hcurrent, decide_eq_true hnew⟩
  have herase : (stages.filter (· ∉ sorted)).erase current =
      stages.filter (· ∉ sorted ++ [current]) := by
    rw [(hnd.filter _).erase_eq_filter, List.filter_filter]
    apply List.filter_congr
    intro s _
    by_cases hs : s = current <;> simp [hs]
  have hperm := (List.perm_cons_erase hmem).flatMap_right dependencies
  rw [inDegrees, inDegrees, hperm.count_eq, List.flatMap_cons, List.count_append, herase]
  exact Nat.add_comm ..

/-! ## The loop -/

/-- What the sort keeps while the tokens `left` of the last sorted stage are still to be taken: the
counters count the edges from what is not sorted, and what has none is queued. -/
structure Sorting (dependencies : Dependencies) (stages sorted left : List StageRef)
    (state : (StageRef → Int) × List StageRef) : Prop where
  queued : Queued stages state.1 (sorted ++ state.2)
  inDegree : ∀ s, state.1 s =
    (inDegrees dependencies (stages.filter (· ∉ sorted)) s + left.count s : Nat)
  mem_of_zero : ∀ s ∈ stages, state.1 s = 0 → s ∈ sorted ++ state.2
  ordered : PredecessorsFirst (Feeds dependencies stages) sorted

namespace Sorting

variable {state : (StageRef → Int) × List StageRef}

/-- One token is taken. -/
theorem reduceInDegree {dependent : StageRef}
    (h : Sorting dependencies stages sorted (dependent :: left) state)
    (hmem : dependent ∈ stages) :
    Sorting dependencies stages sorted left (DataflowScheduler.reduceInDegree state dependent) where
  queued := h.queued.reduceInDegree hmem
  inDegree := by
    intro s
    show Function.update state.1 dependent (state.1 dependent - 1) s = _
    rw [Function.update_apply]
    by_cases hs : s = dependent
    · subst hs
      rw [if_pos rfl, h.inDegree, List.count_cons_self]
      omega
    · rw [if_neg hs, h.inDegree, List.count_cons_of_ne (fun heq => hs heq.symm)]
  mem_of_zero := by
    intro s hs hzero
    unfold DataflowScheduler.reduceInDegree at hzero ⊢
    dsimp only at hzero ⊢
    by_cases hsd : s = dependent
    · subst hsd
      rw [if_pos hzero]
      simp
    · rw [Function.update_of_ne hsd] at hzero
      have := h.mem_of_zero s hs hzero
      split
      · rw [← List.append_assoc]
        exact List.mem_append_left _ this
      · exact this
  ordered := h.ordered

theorem foldl_reduceInDegree (h : Sorting dependencies stages sorted left state)
    (hmem : ∀ s ∈ left, s ∈ stages) :
    Sorting dependencies stages sorted [] (left.foldl DataflowScheduler.reduceInDegree state) := by
  induction left generalizing state with
  | nil => exact h
  | cons dependent left ih =>
      apply ih (h.reduceInDegree (hmem dependent List.mem_cons_self))
      exact fun s hs => hmem s (List.mem_cons_of_mem _ hs)

/-- The next stage is sorted. -/
theorem pop {inDegree : StageRef → Int} {current : StageRef} {worklist : List StageRef}
    (hnd : stages.Nodup)
    (h : Sorting dependencies stages sorted [] (inDegree, current :: worklist)) :
    Sorting dependencies stages (sorted ++ [current]) (dependencies current)
      (inDegree, worklist) := by
  have hcurrent : current ∈ stages := h.queued.mem_stages current (by simp)
  have hnew : current ∉ sorted := by
    intro hin
    exact (List.nodup_append.mp h.queued.nodup).2.2 current hin current List.mem_cons_self rfl
  have hassoc : sorted ++ [current] ++ worklist = sorted ++ current :: worklist :=
    (List.append_cons sorted current worklist).symm
  constructor
  · show Queued stages inDegree (sorted ++ [current] ++ worklist)
    rw [hassoc]
    exact h.queued
  · intro s
    have := h.inDegree s
    rw [inDegrees_filter_concat hnd hcurrent hnew s] at this
    exact this
  · intro s hs hzero
    show s ∈ sorted ++ [current] ++ worklist
    rw [hassoc]
    exact h.mem_of_zero s hs hzero
  · -- a queued stage has no token left, so all that feeds it is sorted
    apply h.ordered.concat
    apply inDegrees_eq_zero_iff.mp
    have hle := h.queued.le_zero current (by simp)
    have heq := h.inDegree current
    dsimp only at hle heq
    omega

end Sorting

/-- The loop stops with nothing queued. -/
theorem sortLoop_sorting (hnd : stages.Nodup) (hclosed : ClosedUnder dependencies stages)
    {fuel : Nat} {inDegree : StageRef → Int} {worklist : List StageRef}
    (h : Sorting dependencies stages sorted [] (inDegree, worklist))
    (hfuel : stages.length < sorted.length + fuel) :
    ∃ inDegree', Sorting dependencies stages (sorted ++ sortLoop dependencies fuel inDegree worklist)
      [] (inDegree', []) := by
  induction fuel generalizing sorted inDegree worklist with
  | zero =>
      have hsub := h.queued.nodup.subperm h.queued.mem_stages
      have hlen := hsub.length_le
      rw [List.length_append] at hlen
      omega
  | succ fuel ih =>
      cases worklist with
      | nil =>
          rw [sortLoop, List.append_nil]
          exact ⟨inDegree, h⟩
      | cons current worklist =>
          have hcurrent : current ∈ stages := h.queued.mem_stages current (by simp)
          have hnext := (h.pop hnd).foldl_reduceInDegree (hclosed current hcurrent)
          have := ih hnext (by rw [List.length_append, List.length_singleton]; omega)
          rw [← List.append_cons] at this
          exact this

/-- What is queued comes out first. -/
theorem prefix_sortLoop {fuel : Nat} {inDegree : StageRef → Int} {first worklist : List StageRef}
    (hfuel : first.length ≤ fuel) (hfirst : first <+: worklist) :
    first <+: sortLoop dependencies fuel inDegree worklist := by
  induction fuel generalizing first inDegree worklist with
  | zero =>
      have : first = [] := List.length_eq_zero_iff.mp (Nat.le_zero.mp hfuel)
      exact this ▸ List.nil_prefix
  | succ fuel ih =>
      cases first with
      | nil => exact List.nil_prefix
      | cons current first =>
          obtain ⟨rest, rfl⟩ := hfirst
          rw [List.cons_append, sortLoop]
          apply List.cons_prefix_cons.mpr
          refine ⟨rfl, ih (Nat.le_of_succ_le_succ hfuel) ?_⟩
          have hgrow : ∀ (deps : List StageRef) (state : (StageRef → Int) × List StageRef),
              state.2 <+: (deps.foldl DataflowScheduler.reduceInDegree state).2 := by
            intro deps
            induction deps with
            | nil => exact fun state => List.prefix_refl _
            | cons dep deps ih =>
                intro state
                apply List.IsPrefix.trans _ (ih _)
                show state.2 <+: if _ = (0 : Int) then state.2 ++ [dep] else state.2
                split
                · exact List.prefix_append ..
                · exact List.prefix_refl _
          exact (List.prefix_append first rest).trans (hgrow _ (inDegree, first ++ rest))

/-! ## The sort -/

/-- The stages that are queued at the start are the sources. -/
theorem initialWorklist_eq :
    (stages.filter fun s => decide ((inDegrees dependencies stages s : Int) = 0)) =
      identifySourceStages dependencies stages := by
  rw [identifySourceStages]
  apply List.filter_congr
  intro s _
  rw [inDegrees]
  simp [List.count_eq_zero]

theorem sorting_start (hnd : stages.Nodup) :
    Sorting dependencies stages [] []
      (fun s => (inDegrees dependencies stages s : Int),
        identifySourceStages dependencies stages) := by
  rw [← initialWorklist_eq]
  have hall : stages.filter (· ∉ ([] : List StageRef)) = stages := by
    apply List.filter_eq_self.mpr
    intro s _
    simp
  constructor
  · refine ⟨hnd.filter _, fun s hs => ?_, fun s hs => List.mem_of_mem_filter hs⟩
    exact Int.le_of_eq (of_decide_eq_true (List.mem_filter.mp hs).2)
  · intro s
    rw [hall, List.count_nil, Nat.add_zero]
  · intro s hs hzero
    exact List.mem_filter.mpr ⟨hs, decide_eq_true hzero⟩
  · exact PredecessorsFirst.nil

/-- The whole loop: the sorted stages, and whether they are all. -/
theorem sortLoop_spec (hnd : stages.Nodup) (hclosed : ClosedUnder dependencies stages) :
    let sorted := sortLoop dependencies (stages.length + 1)
      (fun s => (inDegrees dependencies stages s : Int)) (identifySourceStages dependencies stages)
    sorted.Nodup ∧ (∀ s ∈ sorted, s ∈ stages) ∧
      PredecessorsFirst (Feeds dependencies stages) sorted ∧
      (Acyclic (Feeds dependencies stages) → ∀ s ∈ stages, s ∈ sorted) := by
  intro sorted
  have hstart : Sorting dependencies stages [] [] _ := sorting_start hnd
  have hfuel : stages.length < ([] : List StageRef).length + (stages.length + 1) := by simp
  obtain ⟨inDegree, h⟩ := sortLoop_sorting hnd hclosed hstart hfuel
  rw [List.nil_append] at h
  have hqueued := h.queued
  rw [List.append_nil] at hqueued
  refine ⟨hqueued.nodup, hqueued.mem_stages, h.ordered, fun hacyclic s hs => ?_⟩
  by_contra hmissing
  obtain ⟨t, ht, htnew, hpreds⟩ :=
    hacyclic.exists_ready (fun a b hab => hab.1) ⟨s, hs, hmissing⟩
  have hzero : inDegree t = 0 := by
    have := h.inDegree t
    rw [inDegrees_eq_zero_iff.mpr hpreds] at this
    exact this
  have := h.mem_of_zero t ht hzero
  rw [List.append_nil] at this
  exact htnew this

/-- The sort succeeds on acyclic dependencies alone. Then every stage comes out once, before its
dependents, and the source stages come first. -/
theorem topologicalSortStages_sorts (hnd : stages.Nodup)
    (hclosed : ClosedUnder dependencies stages) :
    ((topologicalSortStages dependencies stages).isSome ↔ Acyclic (Feeds dependencies stages)) ∧
      ∀ sorted, topologicalSortStages dependencies stages = some sorted →
        sorted.Perm stages ∧
        (∀ s ∈ stages, ∀ t ∈ dependencies s, sorted.idxOf s < sorted.idxOf t) ∧
        identifySourceStages dependencies stages <+: sorted := by
  obtain ⟨hnodup, hmem, hordered, hcomplete⟩ := sortLoop_spec hnd hclosed
  have hsource : identifySourceStages dependencies stages <+:
      sortLoop dependencies (stages.length + 1)
        (fun s => (inDegrees dependencies stages s : Int))
        (identifySourceStages dependencies stages) := by
    apply prefix_sortLoop _ (List.prefix_refl _)
    exact Nat.le_succ_of_le (List.length_filter_le ..)
  have hsort : topologicalSortStages dependencies stages =
      let sorted := sortLoop dependencies (stages.length + 1)
        (fun s => (inDegrees dependencies stages s : Int))
        (identifySourceStages dependencies stages)
      if sorted.length = stages.length then some sorted else none := by
    rw [← initialWorklist_eq]
    rfl
  dsimp only at hsort
  generalize sortLoop dependencies (stages.length + 1)
    (fun s => (inDegrees dependencies stages s : Int))
    (identifySourceStages dependencies stages) = sorted at *
  have hperm (hlen : sorted.length = stages.length) : sorted.Perm stages :=
    (hnodup.subperm hmem).perm_of_length_le (Nat.le_of_eq hlen.symm)
  rw [hsort]
  refine ⟨⟨fun h => ?_, fun h => ?_⟩, fun result h => ?_⟩
  · have hlen : sorted.length = stages.length := by
      by_contra hne
      rw [if_neg hne] at h
      cases h
    apply hordered.acyclic hnodup
    intro s t hst
    exact (hperm hlen).mem_iff.mpr (hclosed s hst.1 t hst.2)
  · have hsub := hnd.subperm (hcomplete h)
    have hlen : sorted.length = stages.length :=
      Nat.le_antisymm (hnodup.subperm hmem).length_le hsub.length_le
    rw [if_pos hlen]
    rfl
  · split at h
    · next hlen =>
        cases h
        refine ⟨hperm hlen, fun s hs t ht => ?_, hsource⟩
        exact hordered.idxOf_lt hnodup ((hperm hlen).mem_iff.mpr (hclosed s hs t ht)) ⟨hs, ht⟩
    · cases h

/-- Two stages that feed a third, one of them twice. -/
theorem topologicalSortStages_sorts_diamond :
    ((topologicalSortStages (fun s => if s = 2 then [0, 0] else if s = 1 then [0] else [])
        [0, 1, 2]).isSome ↔
      Acyclic (Feeds (fun s => if s = 2 then [0, 0] else if s = 1 then [0] else []) [0, 1, 2])) ∧
      ∀ sorted, topologicalSortStages
          (fun s => if s = 2 then [0, 0] else if s = 1 then [0] else []) [0, 1, 2] = some sorted →
        sorted.Perm [0, 1, 2] ∧
        (∀ s ∈ [0, 1, 2], ∀ t ∈ (if s = 2 then [0, 0] else if s = 1 then [0] else []),
          sorted.idxOf s < sorted.idxOf t) ∧
        identifySourceStages (fun s => if s = 2 then [0, 0] else if s = 1 then [0] else [])
          [0, 1, 2] <+: sorted :=
  topologicalSortStages_sorts (by decide) (by decide)

example : topologicalSortStages (fun s => if s = 2 then [0, 0] else if s = 1 then [0] else [])
    [0, 1, 2] = some [1, 2, 0] := by decide

end PipelineTree

end DataflowScheduler
