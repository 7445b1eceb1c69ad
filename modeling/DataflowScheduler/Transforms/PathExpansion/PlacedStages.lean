import DataflowScheduler.Analysis.StageOrder
import DataflowScheduler.Transforms.PathExpansion.Expand

/-!
# The order in which stages are placed

`orderStagesByDependencies` places one stage after another, each time the first that can be.
-/

namespace DataflowScheduler

namespace PathExpansion

open PipelineTree

variable {dependencies : Dependencies} {stages placed ordered : List StageRef}

/-- The first stage that is not placed although its predecessors are. -/
def earliestReady (dependencies : Dependencies) (stages placed : List StageRef) :
    Option StageRef :=
  stages.find? fun s => s ∉ placed ∧ ∀ p ∈ stages, s ∈ dependencies p → p ∈ placed

/-- What the loop keeps: `unplacedPreds` counts the edges from what is not placed. -/
structure Placing (dependencies : Dependencies) (stages placed : List StageRef)
    (unplacedPreds : StageRef → Int) : Prop where
  nodup : placed.Nodup
  mem_stages : ∀ s ∈ placed, s ∈ stages
  preds : ∀ s, unplacedPreds s = (inDegrees dependencies (stages.filter (· ∉ placed)) s : Nat)
  ordered : PredecessorsFirst (Feeds dependencies stages) placed

/-- The loop starts with nothing placed. -/
theorem Placing.start (dependencies : Dependencies) (stages : List StageRef) :
    Placing dependencies stages [] fun s => inDegrees dependencies stages s := by
  have hall : stages.filter (· ∉ ([] : List StageRef)) = stages := by
    apply List.filter_eq_self.mpr
    intro s _
    simp
  refine ⟨List.nodup_nil, by simp, fun s => ?_, PredecessorsFirst.nil⟩
  rw [hall]

section

variable {unplacedPreds : StageRef → Int}

/-- The stage that is taken next. -/
theorem Placing.nextPlaced_eq (h : Placing dependencies stages placed unplacedPreds) :
    nextPlaced stages placed unplacedPreds = earliestReady dependencies stages placed := by
  rw [nextPlaced, earliestReady]
  congr 1
  funext s
  apply decide_eq_decide.mpr
  have hzero : unplacedPreds s = 0 ↔ ∀ p ∈ stages, s ∈ dependencies p → p ∈ placed := by
    rw [h.preds, Int.natCast_eq_zero, inDegrees_eq_zero_iff]
    constructor
    · exact fun hfeeds p hp hs => hfeeds p ⟨hp, hs⟩
    · exact fun hall p hp => hall p hp.1 hp.2
  rw [hzero]

/-- A stage that can be placed is placed. -/
theorem Placing.step (hnd : stages.Nodup) (h : Placing dependencies stages placed unplacedPreds)
    {stage : StageRef} (hnext : earliestReady dependencies stages placed = some stage) :
    Placing dependencies stages (placed ++ [stage])
      ((dependencies stage).foldl
        (fun preds succ => Function.update preds succ (preds succ - 1)) unplacedPreds) := by
  have hstage : stage ∈ stages := List.mem_of_find?_eq_some hnext
  obtain ⟨hnew, hready⟩ :
      stage ∉ placed ∧ ∀ p ∈ stages, stage ∈ dependencies p → p ∈ placed := by
    have hfound := List.find?_some hnext
    exact of_decide_eq_true hfound
  have hfold : ∀ (succs : List StageRef) (preds : StageRef → Int) (s : StageRef),
      succs.foldl (fun preds succ => Function.update preds succ (preds succ - 1)) preds s =
        preds s - succs.count s := by
    intro succs
    induction succs with
    | nil =>
        intro preds s
        simp
    | cons succ succs ih =>
        intro preds s
        rw [List.foldl_cons, ih, Function.update_apply]
        by_cases hs : s = succ
        · subst hs
          rw [if_pos rfl, List.count_cons_self]
          omega
        · rw [if_neg hs, List.count_cons_of_ne (fun heq => hs heq.symm)]
  refine ⟨?_, ?_, fun s => ?_, ?_⟩
  · exact List.nodup_append.mpr ⟨h.nodup, List.nodup_singleton stage, fun a ha b hb heq =>
      hnew (List.mem_singleton.mp hb ▸ heq ▸ ha)⟩
  · intro s hs
    rcases List.mem_append.mp hs with hs | hs
    · exact h.mem_stages s hs
    · exact List.mem_singleton.mp hs ▸ hstage
  · rw [hfold, h.preds, inDegrees_filter_concat hnd hstage hnew s]
    omega
  · apply h.ordered.concat
    exact fun p hp => hready p hp.1 hp.2

/-- The loop as a whole: it gets through when nothing is cyclic, and takes the earliest stage that
can be placed each time. -/
theorem placeLoop_spec (hnd : stages.Nodup) {n : Nat}
    (h : Placing dependencies stages placed unplacedPreds)
    (hlen : placed.length + n = stages.length) :
    (Acyclic (Feeds dependencies stages) →
      (placeLoop dependencies stages n placed unplacedPreds).isSome) ∧
    ∀ ordered, placeLoop dependencies stages n placed unplacedPreds = some ordered →
      ordered.Perm stages ∧ PredecessorsFirst (Feeds dependencies stages) ordered ∧
      placed <+: ordered ∧
      ∀ i ≥ placed.length, earliestReady dependencies stages (ordered.take i) = ordered[i]? := by
  induction n generalizing placed unplacedPreds with
  | zero =>
      refine ⟨fun _ => rfl, fun ordered hordered => ?_⟩
      cases hordered
      have hperm : placed.Perm stages :=
        (h.nodup.subperm h.mem_stages).perm_of_length_le (by omega)
      refine ⟨hperm, h.ordered, List.prefix_refl _, fun i hi => ?_⟩
      rw [List.take_of_length_le hi, List.getElem?_eq_none hi, earliestReady,
        List.find?_eq_none]
      intro s hs hready
      exact (of_decide_eq_true hready).1 (hperm.mem_iff.mpr hs)
  | succ n ih =>
      rw [placeLoop, h.nextPlaced_eq]
      cases hnext : earliestReady dependencies stages placed with
      | none =>
          refine ⟨fun hacyclic => ?_, fun ordered hordered => by cases hordered⟩
          -- some stage is missing, so one can be placed
          have hmissing : ∃ s ∈ stages, s ∉ placed := by
            by_contra hall
            push Not at hall
            have := (hnd.subperm hall).length_le
            omega
          obtain ⟨s, hs, hnew, hpreds⟩ := hacyclic.exists_ready (fun a b hab => hab.1) hmissing
          rw [earliestReady, List.find?_eq_none] at hnext
          exact absurd (decide_eq_true ⟨hnew, fun p hp hsp => hpreds p ⟨hp, hsp⟩⟩) (hnext s hs)
      | some stage =>
          obtain ⟨hsome, hspec⟩ := ih (h.step hnd hnext)
            (by rw [List.length_append, List.length_singleton]; omega)
          refine ⟨hsome, fun ordered hordered => ?_⟩
          obtain ⟨hperm, hfirst, hprefix, hgreedy⟩ := hspec ordered hordered
          refine ⟨hperm, hfirst, (List.prefix_append ..).trans hprefix, fun i hi => ?_⟩
          rcases Nat.eq_or_lt_of_le hi with heq | hlt
          · obtain ⟨rest, rfl⟩ := hprefix
            rw [← heq, List.append_assoc, List.take_left, hnext]
            simp
          · apply hgreedy
            rw [List.length_append, List.length_singleton]
            exact hlt

end

/-- Stages that are in order can be placed one after the other. -/
theorem earliestReady_take (hnd : stages.Nodup)
    (h : PredecessorsFirst (Feeds dependencies stages) stages) (i : Nat) :
    earliestReady dependencies stages (stages.take i) = stages[i]? := by
  have hskip : (stages.take i).find? (fun s => decide (s ∉ stages.take i ∧
      ∀ p ∈ stages, s ∈ dependencies p → p ∈ stages.take i)) = none := by
    rw [List.find?_eq_none]
    intro s hs hready
    exact (of_decide_eq_true hready).1 hs
  rw [earliestReady]
  conv_lhs => arg 2; rw [← List.take_append_drop i stages]
  rw [List.find?_append, hskip, Option.none_or]
  by_cases hi : i < stages.length
  · have hsplit : stages = stages.take i ++ stages[i] :: stages.drop (i + 1) := by
      rw [← List.drop_eq_getElem_cons hi, List.take_append_drop]
    rw [List.drop_eq_getElem_cons hi, List.find?_cons_of_pos, List.getElem?_eq_getElem hi]
    apply decide_eq_true
    constructor
    · rw [hsplit] at hnd
      intro hmem
      exact (List.nodup_append.mp hnd).2.2 _ hmem _ List.mem_cons_self rfl
    · intro p hp hs
      exact h _ _ _ hsplit p ⟨hp, hs⟩
  · rw [List.drop_of_length_le (by omega), List.getElem?_eq_none (by omega)]
    rfl

/-- So an order that is taken greedily leaves them alone. -/
theorem eq_of_greedy (hnd : stages.Nodup)
    (h : PredecessorsFirst (Feeds dependencies stages) stages)
    (hgreedy : ∀ i, earliestReady dependencies stages (ordered.take i) = ordered[i]?) :
    ordered = stages := by
  have htake : ∀ i, ordered.take i = stages.take i := by
    intro i
    induction i with
    | zero => rfl
    | succ i ih =>
        have hget : ordered[i]? = stages[i]? := by
          rw [← hgreedy i, ih, earliestReady_take hnd h]
        rw [List.take_add_one, List.take_add_one, ih, hget]
  apply List.ext_getElem?
  intro i
  rw [← hgreedy i, htake i, earliestReady_take hnd h]

end PathExpansion

end DataflowScheduler
