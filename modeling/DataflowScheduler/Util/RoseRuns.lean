import DataflowScheduler.Util.RoseEdit

/-!
# Runs of ops

A run visits the ops of a body in order. What is in an op is run any number of times, which is up to
the op, and what is in an op that only groups others exactly once. An edit that splices out nothing
but groups leaves of each run of the body a run of what is left.
-/

namespace Rose

variable {α : Type} (once : α → Prop)

mutual

/-- A run of an op, each visit with the ops around it, innermost first. -/
def Run (around : List α) : Rose α → List (α × List α) → Prop
  | .node a cs, run => ∃ its : List (List (α × List α)), (once a → its.length = 1) ∧
      (∀ it ∈ its, RunList (a :: around) cs it) ∧ run = (a, around) :: its.flatten

/-- A run of a body. -/
def RunList (around : List α) : List (Rose α) → List (α × List α) → Prop
  | [], run => run = []
  | c :: cs, run => ∃ first rest, c.Run around first ∧ RunList around cs rest ∧ run = first ++ rest

end

variable {once}

theorem RunList.append {around : List α} {ts us : List (Rose α)} {run run' : List (α × List α)}
    (h : RunList once around ts run) (h' : RunList once around us run') :
    RunList once around (ts ++ us) (run ++ run') := by
  induction ts generalizing run with
  | nil =>
    rw [RunList] at h
    rw [h]
    exact h'
  | cons t ts ih =>
    rw [RunList] at h
    obtain ⟨first, rest, hfirst, hrest, rfl⟩ := h
    rw [List.cons_append, RunList]
    exact ⟨first, rest ++ run', hfirst, ih hrest, List.append_assoc ..⟩

mutual

theorem mem_contexts_of_run {around : List α} {t : Rose α} {run : List (α × List α)}
    {c : α × List α} (h : t.Run once around run) (hc : c ∈ run) : c ∈ t.contexts around := by
  cases t with
  | node a cs =>
    rw [Run] at h
    obtain ⟨its, -, hits, rfl⟩ := h
    rw [contexts]
    rcases List.mem_cons.mp hc with rfl | hc
    · exact List.mem_cons_self
    · obtain ⟨it, hit, hc⟩ := List.mem_flatten.mp hc
      exact List.mem_cons_of_mem _ (mem_contextsList_of_run (hits it hit) hc)

/-- A run visits only ops of the body. -/
theorem mem_contextsList_of_run {around : List α} {ts : List (Rose α)} {run : List (α × List α)}
    {c : α × List α} (h : RunList once around ts run) (hc : c ∈ run) :
    c ∈ contextsList around ts := by
  cases ts with
  | nil =>
    rw [RunList] at h
    rw [h] at hc
    cases hc
  | cons t ts =>
    rw [RunList] at h
    obtain ⟨first, rest, hfirst, hrest, rfl⟩ := h
    rw [contextsList, List.mem_append]
    rcases List.mem_append.mp hc with hc | hc
    · exact .inl (mem_contexts_of_run hfirst hc)
    · exact .inr (mem_contextsList_of_run hrest hc)

end

mutual

theorem run_contexts (around : List α) (t : Rose α) : t.Run once around (t.contexts around) := by
  cases t with
  | node a cs =>
    rw [Run, contexts]
    refine ⟨[contextsList (a :: around) cs], fun _ => rfl, ?_, ?_⟩
    · exact List.forall_mem_singleton.mpr (runList_contextsList (a :: around) cs)
    · rw [List.flatten_singleton]

/-- Visiting everything once is a run. -/
theorem runList_contextsList (around : List α) (ts : List (Rose α)) :
    RunList once around ts (contextsList around ts) := by
  cases ts with
  | nil => exact rfl
  | cons t ts => exact ⟨_, _, run_contexts around t, runList_contextsList around ts, rfl⟩

end

mutual

theorem Run.edit {act : α → Edit} (honce : ∀ a, act a = .unwrap → once a) {around : List α}
    (h : ∀ b ∈ around, act b ≠ .erase) {t : Rose α} {run : List (α × List α)}
    (hrun : t.Run once around run) :
    RunList once (around.filter fun b => act b = .keep) (t.edit act) (run.filterMap (leftOf act)) := by
  cases t with
  | node a cs =>
    rw [Run] at hrun
    obtain ⟨its, hone, hits, rfl⟩ := hrun
    rw [Rose.edit, List.filterMap_cons]
    cases hact : act a with
    | keep =>
      have hbody : ∀ it ∈ its, RunList once (a :: around.filter fun b => act b = .keep)
          (editList act cs) (it.filterMap (leftOf act)) := by
        intro it hit
        have hcs := RunList.editList honce (List.forall_mem_cons.mpr ⟨by simp [hact], h⟩) (hits it hit)
        rwa [List.filter_cons_of_pos (by simp [hact])] at hcs
      rw [leftOf, if_pos ⟨hact, h⟩]
      refine ⟨_, [], ⟨its.map (List.filterMap (leftOf act)), fun ha => ?_, ?_, rfl⟩, rfl, ?_⟩
      · rw [List.length_map, hone ha]
      · exact List.forall_mem_map.mpr hbody
      · rw [List.append_nil, List.filterMap_flatten]
    | unwrap =>
      obtain ⟨it, rfl⟩ := List.length_eq_one_iff.mp (hone (honce a hact))
      have hcs := RunList.editList honce (List.forall_mem_cons.mpr ⟨by simp [hact], h⟩)
        (hits it List.mem_cons_self)
      rw [List.filter_cons_of_neg (by simp [hact])] at hcs
      rw [leftOf, if_neg (by simp [hact]), List.flatten_cons, List.flatten_nil, List.append_nil]
      exact hcs
    | erase =>
      -- everything inside has the op around it
      rw [leftOf, if_neg (by simp [hact]), RunList]
      refine List.filterMap_eq_nil_iff.mpr fun c hc => if_neg fun hleft => ?_
      obtain ⟨it, hit, hc⟩ := List.mem_flatten.mp hc
      have haround := around_of_mem_contextsList (mem_contextsList_of_run (hits it hit) hc)
      exact hleft.2 a (haround a List.mem_cons_self) hact

/-- **What an edit leaves of a run is a run of what it leaves of the body.** -/
theorem RunList.editList {act : α → Edit} (honce : ∀ a, act a = .unwrap → once a) {around : List α}
    (h : ∀ b ∈ around, act b ≠ .erase) {ts : List (Rose α)} {run : List (α × List α)}
    (hrun : RunList once around ts run) :
    RunList once (around.filter fun b => act b = .keep) (Rose.editList act ts)
      (run.filterMap (leftOf act)) := by
  cases ts with
  | nil =>
    rw [RunList] at hrun
    rw [hrun]
    exact rfl
  | cons t ts =>
    rw [RunList] at hrun
    obtain ⟨first, rest, hfirst, hrest, rfl⟩ := hrun
    rw [Rose.editList, List.filterMap_append]
    exact (Run.edit honce h hfirst).append (RunList.editList honce h hrest)

end

end Rose
