import Mathlib.Data.List.Basic
import Mathlib.Logic.Function.Basic

/-!
# Lists of writes

A memory after a list of writes: what a location holds that was written, where all its writes agree,
and what the others keep.
-/

namespace Writes

variable {L V : Type} [DecidableEq L]

/-- Write one value after the other. -/
def store (mem : L → V) (writes : List (L × V)) : L → V :=
  writes.foldl (fun m w => Function.update m w.1 w.2) mem

@[simp] theorem store_nil (mem : L → V) : store mem [] = mem := rfl

@[simp] theorem store_cons (mem : L → V) (w : L × V) (writes : List (L × V)) :
    store mem (w :: writes) = store (Function.update mem w.1 w.2) writes := rfl

theorem store_append (mem : L → V) (first rest : List (L × V)) :
    store mem (first ++ rest) = store (store mem first) rest := List.foldl_append

/-- A location that is not written keeps its value. -/
theorem store_of_not_mem {mem : L → V} {writes : List (L × V)} {l : L}
    (h : ∀ w ∈ writes, w.1 ≠ l) : store mem writes l = mem l := by
  induction writes generalizing mem with
  | nil => rfl
  | cons w writes ih =>
      rw [List.forall_mem_cons] at h
      rw [store_cons, ih h.2, Function.update_of_ne h.1.symm]

/-- A location that is written holds what one of its writes writes. -/
theorem exists_store_eq {mem : L → V} {writes : List (L × V)} {l : L}
    (hmem : ∃ w ∈ writes, w.1 = l) : ∃ w ∈ writes, w.1 = l ∧ store mem writes l = w.2 := by
  induction writes generalizing mem with
  | nil =>
      obtain ⟨w, hw, -⟩ := hmem
      cases hw
  | cons w writes ih =>
      rw [store_cons]
      by_cases hlater : ∃ w' ∈ writes, w'.1 = l
      · obtain ⟨w', hw', hstore⟩ := ih hlater
        exact ⟨w', List.mem_cons_of_mem _ hw', hstore⟩
      · have hother : ∀ w' ∈ writes, w'.1 ≠ l := fun w' hw' heq => hlater ⟨w', hw', heq⟩
        obtain ⟨w', hw', heq⟩ := hmem
        rcases List.mem_cons.mp hw' with rfl | hw'
        · refine ⟨w', List.mem_cons_self, heq, ?_⟩
          rw [store_of_not_mem hother, ← heq, Function.update_self]
        · exact absurd heq (hother w' hw')

/-- A location whose writes agree holds what they write. -/
theorem store_of_mem {mem : L → V} {writes : List (L × V)} {l : L} {v : V}
    (hmem : ∃ w ∈ writes, w.1 = l) (h : ∀ w ∈ writes, w.1 = l → w.2 = v) :
    store mem writes l = v := by
  induction writes generalizing mem with
  | nil =>
      obtain ⟨w, hw, -⟩ := hmem
      cases hw
  | cons w writes ih =>
      rw [List.forall_mem_cons] at h
      rw [store_cons]
      by_cases hlater : ∃ w' ∈ writes, w'.1 = l
      · exact ih hlater h.2
      · -- The first write is the only one.
        have hother : ∀ w' ∈ writes, w'.1 ≠ l := fun w' hw' heq => hlater ⟨w', hw', heq⟩
        obtain ⟨w', hw', heq⟩ := hmem
        rcases List.mem_cons.mp hw' with rfl | hw'
        · rw [store_of_not_mem hother, ← heq, Function.update_self]
          exact h.1 heq
        · exact absurd heq (hother w' hw')

end Writes
