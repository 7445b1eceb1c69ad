import DataflowScheduler.Util.Acyclic
import Mathlib.Data.List.Nodup
import Mathlib.Data.List.Lemmas

/-!
# Lists in which everything comes after what it needs
-/

/-- Whatever is related to an element of the list is in front of it. -/
def PredecessorsFirst {α : Type} (r : α → α → Prop) (l : List α) : Prop :=
  ∀ first a rest, l = first ++ a :: rest → ∀ b, r b a → b ∈ first

namespace PredecessorsFirst

variable {α : Type} {r : α → α → Prop} {l : List α}

theorem nil : PredecessorsFirst r [] := by
  intro first a rest h
  cases first <;> cases h

/-- An element can be put behind all that it needs. -/
theorem concat (h : PredecessorsFirst r l) {a : α} (ha : ∀ b, r b a → b ∈ l) :
    PredecessorsFirst r (l ++ [a]) := by
  intro first c rest hsplit b hb
  rcases List.eq_nil_or_concat rest with hrest | ⟨rest', last, hrest⟩
  · subst hrest
    obtain ⟨hfirst, hc⟩ := List.append_inj' hsplit rfl
    cases hc
    exact hfirst ▸ ha b hb
  · subst hrest
    have hsplit' : l ++ [a] = (first ++ c :: rest') ++ [last] := by simpa using hsplit
    obtain ⟨hl, -⟩ := List.append_inj' hsplit' rfl
    exact h first c rest' hl b hb

/-- What is needed has the smaller index. -/
theorem idxOf_lt [DecidableEq α] (h : PredecessorsFirst r l) (hnd : l.Nodup) {a b : α}
    (ha : a ∈ l) (hba : r b a) : l.idxOf b < l.idxOf a := by
  obtain ⟨first, rest, hl⟩ := List.append_of_mem ha
  have hb : b ∈ first := h first a rest hl b hba
  have hnew : a ∉ first := by
    rw [hl] at hnd
    intro hmem
    exact (List.nodup_append.mp hnd).2.2 a hmem a List.mem_cons_self rfl
  rw [hl, List.idxOf_append_of_mem hb, List.idxOf_append_of_notMem hnew, List.idxOf_cons_self]
  have := List.idxOf_lt_length_of_mem hb
  omega

/-- And smaller indices are enough. -/
theorem of_idxOf_lt [DecidableEq α] (h : ∀ a b, r a b → l.idxOf a < l.idxOf b) :
    PredecessorsFirst r l := by
  intro first a rest hl b hba
  by_contra hnew
  have hlt := h b a hba
  have ha : l.idxOf a ≤ first.length := by
    rw [hl]
    by_cases hmem : a ∈ first
    · rw [List.idxOf_append_of_mem hmem]
      exact List.idxOf_le_length
    · rw [List.idxOf_append_of_notMem hmem, List.idxOf_cons_self]
      omega
  have hb : first.length ≤ l.idxOf b := by
    rw [hl, List.idxOf_append_of_notMem hnew]
    omega
  omega

/-- It is enough that what is needed comes earlier somewhere. -/
theorem of_sublist (hnd : l.Nodup) (h : ∀ a b, r a b → b ∈ l → [a, b].Sublist l) :
    PredecessorsFirst r l := by
  intro first b rest hl a hab
  have hsub := h a b hab (hl ▸ List.mem_append_right first List.mem_cons_self)
  rw [hl] at hsub hnd
  obtain ⟨hfirst, hrest, hdisjoint⟩ := List.nodup_append.mp hnd
  obtain ⟨l₁, l₂, hsplit, h₁, h₂⟩ := List.sublist_append_iff.mp hsub
  cases l₁ with
  | nil =>
      -- both in the rest: the second one has to be its head and to come behind it
      rw [List.nil_append] at hsplit
      rw [← hsplit] at h₂
      cases h₂ with
      | cons _ h₂ => exact absurd (h₂.subset (by simp)) (List.nodup_cons.mp hrest).1
      | cons_cons _ h₂ =>
          exact absurd (h₂.subset (List.mem_singleton_self _)) (List.nodup_cons.mp hrest).1
  | cons c l₁ =>
      obtain ⟨hac, -⟩ := List.cons.inj hsplit
      exact hac ▸ h₁.subset List.mem_cons_self

/-- What can be put in such an order has no cycle. -/
theorem acyclic (h : PredecessorsFirst r l) (hnd : l.Nodup) (hmem : ∀ a b, r a b → b ∈ l) :
    Acyclic r := by
  classical
  apply Acyclic.of_rank (fun a => l.idxOf a)
  intro a b hab
  exact h.idxOf_lt hnd (hmem a b hab) hab

end PredecessorsFirst

/-- As long as something is not in place, something is whose predecessors all are. -/
theorem Acyclic.exists_ready {α : Type} {r : α → α → Prop} (h : Acyclic r) {l placed : List α}
    (hmem : ∀ a b, r a b → a ∈ l) (hmissing : ∃ a ∈ l, a ∉ placed) :
    ∃ a ∈ l, a ∉ placed ∧ ∀ b, r b a → b ∈ placed := by
  classical
  obtain ⟨missing, hmissing, hnew⟩ := hmissing
  have hne : l.filter (· ∉ placed) ≠ [] :=
    List.ne_nil_of_mem (List.mem_filter.mpr ⟨hmissing, decide_eq_true hnew⟩)
  obtain ⟨a, ha, hfirst⟩ := h.exists_first hne
  obtain ⟨hal, hanew⟩ := List.mem_filter.mp ha
  refine ⟨a, hal, of_decide_eq_true hanew, fun b hb => ?_⟩
  by_contra hbnew
  exact hfirst b (List.mem_filter.mpr ⟨hmem b a hb, decide_eq_true hbnew⟩) hb
