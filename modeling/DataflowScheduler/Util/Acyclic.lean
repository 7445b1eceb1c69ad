import Mathlib.Logic.Relation
import Mathlib.Order.WellFounded
import Mathlib.Data.Set.Finite.Lemmas

/-!
# Finite acyclic relations
-/

/-- No element comes before itself. -/
def Acyclic {α : Type} (r : α → α → Prop) : Prop := ∀ a, ¬ Relation.TransGen r a a

namespace Acyclic

variable {α : Type} {r : α → α → Prop}

/-- A relation along which a rank grows is acyclic. -/
theorem of_rank (rank : α → Nat) (h : ∀ a b, r a b → rank a < rank b) : Acyclic r := by
  have hlt : ∀ a b, Relation.TransGen r a b → rank a < rank b := by
    intro a b hab
    induction hab with
    | single hab => exact h _ _ hab
    | tail _ hbc ih => exact ih.trans (h _ _ hbc)
  exact fun a ha => Nat.lt_irrefl _ (hlt a a ha)

theorem mono {s : α → α → Prop} (h : Acyclic s) (hrs : ∀ a b, r a b → s a b) : Acyclic r :=
  fun a ha => h a (Relation.TransGen.mono hrs a a ha)

theorem flip (h : Acyclic r) : Acyclic fun a b => r b a :=
  fun a ha => h a (Relation.transGen_swap.mp ha)

/-- Among finitely many elements, one has none of the others before it. -/
theorem exists_first (h : Acyclic r) {l : List α} (hne : l ≠ []) :
    ∃ a ∈ l, ∀ b ∈ l, ¬ r b a := by
  let before : {a // a ∈ l} → {a // a ∈ l} → Prop := fun a b => Relation.TransGen r a b
  have : Finite {a // a ∈ l} := l.finite_toSet.to_subtype
  have : IsTrans _ before := ⟨fun _ _ _ hab hbc => hab.trans hbc⟩
  have : Std.Irrefl before := ⟨fun a ha => h a ha⟩
  have hwf : WellFounded before := Finite.wellFounded_of_trans_of_irrefl before
  obtain ⟨a, ha⟩ := List.exists_mem_of_ne_nil l hne
  obtain ⟨first, -, hfirst⟩ := hwf.has_min Set.univ ⟨⟨a, ha⟩, trivial⟩
  exact ⟨first, first.2, fun b hb hr => hfirst ⟨b, hb⟩ trivial (.single hr)⟩

/-- And one has none of the others after it. -/
theorem exists_last (h : Acyclic r) {l : List α} (hne : l ≠ []) :
    ∃ a ∈ l, ∀ b ∈ l, ¬ r a b := h.flip.exists_first hne

/-- Finitely many elements can be ranked along the relation, below their number. -/
theorem exists_rank (h : Acyclic r) (l : List α) :
    ∃ rank : α → Nat, (∀ a ∈ l, rank a < l.length) ∧
      ∀ a ∈ l, ∀ b, r a b → rank a < rank b := by
  classical
  -- rank an element by how many of the list come before it
  let before : α → α → Bool := fun b a => decide (Relation.TransGen r a b)
  refine ⟨fun b => l.countP (before b), fun a ha => ?_, fun a ha b hab => ?_⟩
  · refine Nat.lt_of_le_of_ne List.countP_le_length fun heq => ?_
    exact h a (of_decide_eq_true (List.countP_eq_length.mp heq a ha))
  · obtain ⟨first, rest, rfl⟩ := List.append_of_mem ha
    have hmono : ∀ part : List α, part.countP (before a) ≤ part.countP (before b) := by
      intro part
      refine List.countP_mono_left fun c _ hc => ?_
      exact decide_eq_true ((of_decide_eq_true hc).tail hab)
    have hself : before a a = false := decide_eq_false (h a)
    have hnext : before b a = true := decide_eq_true (.single hab)
    show (first ++ a :: rest).countP (before a) < (first ++ a :: rest).countP (before b)
    rw [List.countP_append, List.countP_append, List.countP_cons_of_neg (by simp [hself]),
      List.countP_cons_of_pos hnext]
    have := hmono first
    have := hmono rest
    omega

end Acyclic
