import Mathlib.Data.List.Chain
import Mathlib.Logic.Relation

/-!
# Walks in a directed graph
-/

/-- The nodes of a walk along a relation from one node to another, both included. -/
inductive Walk {α : Type} (adj : α → α → Prop) : α → α → List α → Prop
  | refl (a : α) : Walk adj a a [a]
  | step {a b c : α} {l : List α} : adj a b → Walk adj b c l → Walk adj a c (a :: l)

namespace Walk

variable {α : Type} {adj : α → α → Prop} {a b c : α} {l l' : List α}

theorem eq_cons (h : Walk adj a b l) : l = a :: l.tail := by
  cases h with
  | refl => rfl
  | step _ _ => rfl

theorem snoc (h : Walk adj a b l) (hbc : adj b c) : Walk adj a c (l ++ [c]) := by
  induction h with
  | refl a => exact .step hbc (.refl c)
  | step hab _ ih => exact .step hab (ih hbc)

/-- One walk after another. The node where they meet is in both. -/
theorem append (h : Walk adj a b l) (h' : Walk adj b c l') : Walk adj a c (l ++ l'.tail) := by
  induction h with
  | refl b =>
      show Walk adj b c (b :: l'.tail)
      rwa [← h'.eq_cons]
  | step hab _ ih => exact .step hab (ih h')

theorem reverse (h : Walk adj a b l) : Walk (fun x y => adj y x) b a l.reverse := by
  induction h with
  | refl a => exact .refl a
  | step hab _ ih =>
      rw [List.reverse_cons]
      exact ih.snoc hab

theorem mono {adj' : α → α → Prop} (h : Walk adj a b l) (hle : ∀ x y, adj x y → adj' x y) :
    Walk adj' a b l := by
  induction h with
  | refl a => exact .refl a
  | step hab _ ih => exact .step (hle _ _ hab) ih

theorem head? (h : Walk adj a b l) : l.head? = some a := by
  rw [h.eq_cons]
  rfl

theorem getLast? (h : Walk adj a b l) : l.getLast? = some b := by
  induction h with
  | refl a => rfl
  | step _ hwalk ih =>
      rw [hwalk.eq_cons] at ih ⊢
      exact ih

theorem isChain (h : Walk adj a b l) : l.IsChain adj := by
  induction h with
  | refl a => exact .singleton a
  | step hab hwalk ih =>
      rw [hwalk.eq_cons] at ih ⊢
      exact .cons_cons hab ih

/-- A walk is a list from one node to the other whose neighbours are related. -/
theorem iff_isChain :
    Walk adj a b l ↔ l.head? = some a ∧ l.getLast? = some b ∧ l.IsChain adj := by
  refine ⟨fun h => ⟨h.head?, h.getLast?, h.isChain⟩, ?_⟩
  rintro ⟨hhead, hlast, hchain⟩
  induction hchain generalizing a with
  | nil => cases hhead
  | singleton x =>
      cases hhead
      cases hlast
      exact .refl _
  | cons_cons hab _ ih =>
      cases hhead
      exact .step hab (ih rfl (by simpa using hlast))

theorem reflTransGen (h : Walk adj a b l) : Relation.ReflTransGen adj a b := by
  induction h with
  | refl a => exact .refl
  | step hab _ ih => exact .head hab ih

theorem exists_of_reflTransGen (h : Relation.ReflTransGen adj a b) : ∃ l, Walk adj a b l := by
  induction h with
  | refl => exact ⟨[a], .refl a⟩
  | tail _ hbc ih =>
      obtain ⟨l, hl⟩ := ih
      exact ⟨_, hl.snoc hbc⟩

/-- The nodes of a walk lie between its ends. -/
theorem between (h : Walk adj a b l) {x : α} (hx : x ∈ l) :
    Relation.ReflTransGen adj a x ∧ Relation.ReflTransGen adj x b := by
  induction h with
  | refl a =>
      rw [List.mem_singleton.mp hx]
      exact ⟨.refl, .refl⟩
  | step hab hwalk ih =>
      rcases List.mem_cons.mp hx with rfl | hx
      · exact ⟨.refl, .head hab hwalk.reflTransGen⟩
      · exact ⟨.head hab (ih hx).1, (ih hx).2⟩

end Walk
