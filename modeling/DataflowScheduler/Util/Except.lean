import Mathlib.Data.List.Forall2

/-!
# Runs that may fail

How to take a computation in `Except` apart that returned a value.
-/

namespace Except

universe u v

variable {ε : Type u} {α β : Type v}

/-- A bind that returned went through a value of its first part. -/
theorem bind_eq_ok {x : Except ε α} {f : α → Except ε β} {b : β} :
    (x >>= f) = .ok b ↔ ∃ a, x = .ok a ∧ f a = .ok b := by
  cases x with
  | error e => simp [bind, Except.bind]
  | ok a => simp [bind, Except.bind]

/-- A map that returned is the image of a value. -/
theorem map_eq_ok {x : Except ε α} {f : α → β} {b : β} :
    x.map f = .ok b ↔ ∃ a, x = .ok a ∧ f a = b := by
  cases x with
  | error e => simp [Except.map]
  | ok a => simp [Except.map]

/-- What a computation returned, as far as it can be evaluated. -/
theorem eq_ok_of_map_toOption {γ : Type} {x : Except ε α} {f : α → γ} {c : γ}
    (h : x.toOption.map f = some c) : ∃ a, x = .ok a ∧ f a = c := by
  cases x with
  | error e => cases h
  | ok a =>
      cases h
      exact ⟨a, rfl, rfl⟩

/-- A computation that returned is its value. -/
theorem eq_ok_getD {x : Except ε α} (d : α) (h : x.toOption.isSome) :
    x = .ok (x.toOption.getD d) := by
  cases x with
  | error e => cases h
  | ok a => rfl

/-- A `mapM` that returned did so at every element. -/
theorem mapM_eq_ok {f : α → Except ε β} {l : List α} {l' : List β} (h : l.mapM f = .ok l') :
    List.Forall₂ (fun a b => f a = .ok b) l l' := by
  induction l generalizing l' with
  | nil =>
      cases h
      exact .nil
  | cons a l ih =>
      rw [List.mapM_cons] at h
      obtain ⟨b, hb, h⟩ := bind_eq_ok.mp h
      obtain ⟨bs, hbs, h⟩ := bind_eq_ok.mp h
      cases h
      exact .cons hb (ih hbs)

/-- What every step of a fold keeps holds at its end. -/
theorem foldlM_induction {f : β → α → Except ε β} {P : β → Prop} {l : List α} {b b' : β}
    (h : l.foldlM f b = .ok b') (hb : P b)
    (hstep : ∀ b, ∀ a ∈ l, ∀ b', P b → f b a = .ok b' → P b') : P b' := by
  induction l generalizing b with
  | nil =>
      cases h
      exact hb
  | cons a l ih =>
      rw [List.foldlM_cons] at h
      obtain ⟨b₁, hb₁, h⟩ := bind_eq_ok.mp h
      exact ih h (hstep b a List.mem_cons_self b₁ hb hb₁)
        fun b a ha => hstep b a (List.mem_cons_of_mem _ ha)

/-- What a step establishes for its element, and every step keeps, holds for all elements at the end
of a fold. -/
theorem foldlM_forall {f : β → α → Except ε β} {Q : α → β → Prop} {l : List α} {b b' : β}
    (h : l.foldlM f b = .ok b')
    (hset : ∀ b, ∀ a ∈ l, ∀ b', f b a = .ok b' → (∀ a' ∈ l, Q a' b → Q a' b') ∧ Q a b') :
    ∀ a ∈ l, Q a b' := by
  suffices haux : ∀ (rest : List α) (b : β), (∀ a ∈ rest, a ∈ l) → rest.foldlM f b = .ok b' →
      (∀ a ∈ l, Q a b → Q a b') ∧ ∀ a ∈ rest, Q a b' from (haux l b (fun _ ha => ha) h).2
  intro rest
  induction rest with
  | nil =>
      intro b _ h
      cases h
      exact ⟨fun _ _ hq => hq, nofun⟩
  | cons a rest ih =>
      intro b hsub h
      rw [List.foldlM_cons] at h
      obtain ⟨b₁, hb₁, h⟩ := bind_eq_ok.mp h
      have ha := hsub a List.mem_cons_self
      obtain ⟨hkeep, hq⟩ := hset b a ha b₁ hb₁
      obtain ⟨hkeep', hrest⟩ := ih b₁ (fun a ha => hsub a (List.mem_cons_of_mem _ ha)) h
      refine ⟨fun a' ha' hq' => hkeep' a' ha' (hkeep a' ha' hq'), fun a' ha' => ?_⟩
      rcases List.mem_cons.mp ha' with rfl | ha'
      · exact hkeep' a' ha hq
      · exact hrest a' ha'

end Except
