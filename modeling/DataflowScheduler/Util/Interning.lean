import Mathlib.Data.List.Zip
import Mathlib.Tactic.Common

/-!
# Interning

A table that hands out numbers for keys. A key that is asked for again gets the number it has, a new
one the next number, counting down to a floor.
-/

namespace Interning

/-- The keys that have a number, and the number of the next new key. -/
structure Table (κ : Type) where
  entries : List (κ × Int)
  next : Int

namespace Table

variable {κ : Type}

/-- A table that has only handed out numbers from `start` on downwards, each to one key. -/
structure Interned (start : Int) (t : Table κ) : Prop where
  next_le : t.next ≤ start
  handed_out : ∀ e ∈ t.entries, t.next < e.2 ∧ e.2 ≤ start
  one_key : ∀ e ∈ t.entries, ∀ e' ∈ t.entries, e.2 = e'.2 → e.1 = e'.1

theorem interned_empty (start : Int) : Interned start (⟨[], start⟩ : Table κ) where
  next_le := Int.le_refl start
  handed_out := by simp
  one_key := by simp

variable [DecidableEq κ]

/-- The number of `key`, whether it is new, and the table after that. There is none where the
numbers are used up. -/
def ask (floor : Int) (t : Table κ) (key : κ) : Option (Int × Bool × Table κ) :=
  match t.entries.lookup key with
  | some id => some (id, false, t)
  | none =>
    if t.next = floor then none
    else some (t.next, true, { entries := (key, t.next) :: t.entries, next := t.next - 1 })

/-- The numbers of several keys, asked for in order. -/
def askAll (floor : Int) : Table κ → List κ → Option (List Int × Table κ)
  | t, [] => some ([], t)
  | t, key :: keys => do
    let (id, _, t) ← t.ask floor key
    let (ids, t) ← askAll floor t keys
    some (id :: ids, t)

/-! ## Asking once -/

/-- What asking once does. -/
theorem ask_cases {floor : Int} {t t' : Table κ} {key : κ} {id : Int} {fresh : Bool}
    (h : t.ask floor key = some (id, fresh, t')) :
    (fresh = false ∧ t' = t ∧ (key, id) ∈ t.entries) ∨
    (fresh = true ∧ id = t.next ∧ t' = ⟨(key, t.next) :: t.entries, t.next - 1⟩) := by
  unfold ask at h
  split at h
  next found hfound =>
    left
    obtain ⟨rfl, rfl, rfl⟩ := by simpa using h
    obtain ⟨l, r, hl, -⟩ := List.lookup_eq_some_iff.1 hfound
    exact ⟨rfl, rfl, by simp [hl]⟩
  next =>
    right
    split at h
    · contradiction
    · obtain ⟨rfl, rfl, rfl⟩ := by simpa using h
      exact ⟨rfl, rfl, rfl⟩

theorem ask_mem {floor : Int} {t t' : Table κ} {key : κ} {id : Int} {fresh : Bool}
    (h : t.ask floor key = some (id, fresh, t')) : (key, id) ∈ t'.entries := by
  obtain ⟨-, rfl, hmem⟩ | ⟨-, rfl, rfl⟩ := ask_cases h
  · exact hmem
  · exact List.mem_cons_self

theorem ask_subset {floor : Int} {t t' : Table κ} {key : κ} {id : Int} {fresh : Bool}
    (h : t.ask floor key = some (id, fresh, t')) : t.entries ⊆ t'.entries := by
  obtain ⟨-, rfl, -⟩ | ⟨-, -, rfl⟩ := ask_cases h
  · exact List.Subset.refl _
  · exact List.subset_cons_self _ _

theorem Interned.ask {floor start : Int} {t t' : Table κ} {key : κ} {id : Int} {fresh : Bool}
    (ht : Interned start t) (h : t.ask floor key = some (id, fresh, t')) : Interned start t' := by
  obtain ⟨-, rfl, -⟩ | ⟨-, -, rfl⟩ := ask_cases h
  · exact ht
  have hnext := ht.next_le
  -- the new number is below all the others
  have hbelow : ∀ e ∈ t.entries, t.next < e.2 := fun e he => (ht.handed_out e he).1
  constructor
  · show t.next - 1 ≤ start
    omega
  · intro e he
    show t.next - 1 < e.2 ∧ e.2 ≤ start
    rcases List.mem_cons.1 he with rfl | he
    · exact ⟨Int.sub_one_lt_of_le (Int.le_refl _), hnext⟩
    · have := ht.handed_out e he
      omega
  · intro e he e' he' hid
    rcases List.mem_cons.1 he with rfl | he <;> rcases List.mem_cons.1 he' with rfl | he'
    · rfl
    · have := hbelow e' he'
      simp only at hid
      omega
    · have := hbelow e he
      simp only at hid
      omega
    · exact ht.one_key e he e' he' hid

/-! ## Asking for several keys -/

theorem askAll_cons_eq_some {floor : Int} {t t' : Table κ} {key : κ} {keys : List κ}
    {ids : List Int} (h : t.askAll floor (key :: keys) = some (ids, t')) :
    ∃ id fresh t₁ ids', t.ask floor key = some (id, fresh, t₁) ∧
      t₁.askAll floor keys = some (ids', t') ∧ ids = id :: ids' := by
  simp only [askAll, Option.bind_eq_bind, Option.bind_eq_some_iff] at h
  obtain ⟨⟨id, fresh, t₁⟩, hask, ⟨ids', t₂⟩, hrest, heq⟩ := h
  obtain ⟨rfl, rfl⟩ := by simpa using heq
  exact ⟨id, fresh, t₁, ids', hask, hrest, rfl⟩

theorem Interned.askAll {floor start : Int} {t t' : Table κ} {keys : List κ} {ids : List Int}
    (ht : Interned start t) (h : t.askAll floor keys = some (ids, t')) : Interned start t' := by
  induction keys generalizing t ids with
  | nil =>
    obtain ⟨-, rfl⟩ := by simpa [Table.askAll] using h
    exact ht
  | cons key keys ih =>
    obtain ⟨id, fresh, t₁, ids', hask, hrest, -⟩ := askAll_cons_eq_some h
    exact ih (ht.ask hask) hrest

theorem askAll_subset {floor : Int} {t t' : Table κ} {keys : List κ} {ids : List Int}
    (h : t.askAll floor keys = some (ids, t')) : t.entries ⊆ t'.entries := by
  induction keys generalizing t ids with
  | nil =>
    obtain ⟨-, rfl⟩ := by simpa [askAll] using h
    exact List.Subset.refl _
  | cons key keys ih =>
    obtain ⟨id, fresh, t₁, ids', hask, hrest, -⟩ := askAll_cons_eq_some h
    exact List.Subset.trans (ask_subset hask) (ih hrest)

/-- Every number given is in the table with the key it was given for. -/
theorem askAll_mem {floor : Int} {t t' : Table κ} {keys : List κ} {ids : List Int}
    (h : t.askAll floor keys = some (ids, t')) :
    List.Forall₂ (fun key id => (key, id) ∈ t'.entries) keys ids := by
  induction keys generalizing t ids with
  | nil =>
    obtain ⟨rfl, -⟩ := by simpa [askAll] using h
    exact .nil
  | cons key keys ih =>
    obtain ⟨id, fresh, t₁, ids', hask, hrest, rfl⟩ := askAll_cons_eq_some h
    exact .cons (askAll_subset hrest (ask_mem hask)) (ih hrest)

end Table

end Interning
