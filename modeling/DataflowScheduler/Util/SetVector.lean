import Mathlib.Data.List.Nodup

/-!
# Sets in insertion order

A list that an element is appended to unless it is there already.
-/

theorem List.eq_singleton_of_nodup {α : Type} {l : List α} {a : α} (h : l.Nodup) (ha : a ∈ l)
    (hall : ∀ b ∈ l, b = a) : l = [a] := by
  match l, h, ha, hall with
  | [b], _, _, hall => rw [hall b List.mem_cons_self]
  | b :: c :: l, h, _, hall =>
      have hb := hall b List.mem_cons_self
      have hc := hall c (List.mem_cons_of_mem _ List.mem_cons_self)
      rw [List.nodup_cons, hb, hc] at h
      exact absurd List.mem_cons_self h.1

namespace SetVector

variable {α : Type} [DecidableEq α]

def insert (l : List α) (a : α) : List α := if a ∈ l then l else l ++ [a]

/-- Insert elements one after the other. -/
def insertAll (l m : List α) : List α := m.foldl insert l

/-- The elements of a list, each where it occurs first. -/
def ofList (m : List α) : List α := insertAll [] m

@[simp] theorem mem_insert {l : List α} {a b : α} : b ∈ insert l a ↔ b ∈ l ∨ b = a := by
  unfold insert
  split
  · next ha =>
      constructor
      · exact .inl
      · rintro (hb | rfl)
        · exact hb
        · exact ha
  · rw [List.mem_append, List.mem_singleton]

@[simp] theorem mem_insertAll {l m : List α} {b : α} : b ∈ insertAll l m ↔ b ∈ l ∨ b ∈ m := by
  induction m generalizing l with
  | nil => simp [insertAll]
  | cons a m ih =>
      show b ∈ insertAll (insert l a) m ↔ _
      rw [ih, mem_insert, List.mem_cons, or_assoc]

@[simp] theorem mem_ofList {m : List α} {b : α} : b ∈ ofList m ↔ b ∈ m := by
  rw [ofList, mem_insertAll, or_iff_right List.not_mem_nil]

theorem nodup_insert {l : List α} (h : l.Nodup) (a : α) : (insert l a).Nodup := by
  unfold insert
  split
  · exact h
  · next ha => exact List.nodup_append_comm.mp (List.nodup_cons.mpr ⟨ha, h⟩)

theorem nodup_insertAll {l : List α} (h : l.Nodup) (m : List α) : (insertAll l m).Nodup := by
  induction m generalizing l with
  | nil => exact h
  | cons a m ih => exact ih (nodup_insert h a)

theorem nodup_ofList (m : List α) : (ofList m).Nodup := nodup_insertAll List.nodup_nil m

/-- Nothing is inserted twice. -/
theorem insertAll_of_subset {l m : List α} (h : ∀ a ∈ m, a ∈ l) : insertAll l m = l := by
  induction m with
  | nil => rfl
  | cons a m ih =>
      show insertAll (insert l a) m = l
      rw [insert, if_pos (h a List.mem_cons_self)]
      exact ih fun b hb => h b (List.mem_cons_of_mem _ hb)

theorem insertAll_of_nodup {l m : List α} (h : (l ++ m).Nodup) : insertAll l m = l ++ m := by
  induction m generalizing l with
  | nil => rw [List.append_nil]; rfl
  | cons a m ih =>
      show insertAll (insert l a) m = _
      have ha : a ∉ l := fun ha => (List.nodup_append.mp h).2.2 a ha a List.mem_cons_self rfl
      rw [insert, if_neg ha, ih (by rwa [List.append_assoc]), List.append_assoc]
      rfl

theorem ofList_of_nodup {m : List α} (h : m.Nodup) : ofList m = m := insertAll_of_nodup h

end SetVector
