import Mathlib.Data.List.Perm.Basic
import Mathlib.Tactic.Common

/-!
# Reductions

The total of a list under an operation that is associative and commutative, with a neutral element,
on some of the values of a type. A total does not depend on the order, and the totals of the parts
of a list total up to that of the list.
-/

namespace Reduction

variable {V : Type}

/-- The laws that `op` has on the values in `T`. -/
structure Accumulator (op : V → V → V) (neutral : V) (T : V → Prop) : Prop where
  neutral_mem : T neutral
  closed : ∀ a b, T a → T b → T (op a b)
  neutral_op : ∀ a, T a → op neutral a = a
  comm : ∀ a b, T a → T b → op a b = op b a
  assoc : ∀ a b c, T a → T b → T c → op (op a b) c = op a (op b c)

/-- All of `l`, one after the other, from `start` on. -/
def total (op : V → V → V) (start : V) (l : List V) : V := l.foldl op start

variable {op : V → V → V} {neutral : V} {T : V → Prop}

@[simp] theorem total_nil (start : V) : total op start [] = start := rfl

theorem total_mem (h : Accumulator op neutral T) {l : List V} (hl : ∀ a ∈ l, T a) {start : V}
    (hstart : T start) : T (total op start l) := by
  induction l generalizing start with
  | nil => exact hstart
  | cons a l ih =>
    apply ih
    · exact fun b hb => hl b (List.mem_cons_of_mem _ hb)
    · exact h.closed _ _ hstart (hl a List.mem_cons_self)

theorem total_start (h : Accumulator op neutral T) {l : List V} (hl : ∀ a ∈ l, T a) {start : V}
    (hstart : T start) : total op start l = op start (total op neutral l) := by
  induction l generalizing start with
  | nil =>
    show start = op start neutral
    rw [h.comm _ _ hstart h.neutral_mem, h.neutral_op _ hstart]
  | cons a l ih =>
    have ha := hl a List.mem_cons_self
    have hrest : ∀ b ∈ l, T b := fun b hb => hl b (List.mem_cons_of_mem _ hb)
    show total op (op start a) l = op start (total op (op neutral a) l)
    rw [ih hrest (h.closed _ _ hstart ha), h.neutral_op _ ha, ih hrest ha,
      h.assoc _ _ _ hstart ha (total_mem h hrest h.neutral_mem)]

theorem total_cons (h : Accumulator op neutral T) {a : V} {l : List V} (ha : T a)
    (hl : ∀ b ∈ l, T b) : total op neutral (a :: l) = op a (total op neutral l) := by
  show total op (op neutral a) l = _
  rw [h.neutral_op _ ha, total_start h hl ha]

theorem total_append (h : Accumulator op neutral T) {l l' : List V} (hl : ∀ a ∈ l, T a)
    (hl' : ∀ a ∈ l', T a) :
    total op neutral (l ++ l') = op (total op neutral l) (total op neutral l') := by
  rw [total, List.foldl_append]
  exact total_start h hl' (total_mem h hl h.neutral_mem)

theorem total_perm (h : Accumulator op neutral T) {l l' : List V} (hperm : l.Perm l')
    (hl : ∀ a ∈ l, T a) : total op neutral l = total op neutral l' := by
  induction hperm with
  | nil => rfl
  | @cons a l l' hperm ih =>
    have ha := hl a List.mem_cons_self
    have hrest : ∀ b ∈ l, T b := fun b hb => hl b (List.mem_cons_of_mem _ hb)
    rw [total_cons h ha hrest, total_cons h ha fun b hb => hrest b (hperm.mem_iff.2 hb), ih hrest]
  | swap a b l =>
    have hb := hl b List.mem_cons_self
    have ha := hl a (List.mem_cons_of_mem _ List.mem_cons_self)
    show total op (op (op neutral b) a) l = total op (op (op neutral a) b) l
    rw [h.neutral_op _ ha, h.neutral_op _ hb, h.comm _ _ ha hb]
  | trans hfirst _ ih ih' =>
    rw [ih hl, ih' fun a ha => hl a (hfirst.mem_iff.2 ha)]

/-- The total of the totals is the total of all. -/
theorem total_flatMap (h : Accumulator op neutral T) {α : Type} {f : α → List V} {l : List α}
    (hl : ∀ a ∈ l, ∀ b ∈ f a, T b) :
    total op neutral (l.flatMap f) = total op neutral (l.map fun a => total op neutral (f a)) := by
  induction l with
  | nil => rfl
  | cons a l ih =>
    have ha := hl a List.mem_cons_self
    have hrest : ∀ c ∈ l, ∀ b ∈ f c, T b := fun c hc => hl c (List.mem_cons_of_mem _ hc)
    have hparts : ∀ b ∈ l.map fun a => total op neutral (f a), T b := by
      intro b hb
      obtain ⟨c, hc, rfl⟩ := List.mem_map.1 hb
      exact total_mem h (hrest c hc) h.neutral_mem
    have hall : ∀ b ∈ l.flatMap f, T b := by
      intro b hb
      obtain ⟨c, hc, hb⟩ := List.mem_flatMap.1 hb
      exact hrest c hc b hb
    rw [List.flatMap_cons, total_append h ha hall, List.map_cons,
      total_cons h (total_mem h ha h.neutral_mem) hparts, ih hrest]

end Reduction
