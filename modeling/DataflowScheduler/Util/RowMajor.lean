import Mathlib.Algebra.BigOperators.Group.List.Basic
import Mathlib.Algebra.Ring.Nat
import Mathlib.Data.List.InsertIdx
import Mathlib.Data.List.Nodup
import Mathlib.Data.List.ProdSigma

/-!
# Boxes of indices in row-major order

The indices of a multi-dimensional box, the last dimension varying fastest, as one list. The `k`-th
of them is what a tensor, a tile or a loop nest of these extents means by its element number `k`.
-/

namespace RowMajor

/-- The indices below `sizes`, in row-major order. -/
def points : List Nat → List (List Nat)
  | [] => [[]]
  | s :: rest => (List.range s).flatMap fun i => (points rest).map (i :: ·)

/-! ### What the list holds -/

@[simp] theorem points_nil : points [] = [[]] := rfl

theorem points_cons (s : Nat) (rest : List Nat) :
    points (s :: rest) = (List.range s).flatMap fun i => (points rest).map (i :: ·) := rfl

theorem points_singleton (n : Nat) : points [n] = (List.range n).map ([·]) :=
  List.flatMap_pure_eq_map _ _

theorem mem_points {p sizes : List Nat} :
    p ∈ points sizes ↔ List.Forall₂ (· < ·) p sizes := by
  induction sizes generalizing p with
  | nil => simp
  | cons s rest ih =>
    simp only [points_cons, List.mem_flatMap, List.mem_range, List.mem_map]
    constructor
    · rintro ⟨i, hi, q, hq, rfl⟩
      exact .cons hi (ih.1 hq)
    · intro h
      cases h with
      | cons hi hq => exact ⟨_, hi, _, ih.2 hq, rfl⟩

@[simp] theorem cons_mem_points {i s : Nat} {p rest : List Nat} :
    i :: p ∈ points (s :: rest) ↔ i < s ∧ p ∈ points rest := by
  simp [mem_points]

theorem length_of_mem_points {p sizes : List Nat} (h : p ∈ points sizes) :
    p.length = sizes.length :=
  (mem_points.1 h).length_eq

@[simp] theorem length_points (sizes : List Nat) : (points sizes).length = sizes.prod := by
  induction sizes with
  | nil => rfl
  | cons s rest ih =>
    rw [points_cons, List.length_flatMap, List.prod_cons]
    simp only [List.length_map, ih, List.map_const', List.length_range]
    exact List.sum_replicate_nat

theorem nodup_points (sizes : List Nat) : (points sizes).Nodup := by
  induction sizes with
  | nil => simp
  | cons s rest ih =>
    rw [points_cons, List.nodup_flatMap]
    constructor
    · intro i _
      exact ih.map fun a b h => (List.cons.inj h).2
    · apply List.nodup_range.imp
      intro i j hij p hi hj
      obtain ⟨_, _, rfl⟩ := List.mem_map.1 hi
      obtain ⟨_, _, h⟩ := List.mem_map.1 hj
      exact hij (List.cons.inj h).1.symm

/-- The box has a point exactly if no side of it is empty. -/
theorem points_ne_nil {sizes : List Nat} : points sizes ≠ [] ↔ ∀ s ∈ sizes, 0 < s := by
  rw [← List.length_pos_iff, length_points]
  induction sizes with
  | nil => simp
  | cons s rest ih =>
    rw [List.prod_cons, List.forall_mem_cons, ← ih]
    exact ⟨fun h => ⟨Nat.pos_of_mul_pos_right h, Nat.pos_of_mul_pos_left h⟩,
      fun h => Nat.mul_pos h.1 h.2⟩

/-! ### Unit dimensions and the innermost dimension -/

theorem points_replicate_one (n : Nat) (sizes : List Nat) :
    points (List.replicate n 1 ++ sizes) = (points sizes).map (List.replicate n 0 ++ ·) := by
  induction n with
  | zero => simp
  | succ n ih => simp [List.replicate_succ, points_cons, ih]

/-- A box that is one row: its points differ in the innermost index only. -/
theorem points_row (n k : Nat) :
    points (List.replicate n 1 ++ [k]) = (List.range k).map fun l => List.replicate n 0 ++ [l] := by
  rw [points_replicate_one, points_singleton, List.map_map]
  rfl

/-- A range of `m * n` numbers is `m` windows of `n`. -/
theorem range_mul (m n : Nat) :
    List.range (m * n) = (List.range m).flatMap fun i => (List.range n).map (n * i + ·) := by
  induction m with
  | zero => simp
  | succ m ih => simp [Nat.succ_mul, List.range_add, List.range_succ, ih, Nat.mul_comm n m]

/-- The points of a box are rows, one for each point of the outer box. -/
theorem points_append_singleton (sizes : List Nat) (n : Nat) :
    points (sizes ++ [n]) = (points sizes).flatMap fun p => (List.range n).map fun i => p ++ [i] := by
  induction sizes with
  | nil => simp [points_singleton]
  | cons s rest ih =>
    rw [List.cons_append, points_cons, points_cons, ih, List.flatMap_assoc]
    congr 1
    funext i
    rw [List.map_flatMap, List.flatMap_map]
    simp only [List.map_map, Function.comp_def, List.cons_append]

/-- The element of a row in lists of rows of the same length. -/
theorem getElem?_flatMap_of_length {α β : Type} {f : α → List β} {n : Nat} {l : List α}
    (h : ∀ a ∈ l, (f a).length = n) {a b : Nat} (hb : b < n) :
    (l.flatMap f)[a * n + b]? = l[a]?.bind fun x => (f x)[b]? := by
  induction l generalizing a with
  | nil => simp
  | cons x l ih =>
    have hx : (f x).length = n := h x List.mem_cons_self
    rw [List.flatMap_cons]
    cases a with
    | zero => rw [Nat.zero_mul, Nat.zero_add, List.getElem?_append_left (by omega)]; rfl
    | succ a =>
      have hge : (f x).length ≤ (a + 1) * n + b := by rw [hx, Nat.succ_mul]; omega
      rw [List.getElem?_append_right hge, hx, Nat.succ_mul,
        show a * n + n + b - n = a * n + b by omega, List.getElem?_cons_succ]
      exact ih fun y hy => h y (List.mem_cons_of_mem _ hy)

/-- An element of a row: the point of the row, and the index in it. -/
theorem getD_points_append {sizes : List Nat} {n a b : Nat} (ha : a < sizes.prod) (hb : b < n) :
    (points (sizes ++ [n])).getD (a * n + b) [] = (points sizes).getD a [] ++ [b] := by
  have hlt : a < (points sizes).length := by rwa [length_points]
  rw [points_append_singleton, List.getD_eq_getElem?_getD, getElem?_flatMap_of_length (by simp) hb,
    List.getElem?_eq_getElem hlt, Option.bind_some, List.getElem?_map, List.getElem?_range hb,
    List.getD_eq_getElem?_getD, List.getElem?_eq_getElem hlt]
  rfl

/-- A point is a point of the box without dimension `i`, with an index of that dimension put in. -/
theorem mem_points_iff_insertIdx {sizes p : List Nat} {i : Nat} (hi : i < sizes.length) :
    p ∈ points sizes ↔
      ∃ x < sizes[i], ∃ q ∈ points (sizes.eraseIdx i), p = q.insertIdx i x := by
  induction sizes generalizing p i with
  | nil => simp at hi
  | cons s rest ih =>
    cases i with
    | zero => simp [points_cons, eq_comm]
    | succ i =>
      have hi' : i < rest.length := by simpa using hi
      simp only [points_cons, List.mem_flatMap, List.mem_range, List.mem_map, List.eraseIdx_cons_succ,
        List.getElem_cons_succ]
      constructor
      · rintro ⟨y, hy, r, hr, rfl⟩
        obtain ⟨x, hx, q, hq, rfl⟩ := (ih hi').1 hr
        exact ⟨x, hx, y :: q, ⟨y, hy, q, hq, rfl⟩, rfl⟩
      · rintro ⟨x, hx, _, ⟨y, hy, q, hq, rfl⟩, rfl⟩
        exact ⟨y, hy, q.insertIdx i x, (ih hi').2 ⟨x, hx, q, hq, rfl⟩, rfl⟩

end RowMajor
