import Mathlib.Algebra.BigOperators.Group.List.Lemmas
import Mathlib.Tactic.Ring
import DataflowScheduler.Util.RowMajor

/-!
# The digits of a row-major number

The index that stands at a position of a row-major enumeration, one digit a dimension, and when a
dimension of one box has the same digits as a dimension of another: the two are walked in the same
rhythm exactly if as many elements follow one step along the one as along the other.
-/

namespace RowMajor

/-- The number of elements that one step along a dimension passes. -/
def step (sizes : List Nat) (d : Nat) : Nat := (sizes.drop (d + 1)).prod

/-- The index at a position. -/
def digits : List Nat → Nat → List Nat
  | [], _ => []
  | _ :: rest, p => p / rest.prod :: digits rest (p % rest.prod)

@[simp] theorem step_cons_zero (s : Nat) (rest : List Nat) : step (s :: rest) 0 = rest.prod := rfl

@[simp] theorem step_cons_succ (s : Nat) (rest : List Nat) (d : Nat) :
    step (s :: rest) (d + 1) = step rest d := rfl

@[simp] theorem length_digits (sizes : List Nat) (p : Nat) :
    (digits sizes p).length = sizes.length := by
  induction sizes generalizing p with
  | nil => rfl
  | cons s rest ih => simp [digits, ih]

/-- **The points of a box are the digits of the positions.** -/
theorem points_eq_map_digits (sizes : List Nat) :
    points sizes = (List.range sizes.prod).map (digits sizes) := by
  induction sizes with
  | nil => rfl
  | cons s rest ih =>
      rw [points_cons, List.prod_cons, range_mul, List.map_flatMap, ih]
      congr 1
      funext i
      rw [List.map_map, List.map_map]
      apply List.map_congr_left
      intro x hx
      have hx : x < rest.prod := List.mem_range.mp hx
      have hdiv : (rest.prod * i + x) / rest.prod = i := by
        rw [Nat.mul_add_div (by omega), Nat.div_eq_of_lt hx, Nat.add_zero]
      have hmod : (rest.prod * i + x) % rest.prod = x := by
        rw [Nat.mul_add_mod, Nat.mod_eq_of_lt hx]
      show i :: digits rest x = digits (s :: rest) (rest.prod * i + x)
      rw [digits, hdiv, hmod]

/-- All elements are passed in `s` steps, once for each index of the dimensions before. -/
theorem step_mul_dvd {sizes : List Nat} {d s : Nat} (h : sizes[d]? = some s) :
    step sizes d * s ∣ sizes.prod := by
  induction sizes generalizing d with
  | nil => cases h
  | cons s' rest ih =>
      cases d with
      | zero =>
          obtain rfl : s' = s := by simpa using h
          rw [step_cons_zero, List.prod_cons, Nat.mul_comm]
      | succ d =>
          rw [step_cons_succ, List.prod_cons]
          exact Nat.dvd_mul_left_of_dvd (ih (by simpa using h)) _

theorem getElem?_digits {sizes : List Nat} {p d s : Nat} (hp : p < sizes.prod)
    (h : sizes[d]? = some s) : (digits sizes p)[d]? = some (p / step sizes d % s) := by
  induction sizes generalizing d p with
  | nil => cases h
  | cons s' rest ih =>
      rw [List.prod_cons] at hp
      have hrest : 0 < rest.prod := Nat.pos_of_mul_pos_left (Nat.zero_lt_of_lt hp)
      cases d with
      | zero =>
          obtain rfl : s' = s := by simpa using h
          rw [step_cons_zero, Nat.mod_eq_of_lt ((Nat.div_lt_iff_lt_mul hrest).mpr hp)]
          rfl
      | succ d =>
          have hd : rest[d]? = some s := by simpa using h
          rw [step_cons_succ, digits, List.getElem?_cons_succ, ih (Nat.mod_lt p hrest) hd]
          obtain ⟨c, hc⟩ := step_mul_dvd hd
          -- What the dimensions before contribute is a multiple of the step and the size.
          have hdigit : p % rest.prod / step rest d % s = p / step rest d % s := by
            rw [hc, Nat.mul_assoc, Nat.mod_mul_right_div_self, Nat.mod_mul_right_mod]
          rw [hdigit]

/-! ### The position of an index -/

/-- The position at which an index stands. -/
def number (sizes index : List Nat) : Nat :=
  (sizes.zip index).foldl (fun n d => n * d.1 + d.2) 0

theorem foldl_zip_eq {sizes index : List Nat} (hlen : index.length = sizes.length) (n : Nat) :
    (sizes.zip index).foldl (fun n d => n * d.1 + d.2) n = n * sizes.prod + number sizes index := by
  induction sizes generalizing index n with
  | nil => simp [number]
  | cons s rest ih =>
      cases index with
      | nil => simp at hlen
      | cons i index =>
          have hlen : index.length = rest.length := by simpa using hlen
          rw [number, List.zip_cons_cons, List.foldl_cons, List.foldl_cons, ih hlen, ih hlen,
            List.prod_cons]
          ring

theorem number_cons {s i : Nat} {rest index : List Nat} (hlen : index.length = rest.length) :
    number (s :: rest) (i :: index) = i * rest.prod + number rest index := by
  rw [number, List.zip_cons_cons, List.foldl_cons, foldl_zip_eq hlen]
  ring

theorem number_digits {sizes : List Nat} {p : Nat} (hp : p < sizes.prod) :
    number sizes (digits sizes p) = p := by
  induction sizes generalizing p with
  | nil =>
      have : p = 0 := by simpa using hp
      exact this.symm
  | cons s rest ih =>
      rw [List.prod_cons] at hp
      have hrest : 0 < rest.prod := Nat.pos_of_mul_pos_left (Nat.zero_lt_of_lt hp)
      rw [digits, number_cons (length_digits ..), ih (Nat.mod_lt p hrest), Nat.div_add_mod']

theorem number_lt {sizes index : List Nat} (h : index ∈ points sizes) :
    number sizes index < sizes.prod := by
  induction sizes generalizing index with
  | nil =>
      rw [points_nil, List.mem_singleton] at h
      subst h
      exact Nat.one_pos
  | cons s rest ih =>
      obtain ⟨i, hi, hrest⟩ := List.mem_flatMap.mp (points_cons s rest ▸ h)
      obtain ⟨q, hq, rfl⟩ := List.mem_map.mp hrest
      rw [number_cons (length_of_mem_points hq), List.prod_cons]
      have hle : (i + 1) * rest.prod ≤ s * rest.prod :=
        Nat.mul_le_mul_right _ (List.mem_range.mp hi)
      have := ih hq
      rw [Nat.succ_mul] at hle
      omega

/-- An index stands at one position only. -/
theorem digits_number {sizes index : List Nat} (h : index ∈ points sizes) :
    digits sizes (number sizes index) = index := by
  rw [points_eq_map_digits] at h
  obtain ⟨p, hp, rfl⟩ := List.mem_map.mp h
  rw [number_digits (List.mem_range.mp hp)]

/-- **Two dimensions of one size have the same digits** exactly if one step along the one passes as
many elements as one step along the other, or there is no step. -/
theorem forall_digit_iff {A B s N : Nat} (hs : 0 < s) (hA : A * s ∣ N) (hB : B * s ∣ N)
    (hN : 0 < N) : (∀ p < N, p / A % s = p / B % s) ↔ s = 1 ∨ A = B := by
  have hpos : 0 < A ∧ 0 < B :=
    ⟨Nat.pos_of_mul_pos_right (Nat.pos_of_dvd_of_pos hA hN),
      Nat.pos_of_mul_pos_right (Nat.pos_of_dvd_of_pos hB hN)⟩
  have hle : A * s ≤ N ∧ B * s ≤ N := ⟨Nat.le_of_dvd hN hA, Nat.le_of_dvd hN hB⟩
  constructor
  · intro h
    by_contra hne
    push Not at hne
    have hs : 2 ≤ s := by omega
    have hA2 : A * 2 ≤ N := (Nat.mul_le_mul_left A hs).trans hle.1
    have hB2 : B * 2 ≤ N := (Nat.mul_le_mul_left B hs).trans hle.2
    rcases Nat.lt_or_gt_of_ne hne.2 with hlt | hlt
    · have hdigit := h A (by omega)
      rw [Nat.div_self hpos.1, Nat.div_eq_of_lt hlt, Nat.zero_mod, Nat.mod_eq_of_lt (by omega)]
        at hdigit
      cases hdigit
    · have hdigit := h B (by omega)
      rw [Nat.div_self hpos.2, Nat.div_eq_of_lt hlt, Nat.zero_mod, Nat.mod_eq_of_lt (by omega)]
        at hdigit
      cases hdigit
  · rintro (rfl | rfl) p -
    · rw [Nat.mod_one, Nat.mod_one]
    · rfl

/-- The element of a strided box at an index. -/
def boxAt (offsets strides : List Int) (index : List Nat) : List Int :=
  List.zipWith (· + ·) offsets (List.zipWith (fun (i : Nat) t => (i : Int) * t) index strides)

/-- A strided box: its elements in row-major order. -/
def box (offsets : List Int) (sizes : List Nat) (strides : List Int) : List (List Int) :=
  (points sizes).map (boxAt offsets strides)

theorem getElem?_boxAt {offsets strides : List Int} {sizes : List Nat} {p d s : Nat} {o t : Int}
    (hp : p < sizes.prod) (ho : offsets[d]? = some o) (hs : sizes[d]? = some s)
    (ht : strides[d]? = some t) :
    (boxAt offsets strides (digits sizes p))[d]? =
      some (o + (p / step sizes d % s : Nat) * t) := by
  rw [boxAt, List.getElem?_zipWith, List.getElem?_zipWith, ho, getElem?_digits hp hs, ht]

theorem length_boxAt {offsets strides : List Int} {sizes : List Nat} {n : Nat}
    (ho : offsets.length = n) (hs : sizes.length = n) (ht : strides.length = n) (p : Nat) :
    (boxAt offsets strides (digits sizes p)).length = n := by
  simp [boxAt, ho, hs, ht]

/-- Two enumerations of as many elements are the same where they are position by position. -/
theorem map_points_eq_iff {α : Type} {sizes sizes' : List Nat} {f g : List Nat → α} :
    (points sizes).map f = (points sizes').map g ↔
      sizes.prod = sizes'.prod ∧
        ∀ p < sizes.prod, f (digits sizes p) = g (digits sizes' p) := by
  rw [points_eq_map_digits, points_eq_map_digits, List.map_map, List.map_map]
  constructor
  · intro h
    have hlen : sizes.prod = sizes'.prod := by simpa using congrArg List.length h
    refine ⟨hlen, fun p hp => ?_⟩
    rw [← hlen] at h
    exact List.map_inj_left.mp h p (List.mem_range.mpr hp)
  · rintro ⟨hlen, h⟩
    rw [← hlen]
    apply List.map_congr_left
    intro p hp
    exact h p (List.mem_range.mp hp)

end RowMajor
