import Mathlib.Tactic.Linarith
import Mathlib.Tactic.Ring
import DataflowScheduler.Util.RowMajor

/-!
# Strided boxes

The distance of an index from the start of a strided view, and how far the indices of a box reach
with given strides: where they all stay inside a row of `bound` elements.
-/

namespace Strides

open RowMajor

/-- The distance of an index from the first element. -/
def dot : List Nat → List Int → Int
  | i :: index, s :: strides => i * s + dot index strides
  | [], _ => 0
  | _ :: _, [] => 0

/-- The distance of the last index of a box with no empty side. -/
def reach : List Nat → List Int → Int
  | n :: shape, s :: strides => ((n : Int) - 1) * s + reach shape strides
  | [], _ => 0
  | _ :: _, [] => 0

/-- The distance of any subscripts from the first element. -/
def distance : List Int → List Int → Int
  | i :: subscripts, s :: strides => i * s + distance subscripts strides
  | [], _ => 0
  | _ :: _, [] => 0

/-- No side that is walked is walked backwards. -/
def Forward : List Nat → List Int → Prop
  | n :: shape, s :: strides => (2 ≤ n → 0 ≤ s) ∧ Forward shape strides
  | [], _ => True
  | _ :: _, [] => True

instance decidableForward : (shape : List Nat) → (strides : List Int) →
    Decidable (Forward shape strides)
  | n :: shape, s :: strides =>
      have := decidableForward shape strides
      inferInstanceAs (Decidable ((2 ≤ n → 0 ≤ s) ∧ Forward shape strides))
  | [], _ => isTrue trivial
  | _ :: _, [] => isTrue trivial

@[simp] theorem dot_nil (strides : List Int) : dot [] strides = 0 := by
  cases strides <;> rfl

@[simp] theorem dot_cons_nil (i : Nat) (index : List Nat) : dot (i :: index) [] = 0 := rfl

@[simp] theorem dot_cons (i : Nat) (index : List Nat) (s : Int) (strides : List Int) :
    dot (i :: index) (s :: strides) = i * s + dot index strides := rfl

@[simp] theorem distance_nil (strides : List Int) : distance [] strides = 0 := by
  cases strides <;> rfl

@[simp] theorem distance_cons_nil (i : Int) (subscripts : List Int) :
    distance (i :: subscripts) [] = 0 := rfl

@[simp] theorem distance_cons (i : Int) (subscripts : List Int) (s : Int) (strides : List Int) :
    distance (i :: subscripts) (s :: strides) = i * s + distance subscripts strides := rfl

/-- The first index of a box is at its start. -/
theorem dot_replicate_zero (n : Nat) (strides : List Int) : dot (List.replicate n 0) strides = 0 := by
  induction n generalizing strides with
  | zero => simp
  | succ n ih =>
    cases strides with
    | nil => rfl
    | cons s strides => simp [List.replicate_succ, ih]

theorem replicate_zero_mem_points {shape : List Nat} (h : ∀ n ∈ shape, 0 < n) :
    List.replicate shape.length 0 ∈ points shape := by
  induction shape with
  | nil => simp
  | cons n shape ih =>
    rw [List.forall_mem_cons] at h
    simp only [List.length_cons, List.replicate_succ, cons_mem_points]
    exact ⟨h.1, ih h.2⟩

theorem map_pred_mem_points {shape : List Nat} (h : ∀ n ∈ shape, 0 < n) :
    shape.map (· - 1) ∈ points shape := by
  induction shape with
  | nil => simp
  | cons n shape ih =>
    rw [List.forall_mem_cons] at h
    simp only [List.map_cons, cons_mem_points]
    exact ⟨by omega, ih h.2⟩

/-- The last index of a box is at its reach. -/
theorem dot_map_pred {shape : List Nat} (h : ∀ n ∈ shape, 0 < n) (strides : List Int) :
    dot (shape.map (· - 1)) strides = reach shape strides := by
  induction shape generalizing strides with
  | nil => cases strides <;> rfl
  | cons n shape ih =>
    rw [List.forall_mem_cons] at h
    cases strides with
    | nil => rfl
    | cons s strides =>
      have hn : ((n - 1 : Nat) : Int) = (n : Int) - 1 := by omega
      simp only [List.map_cons, dot_cons, reach, ih h.2, hn]

/-- Walked forward, a box lies between its first and its last index. -/
theorem dot_bounds {shape index : List Nat} {strides : List Int} (hf : Forward shape strides)
    (hp : index ∈ points shape) : 0 ≤ dot index strides ∧ dot index strides ≤ reach shape strides := by
  induction shape generalizing index strides with
  | nil =>
    obtain rfl : index = [] := by simpa using hp
    cases strides <;> exact ⟨le_refl _, le_refl _⟩
  | cons n shape ih =>
    cases index with
    | nil => simp [mem_points] at hp
    | cons i index =>
      rw [cons_mem_points] at hp
      cases strides with
      | nil => exact ⟨le_refl _, le_refl _⟩
      | cons s strides =>
        obtain ⟨hlo, hhi⟩ := ih hf.2 hp.2
        have hstep : 0 ≤ (i : Int) * s ∧ (i : Int) * s ≤ ((n : Int) - 1) * s := by
          by_cases hn : 2 ≤ n
          · have hs := hf.1 hn
            have hi : (i : Int) ≤ (n : Int) - 1 := by omega
            exact ⟨Int.mul_nonneg (by omega) hs, Int.mul_le_mul_of_nonneg_right hi hs⟩
          · have hi : i = 0 := by omega
            have hn1 : n = 1 := by omega
            subst hi hn1
            simp
        simp only [dot_cons, reach]
        omega

/-- A box that never gets below its start is walked forward. -/
theorem forward_of_nonneg {shape : List Nat} {strides : List Int} (h0 : ∀ n ∈ shape, 0 < n)
    (h : ∀ index ∈ points shape, 0 ≤ dot index strides) : Forward shape strides := by
  induction shape generalizing strides with
  | nil => cases strides <;> trivial
  | cons n shape ih =>
    rw [List.forall_mem_cons] at h0
    cases strides with
    | nil => trivial
    | cons s strides =>
      constructor
      · intro hn
        -- One step along this side, none along the others.
        have hmem : 1 :: List.replicate shape.length 0 ∈ points (n :: shape) :=
          cons_mem_points.2 ⟨by omega, replicate_zero_mem_points h0.2⟩
        have hdot := h _ hmem
        simpa [dot_replicate_zero] using hdot
      · apply ih h0.2
        intro index hindex
        have hdot := h (0 :: index) (cons_mem_points.2 ⟨h0.1, hindex⟩)
        simpa using hdot

/-- **A strided box stays inside a row of `bound` elements** if it is empty, or walked forward and
its last index is below the bound. -/
def Within (shape : List Nat) (strides : List Int) (bound : Nat) : Prop :=
  0 ∈ shape ∨ (Forward shape strides ∧ reach shape strides < bound)

instance (shape : List Nat) (strides : List Int) (bound : Nat) :
    Decidable (Within shape strides bound) :=
  inferInstanceAs (Decidable (_ ∨ (_ ∧ _)))

theorem forall_dot_iff (shape : List Nat) (strides : List Int) (bound : Nat) :
    (∀ index ∈ points shape, 0 ≤ dot index strides ∧ dot index strides < bound) ↔
      Within shape strides bound := by
  constructor
  · intro h
    by_cases h0 : 0 ∈ shape
    · exact Or.inl h0
    · have hpos : ∀ n ∈ shape, 0 < n := fun n hn => Nat.pos_of_ne_zero fun he => h0 (he ▸ hn)
      refine Or.inr ⟨forward_of_nonneg hpos fun index hindex => (h index hindex).1, ?_⟩
      rw [← dot_map_pred hpos]
      exact (h _ (map_pred_mem_points hpos)).2
  · rintro (h0 | ⟨hf, hlt⟩) index hindex
    · have hempty : points shape = [] := by
        by_contra hne
        exact absurd (points_ne_nil.1 hne 0 h0) (by omega)
      rw [hempty] at hindex
      cases hindex
    · obtain ⟨hlo, hhi⟩ := dot_bounds hf hindex
      exact ⟨hlo, by omega⟩

end Strides
