import Mathlib.Data.Nat.ModEq
import Mathlib.Data.Set.Lattice
import Mathlib.Order.CompletePartialOrder
import Mathlib.Order.Interval.Set.Basic
import Mathlib.Tactic.Ring

/-!
# Bump arenas over byte ranges

What a bump allocator is for, without machine words: a range `[start, limit)` of bytes is handed
out from the bottom up, and everything handed out since the last reset stays below the mark
`next`. An `Arena` carries the proofs of that as fields, so an arena whose live grants overlap
cannot be built; an allocator that simulates one inherits the disjointness.
-/

namespace ByteRange

/-! ## Rounding up -/

/-- The least multiple of `alignment` that is at least `n`. Alignments `0` and `1` ask for
nothing. -/
def roundUp (n alignment : Nat) : Nat :=
  if alignment ≤ 1 then n
  else if n % alignment = 0 then n
  else n + (alignment - n % alignment)

theorem le_roundUp (n a : Nat) : n ≤ roundUp n a := by
  unfold roundUp
  split
  · exact Nat.le_refl n
  · split
    · exact Nat.le_refl n
    · exact Nat.le_add_right _ _

theorem dvd_roundUp (n : Nat) {a : Nat} (ha : 0 < a) : a ∣ roundUp n a := by
  unfold roundUp
  split
  · next h1 =>
      have h : a = 1 := by omega
      rw [h]
      exact Nat.one_dvd n
  · split
    · next h0 => exact Nat.dvd_of_mod_eq_zero h0
    · have hlt : n % a < a := Nat.mod_lt n ha
      have hsplit : n + (a - n % a) = a * (n / a) + a := by
        have hdiv := Nat.div_add_mod n a
        omega
      rw [hsplit]
      exact Nat.dvd_add (Nat.dvd_mul_right a _) (Nat.dvd_refl a)

/-! ## Grants -/

/-- A byte range `[address, address + size)` that was handed out. -/
structure Grant where
  address : Nat
  size : Nat
  deriving Repr, DecidableEq

/-- One past the last byte. -/
def Grant.endAddress (g : Grant) : Nat := g.address + g.size

/-- The bytes of a grant. -/
def Grant.bytes (g : Grant) : Set Nat := Set.Ico g.address g.endAddress

/-- Ranges that follow each other share no byte. -/
theorem Grant.disjoint_of_le {g h : Grant} (hle : g.endAddress ≤ h.address) :
    Disjoint g.bytes h.bytes := by
  rw [Set.disjoint_left]
  intro b hg hh
  have h1 := hg.2
  have h2 := hh.1
  omega

/-! ## Arenas -/

/-- A range of bytes that is handed out from the bottom up. -/
structure Arena where
  start : Nat
  limit : Nat
  next : Nat
  live : List Grant
  start_le_next : start ≤ next
  le_address : ∀ g ∈ live, start ≤ g.address
  end_le_next : ∀ g ∈ live, g.endAddress ≤ next
  end_le_limit : ∀ g ∈ live, g.endAddress ≤ limit
  disjoint : live.Pairwise fun g h => Disjoint g.bytes h.bytes

namespace Arena

/-- Nothing is live, and the mark is anywhere above the start. -/
def empty (start limit next : Nat) (h : start ≤ next) : Arena where
  start := start
  limit := limit
  next := next
  live := []
  start_le_next := h
  le_address := by simp
  end_le_next := by simp
  end_le_limit := by simp
  disjoint := List.Pairwise.nil

/-- Everything handed out is given back. -/
def reset (A : Arena) : Arena := empty A.start A.limit A.start (Nat.le_refl _)

/-- Hand out `g`, which lies between the mark and the limit. -/
def grant (A : Arena) (g : Grant) (hlo : A.next ≤ g.address) (hhi : g.endAddress ≤ A.limit) :
    Arena where
  start := A.start
  limit := A.limit
  next := g.endAddress
  live := g :: A.live
  start_le_next :=
    Nat.le_trans A.start_le_next (Nat.le_trans hlo (Nat.le_add_right g.address g.size))
  le_address := by
    intro h hh
    rcases List.mem_cons.mp hh with rfl | hh
    · exact Nat.le_trans A.start_le_next hlo
    · exact A.le_address h hh
  end_le_next := by
    intro h hh
    rcases List.mem_cons.mp hh with rfl | hh
    · exact Nat.le_refl _
    · exact Nat.le_trans (A.end_le_next h hh)
        (Nat.le_trans hlo (Nat.le_add_right g.address g.size))
  end_le_limit := by
    intro h hh
    rcases List.mem_cons.mp hh with rfl | hh
    · exact hhi
    · exact A.end_le_limit h hh
  disjoint := by
    refine List.Pairwise.cons ?_ A.disjoint
    intro h hh
    exact (Grant.disjoint_of_le (Nat.le_trans (A.end_le_next h hh) hlo)).symm

@[simp] theorem reset_start (A : Arena) : A.reset.start = A.start := rfl
@[simp] theorem reset_limit (A : Arena) : A.reset.limit = A.limit := rfl
@[simp] theorem reset_next (A : Arena) : A.reset.next = A.start := rfl
@[simp] theorem reset_live (A : Arena) : A.reset.live = [] := rfl

end Arena

end ByteRange
