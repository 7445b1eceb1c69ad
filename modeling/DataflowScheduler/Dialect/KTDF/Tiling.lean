import Mathlib.Data.BitVec

/-!
# Tiles of a loop

What the ops `ktdf.tiling.derive_size` and `ktdf.tiling.linearize_index` compute. A tile index and a
tile size stand for one level of a tiling, outermost level first.
-/

namespace DataflowScheduler

namespace Tiling

/-- How often `scf.for %iv = 0 to bound step 1` runs. -/
def extent (bound : BitVec 64) : Nat := bound.toInt.toNat

theorem extent_lt (bound : BitVec 64) : extent bound < 2 ^ 63 := by
  have h := bound.toInt_lt
  unfold extent
  omega

theorem extent_ofNat {n : Nat} (h : n < 2 ^ 63) : extent (BitVec.ofNat 64 n) = n := by
  have hint : (BitVec.ofNat 64 n).toInt = n := by
    rw [BitVec.toInt_ofNat', Int.bmod_eq_of_le] <;> omega
  rw [extent, hint, Int.toNat_natCast]

/-- The points of the current tile, clipped to each enclosing tile and to the total size. -/
def clippedSize : List (Nat × Nat) → Nat → Nat
  | [], total => total
  | (iv, tileSize) :: tiles, total => clippedSize tiles (min tileSize (total - iv * tileSize))

theorem clippedSize_append (tiles : List (Nat × Nat)) (iv tileSize total : Nat) :
    clippedSize (tiles ++ [(iv, tileSize)]) total =
      min tileSize (clippedSize tiles total - iv * tileSize) := by
  induction tiles generalizing total with
  | nil => rfl
  | cons tile tiles ih => exact ih _

theorem clippedSize_le (tiles : List (Nat × Nat)) (total : Nat) :
    clippedSize tiles total ≤ total := by
  induction tiles generalizing total with
  | nil => exact Nat.le_refl _
  | cons tile tiles ih =>
      apply Nat.le_trans (ih _)
      omega

theorem clippedSize_le_last {tiles : List (Nat × Nat)} {tile : Nat × Nat} (total : Nat)
    (h : tiles.getLast? = some tile) : clippedSize tiles total ≤ tile.2 := by
  obtain ⟨outer, rfl⟩ := List.getLast?_eq_some_iff.mp h
  rw [clippedSize_append]
  exact Nat.min_le_left _ _

/-- `ktdf.tiling.derive_size` of tile indices and tile sizes. -/
def deriveSize (tiles : List (BitVec 64 × BitVec 64)) (totalSize : BitVec 64) : BitVec 64 :=
  BitVec.ofNat 64
    (clippedSize (tiles.map fun tile => (extent tile.1, extent tile.2)) (extent totalSize))

theorem extent_deriveSize (tiles : List (BitVec 64 × BitVec 64)) (totalSize : BitVec 64) :
    extent (deriveSize tiles totalSize) =
      clippedSize (tiles.map fun tile => (extent tile.1, extent tile.2)) (extent totalSize) := by
  apply extent_ofNat
  exact Nat.lt_of_le_of_lt (clippedSize_le _ _) (extent_lt totalSize)

/-- A tile is no larger than its tile size. -/
theorem extent_deriveSize_le {tiles : List (BitVec 64 × BitVec 64)} {tile : BitVec 64 × BitVec 64}
    (totalSize : BitVec 64) (h : tiles.getLast? = some tile) :
    extent (deriveSize tiles totalSize) ≤ extent tile.2 := by
  rw [extent_deriveSize]
  refine clippedSize_le_last (extent totalSize) (?_ : _ = some (extent tile.1, extent tile.2))
  rw [List.getLast?_map, h, Option.map_some]

end Tiling

end DataflowScheduler
