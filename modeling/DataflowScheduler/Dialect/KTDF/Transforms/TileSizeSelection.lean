import Mathlib.Data.List.Basic
import Mathlib.Data.Int.Basic

/-!
# Selection of tile sizes

A `tiling.reserve_size` stands for a tile size that is not chosen yet. The loops that are tiled with it
have the rounded-up quotient of their total size by the tile size as upper bound. The search for a tile
size goes down from a fixed cap, or from the minimum where that is larger, to the minimum.
-/

namespace DataflowScheduler

namespace TileSizeSelection

abbrev Value := Nat

abbrev LoopId := Nat

/-- An op that uses a value. -/
inductive User
  | ceilDivUI (lhs rhs result : Value)
  | forOp (loop : LoopId) (upperBound : Value)
  | other

/-- The users of each value, and the values that are constants. -/
structure Uses where
  getUsers : Value → List User
  getConstantIntValue : Value → Option Int

structure TilingReserveSizeOp where
  result : Value
  minValue : Int
  divisibility : Int

/-- A loop with the total size that the tile size has to divide. -/
structure AssociatedLoopInfo where
  loop : LoopId
  totalSize : Int

structure TileSizeInfo where
  reserveSizeOp : TilingReserveSizeOp
  associatedLoops : List AssociatedLoopInfo

def kMaxCandidateTileSize : Int := 2

/-- The loops that have a value as their upper bound. -/
def boundedLoops (uses : Uses) (bound : Value) : List LoopId :=
  (uses.getUsers bound).filterMap fun
    | .forOp loop upperBound => if upperBound = bound then some loop else none
    | _ => none

/-- What one user of the tile size adds, or why it is not resolved. -/
def visitUser (uses : Uses) (value : Value) : User → Except String (List AssociatedLoopInfo)
  | .ceilDivUI lhs rhs result =>
      if rhs ≠ value then
        .error "tile size used as dividend (LHS) in ceildivui, expected divisor (RHS)"
      else
        match uses.getConstantIntValue lhs with
        | none => .error "non-constant total size in arith.ceildivui"
        | some totalSize => .ok ((boundedLoops uses result).map fun loop => ⟨loop, totalSize⟩)
  | _ => .ok []

/-- `collectAssociatedLoops`: the loops, and the reasons that are logged. -/
def collectAssociatedLoops (uses : Uses) (value : Value) :
    List AssociatedLoopInfo × List String :=
  let visited := (uses.getUsers value).map (visitUser uses value)
  (visited.flatMap fun
    | .ok loops => loops
    | .error _ => [],
  visited.filterMap fun
    | .ok _ => none
    | .error reason => some reason)

/-- What is known about one `tiling.reserve_size`. -/
def analyze (uses : Uses) (op : TilingReserveSizeOp) : TileSizeInfo :=
  ⟨op, (collectAssociatedLoops uses op.result).1⟩

inductive TileSizeValidity
  | validForAllLoops
  | invalidForThisTileSize
  deriving DecidableEq

def evaluateCandidateTileSize (info : TileSizeInfo) (candidate : Int) : TileSizeValidity :=
  if info.associatedLoops.all fun loop => loop.totalSize.tmod candidate == 0 then .validForAllLoops
  else .invalidForThisTileSize

/-- What `chooseTileSize` ends in. -/
inductive TileSizeChoice
  | chosen (size : Int)
  | unresolved (reason : String)
  | unreachable (message : String)
  deriving DecidableEq

/-- The candidates, from the largest one down. -/
def candidates (minValue : Int) : List Int :=
  let startCandidate := max kMaxCandidateTileSize minValue
  (List.range (startCandidate - minValue + 1).toNat).map fun i : Nat => startCandidate - (i : Int)

/-- Whether the search stops at a candidate. -/
def accepts (info : TileSizeInfo) (candidate : Int) : Bool :=
  let divisibility := info.reserveSizeOp.divisibility
  !(divisibility > 1 && candidate.tmod divisibility != 0) &&
    evaluateCandidateTileSize info candidate = .validForAllLoops

def chooseTileSize (info : TileSizeInfo) : TileSizeChoice :=
  if info.associatedLoops = [] then
    .unresolved "no associated loops found via ceildivui pattern"
  else
    match (candidates info.reserveSizeOp.minValue).find? (accepts info) with
    | some candidate => .chosen candidate
    | none => .unreachable "unresolved tile size"

/-! ## The search -/

theorem mem_candidates {minValue candidate : Int} :
    candidate ∈ candidates minValue ↔
      minValue ≤ candidate ∧ candidate ≤ max kMaxCandidateTileSize minValue := by
  rw [candidates, List.mem_map]
  constructor
  · rintro ⟨i, hi, rfl⟩
    rw [List.mem_range] at hi
    omega
  · rintro ⟨hmin, hmax⟩
    refine ⟨(max kMaxCandidateTileSize minValue - candidate).toNat, ?_, by omega⟩
    rw [List.mem_range]
    omega

/-- The divisibility and every total size allow for a tile size. -/
def Fits (info : TileSizeInfo) (size : Int) : Prop :=
  info.reserveSizeOp.divisibility ∣ size ∧ ∀ loop ∈ info.associatedLoops, size ∣ loop.totalSize

theorem evaluateCandidateTileSize_eq_iff {info : TileSizeInfo} {candidate : Int} :
    evaluateCandidateTileSize info candidate = .validForAllLoops ↔
      ∀ loop ∈ info.associatedLoops, candidate ∣ loop.totalSize := by
  have hall : (info.associatedLoops.all fun loop => loop.totalSize.tmod candidate == 0) = true ↔
      ∀ loop ∈ info.associatedLoops, candidate ∣ loop.totalSize := by
    rw [List.all_eq_true]
    apply forall₂_congr
    intro loop _
    rw [beq_iff_eq, Int.dvd_iff_tmod_eq_zero]
  rw [← hall, evaluateCandidateTileSize]
  split
  · next h => simp [h]
  · next h => simp [h]

theorem accepts_iff {info : TileSizeInfo} (hdiv : 1 ≤ info.reserveSizeOp.divisibility)
    {candidate : Int} : accepts info candidate = true ↔ Fits info candidate := by
  have hdivides : (!(decide (info.reserveSizeOp.divisibility > 1) &&
      candidate.tmod info.reserveSizeOp.divisibility != 0)) = true ↔
      info.reserveSizeOp.divisibility ∣ candidate := by
    rw [Int.dvd_iff_tmod_eq_zero]
    rcases Int.lt_or_eq_of_le hdiv with hlt | hone
    · simp [hlt]
    · rw [← hone]
      simp
  rw [accepts, Bool.and_eq_true, hdivides, decide_eq_true_iff, evaluateCandidateTileSize_eq_iff, Fits]

/-- The search finds a size between the minimum and the cap, if there is one. -/
theorem chooseTileSize_chosen {info : TileSizeInfo} {size : Int}
    (hdiv : 1 ≤ info.reserveSizeOp.divisibility) (h : chooseTileSize info = .chosen size) :
    info.reserveSizeOp.minValue ≤ size ∧
      size ≤ max kMaxCandidateTileSize info.reserveSizeOp.minValue ∧ Fits info size := by
  rw [chooseTileSize] at h
  split at h
  · cases h
  · split at h
    · next candidate hfind =>
      cases h
      obtain ⟨hmin, hmax⟩ := mem_candidates.mp (List.mem_of_find?_eq_some hfind)
      exact ⟨hmin, hmax, (accepts_iff hdiv).mp (List.find?_some hfind)⟩
    · cases h

theorem exists_chosen {info : TileSizeInfo} {size : Int}
    (hdiv : 1 ≤ info.reserveSizeOp.divisibility) (hloops : info.associatedLoops ≠ [])
    (hmin : info.reserveSizeOp.minValue ≤ size)
    (hmax : size ≤ max kMaxCandidateTileSize info.reserveSizeOp.minValue) (hfits : Fits info size) :
    ∃ size', chooseTileSize info = .chosen size' := by
  rw [chooseTileSize, if_neg hloops]
  cases hfind : (candidates info.reserveSizeOp.minValue).find? (accepts info) with
  | some candidate => exact ⟨candidate, rfl⟩
  | none =>
    have hnone := List.find?_eq_none.mp hfind size (mem_candidates.mpr ⟨hmin, hmax⟩)
    exact absurd ((accepts_iff hdiv).mpr hfits) hnone

/-- A tile size comes out exactly if the minimum is one, or if it is one and two is a tile size. -/
theorem chooseTileSize_chooses_iff (uses : Uses) (op : TilingReserveSizeOp)
    (hmin : 1 ≤ op.minValue) (hdiv : 1 ≤ op.divisibility)
    (hloops : (analyze uses op).associatedLoops ≠ []) :
    (∃ size, chooseTileSize (analyze uses op) = .chosen size ∧ op.minValue ≤ size ∧
      op.divisibility ∣ size ∧ ∀ loop ∈ (analyze uses op).associatedLoops, size ∣ loop.totalSize) ↔
      Fits (analyze uses op) op.minValue ∨ op.minValue = 1 ∧ Fits (analyze uses op) 2 := by
  constructor
  · rintro ⟨size, hchosen, -⟩
    obtain ⟨hle, hmax, hfits⟩ := chooseTileSize_chosen hdiv hchosen
    -- below the cap there is room for more than the minimum only if that is one
    have hsize : size = op.minValue ∨ op.minValue = 1 ∧ size = 2 := by
      change op.minValue ≤ size at hle
      change size ≤ max 2 op.minValue at hmax
      omega
    rcases hsize with rfl | ⟨hone, rfl⟩
    · exact Or.inl hfits
    · exact Or.inr ⟨hone, hfits⟩
  · intro h
    obtain ⟨size, hle, hmax, hfits⟩ : ∃ size, op.minValue ≤ size ∧
        size ≤ max kMaxCandidateTileSize op.minValue ∧ Fits (analyze uses op) size := by
      rcases h with hfits | ⟨hone, hfits⟩
      · exact ⟨op.minValue, Int.le_refl _, Int.le_max_right _ _, hfits⟩
      · exact ⟨2, by omega, Int.le_max_left _ _, hfits⟩
    obtain ⟨size', hchosen⟩ := exists_chosen hdiv hloops hle hmax hfits
    obtain ⟨hle', -, hfits'⟩ := chooseTileSize_chosen hdiv hchosen
    exact ⟨size', hchosen, hle', hfits'.1, hfits'.2⟩

/-- A loop of the given total size over tiles. -/
def tiledLoop (totalSize : Int) : Uses where
  getUsers value := if value = 0 then [.ceilDivUI 1 0 2] else if value = 2 then [.forOp 0 2] else []
  getConstantIntValue value := if value = 1 then some totalSize else none

/-- A loop of four iterations gets tiles of two. -/
theorem tiledLoop_chooses : ∃ size,
    chooseTileSize (analyze (tiledLoop 4) ⟨0, 1, 1⟩) = .chosen size ∧ 1 ≤ size ∧ 1 ∣ size ∧
      ∀ loop ∈ (analyze (tiledLoop 4) ⟨0, 1, 1⟩).associatedLoops, size ∣ loop.totalSize := by
  have hloops : (analyze (tiledLoop 4) ⟨0, 1, 1⟩).associatedLoops = [⟨0, 4⟩] := rfl
  apply (chooseTileSize_chooses_iff (tiledLoop 4) ⟨0, 1, 1⟩ (by decide) (by decide)
    (by simp [hloops])).mpr
  refine Or.inr ⟨rfl, by decide, ?_⟩
  rw [hloops]
  simp

/-- Tiles of three for a loop of three iterations are above the cap. -/
theorem tiledLoop_unreachable : (∃ size : Int, 1 ≤ size ∧ (3 : Int) ∣ size ∧
      ∀ loop ∈ (analyze (tiledLoop 3) ⟨0, 1, 3⟩).associatedLoops, size ∣ loop.totalSize) ∧
    (analyze (tiledLoop 3) ⟨0, 1, 3⟩).associatedLoops ≠ [] ∧
    chooseTileSize (analyze (tiledLoop 3) ⟨0, 1, 3⟩) = .unreachable "unresolved tile size" := by
  have hloops : (analyze (tiledLoop 3) ⟨0, 1, 3⟩).associatedLoops = [⟨0, 3⟩] := rfl
  refine ⟨⟨3, by decide, Int.dvd_refl _, ?_⟩, ?_, by decide⟩
  · rw [hloops]
    simp
  · rw [hloops]
    simp

end TileSizeSelection

end DataflowScheduler
