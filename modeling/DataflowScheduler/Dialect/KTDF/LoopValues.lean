import Mathlib.Data.List.Basic

/-!
# Values of loop bounds

A bound of a loop is a constant, an induction variable or the result of an operation on induction
variables. From the bounds come the number of iterations and, for a loop over several instances, the
block of each.
-/

namespace KTDF

abbrev OpId := Nat

/-- A value over the induction variables `ν`. A result depends on those its operation uses. -/
inductive Value (ν : Type) where
  | const (c : Int)
  | inductionVar (v : ν)
  | result (op : OpId) (uses : List ν)
  deriving Repr, DecidableEq

variable {ν : Type}

/-- The values of the induction variables in scope. -/
abbrev Env (ν : Type) := ν → Option Int

def Env.bind [DecidableEq ν] (env : Env ν) (v : ν) (x : Int) : Env ν :=
  fun w => if w = v then some x else env w

/-- What an operation computes from the induction variables it uses. -/
abbrev Interp := OpId → List Int → Int

def evalValue (interp : Interp) (env : Env ν) : Value ν → Option Int
  | .const c => some c
  | .inductionVar v => env v
  | .result op uses => (uses.mapM env).map (interp op)

/-- The number of iterations from `lower` to `upper`. -/
def tripCount (lower upper step : Int) : Nat := ((upper - lower + step - 1) / step).toNat

/-! ## Blocks -/

/-- The length of the blocks when `trip` iterations are cut into `n` of them. -/
def blockLength (trip n : Nat) : Nat := (trip + n - 1) / n

/-- The block of an iteration. -/
def blockOf (trip n k : Nat) : Nat := k / blockLength trip n

/-- The number of iterations in block `c`; the last blocks can be shorter. -/
def blockSize (trip n c : Nat) : Nat := min (blockLength trip n) (trip - c * blockLength trip n)

theorem trip_le_blocks {trip n : Nat} (hn : 0 < n) : trip ≤ n * blockLength trip n := by
  have hdiv := Nat.div_add_mod (trip + n - 1) n
  have hmod := Nat.mod_lt (trip + n - 1) hn
  unfold blockLength
  omega

/-- The blocks have numbers below the number of blocks. -/
theorem blockOf_lt {trip n k : Nat} (hk : k < trip) (hn : 0 < n) : blockOf trip n k < n := by
  apply Nat.div_lt_of_lt_mul
  rw [Nat.mul_comm]
  exact Nat.lt_of_lt_of_le hk (trip_le_blocks hn)

end KTDF
