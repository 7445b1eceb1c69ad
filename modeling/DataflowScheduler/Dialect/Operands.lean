import DataflowScheduler.Util.Affine

/-!
# Index operands

Index values of a function and the mixed static and dynamic operands of operations on slices.
-/

namespace DataflowScheduler

namespace Operands

open Affine

/-- Index values, as far as the passes look at them. -/
inductive Value where
  | argument (number : Nat)
  | constant (value : Int)
  | binary (kind : BinaryKind) (lhs rhs : Value)
  deriving Repr, DecidableEq

def Value.eval (arguments : Nat → Int) : Value → Int
  | argument n => arguments n
  | constant k => k
  | binary kind l r => kind.apply (l.eval arguments) (r.eval arguments)

inductive Attribute where
  | integer (value : Int)
  | affineMap (map : Map)
  deriving Repr, DecidableEq

inductive OpFoldResult where
  | attr (a : Attribute)
  | value (v : Value)
  deriving Repr, DecidableEq

namespace OpFoldResult

/-- An integer attribute. -/
def index (k : Int) : OpFoldResult := attr (.integer k)

/-- The value of an operand. Affine maps are not operands. -/
def eval (arguments : Nat → Int) : OpFoldResult → Int
  | attr (.integer k) => k
  | attr (.affineMap _) => 0
  | value v => v.eval arguments

@[simp] theorem eval_index (arguments : Nat → Int) (k : Int) : (index k).eval arguments = k := rfl

@[simp] theorem eval_value (arguments : Nat → Int) (v : Value) :
    (value v).eval arguments = v.eval arguments := rfl

end OpFoldResult

def getConstantIntValue : OpFoldResult → Option Int
  | .attr (.integer k) => some k
  | .attr (.affineMap _) => none
  | .value (.constant k) => some k
  | .value _ => none

def getValueOrCreateConstantIndexOp : OpFoldResult → Value
  | .attr (.integer k) => .constant k
  | .attr (.affineMap _) => .constant 0
  | .value v => v

def isConstantIntValue (ofr : OpFoldResult) (value : Int) : Bool :=
  getConstantIntValue ofr == some value

theorem eval_of_getConstantIntValue {ofr : OpFoldResult} {k : Int}
    (h : getConstantIntValue ofr = some k) (arguments : Nat → Int) : ofr.eval arguments = k := by
  unfold getConstantIntValue at h
  split at h <;> cases h <;> rfl

theorem eval_of_isConstantIntValue {ofr : OpFoldResult} {k : Int}
    (h : isConstantIntValue ofr k) (arguments : Nat → Int) : ofr.eval arguments = k :=
  eval_of_getConstantIntValue (beq_iff_eq.mp h) arguments

theorem eval_getValueOrCreateConstantIndexOp (ofr : OpFoldResult) (arguments : Nat → Int) :
    (getValueOrCreateConstantIndexOp ofr).eval arguments = ofr.eval arguments := by
  rcases ofr with (k | m) | v <;> rfl

/-- An operation on operands that is folded where both are constants. -/
def foldedBinary (kind : BinaryKind) (lhs rhs : OpFoldResult) : OpFoldResult :=
  match getConstantIntValue lhs, getConstantIntValue rhs with
  | some l, some r => .index (kind.apply l r)
  | _, _ => .value (.binary kind (getValueOrCreateConstantIndexOp lhs)
      (getValueOrCreateConstantIndexOp rhs))

theorem eval_foldedBinary (kind : BinaryKind) (lhs rhs : OpFoldResult) (arguments : Nat → Int) :
    (foldedBinary kind lhs rhs).eval arguments =
      kind.apply (lhs.eval arguments) (rhs.eval arguments) := by
  unfold foldedBinary
  split
  · next hl hr =>
      rw [eval_of_getConstantIntValue hl, eval_of_getConstantIntValue hr]
      rfl
  · show kind.apply ((getValueOrCreateConstantIndexOp lhs).eval arguments)
      ((getValueOrCreateConstantIndexOp rhs).eval arguments) = _
    rw [eval_getValueOrCreateConstantIndexOp, eval_getValueOrCreateConstantIndexOp]

end Operands

end DataflowScheduler
