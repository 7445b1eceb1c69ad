import Mathlib.Algebra.Order.Group.Unbundled.Int
import Mathlib.Data.Int.Init
import Mathlib.Logic.Function.Basic

/-!
# Affine expressions

Expressions over numbered dimensions and symbols, and maps of several of them. A compiler does not
build an expression as it is written but through constructors that fold on the way; a `Builder` is
such a family of constructors together with the one law that matters, that folding keeps the value.
-/

namespace Affine

/-- The binary operators. -/
inductive BinaryKind where
  | add
  | mul
  | mod
  | floorDiv
  | ceilDiv
  deriving Repr, DecidableEq

def BinaryKind.apply : BinaryKind → Int → Int → Int
  | .add, a, b => a + b
  | .mul, a, b => a * b
  | .mod, a, b => a % b
  | .floorDiv, a, b => a.fdiv b
  | .ceilDiv, a, b => -((-a).fdiv b)

inductive Expr where
  | dim (position : Nat)
  | symbol (position : Nat)
  | constant (value : Int)
  | binary (kind : BinaryKind) (lhs rhs : Expr)
  deriving Repr, DecidableEq

namespace Expr

/-- The value of an expression at values of its dimensions and symbols. -/
def eval (dims symbols : Nat → Int) : Expr → Int
  | dim p => dims p
  | symbol p => symbols p
  | constant c => c
  | binary k l r => k.apply (l.eval dims symbols) (r.eval dims symbols)

/-- Whether a dimension occurs in the expression. -/
def isFunctionOfDim (position : Nat) : Expr → Bool
  | dim p => p == position
  | symbol _ => false
  | constant _ => false
  | binary _ l r => l.isFunctionOfDim position || r.isFunctionOfDim position

@[simp] theorem eval_dim (dims symbols : Nat → Int) (p : Nat) :
    (dim p).eval dims symbols = dims p := rfl

@[simp] theorem eval_constant (dims symbols : Nat → Int) (c : Int) :
    (constant c).eval dims symbols = c := rfl

end Expr

/-- Folding constructors of binary expressions. -/
structure Builder where
  binary : BinaryKind → Expr → Expr → Expr
  eval_binary : ∀ kind lhs rhs dims symbols, (binary kind lhs rhs).eval dims symbols =
    kind.apply (lhs.eval dims symbols) (rhs.eval dims symbols)

namespace Builder

/-- The builder that folds nothing. -/
def plain : Builder where
  binary := .binary
  eval_binary := fun _ _ _ _ _ => rfl

/-- The builder that drops a zero summand and folds nothing else. -/
def dropZero : Builder where
  binary
    | .add, .constant 0, r => r
    | .add, l, .constant 0 => l
    | k, l, r => .binary k l r
  eval_binary := by
    intro kind lhs rhs dims symbols
    split
    · simp [BinaryKind.apply]
    · simp [BinaryKind.apply]
    · rfl

end Builder

namespace Expr

/-- Put expressions in place of the first dimensions. What does not change is not rebuilt. -/
def replaceDims (b : Builder) (replacements : List Expr) : Expr → Expr
  | dim p => (replacements[p]?).getD (dim p)
  | symbol p => symbol p
  | constant c => constant c
  | binary k l r =>
      let newLhs := l.replaceDims b replacements
      let newRhs := r.replaceDims b replacements
      if newLhs = l ∧ newRhs = r then binary k l r else b.binary k newLhs newRhs

/-- The value of a dimension after a replacement. -/
def replacedDim (replacements : List Expr) (dims symbols : Nat → Int) (p : Nat) : Int :=
  ((replacements[p]?).getD (dim p)).eval dims symbols

/-- Replacing dimensions is evaluating at the values of the replacements. -/
theorem eval_replaceDims (b : Builder) (replacements : List Expr) (dims symbols : Nat → Int)
    (e : Expr) : (e.replaceDims b replacements).eval dims symbols =
      e.eval (replacedDim replacements dims symbols) symbols := by
  induction e with
  | dim p => rfl
  | symbol p => rfl
  | constant c => rfl
  | binary k l r ihl ihr =>
      have hvalue : k.apply ((l.replaceDims b replacements).eval dims symbols)
          ((r.replaceDims b replacements).eval dims symbols) =
            (binary k l r).eval (replacedDim replacements dims symbols) symbols := by
        rw [ihl, ihr]
        rfl
      simp only [replaceDims]
      split
      · next h =>
          rw [← hvalue, h.1, h.2]
          rfl
      · rw [b.eval_binary, hvalue]

/-- An expression that does not mention a dimension has the same value whatever that dimension is. -/
theorem eval_congr {dims dims' symbols : Nat → Int} {e : Expr}
    (h : ∀ p, e.isFunctionOfDim p → dims p = dims' p) :
    e.eval dims symbols = e.eval dims' symbols := by
  induction e with
  | dim p => exact h p (by simp [isFunctionOfDim])
  | symbol p => rfl
  | constant c => rfl
  | binary k l r ihl ihr =>
      have hl := ihl fun p hp => h p (by simp [isFunctionOfDim, hp])
      have hr := ihr fun p hp => h p (by simp [isFunctionOfDim, hp])
      simp only [eval, hl, hr]

end Expr

/-- An affine map: its inputs and what it computes of them. -/
structure Map where
  numDims : Nat
  numSymbols : Nat
  results : List Expr
  deriving Repr, DecidableEq

namespace Map

/-- The values of a map's results. -/
def eval (m : Map) (dims symbols : Nat → Int) : List Int :=
  m.results.map fun e => e.eval dims symbols

/-- The map of `n` dimensions onto themselves. -/
def identity (n : Nat) : Map := ⟨n, 0, (List.range n).map Expr.dim⟩

end Map

end Affine
