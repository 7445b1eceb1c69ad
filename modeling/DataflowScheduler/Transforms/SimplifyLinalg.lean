import DataflowScheduler.Util.Affine
import DataflowScheduler.Util.RowMajor
import DataflowScheduler.Util.Structured

/-!
# Slicing the operands of structured operations

Three patterns make the operands of a `linalg.generic` smaller. `ShrinkOperands` takes the slices
that are accessed, as far as bounds on the indices tell, `NormalizeStrides` the elements that a
strided access can reach, and `DemoteInitToInput` reads an init that is yielded unchanged as an input.

An operand is given dimension by dimension: the extent in its type, the result of the indexing map
that indexes it, and how many elements there are at run time. The patterns see the first two only.
-/

namespace DataflowScheduler

namespace SimplifyLinalg

open Affine Structured

/-! ## What MLIR's affine libraries compute -/

/-- A dimension in the type of an operand, `none` for a dynamic extent, and the result of the
indexing map for it. -/
structure DimType where
  extent : Option Nat
  index : Expr
  deriving Repr, DecidableEq

/-- The value of an expression without symbols. -/
abbrev valueAt (dims : Nat → Int) (e : Expr) : Int := e.eval dims fun _ => 0

/-- The index is in the part of the dimension that the type tells of. -/
def DimType.Admits (d : DimType) (dims : Nat → Int) : Prop :=
  0 ≤ valueAt dims d.index ∧ ∀ n, d.extent = some n → valueAt dims d.index < n

/-- The dimensions are in loop ranges, where these are static. -/
def InRanges (loopRanges : List (Option Nat)) (dims : Nat → Int) : Prop :=
  ∀ loop < loopRanges.length, 0 ≤ dims loop ∧
    ∀ n, loopRanges.getD loop none = some n → dims loop < n

/-- An expression as a sum: coefficients of the dimensions and of the local variables that stand for
divisions, and a constant. -/
structure FlatExpr where
  coefficients : List Int
  constant : Int
  deriving Repr, DecidableEq

namespace FlatExpr

def eval (f : FlatExpr) (values : List Int) : Int :=
  (List.zipWith (· * ·) f.coefficients values).foldl (· + ·) f.constant

/-- The gcd of all coefficients. -/
def stride (f : FlatExpr) : Nat :=
  f.coefficients.foldl (fun stride coeff => Nat.gcd stride coeff.natAbs) 0

end FlatExpr

/-- `(expr - offset).floorDiv(stride)` -/
def rebase (expr : Expr) (offset stride : Int) : Expr :=
  .binary .floorDiv (.binary .add expr (.constant (-offset))) (.constant stride)

/-- Bounds for the indices of an operand when the loops are in their ranges and all its indices are
in bounds. -/
structure ConstantBounds (loopRanges : List (Option Nat)) (types : List DimType)
    (bounds : List (Option Int × Option Int)) : Prop where
  length : bounds.length = types.length
  valid : ∀ dims, InRanges loopRanges dims → (∀ d ∈ types, d.Admits dims) →
    ∀ d b, (d, b) ∈ types.zip bounds →
      (∀ lb, b.1 = some lb → lb ≤ valueAt dims d.index) ∧
        ∀ ub, b.2 = some ub → valueAt dims d.index ≤ ub
  /-- The bounds are no wider than those that are given. -/
  given : ∀ d lb ub, (d, (some lb, some ub)) ∈ types.zip bounds →
    0 ≤ lb ∧ lb ≤ ub + 1 ∧ ∀ n, d.extent = some n → ub < n

/-- What is used of MLIR's affine and Presburger libraries. -/
structure AffineLibrary where
  /-- Constructors of expressions fold on the way, this is part of it. -/
  simplifyAffineExpr : Nat → Expr → Expr
  getFlattenedAffineExpr : Nat → Expr → Option FlatExpr
  /-- The lower and the upper bound of each index, `none` if there is no relation or it is empty. -/
  getConstantBounds : List (Option Nat) → List DimType → Option (List (Option Int × Option Int))
  eval_simplify : ∀ numDims expr dims symbols,
    (simplifyAffineExpr numDims expr).eval dims symbols = expr.eval dims symbols
  simplify_dim : ∀ numDims loop, simplifyAffineExpr numDims (rebase (.dim loop) 0 1) = .dim loop
  eval_flattened : ∀ numDims expr flat, getFlattenedAffineExpr numDims expr = some flat →
    ∀ dims, ∃ values, valueAt dims expr = flat.eval values
  /-- An exact division divides the coefficients. -/
  stride_rebased : ∀ numDims expr flat, getFlattenedAffineExpr numDims expr = some flat →
    ∀ offset, (flat.stride : Int) ∣ flat.constant - offset → ∀ rebased,
      getFlattenedAffineExpr numDims
        (simplifyAffineExpr numDims (rebase expr offset flat.stride)) = some rebased →
      rebased.stride * flat.stride = flat.stride
  constantBounds : ∀ loopRanges types bounds, getConstantBounds loopRanges types = some bounds →
    ConstantBounds loopRanges types bounds

/-! ## `linalg.generic` -/

/-- A dimension of an operand, with its size at run time. -/
structure Dim extends DimType where
  size : Nat
  deriving Repr, DecidableEq

structure Operand (α : Type) where
  dims : List Dim
  get : Index → α

/-- Values in the body: block arguments for inputs and inits, and results of operations. -/
inductive BodyValue where
  | input (position : Nat)
  | init (position : Nat)
  | result (position : Nat)
  deriving Repr, DecidableEq

/-- What an operation computes may depend on the point of the iteration space. -/
structure BodyOp (α : Type) where
  operands : List BodyValue
  compute : List Nat → List α → α

structure Body (α : Type) where
  ops : List (BodyOp α)
  yields : List BodyValue

structure Generic (α : Type) where
  numLoops : Nat
  inputs : List (Operand α)
  inits : List (Operand α)
  body : Body α

/-- The values of the loops at a point. -/
def loopsAt (p : List Nat) : Nat → Int := fun loop => (p.getD loop 0 : Nat)

namespace Operand

variable {α : Type} (o : Operand α)

def types : List DimType := o.dims.map Dim.toDimType

def tensor : Tensor α := ⟨o.dims.map Dim.size, o.get⟩

def indexAt (p : List Nat) : Index := o.dims.map fun d => valueAt (loopsAt p) d.index

def read (p : List Nat) : α := o.get (o.indexAt p)

end Operand

namespace Body

variable {α : Type} [Inhabited α]

def read (ins inits : Nat → α) (computed : List α) : BodyValue → α
  | .input i => ins i
  | .init j => inits j
  | .result k => computed.getD k default

/-- The results of the operations of the body. -/
def computed (ops : List (BodyOp α)) (p : List Nat) (ins inits : Nat → α) : List α :=
  ops.foldl (fun computed op =>
    computed ++ [op.compute p (op.operands.map (read ins inits computed))]) []

/-- What is yielded for each init. -/
def eval (b : Body α) (p : List Nat) (ins inits : Nat → α) (j : Nat) : α :=
  read ins inits (computed b.ops p ins inits) (b.yields.getD j (.init j))

end Body

def Body.values {α : Type} (b : Body α) : List BodyValue :=
  b.ops.flatMap BodyOp.operands ++ b.yields

namespace Generic

variable {α : Type} (g : Generic α)

def operands : List (Operand α) := g.inputs ++ g.inits

def dims : List Dim := g.operands.flatMap Operand.dims

/-- The dimension that a loop range is inferred from: the first that the loop accesses plainly. -/
def rangeDim (loop : Nat) : Option Dim := g.dims.find? fun d => d.index = .dim loop

/-- `getStaticLoopRanges` -/
def staticLoopRanges : List (Option Nat) :=
  (List.range g.numLoops).map fun loop => (g.rangeDim loop).bind fun d => d.extent

/-- The loop ranges at run time. -/
def loopRanges : List Nat :=
  (List.range g.numLoops).map fun loop => (g.rangeDim loop).elim 0 Dim.size

/-- The iteration space. -/
def points : List (List Nat) := RowMajor.points g.loopRanges

variable [Inhabited α]

def kernel : Kernel (List Nat) Nat Index α where
  index p j := (g.inits[j]?).elim [] fun o => o.indexAt p
  value p := g.body.eval p fun i => (g.inputs[i]?).elim default fun o => o.read p

/-- What the outputs hold before the loops. -/
def initial (j : Nat) : Index → α := (g.inits[j]?).elim (fun _ => default) Operand.get

/-- The results, each in the shape of its init. -/
def result (j : Nat) : Tensor α where
  shape := (g.inits[j]?).elim [] fun o => o.tensor.shape
  get := g.kernel.run g.points g.initial j

end Generic

/-! ## Slices -/

/-- Static strided slice of a single operand dimension. -/
structure DimSlice where
  offset : Int
  size : Int
  stride : Int
  deriving Repr, DecidableEq

/-- For each dimension its slice and the index into it, or `none` for the whole dimension. -/
abbrev OperandSlice := List (Option (DimSlice × Expr))

/-- Loop ranges are inferred from plain dimension accesses. -/
def changesRange (loopRanges : List (Option Nat)) (dim : DimSlice) : Expr → Bool
  | .dim loop => (loopRanges.getD loop none).map Int.ofNat ≠ some dim.size
  | _ => false

section Slices

variable (lib : AffineLibrary) (loopRanges : List (Option Nat))

/-- The slice of a dimension, if it takes a part of it and leaves the loop ranges as they are. -/
def keepSlice (d : DimType) (dim : DimSlice) : Option (DimSlice × Expr) :=
  if dim.offset = 0 ∧ dim.stride = 1 ∧ d.extent.map Int.ofNat = some dim.size then none
  else
    let rebased := lib.simplifyAffineExpr loopRanges.length (rebase d.index dim.offset dim.stride)
    if changesRange loopRanges dim rebased then none else some (dim, rebased)

def sliceDims (types : List DimType) (slices : List (Option DimSlice)) : Option OperandSlice :=
  let slice := (types.zip slices).map fun d => d.2.bind (keepSlice lib loopRanges d.1)
  if slice.any Option.isSome then some slice else none

def boundedSlice : Option Int × Option Int → Option DimSlice
  | (some lb, some ub) => some ⟨lb, ub - lb + 1, 1⟩
  | _ => none

def isConstant : Expr → Bool
  | .constant _ => true
  | _ => false

def computeAccessedSlice (types : List DimType) : Option OperandSlice :=
  if types.all fun d => isConstant d.index then none
  else (lib.getConstantBounds loopRanges types).bind fun bounds =>
    sliceDims lib loopRanges types (bounds.map boundedSlice)

def stridedSlice (d : DimType) : Option DimSlice :=
  d.extent.bind fun extent =>
    (lib.getFlattenedAffineExpr loopRanges.length d.index).bind fun flat =>
      let stride := flat.stride
      if stride ≤ 1 then none
      else
        let offset := flat.constant % stride
        if offset ≥ extent then none
        else some ⟨offset, BinaryKind.ceilDiv.apply (extent - offset) stride, stride⟩

def computeStridedSlice (types : List DimType) : Option OperandSlice :=
  sliceDims lib loopRanges types (types.map (stridedSlice lib loopRanges))

end Slices

/-! ## The patterns -/

/-- What a pattern makes of an operation: the operation it leaves, what the users of a result get
instead, and whether all slices that are taken exist at run time. -/
structure Rewritten (α : Type) where
  generic : Generic α
  replace : Nat → Tensor α → Tensor α
  fits : Bool

def materialize (d : Dim) : Option (DimSlice × Expr) → Range
  | none => ⟨0, d.size, 1⟩
  | some (dim, _) => ⟨dim.offset, dim.size.toNat, dim.stride⟩

def slicedDim (d : Dim) : Option (DimSlice × Expr) → Dim
  | none => d
  | some (dim, rebased) => ⟨⟨some dim.size.toNat, rebased⟩, dim.size.toNat⟩

namespace Operand

variable {α : Type} (o : Operand α) (slice : OperandSlice)

def ranges : List Range := (o.dims.zip slice).map fun d => materialize d.1 d.2

def extract : Operand α where
  dims := (o.dims.zip slice).map fun d => slicedDim d.1 d.2
  get := (o.tensor.extract (o.ranges slice)).get

/-- All ranges of the slice are in their dimensions. -/
def fits : Bool := (o.dims.zip slice).all fun d => (materialize d.1 d.2).Fits d.1.size

end Operand

section Patterns

variable {α : Type}

def sliceOperands (computeSlice : List DimType → Option OperandSlice) (g : Generic α) :
    Option (Rewritten α) :=
  let sliceOf (o : Operand α) := computeSlice o.types
  if g.operands.any fun o => (sliceOf o).isSome then
    let sliced (o : Operand α) := (sliceOf o).elim o o.extract
    some
      { generic := ⟨g.numLoops, g.inputs.map sliced, g.inits.map sliced, g.body⟩
        replace := fun j result => (g.inits[j]?).elim result fun init =>
          (sliceOf init).elim result fun slice => init.tensor.insert (init.ranges slice) result
        fits := g.operands.all fun o => (sliceOf o).elim true o.fits }
  else none

def replaceUse (old new : BodyValue) (v : BodyValue) : BodyValue := if v = old then new else v

def Body.replaceAllUsesWith (b : Body α) (old new : BodyValue) : Body α where
  ops := b.ops.map fun op => ⟨op.operands.map (replaceUse old new), op.compute⟩
  yields := b.yields.map (replaceUse old new)

def isUnchanged (g : Generic α) (j : Nat) : Bool := g.body.yields[j]? = some (.init j)

/-- Move one init to the inputs. The new init is an empty tensor, with whatever it contains. -/
def demote (contents : Nat → Index → α) (g : Generic α) (j : Nat) (init : Operand α) :
    Rewritten α where
  generic :=
    { numLoops := g.numLoops
      inputs := g.inputs ++ [init]
      inits := g.inits.set j ⟨init.dims, contents j⟩
      body := g.body.replaceAllUsesWith (.init j) (.input g.inputs.length) }
  replace := fun i result => if i = j then init.tensor else result
  fits := true

/-- Nothing is done. -/
def unchanged (g : Generic α) : Rewritten α := ⟨g, fun _ result => result, true⟩

def demoteInit (contents : Nat → Index → α) (g : Generic α) (j : Nat) : Rewritten α :=
  if isUnchanged g j then (g.inits[j]?).elim (unchanged g) (demote contents g j) else unchanged g

/-- One rewrite after the other: the later one is seen by the users that the earlier one made. -/
def Rewritten.andThen (r : Rewritten α) (next : Generic α → Rewritten α) : Rewritten α where
  generic := (next r.generic).generic
  replace := fun j result => r.replace j ((next r.generic).replace j result)
  fits := r.fits && (next r.generic).fits

def demoteInitToInput (contents : Nat → Index → α) (g : Generic α) : Option (Rewritten α) :=
  if (List.range g.inits.length).any (isUnchanged g) then
    some ((List.range g.inits.length).foldl
      (fun r j => r.andThen fun g => demoteInit contents g j) (unchanged g))
  else none

/-- The patterns, the last one with what its empty tensors happen to contain. -/
inductive Pattern (α : Type) where
  | shrinkOperands
  | normalizeStrides
  | demoteInitToInput (contents : Nat → Index → α)

def matchAndRewrite (lib : AffineLibrary) (g : Generic α) : Pattern α → Option (Rewritten α)
  | .shrinkOperands => sliceOperands (computeAccessedSlice lib g.staticLoopRanges) g
  | .normalizeStrides => sliceOperands (computeStridedSlice lib g.staticLoopRanges) g
  | .demoteInitToInput contents => demoteInitToInput contents g

/-- Patterns that match one after the other. -/
def rewriteAll (lib : AffineLibrary) (g : Generic α) : List (Pattern α) → Option (Rewritten α)
  | [] => some (unchanged g)
  | pattern :: patterns =>
      (matchAndRewrite lib g pattern).bind fun r =>
        (rewriteAll lib r.generic patterns).map fun next => r.andThen fun _ => next

end Patterns

end SimplifyLinalg

end DataflowScheduler
