import Mathlib.Data.List.Basic
import DataflowScheduler.Util.Affine
import DataflowScheduler.Util.LoopNest
import DataflowScheduler.Dialect.KTDF.Tiling

/-!
# Expansion of private buffers

When loops are sunk into the stages of a pipeline, a buffer that depends on the loops gets one
dimension for each of them, to the left of its own. Here are the sizes of the new dimensions, the
clone of the allocation, and the clone of the transfers, whose indices are extended by the iteration
of each loop. Values are the SSA values of the function, and an environment gives their values where
the loops run.
-/

namespace DataflowScheduler

namespace BufferExpansion

abbrev Value := Nat

abbrev Env := Value → BitVec 64

/-- What defines a value. Block arguments and the results of all other ops are `other`. -/
inductive DefiningOp where
  | constantIndex (value : BitVec 64)
  | deriveSize (tiles : List (Value × Value)) (totalSize : Value)
  | other
  deriving Repr, DecidableEq

abbrev Definitions := Value → DefiningOp

/-- An environment has the values that the definitions compute. -/
structure Definitions.HoldIn (defs : Definitions) (env : Env) : Prop where
  constantIndex : ∀ v c, defs v = .constantIndex c → env v = c
  deriveSize : ∀ v tiles totalSize, defs v = .deriveSize tiles totalSize →
    env v = Tiling.deriveSize (tiles.map fun tile => (env tile.1, env tile.2)) (env totalSize)

/-- A size that is an attribute or a value. -/
inductive OpFoldResult where
  | attr (size : Int)
  | value (v : Value)
  deriving Repr, DecidableEq

/-- `scf.for`, as far as it is looked at. -/
structure ForOp where
  inductionVar : Value
  lowerBound : Value
  upperBound : Value
  step : Value
  deriving Repr, DecidableEq

def getConstantIndex (defs : Definitions) (v : Value) : Option (BitVec 64) :=
  match defs v with
  | .constantIndex c => some c
  | _ => none

/-- `computeLoopSize`. `none` is a failed assertion: the bounds are not constant and the loop is not
normalized, or `derive_size` has no tile. -/
def computeLoopSize (defs : Definitions) (loop : ForOp) : Option OpFoldResult :=
  match getConstantIndex defs loop.lowerBound, getConstantIndex defs loop.upperBound,
    getConstantIndex defs loop.step with
  | some lower, some upper, some step =>
      some (.attr ((upper - lower + step - 1).sdiv step).toInt)
  | lower, _, step =>
      if lower = some 0 ∧ step = some 1 then
        match defs loop.upperBound with
        | .deriveSize tiles _ => tiles.getLast?.map fun tile => .value tile.2
        | _ => some (.value loop.upperBound)
      else none

/-- How a buffer is expanded, one entry a loop, in the order of the nest. -/
structure BufferExpansionInfo where
  buffer : Value
  loopIvs : List Value
  loopLowerBounds : List Value
  loopSteps : List Value
  sizes : List OpFoldResult
  deriving Repr, DecidableEq

/-- The loops of a nest that a buffer depends on. -/
def dependentLoops (loopNest : List ForOp) (dependentIvs : List Value) : List ForOp :=
  loopNest.filter fun loop => loop.inductionVar ∈ dependentIvs

/-- `calculateExpansionInfo` for one buffer. -/
def calculateExpansionInfo (defs : Definitions) (buffer : Value) (dependentIvs : List Value)
    (loopNest : List ForOp) : Option BufferExpansionInfo := do
  let loops := dependentLoops loopNest dependentIvs
  let sizes ← loops.mapM (computeLoopSize defs)
  some ⟨buffer, loops.map ForOp.inductionVar, loops.map ForOp.lowerBound, loops.map ForOp.step,
    sizes⟩

/-- `IRMapping`: the clones made so far. -/
abbrev IRMapping := Value → Option Value

/-- The clone of a value, or the value itself. -/
def IRMapping.lookupOrDefault (valueMap : IRMapping) (v : Value) : Value := (valueMap v).getD v

/-! ## Allocations -/

/-- `ShapedType::kDynamic`. -/
def kDynamic : Int := -2 ^ 63

def isDynamic (dim : Int) : Bool := dim == kDynamic

structure MemRefType where
  shape : List Int
  elementType : Nat
  /-- The layout map, if it is not the identity. -/
  layout : Option Affine.Map
  memorySpace : Nat
  deriving Repr, DecidableEq

/-- `memref.alloc`: its type and the sizes of its dynamic dimensions. -/
structure AllocOp where
  type : MemRefType
  dynamicSizes : List Value
  deriving Repr, DecidableEq

/-- A `ktdf.private_yield`: its operands, and the results of the `ktdf.private` around it. -/
structure PrivateYieldOp where
  operands : List Value
  privateResults : List Value
  deriving Repr, DecidableEq

/-- `buffer_to_info_`: the last info of a buffer is the one that is found. -/
def bufferToInfo (infos : List BufferExpansionInfo) (buffer : Value) : Option BufferExpansionInfo :=
  infos.reverse.find? fun info => info.buffer == buffer

/-- The result of the `ktdf.private` that yields the buffer, where that result is expanded. -/
def findYieldedInfo (infos : List BufferExpansionInfo) (result : Value)
    (yieldOp : PrivateYieldOp) : Option BufferExpansionInfo :=
  (yieldOp.operands.zip yieldOp.privateResults).findSome? fun e =>
    if e.1 = result then bufferToInfo infos e.2 else none

/-- How the buffer of an allocation is expanded. `yieldOps` are the yields among its users. -/
def findInfo (infos : List BufferExpansionInfo) (result : Value) (yieldOps : List PrivateYieldOp) :
    Option BufferExpansionInfo :=
  match bufferToInfo infos result with
  | some info => some info
  | none => yieldOps.findSome? (findYieldedInfo infos result)

/-- The dimension of a size. -/
def OpFoldResult.toDim : OpFoldResult → Int
  | attr size => size
  | value _ => kDynamic

/-- The operand of a size. -/
def OpFoldResult.toOperand (valueMap : IRMapping) : OpFoldResult → Option Value
  | attr _ => none
  | value v => some (valueMap.lookupOrDefault v)

/-- The inner loop over the original dimensions: a size operand for each that is dynamic. -/
def pushDynamicSizes (valueMap : IRMapping) (dynamicSizes : List Value) :
    Nat → List Int → List Value
  | _, [] => []
  | dynamicIdx, origDim :: shape =>
      if !isDynamic origDim then pushDynamicSizes valueMap dynamicSizes dynamicIdx shape
      else
        match dynamicSizes[dynamicIdx]? with
        | some origSize => valueMap.lookupOrDefault origSize ::
            pushDynamicSizes valueMap dynamicSizes (dynamicIdx + 1) shape
        | none => pushDynamicSizes valueMap dynamicSizes (dynamicIdx + 1) shape

/-- The size operands that the loop over the original dimensions adds. The inner loop does not stop
at the dimension that the outer loop is at. -/
def originalSizes (valueMap : IRMapping) (allocOp : AllocOp) : List Value :=
  allocOp.type.shape.flatMap fun dim =>
    if !isDynamic dim then []
    else pushDynamicSizes valueMap allocOp.dynamicSizes 0 allocOp.type.shape

/-- The allocation of an expanded buffer. -/
def expandAlloc (info : BufferExpansionInfo) (valueMap : IRMapping) (allocOp : AllocOp) : AllocOp where
  type :=
    { allocOp.type with
      shape := info.sizes.map OpFoldResult.toDim ++ allocOp.type.shape
      layout := none }
  dynamicSizes :=
    info.sizes.filterMap (OpFoldResult.toOperand valueMap) ++ originalSizes valueMap allocOp

/-- `StageCoarseningBufferCloner::cloneAllocOp`. `none` is the null pointer: no expansion needed. -/
def cloneAllocOp (infos : List BufferExpansionInfo) (result : Value)
    (yieldOps : List PrivateYieldOp) (allocOp : AllocOp) (valueMap : IRMapping) : Option AllocOp :=
  (findInfo infos result yieldOps).map fun info => expandAlloc info valueMap allocOp

/-! ## Transfers -/

/-- An index: `(iv - lower) / step`, or a value. -/
inductive Index where
  | normalized (iv lower step : Value)
  | value (v : Value)
  deriving Repr, DecidableEq

def Index.eval (env : Env) : Index → BitVec 64
  | normalized iv lower step => (env iv - env lower).sdiv (env step)
  | value v => env v

/-- `computeExpandedIndices`. -/
def computeExpandedIndices (valueMap : IRMapping) (info : BufferExpansionInfo) : List Index :=
  (info.loopIvs.zip (info.loopLowerBounds.zip info.loopSteps)).map fun e =>
    .normalized (valueMap.lookupOrDefault e.1) (valueMap.lookupOrDefault e.2.1)
      (valueMap.lookupOrDefault e.2.2)

/-- `prependIdentityDims`. -/
def prependIdentityDims (original : Affine.Map) (n : Nat) : Affine.Map :=
  if n = 0 then original
  else
    ⟨original.numDims + n, 0, (List.range n).map Affine.Expr.dim ++
      original.results.map (Affine.Expr.replaceDims .plain
        ((List.range original.numDims).map fun p => .dim (p + n)))⟩

/-- One side of a `ktdf.data_transfer`. FIFO slots have no map. -/
structure TransferSide where
  buffer : Value
  map : Option Affine.Map
  indices : List Index
  sizes : List OpFoldResult
  deriving Repr, DecidableEq

structure DataTransferOp where
  source : TransferSide
  dest : TransferSide
  transferMode : Nat
  attrs : List (String × Nat)
  deriving Repr, DecidableEq

/-- How the buffer of a transfer is expanded: the last info whose buffer it is. -/
def findTransferInfo (infos : List BufferExpansionInfo) (valueMap : IRMapping) (buffer : Value) :
    Option BufferExpansionInfo :=
  infos.reverse.find? fun info => valueMap.lookupOrDefault info.buffer == buffer

def Index.rename (valueMap : IRMapping) : Index → Index
  | normalized iv lower step => .normalized iv lower step
  | value v => .value (valueMap.lookupOrDefault v)

/-- One side of the clone: indices, map and sizes grow together. -/
def expandSide (info : Option BufferExpansionInfo) (valueMap : IRMapping) (buffer : Value)
    (side : TransferSide) : TransferSide :=
  let expanded := (info.map (computeExpandedIndices valueMap)).getD []
  let prepend := (info.map fun info => info.loopIvs.length).getD 0
  { buffer
    map := side.map.map fun original => prependIdentityDims original prepend
    indices := expanded ++ side.indices.map (Index.rename valueMap)
    sizes := List.replicate prepend (.attr 1) ++ side.sizes }

/-- `StageCoarseningBufferCloner::cloneDataTransfer`. `none` is the null pointer. -/
def cloneDataTransfer (infos : List BufferExpansionInfo) (transferOp : DataTransferOp)
    (valueMap : IRMapping) : Option DataTransferOp :=
  let src := valueMap.lookupOrDefault transferOp.source.buffer
  let dst := valueMap.lookupOrDefault transferOp.dest.buffer
  let srcInfo := findTransferInfo infos valueMap src
  let dstInfo := findTransferInfo infos valueMap dst
  if srcInfo.isNone && dstInfo.isNone then none
  else
    some ⟨expandSide srcInfo valueMap src transferOp.source,
      expandSide dstInfo valueMap dst transferOp.dest, transferOp.transferMode, transferOp.attrs⟩

end BufferExpansion

end DataflowScheduler
