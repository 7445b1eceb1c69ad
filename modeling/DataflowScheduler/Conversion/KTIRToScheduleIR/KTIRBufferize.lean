import DataflowScheduler.Dialect.Operands
import DataflowScheduler.Util.Digits
import DataflowScheduler.Util.Except

/-!
# Bufferizing indirect accesses

A load or store of an indirect access tile becomes an indirect transfer between a tensor and a box of
the base: the entry of the address buffer is picked by one variable, and every subscript of the base is
taken apart into what the captured variables contribute and at most one variable of the tile, which
walks that dimension. The dimensions no variable walks are single elements.
-/

namespace DataflowScheduler

namespace KTIRBufferize

open Affine Operands

/-! ## Folded operands -/

def getAsOpFoldResult : Value → OpFoldResult
  | .constant k => .index k
  | v => .value v

/-- Quotients and remainders are expanded for positive constants only. -/
def canExpand : BinaryKind → Expr → Bool
  | .add, _ => true
  | .mul, _ => true
  | _, .constant c => 0 < c
  | _, _ => false

def expandAffineExpr (operands : List Value) : Expr → Option Value
  | .dim p => operands[p]?
  | .symbol _ => none
  | .constant c => some (.constant c)
  | .binary kind l r =>
      if canExpand kind r then
        match expandAffineExpr operands l, expandAffineExpr operands r with
        | some a, some b => some (.binary kind a b)
        | _, _ => none
      else none

def expandAffineMap (map : Map) (operands : List Value) : Option (List Value) :=
  map.results.mapM (expandAffineExpr operands)

def isSymbolicOrConstant : Expr → Bool
  | .dim _ => false
  | .symbol _ => true
  | .constant _ => true
  | .binary _ l r => isSymbolicOrConstant l && isSymbolicOrConstant r

/-- Folding constructors and a simplification of affine expressions. -/
structure Simplifier where
  builder : Builder
  simplifyAffineExpr : Expr → Nat → Nat → Expr
  eval_simplifyAffineExpr : ∀ e numDims numSymbols dims symbols,
    (simplifyAffineExpr e numDims numSymbols).eval dims symbols = e.eval dims symbols

/-! ## Operations -/

/-- What a variable ranges over. -/
structure Range where
  lower : Int
  size : Nat
  deriving Repr, DecidableEq

def getTripCount (set : List Range) (dimIdx : Nat) : Option Int :=
  set[dimIdx]?.map fun range => (range.size : Int)

/-- A view of the address buffer of rank one. -/
structure IndAddrBuf where
  stride : OpFoldResult
  deriving Repr, DecidableEq

/-- `ktdp_lowering.construct_indirect_access_tile`. -/
structure ConstructIndirectAccessTileOp where
  indAddrBufMemref : IndAddrBuf
  indAddrBufDimPositions : List Nat
  perDimSubscriptMaps : List Attribute
  capturedVariables : List Value
  numIntermediateVariables : Nat
  variablesSpaceSet : List Range
  variablesSpaceOrder : Map

/-- A slice of a tile: mixed offsets, sizes and strides. -/
structure Slice where
  offsets : List OpFoldResult
  sizes : List OpFoldResult
  strides : List OpFoldResult

/-- The shape of a tensor, `none` where it is dynamic. -/
abbrev RankedTensorType := List (Option Nat)

structure IndirectOpInfo where
  offsets : List OpFoldResult
  sizes : List OpFoldResult
  strides : List OpFoldResult
  iabIndex : Value
  tensorType : RankedTensorType

variable (s : Simplifier) (tileOp : ConstructIndirectAccessTileOp)

namespace ConstructIndirectAccessTileOp

/-- The IAB index value. -/
def getIabIndex : Except String Value :=
  match tileOp.indAddrBufDimPositions with
  | [iabPos] =>
      if h : iabPos < tileOp.capturedVariables.length then
        .ok tileOp.capturedVariables[iabPos]
      else
        match getTripCount tileOp.variablesSpaceSet (iabPos - tileOp.capturedVariables.length) with
        | some 1 => .ok (.constant 0)
        | _ => .error "LowerIndirectLoad/Store: IAB-indexed iv does not have extent 1"
  | _ => .error "LowerIndirectLoad/Store: ind_addr_buf_dim_positions must have size 1"

/-- Captured dimensions stay, the others become zero. -/
def makeCapturedRepls : List Expr :=
  (List.range (tileOp.capturedVariables.length + tileOp.numIntermediateVariables)).map fun i =>
    if i < tileOp.capturedVariables.length then .dim i else .constant 0

/-- A subscript without a variable. -/
def subtractIv (expr : Expr) (k : Nat) : Expr :=
  s.simplifyAffineExpr
    (s.builder.binary .add expr
      (s.builder.binary .mul (.dim (tileOp.capturedVariables.length + k)) (.constant (-1))))
    (tileOp.capturedVariables.length + tileOp.numIntermediateVariables) 0

def refsIv : Expr → Bool
  | .dim p => tileOp.capturedVariables.length ≤ p
  | .symbol _ => false
  | .constant _ => false
  | .binary _ l r => refsIv l || refsIv r

/-- The first variable whose subtraction leaves captured variables only. -/
def foundIv (expr : Expr) : Option Nat :=
  (List.range tileOp.numIntermediateVariables).find? fun k =>
    !tileOp.refsIv (tileOp.subtractIv s expr k)

def getTileDim (k : Nat) : Option Nat :=
  match tileOp.variablesSpaceOrder.results[k]? with
  | some (.dim p) => some p
  | _ => none

end ConstructIndirectAccessTileOp

/-! ## Decomposed subscripts -/

/-- A decomposed subscript. -/
structure Subscript where
  capturedPart : Map
  usesIv : Option Nat

def capturedMap (expr : Expr) : Map :=
  ⟨tileOp.capturedVariables.length, 0, [expr.replaceDims s.builder tileOp.makeCapturedRepls]⟩

def decomposeMap : Attribute → Except String Subscript
  | .integer _ => .error
      "LowerIndirectLoad/Store: per_dim_subscript_maps element is not an AffineMapAttr"
  | .affineMap m =>
      match m.results with
      | [expr] =>
          match tileOp.foundIv s expr with
          | some k => .ok ⟨capturedMap s tileOp (tileOp.subtractIv s expr k), some k⟩
          | none => .ok ⟨capturedMap s tileOp expr, none⟩
      | _ => .error "per-dim map should have 1 result"

/-- The subscripts in order; `ivToBaseDim` holds the variables of the dimensions before. -/
def decompose (ivToBaseDim : List Nat) : List Attribute → Except String (List Subscript)
  | [] => .ok []
  | map :: maps =>
      match decomposeMap s tileOp map with
      | .error e => .error e
      | .ok ⟨part, none⟩ => (decompose ivToBaseDim maps).map (⟨part, none⟩ :: ·)
      | .ok ⟨part, some k⟩ =>
          if k ∈ ivToBaseDim then
            .error "LowerIndirectLoad/Store: iv appears in more than one base dim"
          else (decompose (k :: ivToBaseDim) maps).map (⟨part, some k⟩ :: ·)

/-! ## The box of the base -/

def expandOverCaptured (part : Map) : Except String OpFoldResult :=
  match expandAffineMap part tileOp.capturedVariables with
  | some (v :: _) => .ok (.value v)
  | _ => .error "LowerIndirectLoad/Store: failed to expand captured-part map"

/-- What the captured variables contribute. -/
def materializeCapturedPart (part : Map) : Except String OpFoldResult :=
  if tileOp.capturedVariables.isEmpty || part.results.all isSymbolicOrConstant then
    -- An attribute that is a map is no integer, so constants are expanded, too.
    match getConstantIntValue (.attr (.affineMap part)) with
    | some c => .ok (.index c)
    | none => expandOverCaptured tileOp part
  else expandOverCaptured tileOp part

def addOffsets (f o : OpFoldResult) : OpFoldResult :=
  match getConstantIntValue f, getConstantIntValue o with
  | some fConst, some oConst => .index (fConst + oConst)
  | some 0, none => o
  | none, some 0 => f
  | _, _ => .value (.binary .add (getValueOrCreateConstantIndexOp f)
      (getValueOrCreateConstantIndexOp o))

/-- A dimension of the box. -/
structure BoxDim where
  offset : OpFoldResult
  size : OpFoldResult
  stride : OpFoldResult

/-- The part of the tile that a walked dimension covers: of the slice if there is one. -/
def sliceDim (slice : Option Slice) (k tileDim : Nat) : BoxDim :=
  match slice with
  | some slice =>
      ⟨slice.offsets.getD tileDim (.index 0), slice.sizes.getD tileDim (.index 1),
        slice.strides.getD tileDim (.index 1)⟩
  | none => ⟨.index 0, .index ((getTripCount tileOp.variablesSpaceSet k).getD 1), .index 1⟩

def boxDim (slice : Option Slice) (subscript : Subscript) : Except String BoxDim :=
  match subscript.usesIv with
  | some k =>
      match tileOp.getTileDim k with
      | none => .error "LowerIndirectLoad/Store: unable to determine tile dim for iv"
      | some tileDim =>
          (materializeCapturedPart tileOp subscript.capturedPart).map fun f =>
            let dim := sliceDim tileOp slice k tileDim
            { dim with offset := addOffsets f dim.offset }
  | none =>
      (materializeCapturedPart tileOp subscript.capturedPart).map fun f => ⟨f, .index 1, .index 1⟩

/-- Fold constant offsets into static ones. -/
def foldOffset : OpFoldResult → OpFoldResult
  | .attr a => .attr a
  | .value v => getAsOpFoldResult v

def deriveIndirectOpInfo (tensorType : RankedTensorType) (slice : Option Slice) :
    Except String IndirectOpInfo := do
  let iabIndex ← tileOp.getIabIndex
  let subscripts ← decompose s tileOp [] tileOp.perDimSubscriptMaps
  let dims ← subscripts.mapM (boxDim tileOp slice)
  .ok ⟨dims.map fun dim => foldOffset dim.offset, dims.map BoxDim.size, dims.map BoxDim.stride,
    iabIndex, tensorType⟩

/-! ## Indirect transfers -/

/-- The view of the address buffer: cast to stride one, unless it has that type already. -/
def buildIABView (iabMemref : IndAddrBuf) : IndAddrBuf :=
  if iabMemref = ⟨.index 1⟩ then iabMemref else ⟨.index 1⟩

inductive Direction where
  | load
  | store
  deriving Repr, DecidableEq

/-- `ktdp_lowering.ind_load` and `ktdp_lowering.ind_store`. -/
structure IndTransferOp where
  direction : Direction
  tensorType : RankedTensorType
  indAddrBuf : IndAddrBuf
  indAddrBufIndex : Value
  offsets : List OpFoldResult
  sizes : List OpFoldResult
  strides : List OpFoldResult

def lowerIndirect (direction : Direction) (tensorType : RankedTensorType) (slice : Option Slice) :
    Except String IndTransferOp :=
  (deriveIndirectOpInfo s tileOp tensorType slice).map fun info =>
    ⟨direction, tensorType, buildIABView tileOp.indAddrBufMemref, info.iabIndex, info.offsets,
      info.sizes, info.strides⟩

/-- `LowerIndirectLoad`: of a `ktdp.load`, which has no slice, or a `ktdp_lowering.load`. -/
def lowerIndirectLoad (resultType : RankedTensorType) (slice : Option Slice) :
    Except String IndTransferOp :=
  lowerIndirect s tileOp .load resultType slice

/-- `LowerIndirectStore`: of a `ktdp.store`, which has no slice, or a `ktdp_lowering.store`. -/
def lowerIndirectStore (sourceType : RankedTensorType) (slice : Option Slice) :
    Except String IndTransferOp :=
  lowerIndirect s tileOp .store sourceType slice

/-- A load or a store of the tile. -/
structure Access where
  direction : Direction
  tensorType : RankedTensorType
  slice : Option Slice

def matchAndRewrite (access : Access) : Except String IndTransferOp :=
  match access.direction with
  | .load => lowerIndirectLoad s tileOp access.tensorType access.slice
  | .store => lowerIndirectStore s tileOp access.tensorType access.slice

end KTIRBufferize

end DataflowScheduler
