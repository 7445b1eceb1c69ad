import DataflowScheduler.Conversion.KTDFLowToDFIR.TransferTimeDims
import Mathlib.Data.List.OfFn

/-!
# Lowering of copy transfers between memrefs

A `ktdf.data_transfer` from a memref to a memref becomes an `agen.composite_load_and_store`, which
moves one vector per time step. A request wider than the throttle is walked over time dimensions, at
most one of which leaves the time axis for an `scf.for` around the operation.
-/

namespace DataTransferLowering

open RowMajor

/-! ## Transfers -/

/-- An affine map from dimensions and symbols to the subscripts of a memref. -/
structure AffineMap where
  numDims : Nat
  numSymbols : Nat
  results : List Int → List Int → List Int

/-- The operands are those of the dimensions, then those of the symbols. -/
def AffineMap.apply (map : AffineMap) (operands : List Int) : List Int :=
  map.results (operands.take map.numDims) (operands.drop map.numDims)

/-- The relation `getRelationFromMap` flattens a map to. The columns of an equality are the
dimensions, the result, and the constant. -/
structure Relation where
  numInequalities : Nat
  equalities : List (List Int)

/-- The layout map of a memory view. Its relation is missing if the map cannot be flattened. -/
structure LayoutMap where
  numDims : Nat
  numSymbols : Nat
  numResults : Nat
  relation : Option Relation

/-- Where the strides of a memref are read from: the view that defines it, or its type. A stride that
is missing is dynamic. -/
inductive MemRefLayout where
  | view (map : LayoutMap)
  | type (strides : Option (List (Option Int)))

/-- The box of a memref that a transfer accesses. -/
structure TransferBox where
  map : AffineMap
  indices : List Int
  sizes : List Nat
  operands : indices.length = map.numDims + map.numSymbols
  rank : (map.apply indices).length = sizes.length

/-- One side of a transfer. `address` is where the memref holds the element at some subscripts. -/
structure TransferSide extends TransferBox where
  layout : MemRefLayout
  address : List Int → Int

structure DataTransfer where
  source : TransferSide
  dest : TransferSide
  throttle : Option Int

def totalElements (sizes : List Nat) : Nat :=
  sizes.prod

/-- The subscripts moved by an offset in every dimension. -/
def shift (subscripts : List Int) (offset : List Nat) : List Int :=
  List.zipWith (fun (b : Int) (o : Nat) => b + o) subscripts offset

/-- The subscripts of the elements of a box, in row-major order over its sizes. -/
def TransferBox.elements (box : TransferBox) : List (List Int) :=
  (points box.sizes).map (shift (box.map.apply box.indices))

/-! ## Strides -/

/-- The coefficient of each dimension of a one-result map, if it is linear in its dimensions. -/
def coefficientsIfLinearInDims (map : LayoutMap) : Option (List Int) :=
  if map.numSymbols ≠ 0 then none
  else match map.relation with
    | none => none
    | some relation =>
      -- Only local variables, of a division or a modulo, come with inequalities.
      if relation.numInequalities ≠ 0 then none
      else match relation.equalities with
        | [equality] =>
          if equality.getD map.numDims 0 ≠ -1 then none else some (equality.take map.numDims)
        | _ => none

/-- The distance in memory between consecutive indices of each dimension of a memref of `rank`
dimensions. -/
def getElementStrides (layout : MemRefLayout) (rank : Nat) : Option (List Int) :=
  match layout with
  | .view map =>
    if map.numDims ≠ rank ∨ map.numResults ≠ 1 then none else coefficientsIfLinearInDims map
  | .type none => none
  | .type (some strides) => strides.mapM id

/-- How far a step of a time dimension goes in memory. -/
def distance (step : TransferTimeDim) (strides : List Int) : Int :=
  step.index_step * strides.getD step.memref_dim 0

/-- The numbers of the time dimensions in which the two sides go different distances, as far as
their strides are known. -/
def divergentDims (t : DataTransfer) (src_time_dims dst_time_dims : TransferTimeDims) : List Nat :=
  match getElementStrides t.source.layout t.source.sizes.length,
      getElementStrides t.dest.layout t.dest.sizes.length with
  | some src_strides, some dst_strides =>
    ((src_time_dims.dims.zip dst_time_dims.dims).zipIdx.filter fun x =>
      x.1.1.extent ≠ 1 ∧ distance x.1.1 src_strides ≠ distance x.1.2 dst_strides).map (·.2)
  | _, _ => []

/-- One more dimension, which moves the memref dimension of a step by the step. -/
def foldStepIntoSubscripts (map : AffineMap) (step : TransferTimeDim) : AffineMap where
  numDims := map.numDims + 1
  numSymbols := map.numSymbols
  results := fun dims symbols =>
    (map.results (dims.take map.numDims) symbols).modify step.memref_dim
      (· + step.index_step * dims.getD map.numDims 0)

/-! ## The emitted operation -/

inductive IndexOperand where
  | value (v : Int)
  | inductionVar

/-- One side of the operation: its subscripts, the set of one vector, and its time address map. -/
structure SideAccess where
  map : AffineMap
  indices : List IndexOperand
  set : List Nat
  time_addr : TransferTimeDims

/-- `agen.composite_load_and_store`, with the upper bound of the loop around it. -/
structure CompositeLoadAndStore where
  loop : Option Nat
  load : SideAccess
  store : SideAccess
  time_set : List Nat
  lanes : Nat

inductive LoweringError where
  | missingThrottle
  /-- A vector type has at least one lane. -/
  | noLanes
  | noDimensions (total : Nat) (throttle : Int)
  | notMultiple (total : Nat) (throttle : Int) (src_last dst_last : Nat)
  | walksDiffer (total : Nat)
  | severalDivergent (dims total : Nat)
  deriving Repr, DecidableEq

/-- What the lowering has decided before it emits anything. -/
structure VectorTransfer where
  lanes : Nat
  load_sizes : List Nat
  store_sizes : List Nat
  src_time_dims : TransferTimeDims
  dst_time_dims : TransferTimeDims
  loop_time_dim : Option Nat

/-- A transfer of at most one vector. -/
def wholeVector (t : DataTransfer) : VectorTransfer where
  lanes := totalElements t.dest.sizes
  load_sizes := t.source.sizes
  store_sizes := t.dest.sizes
  src_time_dims := ⟨[], t.source.sizes.length⟩
  dst_time_dims := ⟨[], t.dest.sizes.length⟩
  loop_time_dim := none

/-- A transfer of more than one vector, of `lanes` elements each. -/
def walkedVectors (t : DataTransfer) (lanes : Nat) (loop_time_dim : Option Nat) :
    VectorTransfer where
  lanes := lanes
  load_sizes := vectorSizes t.source.sizes lanes
  store_sizes := vectorSizes t.dest.sizes lanes
  src_time_dims := describeTransferTimeDims t.source.sizes lanes
  dst_time_dims := describeTransferTimeDims t.dest.sizes lanes
  loop_time_dim := loop_time_dim

/-- The divergent dimensions of a transfer in vectors of `lanes` elements. -/
def DataTransfer.divergent (t : DataTransfer) (lanes : Nat) : List Nat :=
  divergentDims t (describeTransferTimeDims t.source.sizes lanes)
    (describeTransferTimeDims t.dest.sizes lanes)

def splitAcrossTime (t : DataTransfer) (lanes : Nat) : Except LoweringError VectorTransfer :=
  if (describeTransferTimeDims t.source.sizes lanes).extents ≠
      (describeTransferTimeDims t.dest.sizes lanes).extents then
    .error (.walksDiffer (totalElements t.dest.sizes))
  else match t.divergent lanes with
    | [] => .ok (walkedVectors t lanes none)
    | [time_dim] => .ok (walkedVectors t lanes (some time_dim))
    | divergent => .error (.severalDivergent divergent.length (totalElements t.dest.sizes))

/-- The checks before a transfer is split. -/
def splitIntoVectors (t : DataTransfer) (throttle : Int) : Except LoweringError VectorTransfer :=
  match t.source.sizes.getLast?, t.dest.sizes.getLast? with
  | some src_last, some dst_last =>
    if throttle ≤ 0 then .error .noLanes
    else if src_last % throttle ≠ 0 ∨ dst_last % throttle ≠ 0 then
      .error (.notMultiple (totalElements t.dest.sizes) throttle src_last dst_last)
    else splitAcrossTime t throttle.toNat
  | _, _ => .error (.noDimensions (totalElements t.dest.sizes) throttle)

/-- One side of the operation, its time dimension `loop_time_dim` driven by the loop. -/
def emitSide (side : TransferBox) (set : List Nat) (time_dims : TransferTimeDims) :
    Option Nat → SideAccess
  | none => ⟨side.map, side.indices.map .value, set, time_dims⟩
  | some time_dim =>
    ⟨foldStepIntoSubscripts side.map (time_dims.dims.getD time_dim ⟨0, 0, 0⟩),
      side.indices.map .value ++ [.inductionVar], set, time_dims.eraseDim time_dim⟩

/-- The extents of the time set: one pinned step if no dimension is walked. -/
def timeExtents (extents : List Nat) : List Nat :=
  if extents.isEmpty then [1] else extents

def emit (t : DataTransfer) (v : VectorTransfer) : CompositeLoadAndStore :=
  let load := emitSide t.source.toTransferBox v.load_sizes v.src_time_dims v.loop_time_dim
  { loop := v.loop_time_dim.map fun time_dim => v.src_time_dims.extents.getD time_dim 0
    load := load
    store := emitSide t.dest.toTransferBox v.store_sizes v.dst_time_dims v.loop_time_dim
    time_set := timeExtents load.time_addr.extents
    lanes := v.lanes }

/-- The vector type that the caller asks for needs a lane. -/
def lowerAsLoadAndStore (t : DataTransfer) : Except LoweringError CompositeLoadAndStore :=
  if totalElements t.dest.sizes = 0 then .error .noLanes
  else match t.throttle with
    | none => .error .missingThrottle
    | some throttle =>
      if totalElements t.dest.sizes > throttle then (splitIntoVectors t throttle).map (emit t)
      else .ok (emit t (wholeVector t))

/-! ## What the operation accesses -/

def IndexOperand.eval (iv : Nat) : IndexOperand → Int
  | .value v => v
  | .inductionVar => iv

/-- The subscripts that a lane accesses at a time step of an iteration; none if the set of the vector
has no such lane. -/
def SideAccess.element (a : SideAccess) (iv : Nat) (time : List Nat) (lane : Nat) :
    Option (List Int) :=
  (points a.set)[lane]?.map fun p =>
    shift (shift (a.map.apply (a.indices.map (·.eval iv))) (a.time_addr.offsets time)) p

/-- The iterations of the loop around the operation. -/
def CompositeLoadAndStore.iterations (op : CompositeLoadAndStore) : List Nat :=
  op.loop.elim [0] List.range

/-- The elements every lane moves from and to, over all iterations and time steps. -/
def CompositeLoadAndStore.accesses (op : CompositeLoadAndStore) :
    List (Option (List Int) × Option (List Int)) :=
  op.iterations.flatMap fun iv => (points op.time_set).flatMap fun time =>
    (List.range op.lanes).map fun lane =>
      (op.load.element iv time lane, op.store.element iv time lane)

/-! ## The property -/

/-- What is moved is what the transfer joins. -/
structure MovesSame (t : DataTransfer) (op : CompositeLoadAndStore) : Prop where
  /-- The pairs of addresses are those of the `k`-th element of either side, for every `k`. -/
  addresses : ∀ pair, pair ∈ op.accesses.map (Prod.map (Option.map t.source.address)
      (Option.map t.dest.address)) ↔
    pair ∈ (t.source.elements.zip t.dest.elements).map
      (Prod.map (some ∘ t.source.address) (some ∘ t.dest.address))
  /-- No lane reads or writes outside the boxes. -/
  inside : ∀ access ∈ op.accesses, (∃ p ∈ t.source.elements, access.1 = some p) ∧
    ∃ p ∈ t.dest.elements, access.2 = some p
  /-- No element is dropped. -/
  allRead : ∀ p ∈ t.source.elements, ∃ access ∈ op.accesses, access.1 = some p
  allWritten : ∀ p ∈ t.dest.elements, ∃ access ∈ op.accesses, access.2 = some p

end DataTransferLowering
