import DataflowScheduler.Conversion.KTDFLowToDFIR.DataTransferLowering

/-!
# Lowering of indirect transfers

A `ktdf.ind_data_transfer` becomes an `agen.composite_indirect_load_and_store`. In a gather the entry
of the indirect address buffer (IAB) drives the address of the source, in a scatter that of the
destination. The destination of a gather may be a FIFO; it is then sent the vector of every step.
-/

namespace IndDataTransferLowering

open RowMajor DataTransferLowering

/-! ## Transfers -/

/-- A direct operand: a memref or a FIFO slot, with its static sizes. -/
inductive Endpoint where
  | memref (box : TransferBox)
  | fifo (sizes : List Nat)
  | dynamicMemRef
  | dynamicFifo

def Endpoint.isMemRef : Endpoint → Bool
  | .memref _ | .dynamicMemRef => true
  | .fifo _ | .dynamicFifo => false

def Endpoint.staticSizes : Endpoint → Option (List Nat)
  | .memref box => some box.sizes
  | .fifo sizes => some sizes
  | .dynamicMemRef | .dynamicFifo => none

/-- The address buffer, with the one index the transfer gives. A dimension without a size is
dynamic. -/
structure AddressBuffer where
  shape : List (Option Nat)
  map : AffineMap
  index : Int
  rank : (map.apply [index]).length = shape.length

/-- `fifo_dest_unit` tells whether the unit of a FIFO destination can be resolved. -/
structure IndDataTransfer where
  is_gather : Bool
  dir_src : Endpoint
  dir_dst : Endpoint
  iab : AddressBuffer
  throttle : Option Int
  fifo_dest_unit : Bool

/-! ## The emitted operation -/

/-- The direct destination of the operation. A FIFO is sent the vector in the body; the operation
itself then names the source once more. -/
inductive StoreAccess where
  | memref (access : SideAccess)
  | send

/-- `agen.composite_indirect_load_and_store`. -/
structure CompositeIndirectLoadAndStore where
  is_gather : Bool
  load : SideAccess
  store : StoreAccess
  iab_map : AffineMap
  iab_index : Int
  iab_time_addr : TransferTimeDims
  time_set : List Nat
  lanes : Nat

inductive IndLoweringError where
  | srcNotMemRef
  | scatterToFifo
  | dynamicSizes
  | missingThrottle
  | noFifoUnit
  /-- A vector type has at least one lane. -/
  | noLanes
  /-- There is no innermost size. -/
  | noDimensions
  /-- An address map uses a dimension that the time set does not have. -/
  | noTimeDim
  deriving Repr, DecidableEq

/-- The sizes of the address buffer as they are walked: a dynamic innermost dimension holds no vector,
any other dynamic dimension is no unit dimension. -/
def AddressBuffer.sizes (iab : AddressBuffer) : List Nat :=
  iab.shape.map (·.getD 0)

/-- The time dimensions of the address buffer. -/
def AddressBuffer.timeDims (iab : AddressBuffer) : TransferTimeDims :=
  describeTransferTimeDims iab.sizes 1

/-- An address map over `num_time_dims` dimensions. -/
def timeAddrMap (num_time_dims : Nat) (d : TransferTimeDims) :
    Except IndLoweringError TransferTimeDims :=
  if d.dims.length ≤ num_time_dims then .ok d else .error .noTimeDim

/-- One direct memref of the operation. -/
def directAccess (box : TransferBox) (iv_lanes : Nat) (time_addr : TransferTimeDims) : SideAccess :=
  ⟨box.map, box.indices.map .value, vectorSizes box.sizes iv_lanes, time_addr⟩

/-- The destination of the operation, over `num_time_dims` time dimensions. -/
def lowerDestination (dir_dst : Endpoint) (fifo_dest_unit : Bool) (throttle iv_lanes : Nat)
    (num_time_dims : Nat) : Except IndLoweringError StoreAccess :=
  match dir_dst with
  | .memref box =>
    if box.sizes = [] then .error .noDimensions
    else (timeAddrMap num_time_dims (describeTransferTimeDims box.sizes throttle)).map fun d =>
      .memref (directAccess box iv_lanes d)
  | _ => if fifo_dest_unit then .ok .send else .error .noFifoUnit

/-- The operation for a source box and a positive throttle. -/
def lowerFrom (op : IndDataTransfer) (box : TransferBox) (throttle : Nat) :
    Except IndLoweringError CompositeIndirectLoadAndStore := do
  let iv_lanes := min (totalElements box.sizes) throttle
  let src_time_dims := describeTransferTimeDims box.sizes throttle
  let time_extents := timeExtents src_time_dims.extents
  let iab_time_addr ← timeAddrMap time_extents.length op.iab.timeDims
  let store ← lowerDestination op.dir_dst op.fifo_dest_unit throttle iv_lanes time_extents.length
  return {
    is_gather := op.is_gather
    load := directAccess box iv_lanes src_time_dims
    store := store
    iab_map := op.iab.map
    iab_index := op.iab.index
    iab_time_addr := iab_time_addr
    time_set := time_extents
    lanes := iv_lanes }

/-- `LowerIndDataTransferPattern::matchAndRewrite`. -/
def lowerIndDataTransfer (op : IndDataTransfer) :
    Except IndLoweringError CompositeIndirectLoadAndStore :=
  if ¬ op.dir_src.isMemRef then .error .srcNotMemRef
  else if ¬ op.is_gather ∧ ¬ op.dir_dst.isMemRef then .error .scatterToFifo
  else match op.dir_src, op.dir_dst.staticSizes, op.throttle with
    | .memref box, some _, some throttle =>
      if throttle ≤ 0 ∨ totalElements box.sizes = 0 then .error .noLanes
      else if box.sizes = [] then .error .noDimensions
      else lowerFrom op box throttle.toNat
    | .memref _, some _, none => .error .missingThrottle
    | _, _, _ => .error .dynamicSizes

/-! ## What an operation accesses -/

/-- An element of a direct operand: one of a memref, or the `k`-th that a FIFO is sent. -/
inductive Element where
  | memref (subscripts : List Int)
  | fifo (k : Nat)
  deriving Repr, DecidableEq

/-- An element of the direct side, the address buffer entry, and an element of the side that the
entry addresses. -/
structure Access where
  direct : Option Element
  entry : List Int
  indirect : Option Element
  deriving Repr, DecidableEq

/-- A gather reads, and a scatter writes, at the address of the entry. -/
def access (is_gather : Bool) (src : Option Element) (entry : List Int) (dst : Option Element) :
    Access :=
  if is_gather then ⟨dst, entry, src⟩ else ⟨src, entry, dst⟩

/-- The elements of an operand, in row-major order over its sizes. -/
def Endpoint.elements : Endpoint → List Element
  | .memref box => box.elements.map .memref
  | .fifo sizes => (List.range (totalElements sizes)).map .fifo
  | .dynamicMemRef | .dynamicFifo => []

def AddressBuffer.entry (iab : AddressBuffer) : List Int :=
  iab.map.apply [iab.index]

/-- What the transfer means: the `k`-th elements of both operands belong together, and one entry, the
one at the index of the transfer, addresses all of them. -/
def IndDataTransfer.accesses (op : IndDataTransfer) : List Access :=
  (op.dir_src.elements.zip op.dir_dst.elements).map fun x =>
    access op.is_gather (some x.1) op.iab.entry (some x.2)

/-- The destination element of a lane; the elements sent are numbered in the order of the steps and
lanes, of which this is number `k`. -/
def StoreAccess.element (s : StoreAccess) (time : List Nat) (lane k : Nat) : Option Element :=
  match s with
  | .memref a => (a.element 0 time lane).map .memref
  | .send => some (.fifo k)

namespace CompositeIndirectLoadAndStore

variable (op : CompositeIndirectLoadAndStore)

/-- The time steps, in order, and the lanes of each. -/
def steps : List (List Nat × Nat) :=
  points op.time_set ×ˢ List.range op.lanes

/-- The entry that a time step uses. -/
def entry (time : List Nat) : List Int :=
  shift (op.iab_map.apply [op.iab_index]) (op.iab_time_addr.offsets time)

/-- What a lane of a time step accesses. -/
def laneAccess (x : (List Nat × Nat) × Nat) : Access :=
  access op.is_gather ((op.load.element 0 x.1.1 x.1.2).map .memref) (op.entry x.1.1)
    (op.store.element x.1.1 x.1.2 x.2)

def accesses : List Access :=
  op.steps.zipIdx.map op.laneAccess

end CompositeIndirectLoadAndStore

/-! ## The property -/

/-- The operation accesses what the transfer means, every element of it exactly once, and leaves no
element of either operand out. -/
structure MovesSame (t : IndDataTransfer) (op : CompositeIndirectLoadAndStore) : Prop where
  accesses : op.accesses.Perm t.accesses
  direct : ∀ e ∈ (if t.is_gather then t.dir_dst else t.dir_src).elements,
    ∃ a ∈ op.accesses, a.direct = some e
  indirect : ∀ e ∈ (if t.is_gather then t.dir_src else t.dir_dst).elements,
    ∃ a ∈ op.accesses, a.indirect = some e

end IndDataTransferLowering
