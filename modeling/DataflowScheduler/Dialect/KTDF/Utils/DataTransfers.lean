import DataflowScheduler.Dialect.Operands
import DataflowScheduler.Util.Digits

/-!
# Converting loads and stores to data transfers

The patterns that fuse a load with the FIFO write or the store of what it loaded, and a FIFO read with
the store of what it read, together with the patterns that fold reshapes and slices out of their way.
Each rewrites the operation at some place of a block and the producer of its data before it: the
transfer takes the place of the consumer.
-/

namespace DataflowScheduler

namespace DataTransfers

open Affine Operands

/-! ## Operations -/

/-- A memref or an access tile: where the elements at an index are, an element offset away. -/
structure Ref (A : Type) where
  isMemRef : Bool
  locate : Int → List Int → A

structure Range where
  offset : OpFoldResult
  size : OpFoldResult
  stride : OpFoldResult

/-- The type of a tensor: its extents, `none` where dynamic. -/
abbrev TensorType := List (Option Nat)

def TensorType.hasStaticShape (type : TensorType) : Bool := type.all Option.isSome

/-- A tensor value, by its number in the block. -/
abbrev TensorValue := Nat

abbrev FifoSlot := Nat

/-- Memory region accessed by one side of a `ktdf.data_transfer`, given as the affine map to its
start, the indices of that map, and its sizes. -/
structure TransferAccess where
  map : Map
  indices : List Value
  sizes : List OpFoldResult

inductive TransferMode where
  | copy
  | splat
  deriving Repr, DecidableEq

/-- One side of a `ktdf.data_transfer`. -/
inductive Side (A : Type) where
  | memory (ref : Ref A) (access : TransferAccess)
  | fifo (slot : FifoSlot) (sizes : List OpFoldResult)

/-- The operations of a block. A slice is taken of a tensor of sizes that its type may not know. -/
inductive Op (A : Type) where
  | load (result : TensorValue) (source : Ref A) (slice : List Range)
  | store (source : TensorValue) (dest : Ref A) (slice : List Range)
  | indLoad (result : TensorValue) (type : TensorType) (indAddrBuf : Ref A) (index : Value)
      (base : Ref A) (slice : List Range)
  | indStore (source : TensorValue) (type : TensorType) (indAddrBuf : Ref A) (index : Value)
      (base : Ref A) (slice : List Range)
  | reshape (result operand : TensorValue) (type : TensorType)
  | extractSlice (result source : TensorValue) (sourceSizes : List OpFoldResult)
      (slice : List Range)
  | readFromFifo (result : TensorValue) (slot : FifoSlot) (type : TensorType)
  | writeToFifo (data : TensorValue) (slot : FifoSlot)
  | compute (result : TensorValue) (kernel : Nat) (operands : List TensorValue)
  | dataTransfer (source dest : Side A) (mode : TransferMode)
  | gather (indAddrBuf : Ref A) (index : Value) (base : Ref A) (access : TransferAccess)
      (slot : FifoSlot) (sizes : TensorType)
  | scatter (slot : FifoSlot) (sizes : TensorType) (indAddrBuf : Ref A) (index : Value)
      (base : Ref A) (access : TransferAccess)

abbrev Block (A : Type) := List (Op A)

variable {A : Type}

namespace Op

def result? : Op A → Option TensorValue
  | load r _ _ => some r
  | store _ _ _ => none
  | indLoad r _ _ _ _ _ => some r
  | indStore _ _ _ _ _ _ => none
  | reshape r _ _ => some r
  | extractSlice r _ _ _ => some r
  | readFromFifo r _ _ => some r
  | writeToFifo _ _ => none
  | compute r _ _ => some r
  | dataTransfer _ _ _ => none
  | gather _ _ _ _ _ _ => none
  | scatter _ _ _ _ _ _ => none

def operands : Op A → List TensorValue
  | load _ _ _ => []
  | store v _ _ => [v]
  | indLoad _ _ _ _ _ _ => []
  | indStore v _ _ _ _ _ => [v]
  | reshape _ v _ => [v]
  | extractSlice _ v _ _ => [v]
  | readFromFifo _ _ _ => []
  | writeToFifo v _ => [v]
  | compute _ _ vs => vs
  | dataTransfer _ _ _ => []
  | gather _ _ _ _ _ _ => []
  | scatter _ _ _ _ _ _ => []

end Op

def hasOneUse (block : Block A) (v : TensorValue) : Bool :=
  (block.flatMap Op.operands).count v == 1

/-! ## Accesses -/

/-- The results of the map, its operands, and the sizes; `offsets` are the operands so far. -/
def createTransferAccessFrom (offsets : List Value) :
    List Range → Option (List Expr × List Value × List OpFoldResult)
  | [] => some ([], offsets, [])
  | range :: slice =>
      if !isConstantIntValue range.stride 1 && !isConstantIntValue range.size 1 then none
      else
        match getConstantIntValue range.offset, range.offset with
        | some value, _ =>
            (createTransferAccessFrom offsets slice).map fun (results, offsets, sizes) =>
              (.constant value :: results, offsets, range.size :: sizes)
        | none, .value v =>
            (createTransferAccessFrom (offsets ++ [v]) slice).map fun (results, operands, sizes) =>
              (.dim offsets.length :: results, operands, range.size :: sizes)
        | none, .attr _ => none

/-- The access that a `ktdf.data_transfer` uses for a slice. -/
def createTransferAccess (slice : List Range) : Option TransferAccess :=
  (createTransferAccessFrom [] slice).map fun (results, offsets, sizes) =>
    ⟨⟨offsets.length, 0, results⟩, offsets, sizes⟩

def mergeRange (producer consumer : Range) : Range where
  offset := foldedBinary .add producer.offset (foldedBinary .mul consumer.offset producer.stride)
  size := consumer.size
  stride := foldedBinary .mul producer.stride consumer.stride

/-- A slice of a slice, of one rank. -/
def mergeOffsetsSizesAndStrides (producer consumer : List Range) : Option (List Range) :=
  if producer.length = consumer.length then some (List.zipWith mergeRange producer consumer)
  else none

/-- Dimensions of stride zero broadcast a single loaded element. -/
def splatRange (range : Range) : Range :=
  if isConstantIntValue range.stride 0 then { range with size := .index 1 } else range

def isSplat (slice : List Range) : Bool :=
  slice.any fun range =>
    isConstantIntValue range.stride 0 && !isConstantIntValue range.size 1

/-! ## Patterns -/

/-- The operation that produces a value, with those before and after it. -/
def splitAtProducer (v : TensorValue) : Block A → Option (Block A × Op A × Block A)
  | [] => none
  | op :: ops =>
      match splitAtProducer v ops with
      | some (before, producer, after) => some (op :: before, producer, after)
      | none => if op.result? = some v then some ([], op, ops) else none

/-- The first operation that uses a value, with those before and after it. -/
def splitAtUser (v : TensorValue) : Block A → Option (Block A × Op A × Block A)
  | [] => none
  | op :: ops =>
      if v ∈ op.operands then some ([], op, ops)
      else (splitAtUser v ops).map fun (before, user, after) => (op :: before, user, after)

/-- The value that an operation, if it is a reshape, makes another one of. -/
def Op.lookThrough (op : Op A) (v : TensorValue) : TensorValue :=
  match op with
  | reshape r operand _ => if r = v then operand else v
  | _ => v

/-- The value that the reshapes of a block make another one of. -/
def lookThroughReshapes (block : Block A) (v : TensorValue) : TensorValue :=
  block.foldr Op.lookThrough v

/-- A rewritten block: the operation `root` is replaced by `moved`, and the producer of its data,
which is `between` before it, by what is `kept` of it. -/
structure Rewritten (A : Type) where
  before : Block A
  producer : Op A
  kept : Block A
  between : Block A
  root : Op A
  moved : Block A
  after : Block A

namespace Rewritten

def old (rw : Rewritten A) : Block A :=
  rw.before ++ rw.producer :: (rw.between ++ rw.root :: rw.after)

def new (rw : Rewritten A) : Block A :=
  rw.before ++ (rw.kept ++ (rw.between ++ (rw.moved ++ rw.after)))

end Rewritten

/-- Folds a reshape of the data read from a FIFO into the read. The read takes the name its users
know. -/
def foldReshapeIntoFifoRead (block : Block A) (i : Nat) : Option (Rewritten A) :=
  match block[i]? with
  | some (.readFromFifo r slot type) =>
      if hasOneUse block r then
        match splitAtUser r (block.drop (i + 1)) with
        | some (between, .reshape e operand newType, after) =>
            some ⟨block.take i, .readFromFifo r slot type, [.readFromFifo e slot newType], between,
              .reshape e operand newType, [], after⟩
        | _ => none
      else none
  | _ => none

/-- Folds a reshape of the data written to a FIFO into the write. -/
def foldReshapeIntoFifoWrite (block : Block A) (i : Nat) : Option (Rewritten A) :=
  match block[i]? with
  | some (.writeToFifo data slot) =>
      match splitAtProducer data (block.take i) with
      | some (before, .reshape r operand type, between) =>
          some ⟨before, .reshape r operand type, [.reshape r operand type], between,
            .writeToFifo data slot, [.writeToFifo operand slot], block.drop (i + 1)⟩
      | _ => none
  | _ => none

/-- Folds `ktdp_lowering.load` into its only `tensor.extract_slice` user. -/
def foldSliceIntoLoad (block : Block A) (i : Nat) : Option (Rewritten A) :=
  match block[i]? with
  | some (.extractSlice e r sourceSizes slice) =>
      match splitAtProducer r (block.take i) with
      | some (before, .load r' source loaded, between) =>
          if hasOneUse block r then
            (mergeOffsetsSizesAndStrides loaded slice).map fun merged =>
              ⟨before, .load r' source loaded, [], between, .extractSlice e r sourceSizes slice,
                [.load e source merged], block.drop (i + 1)⟩
          else none
      | _ => none
  | _ => none

def lowerLoadToFifo (block : Block A) (i : Nat) : Option (Rewritten A) :=
  match block[i]? with
  | some (.writeToFifo data slot) =>
      match splitAtProducer data (block.take i) with
      | some (before, .load r source slice, between) =>
          if source.isMemRef then
            (createTransferAccess (slice.map splatRange)).map fun access =>
              ⟨before, .load r source slice, [.load r source slice], between,
                .writeToFifo data slot,
                [.dataTransfer (.memory source access) (.fifo slot (slice.map Range.size))
                  (if isSplat slice then .splat else .copy)], block.drop (i + 1)⟩
          else none
      | _ => none
  | _ => none

def lowerStoreFromFifo (block : Block A) (i : Nat) : Option (Rewritten A) :=
  match block[i]? with
  | some (.store data dest slice) =>
      match splitAtProducer data (block.take i) with
      | some (before, .readFromFifo r slot type, between) =>
          -- The read would be done twice otherwise, which is an error.
          if hasOneUse block r then
            if dest.isMemRef then
              (createTransferAccess slice).map fun access =>
                ⟨before, .readFromFifo r slot type, [], between, .store data dest slice,
                  [.dataTransfer (.fifo slot access.sizes) (.memory dest access) .copy],
                  block.drop (i + 1)⟩
            else none
          else none
      | _ => none
  | _ => none

def lowerStoreFromLoad (block : Block A) (i : Nat) : Option (Rewritten A) :=
  match block[i]? with
  | some (.store data dest slice) =>
      match splitAtProducer (lookThroughReshapes (block.take i) data) (block.take i) with
      | some (before, .load r source loaded, between) =>
          match createTransferAccess loaded, createTransferAccess slice with
          | some loadAccess, some storeAccess =>
              some ⟨before, .load r source loaded, [.load r source loaded], between,
                .store data dest slice,
                [.dataTransfer (.memory source loadAccess) (.memory dest storeAccess) .copy],
                block.drop (i + 1)⟩
          | _, _ => none
      | _ => none
  | _ => none

def lowerIndLoadToFifo (block : Block A) (i : Nat) : Option (Rewritten A) :=
  match block[i]? with
  | some (.writeToFifo data slot) =>
      match splitAtProducer data (block.take i) with
      | some (before, .indLoad r type indAddrBuf index base slice, between) =>
          if type.hasStaticShape then
            (createTransferAccess slice).map fun access =>
              ⟨before, .indLoad r type indAddrBuf index base slice,
                [.indLoad r type indAddrBuf index base slice], between, .writeToFifo data slot,
                [.gather indAddrBuf index base access slot type], block.drop (i + 1)⟩
          else none
      | _ => none
  | _ => none

def lowerIndStoreFromFifo (block : Block A) (i : Nat) : Option (Rewritten A) :=
  match block[i]? with
  | some (.indStore data type indAddrBuf index base slice) =>
      match splitAtProducer data (block.take i) with
      | some (before, .readFromFifo r slot readType, between) =>
          if hasOneUse block r then
            if type.hasStaticShape then
              (createTransferAccess slice).map fun access =>
                ⟨before, .readFromFifo r slot readType, [], between,
                  .indStore data type indAddrBuf index base slice,
                  [.scatter slot type indAddrBuf index base access], block.drop (i + 1)⟩
            else none
          else none
      | _ => none
  | _ => none

/-- The patterns of `populateConvertToDataTransferPatterns`. -/
inductive Pattern where
  | foldReshapeIntoFifoRead
  | foldReshapeIntoFifoWrite
  | foldSliceIntoLoad
  | lowerLoadToFifo
  | lowerStoreFromFifo
  | lowerStoreFromLoad
  | lowerIndLoadToFifo
  | lowerIndStoreFromFifo
  deriving Repr, DecidableEq

/-- A pattern at the operation at a place of a block. -/
def Pattern.matchAndRewrite (pattern : Pattern) (block : Block A) (i : Nat) :
    Option (Rewritten A) :=
  match pattern with
  | foldReshapeIntoFifoRead => DataTransfers.foldReshapeIntoFifoRead block i
  | foldReshapeIntoFifoWrite => DataTransfers.foldReshapeIntoFifoWrite block i
  | foldSliceIntoLoad => DataTransfers.foldSliceIntoLoad block i
  | lowerLoadToFifo => DataTransfers.lowerLoadToFifo block i
  | lowerStoreFromFifo => DataTransfers.lowerStoreFromFifo block i
  | lowerStoreFromLoad => DataTransfers.lowerStoreFromLoad block i
  | lowerIndLoadToFifo => DataTransfers.lowerIndLoadToFifo block i
  | lowerIndStoreFromFifo => DataTransfers.lowerIndStoreFromFifo block i

end DataTransfers

end DataflowScheduler
