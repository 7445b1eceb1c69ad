import DataflowScheduler.Analysis.RoutingGraph
import DataflowScheduler.Analysis.PipelineTree

/-!
# Stages and plans of path expansion

The IR that the path-expansion planner reads, and the plan it writes. Operations and values have an
identity; a value carries its type and, where it is the result of a `ktdf.private`, what that
operation yields for it. The plan's resource specs and transfers are owned by factories and passed
around as pointers, which are positions in the factories' lists here.
-/

namespace DataflowScheduler

namespace PathExpansion

abbrev OpId := Nat

/-- A type or map that planning passes on, or compares, without looking inside. -/
abbrev Opaque := Nat

/-! ## Values -/

/-- The types of values, as far as planning looks at them. A dynamic dimension or number of elements
is `none`, and so is a FIFO end that is not a resource. -/
inductive ValueType (R : Type) where
  | memref (shape : List (Option Int)) (elementType : Opaque) (memorySpace : Option R)
  | fifoSlot (src dest : Option R) (numElements : Option Int) (elementType : Opaque)
  | other
  deriving Repr, DecidableEq

namespace ValueType

variable {R : Type}

def isMemRef : ValueType R → Bool
  | memref .. => true
  | _ => false

def isFifoSlot : ValueType R → Bool
  | fifoSlot .. => true
  | _ => false

end ValueType

/-- A result of an operation. -/
structure OpResult (R : Type) where
  owner : OpId
  resultNumber : Nat
  /-- The types of all results, if the owner is a `ktdf.fifo.allocate`. -/
  fifoAllocateTypes : Option (List (ValueType R))
  deriving Repr, DecidableEq

/-- Where a value comes from. -/
inductive ValueOrigin (R : Type) where
  | blockArgument
  /-- A result of a `ktdf.private`, and what that yields for it, if that is a result. -/
  | privateResult (yielded : Option (OpResult R))
  | otherResult
  deriving Repr, DecidableEq

/-- An SSA value. -/
structure Value (R : Type) where
  id : Nat
  type : ValueType R
  origin : ValueOrigin R
  deriving Repr, DecidableEq

/-- A size operand: a constant or a value. -/
inductive Size (R : Type) where
  | const (n : Int)
  | dynamic (v : Value R)
  deriving Repr, DecidableEq

/-- `getConstantIntValue`. -/
def Size.getConstantIntValue {R : Type} : Size R → Option Int
  | const n => some n
  | dynamic _ => none

/-! ## Operations -/

/-- `ktdf::TransferMode`. -/
inductive TransferMode where
  | copy
  | splat
  | pad
  deriving Repr, DecidableEq

/-- What a transfer reads or writes on one side, and how it addresses it. -/
structure TransferOperand (R : Type) where
  value : Value R
  indices : List (Value R)
  sizes : List (Size R)
  map : Option Opaque
  deriving Repr, DecidableEq

/-- The values that one side of a transfer uses. -/
def TransferOperand.values {R : Type} (operand : TransferOperand R) : List (Value R) :=
  operand.value :: operand.indices ++ operand.sizes.filterMap fun
    | .const _ => none
    | .dynamic v => some v

/-- Operations, by how planning and materialization treat them. -/
inductive OpKind (R : Type) where
  /-- `ktdf.data_transfer` -/
  | dataTransfer (source dest : TransferOperand R) (transferMode : TransferMode)
  /-- `ktdf.ind_data_transfer`; the address operands are kept apart. -/
  | indDataTransfer (isGather : Bool) (dirSrc dirDst : TransferOperand R)
      (addressOperands : List (Value R))
  /-- `ktdf.read_from_fifo` -/
  | readFromFifo (fifoSlot : Value R)
  /-- `ktdf.write_to_fifo` -/
  | writeToFifo (data fifoSlot : Value R)
  | other (operands : List (Value R)) (isTerminator : Bool)
  deriving Repr, DecidableEq

/-- An operation with the operations in its regions. -/
inductive Op (R : Type) where
  | mk (id : OpId) (kind : OpKind R) (body : List (Op R))

namespace Op

variable {R : Type}

def id : Op R → OpId
  | mk id _ _ => id

def kind : Op R → OpKind R
  | mk _ kind _ => kind

def body : Op R → List (Op R)
  | mk _ _ body => body

mutual

/-- The operations of a post-order walk. -/
def walk : Op R → List (Op R)
  | mk id kind body => walkBody body ++ [mk id kind body]

/-- A post-order walk of a region. -/
def walkBody : List (Op R) → List (Op R)
  | [] => []
  | op :: ops => op.walk ++ walkBody ops

end

def isDataTransfer (op : Op R) : Bool :=
  match op.kind with
  | .dataTransfer .. => true
  | _ => false

def isIndDataTransfer (op : Op R) : Bool :=
  match op.kind with
  | .indDataTransfer .. => true
  | _ => false

/-- Whether the operation is a `read_from_fifo` or a `write_to_fifo`. -/
def isFifoOp (op : Op R) : Bool :=
  match op.kind with
  | .readFromFifo .. | .writeToFifo .. => true
  | _ => false

def isTerminator (op : Op R) : Bool :=
  match op.kind with
  | .other _ isTerminator => isTerminator
  | _ => false

/-- `op->getOperands()`. -/
def operands (op : Op R) : List (Value R) :=
  match op.kind with
  | .dataTransfer source dest _ => source.values ++ dest.values
  | .indDataTransfer _ dirSrc dirDst addressOperands =>
      dirSrc.values ++ dirDst.values ++ addressOperands
  | .readFromFifo fifoSlot => [fifoSlot]
  | .writeToFifo data fifoSlot => [data, fifoSlot]
  | .other operands _ => operands

end Op

/-- A `ktdf.stage`. An applicable unit that is not a resource is `none`. -/
structure StageOp (R : Type) where
  id : OpId
  applicableUnits : Option (List (Option R))
  body : List (Op R)

/-- The operations of a walk over a stage, without the stage itself. -/
def StageOp.walk {R : Type} (stage : StageOp R) : List (Op R) := Op.walkBody stage.body

/-! ## The plan -/

/-- `PrivateResourceSpec`: a buffer or FIFO to allocate, or a value of the original IR. -/
inductive PrivateResourceSpec (R : Type) where
  | memoryBuffer (memoryResource : R) (shape : List Int) (elementType : Opaque)
  | fifo (fifoSrc fifoDest : R) (elementsPerSlot : List Int) (elementType : Opaque)
  | existingValue (value : Value R) (memoryResource : Option R) (shape : List (Option Int))
      (elementType : Opaque)
  deriving Repr, DecidableEq

def PrivateResourceSpec.isFifo {R : Type} : PrivateResourceSpec R → Bool
  | fifo .. => true
  | _ => false

/-- A `PrivateResourceSpec*`. -/
abbrev SpecRef := Nat

/-- A `TransferMaterializationInfo*`. -/
abbrev TransferRef := Nat

/-- An index of a transfer: one of the original operation, or the zero constant that addresses a new
buffer. -/
inductive Index (R : Type) where
  | value (v : Value R)
  | zero
  deriving Repr, DecidableEq

/-- A subscript map: one of the original operation, or an identity. -/
inductive SubscriptMap where
  | original (map : Opaque)
  | identity (rank : Nat)
  deriving Repr, DecidableEq

/-- `TransferSide`. A null `resource` keeps the operand of the template. -/
structure TransferSide (R : Type) where
  resource : Option SpecRef
  slotIndex : Nat
  indices : List (Index R)
  sizes : List (Size R)
  map : Option SubscriptMap
  deriving Repr, DecidableEq

/-- `TransferMaterializationInfo`. -/
structure TransferMaterializationInfo (R : Type) where
  templateOp : Option (Op R)
  hop : EdgeInfo
  sourceResource : Option R
  destResource : Option R
  transferMode : TransferMode
  source : TransferSide R
  dest : TransferSide R

/-- `TransferMaterializationInfo::side`. -/
def TransferMaterializationInfo.side {R : Type} (t : TransferMaterializationInfo R)
    (sourceSide : Bool) : TransferSide R := if sourceSide then t.source else t.dest

/-- Assign to `side`. -/
def TransferMaterializationInfo.setSide {R : Type} (t : TransferMaterializationInfo R)
    (sourceSide : Bool) (side : TransferSide R) : TransferMaterializationInfo R :=
  if sourceSide then { t with source := side } else { t with dest := side }

/-- `StageMaterializationInfo::Kind`. -/
inductive StageKind where
  | preserveOriginal
  | adaptFifoKinds
  | adaptTransfer
  | syntheticTransfer
  deriving Repr, DecidableEq

/-- `StageMaterializationInfo`. A null resource is `none`. -/
structure StageMaterializationInfo (R : Type) where
  kind : StageKind
  stageResource : Option R
  transfers : List TransferRef
  applicableUnit : Option R
  deriving Repr, DecidableEq

/-- A default-constructed `StageMaterializationInfo`. -/
def StageMaterializationInfo.default {R : Type} : StageMaterializationInfo R :=
  ⟨.preserveOriginal, none, [], none⟩

/-- `PathExpansionPlan`, with what its factories own. -/
structure PathExpansionPlan (R : Type) where
  stageInfo : StageRef → Option (StageMaterializationInfo R)
  specs : List (PrivateResourceSpec R)
  transfers : List (TransferMaterializationInfo R)
  changed : Bool

end PathExpansion

end DataflowScheduler
