import DataflowScheduler.Util.Except
import DataflowScheduler.Transforms.PathExpansion.Ir

/-!
# Planner factories

`PrivateResourceFactory` and `TransferInfoFactory`: how specs and transfers of a plan are made, and
how one side of a transfer is pointed somewhere else. Every way planning can end early is a
`PlanError`; failed assertions are among them.
-/

namespace DataflowScheduler

namespace PathExpansion

/-- Why planning stops. -/
inductive PlanError (R : Type) where
  /-- A lookup in the routing graph asserts. -/
  | lookup (error : RoutingGraph.LookupError R)
  /-- A lookup of a null resource asserts. -/
  | nullResource
  /-- "node in path must exist in graph" -/
  | nodeNotInGraph (id : RoutingGraph.NodeId)
  /-- "expected operation to be valid for original stages" -/
  | noOperation (stage : StageRef)
  /-- "Stage should have materialization info" -/
  | noStageInfo (stage : StageRef)
  /-- No side was recorded for the stage. -/
  | noSide (stage : StageRef)
  /-- "path expansion currently does not handle nested pipelines with multi-unit stages" -/
  | multiUnitStage (stage : StageRef)
  /-- A cast of an attribute, operation or type asserts. -/
  | badCast
  /-- "Unable to determine stage_resource for original stage: it has no data transfer" -/
  | noDataTransfer (stage : StageRef)
  /-- "A stage with no predecessors must have a memref source on every data_transfer" -/
  | sourceNotMemRef (stage : StageRef)
  /-- "A stage with no successors must have a memref dest on every data_transfer" -/
  | destNotMemRef (stage : StageRef)
  /-- "Compute stages should be pinned to a unit" -/
  | computeNotPinned (stage : StageRef)
  /-- "Slot index out of bounds" -/
  | slotOutOfBounds
  /-- "expected result index to match our calculated fifo slot index" and the assertions around
  it -/
  | slotIndexMismatch
  /-- "Dynamic FIFO sizes not supported in path expansion" -/
  | dynamicFifo
  /-- "Expected all slots of a fifo.allocate to share an element type" -/
  | elementTypesDiffer
  /-- "FIFO slot was rewritten on only one end; producer and consumer would use different FIFOs" -/
  | rewrittenOnOneEnd
  /-- "Every boundary of a flow with hops should have a carrier" -/
  | noCarrier
  /-- "Pipeline has no stage pinned to a compute unit" -/
  | noComputeStage
  /-- "Stage %d sits between two compute stages" -/
  | betweenComputeStages (stage : StageRef)
  /-- "Stage %d is not connected to any compute stage" -/
  | notConnected (stage : StageRef)
  /-- "Failed to perform topological sort (cycle detected)" -/
  | cycle
  /-- "the stage's FIFOs place it on two different units, %s and %s" -/
  | fifosOnTwoUnits (stage : StageRef) (unit₁ unit₂ : R)
  /-- "the data transfers of a stage must all read from the same place or all write to the same
  place" -/
  | noSharedPlace (stage : StageRef)
  /-- "cannot tell which memory unit %s works on for this stage" -/
  | noMemoryOfUnit (stage : StageRef) (unit : R)
  /-- "the stage uses memory %s, but its FIFOs place it on unit %s, which works on %s" -/
  | memoryMismatch (stage : StageRef) (memory unit unitMemory : R)
  /-- "No routing path from stage %d to stage %d" -/
  | noPath (producer consumer : StageRef)
  /-- "stage is reached through two different units, %s and %s" -/
  | twoUnits (stage : StageRef) (unit₁ unit₂ : R)
  /-- "stage runs on unit %s, which another stage of the pipeline already runs on" -/
  | unitTaken (stage : StageRef) (unit : R) (other : StageRef)
  /-- "FIFO slot has more than one producer" or "consumer" -/
  | fifoSlotShared (op : OpId) (isProducer : Bool)
  /-- "Memory %s between stage %d and stage %d has no load unit after it" -/
  | noLoadUnit (memory : R)
  /-- "Path from stage %d to stage %d passes through compute unit %s, which has no stage" -/
  | computeOnPath (unit : R)
  /-- "Path from stage %d to stage %d passes through unit %s twice, but a unit can run only one
  stage" -/
  | unitTwice (unit : R)
  /-- "Path from stage %d to stage %d needs unit %s for memory %s, but stage %d already uses it for
  memory %s" -/
  | unitOtherMemory (unit : R) (memory : Option R) (owner : StageRef)
  /-- "expected position to be one of the existing children of this node" -/
  | notInPipeline (stage : StageRef)
  /-- "Giving hops to existing stages created a dependency cycle" -/
  | hopCycle
  /-- "Unit %s runs more than one stage" -/
  | unitRunsTwoStages (unit : R)
  /-- "cannot make %s exchange data with a hop stage through memory %s" or "a FIFO from %s" -/
  | cannotExchange (stage : StageRef) (op : OpId)
  /-- "transfer has a dynamic size" -/
  | dynamicSize (stage : StageRef)
  /-- "Flow from stage %d to stage %d moves data of a dynamic size" -/
  | dynamicFlow (producer consumer : StageRef)
  /-- "cannot trace FIFO slot to its fifo.allocate" -/
  | cannotTrace (op : OpId)
  /-- "retyping a FIFO used by an indirect data transfer is not supported" -/
  | indirectRetype (op : OpId)
  /-- "cannot retype a fifo.allocate whose slots do not all connect the same pair of units" -/
  | cannotRetype (alloc : OpId)
  deriving Repr, DecidableEq

variable {R : Type}

/-! ## Private resources -/

/-- A FIFO with one more slot. -/
def PrivateResourceSpec.pushSlot (spec : PrivateResourceSpec R) (numElements : Int) :
    PrivateResourceSpec R :=
  match spec with
  | fifo src dest slots elementType => fifo src dest (slots ++ [numElements]) elementType
  | spec => spec

@[simp]
theorem PrivateResourceSpec.isFifo_pushSlot (spec : PrivateResourceSpec R) (numElements : Int) :
    (spec.pushSlot numElements).isFifo = spec.isFifo := by
  cases spec with
  | memoryBuffer => rfl
  | fifo => rfl
  | existingValue => rfl

namespace PathExpansionPlan

/-- Own a new spec. -/
def addSpec (plan : PathExpansionPlan R) (spec : PrivateResourceSpec R) :
    SpecRef × PathExpansionPlan R :=
  (plan.specs.length, { plan with specs := plan.specs ++ [spec] })

/-- Own a new transfer. -/
def addTransfer (plan : PathExpansionPlan R) (transfer : TransferMaterializationInfo R) :
    TransferRef × PathExpansionPlan R :=
  (plan.transfers.length, { plan with transfers := plan.transfers ++ [transfer] })

/-- Write through a transfer pointer. -/
def setTransfer (plan : PathExpansionPlan R) (ref : TransferRef)
    (transfer : TransferMaterializationInfo R) : PathExpansionPlan R :=
  { plan with transfers := plan.transfers.set ref transfer }

/-- `PathExpansionPlan::getStageInfo`. -/
def getStageInfo (plan : PathExpansionPlan R) (stage : StageRef) :
    Except (PlanError R) (StageMaterializationInfo R) :=
  match plan.stageInfo stage with
  | some info => .ok info
  | none => .error (.noStageInfo stage)

theorem getStageInfo_eq_ok {plan : PathExpansionPlan R} {stage : StageRef}
    {info : StageMaterializationInfo R} :
    plan.getStageInfo stage = .ok info ↔ plan.stageInfo stage = some info := by
  unfold getStageInfo
  cases plan.stageInfo stage with
  | none => simp
  | some info' => simp

/-- Write a stage's entry. -/
def setStageInfo (plan : PathExpansionPlan R) (stage : StageRef)
    (info : StageMaterializationInfo R) : PathExpansionPlan R :=
  { plan with stageInfo := Function.update plan.stageInfo stage (some info) }

theorem stageInfo_setStageInfo (plan : PathExpansionPlan R) (stage s : StageRef)
    (info : StageMaterializationInfo R) :
    (plan.setStageInfo stage info).stageInfo s =
      if s = stage then some info else plan.stageInfo s := Function.update_apply _ _ _ _

/-- `PrivateResourceFactory::createMemoryBuffer`. -/
def createMemoryBuffer (plan : PathExpansionPlan R) (memoryResource : R) (shape : List Int)
    (elementType : Opaque) : SpecRef × PathExpansionPlan R :=
  plan.addSpec (.memoryBuffer memoryResource shape elementType)

/-- `PrivateResourceFactory::createFifo`. -/
def createFifo (plan : PathExpansionPlan R) (fifoSrc fifoDest : R) (elementsPerSlot : List Int)
    (elementType : Opaque) : SpecRef × PathExpansionPlan R :=
  plan.addSpec (.fifo fifoSrc fifoDest elementsPerSlot elementType)

/-- `PrivateResourceFactory::createExistingValue`. -/
def createExistingValue (plan : PathExpansionPlan R) (value : Value R) :
    Except (PlanError R) (SpecRef × PathExpansionPlan R) :=
  match value.type with
  | .memref shape elementType memorySpace =>
      .ok (plan.addSpec (.existingValue value memorySpace shape elementType))
  | _ => .error .badCast

/-- `spec->elements_per_slot.push_back`. -/
def pushSlot (plan : PathExpansionPlan R) (ref : SpecRef) (numElements : Int) :
    PathExpansionPlan R :=
  { plan with specs := plan.specs.modify ref fun spec => spec.pushSlot numElements }

end PathExpansionPlan

/-! ## Transfers -/

/-- `getTemplateOperand`. For an indirect transfer this is the direct operand. -/
def getTemplateOperand (op : Op R) (sourceSide : Bool) : Except (PlanError R) (TransferOperand R) :=
  match op.kind with
  | .dataTransfer source dest _ => .ok (if sourceSide then source else dest)
  | .indDataTransfer _ dirSrc dirDst _ => .ok (if sourceSide then dirSrc else dirDst)
  | _ => .error .badCast

/-- `TransferInfoFactory::describeTemplateSide`. -/
def describeTemplateSide (op : Op R) (sourceSide : Bool) : Except (PlanError R) (TransferSide R) := do
  let operand ← getTemplateOperand op sourceSide
  .ok ⟨none, 0, operand.indices.map .value, operand.sizes, operand.map.map .original⟩

/-- `deriveSizesFromResourceSpec`: the sizes it appends. -/
def deriveSizesFromResourceSpec (spec : PrivateResourceSpec R) (slotIndex : Nat) :
    Except (PlanError R) (List (Size R)) :=
  match spec with
  | .fifo _ _ elementsPerSlot _ =>
      match elementsPerSlot[slotIndex]? with
      | some capacity => .ok [.const capacity]
      | none => .error .slotOutOfBounds
  | .memoryBuffer _ shape _ => .ok (shape.map .const)
  | .existingValue .. => .ok []

/-- `TransferInfoFactory::describePrivateSide`. -/
def describePrivateSide (ref : SpecRef) (spec : PrivateResourceSpec R) (slotIndex : Nat) :
    Except (PlanError R) (TransferSide R) := do
  let sizes ← deriveSizesFromResourceSpec spec slotIndex
  match spec with
  | .memoryBuffer _ shape _ =>
      .ok ⟨some ref, slotIndex, shape.map fun _ => .zero, sizes, some (.identity shape.length)⟩
  | _ => .ok ⟨some ref, slotIndex, [], sizes, none⟩

/-- The spec of a valid pointer. -/
def PathExpansionPlan.getSpec (plan : PathExpansionPlan R) (ref : SpecRef) :
    Except (PlanError R) (PrivateResourceSpec R) :=
  match plan.specs[ref]? with
  | some spec => .ok spec
  | none => .error .noCarrier

/-- `TransferInfoFactory::retargetSide`. A FIFO operand replaced by another FIFO keeps its indices
and sizes. -/
def retargetSide (transfer : TransferMaterializationInfo R) (op : Op R) (sourceSide : Bool)
    (ref : SpecRef) (spec : PrivateResourceSpec R) (slotIndex : Nat) :
    Except (PlanError R) (TransferMaterializationInfo R) := do
  let operand ← getTemplateOperand op sourceSide
  if spec.isFifo && operand.value.type.isFifoSlot then
    .ok (transfer.setSide sourceSide
      { transfer.side sourceSide with resource := some ref, slotIndex := slotIndex })
  else
    let side ← describePrivateSide ref spec slotIndex
    .ok (transfer.setSide sourceSide side)

/-- `getTransferMode` of a data transfer, and the default for other operations. -/
def Op.transferMode (op : Op R) : TransferMode :=
  match op.kind with
  | .dataTransfer _ _ mode => mode
  | _ => .copy

/-- `TransferInfoFactory::createFromTemplate`. -/
def createFromTemplate (op : Op R) (edge : EdgeInfo) (sourceResource destResource : Option R) :
    Except (PlanError R) (TransferMaterializationInfo R) := do
  let source ← describeTemplateSide op true
  let dest ← describeTemplateSide op false
  .ok ⟨some op, edge, sourceResource, destResource, op.transferMode, source, dest⟩

/-- A side that was not set. -/
def TransferSide.unset : TransferSide R := ⟨none, 0, [], [], none⟩

/-- `TransferInfoFactory::createFromFifoOp`. -/
def createFromFifoOp (op : Op R) (edge : EdgeInfo) (sourceResource destResource : Option R)
    (fifoSpec : SpecRef) (slotIndex : Nat) (isRead : Bool) : TransferMaterializationInfo R :=
  TransferMaterializationInfo.setSide
    ⟨some op, edge, sourceResource, destResource, .copy, .unset, .unset⟩ isRead
    { TransferSide.unset with resource := some fifoSpec, slotIndex := slotIndex }

/-- The sizes of a side: its own, or the whole of its resource. -/
def fillSizes (spec : PrivateResourceSpec R) (side : TransferSide R) :
    Except (PlanError R) (List (Size R)) :=
  if side.sizes.isEmpty then deriveSizesFromResourceSpec spec side.slotIndex else .ok side.sizes

/-- What `createSynthetic` fills in on one side. -/
def fillSide (plan : PathExpansionPlan R) (side : TransferSide R) :
    Except (PlanError R) (TransferSide R) :=
  match side.resource with
  | none => .error .noCarrier
  | some ref => do
      let spec ← plan.getSpec ref
      let sizes ← fillSizes spec side
      let map := match side.map, spec with
        | some map, _ => some map
        | none, .fifo .. => none
        | none, .memoryBuffer _ shape _ => some (.identity shape.length)
        | none, .existingValue _ _ shape _ => some (.identity shape.length)
      .ok { side with sizes := sizes, map := map }

/-- `TransferInfoFactory::createSynthetic`. -/
def createSynthetic (plan : PathExpansionPlan R) (edge : EdgeInfo)
    (sourceResource destResource : Option R) (source dest : TransferSide R) :
    Except (PlanError R) (TransferMaterializationInfo R) := do
  let source ← fillSide plan source
  let dest ← fillSide plan dest
  .ok ⟨none, edge, sourceResource, destResource, .copy, source, dest⟩

end PathExpansion

end DataflowScheduler
