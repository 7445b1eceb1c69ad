import DataflowScheduler.Transforms.PathExpansion.Expand

/-!
# Carriers and transfers of flows with hops

Steps 2, 2b and 3 of the planner. What holds a flow's data at a boundary is a buffer or a FIFO; the
operations at the two ends of a flow are pointed at it, FIFOs between original stages are moved to
the units those run on, and every hop stage gets a transfer from the carrier before it to the
carrier after it.
-/

namespace DataflowScheduler

namespace PathExpansion

variable {R : Type} [DecidableEq R]

/-! ## Boundaries -/

/-- `BoundaryPlace`: a buffer in a memory, or a FIFO between two units. -/
inductive BoundaryPlace (R : Type) where
  | memory (memory : R)
  | fifo (fifoSrc fifoDest : R)
  deriving Repr, DecidableEq

/-- `boundaryPlace`. -/
def boundaryPlace (archGraph : RoutingGraph R) (flow : DataFlow R) (k : Nat) :
    Except (PlanError R) (BoundaryPlace R) :=
  match flow.boundaries[k]? with
  | none => .error .noCarrier
  | some idx => do
      let senderLast ← pathNode archGraph flow (idx - 1)
      let receiverFirst ← pathNode archGraph flow idx
      if receiverFirst.kind = .memory then .ok (.memory receiverFirst.resource)
      else if senderLast.kind = .memory then .ok (.memory senderLast.resource)
      else .ok (.fifo senderLast.resource receiverFirst.resource)

/-- `Tile`. -/
structure Tile where
  shape : List Int
  elementType : Opaque
  deriving Repr, DecidableEq

/-- `Tile::numElements`. -/
def Tile.numElements (tile : Tile) : Int := tile.shape.foldl (· * ·) 1

omit [DecidableEq R] in
/-- The element type of a memref or FIFO slot. -/
def elementTypeOf (value : Value R) : Except (PlanError R) Opaque :=
  match value.type with
  | .memref _ elementType _ => .ok elementType
  | .fifoSlot _ _ _ elementType => .ok elementType
  | .other => .error .badCast

/-- The tile of one side of a transfer; none if a size is dynamic. -/
def tileOfSide (operand : TransferOperand R) : Except (PlanError R) (Option Tile) := do
  let elementType ← elementTypeOf operand.value
  .ok ((operand.sizes.mapM Size.getConstantIntValue).map fun shape => ⟨shape, elementType⟩)

/-- `tileOf`. -/
def tileOf (op : Op R) (replacesSource : Bool) : Except (PlanError R) (Option Tile) :=
  match op.kind with
  | .dataTransfer source dest _ =>
      let replaced := if replacesSource then source.value else dest.value
      let useSource := if replaced.type.isMemRef then replacesSource else !replacesSource
      tileOfSide (if useSource then source else dest)
  | .indDataTransfer _ dirSrc dirDst _ => tileOfSide (if replacesSource then dirSrc else dirDst)
  | _ => .error .badCast

/-- `flowTile`. -/
def flowTile (flow : DataFlow R) : Except (PlanError R) (Option Tile) :=
  if flow.producerOp.isDataTransfer || flow.producerOp.isIndDataTransfer then
    tileOf flow.producerOp false
  else if flow.consumerOp.isDataTransfer || flow.consumerOp.isIndDataTransfer then
    tileOf flow.consumerOp true
  else match flow.carrier.type with
    | .fifoSlot _ _ numElements elementType =>
        .ok (numElements.map fun n => ⟨[n], elementType⟩)
    | _ => .error .badCast

/-! ## FIFOs across boundaries -/

/-- `getFifoAllocateResult`, with the result types of the `ktdf.fifo.allocate`. -/
def getFifoAllocateResult (fifoSlot : Value R) : Option (OpResult R × List (ValueType R)) :=
  match fifoSlot.origin with
  | .privateResult (some result) => result.fifoAllocateTypes.map fun types => (result, types)
  | _ => none

/-- `validateFifoSlotIndex`: the assertions of it, on the number of slots of the FIFO. -/
def validateFifoSlotIndex (origFifoValue : Value R) (assignedSlotIdx numSlots : Nat) :
    Except (PlanError R) Unit :=
  let sameIndex := match origFifoValue.origin with
    | .blockArgument => true
    | .privateResult (some result) => decide (assignedSlotIdx = result.resultNumber)
    | .privateResult none | .otherResult => false
  if sameIndex && decide (assignedSlotIdx < numSlots) then .ok () else .error .slotIndexMismatch

/-- The slots of a FIFO. -/
def PrivateResourceSpec.elementsPerSlot : PrivateResourceSpec R → List Int
  | fifo _ _ elementsPerSlot _ => elementsPerSlot
  | _ => []

/-- The original `fifo.allocate` and the two units of a FIFO. -/
abbrev FifoKey (R : Type) := Option OpId × R × R

/-- `BoundaryFifos`. -/
structure BoundaryFifos (R : Type) where
  specs : FifoKey R → Option SpecRef
  nextSlot : FifoKey R → Nat

/-- The original `fifo.allocate` of a flow's carrier, with the two units the flow crosses. -/
def fifoKey (flow : DataFlow R) (src dest : R) : FifoKey R :=
  ((getFifoAllocateResult flow.carrier).map fun result => result.1.owner, src, dest)

/-- A new slot in the FIFO of a key, which is created with its first slot. -/
def BoundaryFifos.addSlot (fifos : BoundaryFifos R) (plan : PathExpansionPlan R) (key : FifoKey R)
    (numElements : Int) (elementType : Opaque) : SpecRef × PathExpansionPlan R :=
  match fifos.specs key with
  | none => plan.createFifo key.2.1 key.2.2 [numElements] elementType
  | some ref => (ref, plan.pushSlot ref numElements)

/-- Remember the FIFO of a key, and that one more slot of it is used. -/
def BoundaryFifos.use (fifos : BoundaryFifos R) (key : FifoKey R) (ref : SpecRef) :
    BoundaryFifos R where
  specs := Function.update fifos.specs key (some ref)
  nextSlot := Function.update fifos.nextSlot key (fifos.nextSlot key + 1)

/-- The assertions on a slot that must mirror the original one. -/
def checkSlot (carrier : Value R) (slot : Nat) (spec : PrivateResourceSpec R) (mirrorSlot : Bool) :
    Except (PlanError R) Unit :=
  if mirrorSlot then validateFifoSlotIndex carrier slot spec.elementsPerSlot.length else .ok ()

/-- `BoundaryFifos::get`. -/
def BoundaryFifos.get (fifos : BoundaryFifos R) (plan : PathExpansionPlan R) (flow : DataFlow R)
    (src dest : R) (tile : Tile) (mirrorSlot : Bool) :
    Except (PlanError R) (SpecRef × Nat × BoundaryFifos R × PathExpansionPlan R) :=
  if flow.carrierIsMemref then
    let (ref, plan) := plan.createFifo src dest [tile.numElements] tile.elementType
    .ok (ref, 0, fifos, plan)
  else match flow.carrier.type with
    | .fifoSlot _ _ none _ => .error .dynamicFifo
    | .fifoSlot _ _ (some numElements) elementType => do
        let key := fifoKey flow src dest
        let added := fifos.addSlot plan key numElements elementType
        let slot := fifos.nextSlot key
        let spec ← added.2.getSpec added.1
        checkSlot flow.carrier slot spec mirrorSlot
        .ok (added.1, slot, fifos.use key added.1, added.2)
    | _ => .error .badCast

/-! ## Ends of flows -/

/-- What steps 2 to 3 change: the plan, the carriers of the flows, and the FIFOs so far. -/
structure EndsState (R : Type) where
  plan : PathExpansionPlan R
  flows : List (DataFlow R)
  fifos : BoundaryFifos R
  /-- The transfers of the hop stages of each flow, in data-flow order: `flow_transfers` without the
  producer's. -/
  hops : Nat → List TransferRef

/-- The transfer that a pointer of the plan stands for. -/
def PathExpansionPlan.getTransfer (plan : PathExpansionPlan R) (ref : TransferRef) :
    Except (PlanError R) (TransferMaterializationInfo R) :=
  match plan.transfers[ref]? with
  | some transfer => .ok transfer
  | none => .error .noCarrier

/-- Whether a transfer was made from the operation. -/
def TransferMaterializationInfo.isFor (transfer : TransferMaterializationInfo R) (op : Op R) : Bool :=
  transfer.templateOp.map Op.id == some op.id

/-- `findTransferForOp`. -/
def findTransferForOp (plan : PathExpansionPlan R) (info : StageMaterializationInfo R) (op : Op R) :
    Option TransferRef :=
  info.transfers.find? fun ref => match plan.transfers[ref]? with
    | some transfer => transfer.isFor op
    | none => false

/-- Append a transfer to a stage. -/
def PathExpansionPlan.pushTransfer (plan : PathExpansionPlan R) (stage : StageRef)
    (info : StageMaterializationInfo R) (transfer : TransferMaterializationInfo R) :
    TransferRef × PathExpansionPlan R :=
  let (ref, plan) := plan.addTransfer transfer
  (ref, plan.setStageInfo stage { info with transfers := info.transfers ++ [ref] })

/-- Assign to a carrier of a flow. -/
def setCarrier (flows : List (DataFlow R)) (flowIdx k : Nat) (carrier : TransferSide R) :
    List (DataFlow R) :=
  flows.modify flowIdx fun flow => { flow with carriers := flow.carriers.set k carrier }

/-- The resources at the two ends of the edge that an adapted transfer implements. -/
def endResources (place : BoundaryPlace R) (here : Option R) (isProducer : Bool) :
    Option R × Option R :=
  let there := match place with
    | .memory memory => memory
    | .fifo fifoSrc fifoDest => if isProducer then fifoDest else fifoSrc
  if isProducer then (here, some there) else (some there, here)

/-- The edge of a boundary. -/
def boundaryEdge (flow : DataFlow R) (k : Nat) : Except (PlanError R) EdgeInfo :=
  match flow.boundaries[k]? with
  | none => .error .noCarrier
  | some idx => match flow.path[idx - 1]?, flow.path[idx]? with
    | some source, some target => .ok ⟨source, target, 1⟩
    | _, _ => .error .badCast

/-- A carrier that is a memref in the memory of the boundary already. -/
def carrierInPlace (flow : DataFlow R) (place : BoundaryPlace R) : Bool :=
  match place with
  | .memory memory => flow.carrierIsMemref && decide (memrefMemorySpace flow.carrier = some memory)
  | .fifo .. => false

/-- `adaptEnd` where the carrier is used as it is. -/
def keepCarrier (state : EndsState R) (op : Op R) (flowIdx k : Nat) (carrier : Value R)
    (sourceSide : Bool) : Except (PlanError R) (EndsState R) := do
  let side ← describeTemplateSide op sourceSide
  let (ref, plan) ← state.plan.createExistingValue carrier
  .ok { state with
    plan := plan
    flows := setCarrier state.flows flowIdx k { side with resource := some ref } }

/-- `adaptEnd` of a `read_from_fifo` or `write_to_fifo`. -/
def adaptFifoOp (state : EndsState R) (stage : StageRef) (op : Op R) (flow : DataFlow R)
    (flowIdx k : Nat) (fifoSrc fifoDest : R) (sourceSide : Bool) (edge : EdgeInfo)
    (resources : Option R × Option R) : Except (PlanError R) (EndsState R) := do
  let (ref, slot, fifos, plan) ← state.fifos.get state.plan flow fifoSrc fifoDest ⟨[], 0⟩ true
  let info ← plan.getStageInfo stage
  let transfer := createFromFifoOp op edge resources.1 resources.2 ref slot sourceSide
  let (_, plan) := plan.pushTransfer stage { info with kind := .adaptFifoKinds } transfer
  .ok ⟨plan, setCarrier state.flows flowIdx k (transfer.side sourceSide), fifos, state.hops⟩

/-- The buffer or FIFO slot that an adapted transfer uses. -/
def placeResource (state : EndsState R) (flow : DataFlow R) (place : BoundaryPlace R) (tile : Tile)
    (mirrorSlot : Bool) : Except (PlanError R) (SpecRef × Nat × BoundaryFifos R × PathExpansionPlan R) :=
  match place with
  | .memory memory =>
      let (ref, plan) := state.plan.createMemoryBuffer memory tile.shape tile.elementType
      .ok (ref, 0, state.fifos, plan)
  | .fifo fifoSrc fifoDest => state.fifos.get state.plan flow fifoSrc fifoDest tile mirrorSlot

/-- The transfer of an operation in its stage, created from it if there is none. -/
def transferFor (plan : PathExpansionPlan R) (stage : StageRef) (op : Op R) (edge : EdgeInfo)
    (resources : Option R × Option R) : Except (PlanError R) (TransferRef × PathExpansionPlan R) := do
  let info ← plan.getStageInfo stage
  match findTransferForOp plan info op with
  | some ref => .ok (ref, plan)
  | none => do
      let transfer ← createFromTemplate op edge resources.1 resources.2
      .ok (plan.pushTransfer stage info transfer)

/-- A stage that was to be kept is to have its transfers adapted. -/
def StageMaterializationInfo.adaptTransfers (info : StageMaterializationInfo R) :
    StageMaterializationInfo R :=
  if info.kind = .preserveOriginal then { info with kind := .adaptTransfer } else info

/-- `adaptEnd` of a data transfer or an indirect one. -/
def adaptTransferOp (state : EndsState R) (stage : StageRef) (op : Op R) (flow : DataFlow R)
    (flowIdx k : Nat) (place : BoundaryPlace R) (sourceSide : Bool) (edge : EdgeInfo)
    (resources : Option R × Option R) : Except (PlanError R) (EndsState R) := do
  let tile ← tileOf op sourceSide
  match tile with
  | none => .error (.dynamicSize stage)
  | some tile => do
      let (spec, slot, fifos, plan) ← placeResource state flow place tile true
      let (ref, plan) ← transferFor plan stage op edge resources
      let transfer ← plan.getTransfer ref
      let resource ← plan.getSpec spec
      let transfer ← retargetSide transfer op sourceSide spec resource slot
      let plan := plan.setTransfer ref transfer
      let info ← plan.getStageInfo stage
      let plan := plan.setStageInfo stage info.adaptTransfers
      .ok ⟨plan, setCarrier state.flows flowIdx k (transfer.side sourceSide), fifos, state.hops⟩

/-- `adaptEnd` of `adaptFlowEnds`. -/
def adaptEnd (archGraph : RoutingGraph R) (stage : StageRef) (op : Op R) (state : EndsState R)
    (flowIdx : Nat) (isProducer : Bool) : Except (PlanError R) (EndsState R) :=
  match state.flows[flowIdx]? with
  | none => .error .noCarrier
  | some flow => do
      let info ← state.plan.getStageInfo stage
      let k := if isProducer then 0 else flow.chain.length
      let place ← boundaryPlace archGraph flow k
      if carrierInPlace flow place then
        keepCarrier state op flowIdx k flow.carrier (!isProducer)
      else do
        let edge ← boundaryEdge flow k
        let resources := endResources place info.stageResource isProducer
        match place with
        | .memory _ =>
            if op.isFifoOp then .error (.cannotExchange stage op.id)
            else adaptTransferOp state stage op flow flowIdx k place (!isProducer) edge resources
        | .fifo fifoSrc fifoDest =>
            if op.isIndDataTransfer then .error (.cannotExchange stage op.id)
            else if op.isFifoOp then
              adaptFifoOp state stage op flow flowIdx k fifoSrc fifoDest (!isProducer) edge resources
            else adaptTransferOp state stage op flow flowIdx k place (!isProducer) edge resources

/-- The ends of flows with hops that an operation is: flow, and whether it is the producer. -/
def opEnds (flows : List (DataFlow R)) (op : Op R) : List (Nat × Bool) :=
  flows.zipIdx.flatMap fun (flow, flowIdx) =>
    if flow.chain.isEmpty then []
    else (if flow.consumerOp.id = op.id then [(flowIdx, false)] else []) ++
      if flow.producerOp.id = op.id then [(flowIdx, true)] else []

/-- The operations of a stage that may be an end: indirect transfers, data transfers, FIFO
operations. -/
def endOps (stageOp : StageOp R) : List (Op R) :=
  stageOp.walk.filter Op.isIndDataTransfer ++ stageOp.walk.filter Op.isDataTransfer ++
    stageOp.walk.filter Op.isFifoOp

/-- `flow.carriers.resize`. -/
def DataFlow.resizeCarriers (flow : DataFlow R) : DataFlow R :=
  if flow.chain.isEmpty then flow
  else { flow with
    carriers := flow.carriers.take (flow.chain.length + 1) ++
      List.replicate (flow.chain.length + 1 - flow.carriers.length) .unset }

/-- The round of `adaptFlowEnds` for one operation. -/
def adaptOp (archGraph : RoutingGraph R) (flows : List (DataFlow R)) (stage : StageRef)
    (state : EndsState R) (op : Op R) : Except (PlanError R) (EndsState R) :=
  (opEnds flows op).foldlM
    (fun state flowEnd => adaptEnd archGraph stage op state flowEnd.1 flowEnd.2) state

/-- The round of `adaptFlowEnds` for one stage. -/
def adaptStage (archGraph : RoutingGraph R) (pipeline : StagePipeline R) (flows : List (DataFlow R))
    (state : EndsState R) (stage : StageRef) : Except (PlanError R) (EndsState R) :=
  match pipeline.operation stage with
  | none => .ok state
  | some stageOp => (endOps stageOp).foldlM (adaptOp archGraph flows stage) state

/-- `adaptFlowEnds`. -/
def adaptFlowEnds (pipeline : StagePipeline R) (expandedStages : List StageRef)
    (archGraph : RoutingGraph R) (state : EndsState R) : Except (PlanError R) (EndsState R) :=
  let flows := state.flows.map DataFlow.resizeCarriers
  expandedStages.foldlM (adaptStage archGraph pipeline flows) { state with flows := flows }

end PathExpansion

end DataflowScheduler
