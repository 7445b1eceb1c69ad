import DataflowScheduler.Transforms.PathExpansion.FlowEnds

/-!
# The path-expansion planner

Steps 2b and 3, and `planPathExpansion`, which puts all steps together. The pipeline it returns is
the one the source changes in place, and the flows are those it keeps to itself.
-/

namespace DataflowScheduler

namespace PathExpansion

variable {R : Type} [DecidableEq R]

/-! ## FIFOs between original stages -/

omit [DecidableEq R] in
/-- `transferRewritesFifo` on the transfer that `findTransferForOp` finds. -/
def rewritesFifo (plan : PathExpansionPlan R) (endpoint : FifoEndpoint R) : Bool :=
  let info := (plan.stageInfo endpoint.stage).getD .default
  match (findTransferForOp plan info endpoint.op).bind fun ref => plan.transfers[ref]? with
  | some transfer => (transfer.side endpoint.fifoIsSource).resource.isSome
  | none => false

/-- `SlotToRetype`. -/
structure SlotToRetype (R : Type) where
  fifoSlot : Value R
  slotIdx : Nat
  producer : FifoEndpoint R
  consumer : FifoEndpoint R
  expected : R × R

/-- `AllocToRetype`, with the allocation it is for and the types of its results. -/
structure AllocToRetype (R : Type) where
  owner : OpId
  resultTypes : List (ValueType R)
  slots : List (SlotToRetype R)
  needsRetype : Bool

/-- Add a slot to its allocation. -/
def addSlotToRetype (allocs : List (AllocToRetype R)) (owner : OpId)
    (resultTypes : List (ValueType R)) (slot : SlotToRetype R) (needsRetype : Bool) :
    List (AllocToRetype R) :=
  if allocs.any (fun alloc => alloc.owner = owner) then
    allocs.map fun alloc =>
      if alloc.owner = owner then { alloc with
        slots := alloc.slots ++ [slot]
        needsRetype := alloc.needsRetype || needsRetype }
      else alloc
  else allocs ++ [⟨owner, resultTypes, [slot], needsRetype⟩]

/-- The unit planned for a stage. -/
def PathExpansionPlan.unitOf (plan : PathExpansionPlan R) (stage : StageRef) : Option R :=
  (plan.stageInfo stage).bind StageMaterializationInfo.applicableUnit

/-- Whether a FIFO slot connects other places than two units. -/
def slotNeedsRetype (fifoSlot : Value R) (expected : R × R) : Except (PlanError R) Bool :=
  match fifoSlot.type with
  | .fifoSlot src dest _ _ => .ok (decide ((some expected.1, some expected.2) ≠ (src, dest)))
  | _ => .error .badCast

/-- The first loop of `retypeFifosBetweenOriginalStages`. -/
def classifySlot (endpoints : FifoEndpoints R) (plan : PathExpansionPlan R)
    (allocs : List (AllocToRetype R)) (slot : Value R × FifoEndpoint R) :
    Except (PlanError R) (List (AllocToRetype R)) :=
  match findEndpoint endpoints.consumers slot.1 with
  | none => .ok allocs
  | some consumer =>
      if rewritesFifo plan slot.2 ≠ rewritesFifo plan consumer then .error .rewrittenOnOneEnd
      else if rewritesFifo plan slot.2 then .ok allocs
      else match plan.unitOf slot.2.stage, plan.unitOf consumer.stage with
        | some srcUnit, some destUnit => do
            let needsRetype ← slotNeedsRetype slot.1 (srcUnit, destUnit)
            match getFifoAllocateResult slot.1 with
            | none => if needsRetype then .error (.cannotTrace slot.2.op.id) else .ok allocs
            | some (result, resultTypes) =>
                if needsRetype ∧ slot.1 ∈ endpoints.indirectSlots then
                  .error (.indirectRetype slot.2.op.id)
                else .ok (addSlotToRetype allocs result.owner resultTypes
                  ⟨slot.1, result.resultNumber, slot.2, consumer, (srcUnit, destUnit)⟩ needsRetype)
        | _, _ => .ok allocs

/-- The number of elements and the element type of a FIFO slot. -/
def staticSlot : ValueType R → Except (PlanError R) (Int × Opaque)
  | .fifoSlot _ _ (some numElements) elementType => .ok (numElements, elementType)
  | .fifoSlot _ _ none _ => .error .dynamicFifo
  | _ => .error .badCast

/-- The slots of the new FIFO that mirrors an allocation. -/
def mirrorSlots (resultTypes : List (ValueType R)) : Except (PlanError R) (List Int × Opaque) := do
  let slots ← resultTypes.mapM staticSlot
  match slots with
  | [] => .ok ([], 0)
  | (_, elementType) :: _ =>
      if slots.all fun slot => slot.2 = elementType then .ok (slots.map Prod.fst, elementType)
      else .error .elementTypesDiffer

/-- The edge between the resources of two stages, or a dummy. -/
def retypeEdge (archGraph : RoutingGraph R) (producer consumer : StageMaterializationInfo R) :
    Except (PlanError R) EdgeInfo := do
  let source ← getNodeIdOf archGraph producer.stageResource
  let target ← getNodeIdOf archGraph consumer.stageResource
  .ok ((archGraph.getEdgeInfo source target).getD ⟨source, target, 1⟩)

/-- A stage whose FIFO operands are to be rewritten. -/
def StageMaterializationInfo.adaptFifos (info : StageMaterializationInfo R) (isFifoOp : Bool) :
    StageMaterializationInfo R :=
  if info.kind = .preserveOriginal ∨ isFifoOp then { info with kind := .adaptFifoKinds } else info

/-- The transfer of an endpoint of a FIFO in its stage, created from the operation if there is
none. -/
def endpointTransfer (plan : PathExpansionPlan R) (endpoint : FifoEndpoint R)
    (info : StageMaterializationInfo R) (edge : EdgeInfo) (resources : Option R × Option R)
    (fifoSpec : SpecRef) (slotIdx : Nat) (isConsumer : Bool) :
    Except (PlanError R) (TransferRef × PathExpansionPlan R) :=
  match findTransferForOp plan info endpoint.op with
  | some ref => .ok (ref, plan)
  | none => do
      let transfer ← if endpoint.op.isDataTransfer
        then createFromTemplate endpoint.op edge resources.1 resources.2
        else .ok (createFromFifoOp endpoint.op edge resources.1 resources.2 fifoSpec slotIdx
          isConsumer)
      .ok (plan.pushTransfer endpoint.stage info transfer)

/-- Point one side of a transfer at a slot. -/
def TransferMaterializationInfo.useSlot (transfer : TransferMaterializationInfo R)
    (sourceSide : Bool) (fifoSpec : SpecRef) (slotIdx : Nat) : TransferMaterializationInfo R :=
  transfer.setSide sourceSide
    { transfer.side sourceSide with resource := some fifoSpec, slotIndex := slotIdx }

/-- `retargetEndpoint`. -/
def retargetEndpoint (plan : PathExpansionPlan R) (endpoint : FifoEndpoint R) (edge : EdgeInfo)
    (units : R × R) (fifoSpec : SpecRef) (slotIdx : Nat) (isConsumer : Bool) :
    Except (PlanError R) (PathExpansionPlan R) := do
  let info := (plan.stageInfo endpoint.stage).getD .default
  let resources := if isConsumer then (some units.1, info.stageResource)
    else (info.stageResource, some units.2)
  let (ref, plan) ←
    endpointTransfer plan endpoint info edge resources fifoSpec slotIdx isConsumer
  let transfer ← plan.getTransfer ref
  let plan := plan.setTransfer ref (transfer.useSlot isConsumer fifoSpec slotIdx)
  let info ← plan.getStageInfo endpoint.stage
  .ok (plan.setStageInfo endpoint.stage (info.adaptFifos !endpoint.op.isDataTransfer))

/-- Move both ends of a slot to the new FIFO. -/
def retypeSlot (archGraph : RoutingGraph R) (fifoSpec : SpecRef) (numSlots : Nat) (units : R × R)
    (plan : PathExpansionPlan R) (slot : SlotToRetype R) :
    Except (PlanError R) (PathExpansionPlan R) := do
  validateFifoSlotIndex slot.fifoSlot slot.slotIdx numSlots
  let edge ← retypeEdge archGraph ((plan.stageInfo slot.producer.stage).getD .default)
    ((plan.stageInfo slot.consumer.stage).getD .default)
  let plan ← retargetEndpoint plan slot.producer edge units fifoSpec slot.slotIdx false
  retargetEndpoint plan slot.consumer edge units fifoSpec slot.slotIdx true

/-- The round of the second loop of `retypeFifosBetweenOriginalStages`. -/
def retypeAlloc (archGraph : RoutingGraph R) (plan : PathExpansionPlan R)
    (alloc : AllocToRetype R) : Except (PlanError R) (PathExpansionPlan R) :=
  if !alloc.needsRetype then .ok plan
  else match alloc.slots with
    | [] => .ok plan
    | first :: _ =>
        if alloc.slots.length ≠ alloc.resultTypes.length ∨
            alloc.slots.any (fun slot => slot.expected ≠ first.expected) then
          .error (.cannotRetype alloc.owner)
        else do
          let (elementsPerSlot, elementType) ← mirrorSlots alloc.resultTypes
          let (fifoSpec, plan) := plan.createFifo first.expected.1 first.expected.2 elementsPerSlot
            elementType
          alloc.slots.foldlM
            (retypeSlot archGraph fifoSpec elementsPerSlot.length first.expected) plan

/-- The slots that move to new FIFOs. -/
def retypedSlots (allocs : List (AllocToRetype R)) : List (Value R) :=
  (allocs.filter AllocToRetype.needsRetype).flatMap fun alloc =>
    alloc.slots.map SlotToRetype.fifoSlot

/-- `retypeFifosBetweenOriginalStages`, with the slots it moves. -/
def retypeFifosBetweenOriginalStages (endpoints : FifoEndpoints R) (archGraph : RoutingGraph R)
    (plan : PathExpansionPlan R) : Except (PlanError R) (PathExpansionPlan R × List (Value R)) := do
  let allocs ← endpoints.producers.foldlM (classifySlot endpoints plan) []
  let plan ← allocs.foldlM (retypeAlloc archGraph) plan
  .ok (plan, retypedSlots allocs)

/-! ## Transfers of hop stages -/

/-- Whether a transfer writes a new FIFO. -/
def writesFifo (plan : PathExpansionPlan R) (transfer : TransferMaterializationInfo R) : Bool :=
  match transfer.dest.resource.bind fun ref => plan.specs[ref]? with
  | some spec => spec.isFifo
  | none => false

/-- Write the mode of a transfer. -/
def PathExpansionPlan.setTransferMode (plan : PathExpansionPlan R) (ref : TransferRef)
    (mode : TransferMode) : PathExpansionPlan R :=
  { plan with transfers := plan.transfers.modify ref fun t => { t with transferMode := mode } }

/-- `assignTransferMode`. -/
def assignTransferMode (plan : PathExpansionPlan R) (flow : DataFlow R)
    (transfers : List TransferRef) (producerTransfer : Option TransferRef) : PathExpansionPlan R :=
  if flow.transferMode = .copy then plan
  else match transfers.find? (fun ref => (plan.transfers[ref]?).any (writesFifo plan)) with
    | none => plan
    | some ref =>
        let plan := match producerTransfer with
          | some producer => if producer ≠ ref then plan.setTransferMode producer .copy else plan
          | none => plan
        plan.setTransferMode ref flow.transferMode

/-- The carrier of an inner boundary. -/
def innerCarrier (archGraph : RoutingGraph R) (flowIdx : Nat) (tile : Tile) (state : EndsState R)
    (k : Nat) : Except (PlanError R) (EndsState R) :=
  match state.flows[flowIdx]? with
  | none => .error .noCarrier
  | some flow => do
      let place ← boundaryPlace archGraph flow k
      let (spec, slot, fifos, plan) ← placeResource state flow place tile false
      let resource ← plan.getSpec spec
      let carrier ← describePrivateSide spec resource slot
      .ok ⟨plan, setCarrier state.flows flowIdx k carrier, fifos, state.hops⟩

/-- The transfer of one hop stage. -/
def hopTransfer (archGraph : RoutingGraph R) (flow : DataFlow R)
    (planned : PathExpansionPlan R × List TransferRef) (k : Nat) :
    Except (PlanError R) (PathExpansionPlan R × List TransferRef) :=
  match flow.carriers[k]?, flow.carriers[k + 1]?, flow.chain[k]?, flow.boundaries[k]?,
      flow.boundaries[k + 1]? with
  | some source, some dest, some stage, some sourceBoundary, some destIdx => do
      let sourceIdx := sourceBoundary - 1
      let sourceNode ← pathNode archGraph flow sourceIdx
      let destNode ← pathNode archGraph flow destIdx
      let edge : EdgeInfo := ⟨sourceNode.id, destNode.id, 1⟩
      let transfer ← createSynthetic planned.1 edge (some sourceNode.resource)
        (some destNode.resource) source dest
      let info ← planned.1.getStageInfo stage
      let (ref, plan) := planned.1.pushTransfer stage info transfer
      .ok (plan, planned.2 ++ [ref])
  | _, _, _, _, _ => .error .noCarrier

/-- The carriers between the hop stages of a flow. -/
def innerCarriers (archGraph : RoutingGraph R) (flow : DataFlow R) (flowIdx : Nat)
    (state : EndsState R) : Except (PlanError R) (EndsState R) := do
  let tile ← flowTile flow
  match tile with
  | some tile =>
      (List.range' 1 (flow.chain.length - 1)).foldlM (innerCarrier archGraph flowIdx tile) state
  | none =>
      if flow.chain.length > 1 then .error (.dynamicFlow flow.producer flow.consumer)
      else .ok state

/-- The transfers of the hop stages of a flow whose carriers are all set, and its mode. -/
def hopTransfers (archGraph : RoutingGraph R) (flow : DataFlow R) (plan : PathExpansionPlan R) :
    Except (PlanError R) (PathExpansionPlan R × List TransferRef) := do
  let info ← plan.getStageInfo flow.producer
  let producerTransfer := findTransferForOp plan info flow.producerOp
  let (plan, hops) ← (List.range flow.chain.length).foldlM (hopTransfer archGraph flow) (plan, [])
  .ok (assignTransferMode plan flow (producerTransfer.toList ++ hops) producerTransfer, hops)

/-- The round of `populateHopStageTransfers` for one flow. -/
def populateFlow (archGraph : RoutingGraph R) (state : EndsState R) (flowIdx : Nat) :
    Except (PlanError R) (EndsState R) :=
  match state.flows[flowIdx]? with
  | none => .error .noCarrier
  | some flow =>
      if flow.chain.isEmpty then .ok state
      else do
        let state ← innerCarriers archGraph flow flowIdx state
        match state.flows[flowIdx]? with
        | none => .error .noCarrier
        | some flow => do
            let (plan, hops) ← hopTransfers archGraph flow state.plan
            .ok { state with plan := plan, hops := Function.update state.hops flowIdx hops }

/-- `populateHopStageTransfers`. -/
def populateHopStageTransfers (archGraph : RoutingGraph R) (state : EndsState R) :
    Except (PlanError R) (EndsState R) :=
  (List.range state.flows.length).foldlM (populateFlow archGraph) state

/-! ## Planning -/

/-- What planning leaves behind, and what its steps keep to themselves: the flows, the transfers of
each flow's hop stages, and the FIFO slots that step 2b moved. -/
structure PlanResult (R : Type) where
  pipeline : StagePipeline R
  flows : List (DataFlow R)
  plan : PathExpansionPlan R
  hops : Nat → List TransferRef
  retyped : List (Value R)

/-- The check that each unit still runs one stage. -/
def checkUnit (plan : PathExpansionPlan R) (usedUnits : List R) (stage : StageRef) :
    Except (PlanError R) (List R) := do
  let info ← plan.getStageInfo stage
  match info.applicableUnit with
  | none => .ok usedUnits
  | some unit =>
      if unit ∈ usedUnits then .error (.unitRunsTwoStages unit) else .ok (unit :: usedUnits)

/-- `topologicalSortStages` of a pipeline. -/
def sortPipeline (pipeline : StagePipeline R) : Except (PlanError R) (List StageRef) :=
  match topologicalSortStages pipeline.dependencies pipeline.stages with
  | some sorted => .ok sorted
  | none => .error .cycle

/-- Steps 2 to 3 of `buildExpansionPlan`. -/
def planTransfers (pipeline : StagePipeline R) (flows : List (DataFlow R))
    (endpoints : FifoEndpoints R) (expandedStages : List StageRef) (archGraph : RoutingGraph R)
    (plan : PathExpansionPlan R) : Except (PlanError R) (EndsState R × List (Value R)) := do
  let state ← adaptFlowEnds pipeline expandedStages archGraph
    ⟨plan, flows, ⟨fun _ => none, fun _ => 0⟩, fun _ => []⟩
  let (plan, retyped) ← retypeFifosBetweenOriginalStages endpoints archGraph state.plan
  let state ← populateHopStageTransfers archGraph { state with plan := plan }
  .ok (state, retyped)

/-- `buildExpansionPlan`. -/
def buildExpansionPlan (pipeline : StagePipeline R) (flows : List (DataFlow R))
    (endpoints : FifoEndpoints R) (sortedStages : List StageRef) (archGraph : RoutingGraph R)
    (plan : PathExpansionPlan R) (nextStageId : Nat) : Except (PlanError R) (PlanResult R) :=
  match endpoints.duplicate with
  | some (op, isProducer) => .error (.fifoSlotShared op isProducer)
  | none => do
      let (pipeline, flows, plan) ←
        expandDataFlows pipeline flows sortedStages archGraph plan nextStageId
      let pipeline ← orderStagesByDependencies pipeline
      let expandedStages ← sortPipeline pipeline
      let _ ← expandedStages.foldlM (checkUnit plan) []
      let (state, retyped) ← planTransfers pipeline flows endpoints expandedStages archGraph plan
      .ok ⟨pipeline, state.flows, state.plan, state.hops, retyped⟩

/-- The preparations of `planPathExpansion`: the sorted stages, the FIFO endpoints, the routed flows
and what is planned for the original stages. -/
def prepare (pipeline : StagePipeline R) (archGraph : RoutingGraph R) : Except (PlanError R)
    (List StageRef × FifoEndpoints R × List (DataFlow R) × PathExpansionPlan R) := do
  let (sortedStages, sides) ← sortAndValidateStages pipeline archGraph
  let plan ← assignOriginalStageResources pipeline sortedStages sides archGraph
    ⟨fun _ => none, [], [], false⟩
  let endpoints := collectFifoEndpoints pipeline sortedStages
  let flows ← routeDataFlows (collectDataFlows pipeline sortedStages endpoints) sides archGraph plan
  let plan ← assignOriginalStageUnits flows sortedStages archGraph plan
  .ok (sortedStages, endpoints, flows, plan)

/-- `planPathExpansion`. -/
def planPathExpansion (pipeline : StagePipeline R) (archGraph : RoutingGraph R) :
    Except (PlanError R) (PlanResult R) := do
  let (sortedStages, endpoints, flows, plan) ← prepare pipeline archGraph
  let needed ← needsExpansion flows archGraph
  if needed then
    buildExpansionPlan pipeline flows endpoints sortedStages archGraph { plan with changed := true }
      sortedStages.length
  else .ok ⟨pipeline, flows, { plan with changed := false }, fun _ => [], []⟩

end PathExpansion

end DataflowScheduler
