import Mathlib.Data.List.Dedup
import DataflowScheduler.Transforms.PathExpansion.StageSides

/-!
# Data flows and their routes

Which data one original stage passes to another, found from the FIFO slots and memrefs that carry
it, and the routing-graph path each flow takes. A flow's path is split into the producer's part, the
consumer's part, and the middle that needs hop stages.
-/

namespace DataflowScheduler

namespace PathExpansion

variable {R : Type} [DecidableEq R]

open RoutingGraph (NodeId)

/-! ## FIFO endpoints -/

/-- `FifoEndpoint`. -/
structure FifoEndpoint (R : Type) where
  op : Op R
  stage : StageRef
  fifoIsSource : Bool

/-- `FifoEndpoints`, with the slots in the order they were found. -/
structure FifoEndpoints (R : Type) where
  producers : List (Value R × FifoEndpoint R)
  consumers : List (Value R × FifoEndpoint R)
  indirectSlots : List (Value R)
  /-- The first op found to be a second producer or consumer, and whether it is a producer. -/
  duplicate : Option (OpId × Bool)

/-- Look up a slot. -/
def findEndpoint (ends : List (Value R × FifoEndpoint R)) (slot : Value R) :
    Option (FifoEndpoint R) :=
  (ends.find? fun entry => entry.1 = slot).map Prod.snd

/-- `record`, for a producer. -/
def FifoEndpoints.recordProducer (endpoints : FifoEndpoints R) (slot : Value R) (op : Op R)
    (stage : StageRef) : FifoEndpoints R :=
  if (findEndpoint endpoints.producers slot).isSome then
    { endpoints with duplicate := endpoints.duplicate.or (some (op.id, true)) }
  else { endpoints with producers := endpoints.producers ++ [(slot, ⟨op, stage, false⟩)] }

/-- `record`, for a consumer. -/
def FifoEndpoints.recordConsumer (endpoints : FifoEndpoints R) (slot : Value R) (op : Op R)
    (stage : StageRef) : FifoEndpoints R :=
  if (findEndpoint endpoints.consumers slot).isSome then
    { endpoints with duplicate := endpoints.duplicate.or (some (op.id, false)) }
  else { endpoints with consumers := endpoints.consumers ++ [(slot, ⟨op, stage, true⟩)] }

/-- The callback of `collectFifoEndpoints` on one operation. -/
def FifoEndpoints.recordOp (stage : StageRef) (endpoints : FifoEndpoints R) (op : Op R) :
    FifoEndpoints R :=
  match op.kind with
  | .readFromFifo slot => endpoints.recordConsumer slot op stage
  | .writeToFifo _ slot => endpoints.recordProducer slot op stage
  | .dataTransfer source dest _ =>
      let endpoints := if source.value.type.isFifoSlot
        then endpoints.recordConsumer source.value op stage else endpoints
      if dest.value.type.isFifoSlot then endpoints.recordProducer dest.value op stage else endpoints
  | .indDataTransfer isGather dirSrc dirDst _ =>
      let fifoSide := if isGather then dirDst.value else dirSrc.value
      if fifoSide.type.isFifoSlot then
        let endpoints :=
          { endpoints with indirectSlots := endpoints.indirectSlots ++ [fifoSide] }
        if isGather then endpoints.recordProducer fifoSide op stage
        else endpoints.recordConsumer fifoSide op stage
      else endpoints
  | .other .. => endpoints

/-- The operations of a stage; none for a synthetic stage. -/
def stageOps (pipeline : StagePipeline R) (stage : StageRef) : List (Op R) :=
  match pipeline.operation stage with
  | some stageOp => stageOp.walk
  | none => []

/-- `collectFifoEndpoints`. -/
def collectFifoEndpoints (pipeline : StagePipeline R) (stages : List StageRef) : FifoEndpoints R :=
  stages.foldl
    (fun endpoints stage => (stageOps pipeline stage).foldl (FifoEndpoints.recordOp stage) endpoints)
    ⟨[], [], [], none⟩

/-! ## Flows -/

/-- `DataFlow`. -/
structure DataFlow (R : Type) where
  carrier : Value R
  producerOp : Op R
  consumerOp : Op R
  producer : StageRef
  consumer : StageRef
  transferMode : TransferMode
  path : RoutingGraph.Path
  /-- Last path index that is part of the producer. -/
  producerEnd : Nat
  /-- First path index that is part of the consumer. -/
  consumerBegin : Nat
  producerUnit : Option R
  consumerUnit : Option R
  /-- The hop stages, in data-flow order. -/
  chain : List StageRef
  /-- For each boundary, the path index of the first node of the receiving stage. -/
  boundaries : List Nat
  /-- What carries the data across each boundary; a carrier that was not set is `unset`. -/
  carriers : List (TransferSide R)

namespace DataFlow

def carrierIsMemref (flow : DataFlow R) : Bool := flow.carrier.type.isMemRef

/-- Path indices from `middleBegin` up to `middleEnd` need hop stages. -/
def middleBegin (flow : DataFlow R) : Nat := flow.producerEnd + 1

def middleEnd (flow : DataFlow R) : Nat := flow.consumerBegin

end DataFlow

/-- A use of a memref: the operation and its stage. -/
structure OpInStage (R : Type) where
  op : Op R
  stage : StageRef

/-- `MemrefUses`. -/
structure MemrefUses (R : Type) where
  writers : List (OpInStage R)
  readers : List (OpInStage R)
  otherUse : Bool

/-- How an operation uses one of its memref operands. -/
def MemrefUses.record (stage : StageRef) (op : Op R) (value : Value R) (uses : MemrefUses R) :
    MemrefUses R :=
  match op.kind with
  | .dataTransfer source dest _ =>
      if value = dest.value then { uses with writers := uses.writers ++ [⟨op, stage⟩] }
      else if value = source.value then { uses with readers := uses.readers ++ [⟨op, stage⟩] }
      else { uses with otherUse := true }
  | _ => { uses with otherUse := true }

/-- All uses of a memref by operations of the stages. A stage operation itself has no memref
operands. -/
def memrefUses (pipeline : StagePipeline R) (sortedStages : List StageRef) (memref : Value R) :
    MemrefUses R :=
  sortedStages.foldl
    (fun uses stage => (stageOps pipeline stage).foldl
      (fun uses op => (op.operands.filter (· = memref)).foldl
        (fun uses value => uses.record stage op value) uses) uses)
    ⟨[], [], false⟩

/-- `findReader`. -/
def findReader (pipeline : StagePipeline R) (sortedStages : List StageRef)
    (endpoints : FifoEndpoints R) (carrier : Value R) (writer : Op R) : Option (OpInStage R) :=
  if carrier.type.isFifoSlot then
    match findEndpoint endpoints.producers carrier, findEndpoint endpoints.consumers carrier with
    | some producer, some consumer =>
        if producer.op.id = writer.id then some ⟨consumer.op, consumer.stage⟩ else none
    | _, _ => none
  else if carrier.type.isMemRef then
    match memrefUses pipeline sortedStages carrier with
    | ⟨[_], [reader], false⟩ => some reader
    | _ => none
  else none

/-- What an operation writes that may be carried to another stage. -/
def writtenValue (op : Op R) : Option (Value R) :=
  match op.kind with
  | .writeToFifo _ slot => some slot
  | .dataTransfer _ dest _ => some dest.value
  | .indDataTransfer isGather _ dirDst _ => if isGather then some dirDst.value else none
  | _ => none

/-- The flow that an operation of `producer` starts, if any. -/
def flowFrom (pipeline : StagePipeline R) (sortedStages : List StageRef)
    (endpoints : FifoEndpoints R) (producer : StageRef) (op : Op R) : Option (DataFlow R) := do
  let written ← writtenValue op
  let reader ← findReader pipeline sortedStages endpoints written op
  guard (reader.stage ≠ producer)
  return {
    carrier := written, producerOp := op, consumerOp := reader.op
    producer := producer, consumer := reader.stage
    transferMode := op.transferMode
    path := [], producerEnd := 0, consumerBegin := 0, producerUnit := none, consumerUnit := none
    chain := [], boundaries := [], carriers := [] }

/-- The flows out of one stage, grouped by consumer in the order of its dependencies. -/
def outgoingFlows (pipeline : StagePipeline R) (sortedStages : List StageRef)
    (endpoints : FifoEndpoints R) (producer : StageRef) : List (DataFlow R) :=
  let outgoing := (stageOps pipeline producer).filterMap
    (flowFrom pipeline sortedStages endpoints producer)
  -- The first occurrence of each dependency, in order.
  let consumers := (pipeline.dependencies producer).reverse.dedup.reverse
  consumers.flatMap fun consumer => outgoing.filter fun flow => flow.consumer = consumer

/-- `collectDataFlows`. -/
def collectDataFlows (pipeline : StagePipeline R) (sortedStages : List StageRef)
    (endpoints : FifoEndpoints R) : List (DataFlow R) :=
  sortedStages.flatMap (outgoingFlows pipeline sortedStages endpoints)

/-- What `flowFrom` found: the value that is written, its reader in another stage, and no route yet. -/
theorem flowFrom_eq_some {pipeline : StagePipeline R} {sortedStages : List StageRef}
    {endpoints : FifoEndpoints R} {producer : StageRef} {op : Op R} {flow : DataFlow R}
    (h : flowFrom pipeline sortedStages endpoints producer op = some flow) :
    ∃ written reader, writtenValue op = some written ∧
      findReader pipeline sortedStages endpoints written op = some reader ∧
        reader.stage ≠ producer ∧ flow =
          ⟨written, op, reader.op, producer, reader.stage, op.transferMode, [], 0, 0, none, none, [],
            [], []⟩ := by
  obtain ⟨written, hwritten, h⟩ := Option.bind_eq_some_iff.mp h
  obtain ⟨reader, hreader, h⟩ := Option.bind_eq_some_iff.mp h
  obtain ⟨_, hguard, hflow⟩ := Option.bind_eq_some_iff.mp h
  unfold guard at hguard
  split at hguard
  · next hne =>
      cases hflow
      exact ⟨written, reader, hwritten, hreader, hne, rfl⟩
  · cases hguard

/-- Every flow was found at an operation of its producer, and its consumer depends on that. -/
theorem mem_collectDataFlows {pipeline : StagePipeline R} {sortedStages : List StageRef}
    {endpoints : FifoEndpoints R} {flow : DataFlow R}
    (h : flow ∈ collectDataFlows pipeline sortedStages endpoints) :
    flow.producer ∈ sortedStages ∧ flow.consumer ∈ pipeline.dependencies flow.producer ∧
      ∃ op ∈ stageOps pipeline flow.producer,
        flowFrom pipeline sortedStages endpoints flow.producer op = some flow := by
  obtain ⟨producer, hproducer, h⟩ := List.mem_flatMap.mp h
  obtain ⟨consumer, hconsumer, h⟩ := List.mem_flatMap.mp h
  obtain ⟨h, hsame⟩ := List.mem_filter.mp h
  obtain ⟨op, hop, hflow⟩ := List.mem_filterMap.mp h
  obtain ⟨_, _, -, -, -, heq⟩ := flowFrom_eq_some hflow
  have hstage : flow.producer = producer := by rw [heq]
  rw [decide_eq_true_eq] at hsame
  rw [List.mem_reverse, List.mem_dedup, List.mem_reverse] at hconsumer
  subst hstage hsame
  exact ⟨hproducer, hconsumer, op, hop, hflow⟩

/-! ## Routes -/

/-- `pathNode`. -/
def pathNode (archGraph : RoutingGraph R) (flow : DataFlow R) (idx : Nat) :
    Except (PlanError R) (ResourceNode R) :=
  match flow.path[idx]? with
  | none => .error .badCast
  | some id => match archGraph.getNode id with
    | some node => .ok node
    | none => .error (.nodeNotInGraph id)

/-- The side of a stage, `sides.at`. -/
def sideAt (sides : StageSideMap) (stage : StageRef) : Except (PlanError R) StageSide :=
  match sides stage with
  | some side => .ok side
  | none => .error (.noSide stage)

/-- The load unit right after a load-side producer's memory is part of the producer, unless that
unit is the consumer's own resource. -/
def giveProducerUnit (sides : StageSideMap) (archGraph : RoutingGraph R) (flow : DataFlow R) :
    Except (PlanError R) (DataFlow R) := do
  let last := flow.path.length - 1
  let side ← sideAt sides flow.producer
  if side = .load ∧ last > 1 then
    let first ← pathNode archGraph flow 0
    if first.kind = .memory then
      let second ← pathNode archGraph flow 1
      if second.kind = .loadStoreUnit then
        .ok { flow with producerEnd := 1, producerUnit := some second.resource }
      else .ok flow
    else .ok flow
  else .ok flow

/-- The store unit right before a store-side consumer's memory is part of the consumer, unless it is
already part of the producer. -/
def giveConsumerUnit (sides : StageSideMap) (archGraph : RoutingGraph R) (flow : DataFlow R) :
    Except (PlanError R) (DataFlow R) := do
  let last := flow.path.length - 1
  let side ← sideAt sides flow.consumer
  if side = .store ∧ last > flow.producerEnd + 1 then
    let lastNode ← pathNode archGraph flow last
    if lastNode.kind = .memory then
      let beforeLast ← pathNode archGraph flow (last - 1)
      if beforeLast.kind = .loadStoreUnit then
        .ok { flow with consumerBegin := last - 1, consumerUnit := some beforeLast.resource }
      else .ok flow
    else .ok flow
  else .ok flow

/-- `plan->stage_info.at(stage).stage_resource`. -/
def stageResourceAt (plan : PathExpansionPlan R) (stage : StageRef) :
    Except (PlanError R) (Option R) := do
  let info ← plan.getStageInfo stage
  .ok info.stageResource

/-- The round of `routeDataFlows` for one flow. -/
def routeDataFlow (sides : StageSideMap) (archGraph : RoutingGraph R) (plan : PathExpansionPlan R)
    (flow : DataFlow R) : Except (PlanError R) (DataFlow R) := do
  let producerResource ← stageResourceAt plan flow.producer
  let consumerResource ← stageResourceAt plan flow.consumer
  let source ← getNodeIdOf archGraph producerResource
  let target ← getNodeIdOf archGraph consumerResource
  match archGraph.findShortestPath source target with
  | none | some [] => .error (.noPath flow.producer flow.consumer)
  | some path => do
      let flow := { flow with path := path, consumerBegin := path.length - 1 }
      let flow ← giveProducerUnit sides archGraph flow
      giveConsumerUnit sides archGraph flow

/-- `routeDataFlows`. -/
def routeDataFlows (flows : List (DataFlow R)) (sides : StageSideMap)
    (archGraph : RoutingGraph R) (plan : PathExpansionPlan R) :
    Except (PlanError R) (List (DataFlow R)) :=
  flows.mapM (routeDataFlow sides archGraph plan)

/-- Whether a middle node of a flow's path is not a load/store unit. -/
def flowNeedsExpansion (archGraph : RoutingGraph R) (flow : DataFlow R) :
    Except (PlanError R) Bool :=
  (List.range' flow.middleBegin (flow.middleEnd - flow.middleBegin)).anyM fun i => do
    let node ← pathNode archGraph flow i
    .ok (node.kind ≠ .loadStoreUnit)

/-- `needsExpansion`. -/
def needsExpansion (flows : List (DataFlow R)) (archGraph : RoutingGraph R) :
    Except (PlanError R) Bool :=
  flows.anyM (flowNeedsExpansion archGraph)

end PathExpansion

end DataflowScheduler
