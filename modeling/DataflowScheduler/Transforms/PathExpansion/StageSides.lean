import DataflowScheduler.Transforms.PathExpansion.Factories

/-!
# Sides and resources of the original stages

The first steps of the planner: sort the stages, decide for each whether it is on the load side, is
a compute stage or is on the store side, and work out the resource it works on.
-/

namespace DataflowScheduler

namespace PathExpansion

variable {R : Type} [DecidableEq R]

/-- A pipeline of stages that may come from the IR. -/
abbrev StagePipeline (R : Type) := Pipeline (StageOp R)

/-- A lookup in the routing graph, as a step of planning. -/
def liftLookup {α : Type} : Except (RoutingGraph.LookupError R) α → Except (PlanError R) α
  | .ok a => .ok a
  | .error e => .error (.lookup e)

/-- `getNode` by a resource that may be null. -/
def getNodeOf (archGraph : RoutingGraph R) : Option R → Except (PlanError R) (Option (ResourceNode R))
  | none => .error .nullResource
  | some resource => liftLookup (archGraph.getNodeOfResource resource)

/-- `getNodeIdForResource` by a resource that may be null. -/
def getNodeIdOf (archGraph : RoutingGraph R) : Option R → Except (PlanError R) RoutingGraph.NodeId
  | none => .error .nullResource
  | some resource => liftLookup (archGraph.getNodeIdForResource resource)

/-- `memrefMemorySpace`. -/
def memrefMemorySpace (val : Value R) : Option R :=
  match val.type with
  | .memref _ _ memorySpace => memorySpace
  | _ => none

/-! ## Ends of a stage's transfers -/

/-- `SharedEnd`. -/
structure SharedEnd (R : Type) where
  memory : Option R
  unit : Option R
  allMemref : Bool
  deriving Repr, DecidableEq

/-- `TransferEnds`. The ends are meaningless when there is no transfer. -/
structure TransferEnds (R : Type) where
  numTransfers : Nat
  source : SharedEnd R
  dest : SharedEnd R
  deriving Repr, DecidableEq

/-- The load/store unit that a FIFO operand names on the stage's side. Every node of that name must
be a load/store unit. -/
def unitOf (archGraph : RoutingGraph R) (val : Value R) (stageReads : Bool) : Option R :=
  match val.type with
  | .fifoSlot src dest _ _ =>
      match if stageReads then dest else src with
      | none => none
      | some fifoEnd =>
          let ids := archGraph.getNodeIdsForResource fifoEnd
          if ids.isEmpty || ids.any (fun id =>
              (archGraph.getNode id).map ResourceNode.kind != some .loadStoreUnit) then none
          else some fifoEnd
  | _ => none

/-- What all operands of one end have in common. -/
def sharedEnd (archGraph : RoutingGraph R) (operands : List (Value R)) (stageReads : Bool) :
    SharedEnd R :=
  match operands with
  | [] => ⟨none, none, false⟩
  | first :: _ =>
      { memory := if operands.all (fun val => memrefMemorySpace val = memrefMemorySpace first)
          then memrefMemorySpace first else none
        unit := if operands.all (fun val =>
            unitOf archGraph val stageReads = unitOf archGraph first stageReads)
          then unitOf archGraph first stageReads else none
        allMemref := operands.all fun val => val.type.isMemRef }

/-- The data operands of the transfers of a stage: of the indirect ones, if it has any. -/
def transferOperands (stageOp : StageOp R) : List (Value R × Value R) :=
  let indirect := stageOp.walk.filterMap fun op => match op.kind with
    | .indDataTransfer _ dirSrc dirDst _ => some (dirSrc.value, dirDst.value)
    | _ => none
  if indirect.isEmpty then
    stageOp.walk.filterMap fun op => match op.kind with
      | .dataTransfer source dest _ => some (source.value, dest.value)
      | _ => none
  else indirect

/-- `collectTransferEnds`. -/
def collectTransferEnds (stageOp : StageOp R) (archGraph : RoutingGraph R) : TransferEnds R :=
  let operands := transferOperands stageOp
  { numTransfers := operands.length
    source := sharedEnd archGraph (operands.map Prod.fst) true
    dest := sharedEnd archGraph (operands.map Prod.snd) false }

/-! ## Stage sides -/

/-- `StageSide`. -/
inductive StageSide where
  | load
  | compute
  | store
  deriving Repr, DecidableEq

/-- `StageSideMap`. -/
abbrev StageSideMap := StageRef → Option StageSide

/-- `isComputeAnchor`. -/
def isComputeAnchor (pipeline : StagePipeline R) (archGraph : RoutingGraph R) (stage : StageRef) :
    Except (PlanError R) Bool :=
  match pipeline.operation stage with
  | some { applicableUnits := some [some unit], .. } => do
      let node ← getNodeOf archGraph (some unit)
      .ok (node.map ResourceNode.kind == some .compute)
  | _ => .ok false

/-- The forward walk: stages that a compute stage, or a stage after one, feeds. -/
def afterCompute (dependencies : Dependencies) (anchors : List StageRef) :
    List StageRef → List StageRef → List StageRef
  | [], after => after
  | stage :: stages, after =>
      if stage ∈ anchors ∨ stage ∈ after then
        afterCompute dependencies anchors stages (dependencies stage ++ after)
      else afterCompute dependencies anchors stages after

/-- The backward walk, over the stages in reverse order. -/
def beforeCompute (dependencies : Dependencies) (anchors : List StageRef) :
    List StageRef → List StageRef → List StageRef
  | [], before => before
  | stage :: stages, before =>
      if (dependencies stage).any fun succ => succ ∈ anchors || succ ∈ before then
        beforeCompute dependencies anchors stages (stage :: before)
      else beforeCompute dependencies anchors stages before

/-- The side of one stage. -/
def sideOf (anchors after before : List StageRef) (stage : StageRef) :
    Except (PlanError R) StageSide :=
  if stage ∈ anchors then .ok .compute
  else if stage ∈ before then
    if stage ∈ after then .error (.betweenComputeStages stage) else .ok .load
  else if stage ∈ after then .ok .store else .error (.notConnected stage)

/-- The last loop of `classifyStageSides`. -/
def assignSides (anchors after before : List StageRef) :
    List StageRef → StageSideMap → Except (PlanError R) StageSideMap
  | [], sides => .ok sides
  | stage :: stages, sides => do
      let side ← sideOf anchors after before stage
      assignSides anchors after before stages (Function.update sides stage (some side))

/-- `classifyStageSides`. -/
def classifyStageSides (pipeline : StagePipeline R) (sortedStages : List StageRef)
    (archGraph : RoutingGraph R) : Except (PlanError R) StageSideMap := do
  let anchors ← sortedStages.filterM (isComputeAnchor pipeline archGraph)
  if anchors.isEmpty then .error .noComputeStage
  else
    let after := afterCompute pipeline.dependencies anchors sortedStages []
    let before := beforeCompute pipeline.dependencies anchors sortedStages.reverse []
    assignSides anchors after before sortedStages fun _ => none

/-- `sortAndValidateStages`. -/
def sortAndValidateStages (pipeline : StagePipeline R) (archGraph : RoutingGraph R) :
    Except (PlanError R) (List StageRef × StageSideMap) :=
  match topologicalSortStages pipeline.dependencies pipeline.stages with
  | none => .error .cycle
  | some sortedStages => do
      let sides ← classifyStageSides pipeline sortedStages archGraph
      .ok (sortedStages, sides)

/-! ## Resources -/

/-- `memoryOfUnit`. -/
def memoryOfUnit (unit : R) (side : StageSide) (archGraph : RoutingGraph R) : Option R :=
  let near := (archGraph.getNodeIdsForResource unit).flatMap fun unitId =>
    if side = .load then
      archGraph.getAllNodeIds.filter fun id => unitId ∈ archGraph.getNeighbors id
    else archGraph.getNeighbors unitId
  let memories := near.filterMap fun id => match archGraph.getNode id with
    | some node => if node.kind = .memory then some node.resource else none
    | none => none
  match memories with
  | [] => none
  | memory :: rest => if rest.all (· = memory) then some memory else none

/-- The memory that the transfers of a stage share. -/
def sharedMemory (ends : TransferEnds R) (side : StageSide) : Option R :=
  match ends.source.memory, ends.dest.memory with
  | some source, some dest => if side = .load then some source else some dest
  | some source, none => some source
  | none, dest => dest

/-- Resource and unit of a stage that is not pinned. -/
def resourceOfEnds (stage : StageRef) (ends : TransferEnds R) (side : StageSide)
    (archGraph : RoutingGraph R) : Except (PlanError R) (Option R × Option R) :=
  let memory := sharedMemory ends side
  match ends.source.unit, ends.dest.unit with
  | none, none =>
      if memory.isNone then .error (.noSharedPlace stage) else .ok (memory, none)
  | some sourceUnit, some destUnit =>
      if sourceUnit ≠ destUnit then .error (.fifosOnTwoUnits stage sourceUnit destUnit)
      else onUnit memory sourceUnit
  | some unit, none => onUnit memory unit
  | none, some unit => onUnit memory unit
where
  /-- The stage runs on `unit`, which must work on its memory. -/
  onUnit (memory : Option R) (unit : R) : Except (PlanError R) (Option R × Option R) :=
    match memoryOfUnit unit side archGraph, memory with
    | none, _ => .error (.noMemoryOfUnit stage unit)
    | some unitMemory, none => .ok (some unitMemory, some unit)
    | some unitMemory, some memory =>
        if memory ≠ unitMemory then .error (.memoryMismatch stage memory unit unitMemory)
        else .ok (some unitMemory, some unit)

/-- One round of `assignOriginalStageResources`. -/
def assignOriginalStageResource (pipeline : StagePipeline R) (hasPredecessor : List StageRef)
    (sides : StageSideMap) (archGraph : RoutingGraph R) (plan : PathExpansionPlan R)
    (stage : StageRef) : Except (PlanError R) (PathExpansionPlan R) :=
  let info := (plan.stageInfo stage).getD .default
  match pipeline.operation stage with
  | none => .error (.noOperation stage)
  | some stageOp =>
      match stageOp.applicableUnits with
      | some [some unit] => .ok (plan.setStageInfo stage { info with stageResource := some unit })
      | some [none] => .error .badCast
      | some _ => .error (.multiUnitStage stage)
      | none =>
          let ends := collectTransferEnds stageOp archGraph
          if ends.numTransfers = 0 then .error (.noDataTransfer stage)
          else if stage ∉ hasPredecessor ∧ !ends.source.allMemref then
            .error (.sourceNotMemRef stage)
          else if (pipeline.dependencies stage).isEmpty ∧ !ends.dest.allMemref then
            .error (.destNotMemRef stage)
          else match sides stage with
            | none => .error (.noSide stage)
            | some .compute => .error (.computeNotPinned stage)
            | some side => do
                let (memory, unit) ← resourceOfEnds stage ends side archGraph
                .ok (plan.setStageInfo stage { info with
                  stageResource := memory
                  applicableUnit := unit.or info.applicableUnit })

/-- `assignOriginalStageResources`. -/
def assignOriginalStageResources (pipeline : StagePipeline R) (sortedStages : List StageRef)
    (sides : StageSideMap) (archGraph : RoutingGraph R) (plan : PathExpansionPlan R) :
    Except (PlanError R) (PathExpansionPlan R) :=
  let hasPredecessor := sortedStages.flatMap pipeline.dependencies
  sortedStages.foldlM
    (assignOriginalStageResource pipeline hasPredecessor sides archGraph) plan

end PathExpansion

end DataflowScheduler
