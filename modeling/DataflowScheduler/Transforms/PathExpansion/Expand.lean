import DataflowScheduler.Transforms.PathExpansion.DataFlow

/-!
# Adding stages along each path

Step 1 of the planner. The middle of every flow's path is split into hops, each hop is given to the
stage that runs on its unit or to a new one, and the dependencies are led through the hop stages.
-/

namespace DataflowScheduler

namespace PathExpansion

variable {R : Type} [DecidableEq R]

/-! ## Units of the original stages -/

/-- A stage whose resource is a compute or load/store unit runs on it. -/
def assignPinnedUnit (archGraph : RoutingGraph R) (plan : PathExpansionPlan R) (stage : StageRef) :
    Except (PlanError R) (PathExpansionPlan R) := do
  let info ← plan.getStageInfo stage
  let node ← getNodeOf archGraph info.stageResource
  match node with
  | some node =>
      if node.kind ≠ .memory then
        .ok (plan.setStageInfo stage { info with applicableUnit := info.stageResource })
      else .ok plan
  | none => .ok plan

/-- `setUnit` of `assignOriginalStageUnits`. -/
def setUnit (plan : PathExpansionPlan R) (stage : StageRef) (unit : Option R) :
    Except (PlanError R) (PathExpansionPlan R) :=
  match unit with
  | none => .ok plan
  | some unit => do
      let info ← plan.getStageInfo stage
      match info.applicableUnit with
      | some current =>
          if current ≠ unit then .error (.twoUnits stage current unit)
          else .ok (plan.setStageInfo stage { info with applicableUnit := some unit })
      | none => .ok (plan.setStageInfo stage { info with applicableUnit := some unit })

/-- The units a flow gives its two stages. -/
def setFlowUnits (plan : PathExpansionPlan R) (flow : DataFlow R) :
    Except (PlanError R) (PathExpansionPlan R) := do
  let plan ← setUnit plan flow.producer flow.producerUnit
  setUnit plan flow.consumer flow.consumerUnit

/-- One round of the check that no two stages run on one unit. -/
def claimUnit (plan : PathExpansionPlan R) (unitOwner : R → Option StageRef) (stage : StageRef) :
    Except (PlanError R) (R → Option StageRef) := do
  let info ← plan.getStageInfo stage
  match info.applicableUnit with
  | none => .ok unitOwner
  | some unit => match unitOwner unit with
    | some other => .error (.unitTaken stage unit other)
    | none => .ok (Function.update unitOwner unit (some stage))

/-- `assignOriginalStageUnits`. -/
def assignOriginalStageUnits (flows : List (DataFlow R)) (sortedStages : List StageRef)
    (archGraph : RoutingGraph R) (plan : PathExpansionPlan R) :
    Except (PlanError R) (PathExpansionPlan R) := do
  let plan ← sortedStages.foldlM (assignPinnedUnit archGraph) plan
  let plan ← flows.foldlM setFlowUnits plan
  let _ ← sortedStages.foldlM (claimUnit plan) fun _ => none
  .ok plan

/-! ## Dependencies -/

namespace DataFlow

def hasChain (flow : DataFlow R) : Bool := !flow.chain.isEmpty

/-- The stages the flow's data passes: producer, hop stages, consumer. -/
def route (flow : DataFlow R) : List StageRef := flow.producer :: flow.chain ++ [flow.consumer]

/-- The pairs of stages that hand the data over. -/
def steps (flow : DataFlow R) : List (StageRef × StageRef) := flow.route.zip flow.route.tail

end DataFlow

/-- `addDependency` of `rewireDependencies`. -/
def addDependency (dependencies : Dependencies) (step : StageRef × StageRef) : Dependencies :=
  if step.2 ∈ dependencies step.1 then dependencies
  else Function.update dependencies step.1 (dependencies step.1 ++ [step.2])

/-- `nullifyDependency` and `removeNullifiedDependencies` on one stage. -/
def dropDependency (dependencies : Dependencies) (pair : StageRef × StageRef) : Dependencies :=
  Function.update dependencies pair.1
    (StageNode.removeNullifiedDependencies
      (StageNode.nullifyDependency pair.2 (dependencies pair.1)))

/-- The flows from one stage to another. -/
def pairFlows (flows : List (DataFlow R)) (pair : StageRef × StageRef) : List (DataFlow R) :=
  flows.filter fun flow => (flow.producer, flow.consumer) = pair

/-- The round of `rewireDependencies` for one pair of stages. -/
def rewirePair (flows : List (DataFlow R)) (dependencies : Dependencies)
    (pair : StageRef × StageRef) : Dependencies :=
  if (pairFlows flows pair).any DataFlow.hasChain then
    let dependencies := if (pairFlows flows pair).all DataFlow.hasChain
      then dropDependency dependencies pair else dependencies
    ((pairFlows flows pair).filter DataFlow.hasChain).foldl
      (fun dependencies flow => flow.steps.foldl addDependency dependencies) dependencies
  else dependencies

/-- The pairs of stages that flows join, in the order of their first flow. -/
def flowPairs (flows : List (DataFlow R)) : List (StageRef × StageRef) :=
  (flows.map fun flow => (flow.producer, flow.consumer)).reverse.dedup.reverse

/-- `rewireDependencies`. -/
def rewireDependencies (flows : List (DataFlow R)) (dependencies : Dependencies) : Dependencies :=
  (flowPairs flows).foldl (rewirePair flows) dependencies

/-! ## New stages -/

/-- Insert a node after `pos`. -/
def insertAfter (pos new : StageRef) : List StageRef → List StageRef
  | [] => []
  | s :: ss => if s = pos then s :: new :: ss else s :: insertAfter pos new ss

theorem insertAfter_perm {pos new : StageRef} {ss : List StageRef} (h : pos ∈ ss) :
    (insertAfter pos new ss).Perm (new :: ss) := by
  induction ss with
  | nil => cases h
  | cons s ss ih =>
      rw [insertAfter]
      by_cases hs : s = pos
      · rw [if_pos hs]
        exact List.Perm.swap new s ss
      · rw [if_neg hs]
        have hrest := ih ((List.mem_cons.mp h).resolve_left fun h => hs h.symm)
        exact (hrest.cons s).trans (List.Perm.swap new s ss)

/-- `createStageNode` without an operation, and `insertChildNode` after a stage of the pipeline. -/
def addStage (pipeline : StagePipeline R) (pos : StageRef) (stageId : Nat)
    (hpos : pos ∈ pipeline.stages) : StagePipeline R where
  stages := insertAfter pos pipeline.nextRef pipeline.stages
  operation := Function.update pipeline.operation pipeline.nextRef none
  stageId := Function.update pipeline.stageId pipeline.nextRef stageId
  dependencies := Function.update pipeline.dependencies pipeline.nextRef []
  nextRef := pipeline.nextRef + 1
  nodup_stages := by
    rw [(insertAfter_perm hpos).nodup_iff, List.nodup_cons]
    exact ⟨fun hmem => Nat.lt_irrefl _ (pipeline.lt_nextRef _ hmem), pipeline.nodup_stages⟩
  lt_nextRef := by
    intro s hs
    rcases List.mem_cons.mp ((insertAfter_perm hpos).mem_iff.mp hs) with rfl | hs
    · exact Nat.lt_succ_self _
    · exact Nat.lt_succ_of_lt (pipeline.lt_nextRef s hs)

/-! ## Hops -/

/-- What the loop over the flows changes. -/
structure ExpandState (R : Type) where
  pipeline : StagePipeline R
  plan : PathExpansionPlan R
  /-- The stage running on each unit. -/
  unitOwner : R → Option StageRef
  /-- The stage after which the next new stage following a producer goes. -/
  insertAfter : StageRef → Option StageRef
  nextStageId : Nat

/-- The node at a path index that may be the second of a hop; none from the end of the middle on. -/
def nextNode (archGraph : RoutingGraph R) (flow : DataFlow R) (i : Nat) :
    Except (PlanError R) (Option (ResourceNode R)) :=
  if i < flow.middleEnd then some <$> pathNode archGraph flow i else .ok none

/-- The hop that starts at path index `i`: its memory (may be null), its unit and its width. -/
def hopAt (archGraph : RoutingGraph R) (flow : DataFlow R) (i : Nat) :
    Except (PlanError R) (Option R × R × Nat) := do
  let node ← pathNode archGraph flow i
  let next ← nextNode archGraph flow (i + 1)
  match node.kind, next with
  | .memory, some next =>
      if next.kind = .loadStoreUnit then .ok (some node.resource, next.resource, 2)
      else .error (.noLoadUnit node.resource)
  | .memory, none => .error (.noLoadUnit node.resource)
  | .loadStoreUnit, some next =>
      if next.kind = .memory then .ok (some next.resource, node.resource, 2)
      else .ok (none, node.resource, 1)
  | .loadStoreUnit, none => .ok (none, node.resource, 1)
  | .compute, _ => .error (.computeOnPath node.resource)

/-- A new stage for a hop. -/
def createHopStage (state : ExpandState R) (producer : StageRef) (memory : Option R) (unit : R) :
    Except (PlanError R) (ExpandState R × StageRef) :=
  let pos := (state.insertAfter producer).getD producer
  if hpos : pos ∈ state.pipeline.stages then
    let synth := state.pipeline.nextRef
    .ok (
      { pipeline := addStage state.pipeline pos state.nextStageId hpos
        plan := state.plan.setStageInfo synth ⟨.syntheticTransfer, memory, [], some unit⟩
        unitOwner := Function.update state.unitOwner unit (some synth)
        insertAfter := Function.update state.insertAfter producer (some synth)
        nextStageId := state.nextStageId + 1 }, synth)
  else .error (.notInPipeline pos)

/-- `addHop`: find or create the stage for the hop through `memory` on `unit`, and add it to the
flow's chain. -/
def addHop (state : ExpandState R) (flow : DataFlow R) (memory : Option R) (unit : R) :
    Except (PlanError R) (ExpandState R × DataFlow R) :=
  match state.unitOwner unit with
  | none => do
      let (state, synth) ← createHopStage state flow.producer memory unit
      .ok (state, { flow with chain := flow.chain ++ [synth] })
  | some owner =>
      if owner = flow.producer ∨ owner = flow.consumer ∨ owner ∈ flow.chain then
        .error (.unitTwice unit)
      else do
        let info ← state.plan.getStageInfo owner
        if info.stageResource ≠ memory then .error (.unitOtherMemory unit memory owner)
        else .ok (state, { flow with chain := flow.chain ++ [owner] })

/-- The loop over the hops of a flow, from path index `i`. A round moves on by at least one index,
so the number of indices left is fuel enough. -/
def hopLoop (archGraph : RoutingGraph R) : Nat → Nat → ExpandState R → DataFlow R →
    Except (PlanError R) (ExpandState R × DataFlow R)
  | 0, _, state, flow => .ok (state, flow)
  | fuel + 1, i, state, flow =>
      if i < flow.middleEnd then do
        let (memory, unit, width) ← hopAt archGraph flow i
        let (state, flow) ← addHop state flow memory unit
        hopLoop archGraph fuel (i + width) state
          { flow with boundaries := flow.boundaries ++ [i + width] }
      else .ok (state, flow)

/-- The round of `expandDataFlows` for one flow. -/
def expandDataFlow (archGraph : RoutingGraph R) (state : ExpandState R) (flow : DataFlow R) :
    Except (PlanError R) (ExpandState R × DataFlow R) := do
  let (state, flow) ← hopLoop archGraph (flow.middleEnd - flow.middleBegin) flow.middleBegin state
    { flow with boundaries := flow.boundaries ++ [flow.middleBegin] }
  .ok (state, if flow.chain.isEmpty then { flow with boundaries := [] } else flow)

/-- The loop of `expandDataFlows`. -/
def expandLoop (archGraph : RoutingGraph R) (state : ExpandState R) :
    List (DataFlow R) → Except (PlanError R) (ExpandState R × List (DataFlow R))
  | [] => .ok (state, [])
  | flow :: flows => do
      let (state, flow) ← expandDataFlow archGraph state flow
      let (state, flows) ← expandLoop archGraph state flows
      .ok (state, flow :: flows)

/-- The owners that `expandDataFlows` starts with. -/
def initialOwner (plan : PathExpansionPlan R) (unitOwner : R → Option StageRef) (stage : StageRef) :
    Except (PlanError R) (R → Option StageRef) := do
  let info ← plan.getStageInfo stage
  match info.applicableUnit with
  | none => .ok unitOwner
  | some unit => .ok (Function.update unitOwner unit (some stage))

/-- `expandDataFlows`. -/
def expandDataFlows (pipeline : StagePipeline R) (flows : List (DataFlow R))
    (sortedStages : List StageRef) (archGraph : RoutingGraph R) (plan : PathExpansionPlan R)
    (nextStageId : Nat) :
    Except (PlanError R) (StagePipeline R × List (DataFlow R) × PathExpansionPlan R) := do
  let unitOwner ← sortedStages.foldlM (initialOwner plan) fun _ => none
  let (state, flows) ← expandLoop archGraph ⟨pipeline, plan, unitOwner, fun _ => none, nextStageId⟩
    flows
  .ok ({ state.pipeline with
    dependencies := rewireDependencies flows state.pipeline.dependencies }, flows, state.plan)

/-! ## Order of the stages -/

/-- The first stage whose predecessors have all been placed. -/
def nextPlaced (stages placed : List StageRef) (unplacedPreds : StageRef → Int) :
    Option StageRef :=
  stages.find? fun stage => stage ∉ placed ∧ unplacedPreds stage = 0

/-- The loop of `orderStagesByDependencies`; `none` is a cycle. `placed` is what has been placed, in
order. -/
def placeLoop (dependencies : Dependencies) (stages : List StageRef) :
    Nat → List StageRef → (StageRef → Int) → Option (List StageRef)
  | 0, placed, _ => some placed
  | n + 1, placed, unplacedPreds =>
      match nextPlaced stages placed unplacedPreds with
      | none => none
      | some stage => placeLoop dependencies stages n (placed ++ [stage])
          ((dependencies stage).foldl
            (fun preds succ => Function.update preds succ (preds succ - 1)) unplacedPreds)

theorem placeLoop_perm {dependencies : Dependencies} {stages : List StageRef} {n : Nat}
    {placed ordered : List StageRef} {preds : StageRef → Int}
    (h : placeLoop dependencies stages n placed preds = some ordered)
    (hnd : placed.Nodup) (hmem : ∀ s ∈ placed, s ∈ stages) :
    ordered.Nodup ∧ (∀ s ∈ ordered, s ∈ stages) ∧ ordered.length = placed.length + n := by
  induction n generalizing placed preds with
  | zero =>
      cases h
      exact ⟨hnd, hmem, rfl⟩
  | succ n ih =>
      rw [placeLoop] at h
      split at h
      · cases h
      · next stage hfind =>
          have hstage := List.mem_of_find?_eq_some hfind
          have hnew : stage ∉ placed := by
            have := List.find?_some hfind
            simp only [decide_eq_true_eq] at this
            exact this.1
          obtain ⟨hnd', hmem', hlen⟩ := ih h
            (List.nodup_append.mpr ⟨hnd, List.nodup_singleton stage, by
              rintro a ha b hb rfl
              exact hnew (List.mem_singleton.mp hb ▸ ha)⟩)
            (by
              intro s hs
              rcases List.mem_append.mp hs with hs | hs
              · exact hmem s hs
              · exact List.mem_singleton.mp hs ▸ hstage)
          refine ⟨hnd', hmem', ?_⟩
          rw [hlen, List.length_append, List.length_singleton]
          omega

/-- `orderStagesByDependencies`. -/
def orderStagesByDependencies (pipeline : StagePipeline R) :
    Except (PlanError R) (StagePipeline R) :=
  match h : placeLoop pipeline.dependencies pipeline.stages pipeline.stages.length []
      (fun s => inDegrees pipeline.dependencies pipeline.stages s) with
  | none => .error .hopCycle
  | some ordered => .ok { pipeline with
      stages := ordered
      nodup_stages := (placeLoop_perm h List.nodup_nil (by simp)).1
      lt_nextRef := fun s hs => pipeline.lt_nextRef s
        ((placeLoop_perm h List.nodup_nil (by simp)).2.1 s hs) }

end PathExpansion

end DataflowScheduler
