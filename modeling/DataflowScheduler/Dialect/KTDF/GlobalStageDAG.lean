import Mathlib.Logic.Function.Basic
import DataflowScheduler.Dialect.KTDF.Regions

/-!
# Global stage DAG

A flat graph over the leaf stages of a nest of pipelines. Its edges come from the tokens that the
stages of each pipeline hand over, and are stitched across pipelines by looking up the first and the
last stages that are nested in a stage.
-/

namespace DataflowScheduler

namespace KTDF

/-! ## Edges between stages -/

/-- `StageDependencyDAG`. A stage that is not a key has no entries. -/
structure StageDependencyDAG where
  predecessors : StageId → List StageId
  successors : StageId → List StageId

namespace StageDependencyDAG

def empty : StageDependencyDAG := ⟨fun _ => [], fun _ => []⟩

/-- Append to the entries of both ends of an edge. -/
def addEdge (dag : StageDependencyDAG) (edge : StageId × StageId) : StageDependencyDAG where
  predecessors := Function.update dag.predecessors edge.2 (dag.predecessors edge.2 ++ [edge.1])
  successors := Function.update dag.successors edge.1 (dag.successors edge.1 ++ [edge.2])

theorem mem_foldl_addEdge (dag : StageDependencyDAG) (edges : List (StageId × StageId))
    (producer consumer : StageId) :
    (consumer ∈ (edges.foldl addEdge dag).successors producer ↔
      consumer ∈ dag.successors producer ∨ (producer, consumer) ∈ edges) ∧
    (producer ∈ (edges.foldl addEdge dag).predecessors consumer ↔
      producer ∈ dag.predecessors consumer ∨ (producer, consumer) ∈ edges) := by
  induction edges generalizing dag with
  | nil => simp
  | cons edge edges ih =>
      obtain ⟨ihSucc, ihPred⟩ := ih (dag.addEdge edge)
      rw [List.foldl_cons, ihSucc, ihPred, List.mem_cons, ← or_assoc, ← or_assoc]
      refine ⟨or_congr_left ?_, or_congr_left ?_⟩
      · by_cases hp : producer = edge.1
        · simp [addEdge, hp, Prod.ext_iff]
        · simp [addEdge, hp, Prod.ext_iff]
      · by_cases hc : consumer = edge.2
        · simp [addEdge, hc, Prod.ext_iff]
        · simp [addEdge, hc, Prod.ext_iff]

end StageDependencyDAG

/-- `token_producer_map`: the last stage that outputs a token. -/
def tokenProducerMap (stages : List StageOp) : Token → Option StageId :=
  stages.foldl
    (fun map stage => stage.dependsOut.foldl
      (fun map token => Function.update map token (some stage.id)) map)
    fun _ => none

/-- The edges from the producers of the tokens that each stage awaits. -/
def tokenEdges (stages : List StageOp) : List (StageId × StageId) :=
  stages.flatMap fun stage => stage.dependsIn.filterMap fun token =>
    (tokenProducerMap stages token).map fun producer => (producer, stage.id)

/-- The colours of the cycle detection. -/
inductive Color where
  | white
  | gray
  | black
  deriving DecidableEq

/-- The colours of all nodes. -/
abbrev Colors := StageId → Color

/-- The loop body of `hasCycle`: go on to a successor that is still white. `none` is a cycle. -/
def visitSuccessor (visit : Colors → StageId → Option Colors) (color : Colors) (succ : StageId) :
    Option Colors :=
  match color succ with
  | .gray => none
  | .white => visit color succ
  | .black => some color

/-- `hasCycle`, from a white node. A path visits a node once, so fuel for all nodes is enough. -/
def visit (successors : StageId → List StageId) : Nat → Colors → StageId → Option Colors
  | 0, _, _ => none
  | fuel + 1, color, op => do
      let color ← (successors op).foldlM (visitSuccessor (visit successors fuel))
        (Function.update color op .gray)
      some (Function.update color op .black)

/-- Start from a stage that is still white. -/
def visitStage (successors : StageId → List StageId) (numStages : Nat) (color : Colors)
    (stage : StageOp) : Option Colors :=
  if color stage.id = .white then visit successors numStages color stage.id else some color

/-- `analyzeStageDependencies`. `none` is "Circular token dependency detected in pipeline". -/
def analyzeStageDependencies (stages : List StageOp) : Option StageDependencyDAG :=
  let dag := (tokenEdges stages).foldl StageDependencyDAG.addEdge .empty
  (stages.foldlM (visitStage dag.successors stages.length) fun _ => .white).map fun _ => dag

/-! ## Roots and leaves of a stage -/

/-- The pipeline that a walk over a stage meets first. -/
def StageOp.nestedPipeline (stage : StageOp) : Option Region := stage.body.pipelines.head?

/-- `getRootStages` and `getLeafStages`, which look at the predecessors or at the successors. -/
def getEndStages (neighbors : StageDependencyDAG → StageId → List StageId) (stage : StageOp) :
    List StageId :=
  match _h : stage.nestedPipeline with
  | none => [stage.id]
  | some body =>
      match analyzeStageDependencies body.directStages with
      | none => [stage.id]
      | some dag => body.directStages.attach.flatMap fun inner =>
          if (neighbors dag inner.1.id).isEmpty then getEndStages neighbors inner.1 else []
termination_by sizeOf stage.body
decreasing_by
  exact Nat.lt_trans (Region.sizeOf_directStages inner.2)
    (Region.sizeOf_pipelines (List.mem_of_mem_head? _h))

/-- `getRootStages`. -/
def getRootStages (stage : StageOp) : List StageId :=
  getEndStages StageDependencyDAG.predecessors stage

/-- `getLeafStages`. -/
def getLeafStages (stage : StageOp) : List StageId :=
  getEndStages StageDependencyDAG.successors stage

/-- The edges that the successors of one stage of a pipeline are stitched to. The map of successors
is unordered in the source; here its keys come in the order of the stages. -/
def stitchedEdges (stages : List StageOp) (localDag : StageDependencyDAG) (producer : StageOp) :
    List (StageId × StageId) :=
  (localDag.successors producer.id).flatMap fun consumer =>
    match stages.find? fun stage => stage.id = consumer with
    | none => []
    | some consumer => (getLeafStages producer).flatMap fun leaf =>
        (getRootStages consumer).map fun root => (leaf, root)

/-- The round of `buildGlobalStageDAG` for one pipeline. -/
def addPipeline (globalDag : StageDependencyDAG) (pipeline : Region) : Option StageDependencyDAG :=
  if pipeline.directStages.isEmpty then some globalDag
  else (analyzeStageDependencies pipeline.directStages).map fun localDag =>
    (pipeline.directStages.flatMap
      (stitchedEdges pipeline.directStages localDag)).foldl StageDependencyDAG.addEdge globalDag

/-- `buildGlobalStageDAG`. -/
def buildGlobalStageDAG (root : Region) : Option StageDependencyDAG :=
  root.pipelines.reverse.foldlM addPipeline .empty

end KTDF

end DataflowScheduler
