import DataflowScheduler.Transforms.Utils.PipelineTreeLegalizer
import Mathlib.Logic.Function.Basic

/-!
# Stage coarsening

The steps of `StageCoarseningPass` on the pipeline tree: the loops around a pipeline are distributed
over its stage groups and sunk into the groups of one stage, and once the tree is legal again the
dependencies that cross a pipeline are corrected. Operations stand for the nodes that were computed
from them.
-/

namespace StageCoarsening

open PipelineTreeLegalizer

/-- A candidate, with the stage groups of its pipeline. The loops are outermost first. -/
structure TransformCandidate where
  loopNest : List OpId
  pipeline : OpId
  groups : List (List OpId)

/-- A loop that does not exist yet. -/
def createLoopNode (templateOp : OpId) : NodeInfo :=
  { kind := .loop, name := none, operation := none, templateOp := some templateOp, stageId := 0,
    dependencies := [] }

/-! ## Moving nodes -/

mutual

/-- `unlink`: the node of an operation with all that is below it, and what is left. -/
def unlink (op : OpId) : Tree → Option (Tree × List Tree)
  | .node info children =>
      if info.operation = some op then some (.node info children, [])
      else (unlinkList op children).map fun r => (r.1, [.node info r.2])

/-- The same among siblings. -/
def unlinkList (op : OpId) : List Tree → Option (Tree × List Tree)
  | [] => none
  | c :: cs =>
      match unlink op c with
      | some r => some (r.1, r.2 ++ cs)
      | none => (unlinkList op cs).map fun r => (r.1, c :: r.2)

end

mutual

/-- `unlinkNode`: the children of a loop, by its operation, take its place. -/
def unlinkNode (op : OpId) : Tree → List Tree
  | .node info children =>
      if info.operation = some op ∧ info.kind = .loop then children
      else [.node info (unlinkNodeList op children)]

/-- The same among siblings. -/
def unlinkNodeList (op : OpId) : List Tree → List Tree
  | [] => []
  | c :: cs => unlinkNode op c ++ unlinkNodeList op cs

end

mutual

/-- Change the children of the node of an operation. -/
def changeChildren (op : OpId) (f : List Tree → List Tree) : Tree → Tree
  | .node info children =>
      if info.operation = some op then .node info (f children)
      else .node info (changeChildrenList op f children)

/-- The same among siblings. -/
def changeChildrenList (op : OpId) (f : List Tree → List Tree) : List Tree → List Tree
  | [] => []
  | c :: cs => changeChildren op f c :: changeChildrenList op f cs

end

/-! ## Distributing and sinking -/

/-- A nest of new loops around some trees. -/
def newLoopNest (loopNest : List OpId) (body : List Tree) : List Tree :=
  loopNest.foldr (fun op body => [.node (createLoopNode op) body]) body

/-- Move a stage from the children of the pipeline behind the stages that are moved already. -/
def moveStage (state : List Tree × List Tree) (stage : OpId) : List Tree × List Tree :=
  match unlinkList stage state.1 with
  | some (node, children) => (children, state.2 ++ [node])
  | none => state

/-- The stages of a group move into a new loop nest, which is the last child of the pipeline. -/
def distributeGroup (loopNest : List OpId) (children : List Tree) (stages : List OpId) : List Tree :=
  if stages = [] then children
  else
    let moved := stages.foldl moveStage (children, [])
    moved.1 ++ newLoopNest loopNest moved.2

/-- `DistributeAndSinkIntoPipeline`. -/
def distributeAndSinkIntoPipeline (candidate : TransformCandidate) (tree : List Tree) : List Tree :=
  let distributed := changeChildrenList candidate.pipeline
    (fun children => candidate.groups.foldl (distributeGroup candidate.loopNest) children) tree
  candidate.loopNest.foldl (fun tree op => unlinkNodeList op tree) distributed

/-- The loop nest around a stage goes into the stage, and the stage goes behind the previous sibling
of the nest; without one it goes to the end. -/
def sinkIntoStage (children : List Tree) (stage : OpId) : List Tree :=
  let before := children.takeWhile fun c => (unlink stage c).isNone
  match children.dropWhile fun c => (unlink stage c).isNone with
  | [] => children
  | nest :: behind =>
      match unlink stage nest with
      | none => children
      | some (.node info below, loops) =>
          let sunk := .node info (below ++ loops)
          if before = [] then behind ++ [sunk] else before ++ sunk :: behind

/-- Only the groups of one stage are sunk into. -/
def sinkGroup (children : List Tree) (stages : List OpId) : List Tree :=
  match stages with
  | [stage] => sinkIntoStage children stage
  | _ => children

/-- `SinkIntoSingleStage`. -/
def sinkIntoSingleStage (candidate : TransformCandidate) (tree : List Tree) : List Tree :=
  changeChildrenList candidate.pipeline (fun children => candidate.groups.foldl sinkGroup children)
    tree

/-! ## Names for the created nodes -/

/-- A name for a node that has none. -/
def nameNode (next : NodeId) (info : NodeInfo) : NodeInfo × NodeId :=
  match info.name with
  | some _ => (info, next)
  | none => ({ info with name := some next }, next + 1)

mutual

/-- Names for the created nodes of a tree, from `next` on. -/
def nameTree (next : NodeId) : Tree → Tree × NodeId
  | .node info children =>
      let named := nameNode next info
      let r := nameList named.2 children
      (.node named.1 r.1, r.2)

/-- The same for siblings. -/
def nameList (next : NodeId) : List Tree → List Tree × NodeId
  | [] => ([], next)
  | c :: cs =>
      let first := nameTree next c
      let rest := nameList first.2 cs
      (first.1 :: rest.1, rest.2)

end

/-- Created nodes are nodes like the others: each gets a name that no node has. -/
def nameCreated (tree : List Tree) : List Tree :=
  (nameList ((tree.flatMap Rose.preorder).foldl (fun next i => max next (i.name.elim 0 (· + 1))) 0)
    tree).1

/-! ## Correcting dependencies -/

/-- The nodes in pre-order, each with the nodes around it, innermost first. -/
def nodesAround (tree : List Tree) : List (NodeInfo × List NodeInfo) :=
  tree.flatMap fun t => (t.withAncestors []).map fun s => (s.1.label, s.2.map Rose.label)

/-- The nodes around a node. -/
def ancestors (tree : List Tree) (a : NodeId) : List NodeInfo :=
  ((nodesAround tree).find? fun s => s.1.name = some a).elim [] Prod.snd

def getParentNode (tree : List Tree) (a : NodeId) : Option NodeId :=
  (ancestors tree a).head?.bind NodeInfo.name

mutual

/-- Every pipeline with its depth: the pipelines around it. -/
def buildDepthMap (depth : Nat) : Tree → List (Option NodeId × Nat)
  | .node info children =>
      if info.isPipelineNode then (info.name, depth) :: buildDepthMapList (depth + 1) children
      else buildDepthMapList depth children

/-- The same for siblings. -/
def buildDepthMapList (depth : Nat) : List Tree → List (Option NodeId × Nat)
  | [] => []
  | c :: cs => buildDepthMap depth c ++ buildDepthMapList depth cs

end

/-- The depth of a pipeline. -/
def pipelineToDepth (tree : List Tree) (pipeline : Option NodeId) : Nat :=
  ((buildDepthMapList 0 tree).lookup pipeline).getD 0

/-- The stages in pre-order. -/
def allStages (tree : List Tree) : List NodeId :=
  ((tree.flatMap Rose.preorder).filter NodeInfo.isStageNode).filterMap NodeInfo.name

/-- The dependents of every stage; a null pointer is `none`. -/
abbrev Dependents := NodeId → List (Option NodeId)

def getDependencies (tree : List Tree) : Dependents := fun a =>
  (((tree.flatMap Rose.preorder).filter NodeInfo.isStageNode).find? fun i => i.name = some a).elim []
    fun i => i.dependencies.map some

/-- `findStageAtPipeline`, on the nodes around the stage that the search starts from: the first stage
whose parent is the pipeline. -/
def findStageAtPipeline (target : Option NodeId) : List NodeInfo → Option NodeId
  | [] => none
  | node :: around =>
      if node.isStageNode && decide (around.head?.bind NodeInfo.name = target) then node.name
      else findStageAtPipeline target around

def addDependency (deps : Dependents) (source sink : NodeId) : Dependents :=
  Function.update deps source (deps source ++ [some sink])

/-- The first occurrence only. -/
def replaceDependency (deps : Dependents) (source oldSink newSink : NodeId) : Dependents :=
  Function.update deps source ((deps source).replace (some oldSink) (some newSink))

/-- The first occurrence only. -/
def nullifyDependency (deps : Dependents) (source sink : NodeId) : Dependents :=
  Function.update deps source ((deps source).replace (some sink) none)

def removeNullifiedDependencies (deps : Dependents) (source : NodeId) : Dependents :=
  Function.update deps source ((deps source).filter Option.isSome)

/-- One dependency. Between pipelines of the same depth nothing is done. -/
def correctDependency (tree : List Tree) (source sink : NodeId) (deps : Dependents) : Dependents :=
  let sourcePipeline := getParentNode tree source
  let sinkPipeline := getParentNode tree sink
  let sourceDepth := pipelineToDepth tree sourcePipeline
  let sinkDepth := pipelineToDepth tree sinkPipeline
  if sourcePipeline = sinkPipeline then deps
  else if sourceDepth < sinkDepth then
    match findStageAtPipeline sourcePipeline (ancestors tree sink) with
    | some newSink => replaceDependency deps source sink newSink
    | none => deps
  else if sinkDepth < sourceDepth then
    match findStageAtPipeline sinkPipeline (ancestors tree source) with
    | some newSource =>
        let added := if some sink ∈ deps newSource then deps else addDependency deps newSource sink
        nullifyDependency added source sink
    | none => deps
  else deps

/-- The dependency at a position of the list of a stage, as the list is by then. -/
def correctAt (tree : List Tree) (source : NodeId) (deps : Dependents) (k : Nat) : Dependents :=
  match (deps source)[k]? with
  | some (some sink) => correctDependency tree source sink deps
  | _ => deps

/-- The dependencies of one stage. The list is edited while it is gone through. -/
def correctStage (tree : List Tree) (deps : Dependents) (source : NodeId) : Dependents :=
  let corrected := (List.range (deps source).length).foldl (correctAt tree source) deps
  removeNullifiedDependencies corrected source

/-- `CorrectStageDependencies`. -/
def correctStageDependencies (tree : List Tree) : Dependents :=
  (allStages tree).foldl (correctStage tree) (getDependencies tree)

end StageCoarsening
