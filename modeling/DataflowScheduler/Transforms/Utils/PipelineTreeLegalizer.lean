import DataflowScheduler.Util.Rose

/-!
# The legalizer of pipeline trees

Three rules and their fixes, and the loop that fixes the first violation until there is none. The tree
is the list of the root's children. A created node has no operation and no name; names tell which
node of the tree handed in a node is.
-/

namespace PipelineTreeLegalizer

abbrev NodeId := Nat

abbrev OpId := Nat

inductive NodeKind where
  | loop
  | pipeline
  | stage
  | privateNode
  deriving Repr, DecidableEq

structure NodeInfo where
  kind : NodeKind
  name : Option NodeId
  operation : Option OpId
  templateOp : Option OpId
  stageId : Int
  dependencies : List NodeId
  deriving Repr, DecidableEq

namespace NodeInfo

variable (i : NodeInfo)

def isPipelineNode : Bool := i.kind = .pipeline

def isStageNode : Bool := i.kind = .stage

def isPrivateNode : Bool := i.kind = .privateNode

/-- Neither a private node nor a stage. -/
def isIllegalChild : Bool := !i.isPrivateNode && !i.isStageNode

/-- The operation of a node, or the one it is modelled on. -/
def operationOrTemplate : Option OpId := i.operation.or i.templateOp

end NodeInfo

abbrev Tree := Rose NodeInfo

/-- A stage that does not exist yet. -/
def createStageNode (stageId : Int) : NodeInfo :=
  { kind := .stage, name := none, operation := none, templateOp := none, stageId, dependencies := [] }

/-- A pipeline that does not exist yet. -/
def createPipelineNode (templateOp : Option OpId) : NodeInfo :=
  { kind := .pipeline, name := none, operation := none, templateOp, stageId := 0, dependencies := [] }

def createPrivateNode : NodeInfo :=
  { kind := .privateNode, name := none, operation := none, templateOp := none, stageId := 0,
    dependencies := [] }

/-! ## The rules -/

inductive RuleKind where
  | pipelineChildren
  | stageParent
  | privateMustExist
  deriving Repr, DecidableEq

/-- A pipeline with a child that is neither private nor a stage. -/
def PipelineChildrenRule.isViolated (node : NodeInfo) (children : List NodeInfo) : Bool :=
  node.isPipelineNode && children.any NodeInfo.isIllegalChild

/-- A stage whose parent is not a pipeline. The root has no info. -/
def StageParentRule.isViolated (parent : Option NodeInfo) (node : NodeInfo) : Bool :=
  node.isStageNode && !parent.any NodeInfo.isPipelineNode

/-- The search for a stage with dependents. At a child that is not a stage it goes on without moving
to the next one: the search never returns. -/
def PrivateMustExistRule.scan : List NodeInfo → Option Bool
  | [] => some false
  | child :: children =>
      if !child.isStageNode then none
      else if !child.dependencies.isEmpty then some true
      else PrivateMustExistRule.scan children

/-- A pipeline with a stage with dependents whose first child is not private. -/
def PrivateMustExistRule.isViolated (node : NodeInfo) (children : List NodeInfo) : Option Bool :=
  if !node.isPipelineNode then some false
  else if children.head?.any NodeInfo.isPrivateNode then some false
  else PrivateMustExistRule.scan children

/-! ## The fixes -/

/-- A new stage around a group of illegal children, if there are any. -/
def closeGroup (newStage : Int → NodeInfo) (next : Int) (group : List Tree) : List Tree × Int :=
  if group = [] then ([], next) else ([.node (newStage next) group], next + 1)

/-- Wrap every group of consecutive illegal children in its place; `group` is the current one. -/
def wrapGroups (newStage : Int → NodeInfo) : Int → List Tree → List Tree → List Tree × Int
  | next, group, [] => closeGroup newStage next group
  | next, group, c :: cs =>
      if c.label.isIllegalChild then wrapGroups newStage next (group ++ [c]) cs
      else
        let closed := closeGroup newStage next group
        let r := wrapGroups newStage closed.2 [] cs
        (closed.1 ++ c :: r.1, r.2)

/-- `PipelineChildrenRule::fixViolation`. A new stage goes behind the previous sibling of its first
child; without one it goes to the end. -/
def PipelineChildrenRule.fixViolation (next : Int) (children : List Tree) : List Tree × Int :=
  let first := children.takeWhile fun c => c.label.isIllegalChild
  let rest := children.dropWhile fun c => c.label.isIllegalChild
  if first = [] then wrapGroups createStageNode next [] children
  else
    let r := wrapGroups createStageNode (next + 1) [] rest
    (r.1 ++ [.node (createStageNode next) first], r.2)

/-- Move all stages into a new node behind the previous sibling of the first one; without one the
node goes to the end. -/
def nestStages (newPipeline : List Tree → Tree) (children : List Tree) : List Tree :=
  let stages := children.filter fun c => c.label.isStageNode
  let before := children.takeWhile fun c => !c.label.isStageNode
  let behind := (children.dropWhile fun c => !c.label.isStageNode).filter fun c => !c.label.isStageNode
  if before = [] then behind ++ [newPipeline stages] else before ++ newPipeline stages :: behind

/-- `StageParentRule::fixViolation` on the children of the parent. `above` is the nearest pipeline
around the parent, if any, by its operation or template; it must have one. -/
def StageParentRule.fixViolation (above : Option (Option OpId)) (children : List Tree) :
    Option (List Tree) :=
  if above = some none then none
  else some (nestStages (.node (createPipelineNode above.join)) children)

def PrivateMustExistRule.fixViolation (children : List Tree) : List Tree :=
  .node createPrivateNode [] :: children

/-! ## The legalizer -/

/-- A violated rule and the node, by the positions among the siblings on the way to it. -/
structure Violation where
  rule : RuleKind
  path : List Nat
  deriving Repr, DecidableEq

/-- The rules a node violates, in order, when every check returns. -/
def violatedRules (parent : Option NodeInfo) (node : NodeInfo) (children : List NodeInfo) :
    Option (List RuleKind) :=
  (PrivateMustExistRule.isViolated node children).map fun noPrivate =>
    (if PipelineChildrenRule.isViolated node children then [.pipelineChildren] else []) ++
      (if StageParentRule.isViolated parent node then [.stageParent] else []) ++
      (if noPrivate then [.privateMustExist] else [])

mutual

/-- The violations at a node and below it, in pre-order. -/
def collectTree (parent : Option NodeInfo) : Tree → Option (List Violation)
  | .node info children => do
      let own ← violatedRules parent info (children.map Rose.label)
      let below ← collectList (some info) 0 children
      pure (own.map (⟨·, []⟩) ++ below)

/-- The violations at the siblings from position `i` on. -/
def collectList (parent : Option NodeInfo) (i : Nat) : List Tree → Option (List Violation)
  | [] => some []
  | c :: cs => do
      let here ← collectTree parent c
      let rest ← collectList parent (i + 1) cs
      pure (here.map (fun v => ⟨v.rule, i :: v.path⟩) ++ rest)

end

/-- `Legalizer::collectViolations`, unless a check never returns. -/
def collectViolations (tree : List Tree) : Option (List Violation) := collectList none 0 tree

/-- The nearest pipeline around the children of a child of `parent`. -/
def nearestPipeline (parent : Option NodeInfo) (above : Option (Option OpId)) :
    Option (Option OpId) :=
  match parent with
  | some info => if info.isPipelineNode then some info.operationOrTemplate else above
  | none => above

/-- Fix a violation at a path below `parent`. There is no result when an assertion fails. -/
def fixAt (rule : RuleKind) (next : Int) :
    Option NodeInfo → Option (Option OpId) → List Nat → List Tree → Option (List Tree × Int)
  | _, _, [], _ => none
  | parent, above, i :: path, siblings =>
      match siblings[i]? with
      | none => none
      | some (.node info children) =>
          match path with
          | [] => match rule with
              | .pipelineChildren =>
                  let r := PipelineChildrenRule.fixViolation next children
                  some (siblings.set i (.node info r.1), r.2)
              | .stageParent =>
                  (StageParentRule.fixViolation above siblings).map (·, next)
              | .privateMustExist =>
                  some (siblings.set i (.node info (PrivateMustExistRule.fixViolation children)),
                    next)
          | j :: path =>
              (fixAt rule next (some info) (nearestPipeline parent above) (j :: path) children).map
                fun r => (siblings.set i (.node info r.1), r.2)

/-- One past the largest stage id. -/
def firstStageId (tree : List Tree) : Int :=
  (tree.flatMap Rose.preorder).foldl
    (fun next i => if i.isStageNode && decide (next ≤ i.stageId) then i.stageId + 1 else next) 0

/-- How a run of the legalizer ends: with a tree, in a check that never returns or at an assertion;
or it goes on after the rounds given. -/
inductive Outcome where
  | done (tree : List Tree) (iterations : Nat)
  | neverReturns
  | assertion
  | goesOn (tree : List Tree)

/-- The loop of `findAndFixViolations`, for as many rounds as given. -/
def fixAll : Nat → List Tree → Int → Nat → Outcome
  | 0, tree, _, iterations =>
      match collectViolations tree with
      | none => .neverReturns
      | some [] => .done tree iterations
      | some (_ :: _) => .goesOn tree
  | rounds + 1, tree, next, iterations =>
      match collectViolations tree with
      | none => .neverReturns
      | some [] => .done tree iterations
      | some (violation :: _) =>
          match fixAt violation.rule next none none violation.path tree with
          | none => .assertion
          | some (tree', next') => fixAll rounds tree' next' (iterations + 1)

/-- `Legalizer::findAndFixViolations`, for as many rounds as given. -/
def findAndFixViolations (rounds : Nat) (tree : List Tree) : Outcome :=
  fixAll rounds tree (firstStageId tree) 0

end PipelineTreeLegalizer
