import DataflowScheduler.Util.Rose
import DataflowScheduler.Dialect.KTDF.LoopValues

/-!
# Pipelines and the loops around them

Operations with regions as a tree: pipelines, stages, loops and other operations. An operation is known
by its id. The bounds of a loop are values: constants, induction variables and results of operations.
-/

namespace KTDF.Scope

abbrev ResourceType := Nat

/-- An induction variable, by the loop that has it. -/
inductive InductionVar where
  | scfFor (op : OpId)
  | parallel (op : OpId)
  deriving Repr, DecidableEq

def InductionVar.isFor : InductionVar → Bool
  | .scfFor _ => true
  | .parallel _ => false

/-- The range of a loop, and whether its type says that it is parallel. -/
structure Loop where
  lowerBound : Value InductionVar
  upperBound : Value InductionVar
  step : Value InductionVar
  isParallel : Bool
  deriving Repr, DecidableEq

inductive OpKind where
  | scfFor (loop : Loop)
  /-- `ktdf.parallel`, distributed over a number of instances. -/
  | parallel (loop : Loop) (numInstances : Nat)
  | pipeline
  /-- `ktdf.stage`, with its applicable units; an attribute that is no resource type is `none`. -/
  | stage (applicableUnits : Option (List (Option ResourceType)))
  | other
  deriving Repr, DecidableEq

structure OpInfo where
  id : OpId
  kind : OpKind
  deriving Repr, DecidableEq

abbrev Op := Rose OpInfo

/-- A place in the module: an operation with the ones around it, innermost first. -/
abbrev Place := Op × List Op

/-- An `scf.for`. -/
structure ForOp where
  id : OpId
  loop : Loop
  deriving Repr, DecidableEq

namespace OpInfo

variable (op : OpInfo)

def isPipeline : Bool := op.kind = .pipeline

def asFor : Option ForOp :=
  match op.kind with
  | .scfFor loop => some ⟨op.id, loop⟩
  | _ => none

end OpInfo

/-- No use of the induction variable of a `ktdf.parallel`. -/
def valueParallelFree : Value InductionVar → Bool
  | .const _ => true
  | .inductionVar v => v.isFor
  | .result _ uses => uses.all InductionVar.isFor

/-- Neither a `ktdf.parallel` nor a use of its induction variable. -/
def OpInfo.parallelFree (op : OpInfo) : Bool :=
  match op.kind with
  | .scfFor l => valueParallelFree l.lowerBound && valueParallelFree l.upperBound && valueParallelFree l.step
  | .parallel _ _ => false
  | _ => true

/-! ## The enclosing scope -/

/-- No pipeline in the body of the loop other than those in the operation on the way to the pipeline. -/
def loopHasNoPeerPipeline (loop chainMember : Op) : Bool :=
  (loop.children.flatMap Rose.preorder).all fun op =>
    !op.isPipeline || decide (op.id ∈ chainMember.preorder.map OpInfo.id)

/-- The loops around `current`, innermost first, up to the first operation that is no loop or the first
loop with another pipeline. -/
def enclosingLoops (current : Op) : List Op → List ForOp
  | [] => []
  | parent :: around =>
      match parent.label.asFor with
      | none => []
      | some forOp =>
          if loopHasNoPeerPipeline parent current then forOp :: enclosingLoops parent around else []

def getPipelineEnclosingScope (pipeline : Place) : List ForOp :=
  enclosingLoops pipeline.1 pipeline.2

/-! ## The applicable units -/

/-- A stage without its units, or with units that are no resource types. -/
inductive UnitsError where
  | missing (stage : OpId)
  | invalid (stage : OpId)
  deriving Repr, DecidableEq

/-- The units of one stage. -/
def stageUnits (op : OpInfo) : Except UnitsError (List ResourceType) :=
  match op.kind with
  | .stage none => .error (.missing op.id)
  | .stage (some units) =>
      (units.mapM fun unit => unit).elim (.error (.invalid op.id)) .ok
  | _ => .ok []

/-- The units of all stages of the pipeline, without repetitions. A missing or invalid attribute is a
fatal error. -/
def collectPipelineApplicableUnits (pipeline : Op) : Except UnitsError (List ResourceType) := do
  let units ← (pipeline.children.map Rose.label).mapM stageUnits
  pure units.flatten.eraseDups

end KTDF.Scope
