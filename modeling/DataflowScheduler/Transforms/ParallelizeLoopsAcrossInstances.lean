import DataflowScheduler.Dialect.KTDF.PipelineScope
import Mathlib.Data.Finset.Basic
import Mathlib.Data.Finset.Card

/-!
# Distributing parallel loops over hardware instances

For every pipeline one of the loops around it is taken and rewritten to a `ktdf.parallel` over the
groups its units can be in.
-/

namespace ParallelizeLoops

open KTDF KTDF.Scope

abbrev GroupId := Nat

abbrev ResourceId := Nat

/-- What the pass asks about the device. -/
structure Device where
  /-- The resource of a kind. -/
  getInstance : ResourceType → Option ResourceId
  /-- The group right around a resource. -/
  groupOf : ResourceId → Option GroupId
  /-- The groups around a group, innermost first. -/
  enclosing : GroupId → List GroupId
  /-- The endpoints of the group's results. -/
  endpoints : GroupId → List ResourceId
  kind : GroupId → Nat
  /-- The groups in the block of the group. -/
  block : GroupId → List GroupId

variable (device : Device)

/-! ## Groups -/

namespace Device

def parentGroup (group : GroupId) : Option GroupId := (device.enclosing group).head?

/-- A group is an ancestor of itself. -/
def isAncestor (group other : GroupId) : Bool :=
  group = other || decide (group ∈ device.enclosing other)

/-- A group with a result that is the resource is another name for the resource. -/
def isAliasGroup (resource : ResourceId) (group : GroupId) : Bool :=
  decide (resource ∈ device.endpoints group)

/-- The true scope of a kind of resource. -/
def scopeOf (kind : ResourceType) : Option GroupId := do
  let resource ← device.getInstance kind
  let group ← device.groupOf resource
  if device.isAliasGroup resource group then device.parentGroup group else some group

/-- The innermost group around the first one that is around the second one too. -/
def commonAncestor (result group : GroupId) : Option GroupId :=
  (result :: device.enclosing result).find? fun g => device.isAncestor g group

/-- Widen `result` until it is around all the resources. -/
def widen : Option GroupId → List ResourceType → Option GroupId
  | result, [] => result
  | result, kind :: kinds =>
      match device.scopeOf kind with
      | none => none
      | some group =>
          match result with
          | none => widen (some group) kinds
          | some r =>
              if device.isAncestor group r then widen (some group) kinds
              else match device.commonAncestor r group with
                | none => none
                | some r => widen (some r) kinds

def findEnclosingGroup (resources : List ResourceType) : Option GroupId :=
  device.widen none resources

/-- The groups of the same kind in the same block. -/
def getEquivalenceClass (group : GroupId) : Finset GroupId :=
  insert group ((device.block group).filter fun sibling =>
    device.kind sibling = device.kind group).toFinset

end Device

/-! ## Candidates -/

/-- `scf::ForOp::getStaticTripCount`. -/
abbrev StaticTripCount := Loop → Option Int

variable (getStaticTripCount : StaticTripCount)

/-- The outermost parallel loop with the property. -/
def firstMatching (scopeLoops : List ForOp) (pred : Option Int → Bool) : Option ForOp :=
  scopeLoops.reverse.find? fun forOp =>
    forOp.loop.isParallel && pred (getStaticTripCount forOp.loop)

/-- A balanced loop first, then an imbalanced one, then one with a dynamic trip count. -/
def selectLoop (scopeLoops : List ForOp) (numInstances : Nat) : Option ForOp :=
  (firstMatching getStaticTripCount scopeLoops fun trip =>
    trip.any fun t => decide ((numInstances : Int) ≤ t) && decide (t % numInstances = 0)).or <|
  (firstMatching getStaticTripCount scopeLoops fun trip =>
    trip.any fun t => decide ((numInstances : Int) ≤ t)).or <|
  firstMatching getStaticTripCount scopeLoops fun trip => trip.isNone

inductive BalanceStatus where
  | balanced
  | unbalanced
  | balanceUnknown
  deriving Repr, DecidableEq

structure Candidate where
  pipeline : OpId
  loop : OpId
  upperBound : Value InductionVar
  tripCount : Option Int
  balanceStatus : BalanceStatus
  applicableGroups : Finset GroupId
  deriving DecidableEq

/-- The loop taken for a pipeline, if any. -/
def findCandidate (pipeline : Place) : Except UnitsError (Option Candidate) := do
  let units ← collectPipelineApplicableUnits pipeline.1
  match device.findEnclosingGroup units with
  | none => pure none
  | some enclosingGroup =>
      let applicableGroups := device.getEquivalenceClass enclosingGroup
      let numInstances := applicableGroups.card
      if numInstances < 2 then pure none
      else
        let scope := getPipelineEnclosingScope pipeline
        if scope.isEmpty then pure none
        else match selectLoop getStaticTripCount scope numInstances with
          | none => pure none
          | some forOp =>
              let trip := getStaticTripCount forOp.loop
              let balanceStatus := trip.elim BalanceStatus.balanceUnknown fun t =>
                if t % numInstances = 0 then .balanced else .unbalanced
              pure (some {
                pipeline := pipeline.1.label.id
                loop := forOp.id
                upperBound := forOp.loop.upperBound
                tripCount := trip
                balanceStatus
                applicableGroups })

/-- The pipelines in pre-order. -/
def pipelines (module : Op) : List Place :=
  (module.withAncestors []).filter fun place => place.1.label.isPipeline

/-- The candidates of all pipelines. -/
def collectCandidates (module : Op) : Except UnitsError (List Candidate) := do
  let found ← (pipelines module).mapM (findCandidate device getStaticTripCount)
  pure (found.filterMap id)

/-! ## The rewrite -/

/-- Use the induction variable of the new `ktdf.parallel` for the one of the old loop. -/
def replaceVar (loop : OpId) (v : InductionVar) : InductionVar :=
  if v = .scfFor loop then .parallel loop else v

/-- Replace all uses in a value. -/
def replaceUses (loop : OpId) : Value InductionVar → Value InductionVar
  | .const c => .const c
  | .inductionVar v => .inductionVar (replaceVar loop v)
  | .result op uses => .result op (uses.map (replaceVar loop))

def replaceLoop (loop : OpId) (l : Loop) : Loop :=
  { l with
    lowerBound := replaceUses loop l.lowerBound
    upperBound := replaceUses loop l.upperBound
    step := replaceUses loop l.step }

/-- What the rewrite of a loop does to an operation. The body of the loop stays in its place. -/
def rewriteOp (loop : OpId) (numInstances : Nat) (op : OpInfo) : OpInfo :=
  match op.kind with
  | .scfFor l =>
      if op.id = loop then { op with kind := .parallel (replaceLoop loop l) numInstances }
      else { op with kind := .scfFor (replaceLoop loop l) }
  | .parallel l n => { op with kind := .parallel (replaceLoop loop l) n }
  | _ => op

/-- Rewrite the candidates one after the other. The upper bound was read when the candidate was found:
the induction variable of a loop that is `erased` by then is no value any more, nor is the loop an
operation. -/
def rewriteAll (erased : List OpId) : List Candidate → Op → Option Op
  | [], module => some module
  | c :: cs, module =>
      if c.loop ∈ erased ∨ ∃ loop ∈ erased, c.upperBound = .inductionVar (.scfFor loop) then none
      else rewriteAll (c.loop :: erased) cs
        (module.map (rewriteOp c.loop c.applicableGroups.card))

end ParallelizeLoops
