import Mathlib.Data.List.Nodup
import Mathlib.Logic.Function.Basic

/-!
# Scope correction of private values

`ScopeCorrection` moves what the `ktdf.private` of a pipeline allocates for one inner pipeline into
the `ktdf.private` of that pipeline.

A clone keeps the name of the op that it is cloned from: the original is erased. What a clone reads is
its clone if there is one before it, and otherwise the op that is erased.
-/

namespace DataflowScheduler

namespace ScopeCorrection

/-- An `mlir::Value`: a result of an op of a `ktdf.private`, or of the `ktdf.private` itself, by the
name of the op. Everything else is outside. -/
inductive Value where
  | result (op k : Nat)
  | outside (n : Nat)
  deriving DecidableEq, Repr

inductive ResultType where
  | token
  | other (n : Nat)
  deriving DecidableEq, Repr

structure Op where
  id : Nat
  operands : List Value
  resultTypes : List ResultType
  deriving DecidableEq, Repr

/-- The results of an op. -/
def resultsOf (id : Nat) (types : List ResultType) : List Value :=
  (List.range types.length).map (.result id)

def Op.results (op : Op) : List Value := resultsOf op.id op.resultTypes

/-- Reading other values. -/
def Op.mapValues (f : Value → Value) (op : Op) : Op := { op with operands := op.operands.map f }

/-- A `ktdf.private`: its ops, and what its `ktdf.private_yield` yields. -/
structure PrivateOp where
  id : Nat
  resultTypes : List ResultType
  body : List Op
  yields : List Value
  deriving DecidableEq, Repr

namespace PrivateOp

def results (q : PrivateOp) : List Value := resultsOf q.id q.resultTypes

def mapValues (f : Value → Value) (q : PrivateOp) : PrivateOp :=
  { q with body := q.body.map (Op.mapValues f), yields := q.yields.map f }

def uses (q : PrivateOp) : List Value := q.body.flatMap Op.operands ++ q.yields

end PrivateOp

/-- A `ktdf.pipeline`, with the ops that no pipeline inside of it contains. -/
structure PipelineOp where
  id : Nat
  privateOp : Option PrivateOp
  ops : List Op
  deriving DecidableEq, Repr

namespace PipelineOp

def mapValues (f : Value → Value) (p : PipelineOp) : PipelineOp :=
  { p with privateOp := p.privateOp.map (PrivateOp.mapValues f), ops := p.ops.map (Op.mapValues f) }

def uses (p : PipelineOp) : List Value :=
  p.ops.flatMap Op.operands ++ p.privateOp.elim [] PrivateOp.uses

end PipelineOp

/-- The outer pipeline and all that are inside of it, in the order of a walk. `next` names new ops. -/
structure IR where
  next : Nat
  outer : PipelineOp
  inner : List PipelineOp
  deriving DecidableEq, Repr

namespace IR

def pipelines (ir : IR) : List PipelineOp := ir.outer :: ir.inner

def privateOps (ir : IR) : List PrivateOp := ir.pipelines.filterMap PipelineOp.privateOp

def mapValues (f : Value → Value) (ir : IR) : IR :=
  { ir with outer := ir.outer.mapValues f, inner := ir.inner.map (PipelineOp.mapValues f) }

/-- The `ktdf.private` of a pipeline. -/
def getPrivateOp (ir : IR) (p : Nat) : Option PrivateOp :=
  (ir.pipelines.find? fun pipeline => pipeline.id = p).bind PipelineOp.privateOp

/-- The pipelines around the uses of a value. -/
def getUses (ir : IR) (v : Value) : List Nat :=
  ir.pipelines.flatMap fun p => (p.uses.filter fun u => u = v).map fun _ => p.id

def replaceAllUsesWith (old new : Value) (ir : IR) : IR :=
  ir.mapValues fun v => if v = old then new else v

/-- A `ktdf.private` in an inner pipeline, instead of the one there is. -/
def setPrivateOp (p : Nat) (q : PrivateOp) (ir : IR) : IR :=
  { ir with
    inner := ir.inner.map fun pipeline =>
      if pipeline.id = p then { pipeline with privateOp := some q } else pipeline }

end IR

/-! ## What is moved -/

/-- The only inner pipeline around the uses of a result. -/
def targetPipeline (outer : Nat) : Option Nat → List Nat → Option Nat
  | target, [] => target
  | target, containing :: uses =>
      if containing = outer then none
      else if target = none ∨ target = some containing then
        targetPipeline outer (some containing) uses
      else none

structure ScopeCorrectionInfo where
  targetPipeline : Nat
  resultIndices : List Nat
  opsToMove : List Op
  oldResults : List Value
  deriving DecidableEq, Repr

def ScopeCorrectionInfo.getMovingResultTypes (info : ScopeCorrectionInfo) : List ResultType :=
  info.opsToMove.flatMap Op.resultTypes

def getDefiningOp (body : List Op) : Value → Option Op
  | .result id _ => body.find? fun op => op.id = id
  | .outside _ => none

/-- Where the result of the outer private op with an index goes to. Tokens stay. -/
def getTarget (ir : IR) (outer : PrivateOp) (idx : Nat) : Option Nat :=
  if outer.resultTypes[idx]? = some .token then none
  else targetPipeline ir.outer.id none (ir.getUses (.result outer.id idx))

/-- `pipeline_to_sc_info_[target]` with one more result. -/
def addResult (outer idx target : Nat) (ops : List Op) :
    List ScopeCorrectionInfo → List ScopeCorrectionInfo
  | [] => [⟨target, [idx], ops, [.result outer idx]⟩]
  | info :: infos =>
      if info.targetPipeline = target then
        { info with
          resultIndices := info.resultIndices ++ [idx]
          opsToMove := info.opsToMove ++ ops
          oldResults := info.oldResults ++ [.result outer idx] } :: infos
      else info :: addResult outer idx target ops infos

/-- One result: `visited` are the ops that are moved already, to whichever pipeline. -/
def analyzeResult (ir : IR) (outer : PrivateOp) (state : List Nat × List ScopeCorrectionInfo)
    (idx : Nat) : List Nat × List ScopeCorrectionInfo :=
  match getTarget ir outer idx with
  | none => state
  | some target =>
      let ops := ((outer.yields[idx]?.bind (getDefiningOp outer.body)).filter
        fun op => op.id ∉ state.1).toList
      (state.1 ++ ops.map Op.id, addResult outer.id idx target ops state.2)

def analyzePrivateResultUsage (ir : IR) (outer : PrivateOp) : List ScopeCorrectionInfo :=
  ((List.range outer.resultTypes.length).foldl (analyzeResult ir outer) ([], [])).2

/-! ## Moving it -/

/-- How a run can end otherwise. -/
inductive Failure where
  | nullPrivate
  | useAfterErase
  | resultOutOfRange
  deriving DecidableEq, Repr

/-- Whether a value is a result of one of the ops. -/
def definedBy (ids : List Nat) : Value → Bool
  | .result id _ => id ∈ ids
  | .outside _ => false

/-- `recreatePrivateOp`. The new op goes where the old one is, which is read even if there is none. -/
def recreatePrivateOp (id : Nat) (oldPrivate : Option PrivateOp) (newResultTypes : List ResultType)
    (opsToPrepend : List Op) (opsToExclude : List Nat) : Except Failure PrivateOp :=
  match oldPrivate with
  | none => .error .nullPrivate
  | some old => .ok
      { id := id
        resultTypes := newResultTypes
        body := opsToPrepend ++ old.body.filter fun op => op.id ∉ opsToExclude
        -- the results of the clones in front, then what was yielded
        yields := opsToPrepend.flatMap Op.results ++
          old.yields.filter fun v => !definedBy opsToExclude v }

/-- Each value is replaced by the result of the new op with the next index. -/
def replaceResults (new : PrivateOp) (first : Nat) (oldResults : List Value) (ir : IR) :
    Except Failure IR :=
  if oldResults ≠ [] ∧ new.resultTypes.length < first + oldResults.length then
    .error .resultOutOfRange
  else .ok ((oldResults.zipIdx first).foldl
    (fun ir old => ir.replaceAllUsesWith old.1 (.result new.id old.2)) ir)

/-- `extendInnerPrivate`. -/
def extendInnerPrivate (info : ScopeCorrectionInfo) (innerPrivate : PrivateOp) (ir : IR) :
    Except Failure IR := do
  let new ← recreatePrivateOp ir.next (some innerPrivate)
    (info.getMovingResultTypes ++ innerPrivate.resultTypes) info.opsToMove []
  let ir := { ir with next := ir.next + 1 }.setPrivateOp info.targetPipeline new
  let ir ← replaceResults new 0 info.oldResults ir
  -- the old results are expected right behind as many new ones as results were moved
  replaceResults new info.oldResults.length innerPrivate.results ir

/-- `createInnerPrivate`. -/
def createInnerPrivate (info : ScopeCorrectionInfo) (ir : IR) : Except Failure IR := do
  let new ← recreatePrivateOp ir.next none info.getMovingResultTypes info.opsToMove []
  let ir := { ir with next := ir.next + 1 }.setPrivateOp info.targetPipeline new
  replaceResults new 0 info.oldResults ir

/-- The outer private op, if it is still the one that was found at the start. -/
def getHeldPrivate (held : Nat) (ir : IR) : Except Failure PrivateOp :=
  match ir.outer.privateOp with
  | some outer => if outer.id = held then .ok outer else .error .useAfterErase
  | none => .error .useAfterErase

/-- `updateOuterPrivate`. -/
def updateOuterPrivate (held : Nat) (removed : List Nat) (ir : IR) : Except Failure IR := do
  let outer ← getHeldPrivate held ir
  let opsMoved := (removed.filterMap fun idx =>
    outer.yields[idx]?.bind (getDefiningOp outer.body)).map Op.id
  let kept := (List.range outer.resultTypes.length).filter fun idx => idx ∉ removed
  let new ← recreatePrivateOp ir.next (some outer)
    (kept.filterMap fun idx => outer.resultTypes[idx]?) [] opsMoved
  let ir := { ir with next := ir.next + 1, outer := { ir.outer with privateOp := some new } }
  replaceResults new 0 (kept.map (.result outer.id)) ir

/-- The inner pipeline's private op is extended, or created. -/
def moveToInnerPrivate (info : ScopeCorrectionInfo) (ir : IR) : Except Failure IR :=
  match ir.getPrivateOp info.targetPipeline with
  | some innerPrivate => extendInnerPrivate info innerPrivate ir
  | none => createInnerPrivate info ir

/-- `movePrivateResultsToInnerPipeline`. What is moved belongs to the op found at the start. -/
def movePrivateResultsToInnerPipeline (held : Nat) (ir : IR) (info : ScopeCorrectionInfo) :
    Except Failure IR := do
  let _ ← getHeldPrivate held ir
  let ir ← moveToInnerPrivate info ir
  updateOuterPrivate held info.resultIndices ir

/-- `ScopeCorrection::run`. `order` is the order in which the map of infos is iterated. -/
def run (order : List ScopeCorrectionInfo → List ScopeCorrectionInfo) (ir : IR) :
    Except Failure IR :=
  match ir.outer.privateOp with
  | none => .ok ir
  | some outer =>
      if ir.inner = [] then .ok ir
      else (order (analyzePrivateResultUsage ir outer)).foldlM
        (movePrivateResultsToInnerPipeline outer.id) ir

end ScopeCorrection

end DataflowScheduler
