import DataflowScheduler.Util.Ssa

/-!
# Lowering of double-buffer phases

A `ktdf.buffer_phase` names a chain of nested loops and tells, in every execution of the innermost
body, which of two memory views a `ktdf.select_memref` picks. The lowering drops both: it threads the
start address of the current view through an additional iteration argument of the loops and toggles
it once an execution.

Clones keep the names of what they are cloned from, as the original is erased. Names the lowering
makes up count from `next`.
-/

namespace BufferPhaseLowering

open Ssa

/-- Where the toggle stands: at the yield (most units) or at the top of the innermost body. -/
inductive DoubleBufferingMode where
  | bufferFirst
  | bufferLast
  deriving Repr, DecidableEq

structure BufferPhaseOp where
  result : ValueId
  ivs : List ValueId
  numPhases : Option Nat
  deriving Repr, DecidableEq

structure SelectMemrefOp where
  result : ValueId
  phase : ValueId
  candidates : List ValueId
  deriving Repr, DecidableEq

/-- A view of a unit's memory. Types and layout maps are known by number. -/
structure GetLogicalMemoryViewOp where
  result : ValueId
  memrefType : Nat
  fromUnit : ValueId
  startAddress : ValueId
  layoutMap : Nat
  deriving Repr, DecidableEq

inductive Op where
  | bufferPhase (op : BufferPhaseOp)
  | selectMemref (op : SelectMemrefOp)
  | getLogicalMemoryView (op : GetLogicalMemoryViewOp)
  | addi (result lhs rhs : ValueId)
  | subi (result lhs rhs : ValueId)
  | constantIndex (result : ValueId) (value : Word)
  | other (name : Nat) (operands results : List ValueId)
  deriving Repr, DecidableEq

instance : Signature Op where
  operands
    | .bufferPhase op => op.ivs
    | .selectMemref op => op.phase :: op.candidates
    | .getLogicalMemoryView op => [op.fromUnit, op.startAddress]
    | .addi _ lhs rhs => [lhs, rhs]
    | .subi _ lhs rhs => [lhs, rhs]
    | .constantIndex _ _ => []
    | .other _ operands _ => operands
  results
    | .bufferPhase op => [op.result]
    | .selectMemref op => [op.result]
    | .getLogicalMemoryView op => [op.result]
    | .addi result _ _ => [result]
    | .subi result _ _ => [result]
    | .constantIndex result _ => [result]
    | .other _ _ results => results

open Signature

/-! ## Meaning -/

/-- The state of a run. `executions` counts the executions of the innermost body that ended, and
`views` lists the views taken: their name, the execution they were taken in, their start address. -/
structure Machine (μ : Type) where
  memory : μ
  executions : Nat
  views : List (ValueId × Nat × Word)

/-- What views and all other operations mean. -/
structure Interp (μ : Type) where
  view : Nat → Word → Word → Nat → Word
  other : Nat → List Word → μ → List Word × μ

variable {μ : Type}

/-- One operation. A buffer phase is the number of the execution, modulo the number of phases. -/
def Op.step (interp : Interp μ) : Op → List Word → Machine μ → List Word × Machine μ
  | .bufferPhase op, _, s => ([BitVec.ofNat 64 (s.executions % op.numPhases.getD 1)], s)
  | .selectMemref _, ws, s => ([ws.tail.getD (ws.headD 0).toNat 0], s)
  | .getLogicalMemoryView op, ws, s =>
      ([interp.view op.memrefType (ws.getD 0 0) (ws.getD 1 0) op.layoutMap],
        { s with views := s.views ++ [(op.result, s.executions, ws.getD 1 0)] })
  | .addi _ _ _, ws, s => ([ws.getD 0 0 + ws.getD 1 0], s)
  | .subi _ _ _, ws, s => ([ws.getD 0 0 - ws.getD 1 0], s)
  | .constantIndex _ value, _, s => ([value], s)
  | .other name _ _, ws, s =>
      ((interp.other name ws s.memory).1, { s with memory := (interp.other name ws s.memory).2 })

/-- The semantics in which the loop with induction variable `innermost` is counted. -/
def sem (interp : Interp μ) (innermost : ValueId) : Sem Op (Machine μ) where
  step := Op.step interp
  iterationDone iv s := if iv = innermost then { s with executions := s.executions + 1 } else s

/-! ## Cloning the loops -/

/-- Overwrite the last element. -/
def setBack (vs : List ValueId) (v : ValueId) : List ValueId := vs.dropLast ++ [v]

/-- The header of a loop with additional iteration arguments that its body passes through. The map of
the clone has the loop's arguments and what its body binds; looking up another yielded value trips
an assertion. -/
def createForOpWithAdditionalIterArgs (loop : ForOp) (body : Code Op)
    (constants iterArgs results : List ValueId) : Option ForOp :=
  if ∀ v ∈ loop.yields, v ∈ loop.arguments ++ body.defs then
    some { loop with
      inits := loop.inits ++ constants
      regionIterArgs := loop.regionIterArgs ++ iterArgs
      yields := loop.yields ++ iterArgs
      results := loop.results ++ results }
  else none

/-- The innermost body with its toggle. -/
def addToggle (mode : DoubleBufferingMode) (toggle : Op) (body : Code Op) : Code Op :=
  match mode with
  | .bufferFirst => body.append (.op toggle .nil)
  | .bufferLast => .op toggle body

/-- Clone one loop: the new argument starts at `init` and continues as `yield`. -/
def cloneLoop (next init yield : ValueId) (loop : ForOp) (body body' rest : Code Op) :
    Option (Code Op) :=
  (createForOpWithAdditionalIterArgs loop body [next] [next + 1] [next + 2]).map fun loop' =>
    .op (.constantIndex next 0) (.scfFor
      { loop' with inits := setBack loop'.inits init, yields := setBack loop'.yields yield }
      body' rest)

/-- Clone the chain of loops `ivs`, each standing directly in the body of the one before, innermost
first. The new argument of a loop starts at the one of the loop around it. -/
def cloneLoopChainWithDoubleBufferingIterArgs (offsetSum : ValueId) (mode : DoubleBufferingMode) :
    ValueId → ValueId → List ValueId → Code Op → Option (Code Op)
  | next, init, iv :: ivs, .scfFor loop body rest =>
      if loop.inductionVar = iv then
        if ivs = [] then
          -- the body is cloned before the toggle is put into it
          cloneLoop next init (next + 3) loop body
            (addToggle mode (.subi (next + 3) offsetSum (next + 1)) body) rest
        else
          -- the outer loop continues with what the inner one returns
          (cloneLoopChainWithDoubleBufferingIterArgs offsetSum mode (next + 3) (next + 1) ivs
            body).bind fun body' => cloneLoop next init (next + 5) loop body' body' rest
      else
        (cloneLoopChainWithDoubleBufferingIterArgs offsetSum mode next init (iv :: ivs) rest).map
          (.scfFor loop body)
  | next, init, iv :: ivs, .op o rest =>
      (cloneLoopChainWithDoubleBufferingIterArgs offsetSum mode next init (iv :: ivs) rest).map
        (.op o)
  | next, init, iv :: ivs, .scfIf cond body rest =>
      (cloneLoopChainWithDoubleBufferingIterArgs offsetSum mode next init (iv :: ivs) rest).map
        (.scfIf cond body)
  | _, _, _, _ => none

/-! ## Lowering one phase -/

/-- Why a phase is not lowered: an error that is reported, or an assertion that fails. -/
inductive Failure where
  | emitError (message : String)
  | assertion
  deriving Repr, DecidableEq

def areMemoryViewsMatchingExceptOffset (view₀ view₁ : GetLogicalMemoryViewOp) : Bool :=
  view₀.memrefType == view₁.memrefType && view₀.layoutMap == view₁.layoutMap &&
    view₀.fromUnit == view₁.fromUnit

/-- The first user of a buffer phase, if it is a `ktdf.select_memref`. -/
def selectUser (phase : BufferPhaseOp) (nest : Code Op) : Option SelectMemrefOp :=
  match nest.ops.find? (fun o => phase.result ∈ operands o) with
  | some (.selectMemref select) => some select
  | _ => none

/-- The two views a select picks from. -/
def candidateViews (definingView : ValueId → Option GetLogicalMemoryViewOp)
    (select : SelectMemrefOp) : Except Failure (GetLogicalMemoryViewOp × GetLogicalMemoryViewOp) :=
  match select.candidates with
  | [c₀, c₁] =>
      match definingView c₀, definingView c₁ with
      | some view₀, some view₁ =>
          if areMemoryViewsMatchingExceptOffset view₀ view₁ then .ok (view₀, view₁)
          else .error (.emitError
            "get_logical_memory_view operations must match except for offset")
      | _, _ => .error (.emitError
          "select_memref operands must be get_logical_memory_view operations")
  | _ => .error (.emitError "select_memref must have exactly 2 candidate memrefs")

/-- The loop with an induction variable, and its body. -/
def findLoop (iv : ValueId) : Code Op → Option (ForOp × Code Op)
  | .nil => none
  | .op _ rest => findLoop iv rest
  | .scfFor loop body rest =>
      if loop.inductionVar = iv then some (loop, body)
      else (findLoop iv body).or (findLoop iv rest)
  | .scfIf _ body rest => (findLoop iv body).or (findLoop iv rest)

/-- The start address of the new view: the additional argument of the innermost loop, or the toggle
at the top of its body. -/
def memViewOffset (mode : DoubleBufferingMode) (loop : ForOp) (body : Code Op) : Option ValueId :=
  match mode, body with
  | .bufferFirst, _ => loop.regionIterArgs.getLast?
  | .bufferLast, .op (.subi result _ _) _ => some result
  | .bufferLast, _ => none

/-- The view takes the place, and the name, of the select. -/
def replaceSelect (select : SelectMemrefOp) (view : GetLogicalMemoryViewOp) (o : Op) : Op :=
  if o = .selectMemref select then .getLogicalMemoryView view else o

/-- Replace the select by a view, and the phase by nothing once it has no user left. -/
def replaceBufferPhaseAndSelectInClonedLoops (phase : BufferPhaseOp) (select : SelectMemrefOp)
    (view : GetLogicalMemoryViewOp) (nest : Code Op) : Code Op :=
  let replaced := nest.mapOps (replaceSelect select view)
  if phase.result ∈ replaced.uses then replaced
  else replaced.erase (· == .bufferPhase phase)

/-- The resource a unit runs on, as far as the lowering reads it. -/
structure Resource where
  doubleBufferLast : Bool
  deriving Repr, DecidableEq

def getDoubleBufferingMode (resource : Resource) : DoubleBufferingMode :=
  if resource.doubleBufferLast then .bufferLast else .bufferFirst

/-- The lowered loops, once the views and the mode are known. -/
def lowerNest (mode : DoubleBufferingMode) (phase : BufferPhaseOp) (select : SelectMemrefOp)
    (view₀ view₁ : GetLogicalMemoryViewOp) (next : ValueId) (nest : Code Op) : Option (Code Op) := do
  let innermost ← phase.ivs.getLast?
  let initial := if mode = .bufferFirst then view₀.startAddress else view₁.startAddress
  let cloned ← cloneLoopChainWithDoubleBufferingIterArgs next mode (next + 1) initial phase.ivs nest
  let (loop, body) ← findLoop innermost cloned
  let offset ← memViewOffset mode loop body
  let view := { view₀ with result := select.result, startAddress := offset }
  pure (.op (.addi next view₀.startAddress view₁.startAddress)
    (replaceBufferPhaseAndSelectInClonedLoops phase select view cloned))

/-- Lower one phase. `nest` is the code from the outermost of its loops on. -/
def processOneBufferPhasePair (definingView : ValueId → Option GetLogicalMemoryViewOp)
    (resource : Option Resource) (phase : BufferPhaseOp) (next : ValueId) (nest : Code Op) :
    Except Failure (Code Op) :=
  if phase.numPhases ≠ some 2 then
    .error (.emitError "buffer_phase must have num_phases = 2 for double buffering")
  else match selectUser phase nest with
  | none => .error (.emitError "buffer_phase's sole user must be a select_memref operation")
  | some select =>
    match candidateViews definingView select, resource with
    | .error e, _ => .error e
    | .ok _, none => .error (.emitError ("lowerDoubleBuffering: could not resolve component type " ++
        "from enclosing program_unit"))
    | .ok (view₀, view₁), some resource =>
        (lowerNest (getDoubleBufferingMode resource) phase select view₀ view₁ next nest).elim
          (.error .assertion) .ok

end BufferPhaseLowering
