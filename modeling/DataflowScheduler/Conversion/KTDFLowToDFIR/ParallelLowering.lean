import DataflowScheduler.Util.Rose
import DataflowScheduler.Dialect.KTDF.LoopValues

/-!
# Lowering of `ktdf.parallel`

A `ktdf.parallel` becomes an `scf.for` over the iterations of one instance. The memory views that are
accessed with its induction variable start at an offset on the second corelet. The new loop has the id
of the old one, which is also that of its induction variable.
-/

namespace ParallelLowering

open KTDF

abbrev ViewId := Nat

/-- A value over the induction variables of loops. -/
abbrev Operand := Value OpId

structure Bounds where
  lowerBound : Operand
  upperBound : Operand
  step : Operand
  deriving Repr, DecidableEq

/-- `ktdf.parallel`, with the bounds of each dimension. -/
structure ParallelOp where
  bounds : List Bounds
  numArguments : Nat
  instanceIdUsed : Bool
  numInstances : Int
  deriving Repr, DecidableEq

/-- `agen.vector_load` or `agen.vector_store`. There is no view when the memref is not defined by a
`dataflow.get_logical_memory_view`. The coefficients are those `constructIteratorCoeffDict` reports. -/
structure VectorOp where
  view : Option ViewId
  coefficients : List (Operand × Int)
  constant : Int
  deriving Repr, DecidableEq

inductive OpKind where
  | scfFor (bounds : Bounds)
  | parallel (op : ParallelOp)
  | vectorOp (op : VectorOp)
  | other (operands : List Operand)
  deriving Repr, DecidableEq

structure OpInfo where
  id : OpId
  kind : OpKind
  deriving Repr, DecidableEq

abbrev Op := Rose OpInfo

inductive LoweringError where
  | noGrid
  | notOneDimensional (op : OpId)
  | instanceIdUsed (op : OpId)
  | inductionVarUsed (op : OpId)
  | upperBoundNotConstant (op : OpId)
  | notDivisible (op : OpId)
  | noView (op : OpId)
  | noCoefficient (op : OpId)
  | offsetsDisagree (op : OpId) (recorded offset : Int)
  | coreletId (op : OpId) (corelet : Int)
  deriving Repr, DecidableEq

/-! ## Uses -/

/-- A use of the variable, directly or by the operation that computes the value. -/
def mentions (loop : OpId) : Operand → Bool
  | .const _ => false
  | .inductionVar v => v = loop
  | .result _ uses => decide (loop ∈ uses)

/-- Only by the operation that computes the value. -/
def mentionsInResult (loop : OpId) : Operand → Bool
  | .result _ uses => decide (loop ∈ uses)
  | _ => false

def Bounds.operands (b : Bounds) : List Operand := [b.lowerBound, b.upperBound, b.step]

namespace OpInfo

variable (op : OpInfo)

def operands : List Operand :=
  match op.kind with
  | .scfFor b => b.operands
  | .parallel p => p.bounds.flatMap Bounds.operands
  | .vectorOp v => v.coefficients.map Prod.fst
  | .other operands => operands

def isVectorOp : Bool :=
  match op.kind with
  | .vectorOp _ => true
  | _ => false

/-- A use of the variable in an operation that is no vector load or store. -/
def usesElsewhere (loop : OpId) : Bool :=
  if op.isVectorOp then op.operands.any (mentionsInResult loop) else op.operands.any (mentions loop)

def asParallel : Option ParallelOp :=
  match op.kind with
  | .parallel p => some p
  | _ => none

def asVectorOp : Option VectorOp :=
  match op.kind with
  | .vectorOp v => some v
  | _ => none

end OpInfo

/-- The vector operations that use the variable. -/
def users (loop : OpId) (module : Op) : List (OpId × VectorOp) :=
  module.preorder.filterMap fun op => op.asVectorOp.bind fun v =>
    if v.coefficients.any (fun c => c.1 = .inductionVar loop) then some (op.id, v) else none

/-! ## The lowering -/

/-- The coefficient of the variable. -/
def getLayoutMapCoeff (op : OpId) (v : VectorOp) (loop : OpId) : Except LoweringError Int :=
  if v.view.isNone then .error (.noView op)
  else ((v.coefficients.find? fun c => c.1 = .inductionVar loop).map Prod.snd).elim
    (.error (.noCoefficient op)) .ok

/-- The first corelet that is neither 0 nor 1. -/
def otherCorelet (corelets : List Int) : Option Int :=
  corelets.find? fun c => c ≠ 0 ∧ c ≠ 1

/-- Record the offset of the view of a user, unless it is recorded already. -/
def updateStartAddress (corelets : List Int) (loop : OpId) (parallelOpUb numInstances : Int)
    (adjusted : List (ViewId × Int)) (user : OpId × VectorOp) :
    Except LoweringError (List (ViewId × Int)) := do
  let coeff ← getLayoutMapCoeff user.1 user.2 loop
  let offset := coeff * (parallelOpUb / numInstances)
  match user.2.view with
  | none => .error (.noView user.1)
  | some view =>
      match adjusted.find? fun a => a.1 = view with
      | some recorded =>
          if recorded.2 ≠ offset then .error (.offsetsDisagree user.1 recorded.2 offset)
          else .ok adjusted
      | none => (otherCorelet corelets).elim (.ok (adjusted ++ [(view, offset)])) fun c =>
          .error (.coreletId user.1 c)

/-- What the lowering of a parallel operation does to an operation. The body of the loop stays in its
place. -/
def lowerOp (loop : OpId) (iterations : Int) (op : OpInfo) : OpInfo :=
  if op.id = loop then { op with kind := .scfFor ⟨.const 0, .const iterations, .const 1⟩ } else op

/-- The function with a program unit: the corelets of its units, its operations and the offsets of
views on corelet 1. -/
structure State where
  module : Op
  offsets : List (ViewId × Int)

/-- The constant upper bound of a one-dimensional parallel operation. -/
def constantUpperBound (op : OpId) (p : ParallelOp) : Except LoweringError Int :=
  match p.bounds with
  | [b] => match b.upperBound with
      | .const ub => .ok ub
      | _ => .error (.upperBoundNotConstant op)
  | _ => .error (.notOneDimensional op)

/-- The checks and the lowering of one parallel operation. -/
def lowerParallelOp (corelets : List Int) (state : State) (op : OpId × ParallelOp) :
    Except LoweringError State :=
  if op.2.numArguments ≠ 2 then .error (.notOneDimensional op.1)
  else if op.2.instanceIdUsed then .error (.instanceIdUsed op.1)
  else if state.module.preorder.any fun i => i.usesElsewhere op.1 then
    .error (.inductionVarUsed op.1)
  else do
    let parallelOpUb ← constantUpperBound op.1 op.2
    if parallelOpUb % op.2.numInstances ≠ 0 then .error (.notDivisible op.1)
    else
      let module := state.module.map (lowerOp op.1 (parallelOpUb / op.2.numInstances))
      let adjusted ← (users op.1 module).foldlM
        (updateStartAddress corelets op.1 parallelOpUb op.2.numInstances) []
      pure ⟨module, state.offsets ++ adjusted⟩

/-- The parallel operations, inner ones first. -/
def parallelOps (module : Op) : List (OpId × ParallelOp) :=
  module.postorder.filterMap fun op => op.asParallel.map fun p => (op.id, p)

/-- The grid attribute is one positive number. -/
def extractGridSize : Option (List Int) → Except LoweringError Int
  | some [gridSize] => if 0 < gridSize then .ok gridSize else .error .noGrid
  | _ => .error .noGrid

def lowerParallelOps (grid : Option (List Int)) (corelets : List Int) (module : Op) :
    Except LoweringError State := do
  let ops := parallelOps module
  if ops.isEmpty then pure ⟨module, []⟩
  else
    let _ ← extractGridSize grid
    ops.foldlM (lowerParallelOp corelets) ⟨module, []⟩

end ParallelLowering
