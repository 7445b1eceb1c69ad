import DataflowScheduler.Analysis.MemoryTree
import DataflowScheduler.Util.Rose

/-!
# Double buffering

A scratchpad buffer of the private region of a pipeline that one stage writes and later stages read
becomes two buffers outside the loops. The uses in the pipeline go to the one of the current phase.
-/

namespace DoubleBuffering

open DataflowScheduler (MemoryTree)

abbrev ValueId := Nat

abbrev OpId := Nat

abbrev StageId := Nat

def kDefaultNumPhases : Nat := 2

/-- The memory space attribute of a memref. -/
inductive MemorySpace (R : Type) where
  | ktdp (resource : R)
  | other
  deriving Repr, DecidableEq

inductive ValueType (R : Type) where
  | memref (memorySpace : Option (MemorySpace R))
  | other
  deriving Repr, DecidableEq

inductive OpKind where
  | dataTransfer (source destination : ValueId)
  | indDataTransfer (dirSrc dirDst : ValueId)
  | alloc
  /-- An operation whose result is a view of its operand. -/
  | view (source : ValueId)
  | other
  deriving Repr, DecidableEq

/-- An operation, with the operands that its kind does not name: indices, the address operands of an
indirect transfer, the sizes of an allocation, the operands of a linalg operation. -/
structure OpInfo where
  id : OpId
  kind : OpKind
  others : List ValueId
  results : List ValueId
  deriving Repr, DecidableEq

abbrev Op := Rose OpInfo

namespace OpKind

def operands : OpKind → List ValueId
  | .dataTransfer source destination => [source, destination]
  | .indDataTransfer dirSrc dirDst => [dirSrc, dirDst]
  | .view source => [source]
  | _ => []

def mapOperands (f : ValueId → ValueId) : OpKind → OpKind
  | .dataTransfer source destination => .dataTransfer (f source) (f destination)
  | .indDataTransfer dirSrc dirDst => .indDataTransfer (f dirSrc) (f dirDst)
  | .alloc => .alloc
  | .view source => .view (f source)
  | .other => .other

end OpKind

namespace OpInfo

variable (op : OpInfo)

def operands : List ValueId := op.kind.operands ++ op.others

def mapOperands (f : ValueId → ValueId) : OpInfo :=
  { op with kind := op.kind.mapOperands f, others := op.others.map f }

/-- The buffer a transfer writes directly. -/
def writeBuffer : Option ValueId :=
  match op.kind with
  | .dataTransfer _ destination => some destination
  | .indDataTransfer _ dirDst => some dirDst
  | _ => none

/-- The buffer a transfer reads directly. -/
def readBuffer : Option ValueId :=
  match op.kind with
  | .dataTransfer source _ => some source
  | .indDataTransfer dirSrc _ => some dirSrc
  | _ => none

end OpInfo

/-- A result of `ktdf.private` with the operand of `ktdf.private_yield` it stands for. -/
structure Slot (R : Type) where
  result : ValueId
  type : ValueType R
  yieldOperand : ValueId
  deriving Repr

/-- The private region is one block of operations without regions, and the yield. -/
structure PrivateOp (R : Type) where
  body : List OpInfo
  slots : List (Slot R)

structure StageOp where
  id : StageId
  dependsIn : List ValueId
  dependsOut : List ValueId
  body : List Op

structure PipelineOp (R : Type) where
  modulo : Option Nat
  privateOp : Option (PrivateOp R)
  stages : List StageOp

/-- All operations of a stage, nested ones included. -/
def StageOp.ops (stage : StageOp) : List OpInfo := stage.body.flatMap Rose.preorder

/-! ## Shape of a buffer -/

structure CandidateShape where
  yielded : ValueId
  slot : Nat
  alloc : OpInfo
  deriving Repr, DecidableEq

variable {R : Type}

/-- The memory space, if it is one of the ktdp dialect. -/
def extractMemorySpace : ValueType R → Option R
  | .memref (some (.ktdp resource)) => some resource
  | _ => none

/-- The allocation in the block that defines a value. -/
def PrivateOp.definingAlloc (p : PrivateOp R) (v : ValueId) : Option OpInfo :=
  p.body.find? fun op => op.kind = .alloc ∧ op.results = [v]

/-- The number of uses in operations other than the yield. -/
def PrivateOp.usesInOps (p : PrivateOp R) (v : ValueId) : Nat :=
  (p.body.flatMap OpInfo.operands).count v

def PrivateOp.usesInYield (p : PrivateOp R) (v : ValueId) : Nat :=
  (p.slots.map Slot.yieldOperand).count v

/-- The checks a to f. `dominates` says which values are defined before the hoist target. -/
def checkBufferShape [DecidableEq R] (memoryTree : MemoryTree R) (dominates : ValueId → Bool)
    (p : PrivateOp R) (slot : Nat) : Option CandidateShape := do
  let s ← p.slots[slot]?
  let resource ← extractMemorySpace s.type
  if memoryTree.isPerCoreScratchPadMemory resource then
    let alloc ← p.definingAlloc s.yieldOperand
    if p.usesInOps s.yieldOperand + p.usesInYield s.yieldOperand ≠ 1 then none
    else if p.usesInYield s.yieldOperand ≠ 1 then none
    else if alloc.others.all dominates then some ⟨s.result, slot, alloc⟩
    else none
  else none

/-! ## Producers and consumers -/

/-- The stages that write the buffer and those that read it, unless one does both. -/
def scanProducersConsumers (stages : List StageOp) (buffer : ValueId) :
    Option (List StageOp × List StageOp) :=
  let producers := stages.filter fun s => s.ops.any fun op => op.writeBuffer = some buffer
  let consumers := stages.filter fun s => s.ops.any fun op => op.readBuffer = some buffer
  if producers.any fun s => consumers.any fun t => t.id = s.id then none
  else some (producers, consumers)

/-- The stage that produces a token, the first one if there are several. -/
def tokenProducerStage (stages : List StageOp) (token : ValueId) : Option StageId :=
  (stages.find? fun s => token ∈ s.dependsOut).map StageOp.id

/-- The stages other than `s` that consume a token of `s`. -/
def successors (stages : List StageOp) (s : StageId) : List StageId :=
  (stages.filter fun succ => succ.id ≠ s ∧
    succ.dependsIn.any fun token => tokenProducerStage stages token = some s).map StageOp.id

/-- The search over token edges, with the last stage found on top of the worklist. -/
def search (stages : List StageOp) (target : StageId) : Nat → List StageId → List StageId → Bool
  | 0, _, _ => false
  | _, _, [] => false
  | steps + 1, visited, s :: worklist =>
      let found := successors stages s
      if target ∈ found then true
      else
        let fresh := found.filter fun succ => succ ∉ visited
        search stages target steps (visited ++ fresh) (fresh.reverse ++ worklist)

/-- Every stage is taken from the worklist at most once. -/
def producerTransitivelyPrecedes (stages : List StageOp) (producer target : StageId) : Bool :=
  if producer = target then false
  else search stages target (stages.length + 1) [producer] [producer]

structure Candidate where
  shape : CandidateShape
  producer : StageOp
  consumers : List StageOp

/-- The checks g to k. -/
def checkProducerConsumer (stages : List StageOp) (shape : CandidateShape) : Option Candidate := do
  let (producers, consumers) ← scanProducersConsumers stages shape.yielded
  match producers with
  | [producer] =>
      if consumers.isEmpty then none
      else if consumers.all fun c => producerTransitivelyPrecedes stages producer.id c.id then
        some ⟨shape, producer, consumers⟩
      else none
  | _ => none

/-- The buffers of a pipeline that are accepted. -/
def collectCandidates [DecidableEq R] (memoryTree : MemoryTree R) (dominates : ValueId → Bool)
    (pipeline : PipelineOp R) : List Candidate :=
  match pipeline.privateOp with
  | none => []
  | some p =>
      ((List.range p.slots.length).filterMap (checkBufferShape memoryTree dominates p)).filterMap
        (checkProducerConsumer pipeline.stages)

/-! ## The rewrite -/

structure BufferPhaseOp where
  result : ValueId
  inductionVars : List ValueId
  numPhases : Nat
  deriving Repr, DecidableEq

structure SelectMemrefOp where
  result : ValueId
  phase : ValueId
  buffers : List ValueId
  deriving Repr, DecidableEq

/-- The pipeline with the operations in front of it and the buffers outside the loops. -/
structure Rewritten (R : Type) where
  hoisted : List (List ValueId)
  phase : BufferPhaseOp
  selects : List SelectMemrefOp
  pipeline : PipelineOp R

/-- The results of the clones of an allocation. -/
def hoistAllocPair (next : ValueId) : List ValueId :=
  (List.range kDefaultNumPhases).map (next + ·)

/-- Use another value in all operations of a region. -/
def replaceUsesInRegion (source target : ValueId) (pipeline : PipelineOp R) : PipelineOp R :=
  let replace : ValueId → ValueId := fun v => if v = source then target else v
  { pipeline with
    privateOp := pipeline.privateOp.map fun p =>
      { body := p.body.map (OpInfo.mapOperands · replace),
        slots := p.slots.map fun s => { s with yieldOperand := replace s.yieldOperand } }
    stages := pipeline.stages.map fun s =>
      { s with body := s.body.map (Rose.map (OpInfo.mapOperands · replace)) } }

/-- Drop slots and the allocations they yield. The kept results keep their ids. -/
def prunePrivateSlots (p : PrivateOp R) (slotsToDrop : List Nat) : PrivateOp R :=
  let dropped := (slotsToDrop.filterMap (p.slots[·]?)).map Slot.yieldOperand
  { body := p.body.filter fun op =>
      !(op.kind = .alloc ∧ op.results.any fun v => dropped.contains v)
    slots := (p.slots.zipIdx.filter fun s => s.2 ∉ slotsToDrop).map Prod.fst }

/-- Fresh values from `next` on: the two buffers of each candidate, then the phase and the selected
buffers. -/
def rewritePipeline (next : ValueId) (scopeIvs : List ValueId) (candidates : List Candidate)
    (pipeline : PipelineOp R) : Rewritten R :=
  let hoisted := (List.range candidates.length).map fun i => hoistAllocPair (next + 2 * i)
  let phase : BufferPhaseOp := ⟨next + 2 * candidates.length, scopeIvs.reverse, kDefaultNumPhases⟩
  let selects := hoisted.zipIdx.map fun h =>
    (⟨phase.result + 1 + h.2, phase.result, h.1⟩ : SelectMemrefOp)
  let replaced := (candidates.zip selects).foldl
    (fun p x => replaceUsesInRegion x.1.shape.yielded x.2.result p) pipeline
  let pruned := { replaced with
    modulo := some kDefaultNumPhases
    privateOp := replaced.privateOp.map (prunePrivateSlots · (candidates.map (·.shape.slot))) }
  ⟨hoisted, phase, selects, pruned⟩

end DoubleBuffering
