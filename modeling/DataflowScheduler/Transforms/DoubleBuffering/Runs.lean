import DataflowScheduler.Transforms.DoubleBuffering

/-!
# Runs of a pipeline

A run executes the iterations of the scope one after the other. In each, the private region is executed
first and then the operations of the stages, in any order and any number of times. What is executed
next may depend on every value read so far. The pipeline before the rewrite and the one after it execute
the same operations.
-/

namespace DoubleBuffering

variable {R W : Type}

/-! ## Runs -/

/-- A piece of memory. -/
inductive Storage where
  /-- Memory from outside the scope. -/
  | outer (v : ValueId)
  /-- What the allocation with this result allocates in an iteration. -/
  | allocated (v : ValueId) (iteration : Nat)
  /-- What an allocation in front of the loops allocates. -/
  | hoisted (v : ValueId)
  /-- What a stage allocates, by the number of steps before. -/
  | inStage (steps : Nat)
  deriving Repr, DecidableEq

abbrev Index := List Int

/-- What a memref refers to: an element of it is an element of the storage. -/
structure Place where
  storage : Storage
  index : Index → Index

abbrev Env := ValueId → Option Place

def Env.bind (env : Env) (v : ValueId) (place : Option Place) : Env :=
  fun w => if w = v then place else env w

/-- What comes from outside the pipeline: the memrefs in an iteration, all of them in outer memory, and
how the views of the private region index. -/
structure Surroundings where
  outer : Nat → ValueId → Option (ValueId × (Index → Index))
  viewIndex : OpId → Nat → Index → Index

def Surroundings.env (outside : Surroundings) (k : Nat) : Env :=
  fun v => (outside.outer k v).map fun p => ⟨.outer p.1, p.2⟩

/-- One step of an execution. Operands and results are given by their positions. -/
inductive Action (W : Type) where
  /-- The next iteration. -/
  | next
  /-- A result refers to what an operand of an operation refers to. -/
  | view (op : OpId) (result : Nat) (source : OpId) (operand : Nat) (index : Index → Index)
  | alloc (op : OpId) (result : Nat)
  | read (op : OpId) (operand : Nat) (i : Index)
  | write (op : OpId) (operand : Nat) (i : Index) (w : W)

/-- What is executed next, by the number of steps before and the values read so far. -/
abbrev Program (W : Type) := Nat → List (Option W) → Option (Action W)

structure Write where
  op : OpId
  storage : Storage
  index : Index
  deriving DecidableEq

/-- The state of a run: all values read so far and the writes of the iteration. -/
structure State (W : Type) where
  iteration : Nat
  env : Env
  memory : Storage → Index → W
  reads : List (Option W)
  writes : List Write

/-- An operation of the private region. -/
def execPrivateOp (outside : Surroundings) (k : Nat) (env : Env) (op : OpInfo) : Env :=
  match op.kind, op.results with
  | .alloc, [v] => env.bind v (some ⟨.allocated v k, id⟩)
  | .view source, [v] => env.bind v ((env source).map fun p =>
      ⟨p.storage, p.index ∘ outside.viewIndex op.id k⟩)
  | _, _ => env

/-- The private region. The results are bound at the end. -/
def execPrivate (outside : Surroundings) (k : Nat) (env : Env) (p : PrivateOp R) : Env :=
  let inside := p.body.foldl (execPrivateOp outside k) env
  fun v => (p.slots.find? fun s => s.result = v).elim (env v) fun s => inside s.yieldOperand

/-- The memrefs at the start of an iteration. -/
def PipelineOp.enter (pipeline : PipelineOp R) (outside : Surroundings) (k : Nat) (env : Env) : Env :=
  pipeline.privateOp.elim env (execPrivate outside k env)

def PipelineOp.findOp (pipeline : PipelineOp R) (op : OpId) : Option OpInfo :=
  (pipeline.stages.flatMap StageOp.ops).find? fun i => i.id = op

def PipelineOp.operandOf (pipeline : PipelineOp R) (op : OpId) (operand : Nat) : Option ValueId :=
  (pipeline.findOp op).bind fun i => i.operands[operand]?

def PipelineOp.resultOf (pipeline : PipelineOp R) (op : OpId) (result : Nat) : Option ValueId :=
  (pipeline.findOp op).bind fun i => i.results[result]?

/-- What an operand refers to. -/
def PipelineOp.placeOf (pipeline : PipelineOp R) (env : Env) (op : OpId) (operand : Nat) :
    Option Place :=
  (pipeline.operandOf op operand).bind env

/-- A step, where `enter` gives the memrefs at the start of an iteration. -/
def step (pipeline : PipelineOp R) (enter : Nat → Env) (n : Nat) (s : State W) :
    Action W → State W
  | .next =>
      { s with iteration := s.iteration + 1, env := enter (s.iteration + 1), writes := [] }
  | .view op result source operand index =>
      (pipeline.resultOf op result).elim s fun v =>
        { s with env := s.env.bind v ((pipeline.placeOf s.env source operand).map fun p =>
          ⟨p.storage, p.index ∘ index⟩) }
  | .alloc op result =>
      (pipeline.resultOf op result).elim s fun v =>
        { s with env := s.env.bind v (some ⟨.inStage n, id⟩) }
  | .read op operand i =>
      { s with reads := s.reads ++ [(pipeline.placeOf s.env op operand).map fun p =>
        s.memory p.storage (p.index i)] }
  | .write op operand i w =>
      (pipeline.placeOf s.env op operand).elim s fun p =>
        { s with
          memory := fun storage j =>
            if storage = p.storage ∧ j = p.index i then w else s.memory storage j
          writes := ⟨op, p.storage, p.index i⟩ :: s.writes }

/-- The state after a number of steps. -/
def run (pipeline : PipelineOp R) (enter : Nat → Env) (memory : Storage → Index → W)
    (program : Program W) : Nat → State W
  | 0 => ⟨0, enter 0, memory, [], []⟩
  | n + 1 =>
      let s := run pipeline enter memory program n
      (program n s.reads).elim s (step pipeline enter n s)

/-- The run of a pipeline. -/
def runBefore (pipeline : PipelineOp R) (outside : Surroundings) (memory : Storage → Index → W)
    (program : Program W) : Nat → State W :=
  run pipeline (fun k => pipeline.enter outside k (outside.env k)) memory program

/-- The selected buffers: in iteration `k` those of phase `k` modulo the number of phases. -/
def Rewritten.select (r : Rewritten R) (k : Nat) (env : Env) : Env :=
  r.selects.foldl (fun env sel => env.bind sel.result
    ((sel.buffers[k % r.phase.numPhases]?).map fun v => ⟨.hoisted v, id⟩)) env

/-- The run of a pipeline after the rewrite. -/
def runAfter (r : Rewritten R) (outside : Surroundings) (memory : Storage → Index → W)
    (program : Program W) : Nat → State W :=
  run r.pipeline (fun k => r.pipeline.enter outside k (r.select k (outside.env k))) memory program

/-- In every iteration the producer writes every element of a buffer that is read, before it is read. -/
def ProducerWritesFirst (pipeline : PipelineOp R) (outside : Surroundings)
    (memory : Storage → Index → W) (program : Program W) (candidates : List Candidate) : Prop :=
  ∀ n op operand i, program n (runBefore pipeline outside memory program n).reads =
    some (.read op operand i) →
      ∀ p, pipeline.placeOf (runBefore pipeline outside memory program n).env op operand = some p →
        ∀ c ∈ candidates, ∀ v ∈ c.shape.alloc.results, ∀ k, p.storage = .allocated v k →
          ∃ w ∈ (runBefore pipeline outside memory program n).writes,
            w.op ∈ c.producer.ops.map OpInfo.id ∧ w.storage = p.storage ∧ w.index = p.index i

/-- A pipeline in static single-assignment form, with values below `next`. -/
structure PipelineOp.Valid (pipeline : PipelineOp R) (p : PrivateOp R) (next : ValueId) : Prop where
  privateOp : pipeline.privateOp = some p
  body : (p.body.flatMap OpInfo.results).Nodup
  body_lt : ∀ v ∈ p.body.flatMap OpInfo.results ++ p.body.flatMap OpInfo.operands ++
    p.slots.map Slot.yieldOperand, v < next
  slots : (p.slots.map Slot.result).Nodup
  slots_lt : ∀ v ∈ p.slots.map Slot.result, v < next
  slots_new : ∀ v ∈ p.slots.map Slot.result,
    v ∉ p.body.flatMap OpInfo.operands ∧ v ∉ p.slots.map Slot.yieldOperand
  operands_lt : ∀ op ∈ pipeline.stages.flatMap StageOp.ops, ∀ v ∈ op.operands, v < next
  results_lt : ∀ op ∈ pipeline.stages.flatMap StageOp.ops, ∀ v ∈ op.results, v < next
  results_new : ∀ op ∈ pipeline.stages.flatMap StageOp.ops, ∀ v ∈ op.results,
    v ∉ p.slots.map Slot.result

end DoubleBuffering
