import DataflowScheduler.Analysis.WriteSetScan
import DataflowScheduler.Conversion.KTDFToKTDFLow.SignalGuards
import DataflowScheduler.Dialect.KTDF.StageEdges

/-!
# Back edges of pipelines under loops

A last stage of a pipeline may write what a first stage reads in a later iteration of the loops around
the pipeline. Such a pair of stages gets a back edge, and `insertSignals` puts a guarded signal into
either stage. Which loops the guards test is read off the index and guard computations in the stages.
-/

namespace DataflowScheduler

namespace SignalInsertion

open LoopNest WriteSetScan

/-! ## Stages and pipelines -/

/-- A `ktdf.data_transfer` in a stage, with the operations around it, innermost first. -/
structure DataTransfer where
  id : OpId
  source : TransferSide
  dest : TransferSide
  parents : List OpInfo
  deriving Repr, DecidableEq

/-- A `ktdf.stage`. -/
structure Stage where
  id : KTDF.StageId
  dependsOut : List KTDF.Token
  dependsIn : List KTDF.Token
  body : Region

/-- The stage as the analysis of tokens sees it. -/
def Stage.toStageOp (stage : Stage) : KTDF.StageOp :=
  ⟨stage.id, stage.dependsOut, stage.dependsIn, .nil⟩

/-- The data transfers that a walk over a stage meets. They have no regions, so it makes no difference
to their order whether the walk meets an operation before or after those in it. -/
def Stage.transfers (stage : Stage) : List DataTransfer :=
  (Rose.contextsList [] stage.body).filterMap fun op => match op.1.kind with
    | .dataTransfer source dest => some ⟨op.1.id, source, dest, op.2⟩
    | _ => none

/-- An `scf.for`, with its induction variable and the trip count that is known from its bounds. -/
structure ForLoop where
  op : ForOp
  inductionVar : Value
  staticTripCount : Option Nat

/-- A `ktdf.pipeline`, with the loops around it, outermost first. -/
structure Pipeline where
  loops : List ForLoop
  stages : List Stage

/-- A function: all its operations and its pipelines. -/
structure Func where
  ops : List OpInfo
  pipelines : List Pipeline

/-! ## Finding back edges -/

/-- `stageHasBackedgeDependency`: the transfers with a dependency. -/
def stageHasBackedgeDependency (ops : List OpInfo) (loadStage storeStage : Stage) :
    List DataTransfer :=
  (loadStage.transfers.filter fun xfer => !xfer.source.isFifo).filter fun xfer =>
    regionWritesTo ops storeStage.body xfer.source.value none

/-- The operands of the operations around a transfer, up to the stage. -/
def DataTransfer.parentOperands (xfer : DataTransfer) : List Value :=
  (xfer.parents.takeWhile fun op => op.kind ≠ .stage).flatMap OpInfo.operands

/-- The values that the walk of `collectDependentLoops` starts with. -/
def dependenceSeeds (loadTransfers storeTransfers : List DataTransfer) : List Value :=
  loadTransfers.flatMap (fun xfer => xfer.source.indices) ++
    storeTransfers.flatMap (fun xfer => xfer.dest.indices) ++
    loadTransfers.flatMap DataTransfer.parentOperands ++
    storeTransfers.flatMap DataTransfer.parentOperands

/-- The operands of the operation that defines a value. A block argument has none. -/
def definingOperands (ops : List OpInfo) (v : Value) : List Value :=
  match ops.find? fun op => decide (v ∈ op.results) with
  | none => []
  | some op => op.operands

/-- The static trip count is at most 1. -/
def ForLoop.isTrivial (loop : ForLoop) : Bool := loop.staticTripCount.any (· ≤ 1)

/-- `collectDependentLoops`, in the order in which the walk meets their induction variables. -/
def collectDependentLoops (ops : List OpInfo) (loadTransfers storeTransfers : List DataTransfer)
    (ancestorLoops : List ForLoop) : List LoopId :=
  let seeds := dependenceSeeds loadTransfers storeTransfers
  let values := seeds ++ ops.flatMap OpInfo.operands
  let visited := Worklist.closure (definingOperands ops)
    ((values.map fun v => (definingOperands ops v).length).sum + seeds.length) seeds.reverse
  visited.reverse.flatMap fun v =>
    (ancestorLoops.filter fun loop => decide (loop.inductionVar = v) && !loop.isTrivial).map
      fun loop => loop.op.id

/-- `BackEdgeInfo` -/
structure BackEdgeInfo where
  storeStage : KTDF.StageId
  loadStage : KTDF.StageId
  dependentLoops : List LoopId
  loadStageTransfers : List OpId
  deriving Repr, DecidableEq

/-- The round of `addScfForPipelineBackEdges` for a pair of candidates. -/
def backEdge (ops : List OpInfo) (loops : List ForLoop) (loadStage storeStage : Stage) :
    Option BackEdgeInfo :=
  if loadStage.id = storeStage.id then none
  else
    let transfersWithDependency := stageHasBackedgeDependency ops loadStage storeStage
    if transfersWithDependency.isEmpty then none
    else
      let storeTransfers := storeStage.transfers.filter fun xfer => !xfer.dest.isFifo
      let dependentLoops := collectDependentLoops ops transfersWithDependency storeTransfers loops
      if dependentLoops.isEmpty then none
      else some ⟨storeStage.id, loadStage.id, dependentLoops,
        transfersWithDependency.map DataTransfer.id⟩

/-- The round of `addScfForPipelineBackEdges` for a pipeline. -/
def pipelineBackEdges (ops : List OpInfo) (pipeline : Pipeline) : List BackEdgeInfo :=
  if pipeline.stages.length < 2 then []
  else match KTDF.analyzeStageDependencies (pipeline.stages.map Stage.toStageOp) with
    | none => []
    | some localDag =>
        let loadCandidates :=
          pipeline.stages.filter fun stage => (localDag.predecessors stage.id).isEmpty
        let storeCandidates :=
          pipeline.stages.filter fun stage => (localDag.successors stage.id).isEmpty
        loadCandidates.flatMap fun loadStage =>
          storeCandidates.filterMap (backEdge ops pipeline.loops loadStage)

/-- `addScfForPipelineBackEdges` -/
def addScfForPipelineBackEdges (func : Func) (globalDag : KTDF.StageDependencyDAG) :
    KTDF.StageDependencyDAG × List BackEdgeInfo :=
  let backEdges := func.pipelines.flatMap (pipelineBackEdges func.ops)
  (backEdges.foldl (fun dag be => dag.addEdge (be.storeStage, be.loadStage)) globalDag, backEdges)

/-! ## Signals -/

/-- A unit, as the value that stands for it. -/
abbrev UnitValue := Nat

/-- `StageToUnitsMap`. A stage that is not a key has no entries. -/
abbrev StageToUnitsMap := KTDF.StageId → List UnitValue

/-- `collectSignalUnits` -/
def collectSignalUnits (stageA stageB : KTDF.StageId) (stageToUnits : StageToUnitsMap) :
    List UnitValue :=
  stageToUnits stageA ++ stageToUnits stageB

/-- The two signals of a back edge: one at the start of the load stage under the `loadGuard` of the
dependent loops, one at the end of the store stage under their `storeGuard`. -/
structure BackEdgeSignals where
  storeStage : KTDF.StageId
  loadStage : KTDF.StageId
  dependentLoops : List LoopId
  signalUnits : List UnitValue
  deriving Repr, DecidableEq

/-- The part of `insertSignals` for back edges. -/
def insertBackEdgeSignals (stageToUnits : StageToUnitsMap) (conflicts : KTDF.StageId × KTDF.StageId → Bool)
    (backEdges : List BackEdgeInfo) : List BackEdgeSignals :=
  backEdges.filterMap fun be =>
    if conflicts (be.storeStage, be.loadStage) then
      let signalUnits := collectSignalUnits be.storeStage be.loadStage stageToUnits
      if signalUnits.isEmpty then none
      else some ⟨be.storeStage, be.loadStage, be.dependentLoops, signalUnits⟩
    else none

/-- The signals for back edges in a function whose graph of stages is `globalDag`: back edges are
added to the graph, conflicts are looked for on its edges, and signals are inserted. -/
def backEdgeSignals (func : Func) (globalDag : KTDF.StageDependencyDAG) (stageToUnits : StageToUnitsMap)
    (computeScratchpadConflicts : KTDF.StageDependencyDAG → KTDF.StageId × KTDF.StageId → Bool) :
    List BackEdgeSignals :=
  let added := addScfForPipelineBackEdges func globalDag
  insertBackEdgeSignals stageToUnits (computeScratchpadConflicts added.1) added.2

/-! ## What back edges there are -/

/-- Reading `v` reads the results of computations from `w`. -/
def ComputedFrom (ops : List OpInfo) (v w : Value) : Prop := w ∈ definingOperands ops v

theorem mem_definingOperands {ops : List OpInfo} {v w : Value} (h : w ∈ definingOperands ops v) :
    w ∈ ops.flatMap OpInfo.operands := by
  unfold definingOperands at h
  split at h
  · cases h
  · next op hfind => exact List.mem_flatMap.mpr ⟨op, List.mem_of_find?_eq_some hfind, h⟩

/-- A loop is dependent if it is around the pipeline, may run more than once and what the stages
compute their accesses and guards from contains its induction variable. -/
theorem mem_collectDependentLoops {ops : List OpInfo}
    {loadTransfers storeTransfers : List DataTransfer} {ancestorLoops : List ForLoop} {id : LoopId} :
    id ∈ collectDependentLoops ops loadTransfers storeTransfers ancestorLoops ↔
      ∃ loop ∈ ancestorLoops, loop.op.id = id ∧ loop.isTrivial = false ∧
        ∃ seed ∈ dependenceSeeds loadTransfers storeTransfers,
          Relation.ReflTransGen (ComputedFrom ops) seed loop.inductionVar := by
  have hclosure : ∀ v, v ∈ Worklist.closure (definingOperands ops)
      (((dependenceSeeds loadTransfers storeTransfers ++ ops.flatMap OpInfo.operands).map
        fun v => (definingOperands ops v).length).sum +
          (dependenceSeeds loadTransfers storeTransfers).length)
      (dependenceSeeds loadTransfers storeTransfers).reverse ↔
        ∃ seed ∈ (dependenceSeeds loadTransfers storeTransfers).reverse,
          Relation.ReflTransGen (ComputedFrom ops) seed v := by
    intro v
    refine Worklist.mem_closure_iff
      (fun _ _ _ hw => List.mem_append_right _ (mem_definingOperands hw))
      (fun seed hseed => List.mem_append_left _ (List.mem_reverse.mp hseed)) ?_
    rw [List.length_reverse]
  unfold collectDependentLoops
  simp only [List.mem_flatMap, List.mem_reverse, hclosure, List.mem_map, List.mem_filter,
    Bool.and_eq_true, decide_eq_true_eq, Bool.not_eq_true']
  constructor
  · rintro ⟨v, ⟨seed, hseed, hpath⟩, loop, ⟨hloop, rfl, htrivial⟩, rfl⟩
    exact ⟨loop, hloop, rfl, htrivial, seed, hseed, hpath⟩
  · rintro ⟨loop, hloop, rfl, htrivial, seed, hseed, hpath⟩
    exact ⟨loop.inductionVar, ⟨seed, hseed, hpath⟩, loop, ⟨hloop, rfl, htrivial⟩, rfl⟩

/-- The store stage has an operation that is known to write through a view of what the transfer
reads. -/
def SeenWritten (ops : List OpInfo) (storeStage : Stage) (xfer : DataTransfer) : Prop :=
  xfer.source.isFifo = false ∧ ∃ op ∈ Rose.postorderList storeStage.body, ∃ w ∈ op.kind.written,
    Relation.ReflTransGen (IsViewOf ops) xfer.source.value w

theorem mem_stageHasBackedgeDependency {ops : List OpInfo} {loadStage storeStage : Stage}
    {xfer : DataTransfer} : xfer ∈ stageHasBackedgeDependency ops loadStage storeStage ↔
      xfer ∈ loadStage.transfers ∧ SeenWritten ops storeStage xfer := by
  rw [stageHasBackedgeDependency, List.mem_filter, List.mem_filter, regionWritesTo_iff, and_assoc,
    Bool.not_eq_true']
  rfl

/-- A value from which an access to the scratchpad is computed, or a guard or a bound around it. -/
inductive IsSeed (ops : List OpInfo) (loadStage storeStage : Stage) : Value → Prop
  | source {xfer : DataTransfer} {v : Value} (hxfer : xfer ∈ loadStage.transfers)
      (hseen : SeenWritten ops storeStage xfer)
      (hv : v ∈ xfer.source.indices ++ xfer.parentOperands) : IsSeed ops loadStage storeStage v
  | dest {xfer : DataTransfer} {v : Value} (hxfer : xfer ∈ storeStage.transfers)
      (hmemref : xfer.dest.isFifo = false) (hv : v ∈ xfer.dest.indices ++ xfer.parentOperands) :
      IsSeed ops loadStage storeStage v

/-- A loop around the pipeline that may run more than once and that an access, or a guard or a bound
around one, depends on. -/
def DependsOnLoop (ops : List OpInfo) (loops : List ForLoop) (loadStage storeStage : Stage)
    (id : LoopId) : Prop :=
  ∃ loop ∈ loops, loop.op.id = id ∧ loop.isTrivial = false ∧
    ∃ seed, IsSeed ops loadStage storeStage seed ∧
      Relation.ReflTransGen (ComputedFrom ops) seed loop.inductionVar

theorem mem_dependenceSeeds {ops : List OpInfo} {loadStage storeStage : Stage} {v : Value} :
    v ∈ dependenceSeeds (stageHasBackedgeDependency ops loadStage storeStage)
        (storeStage.transfers.filter fun xfer => !xfer.dest.isFifo) ↔
      IsSeed ops loadStage storeStage v := by
  simp only [dependenceSeeds, List.mem_append, List.mem_flatMap, mem_stageHasBackedgeDependency,
    List.mem_filter, Bool.not_eq_true']
  constructor
  · rintro (((⟨xfer, ⟨hxfer, hseen⟩, hv⟩ | ⟨xfer, ⟨hxfer, hmemref⟩, hv⟩) |
      ⟨xfer, ⟨hxfer, hseen⟩, hv⟩) | ⟨xfer, ⟨hxfer, hmemref⟩, hv⟩)
    · exact .source hxfer hseen (List.mem_append_left _ hv)
    · exact .dest hxfer hmemref (List.mem_append_left _ hv)
    · exact .source hxfer hseen (List.mem_append_right _ hv)
    · exact .dest hxfer hmemref (List.mem_append_right _ hv)
  · intro h
    cases h with
    | source hxfer hseen hv =>
        rcases List.mem_append.mp hv with hv | hv
        · exact Or.inl (Or.inl (Or.inl ⟨_, ⟨hxfer, hseen⟩, hv⟩))
        · exact Or.inl (Or.inr ⟨_, ⟨hxfer, hseen⟩, hv⟩)
    | dest hxfer hmemref hv =>
        rcases List.mem_append.mp hv with hv | hv
        · exact Or.inl (Or.inl (Or.inr ⟨_, ⟨hxfer, hmemref⟩, hv⟩))
        · exact Or.inr ⟨_, ⟨hxfer, hmemref⟩, hv⟩

/-- What the walk collects from the transfers of two stages. -/
theorem mem_collectDependentLoops_iff {ops : List OpInfo} {loops : List ForLoop}
    {loadStage storeStage : Stage} {id : LoopId} :
    id ∈ collectDependentLoops ops (stageHasBackedgeDependency ops loadStage storeStage)
        (storeStage.transfers.filter fun xfer => !xfer.dest.isFifo) loops ↔
      DependsOnLoop ops loops loadStage storeStage id := by
  simp only [mem_collectDependentLoops, mem_dependenceSeeds]
  rfl

/-- A pair of candidates is recorded when a write of the store stage is seen and some loop is
dependent, and then with exactly the dependent loops. -/
theorem backEdge_eq_some {ops : List OpInfo} {loops : List ForLoop} {loadStage storeStage : Stage}
    {be : BackEdgeInfo} (h : backEdge ops loops loadStage storeStage = some be) :
    be.storeStage = storeStage.id ∧ be.loadStage = loadStage.id ∧
      (∃ xfer ∈ loadStage.transfers, SeenWritten ops storeStage xfer) ∧ be.dependentLoops ≠ [] ∧
      ∀ id, id ∈ be.dependentLoops ↔ DependsOnLoop ops loops loadStage storeStage id := by
  unfold backEdge at h
  split at h
  · cases h
  dsimp only at h
  split at h
  · cases h
  next hseen =>
  split at h
  · cases h
  next hdependent =>
  cases h
  refine ⟨rfl, rfl, ?_, ?_, fun id => ?_⟩
  · rw [List.isEmpty_iff] at hseen
    obtain ⟨xfer, hxfer⟩ := List.exists_mem_of_ne_nil _ hseen
    exact ⟨xfer, mem_stageHasBackedgeDependency.mp hxfer⟩
  · rwa [List.isEmpty_iff] at hdependent
  · exact mem_collectDependentLoops_iff

theorem exists_backEdge {ops : List OpInfo} {loops : List ForLoop} {loadStage storeStage : Stage}
    (hne : loadStage.id ≠ storeStage.id)
    (hseen : ∃ xfer ∈ loadStage.transfers, SeenWritten ops storeStage xfer) {id : LoopId}
    (hid : DependsOnLoop ops loops loadStage storeStage id) :
    ∃ be, backEdge ops loops loadStage storeStage = some be := by
  obtain ⟨xfer, hxfer⟩ := hseen
  have htransfers : (stageHasBackedgeDependency ops loadStage storeStage).isEmpty = false :=
    List.isEmpty_eq_false_iff_exists_mem.mpr ⟨xfer, mem_stageHasBackedgeDependency.mpr hxfer⟩
  have hloops : (collectDependentLoops ops (stageHasBackedgeDependency ops loadStage storeStage)
      (storeStage.transfers.filter fun xfer => !xfer.dest.isFifo) loops).isEmpty = false :=
    List.isEmpty_eq_false_iff_exists_mem.mpr ⟨id, mem_collectDependentLoops_iff.mpr hid⟩
  exact ⟨_, by
    unfold backEdge
    simp only [if_neg hne, htransfers, hloops]
    rfl⟩

end SignalInsertion

end DataflowScheduler
