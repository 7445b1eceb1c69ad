import DataflowScheduler.Conversion.KTDFToKTDFLow.BackEdges
import DataflowScheduler.Util.Rendezvous

/-!
# Which iterations back-edge signals order

The units of a store stage and of a load stage run through the same iterations of the loops around
their pipeline, each at its own pace. The signals of a back edge are what holds the load stage back
until the store stage is through with an earlier iteration. Here is for which pairs of iterations they
do, when one writes what the other reads.
-/

namespace DataflowScheduler

namespace SignalInsertion

open LoopNest WriteSetScan Rendezvous

/-! ## Accesses -/

/-- The cells of memory that a transfer touches when it is run in an iteration, in all its runs if
there are loops around it in the stage. -/
structure Accesses (Cell : Type) where
  reads : OpId → Env → Set Cell
  writes : OpId → Env → Set Cell

/-- The sides of a transfer, direct or indirect. -/
def transferSides : OpKind → Option (TransferSide × TransferSide)
  | .dataTransfer source dest | .indDataTransfer source dest => some (source, dest)
  | .store _ | .linalg _ | .view | .stage | .other => none

section Stage

variable {Cell : Type} (accesses : Accesses Cell) (stage : Stage) (env : Env) (cell : Cell)

/-- A transfer of the stage writes the cell. -/
def Stage.Writes : Prop :=
  ∃ op ∈ Rose.postorderList stage.body, ∃ source dest, transferSides op.kind = some (source, dest) ∧
    dest.isFifo = false ∧ cell ∈ accesses.writes op.id env

/-- A transfer of the stage reads the cell. -/
def Stage.Reads : Prop :=
  ∃ op ∈ Rose.postorderList stage.body, ∃ source dest, transferSides op.kind = some (source, dest) ∧
    source.isFifo = false ∧ cell ∈ accesses.reads op.id env

end Stage

/-- The store stage writes in iteration `i` what the load stage reads in iteration `j`. -/
def Depends {Cell : Type} (accesses : Accesses Cell) (storeStage loadStage : Stage) (its : List Env)
    (i j : Nat) : Prop :=
  ∃ cell, (∃ env, its[i]? = some env ∧ storeStage.Writes accesses env cell) ∧
    ∃ env, its[j]? = some env ∧ loadStage.Reads accesses env cell

/-! ## Runs of the two units -/

namespace BackEdgeSignals

variable (sig : BackEdgeSignals) (its : List Env)

/-- The store stage signals at the end of the iteration. -/
def sends (n : Nat) : Bool := (its[n]?.bind (storeGuard sig.dependentLoops)) == some true

/-- The load stage waits for a signal at the start of the iteration. -/
def waits (n : Nat) : Bool := (its[n]?.bind (loadGuard sig.dependentLoops)) == some true

/-- What the units of the store stage do: the iterations, and the signals after them. -/
def storeActs : List (Act Nat) := thenMeet (sig.sends its) (List.range its.length)

/-- What the units of the load stage do: the signals, and the iterations after them. -/
def loadActs : List (Act Nat) := meetThen (sig.waits its) (List.range its.length)

end BackEdgeSignals

/-- Some signal of the store stage at the end of iteration `i` or later is the one that the load stage
waits for at the start of iteration `j` or earlier, and whatever the order in which the units run, the
load stage does iteration `j` only when the store stage is through with iteration `i`. -/
def Ordered (signals : List BackEdgeSignals) (storeStage loadStage : Stage) (its : List Env)
    (i j : Nat) : Prop :=
  ∃ sig ∈ signals, sig.storeStage = storeStage.id ∧ sig.loadStage = loadStage.id ∧
    MeetsBetween (sig.sends its) (sig.waits its) its.length i j ∧
    ∀ s, Reachable (sig.storeActs its) (sig.loadActs its) s →
      .own j ∈ (sig.loadActs its).take s.second → .own i ∈ (sig.storeActs its).take s.first

/-! ## Which iterations have no signal -/

section Iterations

variable (dependent : LoopId → Prop)

/-- All dependent loops are at their lower bounds. -/
def AtFirst (env : Env) : Prop := ∀ id, dependent id → (env id).notFirst = false

/-- All dependent loops are one step below their upper bounds. -/
def AtLast (env : Env) : Prop := ∀ id, dependent id → (env id).notLast = false

open Classical in
/-- The number of iterations with a property. -/
noncomputable def numIterations (p : Env → Prop) (its : List Env) : Nat :=
  its.countP fun env => decide (p env)

/-- The iterations from `i` to `j`, together with those before `i` that have all dependent loops at the
end, are more than the iterations up to `j` that have all dependent loops at the start; and from `i` on
not every iteration has all of them at the end. -/
structure EnoughIterations (its : List Env) (i j : Nat) : Prop where
  more : numIterations (AtFirst dependent) (its.take (j + 1)) <
    j + 1 - i + numIterations (AtLast dependent) (its.take i)
  notLast : ∃ n env, i ≤ n ∧ its[n]? = some env ∧ ¬AtLast dependent env

end Iterations

section Count

variable {dependent : LoopId → Prop} {its : List Env} {i j : Nat}

theorem countP_range_getElem? {α : Type} (f : Option α → Bool) (l : List α) {n : Nat}
    (hn : n ≤ l.length) :
    (List.range n).countP (fun k => f l[k]?) = (l.take n).countP fun a => f (some a) := by
  induction n with
  | zero => rfl
  | succ n ih =>
      have hget := List.getElem?_eq_getElem (show n < l.length by omega)
      rw [List.range_succ, List.countP_append, ih (by omega), take_succ_of_getElem? hget,
        List.countP_append, List.countP_singleton, List.countP_singleton, hget]

/-- Iterations with a property and those without are all. -/
theorem numIterations_add {p : Env → Prop} {test : Env → Bool} (h : ∀ env, test env = true ↔ ¬p env)
    (its : List Env) : its.countP test + numIterations p its = its.length := by
  have hlength := @List.length_eq_countP_add_countP _ test its
  rw [numIterations, hlength, Nat.add_left_cancel_iff]
  refine List.countP_congr fun env _ => ?_
  simp only [decide_eq_true_eq]
  rw [h, not_not]

theorem orCond_eq_true_iff {test : Frame → Bool} {dependentLoops : List LoopId}
    (hne : dependentLoops ≠ []) (hmem : ∀ id, id ∈ dependentLoops ↔ dependent id) (env : Env) :
    (orCond test dependentLoops env == some true) = true ↔
      ¬∀ id, dependent id → test (env id) = false := by
  rw [orCond_eq hne]
  simp [hmem]

/-- Under either guard, the signals of the first iterations and the iterations that fail the test of
every dependent loop are all of them. -/
theorem countP_orCond {test : Frame → Bool} {dependentLoops : List LoopId}
    (hne : dependentLoops ≠ []) (hmem : ∀ id, id ∈ dependentLoops ↔ dependent id) {n : Nat}
    (hn : n ≤ its.length) :
    (List.range n).countP (fun k => (its[k]?.bind (orCond test dependentLoops)) == some true) +
      numIterations (fun env => ∀ id, dependent id → test (env id) = false) (its.take n) = n := by
  have hcount := countP_range_getElem?
    (fun env? => env?.bind (orCond test dependentLoops) == some true) its hn
  have htest : ∀ env, (orCond test dependentLoops env == some true) = true ↔
      ¬∀ id, dependent id → test (env id) = false := orCond_eq_true_iff hne hmem
  have hadd := numIterations_add htest (its.take n)
  rw [List.length_take_of_le hn] at hadd
  exact (congrArg (· + _) hcount).trans hadd

/-- A signal lies between two iterations exactly when there are enough iterations between them. -/
theorem meetsBetween_iff_enoughIterations {sig : BackEdgeSignals} (hne : sig.dependentLoops ≠ [])
    (hmem : ∀ id, id ∈ sig.dependentLoops ↔ dependent id) (hij : i < j) (hj : j < its.length) :
    MeetsBetween (sig.sends its) (sig.waits its) its.length i j ↔
      EnoughIterations dependent its i j := by
  have hsends : (List.range i).countP (sig.sends its) +
      numIterations (AtLast dependent) (its.take i) = i :=
    countP_orCond hne hmem (by omega)
  have hwaits : (List.range (j + 1)).countP (sig.waits its) +
      numIterations (AtFirst dependent) (its.take (j + 1)) = j + 1 :=
    countP_orCond hne hmem (by omega)
  have hlast : (∃ n, i ≤ n ∧ n < its.length ∧ sig.sends its n = true) ↔
      ∃ n env, i ≤ n ∧ its[n]? = some env ∧ ¬AtLast dependent env := by
    constructor
    · rintro ⟨n, hin, hn, hsend⟩
      refine ⟨n, its[n], hin, List.getElem?_eq_getElem hn, ?_⟩
      rw [BackEdgeSignals.sends, List.getElem?_eq_getElem hn] at hsend
      exact (orCond_eq_true_iff hne hmem _).mp hsend
    · rintro ⟨n, env, hin, hget, hnot⟩
      refine ⟨n, hin, (List.getElem?_eq_some_iff.mp hget).1, ?_⟩
      rw [BackEdgeSignals.sends, hget]
      exact (orCond_eq_true_iff hne hmem _).mpr hnot
  rw [meetsBetween_iff (by omega) hj, hlast]
  constructor
  · rintro ⟨hlt, hnotLast⟩
    exact ⟨by omega, hnotLast⟩
  · rintro ⟨hmore, hnotLast⟩
    exact ⟨by omega, hnotLast⟩

/-- If only the first iteration can have a property, at most one has it. -/
theorem numIterations_take_le_one {p : Env → Prop}
    (h : ∀ n, 0 < n → ∀ hn : n < its.length, ¬p its[n]) : numIterations p (its.take (j + 1)) ≤ 1 := by
  cases its with
  | nil => exact Nat.zero_le _
  | cons first rest =>
      have hrest : numIterations p (rest.take j) = 0 := by
        rw [numIterations, List.countP_eq_zero]
        intro env henv
        obtain ⟨n, hn, rfl⟩ := List.mem_iff_getElem.mp (List.mem_of_mem_take henv)
        simpa using h (n + 1) (Nat.succ_pos n) (Nat.succ_lt_succ hn)
      rw [List.take_succ_cons, numIterations, List.countP_cons]
      rw [numIterations] at hrest
      rw [hrest]
      split <;> decide

/-- Where every loop around the pipeline is dependent, there always are enough iterations. -/
theorem enoughIterations_of_all {loops : List ForOp} {env : Env} (hnd : (loops.map ForOp.id).Nodup)
    (hit : Iterates loops env) (hmem : ∀ id, dependent id ↔ id ∈ loops.map ForOp.id) (hij : i < j)
    (hj : j < (iterations loops env).length) :
    EnoughIterations dependent (iterations loops env) i j := by
  have hall : ∀ (test : Frame → Bool) env', (∀ id, dependent id → test (env' id) = false) ↔
      anyLoop test loops env' = false := by
    intro test env'
    simp only [hmem, List.mem_map, anyLoop, List.any_eq_false]
    constructor
    · intro h loop hloop
      rw [h loop.id ⟨loop, hloop, rfl⟩]
      exact Bool.false_ne_true
    · rintro h _ ⟨loop, hloop, rfl⟩
      exact Bool.eq_false_iff.mpr (h loop hloop)
  have hfirst := (falseFirst_anyLoop hnd hit).getElem
  have hlast := (trueUntilLast_anyLoop hnd hit).getElem
  simp only [List.length_map, List.getElem_map] at hfirst hlast
  refine ⟨?_, i, _, Nat.le_refl i, List.getElem?_eq_getElem (by omega), ?_⟩
  · -- only iteration 0 has all loops at the start
    have hone : numIterations (AtFirst dependent) ((iterations loops env).take (j + 1)) ≤ 1 := by
      refine numIterations_take_le_one fun n hn hlt => ?_
      rw [AtFirst, hall, hfirst n hlt, decide_eq_true (by omega)]
      exact Bool.noConfusion
    omega
  · rw [AtLast, hall, hlast i (by omega)]
    have hne : i + 1 ≠ (iterations loops env).length := by omega
    rw [decide_eq_true hne, Bool.true_or]
    exact Bool.noConfusion

end Count

/-! ## The back edge of two stages -/

section BackEdge

variable {func : Func} {globalDag : KTDF.StageDependencyDAG} {stageToUnits : StageToUnitsMap}
  {computeScratchpadConflicts : KTDF.StageDependencyDAG → KTDF.StageId × KTDF.StageId → Bool}
  {pipeline : Pipeline} {storeStage loadStage : Stage}

/-- The stages are a last and a first one of the pipeline, by the tokens that its stages hand over. -/
structure LastAndFirst (pipeline : Pipeline) (storeStage loadStage : Stage) : Prop where
  store_mem : storeStage ∈ pipeline.stages
  load_mem : loadStage ∈ pipeline.stages
  ends : ∃ dag, KTDF.analyzeStageDependencies (pipeline.stages.map Stage.toStageOp) = some dag ∧
    dag.successors storeStage.id = [] ∧ dag.predecessors loadStage.id = []

/-- Every stage of the function occurs once. -/
def Func.StagesNodup (func : Func) : Prop :=
  (func.pipelines.flatMap fun pipeline => pipeline.stages.map Stage.id).Nodup

instance Func.decidableStagesNodup (func : Func) : Decidable func.StagesNodup :=
  inferInstanceAs (Decidable (List.Nodup _))

theorem Func.StagesNodup.unique (hnodup : func.StagesNodup) {pipeline pipeline' : Pipeline}
    {stage stage' : Stage} (hp : pipeline ∈ func.pipelines) (hp' : pipeline' ∈ func.pipelines)
    (hs : stage ∈ pipeline.stages) (hs' : stage' ∈ pipeline'.stages) (hid : stage.id = stage'.id) :
    pipeline = pipeline' ∧ stage = stage' := by
  obtain ⟨hnd, hdisjoint⟩ := List.nodup_flatMap.mp hnodup
  have hpipeline : pipeline = pipeline' := by
    by_contra hne
    have : Std.Symm (Function.onFun List.Disjoint fun p : Pipeline => p.stages.map Stage.id) :=
      ⟨fun _ _ h => h.symm⟩
    have hdisj := hdisjoint.forall hp hp' hne
    exact hdisj (List.mem_map_of_mem hs) (hid ▸ List.mem_map_of_mem hs')
  subst hpipeline
  exact ⟨rfl, List.inj_on_of_nodup_map (hnd pipeline hp) hs hs' hid⟩

/-- The back edges of a pipeline are those of its last and first stages. -/
theorem mem_pipelineBackEdges {ops : List OpInfo} {be : BackEdgeInfo}
    (h : be ∈ pipelineBackEdges ops pipeline) :
    ∃ loadStage ∈ pipeline.stages, ∃ storeStage ∈ pipeline.stages,
      backEdge ops pipeline.loops loadStage storeStage = some be := by
  unfold pipelineBackEdges at h
  split at h
  · cases h
  split at h
  · cases h
  · obtain ⟨loadStage, hload, h⟩ := List.mem_flatMap.mp h
    obtain ⟨storeStage, hstore, h⟩ := List.mem_filterMap.mp h
    exact ⟨loadStage, List.mem_of_mem_filter hload, storeStage, List.mem_of_mem_filter hstore, h⟩

theorem LastAndFirst.mem_pipelineBackEdges (h : LastAndFirst pipeline storeStage loadStage)
    {ops : List OpInfo} {be : BackEdgeInfo}
    (hbe : backEdge ops pipeline.loops loadStage storeStage = some be) :
    be ∈ pipelineBackEdges ops pipeline := by
  obtain ⟨dag, hdag, hsucc, hpred⟩ := h.ends
  have hne : loadStage ≠ storeStage := by
    rintro rfl
    rw [backEdge, if_pos rfl] at hbe
    cases hbe
  have hlength : ¬pipeline.stages.length < 2 := by
    have hload := h.load_mem
    have hstore := h.store_mem
    intro hlt
    rcases hstages : pipeline.stages with _ | ⟨stage, _ | ⟨_, _⟩⟩ <;>
      rw [hstages] at hload hstore hlt
    · cases hload
    · exact hne ((List.mem_singleton.mp hload).trans (List.mem_singleton.mp hstore).symm)
    · rw [List.length_cons, List.length_cons] at hlt
      omega
  rw [pipelineBackEdges, if_neg hlength, hdag]
  refine List.mem_flatMap.mpr ⟨loadStage, List.mem_filter.mpr ⟨h.load_mem, by rw [hpred]; rfl⟩, ?_⟩
  exact List.mem_filterMap.mpr
    ⟨storeStage, List.mem_filter.mpr ⟨h.store_mem, by rw [hsucc]; rfl⟩, hbe⟩

/-- Conflicts are found on every edge that is asked about. -/
def ReportsEdges
    (computeScratchpadConflicts : KTDF.StageDependencyDAG → KTDF.StageId × KTDF.StageId → Bool) :
    Prop :=
  ∀ (dag : KTDF.StageDependencyDAG) producer consumer, consumer ∈ dag.successors producer →
    computeScratchpadConflicts dag (producer, consumer) = true

/-- The signals between a last and a first stage are those of their back edge. -/
theorem backEdgeSignals_between (hnodup : func.StagesNodup) (hpipeline : pipeline ∈ func.pipelines)
    (hends : LastAndFirst pipeline storeStage loadStage) {sig : BackEdgeSignals}
    (hsig : sig ∈ backEdgeSignals func globalDag stageToUnits computeScratchpadConflicts)
    (hstore : sig.storeStage = storeStage.id) (hload : sig.loadStage = loadStage.id) :
    ∃ be, backEdge func.ops pipeline.loops loadStage storeStage = some be ∧
      sig.dependentLoops = be.dependentLoops := by
  obtain ⟨be, hbe, hsome⟩ := List.mem_filterMap.mp hsig
  have hsig : sig.storeStage = be.storeStage ∧ sig.loadStage = be.loadStage ∧
      sig.dependentLoops = be.dependentLoops := by
    split at hsome
    · dsimp only at hsome
      split at hsome
      · cases hsome
      · cases hsome
        exact ⟨rfl, rfl, rfl⟩
    · cases hsome
  obtain ⟨pipeline', hpipeline', hbe⟩ := List.mem_flatMap.mp hbe
  obtain ⟨load, hloadMem, store, hstoreMem, hbe⟩ := SignalInsertion.mem_pipelineBackEdges hbe
  obtain ⟨hstoreId, hloadId, -⟩ := backEdge_eq_some hbe
  -- the stages that the back edge was found for are the two at hand
  obtain ⟨rfl, rfl⟩ := hnodup.unique hpipeline hpipeline' hends.store_mem hstoreMem
    (by rw [← hstore, hsig.1, hstoreId])
  obtain ⟨-, rfl⟩ := hnodup.unique hpipeline hpipeline hends.load_mem hloadMem
    (by rw [← hload, hsig.2.1, hloadId])
  exact ⟨be, hbe, hsig.2.2⟩

/-- A back edge of a last and a first stage gets its signals. -/
theorem exists_backEdgeSignals (hconflicts : ReportsEdges computeScratchpadConflicts)
    (hpipeline : pipeline ∈ func.pipelines) (hends : LastAndFirst pipeline storeStage loadStage)
    (hunits : stageToUnits storeStage.id ≠ []) {be : BackEdgeInfo}
    (hbe : backEdge func.ops pipeline.loops loadStage storeStage = some be) :
    ∃ sig ∈ backEdgeSignals func globalDag stageToUnits computeScratchpadConflicts,
      sig.storeStage = storeStage.id ∧ sig.loadStage = loadStage.id ∧
        sig.dependentLoops = be.dependentLoops := by
  obtain ⟨hstore, hload, -⟩ := backEdge_eq_some hbe
  have hmem : be ∈ (addScfForPipelineBackEdges func globalDag).2 :=
    List.mem_flatMap.mpr ⟨pipeline, hpipeline, hends.mem_pipelineBackEdges hbe⟩
  have hedge : be.loadStage ∈
      (addScfForPipelineBackEdges func globalDag).1.successors be.storeStage := by
    have hfold := KTDF.StageDependencyDAG.mem_foldl_addEdge globalDag
      ((addScfForPipelineBackEdges func globalDag).2.map fun be => (be.storeStage, be.loadStage))
      be.storeStage be.loadStage
    rw [List.foldl_map] at hfold
    exact hfold.1.mpr (Or.inr (List.mem_map_of_mem hmem))
  refine ⟨⟨be.storeStage, be.loadStage, be.dependentLoops,
    collectSignalUnits be.storeStage be.loadStage stageToUnits⟩, ?_, hstore, hload, rfl⟩
  refine List.mem_filterMap.mpr ⟨be, hmem, ?_⟩
  have hsome : (collectSignalUnits be.storeStage be.loadStage stageToUnits).isEmpty = false := by
    rw [hstore]
    exact List.isEmpty_eq_false_iff.mpr (List.append_ne_nil_of_left_ne_nil hunits _)
  rw [if_pos (hconflicts _ _ _ hedge)]
  simp only [hsome]
  rfl

/-- **Back-edge signals order a write before a later read** of another unit exactly when the scan sees
the write, some loop is dependent, and there are enough iterations between the two: for every last and
first stage of every pipeline, under every nest of loops, whatever the transfers touch. -/
theorem backEdgeSignals_ordered_iff {Cell : Type} (accesses : Accesses Cell) (env : Env)
    (hconflicts : ReportsEdges computeScratchpadConflicts) (hnodup : func.StagesNodup)
    (hpipeline : pipeline ∈ func.pipelines) (hends : LastAndFirst pipeline storeStage loadStage)
    (hunits : stageToUnits storeStage.id ≠ [])
    (hdisjoint : (stageToUnits storeStage.id).Disjoint (stageToUnits loadStage.id)) :
    let its := iterations (pipeline.loops.map ForLoop.op) env
    let dependent := DependsOnLoop func.ops pipeline.loops loadStage storeStage
    let signals := backEdgeSignals func globalDag stageToUnits computeScratchpadConflicts
    (∀ i j, i < j → Depends accesses storeStage loadStage its i j →
        Ordered signals storeStage loadStage its i j) ↔
      ∀ i j, i < j → Depends accesses storeStage loadStage its i j →
        (∃ xfer ∈ loadStage.transfers, SeenWritten func.ops storeStage xfer) ∧
          (∃ id, dependent id) ∧ EnoughIterations dependent its i j := by
  intro its dependent signals
  refine forall₃_congr fun i j hij => forall_congr' fun hdepends => ?_
  obtain ⟨_, ⟨_, hgeti, -⟩, _, hgetj, -⟩ := hdepends
  have hi := (List.getElem?_eq_some_iff.mp hgeti).1
  have hj := (List.getElem?_eq_some_iff.mp hgetj).1
  constructor
  · rintro ⟨sig, hsig, hstore, hload, hbetween, -⟩
    obtain ⟨be, hbe, hloops⟩ := backEdgeSignals_between hnodup hpipeline hends hsig hstore hload
    obtain ⟨-, -, hseen, hne, hmem⟩ := backEdge_eq_some hbe
    rw [← hloops] at hne hmem
    obtain ⟨id, hid⟩ := List.exists_mem_of_ne_nil _ hne
    exact ⟨hseen, ⟨id, (hmem id).mp hid⟩,
      (meetsBetween_iff_enoughIterations hne hmem hij hj).mp hbetween⟩
  · rintro ⟨hseen, ⟨id, hid⟩, henough⟩
    have hne : loadStage.id ≠ storeStage.id := by
      intro heq
      rw [heq] at hdisjoint
      obtain ⟨unit, hunit⟩ := List.exists_mem_of_ne_nil _ hunits
      exact hdisjoint hunit hunit
    obtain ⟨be, hbe⟩ := exists_backEdge hne hseen hid
    obtain ⟨sig, hsig, hstore, hload, hloops⟩ : ∃ sig ∈ signals, sig.storeStage = storeStage.id ∧
        sig.loadStage = loadStage.id ∧ sig.dependentLoops = be.dependentLoops :=
      exists_backEdgeSignals hconflicts hpipeline hends hunits hbe
    obtain ⟨-, -, -, hne', hmem⟩ := backEdge_eq_some hbe
    rw [← hloops] at hne' hmem
    have hbetween := (meetsBetween_iff_enoughIterations hne' hmem hij hj).mpr henough
    exact ⟨sig, hsig, hstore, hload, hbetween, fun s hs => hbetween.own_before hi hj hs⟩

end BackEdge

/-! ## Two nests -/

/-- Stage 0 loads from scratchpad 20 at the induction variable 10 into a FIFO. -/
def loadRow : Stage :=
  ⟨0, [5], [], [.node ⟨0, .dataTransfer ⟨20, false, [10]⟩ ⟨30, true, []⟩, [20, 10, 30], []⟩ []]⟩

/-- Stage 1 stores from a FIFO to scratchpad 20 at the induction variable 10. -/
def storeRow : Stage :=
  ⟨1, [], [5], [.node ⟨1, .dataTransfer ⟨31, true, []⟩ ⟨20, false, [10]⟩, [31, 20, 10], []⟩ []]⟩

/-- The two stages under loops. -/
def rowFunc (loops : List ForLoop) : Func :=
  ⟨[⟨0, .dataTransfer ⟨20, false, [10]⟩ ⟨30, true, []⟩, [20, 10, 30], []⟩,
    ⟨1, .dataTransfer ⟨31, true, []⟩ ⟨20, false, [10]⟩, [31, 20, 10], []⟩],
    [⟨loops, [loadRow, storeRow]⟩]⟩

/-- A loop with two iterations. -/
def twice (id : LoopId) (inductionVar : Value) : ForLoop := ⟨.const id 0 2 1, inductionVar, some 2⟩

/-- Both stages touch the row that loop 0 is at. -/
def rowAccesses : Accesses (BitVec 64) :=
  ⟨fun _ env => {(env 0).inductionVar}, fun _ env => {(env 0).inductionVar}⟩

/-- Every edge is a conflict. -/
def allEdges (dag : KTDF.StageDependencyDAG) (edge : KTDF.StageId × KTDF.StageId) : Bool :=
  decide (edge.2 ∈ dag.successors edge.1)

theorem reportsEdges_allEdges : ReportsEdges allEdges := fun _ _ _ h => decide_eq_true h

theorem lastAndFirst_row (loops : List ForLoop) :
    LastAndFirst ⟨loops, [loadRow, storeRow]⟩ storeRow loadRow := by
  have hdag : (KTDF.analyzeStageDependencies ([loadRow, storeRow].map Stage.toStageOp)).map
      (fun dag => (dag.successors 1, dag.predecessors 0)) = some ([], []) := by
    decide
  obtain ⟨dag, hdag, hends⟩ := Option.map_eq_some_iff.mp hdag
  rw [Prod.mk.injEq] at hends
  exact ⟨by simp, by simp, dag, hdag, hends⟩

/-- Both stages touch one row in every iteration. -/
def sharedAccesses : Accesses (BitVec 64) := ⟨fun _ _ => {0}, fun _ _ => {0}⟩

/-- Under the loop that both stages index with, the write of the first iteration is before the read of
the second. -/
theorem backEdgeSignals_ordered_row :
    Depends sharedAccesses storeRow loadRow (iterations [.const 0 0 2 1] noFrames) 0 1 ∧
      Ordered (backEdgeSignals (rowFunc [twice 0 10]) .empty (fun stage => [stage]) allEdges)
        storeRow loadRow (iterations [.const 0 0 2 1] noFrames) 0 1 := by
  have hcollect : collectDependentLoops (rowFunc [twice 0 10]).ops
      (stageHasBackedgeDependency (rowFunc [twice 0 10]).ops loadRow storeRow)
      (storeRow.transfers.filter fun xfer => !xfer.dest.isFifo) [twice 0 10] = [0] := by
    decide
  have hdependent : ∀ id, DependsOnLoop (rowFunc [twice 0 10]).ops [twice 0 10] loadRow storeRow id ↔
      id ∈ [ForOp.const 0 0 2 1].map ForOp.id := by
    intro id
    rw [← mem_collectDependentLoops_iff, hcollect]
    rfl
  have hseen : (stageHasBackedgeDependency (rowFunc [twice 0 10]).ops loadRow storeRow) ≠ [] := by
    decide
  obtain ⟨xfer, hxfer⟩ := List.exists_mem_of_ne_nil _ hseen
  have hget : ∀ n, n < 2 → ((iterations [.const 0 0 2 1] noFrames)[n]?).isSome := by
    decide +kernel
  obtain ⟨env, hget₀⟩ := Option.isSome_iff_exists.mp (hget 0 (by decide))
  obtain ⟨env', hget₁⟩ := Option.isSome_iff_exists.mp (hget 1 (by decide))
  have hdepends : Depends sharedAccesses storeRow loadRow (iterations [.const 0 0 2 1] noFrames) 0 1 :=
    ⟨0, ⟨env, hget₀, _, List.mem_cons_self, _, _, rfl, rfl, rfl⟩,
      env', hget₁, _, List.mem_cons_self, _, _, rfl, rfl, rfl⟩
  refine ⟨hdepends, (backEdgeSignals_ordered_iff sharedAccesses noFrames reportsEdges_allEdges
    (by decide : (rowFunc [twice 0 10]).StagesNodup) List.mem_cons_self
    (lastAndFirst_row [twice 0 10]) (by decide) (by simp [storeRow, loadRow])).mpr
    (fun i j hij hdepends => ?_) 0 1 (by decide) hdepends⟩
  obtain ⟨_, -, _, hgetj, -⟩ := hdepends
  exact ⟨⟨xfer, mem_stageHasBackedgeDependency.mp hxfer⟩, ⟨0, (hdependent 0).mpr (by decide)⟩,
    enoughIterations_of_all (by decide) (by decide +kernel) hdependent hij
      (List.getElem?_eq_some_iff.mp hgetj).1⟩

/-- Under a second loop inside, which no index mentions, the signals come with the outer loop only:
the load stage may read the row in the second iteration before the store stage has written it in the
first. -/
theorem not_ordered_innerLoop :
    LastAndFirst ⟨[twice 0 10, twice 1 11], [loadRow, storeRow]⟩ storeRow loadRow ∧
      Depends rowAccesses storeRow loadRow
        (iterations [.const 0 0 2 1, .const 1 0 2 1] noFrames) 0 1 ∧
      ¬Ordered (backEdgeSignals (rowFunc [twice 0 10, twice 1 11]) .empty (fun stage => [stage])
        allEdges) storeRow loadRow (iterations [.const 0 0 2 1, .const 1 0 2 1] noFrames) 0 1 := by
  have hrow : ∀ n, n < 2 → ((iterations [.const 0 0 2 1, .const 1 0 2 1] noFrames)[n]?).map
      (fun env => (env 0).inductionVar) = some 0 := by
    decide +kernel
  have hsignals : backEdgeSignals (rowFunc [twice 0 10, twice 1 11]) .empty (fun stage => [stage])
      allEdges = [⟨1, 0, [0], [1, 0]⟩] := by
    decide +kernel
  refine ⟨lastAndFirst_row _, ?_, ?_⟩
  · obtain ⟨env, hget, hrow₀⟩ := Option.map_eq_some_iff.mp (hrow 0 (by decide))
    obtain ⟨env', hget', hrow₁⟩ := Option.map_eq_some_iff.mp (hrow 1 (by decide))
    exact ⟨0, ⟨env, hget, _, List.mem_cons_self, _, _, rfl, rfl, hrow₀.symm⟩,
      env', hget', _, List.mem_cons_self, _, _, rfl, rfl, hrow₁.symm⟩
  · rintro ⟨sig, hsig, -, -, hbetween, -⟩
    rw [hsignals] at hsig
    rw [List.mem_singleton.mp hsig] at hbetween
    -- no signal before the second iteration of the inner loop
    have hlt := ((meetsBetween_iff (by decide +kernel) (by decide +kernel)).mp hbetween).1
    exact absurd hlt (by decide +kernel)

end SignalInsertion

end DataflowScheduler
