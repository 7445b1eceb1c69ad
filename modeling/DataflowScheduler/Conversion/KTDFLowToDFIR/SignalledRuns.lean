import DataflowScheduler.Conversion.KTDFLowToDFIR.RestrictedPrograms
import DataflowScheduler.Conversion.KTDFLowToDFIR.SignalPeers
import DataflowScheduler.Util.RoseRuns
import DataflowScheduler.Util.Signalling

/-!
# Units that run their programs

All units of a function take the same branches, each in its own program: what is left of the function
in the program unit of its type, with each signal lowered to sends to its peers and receives from them.
A signal outside of `execute_on`, as `insertSignals` puts one between two stages, is in the program of
every type that it names. The guarded signals of back edges are not: they are in one stage each.
-/

namespace DataflowScheduler

namespace ProgramUnitBuilder

open SignalLowering (GetUnit QueryMap LoweredSignal lowerSignal UnitsOf CoreletsAligned AllPeers)
open Signalling (Act Step Matched Progress received)
open Rose (contextsList leftOf RunList)

variable {R : Type} [DecidableEq R]

/-! ## Programs -/

/-- The query map that an operand of a signal is. -/
def Definition.unitQueryMap : Definition R → Option (QueryMap R)
  | .queryMap mapping => some mapping
  | _ => none

/-- The operands of a signal. -/
def signalUnits (definition : ValueId → Definition R) (op : OpInfo) : List (QueryMap R) :=
  op.operands.filterMap fun
    | .value v => (definition v).unitQueryMap
    | .coreId => none

/-- What a unit does at an op of its program. A signal that is not lowered does nothing. -/
def unitActs (definition : ValueId → Definition R) (units : R → List (GetUnit R)) (unit : GetUnit R)
    (op : OpInfo) : List (Act (GetUnit R) OpInfo) :=
  if op.kind = .signal then
    match lowerSignal (signalUnits definition op) (units unit.resourceType) with
    | .ok lowered => (lowered.sendsTo unit).map .send ++ (lowered.recvsFrom unit).map .recv
    | .error _ => []
  else [.own op]

/-- The run of the program of a type that takes the branches of a run of the function. -/
def unitRun (definition : ValueId → Definition R) (target : R) (run : List Context) : List Context :=
  run.filterMap (leftOf (filterAct definition target))

/-- What a unit does in a run. Only the units of the program units do anything. -/
def unitProgram (definition : ValueId → Definition R) (units : R → List (GetUnit R))
    (unit : GetUnit R) (run : List Context) : List (Act (GetUnit R) OpInfo) :=
  if (units unit.resourceType).contains unit then
    (unitRun definition unit.resourceType run).flatMap fun c => unitActs definition units unit c.1
  else []

/-- What the units of a type are as far as a signal goes: none, if it does not name the type. -/
def namedUnits (definition : ValueId → Definition R) (units : R → List (GetUnit R)) (op : OpInfo)
    (T : R) : List (GetUnit R) :=
  if op.Lists definition T then units T else []

/-- A signal that all units it names can take part in: its operands are unit query maps, it is lowered
in the program unit of each type, corelets are aligned, and every `execute_on` around it is for all
types it names or for none. -/
structure Signals (definition : ValueId → Definition R) (units : R → List (GetUnit R))
    (c : Context) : Prop where
  unitsOf : UnitsOf (signalUnits definition c.1) (namedUnits definition units c.1)
  lowered : ∀ T, c.1.Lists definition T →
    ∃ lowered, lowerSignal (signalUnits definition c.1) (units T) = .ok lowered
  aligned : CoreletsAligned (namedUnits definition units c.1)
  around : ∀ outer ∈ c.2, outer.kind = .executeOn → ∀ T U, c.1.Lists definition T →
    c.1.Lists definition U → outer.Lists definition T → outer.Lists definition U

/-! ## Events -/

variable {definition : ValueId → Definition R} {units : R → List (GetUnit R)}

/-- What an op of the function means for a unit. -/
def eventActs (definition : ValueId → Definition R) (units : R → List (GetUnit R))
    (unit : GetUnit R) (c : Context) : List (Act (GetUnit R) OpInfo) :=
  if (units unit.resourceType).contains unit ∧
      (leftOf (filterAct definition unit.resourceType) c).isSome then
    unitActs definition units unit c.1
  else []

theorem unitProgram_eq (unit : GetUnit R) (run : List Context) :
    unitProgram definition units unit run = run.flatMap (eventActs definition units unit) := by
  unfold unitProgram
  split
  · next hunit =>
    rw [List.contains_iff_mem] at hunit
    induction run with
    | nil => rfl
    | cons c run ih =>
      rw [List.flatMap_cons, ← ih, unitRun, List.filterMap_cons, eventActs]
      cases hleft : leftOf (filterAct definition unit.resourceType) c with
      | none => simp [unitRun]
      | some c' =>
        have hop : c'.1 = c.1 := by
          unfold leftOf at hleft
          split at hleft
          · rw [← Option.some.inj hleft]
          · cases hleft
        simp [hunit, hop, unitRun]
  · next hunit =>
    refine (List.flatMap_eq_nil_iff.mpr fun c _ => ?_).symm
    exact if_neg fun h => hunit h.1

theorem isSome_leftOf {c : Context} {T : R} (hregions : ∀ outer ∈ c.2, outer.kind ≠ .signal) :
    (leftOf (filterAct definition T) c).isSome ↔ InProgram definition T c := by
  rw [leftOf, InProgram, ← and_assoc, ← filterAct_eq_keep]
  have haround : (∀ b ∈ c.2, filterAct definition T b ≠ .erase) ↔
      ∀ outer ∈ c.2, outer.kind = .executeOn → outer.Lists definition T :=
    forall₂_congr fun outer houter => filterAct_ne_erase (hregions outer houter)
  rw [← haround]
  split
  · next h => exact ⟨fun _ => h, fun _ => rfl⟩
  · next h => exact ⟨fun hsome => absurd hsome Bool.false_ne_true, fun hin => absurd hin h⟩

/-- A signal is in the program of all types that it names, or of none. -/
theorem Signals.inProgram {c : Context} (h : Signals definition units c) {T U : R}
    (hT : InProgram definition T c) (hsignal : c.1.kind = .signal) (hU : c.1.Lists definition U) :
    InProgram definition U c := by
  obtain ⟨hkind, hlists, haround⟩ := hT
  exact ⟨hkind, fun _ => hU, fun outer houter hexec =>
    h.around outer houter hexec T U (hlists hsignal) hU (haround outer houter hexec)⟩

/-- **What one unit sends at an op another takes there.** -/
theorem matched_eventActs {c : Context} (hregions : ∀ outer ∈ c.2, outer.kind ≠ .signal)
    (h : c.1.kind = .signal → Signals definition units c) :
    Matched (eventActs definition units) c := by
  by_cases hkind : c.1.kind = .signal
  · have hc := h hkind
    -- the peers in the program unit of each type
    have : Nonempty (LoweredSignal R) := ⟨⟨[], []⟩⟩
    choose! lowered hlower using hc.lowered
    have hlists : ∀ {T unit}, unit ∈ namedUnits definition units c.1 T →
        c.1.Lists definition T ∧ unit ∈ units T ∧ unit.resourceType = T := by
      intro T unit hunit
      have htype := ((hc.unitsOf.mem_units T unit).mp hunit).1
      unfold namedUnits at hunit
      split at hunit
      · next hT => exact ⟨hT, hunit, htype⟩
      · cases hunit
    have hnamed : ∀ {T}, c.1.Lists definition T →
        lowerSignal (signalUnits definition c.1) (namedUnits definition units c.1 T) =
          .ok (lowered T) := by
      intro T hT
      rw [namedUnits, if_pos hT]
      exact hlower T hT
    have hpeers : AllPeers (signalUnits definition c.1) (namedUnits definition units c.1)
        fun T => (lowered T).sendsTo := fun T unit hunit =>
      hc.unitsOf.peersOf_sendsTo (hnamed (hlists hunit).1) hunit
    let TakesPart : GetUnit R → Prop := fun unit =>
      unit ∈ namedUnits definition units c.1 unit.resourceType ∧
        InProgram definition unit.resourceType c
    classical
    refine Signalling.matched_of_mutual
      (fun unit => if TakesPart unit then (lowered unit.resourceType).sendsTo unit else [])
      (fun unit => ?_) (fun unit => ?_) fun unit peer hpeer => ?_
    · have hiff : ((units unit.resourceType).contains unit ∧
          (leftOf (filterAct definition unit.resourceType) c).isSome) ↔
            unit ∈ units unit.resourceType ∧ InProgram definition unit.resourceType c :=
        and_congr List.contains_iff_mem (isSome_leftOf hregions)
      by_cases hin : unit ∈ units unit.resourceType ∧ InProgram definition unit.resourceType c
      · have hT := hin.2.2.1 hkind
        have hmem : unit ∈ namedUnits definition units c.1 unit.resourceType := by
          rw [namedUnits, if_pos hT]
          exact hin.1
        obtain ⟨mappings, heq, -⟩ := SignalLowering.lowerSignal_eq hc.unitsOf (hnamed hT)
        have hrecvs : (lowered unit.resourceType).recvsFrom =
            (lowered unit.resourceType).sendsTo := by
          rw [heq]
          rfl
        rw [eventActs, if_pos (hiff.mpr hin), if_pos ⟨hmem, hin.2⟩, unitActs, if_pos hkind, hlower _ hT]
        show List.map _ ((lowered unit.resourceType).sendsTo unit) ++
          List.map _ ((lowered unit.resourceType).recvsFrom unit) = _
        rw [hrecvs]
      · rw [eventActs, if_neg fun hin' => hin (hiff.mp hin'), if_neg fun htakes => hin ⟨(hlists htakes.1).2.1, htakes.2⟩]
        rfl
    · split
      · next htakes => exact (hpeers _ unit htakes.1).nodup
      · exact List.nodup_nil
    · split at hpeer
      · next htakes =>
        have hother := ((hpeers _ unit htakes.1).other peer hpeer).2
        rw [if_pos ⟨hother, hc.inProgram htakes.2 hkind (hlists hother).1⟩]
        exact (hpeers.mutual hc.unitsOf hc.aligned htakes.1 hpeer).1
      · cases hpeer
  · refine Signalling.matched_of_own fun unit act hact => ?_
    unfold eventActs at hact
    split at hact
    · rw [unitActs, if_neg hkind] at hact
      exact ⟨_, List.mem_singleton.mp hact⟩
    · cases hact

/-! ## Runs -/

/-- **Units that signal each other complete their runs**: whatever the order in which they move, no
unit waits for ever, every run can be finished, every token that was sent is taken once, and a unit
that has taken what a peer sends at a signal finds the peer through with everything before that. -/
theorem signals_complete {func : Func R} (h : func.WellFormed) {units : R → List (GetUnit R)}
    (hsignals : ∀ c ∈ contextsList [] func.workOps, c.1.kind = .signal →
      Signals func.definition units c)
    {allUnits : List (GetUnit R)} (hunits : ∀ T, ∀ unit ∈ units T, unit ∈ allUnits)
    {run : List Context} (hrun : RunList (fun op => op.kind = .executeOn) [] func.workOps run) :
    (∀ T body, filterAndUnwrapKTDFLoweringOps func.definition T func.workOps = .ok body →
      RunList (fun op => op.kind = .executeOn) [] body (unitRun func.definition T run)) ∧
    ∀ s, Signalling.Reachable (unitProgram func.definition units · run) s →
      (¬ s.Finished → ∃ s', Step s s') ∧
      (∃ t, Relation.ReflTransGen Step s t ∧ t.Finished) ∧
      (s.Finished → ∀ unit peer, s.tokens unit peer = 0) ∧
      ∃ done, Progress (unitProgram func.definition units · run) s done ∧
        ∀ pre post, run = pre ++ post → ∀ unit peer,
          received peer (unitProgram func.definition units unit pre) < received peer (done unit) →
          unitProgram func.definition units peer pre <+: done peer := by
  have hmatched : ∀ c ∈ run, Matched (eventActs func.definition units) c := fun c hc =>
    have hmem := Rose.mem_contextsList_of_run hrun hc
    matched_eventActs (fun outer houter => (h.no_regions c hmem outer houter).1) (hsignals c hmem)
  have hprogram : (unitProgram func.definition units · run) =
      fun unit => run.flatMap (eventActs func.definition units unit) :=
    funext fun unit => unitProgram_eq unit run
  constructor
  · intro T body hbody
    rw [(filterAndUnwrap_spec h.nodup).2 body hbody]
    refine hrun.editList (fun op hop => ?_) fun _ hb => absurd hb List.not_mem_nil
    unfold filterAct at hop
    split at hop
    · next hkind => exact hkind
    · split at hop <;> cases hop
    · cases hop
  · rw [hprogram]
    intro s hs
    obtain ⟨done, hdone⟩ := hs.progress
    have hidle : ∀ unit, unit ∉ allUnits →
        run.flatMap (eventActs func.definition units unit) = [] := by
      intro unit hnot
      rw [← unitProgram_eq, unitProgram, if_neg fun hmem => hnot (hunits _ unit (by simpa using hmem))]
    refine ⟨hdone.exists_step hmatched, hs.exists_finished hmatched hidle,
      hdone.no_token hmatched, done, hdone, fun pre post hsplit unit peer hmore => ?_⟩
    rw [unitProgram_eq] at hmore ⊢
    exact hdone.beyond hmatched hsplit hmore

/-! Units 0 and 1 work in a loop and signal each other between their stages. The loop runs twice. -/

def producer : GetUnit Nat := ⟨70, some 3, 0⟩

def consumer : GetUnit Nat := ⟨80, some 3, 0⟩

def signalOp : OpInfo := ⟨5, .signal, [.value 0, .value 1], []⟩

def loopOp : OpInfo := ⟨2, .other, [], []⟩

def loopBody : List Op :=
  [.node ⟨3, .executeOn, [.value 0], []⟩ [.node ⟨4, .other, [], []⟩ []], .node signalOp [],
    .node ⟨6, .executeOn, [.value 1], []⟩ [.node ⟨7, .other, [], []⟩ []]]

def signalledLoop : Func Nat where
  definition := fun v =>
    if v = 0 then .queryMap ⟨[(some 3, producer)]⟩
    else if v = 1 then .queryMap ⟨[(some 3, consumer)]⟩ else .other
  preludeOps := []
  workOps := [.node loopOp loopBody]
  programUnits := []

def loopUnits (T : Nat) : List (GetUnit Nat) := [producer, consumer].filter (·.resourceType = T)

/-- Two iterations. -/
def twoIterations : List Context :=
  (loopOp, []) :: (contextsList [loopOp] loopBody ++ contextsList [loopOp] loopBody)

theorem lists_signalOp {T : Nat} : signalOp.Lists signalledLoop.definition T ↔ T = 70 ∨ T = 80 := by
  simp only [OpInfo.Lists, signalOp, List.mem_cons, List.not_mem_nil, or_false, exists_eq_or_imp,
    exists_eq_left]
  exact or_congr (Option.some_inj.trans eq_comm) (Option.some_inj.trans eq_comm)

theorem namedUnits_signalOp (T : Nat) :
    namedUnits signalledLoop.definition loopUnits signalOp T = loopUnits T := by
  unfold namedUnits
  split
  · rfl
  · next h =>
    rw [lists_signalOp, not_or] at h
    simp [loopUnits, producer, consumer, Ne.symm h.1, Ne.symm h.2]

theorem unitsOf_signalOp :
    UnitsOf (signalUnits signalledLoop.definition signalOp) loopUnits where
  nonempty := by decide
  resourceType := by decide
  key := by decide
  coreletId := by decide
  distinct := by decide
  mem_units T unit := by
    simp [loopUnits, signalUnits, signalOp, signalledLoop, Definition.unitQueryMap,
      SignalLowering.QueryMap.values, and_comm]

theorem signals_signalOp : Signals signalledLoop.definition loopUnits (signalOp, [loopOp]) where
  unitsOf := by
    rw [funext namedUnits_signalOp]
    exact unitsOf_signalOp
  lowered := by
    intro T hT
    rcases lists_signalOp.mp hT with rfl | rfl
    · exact ⟨_, rfl⟩
    · exact ⟨_, rfl⟩
  aligned := by
    rw [funext namedUnits_signalOp]
    intro T U _ hpairs
    obtain ⟨unit, hunit, unit', hunit', hne⟩ := SignalLowering.hasCorelets_iff.mp hpairs.1
    have hcorelet : ∀ unit ∈ loopUnits T, unit.coreletId = 0 := fun unit hunit =>
      (by decide : ∀ unit ∈ [producer, consumer], unit.coreletId = 0) unit
        (List.mem_of_mem_filter hunit)
    exact absurd ((hcorelet unit hunit).trans (hcorelet unit' hunit').symm) hne
  around := by
    intro outer houter hkind
    rw [List.mem_singleton.mp houter] at hkind
    cases hkind

theorem signals_complete_loop :
    ∃ s, Signalling.Reachable (unitProgram signalledLoop.definition loopUnits · twoIterations) s ∧
      s.Finished ∧ ∀ unit peer, s.tokens unit peer = 0 := by
  have hwf : signalledLoop.WellFormed := ⟨by decide, by decide, by decide, by decide⟩
  have hsignals : ∀ c ∈ contextsList [] signalledLoop.workOps, c.1.kind = .signal →
      Signals signalledLoop.definition loopUnits c := by
    intro c hc hkind
    have hcase : c = (signalOp, [loopOp]) := by
      revert hkind
      revert c
      decide
    exact hcase ▸ signals_signalOp
  have hunits : ∀ T, ∀ unit ∈ loopUnits T, unit ∈ [producer, consumer] :=
    fun T unit hunit => List.mem_of_mem_filter hunit
  have hrun : RunList (fun op => op.kind = .executeOn) [] signalledLoop.workOps twoIterations := by
    refine ⟨twoIterations, [], ⟨[contextsList [loopOp] loopBody, contextsList [loopOp] loopBody],
      fun h => (nomatch h), fun it hit => ?_, rfl⟩, rfl, rfl⟩
    have hit : it = contextsList [loopOp] loopBody := by simpa using hit
    rw [hit]
    exact Rose.runList_contextsList [loopOp] loopBody
  have hcomplete := (signals_complete hwf hsignals hunits hrun).2
  obtain ⟨s, hs, hfinished⟩ := (hcomplete _ .refl).2.1
  exact ⟨s, hs, hfinished, (hcomplete s hs).2.2.1 hfinished⟩

end ProgramUnitBuilder

end DataflowScheduler
