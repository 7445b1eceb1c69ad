import DataflowScheduler.Transforms.PathExpansion.Units

/-!
# Slots of the FIFOs across boundaries

A slot of a new FIFO is handed out when the operation at an end of its flow is visited. The planner
asserts that it gets the index that the carrier has in its `fifo.allocate`. Here is planning with
that assertion on or off, what the slots are in either case, and when the assertion holds.
-/

namespace DataflowScheduler

namespace PathExpansion

variable {R : Type} [DecidableEq R]

/-! ## Planning with the assertion on or off -/

/-- `adaptFifoOp`, with the slot checked or not. -/
def adaptFifoOpWith (mirrorSlot : Bool) (state : EndsState R) (stage : StageRef) (op : Op R)
    (flow : DataFlow R) (flowIdx k : Nat) (fifoSrc fifoDest : R) (sourceSide : Bool) (edge : EdgeInfo)
    (resources : Option R × Option R) : Except (PlanError R) (EndsState R) := do
  let (ref, slot, fifos, plan) ←
    state.fifos.get state.plan flow fifoSrc fifoDest ⟨[], 0⟩ mirrorSlot
  let info ← plan.getStageInfo stage
  let transfer := createFromFifoOp op edge resources.1 resources.2 ref slot sourceSide
  let (_, plan) := plan.pushTransfer stage { info with kind := .adaptFifoKinds } transfer
  .ok ⟨plan, setCarrier state.flows flowIdx k (transfer.side sourceSide), fifos, state.hops⟩

/-- `adaptTransferOp`, with the slot checked or not. -/
def adaptTransferOpWith (mirrorSlot : Bool) (state : EndsState R) (stage : StageRef) (op : Op R)
    (flow : DataFlow R) (flowIdx k : Nat) (place : BoundaryPlace R) (sourceSide : Bool)
    (edge : EdgeInfo) (resources : Option R × Option R) : Except (PlanError R) (EndsState R) := do
  let tile ← tileOf op sourceSide
  match tile with
  | none => .error (.dynamicSize stage)
  | some tile => do
      let (spec, slot, fifos, plan) ← placeResource state flow place tile mirrorSlot
      let (ref, plan) ← transferFor plan stage op edge resources
      let transfer ← plan.getTransfer ref
      let resource ← plan.getSpec spec
      let transfer ← retargetSide transfer op sourceSide spec resource slot
      let plan := plan.setTransfer ref transfer
      let info ← plan.getStageInfo stage
      let plan := plan.setStageInfo stage info.adaptTransfers
      .ok ⟨plan, setCarrier state.flows flowIdx k (transfer.side sourceSide), fifos, state.hops⟩

/-- An end of a flow at an operation of a stage. -/
structure FlowEnd (R : Type) where
  stage : StageRef
  op : Op R
  flowIdx : Nat
  isProducer : Bool

/-- `adaptEnd`, with the slot checked or not. -/
def adaptEndWith (mirrorSlot : Bool) (archGraph : RoutingGraph R) (state : EndsState R)
    (flowEnd : FlowEnd R) : Except (PlanError R) (EndsState R) :=
  match state.flows[flowEnd.flowIdx]? with
  | none => .error .noCarrier
  | some flow => do
      let info ← state.plan.getStageInfo flowEnd.stage
      let k := endBoundary flow flowEnd.isProducer
      let place ← boundaryPlace archGraph flow k
      if carrierInPlace flow place then
        keepCarrier state flowEnd.op flowEnd.flowIdx k flow.carrier (!flowEnd.isProducer)
      else do
        let edge ← boundaryEdge flow k
        let resources := endResources place info.stageResource flowEnd.isProducer
        match place with
        | .memory _ =>
            if flowEnd.op.isFifoOp then .error (.cannotExchange flowEnd.stage flowEnd.op.id)
            else
              adaptTransferOpWith mirrorSlot state flowEnd.stage flowEnd.op flow flowEnd.flowIdx k
                place (!flowEnd.isProducer) edge resources
        | .fifo fifoSrc fifoDest =>
            if flowEnd.op.isIndDataTransfer then
              .error (.cannotExchange flowEnd.stage flowEnd.op.id)
            else if flowEnd.op.isFifoOp then
              adaptFifoOpWith mirrorSlot state flowEnd.stage flowEnd.op flow flowEnd.flowIdx k
                fifoSrc fifoDest (!flowEnd.isProducer) edge resources
            else
              adaptTransferOpWith mirrorSlot state flowEnd.stage flowEnd.op flow flowEnd.flowIdx k
                place (!flowEnd.isProducer) edge resources

/-- The ends of flows with hops, in the order they are adapted: by stage, then by operation, then by
flow. -/
def flowEnds (pipeline : StagePipeline R) (flows : List (DataFlow R)) (stages : List StageRef) :
    List (FlowEnd R) :=
  stages.flatMap fun stage => match pipeline.operation stage with
    | none => []
    | some stageOp => (endOps stageOp).flatMap fun op =>
        (opEnds flows op).map fun flowEnd => ⟨stage, op, flowEnd.1, flowEnd.2⟩

/-- `adaptFlowEnds`, with the slots checked or not. -/
def adaptFlowEndsWith (mirrorSlot : Bool) (pipeline : StagePipeline R) (stages : List StageRef)
    (archGraph : RoutingGraph R) (state : EndsState R) : Except (PlanError R) (EndsState R) :=
  let flows := state.flows.map DataFlow.resizeCarriers
  (flowEnds pipeline flows stages).foldlM (adaptEndWith mirrorSlot archGraph)
    { state with flows := flows }

/-- What planning has when it starts to adapt the ends of flows. -/
structure BeforeEnds (R : Type) where
  pipeline : StagePipeline R
  flows : List (DataFlow R)
  endpoints : FifoEndpoints R
  stages : List StageRef
  plan : PathExpansionPlan R

/-- Planning up to the ends of flows; a result already if no flow needs hops. -/
def stepsBeforeEnds (pipeline : StagePipeline R) (archGraph : RoutingGraph R) :
    Except (PlanError R) (PlanResult R ⊕ BeforeEnds R) := do
  let (sortedStages, endpoints, flows, plan) ← prepare pipeline archGraph
  let needed ← needsExpansion flows archGraph
  if needed then
    match endpoints.duplicate with
    | some (op, isProducer) => .error (.fifoSlotShared op isProducer)
    | none => do
        let (pipeline, flows, plan) ← expandDataFlows pipeline flows sortedStages archGraph
          { plan with changed := true } sortedStages.length
        let pipeline ← orderStagesByDependencies pipeline
        let expandedStages ← sortPipeline pipeline
        let _ ← expandedStages.foldlM (checkUnit plan) []
        .ok (.inr ⟨pipeline, flows, endpoints, expandedStages, plan⟩)
  else .ok (.inl ⟨pipeline, flows, { plan with changed := false }, fun _ => [], []⟩)

/-- The state that the ends of flows are adapted in first. -/
def BeforeEnds.start (before : BeforeEnds R) : EndsState R :=
  ⟨before.plan, before.flows, ⟨fun _ => none, fun _ => 0⟩, fun _ => []⟩

/-- Steps 2 to 3, with the slots checked or not. -/
def planEndsWith (mirrorSlot : Bool) (archGraph : RoutingGraph R) (before : BeforeEnds R) :
    Except (PlanError R) (PlanResult R) := do
  let state ← adaptFlowEndsWith mirrorSlot before.pipeline before.stages archGraph before.start
  let (plan, retyped) ←
    retypeFifosBetweenOriginalStages before.endpoints archGraph state.plan
  let state ← populateHopStageTransfers archGraph { state with plan := plan }
  .ok ⟨before.pipeline, state.flows, state.plan, state.hops, retyped⟩

/-- `planPathExpansion`, with the slots at the ends of flows checked or not. -/
def planPathExpansionWith (mirrorSlot : Bool) (pipeline : StagePipeline R)
    (archGraph : RoutingGraph R) : Except (PlanError R) (PlanResult R) := do
  let before ← stepsBeforeEnds pipeline archGraph
  match before with
  | .inl result => .ok result
  | .inr before => planEndsWith mirrorSlot archGraph before

theorem foldlM_flatMap {α β γ ε : Type} (f : γ → β → Except ε γ) (g : α → List β) (l : List α)
    (c : γ) : (l.flatMap g).foldlM f c = l.foldlM (fun c a => (g a).foldlM f c) c := by
  induction l generalizing c with
  | nil => rfl
  | cons a l ih =>
      rw [List.flatMap_cons, List.foldlM_append, List.foldlM_cons]
      exact bind_congr fun c => ih c

theorem adaptFlowEndsWith_true (pipeline : StagePipeline R) (stages : List StageRef)
    (archGraph : RoutingGraph R) (state : EndsState R) :
    adaptFlowEndsWith true pipeline stages archGraph state =
      adaptFlowEnds pipeline stages archGraph state := by
  unfold adaptFlowEndsWith adaptFlowEnds flowEnds
  simp only [foldlM_flatMap]
  congr 1
  funext state stage
  unfold adaptStage
  cases pipeline.operation stage with
  | none => rfl
  | some stageOp =>
      simp only [foldlM_flatMap]
      congr 1
      funext state op
      exact List.foldlM_map

/-- With the assertion on this is the planner. -/
theorem planPathExpansionWith_true (pipeline : StagePipeline R) (archGraph : RoutingGraph R) :
    planPathExpansionWith true pipeline archGraph = planPathExpansion pipeline archGraph := by
  unfold planPathExpansionWith stepsBeforeEnds planPathExpansion buildExpansionPlan
  rw [bind_assoc]
  refine bind_congr fun prepared => ?_
  rw [bind_assoc]
  refine bind_congr fun needed => ?_
  cases needed with
  | false => rfl
  | true =>
      simp only [if_true]
      cases prepared.2.1.duplicate with
      | some duplicate => rfl
      | none =>
          simp only [bind_assoc]
          refine bind_congr fun expanded => bind_congr fun ordered => bind_congr fun stages =>
            bind_congr fun _ => ?_
          unfold planTransfers
          rw [← adaptFlowEndsWith_true]
          simp only [bind_assoc]
          rfl

/-! ## Which slots are taken -/

/-- The new FIFO that an end of a flow takes a slot of, unless the flow has a buffer there. -/
def takesSlot (archGraph : RoutingGraph R) (flow : DataFlow R) (isProducer : Bool) :
    Option (FifoKey R) :=
  if flow.carrierIsMemref then none
  else match boundaryPlace archGraph flow (endBoundary flow isProducer) with
    | .ok (.fifo src dest) => some (fifoKey flow src dest)
    | _ => none

/-- The slots that ends of flows take, in turn: of which FIFO, and what was carried in before. -/
def slotsTaken (archGraph : RoutingGraph R) (flows : List (DataFlow R)) (ends : List (FlowEnd R)) :
    List (FifoKey R × Value R) :=
  ends.filterMap fun flowEnd => flows[flowEnd.flowIdx]?.bind fun flow =>
    (takesSlot archGraph flow flowEnd.isProducer).map fun key => (key, flow.carrier)

/-- What `validateFifoSlotIndex` says of the index. -/
def SlotIs (carrier : Value R) (slot : Nat) : Prop :=
  match carrier.origin with
  | .blockArgument => True
  | .privateResult (some result) => slot = result.resultNumber
  | .privateResult none | .otherResult => False

/-- The slots of each new FIFO are taken in the order they have in their allocation, from the first
one on and without gaps. -/
def InSlotOrder (taken : List (FifoKey R × Value R)) : Prop :=
  ∀ before key carrier after, taken = before ++ (key, carrier) :: after →
    SlotIs carrier (before.countP (·.1 = key))

/-- The slots that the ends of flows take when planning comes to them. -/
def BeforeEnds.slots (before : BeforeEnds R) (archGraph : RoutingGraph R) :
    List (FifoKey R × Value R) :=
  let flows := before.flows.map DataFlow.resizeCarriers
  slotsTaken archGraph flows (flowEnds before.pipeline flows before.stages)

/-! ## FIFOs grow at the end -/

/-- Every FIFO keeps its slots, and may get more. -/
def SlotsGrow (plan plan' : PathExpansionPlan R) : Prop :=
  ∀ (ref : SpecRef) (src dest : R) (slots : List Int) (elementType : Opaque),
    plan.specs[ref]? = some (.fifo src dest slots elementType) →
      ∃ more, plan'.specs[ref]? = some (.fifo src dest (slots ++ more) elementType)

namespace SlotsGrow

omit [DecidableEq R]

variable {plan plan₁ plan₂ plan₃ : PathExpansionPlan R}

theorem of_specs_eq (h : plan₂.specs = plan₁.specs) : SlotsGrow plan₁ plan₂ := by
  intro ref src dest slots elementType hspec
  exact ⟨[], by rw [h, hspec, List.append_nil]⟩

theorem refl (plan : PathExpansionPlan R) : SlotsGrow plan plan := of_specs_eq rfl

theorem trans (h₁₂ : SlotsGrow plan₁ plan₂) (h₂₃ : SlotsGrow plan₂ plan₃) :
    SlotsGrow plan₁ plan₃ := by
  intro ref src dest slots elementType hspec
  obtain ⟨more, h₂⟩ := h₁₂ ref src dest slots elementType hspec
  obtain ⟨more', h₃⟩ := h₂₃ ref src dest _ elementType h₂
  exact ⟨more ++ more', by rw [h₃, List.append_assoc]⟩

theorem addSpec (plan : PathExpansionPlan R) (spec : PrivateResourceSpec R) :
    SlotsGrow plan (plan.addSpec spec).2 := by
  intro ref src dest slots elementType hspec
  have hlt := (List.getElem?_eq_some_iff.mp hspec).1
  refine ⟨[], ?_⟩
  rw [PathExpansionPlan.addSpec, List.getElem?_append_left hlt, hspec, List.append_nil]

theorem pushSlot (plan : PathExpansionPlan R) (ref : SpecRef) (numElements : Int) :
    SlotsGrow plan (plan.pushSlot ref numElements) := by
  intro ref' src dest slots elementType hspec
  rw [PathExpansionPlan.pushSlot, List.getElem?_modify, hspec]
  by_cases href : ref = ref'
  · exact ⟨[numElements], by simp [href, PrivateResourceSpec.pushSlot]⟩
  · exact ⟨[], by simp [href]⟩

end SlotsGrow

/-- The FIFOs across boundaries, and how many slots of each are taken. -/
structure BoundaryFifos.Counted (fifos : BoundaryFifos R) (plan : PathExpansionPlan R) : Prop where
  unused : ∀ key, fifos.specs key = none → fifos.nextSlot key = 0
  used : ∀ key ref, fifos.specs key = some ref → ∃ slots elementType,
    plan.specs[ref]? = some (.fifo key.2.1 key.2.2 slots elementType) ∧
      slots.length = fifos.nextSlot key
  distinct : ∀ key key' ref, fifos.specs key = some ref → fifos.specs key' = some ref → key = key'

namespace BoundaryFifos

variable {fifos fifos' : BoundaryFifos R} {plan plan' : PathExpansionPlan R}

omit [DecidableEq R] in
theorem Counted.mono (h : fifos.Counted plan)
    (hspecs : ∀ (ref : SpecRef) (spec : PrivateResourceSpec R), plan.specs[ref]? = some spec →
      plan'.specs[ref]? = some spec) : fifos.Counted plan' where
  unused := h.unused
  used key ref hkey := by
    obtain ⟨slots, elementType, hspec, hlen⟩ := h.used key ref hkey
    exact ⟨slots, elementType, hspecs ref _ hspec, hlen⟩
  distinct := h.distinct

omit [DecidableEq R] in
theorem getElem?_addSpec_of_some {ref : SpecRef} {spec : PrivateResourceSpec R}
    (new : PrivateResourceSpec R) (h : plan.specs[ref]? = some spec) :
    (plan.addSpec new).2.specs[ref]? = some spec := by
  rw [PathExpansionPlan.addSpec, List.getElem?_append_left (List.getElem?_eq_some_iff.mp h).1, h]

/-- A new slot comes last in its FIFO, and no other FIFO changes. -/
theorem Counted.addSlot (h : fifos.Counted plan) (key : FifoKey R) (numElements : Int)
    (elementType : Opaque) :
    let added := fifos.addSlot plan key numElements elementType
    SlotsGrow plan added.2 ∧ (fifos.use key added.1).Counted added.2 ∧
      ∃ slots elementType', added.2.specs[added.1]? =
          some (.fifo key.2.1 key.2.2 (slots ++ [numElements]) elementType') ∧
        slots.length = fifos.nextSlot key := by
  intro added
  have hkey : ∀ key', (fifos.use key added.1).specs key' =
      if key' = key then some added.1 else fifos.specs key' := fun _ => Function.update_apply ..
  have hnext : ∀ key', (fifos.use key added.1).nextSlot key' =
      if key' = key then fifos.nextSlot key + 1 else fifos.nextSlot key' :=
    fun _ => Function.update_apply ..
  have hspec : SlotsGrow plan added.2 ∧ ∃ slots elementType', added.2.specs[added.1]? =
      some (.fifo key.2.1 key.2.2 (slots ++ [numElements]) elementType') ∧
        slots.length = fifos.nextSlot key := by
    show SlotsGrow plan (fifos.addSlot plan key numElements elementType).2 ∧ ∃ slots elementType',
      (fifos.addSlot plan key numElements elementType).2.specs[
        (fifos.addSlot plan key numElements elementType).1]? = _ ∧ _
    unfold BoundaryFifos.addSlot
    cases hold : fifos.specs key with
    | none =>
        refine ⟨SlotsGrow.addSpec _ _, [], elementType, ?_, (h.unused key hold).symm⟩
        exact getElem?_addSpec _ _
    | some ref =>
        obtain ⟨slots, elementType', hget, hlen⟩ := h.used key ref hold
        refine ⟨SlotsGrow.pushSlot _ _ _, slots, elementType', ?_, hlen⟩
        show (plan.pushSlot ref numElements).specs[ref]? = _
        simp [PathExpansionPlan.pushSlot, hget, PrivateResourceSpec.pushSlot]
  -- the FIFOs of other keys are elsewhere
  have hother : ∀ key' ref, key' ≠ key → fifos.specs key' = some ref →
      ref ≠ added.1 ∧ added.2.specs[ref]? = plan.specs[ref]? := by
    intro key' ref hne hold'
    obtain ⟨slots', elementType', hget', -⟩ := h.used key' ref hold'
    have hlt := (List.getElem?_eq_some_iff.mp hget').1
    show ref ≠ (fifos.addSlot plan key numElements elementType).1 ∧
      (fifos.addSlot plan key numElements elementType).2.specs[ref]? = _
    unfold BoundaryFifos.addSlot
    cases hold : fifos.specs key with
    | none =>
        refine ⟨Nat.ne_of_lt hlt, ?_⟩
        rw [hget']
        exact getElem?_addSpec_of_some _ hget'
    | some ref₀ =>
        have href : ref ≠ ref₀ := by
          rintro rfl
          exact hne (h.distinct key' key ref hold' hold)
        refine ⟨href, ?_⟩
        show (plan.pushSlot ref₀ numElements).specs[ref]? = _
        simp [PathExpansionPlan.pushSlot, Ne.symm href]
  refine ⟨hspec.1, ⟨fun key' hnone => ?_, fun key' ref hsome => ?_, fun key' key'' ref h' h'' => ?_⟩,
    hspec.2⟩
  · rw [hkey] at hnone
    rw [hnext]
    split at hnone
    · cases hnone
    · next hne => rw [if_neg hne, h.unused key' hnone]
  · rw [hkey] at hsome
    rw [hnext]
    split at hsome
    · next heq =>
        cases hsome
        obtain ⟨slots, elementType', hget, hlen⟩ := hspec.2
        refine ⟨_, elementType', by rw [heq]; exact hget, ?_⟩
        rw [if_pos heq, List.length_append, hlen]
        rfl
    · next hne =>
        obtain ⟨slots, elementType', hget, hlen⟩ := h.used key' ref hsome
        exact ⟨slots, elementType', by rw [(hother key' ref hne hsome).2, hget],
          by rw [if_neg hne, hlen]⟩
  · rw [hkey] at h' h''
    split at h' <;> split at h''
    · next heq heq' => rw [heq, heq']
    · next _ hne =>
        cases h'
        exact absurd rfl (hother key'' _ hne h'').1
    · next hne _ =>
        cases h''
        exact absurd rfl (hother key' _ hne h').1
    · exact h.distinct key' key'' ref h' h''

end BoundaryFifos

/-- The number of elements of a FIFO slot. -/
def slotSize (carrier : Value R) : Option Int :=
  match carrier.type with
  | .fifoSlot _ _ numElements _ => numElements
  | _ => none

/-- The slot of a new FIFO is there, and as large as what was carried in before. -/
def SlotHolds (plan : PathExpansionPlan R) (carrier : Value R) (src dest : R) (ref : SpecRef)
    (slot : Nat) : Prop :=
  ∃ slots elementType numElements, plan.specs[ref]? = some (.fifo src dest slots elementType) ∧
    slots[slot]? = some numElements ∧ slotSize carrier = some numElements

omit [DecidableEq R] in
theorem SlotHolds.mono {plan plan' : PathExpansionPlan R} {carrier : Value R} {src dest : R}
    {ref : SpecRef} {slot : Nat} (h : SlotHolds plan carrier src dest ref slot)
    (hgrow : SlotsGrow plan plan') : SlotHolds plan' carrier src dest ref slot := by
  obtain ⟨slots, elementType, numElements, hspec, hslot, hsize⟩ := h
  obtain ⟨more, hspec'⟩ := hgrow ref src dest slots elementType hspec
  refine ⟨_, elementType, numElements, hspec', ?_, hsize⟩
  rw [List.getElem?_append_left (List.getElem?_eq_some_iff.mp hslot).1, hslot]

section Get

variable {fifos fifos' : BoundaryFifos R} {plan plan' : PathExpansionPlan R} {flow : DataFlow R}
  {src dest : R} {tile : Tile} {mirrorSlot : Bool} {ref : SpecRef} {slot : Nat}

theorem SlotsGrow.get
    (hget : fifos.get plan flow src dest tile mirrorSlot = .ok (ref, slot, fifos', plan')) :
    SlotsGrow plan plan' := by
  unfold BoundaryFifos.get at hget
  split at hget
  · cases hget
    exact SlotsGrow.addSpec _ _
  split at hget
  · cases hget
  · obtain ⟨_, -, hget⟩ := Except.bind_eq_ok.mp hget
    obtain ⟨_, -, hget⟩ := Except.bind_eq_ok.mp hget
    cases hget
    unfold BoundaryFifos.addSlot
    split
    · exact SlotsGrow.addSpec _ _
    · exact SlotsGrow.pushSlot _ _ _
  · cases hget

theorem BoundaryFifos.Counted.get_memref (h : fifos.Counted plan)
    (hmemref : flow.carrierIsMemref = true)
    (hget : fifos.get plan flow src dest tile mirrorSlot = .ok (ref, slot, fifos', plan')) :
    fifos'.Counted plan' ∧ fifos' = fifos := by
  unfold BoundaryFifos.get at hget
  rw [if_pos hmemref] at hget
  cases hget
  exact ⟨h.mono fun _ _ => BoundaryFifos.getElem?_addSpec_of_some _, rfl⟩

/-- A slot of a FIFO across a boundary. -/
theorem BoundaryFifos.Counted.get_slot (h : fifos.Counted plan)
    (hmemref : flow.carrierIsMemref = false)
    (hget : fifos.get plan flow src dest tile mirrorSlot = .ok (ref, slot, fifos', plan')) :
    fifos'.Counted plan' ∧ slot = fifos.nextSlot (fifoKey flow src dest) ∧
      fifos' = fifos.use (fifoKey flow src dest) ref ∧
      SlotHolds plan' flow.carrier src dest ref slot := by
  unfold BoundaryFifos.get at hget
  rw [if_neg (by rw [hmemref]; exact Bool.false_ne_true)] at hget
  split at hget
  · cases hget
  · next numElements elementType htype =>
      obtain ⟨spec, -, hget⟩ := Except.bind_eq_ok.mp hget
      obtain ⟨_, -, hget⟩ := Except.bind_eq_ok.mp hget
      cases hget
      obtain ⟨-, hcounted, slots, elementType', hspec, hlen⟩ :=
        h.addSlot (fifoKey flow src dest) numElements elementType
      refine ⟨hcounted, rfl, rfl, _, elementType', numElements, hspec, ?_, ?_⟩
      · rw [← hlen, List.getElem?_append_right (Nat.le_refl _), Nat.sub_self]
        rfl
      · rw [slotSize, htype]
  · cases hget

/-- What the assertion adds to a slot. -/
theorem BoundaryFifos.Counted.get_true_iff (h : fifos.Counted plan)
    {result : SpecRef × Nat × BoundaryFifos R × PathExpansionPlan R} :
    fifos.get plan flow src dest tile true = .ok result ↔
      fifos.get plan flow src dest tile false = .ok result ∧
        (flow.carrierIsMemref = false →
          SlotIs flow.carrier (fifos.nextSlot (fifoKey flow src dest))) := by
  unfold BoundaryFifos.get
  cases hmemref : flow.carrierIsMemref with
  | true => simp
  | false =>
      rw [if_neg Bool.false_ne_true, if_neg Bool.false_ne_true]
      split
      · simp
      · next numElements elementType htype =>
          obtain ⟨-, -, slots, elementType', hspec, hlen⟩ :=
            h.addSlot (fifoKey flow src dest) numElements elementType
          have hcheck : checkSlot flow.carrier (fifos.nextSlot (fifoKey flow src dest))
              (.fifo src dest (slots ++ [numElements]) elementType') true = .ok () ↔
                SlotIs flow.carrier (fifos.nextSlot (fifoKey flow src dest)) := by
            unfold checkSlot validateFifoSlotIndex SlotIs
            have hlt : fifos.nextSlot (fifoKey flow src dest) < (slots ++ [numElements]).length := by
              rw [List.length_append, hlen]
              exact Nat.lt_succ_self _
            simp only [if_true, PrivateResourceSpec.elementsPerSlot, hlt]
            rcases flow.carrier.origin with _ | (_ | result) | _ <;> simp
          simp only [getSpec_eq_ok.mpr hspec]
          show (checkSlot _ _ _ true >>= fun _ => _) = _ ↔ _ ∧ (True → _)
          rw [Except.bind_eq_ok, true_imp_iff, ← hcheck]
          constructor
          · rintro ⟨⟨⟩, hok, heq⟩
            exact ⟨heq, hok⟩
          · rintro ⟨heq, hok⟩
            exact ⟨(), hok, heq⟩
      · simp

end Get

/-! ## One end -/

section End

variable {archGraph : RoutingGraph R} {state state' : EndsState R} {flow : DataFlow R}
  {mirrorSlot : Bool}

omit [DecidableEq R] in
theorem takesSlot_eq_none_of_memory {isProducer : Bool} {memory : R}
    (h : boundaryPlace archGraph flow (endBoundary flow isProducer) = .ok (.memory memory)) :
    takesSlot archGraph flow isProducer = none := by
  unfold takesSlot
  rw [h]
  exact ite_self _

omit [DecidableEq R] in
theorem takesSlot_eq_some_iff {isProducer : Bool} {src dest : R} {key : FifoKey R}
    (h : boundaryPlace archGraph flow (endBoundary flow isProducer) = .ok (.fifo src dest)) :
    takesSlot archGraph flow isProducer = some key ↔
      flow.carrierIsMemref = false ∧ fifoKey flow src dest = key := by
  unfold takesSlot
  rw [h]
  cases flow.carrierIsMemref <;> simp

theorem adaptFifoOpWith_true_iff (h : state.fifos.Counted state.plan) {stage : StageRef} {op : Op R}
    {flowIdx k : Nat} {src dest : R} {sourceSide : Bool} {edge : EdgeInfo}
    {resources : Option R × Option R} :
    adaptFifoOpWith true state stage op flow flowIdx k src dest sourceSide edge resources =
        .ok state' ↔
      adaptFifoOpWith false state stage op flow flowIdx k src dest sourceSide edge resources =
          .ok state' ∧
        (flow.carrierIsMemref = false →
          SlotIs flow.carrier (state.fifos.nextSlot (fifoKey flow src dest))) := by
  unfold adaptFifoOpWith
  rw [Except.bind_eq_ok, Except.bind_eq_ok]
  constructor
  · rintro ⟨result, hget, hrest⟩
    obtain ⟨hget, hslot⟩ := h.get_true_iff.mp hget
    exact ⟨⟨result, hget, hrest⟩, hslot⟩
  · rintro ⟨⟨result, hget, hrest⟩, hslot⟩
    exact ⟨result, h.get_true_iff.mpr ⟨hget, hslot⟩, hrest⟩

theorem adaptTransferOpWith_true_iff (h : state.fifos.Counted state.plan) {stage : StageRef}
    {op : Op R} {flowIdx k : Nat} {src dest : R} {sourceSide : Bool} {edge : EdgeInfo}
    {resources : Option R × Option R} :
    adaptTransferOpWith true state stage op flow flowIdx k (.fifo src dest) sourceSide edge
          resources = .ok state' ↔
      adaptTransferOpWith false state stage op flow flowIdx k (.fifo src dest) sourceSide edge
          resources = .ok state' ∧
        (flow.carrierIsMemref = false →
          SlotIs flow.carrier (state.fifos.nextSlot (fifoKey flow src dest))) := by
  unfold adaptTransferOpWith
  cases tileOf op sourceSide with
  | error e => simp [bind, Except.bind]
  | ok tile =>
      cases tile with
      | none => simp [bind, Except.bind]
      | some tile =>
          show (state.fifos.get state.plan flow src dest tile true >>= _) = _ ↔
            (state.fifos.get state.plan flow src dest tile false >>= _) = _ ∧ _
          rw [Except.bind_eq_ok, Except.bind_eq_ok]
          constructor
          · rintro ⟨result, hget, hrest⟩
            obtain ⟨hget, hslot⟩ := h.get_true_iff.mp hget
            exact ⟨⟨result, hget, hrest⟩, hslot⟩
          · rintro ⟨⟨result, hget, hrest⟩, hslot⟩
            exact ⟨result, h.get_true_iff.mpr ⟨hget, hslot⟩, hrest⟩

/-- What the assertion adds at an end of a flow. -/
theorem adaptEndWith_true_iff (h : state.fifos.Counted state.plan) {flowEnd : FlowEnd R} :
    adaptEndWith true archGraph state flowEnd = .ok state' ↔
      adaptEndWith false archGraph state flowEnd = .ok state' ∧
        ∀ flow, state.flows[flowEnd.flowIdx]? = some flow → ∀ key,
          takesSlot archGraph flow flowEnd.isProducer = some key →
            SlotIs flow.carrier (state.fifos.nextSlot key) := by
  unfold adaptEndWith
  cases state.flows[flowEnd.flowIdx]? with
  | none => simp
  | some flow =>
      simp only [Option.some.injEq, forall_eq']
      cases state.plan.getStageInfo flowEnd.stage with
      | error e => simp [bind, Except.bind]
      | ok info =>
          cases hplace : boundaryPlace archGraph flow (endBoundary flow flowEnd.isProducer) with
          | error e => simp [bind, Except.bind]
          | ok place =>
              cases place with
              | memory memory =>
                  rw [takesSlot_eq_none_of_memory hplace]
                  simp only [reduceCtorEq, false_imp_iff, implies_true, and_true]
                  exact Iff.rfl
              | fifo src dest =>
                  have hkey : (∀ key, takesSlot archGraph flow flowEnd.isProducer = some key →
                      SlotIs flow.carrier (state.fifos.nextSlot key)) ↔
                        (flow.carrierIsMemref = false →
                          SlotIs flow.carrier (state.fifos.nextSlot (fifoKey flow src dest))) := by
                    simp only [takesSlot_eq_some_iff hplace, and_imp, forall_apply_eq_imp_iff]
                  rw [hkey]
                  cases boundaryEdge flow (endBoundary flow flowEnd.isProducer) with
                  | error e => simp [bind, Except.bind, carrierInPlace]
                  | ok edge =>
                      show (if _ then _ else if _ then _ else _) = _ ↔
                        (if _ then _ else if _ then _ else _) = _ ∧ _
                      split
                      · simp
                      · split
                        · exact adaptFifoOpWith_true_iff h
                        · exact adaptTransferOpWith_true_iff h

/-- The side of a transfer that an end of a flow leaves behind, in the place it got. -/
structure LeavesSide (state' : EndsState R) (flows : List (DataFlow R)) (flowIdx k : Nat)
    (plan : PathExpansionPlan R) (fifos : BoundaryFifos R) (ref : SpecRef) (slot : Nat) : Prop where
  flows : ∃ side, state'.flows = setCarrier flows flowIdx k side ∧ side.resource = some ref ∧
    side.slotIndex = slot
  specs : state'.plan.specs = plan.specs
  fifos : state'.fifos = fifos

omit [DecidableEq R] in
theorem specs_transferFor {plan plan₁ : PathExpansionPlan R} {stage : StageRef} {op : Op R}
    {edge : EdgeInfo} {resources : Option R × Option R} {ref : TransferRef}
    (h : transferFor plan stage op edge resources = .ok (ref, plan₁)) : plan₁.specs = plan.specs := by
  obtain ⟨info, -, h⟩ := Except.bind_eq_ok.mp h
  split at h
  · cases h
    rfl
  · obtain ⟨transfer, -, h⟩ := Except.bind_eq_ok.mp h
    cases h
    rfl

omit [DecidableEq R] in
/-- Retargeting a side sets its resource and its slot. -/
theorem retargetSide_slot {transfer transfer' : TransferMaterializationInfo R} {op : Op R}
    {sourceSide : Bool} {ref : SpecRef} {spec : PrivateResourceSpec R} {slot : Nat}
    (h : retargetSide transfer op sourceSide ref spec slot = .ok transfer') :
    (transfer'.side sourceSide).resource = some ref ∧
      (transfer'.side sourceSide).slotIndex = slot := by
  obtain ⟨operand, -, h⟩ := Except.bind_eq_ok.mp h
  split at h
  · cases h
    rw [side_setSide]
    exact ⟨rfl, rfl⟩
  · obtain ⟨side, hside, h⟩ := Except.bind_eq_ok.mp h
    cases h
    rw [side_setSide]
    obtain ⟨sizes, -, hside⟩ := Except.bind_eq_ok.mp hside
    split at hside <;> cases hside <;> exact ⟨rfl, rfl⟩

theorem adaptFifoOpWith_leaves {stage : StageRef} {op : Op R} {flowIdx k : Nat} {src dest : R}
    {sourceSide : Bool} {edge : EdgeInfo} {resources : Option R × Option R}
    (h : adaptFifoOpWith mirrorSlot state stage op flow flowIdx k src dest sourceSide edge resources =
      .ok state') :
    ∃ tile ref slot fifos plan,
      placeResource state flow (.fifo src dest) tile mirrorSlot = .ok (ref, slot, fifos, plan) ∧
        LeavesSide state' state.flows flowIdx k plan fifos ref slot := by
  obtain ⟨⟨ref, slot, fifos, plan⟩, hget, h⟩ := Except.bind_eq_ok.mp h
  obtain ⟨info, -, h⟩ := Except.bind_eq_ok.mp h
  cases h
  refine ⟨_, ref, slot, fifos, plan, hget, ⟨_, rfl, ?_, ?_⟩, rfl, rfl⟩ <;>
    rw [createFromFifoOp, side_setSide]

theorem adaptTransferOpWith_leaves {stage : StageRef} {op : Op R} {flowIdx k : Nat}
    {place : BoundaryPlace R} {sourceSide : Bool} {edge : EdgeInfo}
    {resources : Option R × Option R}
    (h : adaptTransferOpWith mirrorSlot state stage op flow flowIdx k place sourceSide edge
      resources = .ok state') :
    ∃ tile ref slot fifos plan,
      placeResource state flow place tile mirrorSlot = .ok (ref, slot, fifos, plan) ∧
        LeavesSide state' state.flows flowIdx k plan fifos ref slot := by
  obtain ⟨tile, -, h⟩ := Except.bind_eq_ok.mp h
  split at h
  · cases h
  · next tile =>
      obtain ⟨⟨spec, slot, fifos, plan₀⟩, hplace, h⟩ := Except.bind_eq_ok.mp h
      obtain ⟨⟨ref, plan₁⟩, hobtain, h⟩ := Except.bind_eq_ok.mp h
      obtain ⟨transfer, -, h⟩ := Except.bind_eq_ok.mp h
      obtain ⟨resource, -, h⟩ := Except.bind_eq_ok.mp h
      obtain ⟨transfer', hretarget, h⟩ := Except.bind_eq_ok.mp h
      obtain ⟨info₁, -, h⟩ := Except.bind_eq_ok.mp h
      cases h
      refine ⟨tile, spec, slot, fifos, plan₀, hplace, ⟨_, rfl, retargetSide_slot hretarget⟩, ?_, rfl⟩
      show plan₁.specs = plan₀.specs
      exact specs_transferFor hobtain

/-- What adapting an end of a flow does to the carriers and to the FIFOs. -/
theorem adaptEndWith_spec (hcounted : state.fifos.Counted state.plan) {flowEnd : FlowEnd R}
    (h : adaptEndWith mirrorSlot archGraph state flowEnd = .ok state') :
    ∃ flow side, state.flows[flowEnd.flowIdx]? = some flow ∧
      state'.flows = setCarrier state.flows flowEnd.flowIdx
        (endBoundary flow flowEnd.isProducer) side ∧
      SlotsGrow state.plan state'.plan ∧ state'.fifos.Counted state'.plan ∧
      (takesSlot archGraph flow flowEnd.isProducer = none → state'.fifos = state.fifos) ∧
      ∀ key, takesSlot archGraph flow flowEnd.isProducer = some key →
        ∃ ref, side.resource = some ref ∧ side.slotIndex = state.fifos.nextSlot key ∧
          state'.fifos = state.fifos.use key ref ∧
          SlotHolds state'.plan flow.carrier key.2.1 key.2.2 ref side.slotIndex := by
  unfold adaptEndWith at h
  split at h
  · cases h
  next flow hflow =>
  obtain ⟨info, -, h⟩ := Except.bind_eq_ok.mp h
  obtain ⟨place, hplace, h⟩ := Except.bind_eq_ok.mp h
  cases place with
  | memory memory =>
      have hnone := takesSlot_eq_none_of_memory hplace
      split at h
      · obtain ⟨side, -, h⟩ := Except.bind_eq_ok.mp h
        obtain ⟨⟨ref, plan⟩, hcreate, h⟩ := Except.bind_eq_ok.mp h
        unfold PathExpansionPlan.createExistingValue at hcreate
        split at hcreate
        · cases hcreate
          cases h
          exact ⟨flow, _, hflow, rfl, SlotsGrow.addSpec _ _,
            hcounted.mono fun _ _ => BoundaryFifos.getElem?_addSpec_of_some _, fun _ => rfl,
            fun key hkey => by rw [hnone] at hkey; cases hkey⟩
        · cases hcreate
      · obtain ⟨edge, -, h⟩ := Except.bind_eq_ok.mp h
        change (if _ then _ else _) = _ at h
        split at h
        · cases h
        · obtain ⟨tile, ref, slot, fifos, plan, hres, ⟨side, hflows, -, -⟩, hspecs, hfifos⟩ :=
            adaptTransferOpWith_leaves h
          cases hres
          refine ⟨flow, side, hflow, hflows, ?_, ?_, fun _ => hfifos,
            fun key hkey => by rw [hnone] at hkey; cases hkey⟩
          · exact (SlotsGrow.addSpec _ _).trans (SlotsGrow.of_specs_eq hspecs)
          · rw [hfifos]
            refine hcounted.mono fun ref spec hget => ?_
            rw [hspecs]
            exact BoundaryFifos.getElem?_addSpec_of_some _ hget
  | fifo src dest =>
      have hleaves : ∃ tile ref slot fifos plan,
          state.fifos.get state.plan flow src dest tile mirrorSlot = .ok (ref, slot, fifos, plan) ∧
            LeavesSide state' state.flows flowEnd.flowIdx (endBoundary flow flowEnd.isProducer) plan
              fifos ref slot := by
        obtain ⟨edge, -, h⟩ := Except.bind_eq_ok.mp h
        change (if _ then _ else if _ then _ else _) = _ at h
        split at h
        · cases h
        · split at h
          · exact adaptFifoOpWith_leaves h
          · exact adaptTransferOpWith_leaves h
      obtain ⟨tile, ref, slot, fifos, plan, hget, ⟨side, hflows, href, hslot⟩, hspecs, hfifos⟩ :=
        hleaves
      have hgrow := (SlotsGrow.get hget).trans (SlotsGrow.of_specs_eq hspecs)
      have hmove : ∀ {fifos' : BoundaryFifos R}, fifos'.Counted plan → fifos'.Counted state'.plan := by
        intro fifos' hcounted'
        refine hcounted'.mono fun ref spec hget => ?_
        rw [hspecs, hget]
      cases hmemref : flow.carrierIsMemref with
      | true =>
          obtain ⟨hcounted', rfl⟩ := hcounted.get_memref hmemref hget
          refine ⟨flow, side, hflow, hflows, hgrow, ?_,
            fun _ => hfifos, fun key hkey => ?_⟩
          · rw [hfifos]
            exact hmove hcounted'
          · rw [takesSlot_eq_some_iff hplace, hmemref] at hkey
            cases hkey.1
      | false =>
          obtain ⟨hcounted', hnext, hused, hholds⟩ := hcounted.get_slot hmemref hget
          refine ⟨flow, side, hflow, hflows, hgrow, ?_,
            fun hnone => ?_, fun key hkey => ?_⟩
          · rw [hfifos]
            exact hmove hcounted'
          · have hkey := (takesSlot_eq_some_iff hplace).mpr ⟨hmemref, rfl⟩
            rw [hnone] at hkey
            cases hkey
          · obtain ⟨-, rfl⟩ := (takesSlot_eq_some_iff hplace).mp hkey
            refine ⟨ref, href, hslot.trans hnext, hfifos.trans hused, ?_⟩
            rw [hslot]
            exact hholds.mono (SlotsGrow.of_specs_eq hspecs)

end End

end PathExpansion

end DataflowScheduler
