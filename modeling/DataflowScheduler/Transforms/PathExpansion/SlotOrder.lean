import DataflowScheduler.Transforms.PathExpansion.FifoSlots

/-!
# The order of slots in new FIFOs

Over all ends of flows, a slot counter is the number of slots taken before. So the assertion holds at
every end exactly when the slots of each new FIFO are taken in the order of their allocation, and then
every slot has the index and the size of the one it replaces, up to the end of planning.
-/

namespace DataflowScheduler

namespace PathExpansion

variable {R : Type} [DecidableEq R] {archGraph : RoutingGraph R}

/-! ## Counters -/

/-- The slot that one end takes. -/
def slotTaken (archGraph : RoutingGraph R) (flows : List (DataFlow R)) (flowEnd : FlowEnd R) :
    Option (FifoKey R × Value R) :=
  flows[flowEnd.flowIdx]?.bind fun flow =>
    (takesSlot archGraph flow flowEnd.isProducer).map fun key => (key, flow.carrier)

omit [DecidableEq R] in
theorem slotsTaken_cons (flows : List (DataFlow R)) (flowEnd : FlowEnd R) (ends : List (FlowEnd R)) :
    slotsTaken archGraph flows (flowEnd :: ends) =
      (slotTaken archGraph flows flowEnd).toList ++ slotsTaken archGraph flows ends := by
  show List.filterMap (slotTaken archGraph flows) (flowEnd :: ends) = _
  rw [List.filterMap_cons]
  cases slotTaken archGraph flows flowEnd <;> rfl

omit [DecidableEq R] in
/-- Which slot is taken does not depend on the carriers so far. -/
theorem slotTaken_congr {flows flows' : List (DataFlow R)}
    (h : flows'.map DataFlow.withoutCarriers = flows.map DataFlow.withoutCarriers)
    (flowEnd : FlowEnd R) :
    slotTaken archGraph flows' flowEnd = slotTaken archGraph flows flowEnd := by
  have hbind : ∀ flows : List (DataFlow R), slotTaken archGraph flows flowEnd =
      (flows.map DataFlow.withoutCarriers)[flowEnd.flowIdx]?.bind fun flow =>
        (takesSlot archGraph flow flowEnd.isProducer).map fun key => (key, flow.carrier) := by
    intro flows
    rw [List.getElem?_map, slotTaken]
    cases flows[flowEnd.flowIdx]? <;> rfl
  rw [hbind, hbind, h]

/-- The rest of the slots are in order when those in `done` are taken. -/
def InSlotOrderAfter (done taken : List (FifoKey R × Value R)) : Prop :=
  ∀ before key carrier after, taken = before ++ (key, carrier) :: after →
    SlotIs carrier ((done ++ before).countP (·.1 = key))

theorem inSlotOrderAfter_cons {done rest : List (FifoKey R × Value R)} {key : FifoKey R}
    {carrier : Value R} :
    InSlotOrderAfter done ((key, carrier) :: rest) ↔
      SlotIs carrier (done.countP (·.1 = key)) ∧ InSlotOrderAfter (done ++ [(key, carrier)]) rest := by
  constructor
  · intro h
    refine ⟨?_, fun before key' carrier' after heq => ?_⟩
    · simpa using h [] key carrier rest rfl
    · have := h ((key, carrier) :: before) key' carrier' after (by rw [heq]; rfl)
      rwa [List.append_assoc]
  · rintro ⟨hfirst, hrest⟩ before key' carrier' after heq
    cases before with
    | nil =>
        obtain ⟨heq, -⟩ := List.cons.inj heq
        cases heq
        simpa using hfirst
    | cons first before =>
        obtain ⟨rfl, htail⟩ := List.cons.inj heq
        have := hrest before key' carrier' after htail
        rwa [List.append_assoc] at this

instance decidableSlotIs (carrier : Value R) (slot : Nat) : Decidable (SlotIs carrier slot) :=
  match h : carrier.origin with
  | .blockArgument => isTrue (by rw [SlotIs, h]; trivial)
  | .privateResult (some result) =>
      decidable_of_iff (slot = result.resultNumber) (by rw [SlotIs, h])
  | .privateResult none | .otherResult => isFalse (by rw [SlotIs, h]; exact not_false)

instance decidableInSlotOrderAfter :
    (done taken : List (FifoKey R × Value R)) → Decidable (InSlotOrderAfter done taken)
  | _, [] => isTrue fun before _ _ _ h => by cases before <;> cases h
  | done, (key, carrier) :: rest =>
      have := decidableInSlotOrderAfter (done ++ [(key, carrier)]) rest
      decidable_of_iff _ inSlotOrderAfter_cons.symm

instance decidableInSlotOrder (taken : List (FifoKey R × Value R)) :
    Decidable (InSlotOrder taken) :=
  inferInstanceAs (Decidable (InSlotOrderAfter [] taken))

/-- Every counter is the number of slots taken so far. -/
structure Taken (archGraph : RoutingGraph R) (flows : List (DataFlow R)) (state : EndsState R)
    (done : List (FifoKey R × Value R)) : Prop where
  counted : state.fifos.Counted state.plan
  nextSlot : ∀ key, state.fifos.nextSlot key = done.countP (·.1 = key)
  flows : state.flows.map DataFlow.withoutCarriers = flows.map DataFlow.withoutCarriers

section Taken

variable {flows : List (DataFlow R)} {state state' : EndsState R}
  {done : List (FifoKey R × Value R)} {flowEnd : FlowEnd R}

/-- One more end takes one more slot, or none. -/
theorem Taken.step (h : Taken archGraph flows state done) {mirrorSlot : Bool}
    (hstep : adaptEndWith mirrorSlot archGraph state flowEnd = .ok state') :
    Taken archGraph flows state' (done ++ (slotTaken archGraph flows flowEnd).toList) := by
  obtain ⟨flow, side, hflow, hflows, -, hcounted, hnone, hsome⟩ := adaptEndWith_spec h.counted hstep
  refine ⟨hcounted, fun key => ?_, ?_⟩
  · rw [← slotTaken_congr h.flows, slotTaken, hflow, Option.bind_some]
    cases htakes : takesSlot archGraph flow flowEnd.isProducer with
    | none =>
        rw [hnone htakes, h.nextSlot]
        simp
    | some key' =>
        obtain ⟨ref, -, -, hfifos, -⟩ := hsome key' htakes
        have hnext : (state.fifos.use key' ref).nextSlot key =
            if key = key' then state.fifos.nextSlot key' + 1 else state.fifos.nextSlot key :=
          Function.update_apply ..
        rw [hfifos, hnext, h.nextSlot, h.nextSlot, Option.map_some, Option.toList_some,
          List.countP_append]
        by_cases hkey : key = key'
        · simp [hkey]
        · simp [hkey, Ne.symm hkey]
  · rw [hflows, withoutCarriers_setCarrier, h.flows]

/-- The assertion holds at an end exactly when its slot is next. -/
theorem Taken.adaptEndWith_true_iff (h : Taken archGraph flows state done) :
    adaptEndWith true archGraph state flowEnd = .ok state' ↔
      adaptEndWith false archGraph state flowEnd = .ok state' ∧
        ∀ key carrier, slotTaken archGraph flows flowEnd = some (key, carrier) →
          SlotIs carrier (done.countP (·.1 = key)) := by
  rw [PathExpansion.adaptEndWith_true_iff h.counted]
  refine and_congr_right fun _ => ?_
  rw [← slotTaken_congr h.flows, slotTaken]
  simp only [h.nextSlot]
  cases state.flows[flowEnd.flowIdx]? with
  | none => simp
  | some flow =>
      rw [Option.bind_some]
      constructor
      · intro h key carrier htaken
        obtain ⟨key', hkey, heq⟩ := Option.map_eq_some_iff.mp htaken
        cases heq
        exact h flow rfl key hkey
      · rintro h flow' heq key hkey
        cases heq
        exact h key flow.carrier (by rw [hkey]; rfl)

/-- The assertion holds at all ends exactly when the slots are taken in order. -/
theorem Taken.foldlM_true_iff {ends : List (FlowEnd R)} (h : Taken archGraph flows state done) :
    ends.foldlM (adaptEndWith true archGraph) state = .ok state' ↔
      ends.foldlM (adaptEndWith false archGraph) state = .ok state' ∧
        InSlotOrderAfter done (slotsTaken archGraph flows ends) := by
  induction ends generalizing state done with
  | nil =>
      -- `foldlM_nil` first: the two folds must not be compared
      rw [List.foldlM_nil, List.foldlM_nil]
      have hnil : InSlotOrderAfter done (slotsTaken archGraph flows []) := by
        intro before key carrier after heq
        cases before <;> cases heq
      exact (and_iff_left hnil).symm
  | cons flowEnd ends ih =>
      rw [List.foldlM_cons, List.foldlM_cons, Except.bind_eq_ok, Except.bind_eq_ok, slotsTaken_cons]
      -- what the first end takes comes before the rest
      have hsplit : InSlotOrderAfter done
            ((slotTaken archGraph flows flowEnd).toList ++ slotsTaken archGraph flows ends) ↔
          (∀ key carrier, slotTaken archGraph flows flowEnd = some (key, carrier) →
            SlotIs carrier (done.countP (·.1 = key))) ∧
          InSlotOrderAfter (done ++ (slotTaken archGraph flows flowEnd).toList)
            (slotsTaken archGraph flows ends) := by
        cases slotTaken archGraph flows flowEnd with
        | none => simp
        | some taken =>
            obtain ⟨key, carrier⟩ := taken
            rw [Option.toList_some, List.singleton_append, inSlotOrderAfter_cons]
            refine and_congr_left fun _ => ⟨?_, fun h => h key carrier rfl⟩
            rintro hslot _ _ heq
            cases heq
            exact hslot
      rw [hsplit]
      constructor
      · rintro ⟨state₁, hfirst, hrest⟩
        obtain ⟨hfirst', hslot⟩ := h.adaptEndWith_true_iff.mp hfirst
        obtain ⟨hrest', horder⟩ := (ih (h.step hfirst)).mp hrest
        exact ⟨⟨state₁, hfirst', hrest'⟩, hslot, horder⟩
      · rintro ⟨⟨state₁, hfirst, hrest⟩, hslot, horder⟩
        exact ⟨state₁, h.adaptEndWith_true_iff.mpr ⟨hfirst, hslot⟩,
          (ih (h.step hfirst)).mpr ⟨hrest, horder⟩⟩

end Taken

/-! ## Carriers at the ends -/

/-- Where an end of the flow takes a slot, its carrier is that slot: of the right FIFO, with the index
and the size of the slot it replaces. -/
def Mirrored (archGraph : RoutingGraph R) (plan : PathExpansionPlan R) (flow : DataFlow R) : Prop :=
  ∀ isProducer side ref key, flow.carriers[endBoundary flow isProducer]? = some side →
    side.resource = some ref → takesSlot archGraph flow isProducer = some key →
      SlotHolds plan flow.carrier key.2.1 key.2.2 ref side.slotIndex ∧
        SlotIs flow.carrier side.slotIndex

omit [DecidableEq R] in
theorem Mirrored.mono {plan plan' : PathExpansionPlan R} {flow : DataFlow R}
    (h : Mirrored archGraph plan flow) (hgrow : SlotsGrow plan plan') :
    Mirrored archGraph plan' flow := by
  intro isProducer side ref key hside href hkey
  obtain ⟨hholds, hslot⟩ := h isProducer side ref key hside href hkey
  exact ⟨hholds.mono hgrow, hslot⟩

omit [DecidableEq R] in
/-- Setting another carrier of a flow leaves those at its ends. -/
theorem mem_setCarrier {flows : List (DataFlow R)} {flowIdx k : Nat} {side : TransferSide R}
    {flow' : DataFlow R} (h : flow' ∈ setCarrier flows flowIdx k side) :
    flow' ∈ flows ∨ ∃ flow, flows[flowIdx]? = some flow ∧
      flow' = { flow with carriers := flow.carriers.set k side } := by
  obtain ⟨i, hi⟩ := List.mem_iff_getElem?.mp h
  rw [setCarrier, List.getElem?_modify] at hi
  by_cases hidx : flowIdx = i
  · subst hidx
    rw [Option.map_eq_map, Option.map_eq_some_iff] at hi
    obtain ⟨flow, hflow, heq⟩ := hi
    rw [if_pos rfl] at heq
    exact Or.inr ⟨flow, hflow, heq.symm⟩
  · simp only [if_neg hidx, Option.map_eq_map, Option.map_id'] at hi
    exact Or.inl (List.mem_of_getElem? hi)

section Ends

variable {flows : List (DataFlow R)} {state state' : EndsState R}
  {done : List (FifoKey R × Value R)} {flowEnd : FlowEnd R}

/-- An end whose slot is asserted is mirrored, and the others stay so. -/
theorem adaptEndWith_mirrored (hcounted : state.fifos.Counted state.plan)
    (hmirrored : ∀ flow ∈ state.flows, Mirrored archGraph state.plan flow)
    (hstep : adaptEndWith true archGraph state flowEnd = .ok state') :
    ∀ flow ∈ state'.flows, Mirrored archGraph state'.plan flow := by
  obtain ⟨-, hslot⟩ := (PathExpansion.adaptEndWith_true_iff hcounted).mp hstep
  obtain ⟨flow, side, hflow, hflows, hgrow, -, -, hsome⟩ := adaptEndWith_spec hcounted hstep
  intro flow' hmem
  rw [hflows] at hmem
  rcases mem_setCarrier hmem with hold | ⟨flow₀, hflow₀, rfl⟩
  · exact (hmirrored flow' hold).mono hgrow
  obtain rfl : flow = flow₀ := Option.some.inj (hflow.symm.trans hflow₀)
  intro isProducer side' ref key hside href hkey
  change (flow.carriers.set _ side)[endBoundary flow isProducer]? = some side' at hside
  change takesSlot archGraph flow isProducer = some key at hkey
  by_cases hend : endBoundary flow flowEnd.isProducer = endBoundary flow isProducer
  · -- the boundary of this end, whichever of the two it is
    have htakes : takesSlot archGraph flow flowEnd.isProducer = some key := by
      rw [← hkey, takesSlot, takesSlot, hend]
    obtain ⟨ref', href', hindex, -, hholds⟩ := hsome key htakes
    rw [hend, List.getElem?_set_self', Option.map_eq_map, Option.map_eq_some_iff] at hside
    obtain ⟨_, -, rfl⟩ := hside
    obtain rfl : ref' = ref := Option.some.inj (href'.symm.trans href)
    refine ⟨hholds, ?_⟩
    show SlotIs flow.carrier side.slotIndex
    rw [hindex]
    exact hslot flow hflow key htakes
  · rw [List.getElem?_set_ne hend] at hside
    obtain ⟨hholds, hindex⟩ := hmirrored flow (List.mem_of_getElem? hflow) isProducer side' ref key
      hside href hkey
    exact ⟨hholds.mono hgrow, hindex⟩

/-- With the assertion on, all ends are mirrored in the end. -/
theorem foldlM_mirrored {ends : List (FlowEnd R)} (h : Taken archGraph flows state done)
    (hmirrored : ∀ flow ∈ state.flows, Mirrored archGraph state.plan flow)
    (hrun : ends.foldlM (adaptEndWith true archGraph) state = .ok state') :
    ∀ flow ∈ state'.flows, Mirrored archGraph state'.plan flow := by
  refine (Except.foldlM_induction (P := fun s => (∃ done, Taken archGraph flows s done) ∧
    ∀ flow ∈ s.flows, Mirrored archGraph s.plan flow) hrun ⟨⟨done, h⟩, hmirrored⟩ ?_).2
  rintro s flowEnd - s' ⟨⟨done, h⟩, hmirrored⟩ hstep
  exact ⟨⟨_, h.step hstep⟩, adaptEndWith_mirrored h.counted hmirrored hstep⟩

end Ends

/-! ## Later steps -/

section Later

variable {plan plan' : PathExpansionPlan R}

omit [DecidableEq R] in
theorem specs_retargetEndpoint {endpoint : FifoEndpoint R} {edge : EdgeInfo} {units : R × R}
    {fifoSpec : SpecRef} {slotIdx : Nat} {isConsumer : Bool}
    (h : retargetEndpoint plan endpoint edge units fifoSpec slotIdx isConsumer = .ok plan') :
    plan'.specs = plan.specs := by
  obtain ⟨⟨ref, plan₁⟩, hobtain, h⟩ := Except.bind_eq_ok.mp h
  obtain ⟨transfer, -, h⟩ := Except.bind_eq_ok.mp h
  obtain ⟨info, -, h⟩ := Except.bind_eq_ok.mp h
  cases h
  show plan₁.specs = plan.specs
  unfold endpointTransfer at hobtain
  split at hobtain
  · cases hobtain
    rfl
  · split at hobtain
    · obtain ⟨_, -, hobtain⟩ := Except.bind_eq_ok.mp hobtain
      cases hobtain
      rfl
    · cases hobtain
      rfl

/-- Retyping FIFOs between original stages leaves the slots of new FIFOs. -/
theorem retypeFifos_slotsGrow {endpoints : FifoEndpoints R} {retyped : List (Value R)}
    (h : retypeFifosBetweenOriginalStages endpoints archGraph plan = .ok (plan', retyped)) :
    SlotsGrow plan plan' := by
  refine retypeFifos_induction_addSpec (P := fun p => SlotsGrow plan p) h (SlotsGrow.refl plan)
    (fun plan₁ spec hgrow => hgrow.trans (SlotsGrow.addSpec plan₁ spec)) ?_
  intro _ _ _ _ _ slot _ _ _ _ plan₁ plan₂ hgrow hslot
  obtain ⟨_, -, hslot⟩ := Except.bind_eq_ok.mp hslot
  obtain ⟨_, -, hslot⟩ := Except.bind_eq_ok.mp hslot
  obtain ⟨plan₃, hproducer, hconsumer⟩ := Except.bind_eq_ok.mp hslot
  exact hgrow.trans (SlotsGrow.of_specs_eq
    ((specs_retargetEndpoint hconsumer).trans (specs_retargetEndpoint hproducer)))

theorem SlotsGrow.placeResource {state : EndsState R} {flow : DataFlow R} {place : BoundaryPlace R}
    {tile : Tile} {mirrorSlot : Bool} {ref : SpecRef} {slot : Nat} {fifos' : BoundaryFifos R}
    (h : placeResource state flow place tile mirrorSlot = .ok (ref, slot, fifos', plan')) :
    SlotsGrow state.plan plan' := by
  cases place with
  | memory memory =>
      cases h
      exact SlotsGrow.addSpec _ _
  | fifo src dest => exact SlotsGrow.get h

omit [DecidableEq R] in
/-- A carrier between two hop stages is at no end. -/
theorem Mirrored.setInner {flow : DataFlow R} (h : Mirrored archGraph plan flow) {k : Nat}
    (hk : k ∈ List.range' 1 (flow.chain.length - 1)) (side : TransferSide R) :
    Mirrored archGraph plan { flow with carriers := flow.carriers.set k side } := by
  intro isProducer side' ref key hside href hkey
  rw [List.mem_range'_1] at hk
  have hend : k ≠ endBoundary flow isProducer := by
    unfold endBoundary
    split <;> omega
  change (flow.carriers.set k side)[endBoundary flow isProducer]? = some side' at hside
  rw [List.getElem?_set_ne hend] at hside
  exact h isProducer side' ref key hside href hkey

/-- Giving hop stages their transfers leaves the ends as they are. -/
theorem populateHopStageTransfers_mirrored {state state' : EndsState R}
    (h : populateHopStageTransfers archGraph state = .ok state')
    (hmirrored : ∀ flow ∈ state.flows, Mirrored archGraph state.plan flow) :
    ∀ flow ∈ state'.flows, Mirrored archGraph state'.plan flow := by
  refine (populateHopStageTransfers_induction_place (P := fun s =>
    s.flows.map DataFlow.withoutCarriers = state.flows.map DataFlow.withoutCarriers ∧
      ∀ flow ∈ s.flows, Mirrored archGraph s.plan flow) h ⟨rfl, hmirrored⟩ ?_ ?_ ?_).2
  · rintro s₀ flow₀ flowIdx ⟨hsame₀, -⟩ hflow₀ k hk s flow place tile ref slot fifos plan carrier
      ⟨hsame, hmirrored⟩ hflow hplace
    have hgrow := SlotsGrow.placeResource hplace
    refine ⟨(withoutCarriers_setCarrier ..).trans hsame, fun flow' hmem => ?_⟩
    rcases mem_setCarrier hmem with hold | ⟨flow₁, hflow₁, rfl⟩
    · exact (hmirrored flow' hold).mono hgrow
    · have hchain : flow₁.chain = flow₀.chain := by
        have hget := congrArg (·[flowIdx]?) (hsame.trans hsame₀.symm)
        simp only [List.getElem?_map, hflow₁, hflow₀, Option.map_some, Option.some.injEq] at hget
        have hchains := congrArg DataFlow.chain hget
        exact hchains
      rw [← hchain] at hk
      exact ((hmirrored flow₁ (List.mem_of_getElem? hflow₁)).mono hgrow).setInner hk carrier
  · rintro s flow stage info transfer ⟨hsame, hmirrored⟩ - - - -
    exact ⟨hsame, fun flow hmem => (hmirrored flow hmem).mono (SlotsGrow.of_specs_eq rfl)⟩
  · rintro s plan hops ⟨hsame, hmirrored⟩ hmodes
    exact ⟨hsame, fun flow hmem => (hmirrored flow hmem).mono (SlotsGrow.of_specs_eq hmodes.specs)⟩

end Later

/-! ## Before the ends -/

theorem addHop_carriers {state state' : ExpandState R} {flow flow' : DataFlow R}
    {memory : Option R} {unit : R}
    (h : addHop state flow memory unit = .ok (state', flow')) : flow'.carriers = flow.carriers := by
  obtain ⟨stage, rfl, -⟩ := addHop_cases h
  rfl

theorem hopLoop_carriers {fuel i : Nat} {state state' : ExpandState R} {flow flow' : DataFlow R}
    (h : hopLoop archGraph fuel i state flow = .ok (state', flow')) :
    flow'.carriers = flow.carriers := by
  induction fuel generalizing i state flow with
  | zero =>
      cases h
      rfl
  | succ fuel ih =>
      rw [hopLoop] at h
      split at h
      · obtain ⟨⟨memory, unit, width⟩, -, h⟩ := Except.bind_eq_ok.mp h
        obtain ⟨⟨state₁, flow₁⟩, hadd, h⟩ := Except.bind_eq_ok.mp h
        have hcarriers := addHop_carriers hadd
        exact (ih h).trans hcarriers
      · cases h
        rfl

theorem expandLoop_carriers {flows flows' : List (DataFlow R)} {state state' : ExpandState R}
    (h : expandLoop archGraph state flows = .ok (state', flows'))
    (hflows : ∀ flow ∈ flows, flow.carriers = []) : ∀ flow ∈ flows', flow.carriers = [] := by
  induction flows generalizing state flows' with
  | nil =>
      cases h
      intro flow hflow
      cases hflow
  | cons flow flows ih =>
      rw [expandLoop] at h
      obtain ⟨⟨state₁, flow₁⟩, hflow, h⟩ := Except.bind_eq_ok.mp h
      obtain ⟨⟨state₂, flows₂⟩, hrest, h⟩ := Except.bind_eq_ok.mp h
      obtain ⟨⟨state₃, flow₃⟩, hloop, hflow⟩ := Except.bind_eq_ok.mp hflow
      cases hflow
      cases h
      rw [List.forall_mem_cons] at hflows ⊢
      refine ⟨?_, ih hrest hflows.2⟩
      have hcarriers : flow₃.carriers = [] := (hopLoop_carriers hloop).trans hflows.1
      split <;> exact hcarriers

/-- No flow has a carrier when it is routed. -/
theorem prepare_carriers {pipeline : StagePipeline R} {sortedStages : List StageRef}
    {endpoints : FifoEndpoints R} {flows : List (DataFlow R)} {plan : PathExpansionPlan R}
    (h : prepare pipeline archGraph = .ok (sortedStages, endpoints, flows, plan)) :
    ∀ flow ∈ flows, flow.carriers = [] := by
  obtain ⟨⟨sorted, sides⟩, -, h⟩ := Except.bind_eq_ok.mp h
  obtain ⟨plan₁, -, h⟩ := Except.bind_eq_ok.mp h
  obtain ⟨routed, hroutes, h⟩ := Except.bind_eq_ok.mp h
  obtain ⟨plan₂, -, h⟩ := Except.bind_eq_ok.mp h
  cases h
  intro flow' hflow'
  obtain ⟨flow, hflow, hroute⟩ := (Except.mapM_eq_ok hroutes).exists_of_mem_right hflow'
  obtain ⟨-, -, op, -, hfrom⟩ := mem_collectDataFlows hflow
  obtain ⟨_, _, -, -, -, heq⟩ := flowFrom_eq_some hfrom
  obtain ⟨⟨_, _, _, _, _, rfl⟩, -⟩ := routeDataFlow_spec hroute (by rw [heq])
  show flow.carriers = []
  rw [heq]

/-- Nor when planning comes to the ends of flows, or stops before that. -/
theorem stepsBeforeEnds_carriers {pipeline : StagePipeline R}
    {prepared : PlanResult R ⊕ BeforeEnds R}
    (h : stepsBeforeEnds pipeline archGraph = .ok prepared) :
    (∀ result, prepared = .inl result → ∀ flow ∈ result.flows, flow.carriers = []) ∧
      ∀ before, prepared = .inr before → ∀ flow ∈ before.flows, flow.carriers = [] := by
  obtain ⟨⟨sortedStages, endpoints, flows, plan⟩, hprepare, h⟩ := Except.bind_eq_ok.mp h
  obtain ⟨needed, -, h⟩ := Except.bind_eq_ok.mp h
  have hflows := prepare_carriers hprepare
  cases needed with
  | false =>
      cases h
      refine ⟨fun result heq => ?_, fun before heq => ?_⟩
      · cases heq
        exact hflows
      · cases heq
  | true =>
      rw [if_pos rfl] at h
      split at h
      · cases h
      obtain ⟨⟨pipeline', flows', plan'⟩, hexpand, h⟩ := Except.bind_eq_ok.mp h
      obtain ⟨ordered, -, h⟩ := Except.bind_eq_ok.mp h
      obtain ⟨stages, -, h⟩ := Except.bind_eq_ok.mp h
      obtain ⟨_, -, h⟩ := Except.bind_eq_ok.mp h
      cases h
      obtain ⟨unitOwner, state, -, hloop, -, -⟩ := expandDataFlows_eq_ok hexpand
      refine ⟨fun result heq => ?_, fun before heq => ?_⟩
      · cases heq
      · cases heq
        exact expandLoop_carriers hloop hflows

omit [DecidableEq R] in
/-- Resized carriers are not set yet. -/
theorem resource_of_mem_resizeCarriers {flow : DataFlow R} (h : flow.carriers = [])
    {side : TransferSide R} (hside : side ∈ flow.resizeCarriers.carriers) : side.resource = none := by
  unfold DataFlow.resizeCarriers at hside
  split at hside
  · rw [h] at hside
    cases hside
  · have hunset : side ∈ List.replicate (flow.chain.length + 1) TransferSide.unset := by
      simpa [h] using hside
    rw [List.eq_of_mem_replicate hunset]
    rfl

/-! ## The slots of the finished plan -/

/-- An end of a flow moves a slot with this carrier to a slot of a new FIFO. -/
structure MovesSlot (archGraph : RoutingGraph R) (flows : List (DataFlow R)) (key : FifoKey R)
    (carrier : Value R) (ref : SpecRef) (slot : Nat) : Prop where
  atEnd : ∃ flow ∈ flows, ∃ isProducer side,
    flow.carriers[endBoundary flow isProducer]? = some side ∧ flow.carrier = carrier ∧
      takesSlot archGraph flow isProducer = some key ∧ side.resource = some ref ∧
      side.slotIndex = slot

instance decidableMovesSlot (flows : List (DataFlow R)) (key : FifoKey R) (carrier : Value R)
    (ref : SpecRef) (slot : Nat) : Decidable (MovesSlot archGraph flows key carrier ref slot) :=
  decidable_of_iff (∃ flow ∈ flows, ∃ isProducer, flow.carrier = carrier ∧
      takesSlot archGraph flow isProducer = some key ∧
      ∃ side ∈ flow.carriers[endBoundary flow isProducer]?, side.resource = some ref ∧
        side.slotIndex = slot) <| by
    constructor
    · rintro ⟨flow, hflow, isProducer, hcarrier, hkey, side, hside, hslot⟩
      exact ⟨flow, hflow, isProducer, side, hside, hcarrier, hkey, hslot⟩
    · rintro ⟨flow, hflow, isProducer, side, hside, hcarrier, hkey, hslot⟩
      exact ⟨flow, hflow, isProducer, hcarrier, hkey, side, hside, hslot⟩

/-- Slots of one allocation that move to one new FIFO are there in the same order and with the same
sizes, and the assertion says so at all of them. -/
structure FifoSlotsKept (archGraph : RoutingGraph R) (pipeline : StagePipeline R)
    (result : PlanResult R) : Prop where
  neverFails : planPathExpansion pipeline archGraph = .ok result
  order : ∀ key key' carrier carrier' ref slot slot',
    MovesSlot archGraph result.flows key carrier ref slot →
    MovesSlot archGraph result.flows key' carrier' ref slot' →
      ∀ allocated types allocated' types',
        getFifoAllocateResult carrier = some (allocated, types) →
        getFifoAllocateResult carrier' = some (allocated', types') →
          allocated.owner = allocated'.owner →
            (slot < slot' ↔ allocated.resultNumber < allocated'.resultNumber)
  size : ∀ key carrier ref slot, MovesSlot archGraph result.flows key carrier ref slot →
    SlotHolds result.plan carrier key.2.1 key.2.2 ref slot

omit [DecidableEq R] in
theorem Mirrored.slots {plan : PathExpansionPlan R} {flows : List (DataFlow R)}
    (h : ∀ flow ∈ flows, Mirrored archGraph plan flow) {key : FifoKey R} {carrier : Value R}
    {ref : SpecRef} {slot : Nat} (hmoves : MovesSlot archGraph flows key carrier ref slot) :
    SlotHolds plan carrier key.2.1 key.2.2 ref slot ∧ SlotIs carrier slot := by
  obtain ⟨flow, hflow, isProducer, side, hside, rfl, hkey, href, rfl⟩ := hmoves.atEnd
  exact h flow hflow isProducer side ref key hside href hkey

omit [DecidableEq R] in
/-- A slot that passes the assertion has the index of the result of the allocation. -/
theorem SlotIs.eq_resultNumber {carrier : Value R} {slot : Nat} (h : SlotIs carrier slot)
    {allocated : OpResult R} {types : List (ValueType R)}
    (hresult : getFifoAllocateResult carrier = some (allocated, types)) :
    slot = allocated.resultNumber := by
  unfold getFifoAllocateResult at hresult
  unfold SlotIs at h
  rcases hcarrier : carrier.origin with _ | (_ | result) | _ <;> rw [hcarrier] at h hresult
  · cases hresult
  · cases hresult
  · obtain ⟨_, -, heq⟩ := Option.map_eq_some_iff.mp hresult
    cases heq
    exact h
  · cases hresult

theorem fifoSlotsKept_of_mirrored {pipeline : StagePipeline R} {result : PlanResult R}
    (hplan : planPathExpansion pipeline archGraph = .ok result)
    (h : ∀ flow ∈ result.flows, Mirrored archGraph result.plan flow) :
    FifoSlotsKept archGraph pipeline result where
  neverFails := hplan
  order key key' carrier carrier' ref slot slot' hmoves hmoves' allocated types allocated' types'
      hresult hresult' _ := by
    rw [(Mirrored.slots h hmoves).2.eq_resultNumber hresult,
      (Mirrored.slots h hmoves').2.eq_resultNumber hresult']
  size _ _ _ _ hmoves := (Mirrored.slots h hmoves).1

section Plan

variable {pipeline : StagePipeline R} {before : BeforeEnds R} {result : PlanResult R}

/-- No slot is taken when the ends of flows are adapted first. -/
theorem taken_start (before : BeforeEnds R) :
    let flows := before.flows.map DataFlow.resizeCarriers
    Taken archGraph flows { before.start with flows := flows } [] := by
  have hspecs : ∀ key ref, before.start.fifos.specs key ≠ some ref := by
    intro key ref hkey
    cases hkey
  refine ⟨⟨fun _ _ => rfl, fun key ref h => ?_, fun key _ ref h _ => ?_⟩, fun _ => rfl, rfl⟩
  · exact absurd h (hspecs key ref)
  · exact absurd h (hspecs key ref)

/-- With the assertion on, the plan is the same if slots are taken in order, and there is none if they
are not. -/
theorem planEndsWith_true_iff :
    planEndsWith true archGraph before = .ok result ↔
      planEndsWith false archGraph before = .ok result ∧ InSlotOrder (before.slots archGraph) := by
  have hends : ∀ state, adaptFlowEndsWith true before.pipeline before.stages archGraph before.start =
        .ok state ↔
      adaptFlowEndsWith false before.pipeline before.stages archGraph before.start = .ok state ∧
        InSlotOrder (before.slots archGraph) := fun state => (taken_start before).foldlM_true_iff
  unfold planEndsWith
  rw [Except.bind_eq_ok, Except.bind_eq_ok]
  constructor
  · rintro ⟨state, hstate, hrest⟩
    obtain ⟨hstate, horder⟩ := (hends state).mp hstate
    exact ⟨⟨state, hstate, hrest⟩, horder⟩
  · rintro ⟨⟨state, hstate, hrest⟩, horder⟩
    exact ⟨state, (hends state).mpr ⟨hstate, horder⟩, hrest⟩

/-- With the assertion on, the ends in the plan are mirrored. -/
theorem planEndsWith_mirrored (hcarriers : ∀ flow ∈ before.flows, flow.carriers = [])
    (h : planEndsWith true archGraph before = .ok result) :
    ∀ flow ∈ result.flows, Mirrored archGraph result.plan flow := by
  obtain ⟨state, hends, h⟩ := Except.bind_eq_ok.mp h
  obtain ⟨⟨plan, retyped⟩, hretype, h⟩ := Except.bind_eq_ok.mp h
  obtain ⟨state', hpopulate, h⟩ := Except.bind_eq_ok.mp h
  cases h
  have hstart : ∀ flow ∈ before.flows.map DataFlow.resizeCarriers,
      Mirrored archGraph before.plan flow := by
    intro flow hflow isProducer side ref key hside href
    obtain ⟨flow₀, hflow₀, rfl⟩ := List.mem_map.mp hflow
    rw [resource_of_mem_resizeCarriers (hcarriers flow₀ hflow₀) (List.mem_of_getElem? hside)] at href
    cases href
  have hadapted := foldlM_mirrored (taken_start before) hstart hends
  exact populateHopStageTransfers_mirrored hpopulate
    fun flow hflow => (hadapted flow hflow).mono (retypeFifos_slotsGrow hretype)

end Plan

/-- New FIFOs have their slots as the allocations had them, exactly when the ends of flows take the
slots of each of them in order, from the first one on. -/
theorem planPathExpansion_fifoSlotsKept_iff {pipeline : StagePipeline R} {result : PlanResult R}
    (h : planPathExpansionWith false pipeline archGraph = .ok result) :
    FifoSlotsKept archGraph pipeline result ↔
      ∀ before, stepsBeforeEnds pipeline archGraph = .ok (.inr before) →
        InSlotOrder (before.slots archGraph) := by
  obtain ⟨prepared, hprepared, h⟩ := Except.bind_eq_ok.mp h
  obtain ⟨hdone, hcarriers⟩ := stepsBeforeEnds_carriers hprepared
  have hplan := planPathExpansionWith_true pipeline archGraph
  rw [planPathExpansionWith, hprepared] at hplan
  cases prepared with
  | inl result' =>
      cases h
      -- no flow has hops, and so no carrier is set
      refine iff_of_true (fifoSlotsKept_of_mirrored hplan.symm fun flow hflow => ?_) fun before heq => ?_
      · intro isProducer side ref key hside
        rw [hdone result rfl flow hflow] at hside
        cases hside
      · rw [hprepared] at heq
        cases heq
  | inr before =>
      constructor
      · rintro ⟨hkept, -, -⟩ before' heq
        rw [hprepared] at heq
        cases heq
        exact (planEndsWith_true_iff.mp (hplan.trans hkept)).2
      · intro horder
        have htrue := planEndsWith_true_iff.mpr ⟨h, horder before hprepared⟩
        exact fifoSlotsKept_of_mirrored (hplan.symm.trans htrue)
          (planEndsWith_mirrored (hcarriers before rfl) htrue)

theorem planPathExpansion_fifoSlotsKept_load :
    ∃ result, planPathExpansionWith false loadPipeline computeGraph = .ok result ∧
      result.plan.changed = true ∧ FifoSlotsKept computeGraph loadPipeline result := by
  have heval : (planPathExpansionWith false loadPipeline computeGraph).toOption.map
      (fun result => result.plan.changed) = some true := by
    decide +kernel
  have horder : ∀ before ∈ (stepsBeforeEnds loadPipeline computeGraph).toOption.bind Sum.getRight?,
      InSlotOrder (before.slots computeGraph) := by
    decide +kernel
  obtain ⟨result, hplan, hchanged⟩ := Except.eq_ok_of_map_toOption heval
  refine ⟨result, hplan, hchanged, (planPathExpansion_fifoSlotsKept_iff hplan).mpr
    fun before hbefore => horder before ?_⟩
  rw [hbefore]
  rfl

/-- Slot `i` of a FIFO with two slots from memory 10 to compute unit 14. -/
def slotOfTwo (i : Nat) : Value Nat :=
  let slot := .fifoSlot (some 10) (some 14) (some 64) 0
  ⟨1 + i, slot, .privateResult (some ⟨100, i, some [slot, slot]⟩)⟩

/-- The load of a tile into slot `i`. -/
def loadIntoSlot (i : Nat) : Op Nat :=
  .mk i (.dataTransfer ⟨⟨0, .memref [some 64] 0 (some 10), .otherResult⟩, [], [.const 64], none⟩
    ⟨slotOfTwo i, [], [], none⟩ .copy) []

/-- Stage 0 loads two tiles into the two slots, stage 1 reads slot 1 first. -/
def swappedPipeline : StagePipeline Nat :=
  { loadPipeline with
    operation := fun s =>
      if s = 0 then some ⟨200, none, [loadIntoSlot 0, loadIntoSlot 1]⟩
      else if s = 1 then some ⟨201, some [some 14],
        [.mk 2 (.readFromFifo (slotOfTwo 1)) [], .mk 3 (.readFromFifo (slotOfTwo 0)) []]⟩
      else none }

/-- The assertion fails, and without it slots 0 and 1 are slots 1 and 0 of one new FIFO. -/
theorem not_fifoSlotsKept_swapped :
    ∃ result, planPathExpansionWith false swappedPipeline computeGraph = .ok result ∧
      planPathExpansion swappedPipeline computeGraph = .error .slotIndexMismatch ∧
      (∃ key ref, MovesSlot computeGraph result.flows key (slotOfTwo 0) ref 1 ∧
        MovesSlot computeGraph result.flows key (slotOfTwo 1) ref 0) ∧
      ¬FifoSlotsKept computeGraph swappedPipeline result := by
  have hends : (planPathExpansionWith false swappedPipeline computeGraph).toOption.map
      (fun result =>
        decide (MovesSlot computeGraph result.flows (some 100, 13, 14) (slotOfTwo 0) 2 1) &&
        decide (MovesSlot computeGraph result.flows (some 100, 13, 14) (slotOfTwo 1) 2 0)) =
          some true := by
    decide +kernel
  have hasserts : (match planPathExpansion swappedPipeline computeGraph with
      | .error .slotIndexMismatch => true
      | _ => false) = true := by
    decide +kernel
  have hfails : planPathExpansion swappedPipeline computeGraph = .error .slotIndexMismatch := by
    -- without its value in the goal, which must not be computed again
    generalize planPathExpansion swappedPipeline computeGraph = planned at hasserts ⊢
    split at hasserts
    · rfl
    · cases hasserts
  obtain ⟨result, hplan, hmoves⟩ := Except.eq_ok_of_map_toOption hends
  rw [Bool.and_eq_true, decide_eq_true_iff, decide_eq_true_iff] at hmoves
  refine ⟨result, hplan, hfails, ⟨_, _, hmoves⟩, fun hkept => ?_⟩
  have hok := hkept.neverFails
  rw [hfails] at hok
  cases hok

end PathExpansion

end DataflowScheduler
