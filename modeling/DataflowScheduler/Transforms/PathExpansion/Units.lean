import DataflowScheduler.Transforms.PathExpansion.RouteCover
import DataflowScheduler.Transforms.PathExpansion.PlanSteps

/-!
# Units of stages and ends of FIFOs

Which unit a stage runs on is planned from four places: the resource a stage is pinned to, the FIFOs
of the input, the ends of a flow's path, and the hops. All of them agree with the place that
`boundaryPlace` finds from the kinds of two path nodes: no unit runs two stages, and a FIFO across a
boundary connects the units of the stages on either side.
-/

namespace DataflowScheduler

namespace PathExpansion

variable {R : Type}

/-! ## Planning transfers keeps units and hops -/

theorem SpecsGrow.unitOf {plan plan' : PathExpansionPlan R} (h : SpecsGrow plan plan') :
    plan'.unitOf = plan.unitOf := by
  funext s
  rw [PathExpansionPlan.unitOf, h.stageInfo, PathExpansionPlan.unitOf]

theorem SameButModes.unitOf {plan plan' : PathExpansionPlan R} (h : SameButModes plan plan') :
    plan'.unitOf = plan.unitOf := by
  funext s
  rw [PathExpansionPlan.unitOf, h.stageInfo, PathExpansionPlan.unitOf]

/-- Writing an entry with the unit that was planned changes no unit. -/
theorem unitOf_of_update {plan plan' : PathExpansionPlan R} {stage : StageRef}
    {info : StageMaterializationInfo R}
    (h : plan'.stageInfo = Function.update plan.stageInfo stage (some info))
    (hunit : info.applicableUnit = plan.unitOf stage) : plan'.unitOf = plan.unitOf := by
  funext s
  rw [PathExpansionPlan.unitOf, h, Function.update_apply]
  split
  · next heq =>
      rw [heq, ← hunit]
      rfl
  · rfl

theorem SideChange.Applies.unitOf {change : SideChange R} {plan plan' : PathExpansionPlan R}
    {stage : StageRef} {op : Op R} {sourceSide : Bool}
    (h : change.Applies plan plan' stage op sourceSide) : plan'.unitOf = plan.unitOf := by
  refine unitOf_of_update h.stageInfo ?_
  change change.info.applicableUnit = _
  rw [h.info_eq, PathExpansionPlan.unitOf]
  cases plan.stageInfo stage with
  | none => rfl
  | some info => rfl

/-- A flow without what carries its data. -/
def DataFlow.withoutCarriers (flow : DataFlow R) : DataFlow R := { flow with carriers := [] }

theorem withoutCarriers_setCarrier (flows : List (DataFlow R)) (flowIdx k : Nat)
    (carrier : TransferSide R) :
    (setCarrier flows flowIdx k carrier).map DataFlow.withoutCarriers =
      flows.map DataFlow.withoutCarriers := by
  refine List.ext_getElem? fun i => ?_
  rw [setCarrier, List.getElem?_map, List.getElem?_modify, List.getElem?_map]
  cases flows[i]? with
  | none => rfl
  | some flow =>
      by_cases hidx : flowIdx = i
      · simp [hidx, DataFlow.withoutCarriers]
      · simp [hidx]

theorem withoutCarriers_resizeCarriers (flow : DataFlow R) :
    flow.resizeCarriers.withoutCarriers = flow.withoutCarriers := by
  unfold DataFlow.resizeCarriers
  split
  · rfl
  · rfl

/-- What planning transfers leaves as it was. -/
structure KeepsUnits (state state' : EndsState R) : Prop where
  unitOf : state'.plan.unitOf = state.plan.unitOf
  flows : state'.flows.map DataFlow.withoutCarriers = state.flows.map DataFlow.withoutCarriers

theorem KeepsUnits.trans {state₁ state₂ state₃ : EndsState R} (h₁₂ : KeepsUnits state₁ state₂)
    (h₂₃ : KeepsUnits state₂ state₃) : KeepsUnits state₁ state₃ :=
  ⟨h₂₃.unitOf.trans h₁₂.unitOf, h₂₃.flows.trans h₁₂.flows⟩

variable [DecidableEq R] {archGraph : RoutingGraph R}

theorem adaptEnd_keepsUnits {stage : StageRef} {op : Op R} {state state' : EndsState R}
    {flowIdx : Nat} {isProducer : Bool}
    (h : adaptEnd archGraph stage op state flowIdx isProducer = .ok state')
    (hvalid : state.fifos.Valid state.plan) :
    KeepsUnits state state' ∧ state'.fifos.Valid state'.plan := by
  obtain ⟨flow, place, -, -, ⟨-, hgrow, hvalid', carrier, hflows⟩ | ⟨-, change, -, hchange⟩⟩ :=
    adaptEnd_cases h hvalid
  · exact ⟨⟨hgrow.unitOf, hflows ▸ withoutCarriers_setCarrier ..⟩, hvalid'⟩
  · exact ⟨⟨hchange.applies.unitOf, hchange.flows ▸ withoutCarriers_setCarrier ..⟩, hchange.valid⟩

/-- Steps 2 to 3 leave the units and the hops as they are. -/
theorem planTransfers_keepsUnits {pipeline : StagePipeline R} {flows : List (DataFlow R)}
    {endpoints : FifoEndpoints R} {stages : List StageRef} {plan : PathExpansionPlan R}
    {state' : EndsState R} {retyped : List (Value R)}
    (h : planTransfers pipeline flows endpoints stages archGraph plan = .ok (state', retyped)) :
    state'.plan.unitOf = plan.unitOf ∧
      state'.flows.map DataFlow.withoutCarriers = flows.map DataFlow.withoutCarriers := by
  obtain ⟨state₁, hadapt, h⟩ := Except.bind_eq_ok.mp h
  obtain ⟨⟨plan₂, _⟩, hretype, h⟩ := Except.bind_eq_ok.mp h
  obtain ⟨_, hpopulate, hend⟩ := Except.bind_eq_ok.mp h
  cases hend
  have h₁ : KeepsUnits ⟨plan, flows, ⟨fun _ => none, fun _ => 0⟩, fun _ => []⟩ state₁ ∧
      state₁.fifos.Valid state₁.plan := by
    refine adaptFlowEnds_induction (P := fun s =>
      KeepsUnits ⟨plan, flows, ⟨fun _ => none, fun _ => 0⟩, fun _ => []⟩ s ∧ s.fifos.Valid s.plan)
        hadapt ⟨⟨rfl, ?_⟩, nofun⟩ ?_
    · rw [List.map_map]
      exact List.map_congr_left fun flow _ => withoutCarriers_resizeCarriers flow
    · intro stage _ stageOp _ op _ flowEnd _ s s' hs hstep
      obtain ⟨hkeeps, hvalid⟩ := adaptEnd_keepsUnits hstep hs.2
      exact ⟨hs.1.trans hkeeps, hvalid⟩
  have h₂ : plan₂.unitOf = state₁.plan.unitOf := by
    refine retypeFifos_induction (P := fun p => p.unitOf = state₁.plan.unitOf) hretype rfl
      (fun _ _ hplan hgrow => hgrow.unitOf.trans hplan) ?_
    intro _ _ _ _ _ slot _ _ _ _ p p' hp hstep
    obtain ⟨_, _, _, happly, happly', -, -⟩ := retypeSlot_cases hstep
    exact happly'.unitOf.trans (happly.unitOf.trans hp)
  have h₃ : KeepsUnits { state₁ with plan := plan₂ } state' := by
    refine populateHopStageTransfers_induction hpopulate ⟨rfl, rfl⟩ ?_ ?_ ?_
    · intro s plan fifos flowIdx k carrier hs hgrow
      exact hs.trans ⟨hgrow.unitOf, withoutCarriers_setCarrier ..⟩
    · intro s flow stage info transfer hs _ _ hinfo _
      refine hs.trans ⟨unitOf_of_update rfl ?_, rfl⟩
      rw [PathExpansionPlan.unitOf, hinfo]
      rfl
    · intro s plan hops hs hmodes
      exact hs.trans ⟨hmodes.unitOf, rfl⟩
  exact ⟨h₃.unitOf.trans (h₂.trans h₁.1.unitOf), h₃.flows.trans h₁.1.flows⟩

/-! ## Units of the original stages -/

/-- The resource planned for a stage. -/
def PathExpansionPlan.resourceOf (plan : PathExpansionPlan R) (stage : StageRef) : Option R :=
  (plan.stageInfo stage).bind StageMaterializationInfo.stageResource

/-- A stage whose resource is a unit runs on it. -/
def Pinned (archGraph : RoutingGraph R) (plan : PathExpansionPlan R) (stage : StageRef) : Prop :=
  ∀ node, getNodeOf archGraph (plan.resourceOf stage) = .ok (some node) → node.kind ≠ .memory →
    plan.unitOf stage = plan.resourceOf stage

/-- Only units are added. -/
structure AddsUnits (plan plan' : PathExpansionPlan R) : Prop where
  resourceOf : plan'.resourceOf = plan.resourceOf
  unitOf : ∀ stage unit, plan.unitOf stage = some unit → plan'.unitOf stage = some unit

omit [DecidableEq R] in
theorem AddsUnits.trans {plan₁ plan₂ plan₃ : PathExpansionPlan R} (h₁₂ : AddsUnits plan₁ plan₂)
    (h₂₃ : AddsUnits plan₂ plan₃) : AddsUnits plan₁ plan₃ :=
  ⟨h₂₃.resourceOf.trans h₁₂.resourceOf, fun s unit h => h₂₃.unitOf s unit (h₁₂.unitOf s unit h)⟩

theorem AddsUnits.pinned {plan plan' : PathExpansionPlan R} (h : AddsUnits plan plan')
    {stage : StageRef} (hpinned : Pinned archGraph plan stage) : Pinned archGraph plan' stage := by
  intro node hnode hkind
  rw [h.resourceOf] at hnode ⊢
  cases hresource : plan.resourceOf stage with
  | none =>
      rw [hresource] at hnode
      cases hnode
  | some unit => exact h.unitOf stage unit (hresource ▸ hpinned node hnode hkind)

omit [DecidableEq R] in
theorem unitOf_setStageInfo (plan : PathExpansionPlan R) (stage s : StageRef)
    (info : StageMaterializationInfo R) :
    (plan.setStageInfo stage info).unitOf s =
      if s = stage then info.applicableUnit else plan.unitOf s := by
  rw [PathExpansionPlan.unitOf, PathExpansionPlan.stageInfo_setStageInfo]
  split
  · rfl
  · rfl

omit [DecidableEq R] in
theorem resourceOf_setStageInfo {plan : PathExpansionPlan R} {stage : StageRef}
    {info info' : StageMaterializationInfo R} (hinfo : plan.stageInfo stage = some info)
    (h : info'.stageResource = info.stageResource) :
    (plan.setStageInfo stage info').resourceOf = plan.resourceOf := by
  funext s
  rw [PathExpansionPlan.resourceOf, PathExpansionPlan.stageInfo_setStageInfo]
  split
  · next heq => rw [heq, PathExpansionPlan.resourceOf, hinfo, Option.bind_some, Option.bind_some, h]
  · rfl

/-- `setUnit` gives the stage the unit, and no stage another one. -/
theorem setUnit_spec {plan plan' : PathExpansionPlan R} {stage : StageRef} {unit : Option R}
    (h : setUnit plan stage unit = .ok plan') :
    AddsUnits plan plan' ∧ ∀ u, unit = some u → plan'.unitOf stage = some u := by
  unfold setUnit at h
  split at h
  · cases h
    exact ⟨⟨rfl, fun _ _ h => h⟩, nofun⟩
  · next u =>
      obtain ⟨info, hinfo, h⟩ := Except.bind_eq_ok.mp h
      rw [PathExpansionPlan.getStageInfo_eq_ok] at hinfo
      -- The unit so far is the new one or none.
      have hset : (info.applicableUnit = some u ∨ info.applicableUnit = none) ∧
          plan' = plan.setStageInfo stage { info with applicableUnit := some u } := by
        split at h
        · next current hcurrent =>
            split at h
            · cases h
            · next hsame =>
                rw [ne_eq, not_not] at hsame
                cases h
                exact ⟨.inl (hsame ▸ hcurrent), rfl⟩
        · next hnone =>
            cases h
            exact ⟨.inr hnone, rfl⟩
      obtain ⟨hbefore, rfl⟩ := hset
      refine ⟨⟨resourceOf_setStageInfo hinfo rfl, fun s unit hs => ?_⟩, fun u' hu' => ?_⟩
      · rw [unitOf_setStageInfo]
        split
        · next heq =>
            rw [heq, PathExpansionPlan.unitOf, hinfo, Option.bind_some] at hs
            rcases hbefore with hbefore | hbefore
            · exact hbefore ▸ hs
            · rw [hbefore] at hs
              cases hs
        · exact hs
      · rw [unitOf_setStageInfo, if_pos rfl]
        exact hu'

theorem setFlowUnits_spec {plan plan' : PathExpansionPlan R} {flow : DataFlow R}
    (h : setFlowUnits plan flow = .ok plan') :
    AddsUnits plan plan' ∧ (∀ u, flow.producerUnit = some u → plan'.unitOf flow.producer = some u) ∧
      ∀ u, flow.consumerUnit = some u → plan'.unitOf flow.consumer = some u := by
  obtain ⟨plan₁, hproducer, h⟩ := Except.bind_eq_ok.mp h
  obtain ⟨hadds, hunit⟩ := setUnit_spec hproducer
  obtain ⟨hadds', hunit'⟩ := setUnit_spec h
  exact ⟨hadds.trans hadds', fun u hu => hadds'.unitOf _ u (hunit u hu), hunit'⟩

/-- `assignPinnedUnit` pins its stage and leaves the others alone. -/
theorem assignPinnedUnit_spec {plan plan' : PathExpansionPlan R} {stage : StageRef}
    (h : assignPinnedUnit archGraph plan stage = .ok plan') :
    plan'.resourceOf = plan.resourceOf ∧ Pinned archGraph plan' stage ∧
      ∀ s, Pinned archGraph plan s → Pinned archGraph plan' s := by
  obtain ⟨info, hinfo, h⟩ := Except.bind_eq_ok.mp h
  obtain ⟨node, hnode, h⟩ := Except.bind_eq_ok.mp h
  rw [PathExpansionPlan.getStageInfo_eq_ok] at hinfo
  have hresource : plan.resourceOf stage = info.stageResource := by
    rw [PathExpansionPlan.resourceOf, hinfo, Option.bind_some]
  -- A stage is not pinned because its resource has no node, or a memory.
  have hkeep : (∀ node', node = some node' → node'.kind = .memory) →
      Pinned archGraph plan stage := by
    intro hmemory node' hnode' hkind
    rw [hresource, hnode] at hnode'
    cases hnode'
    exact absurd (hmemory node' rfl) hkind
  split at h
  · next node' =>
      split at h
      · cases h
        have hsame : (plan.setStageInfo stage
            { info with applicableUnit := info.stageResource }).resourceOf = plan.resourceOf :=
          resourceOf_setStageInfo hinfo rfl
        refine ⟨hsame, fun node'' _ _ => ?_, fun s hs node'' hnode'' hkind'' => ?_⟩
        · rw [hsame, hresource, unitOf_setStageInfo, if_pos rfl]
        · rw [hsame] at hnode'' ⊢
          rw [unitOf_setStageInfo]
          split
          · next heq => rw [heq, hresource]
          · exact hs node'' hnode'' hkind''
      · next hmemory =>
          rw [ne_eq, not_not] at hmemory
          cases h
          refine ⟨rfl, hkeep fun node'' heq => ?_, fun _ hs => hs⟩
          cases heq
          exact hmemory
  · cases h
    exact ⟨rfl, hkeep nofun, fun _ hs => hs⟩

/-- What is known of the units of the original stages once they are assigned. -/
structure UnitsAssigned (archGraph : RoutingGraph R) (plan : PathExpansionPlan R)
    (flows : List (DataFlow R)) (stages : List StageRef) : Prop where
  pinned : ∀ s ∈ stages, Pinned archGraph plan s
  producer : ∀ flow ∈ flows, ∀ unit, flow.producerUnit = some unit →
    plan.unitOf flow.producer = some unit
  consumer : ∀ flow ∈ flows, ∀ unit, flow.consumerUnit = some unit →
    plan.unitOf flow.consumer = some unit
  distinct : ∀ s ∈ stages, ∀ t ∈ stages, ∀ unit, plan.unitOf s = some unit →
    plan.unitOf t = some unit → s = t

/-- A stage that claimed its unit owns it, and no later stage takes it away. -/
theorem claimUnit_spec {plan : PathExpansionPlan R} {owner owner' : R → Option StageRef}
    {stage : StageRef} (h : claimUnit plan owner stage = .ok owner') :
    (∀ s unit, owner unit = some s → owner' unit = some s) ∧
      ∀ unit, plan.unitOf stage = some unit → owner' unit = some stage := by
  obtain ⟨info, hinfo, h⟩ := Except.bind_eq_ok.mp h
  rw [PathExpansionPlan.getStageInfo_eq_ok] at hinfo
  have hunit : plan.unitOf stage = info.applicableUnit := by
    rw [PathExpansionPlan.unitOf, hinfo, Option.bind_some]
  split at h
  · next hnone =>
      cases h
      refine ⟨fun _ _ h => h, fun unit hu => ?_⟩
      rw [hunit, hnone] at hu
      cases hu
  · next unit hsome =>
      split at h
      · cases h
      · next hfree =>
          cases h
          refine ⟨fun s unit' hs => ?_, fun unit' hu => ?_⟩
          · rw [Function.update_of_ne]
            · exact hs
            · rintro rfl
              rw [hfree] at hs
              cases hs
          · rw [hunit, hsome] at hu
            cases hu
            exact Function.update_self ..

theorem assignOriginalStageUnits_spec {flows : List (DataFlow R)} {stages : List StageRef}
    {plan plan' : PathExpansionPlan R}
    (h : assignOriginalStageUnits flows stages archGraph plan = .ok plan') :
    plan'.resourceOf = plan.resourceOf ∧ UnitsAssigned archGraph plan' flows stages := by
  obtain ⟨plan₁, hpinned, h⟩ := Except.bind_eq_ok.mp h
  obtain ⟨plan₂, hflows, h⟩ := Except.bind_eq_ok.mp h
  obtain ⟨owner, howner, h⟩ := Except.bind_eq_ok.mp h
  cases h
  have hresource₁ : plan₁.resourceOf = plan.resourceOf :=
    Except.foldlM_induction (P := fun p => p.resourceOf = plan.resourceOf) hpinned rfl
      fun _ _ _ _ hp hstep => (assignPinnedUnit_spec hstep).1.trans hp
  have hpinned₁ : ∀ s ∈ stages, Pinned archGraph plan₁ s :=
    Except.foldlM_forall (Q := fun s p => Pinned archGraph p s) hpinned
      fun _ _ _ _ hstep => ⟨fun s _ => (assignPinnedUnit_spec hstep).2.2 s,
        (assignPinnedUnit_spec hstep).2.1⟩
  have hadds : AddsUnits plan₁ plan' :=
    Except.foldlM_induction hflows ⟨rfl, fun _ _ h => h⟩
      fun _ _ _ _ hp hstep => hp.trans (setFlowUnits_spec hstep).1
  have hunits : ∀ flow ∈ flows,
      (∀ u, flow.producerUnit = some u → plan'.unitOf flow.producer = some u) ∧
        ∀ u, flow.consumerUnit = some u → plan'.unitOf flow.consumer = some u := by
    refine Except.foldlM_forall (Q := fun (flow : DataFlow R) (p : PathExpansionPlan R) =>
      (∀ u, flow.producerUnit = some u → p.unitOf flow.producer = some u) ∧
        ∀ u, flow.consumerUnit = some u → p.unitOf flow.consumer = some u) hflows ?_
    intro p flow _ p' hstep
    obtain ⟨hadds, hunits⟩ := setFlowUnits_spec hstep
    exact ⟨fun flow' _ hflow' => ⟨fun u hu => hadds.unitOf _ u (hflow'.1 u hu),
      fun u hu => hadds.unitOf _ u (hflow'.2 u hu)⟩, hunits⟩
  have howned : ∀ s ∈ stages, ∀ unit, plan'.unitOf s = some unit → owner unit = some s :=
    Except.foldlM_forall (Q := fun s (o : R → Option StageRef) =>
      ∀ unit, plan'.unitOf s = some unit → o unit = some s) howner
      fun _ _ _ _ hstep => ⟨fun s _ hs unit hu => (claimUnit_spec hstep).1 s unit (hs unit hu),
        (claimUnit_spec hstep).2⟩
  refine ⟨hadds.resourceOf.trans hresource₁, fun s hs => hadds.pinned (hpinned₁ s hs),
    fun flow hflow => (hunits flow hflow).1, fun flow hflow => (hunits flow hflow).2, ?_⟩
  intro s hs t ht unit hsu htu
  exact Option.some.inj ((howned s hs unit hsu).symm.trans (howned t ht unit htu))

/-! ## Ends of the routes -/

/-- What `routeDataFlows` fills in on a flow. -/
structure RouteEnds (archGraph : RoutingGraph R) (plan : PathExpansionPlan R) (flow : DataFlow R) :
    Prop where
  first : ∃ node, nodeAt archGraph flow.path 0 = some node ∧
    getNodeOf archGraph (plan.resourceOf flow.producer) = .ok (some node) ∧
      plan.resourceOf flow.producer = some node.resource
  last : ∃ node, nodeAt archGraph flow.path (flow.path.length - 1) = some node ∧
    getNodeOf archGraph (plan.resourceOf flow.consumer) = .ok (some node) ∧
      plan.resourceOf flow.consumer = some node.resource
  producerEnd : flow.producerEnd = 0 ∨
    ∃ node, nodeAt archGraph flow.path flow.producerEnd = some node ∧
      flow.producerUnit = some node.resource
  consumerBegin : flow.consumerBegin = flow.path.length - 1 ∨
    ∃ node, nodeAt archGraph flow.path flow.consumerBegin = some node ∧
      flow.consumerUnit = some node.resource

/-- The node of a resource that has one is on the path at the index of its id. -/
theorem nodeAt_of_getNodeIdOf {resource : Option R} {id : RoutingGraph.NodeId}
    {path : RoutingGraph.Path} {i : Nat} (h : getNodeIdOf archGraph resource = .ok id)
    (hpath : path[i]? = some id) :
    ∃ node, nodeAt archGraph path i = some node ∧
      getNodeOf archGraph resource = .ok (some node) ∧ resource = some node.resource := by
  cases resource with
  | none => cases h
  | some resource =>
      change liftLookup (archGraph.getNodeIdForResource resource) = .ok id at h
      cases hid : archGraph.getNodeIdForResource resource with
      | error e =>
          rw [hid] at h
          cases h
      | ok id' =>
          rw [hid] at h
          cases h
          obtain ⟨node, hnode, hresource⟩ := archGraph.resource_of_getNodeIdForResource hid
          refine ⟨node, ?_, ?_, hresource ▸ rfl⟩
          · rw [nodeAt, hpath]
            exact hnode
          · change liftLookup (archGraph.getNodeOfResource resource) = _
            rw [RoutingGraph.getNodeOfResource, hid, ← hnode]
            rfl

omit [DecidableEq R] in
theorem giveProducerUnit_spec {sides : StageSideMap} {flow flow' : DataFlow R}
    (h : giveProducerUnit sides archGraph flow = .ok flow') :
    flow' = flow ∨ ∃ node, nodeAt archGraph flow.path 1 = some node ∧
      flow' = { flow with producerEnd := 1, producerUnit := some node.resource } := by
  obtain ⟨side, -, h⟩ := Except.bind_eq_ok.mp h
  split at h
  · obtain ⟨first, -, h⟩ := Except.bind_eq_ok.mp h
    split at h
    · obtain ⟨second, hsecond, h⟩ := Except.bind_eq_ok.mp h
      split at h
      · cases h
        exact .inr ⟨second, pathNode_eq_ok.mp hsecond, rfl⟩
      · cases h
        exact .inl rfl
    · cases h
      exact .inl rfl
  · cases h
    exact .inl rfl

omit [DecidableEq R] in
theorem giveConsumerUnit_spec {sides : StageSideMap} {flow flow' : DataFlow R}
    (h : giveConsumerUnit sides archGraph flow = .ok flow') :
    flow' = flow ∨ ∃ node, nodeAt archGraph flow.path (flow.path.length - 1 - 1) = some node ∧
      flow' = { flow with
        consumerBegin := flow.path.length - 1 - 1, consumerUnit := some node.resource } := by
  obtain ⟨side, -, h⟩ := Except.bind_eq_ok.mp h
  split at h
  · obtain ⟨lastNode, -, h⟩ := Except.bind_eq_ok.mp h
    split at h
    · obtain ⟨beforeLast, hbefore, h⟩ := Except.bind_eq_ok.mp h
      split at h
      · cases h
        exact .inr ⟨beforeLast, pathNode_eq_ok.mp hbefore, rfl⟩
      · cases h
        exact .inl rfl
    · cases h
      exact .inl rfl
  · cases h
    exact .inl rfl

/-- A routed flow has the same ends and no hops; its path runs from the producer's resource to the
consumer's. -/
theorem routeDataFlow_spec {sides : StageSideMap} {plan : PathExpansionPlan R}
    {flow flow' : DataFlow R} (h : routeDataFlow sides archGraph plan flow = .ok flow')
    (hend : flow.producerEnd = 0) :
    (∃ path producerEnd consumerBegin producerUnit consumerUnit, flow' = { flow with
      path := path, producerEnd := producerEnd, consumerBegin := consumerBegin
      producerUnit := producerUnit, consumerUnit := consumerUnit }) ∧
        RouteEnds archGraph plan flow' := by
  obtain ⟨producerResource, hproducer, h⟩ := Except.bind_eq_ok.mp h
  obtain ⟨consumerResource, hconsumer, h⟩ := Except.bind_eq_ok.mp h
  obtain ⟨source, hsource, h⟩ := Except.bind_eq_ok.mp h
  obtain ⟨target, htarget, h⟩ := Except.bind_eq_ok.mp h
  have hresource : ∀ stage resource, stageResourceAt plan stage = .ok resource →
      plan.resourceOf stage = resource := by
    intro stage resource h
    obtain ⟨info, hinfo, h⟩ := Except.bind_eq_ok.mp h
    cases h
    rw [PathExpansionPlan.resourceOf, PathExpansionPlan.getStageInfo_eq_ok.mp hinfo]
    rfl
  split at h
  · cases h
  · cases h
  · next path hne hpath =>
      obtain ⟨hhead, hlast⟩ := archGraph.findShortestPath_ends hpath
      rw [List.head?_eq_getElem?] at hhead
      rw [List.getLast?_eq_getElem?] at hlast
      have hfirst := nodeAt_of_getNodeIdOf hsource hhead
      have hlast := nodeAt_of_getNodeIdOf htarget hlast
      rw [← hresource _ _ hproducer] at hfirst
      rw [← hresource _ _ hconsumer] at hlast
      obtain ⟨flow₁, hflow₁, h⟩ := Except.bind_eq_ok.mp h
      rcases giveProducerUnit_spec hflow₁ with rfl | ⟨node, hnode, rfl⟩ <;>
        rcases giveConsumerUnit_spec h with rfl | ⟨node', hnode', rfl⟩
      · exact ⟨⟨_, _, _, _, _, rfl⟩, hfirst, hlast, .inl hend, .inl rfl⟩
      · exact ⟨⟨_, _, _, _, _, rfl⟩, hfirst, hlast, .inl hend, .inr ⟨node', hnode', rfl⟩⟩
      · exact ⟨⟨_, _, _, _, _, rfl⟩, hfirst, hlast, .inr ⟨node, hnode, rfl⟩, .inl rfl⟩
      · exact ⟨⟨_, _, _, _, _, rfl⟩, hfirst, hlast, .inr ⟨node, hnode, rfl⟩,
          .inr ⟨node', hnode', rfl⟩⟩

theorem RouteEnds.congr {plan plan' : PathExpansionPlan R} {flow : DataFlow R}
    (h : RouteEnds archGraph plan flow) (hsame : plan'.resourceOf = plan.resourceOf) :
    RouteEnds archGraph plan' flow where
  first := hsame ▸ h.first
  last := hsame ▸ h.last
  producerEnd := h.producerEnd
  consumerBegin := h.consumerBegin

/-- The flows differ in their route at most. -/
def DataFlow.SameEnds (flow flow' : DataFlow R) : Prop :=
  ∃ path producerEnd consumerBegin producerUnit consumerUnit, flow' = { flow with
    path := path, producerEnd := producerEnd, consumerBegin := consumerBegin
    producerUnit := producerUnit, consumerUnit := consumerUnit }

/-- What the preparations leave for the steps. -/
structure Prepared (pipeline : StagePipeline R) (archGraph : RoutingGraph R)
    (sortedStages : List StageRef) (endpoints : FifoEndpoints R) (flows : List (DataFlow R))
    (plan : PathExpansionPlan R) : Prop where
  perm : sortedStages.Perm pipeline.stages
  endpoints_eq : endpoints = collectFifoEndpoints pipeline sortedStages
  /-- The flows that were collected, with a route each. -/
  collected : List.Forall₂ DataFlow.SameEnds (collectDataFlows pipeline sortedStages endpoints)
    flows
  unexpanded : ∀ flow ∈ flows, flow.Unexpanded pipeline
  routes : ∀ flow ∈ flows, RouteEnds archGraph plan flow
  units : UnitsAssigned archGraph plan flows pipeline.stages

theorem prepare_spec {pipeline : StagePipeline R} {sortedStages : List StageRef}
    {endpoints : FifoEndpoints R} {flows : List (DataFlow R)} {plan : PathExpansionPlan R}
    (h : prepare pipeline archGraph = .ok (sortedStages, endpoints, flows, plan))
    (hclosed : ClosedUnder pipeline.dependencies pipeline.stages) :
    Prepared pipeline archGraph sortedStages endpoints flows plan := by
  obtain ⟨⟨sorted, sides⟩, hsort, h⟩ := Except.bind_eq_ok.mp h
  obtain ⟨plan₁, -, h⟩ := Except.bind_eq_ok.mp h
  obtain ⟨routed, hroutes, h⟩ := Except.bind_eq_ok.mp h
  obtain ⟨plan₂, hunits, h⟩ := Except.bind_eq_ok.mp h
  cases h
  have hperm : sortedStages.Perm pipeline.stages := by
    unfold sortAndValidateStages at hsort
    split at hsort
    · cases hsort
    · next sorted hsorted =>
        obtain ⟨_, -, hsort⟩ := Except.bind_eq_ok.mp hsort
        cases hsort
        exact topologicalSortStages_perm pipeline.nodup_stages hclosed hsorted
  obtain ⟨hresource, hassigned⟩ := assignOriginalStageUnits_spec hunits
  have hcollected : ∀ flow ∈ collectDataFlows pipeline sortedStages
      (collectFifoEndpoints pipeline sortedStages),
        flow.producerEnd = 0 ∧ flow.Unexpanded pipeline := by
    intro flow hflow
    obtain ⟨hproducer, hconsumer, op, -, hfrom⟩ := mem_collectDataFlows hflow
    obtain ⟨_, _, -, -, -, heq⟩ := flowFrom_eq_some hfrom
    have hmem := hperm.mem_iff.mp hproducer
    refine ⟨by rw [heq], by rw [heq], by rw [heq], hmem, hclosed _ hmem _ hconsumer⟩
  have hrouted := ((List.forall₂_and_left _ _).mpr ⟨hcollected, Except.mapM_eq_ok hroutes⟩).imp
    fun flow flow' hboth => And.intro hboth.1.2 (routeDataFlow_spec hboth.2 hboth.1.1)
  refine ⟨hperm, rfl, hrouted.imp fun _ _ hboth => hboth.2.1, fun flow' hflow' => ?_,
    fun flow' hflow' => ?_, ?_⟩
  · obtain ⟨flow, -, hunexpanded, ⟨_, _, _, _, _, rfl⟩, -⟩ := hrouted.exists_of_mem_right hflow'
    exact ⟨hunexpanded.chain_nil, hunexpanded.boundaries_nil, hunexpanded.producer_mem,
      hunexpanded.consumer_mem⟩
  · obtain ⟨flow, -, -, -, hends⟩ := hrouted.exists_of_mem_right hflow'
    exact hends.congr hresource
  · exact ⟨fun s hs => hassigned.pinned s (hperm.mem_iff.mpr hs), hassigned.producer,
      hassigned.consumer, fun s hs t ht => hassigned.distinct s (hperm.mem_iff.mpr hs) t
        (hperm.mem_iff.mpr ht)⟩

theorem Prepared.setChanged {pipeline : StagePipeline R} {sortedStages : List StageRef}
    {endpoints : FifoEndpoints R} {flows : List (DataFlow R)} {plan : PathExpansionPlan R}
    (h : Prepared pipeline archGraph sortedStages endpoints flows plan) (changed : Bool) :
    Prepared pipeline archGraph sortedStages endpoints flows { plan with changed := changed } where
  perm := h.perm
  endpoints_eq := h.endpoints_eq
  collected := h.collected
  unexpanded := h.unexpanded
  routes flow hflow := (h.routes flow hflow).congr rfl
  units := ⟨h.units.pinned, h.units.producer, h.units.consumer, h.units.distinct⟩

/-! ## Units of the hops -/

/-- The owners of all units that stages run on. -/
def ExpandState.OwnersComplete (state : ExpandState R) : Prop :=
  ∀ s ∈ state.pipeline.stages, ∀ unit, state.plan.unitOf s = some unit →
    state.unitOwner unit = some s

theorem addHop_ownersComplete {state state' : ExpandState R} {flow flow' : DataFlow R}
    {memory : Option R} {unit : R} (h : addHop state flow memory unit = .ok (state', flow'))
    (hcomplete : state.OwnersComplete) : state'.OwnersComplete := by
  obtain ⟨stage, -, ⟨rfl, -⟩ | ⟨hfree, rfl, pos, hpos, rfl⟩⟩ := addHop_cases h
  · exact hcomplete
  · intro s hs unit' hunit'
    rw [PathExpansionPlan.unitOf, stageInfo_withHopStage] at hunit'
    rw [unitOwner_withHopStage]
    rcases mem_withHopStage.mp hs with rfl | hs
    · rw [if_pos rfl] at hunit'
      cases hunit'
      exact if_pos rfl
    · rw [if_neg (Nat.ne_of_lt (state.pipeline.lt_nextRef s hs))] at hunit'
      have howner := hcomplete s hs unit' hunit'
      rw [if_neg]
      · exact howner
      · rintro rfl
        rw [hfree] at howner
        cases howner

/-- The loop over the original stages records the owner of every unit. -/
theorem initialOwner_ownersComplete {pipeline : StagePipeline R} {plan : PathExpansionPlan R}
    {sortedStages : List StageRef} {unitOwner : R → Option StageRef} {nextStageId : Nat}
    {flows : List (DataFlow R)}
    (h : sortedStages.foldlM (initialOwner plan) (fun _ => none) = .ok unitOwner)
    (hperm : sortedStages.Perm pipeline.stages)
    (hunits : UnitsAssigned archGraph plan flows pipeline.stages) :
    ExpandState.OwnersComplete ⟨pipeline, plan, unitOwner, fun _ => none, nextStageId⟩ := by
  have howned : ∀ s ∈ sortedStages, ∀ unit, plan.unitOf s = some unit → unitOwner unit = some s := by
    refine Except.foldlM_forall (Q := fun s (o : R → Option StageRef) =>
      ∀ unit, plan.unitOf s = some unit → o unit = some s) h fun owner stage hstage owner' hstep => ?_
    obtain ⟨info, hinfo, hstep⟩ := Except.bind_eq_ok.mp hstep
    rw [PathExpansionPlan.getStageInfo_eq_ok] at hinfo
    have hunit : plan.unitOf stage = info.applicableUnit := by
      rw [PathExpansionPlan.unitOf, hinfo, Option.bind_some]
    split at hstep
    · next hnone =>
        cases hstep
        refine ⟨fun _ _ h => h, fun unit hu => ?_⟩
        rw [hunit, hnone] at hu
        cases hu
    · next unit hsome =>
        cases hstep
        rw [hsome] at hunit
        refine ⟨fun s hs hown unit' hu => ?_, fun unit' hu => ?_⟩
        · rw [Function.update_apply]
          split
          · next heq =>
              subst heq
              rw [hunits.distinct s (hperm.mem_iff.mp hs) stage (hperm.mem_iff.mp hstage) _ hu hunit]
          · exact hown unit' hu
        · rw [hunit] at hu
          cases hu
          exact Function.update_self ..
  exact fun s hs => howned s (hperm.mem_iff.mpr hs)

/-! ## FIFOs across boundaries -/

/-- The stage that sends across boundary `k`. -/
def DataFlow.sender (flow : DataFlow R) (k : Nat) : Option StageRef :=
  if k = 0 then some flow.producer else flow.chain[k - 1]?

/-- The stage that receives at boundary `k`. -/
def DataFlow.receiver (flow : DataFlow R) (k : Nat) : Option StageRef :=
  if k = flow.chain.length then some flow.consumer else flow.chain[k]?

omit [DecidableEq R] in
theorem mem_resourcesOfKind {path : RoutingGraph.Path} {lo hi idx : Nat} {node : ResourceNode R}
    (hlo : lo ≤ idx) (hhi : idx < hi) (hnode : nodeAt archGraph path idx = some node) :
    node.resource ∈ resourcesOfKind archGraph path node.kind lo hi := by
  refine List.mem_filterMap.mpr ⟨node, List.mem_filterMap.mpr ⟨idx, ?_, hnode⟩, if_pos rfl⟩
  rw [List.mem_range'_1]
  omega

omit [DecidableEq R] in
/-- The nodes of a hop other than its memory are its unit. -/
theorem HopCovers.unit_eq {path : RoutingGraph.Path} {lo hi idx : Nat} {memory : Option R}
    {unit : R} (h : HopCovers archGraph path lo hi memory unit) {node : ResourceNode R}
    (hlo : lo ≤ idx) (hhi : idx < hi) (hnode : nodeAt archGraph path idx = some node)
    (hkind : node.kind ≠ .memory) : unit = node.resource := by
  have hmem := mem_resourcesOfKind hlo hhi hnode
  cases hk : node.kind with
  | memory => exact absurd hk hkind
  | compute =>
      rw [hk, h.computes] at hmem
      cases hmem
  | loadStoreUnit =>
      rw [hk, h.units] at hmem
      exact (List.mem_singleton.mp hmem).symm

/-- The ends of a flow are on the units of its two stages, where they are units. -/
structure EndsOnUnits (archGraph : RoutingGraph R) (plan : PathExpansionPlan R)
    (flow : DataFlow R) : Prop where
  producer : ∀ node, nodeAt archGraph flow.path flow.producerEnd = some node →
    node.kind ≠ .memory → plan.unitOf flow.producer = some node.resource
  consumer : ∀ node, nodeAt archGraph flow.path flow.consumerBegin = some node →
    node.kind ≠ .memory → plan.unitOf flow.consumer = some node.resource

theorem RouteEnds.endsOnUnits {plan : PathExpansionPlan R} {flow : DataFlow R}
    {flows : List (DataFlow R)} {stages : List StageRef} (h : RouteEnds archGraph plan flow)
    (hunits : UnitsAssigned archGraph plan flows stages) (hflow : flow ∈ flows)
    (hproducer : flow.producer ∈ stages) (hconsumer : flow.consumer ∈ stages) :
    EndsOnUnits archGraph plan flow where
  producer node hnode hkind := by
    rcases h.producerEnd with hend | ⟨node', hnode', hunit⟩
    · obtain ⟨node', hnode', hget, hresource⟩ := h.first
      rw [hend, hnode'] at hnode
      cases hnode
      rw [hunits.pinned _ hproducer node hget hkind, hresource]
    · rw [hnode'] at hnode
      cases hnode
      exact hunits.producer flow hflow _ hunit
  consumer node hnode hkind := by
    rcases h.consumerBegin with hend | ⟨node', hnode', hunit⟩
    · obtain ⟨node', hnode', hget, hresource⟩ := h.last
      rw [hend, hnode'] at hnode
      cases hnode
      rw [hunits.pinned _ hconsumer node hget hkind, hresource]
    · rw [hnode'] at hnode
      cases hnode
      exact hunits.consumer flow hflow _ hunit

omit [DecidableEq R] in
theorem unitOf_of_staffed {path : RoutingGraph.Path} {plan : PathExpansionPlan R}
    {stage : StageRef} {lo hi idx : Nat} (h : Staffed archGraph path plan stage lo hi)
    {node : ResourceNode R} (hlo : lo ≤ idx) (hhi : idx < hi)
    (hnode : nodeAt archGraph path idx = some node) (hkind : node.kind ≠ .memory) :
    plan.unitOf stage = some node.resource := by
  obtain ⟨info, unit, hinfo, hunit, hcovers⟩ := h
  rw [PathExpansionPlan.unitOf, hinfo, Option.bind_some, hunit,
    hcovers.unit_eq hlo hhi hnode hkind]

omit [DecidableEq R] in
/-- What `boundaryPlace` takes for a FIFO lies between two nodes that are no memories. -/
theorem boundaryPlace_eq_fifo {flow : DataFlow R} {k : Nat} {src dest : R}
    (h : boundaryPlace archGraph flow k = .ok (.fifo src dest)) :
    ∃ idx sender receiver, flow.boundaries[k]? = some idx ∧
      nodeAt archGraph flow.path (idx - 1) = some sender ∧ sender.kind ≠ .memory ∧
        sender.resource = src ∧ nodeAt archGraph flow.path idx = some receiver ∧
          receiver.kind ≠ .memory ∧ receiver.resource = dest := by
  unfold boundaryPlace at h
  split at h
  · cases h
  · next idx hidx =>
      obtain ⟨sender, hsender, h⟩ := Except.bind_eq_ok.mp h
      obtain ⟨receiver, hreceiver, h⟩ := Except.bind_eq_ok.mp h
      split at h
      · cases h
      · next hreceiverKind =>
          split at h
          · cases h
          · next hsenderKind =>
              cases h
              exact ⟨idx, sender, receiver, hidx, pathNode_eq_ok.mp hsender, hsenderKind, rfl,
                pathNode_eq_ok.mp hreceiver, hreceiverKind, rfl⟩

omit [DecidableEq R] in
/-- A FIFO across a boundary connects the units of the stages on either side. -/
theorem RouteCovered.fifo_units {plan : PathExpansionPlan R} {flow : DataFlow R}
    (h : RouteCovered archGraph plan flow) (hends : EndsOnUnits archGraph plan flow) {k : Nat}
    {src dest : R} (hplace : boundaryPlace archGraph flow k = .ok (.fifo src dest)) :
    (∃ sender, flow.sender k = some sender ∧ plan.unitOf sender = some src) ∧
      ∃ receiver, flow.receiver k = some receiver ∧ plan.unitOf receiver = some dest := by
  obtain ⟨idx, sender, receiver, hidx, hsender, hsenderKind, rfl, hreceiver, hreceiverKind, rfl⟩ :=
    boundaryPlace_eq_fifo hplace
  have hk := (List.getElem?_eq_some_iff.mp hidx).1
  have hcount := h.count
  constructor
  · cases k with
    | zero =>
        have hfirst := h.first
        rw [List.head?_eq_getElem?, hidx] at hfirst
        cases hfirst
        exact ⟨flow.producer, rfl, hends.producer sender hsender hsenderKind⟩
    | succ k =>
        have hstage := List.getElem?_eq_getElem (show k < flow.chain.length by omega)
        have hlo := List.getElem?_eq_getElem (show k < flow.boundaries.length by omega)
        have hlt : flow.boundaries[k] < idx := by
          obtain ⟨_, rfl⟩ := List.getElem?_eq_some_iff.mp hidx
          exact List.pairwise_iff_getElem.mp h.increasing _ _ _ _ (Nat.lt_succ_self k)
        refine ⟨flow.chain[k], hstage, ?_⟩
        exact unitOf_of_staffed (h.staffed k _ _ _ hstage hlo hidx) (by omega) (by omega) hsender
          hsenderKind
  · by_cases hlast : k = flow.chain.length
    · have hend := h.last
      have hget : flow.boundaries.length - 1 = k := by omega
      rw [List.getLast?_eq_getElem?, hget, hidx] at hend
      cases hend
      exact ⟨flow.consumer, if_pos hlast, hends.consumer receiver hreceiver hreceiverKind⟩
    · have hstage := List.getElem?_eq_getElem (show k < flow.chain.length by omega)
      have hhi := List.getElem?_eq_getElem (show k + 1 < flow.boundaries.length by omega)
      have hlt : idx < flow.boundaries[k + 1] := by
        obtain ⟨_, rfl⟩ := List.getElem?_eq_some_iff.mp hidx
        exact List.pairwise_iff_getElem.mp h.increasing _ _ _ _ (Nat.lt_succ_self k)
      refine ⟨flow.chain[k], (if_neg hlast).trans hstage, ?_⟩
      exact unitOf_of_staffed (h.staffed k _ _ _ hstage hidx hhi) (Nat.le_refl _) hlt hreceiver
        hreceiverKind

/-! ## The plan -/

/-- What adding the hop stages establishes. -/
structure Expanded (archGraph : RoutingGraph R) (pipeline : StagePipeline R)
    (flows : List (DataFlow R)) (plan : PathExpansionPlan R) : Prop where
  distinct : ∀ s ∈ pipeline.stages, ∀ t ∈ pipeline.stages, ∀ unit, plan.unitOf s = some unit →
    plan.unitOf t = some unit → s = t
  covered : ∀ flow ∈ flows, flow.chain ≠ [] → RouteCovered archGraph plan flow
  boundaries_nil : ∀ flow ∈ flows, flow.chain = [] → flow.boundaries = []
  ends : ∀ flow ∈ flows, EndsOnUnits archGraph plan flow

theorem expandDataFlows_expanded {pipeline pipeline' : StagePipeline R}
    {flows flows' : List (DataFlow R)} {sortedStages : List StageRef} {endpoints : FifoEndpoints R}
    {plan plan' : PathExpansionPlan R} {nextStageId : Nat}
    (h : expandDataFlows pipeline flows sortedStages archGraph plan nextStageId =
      .ok (pipeline', flows', plan'))
    (hprepared : Prepared pipeline archGraph sortedStages endpoints flows plan) :
    Expanded archGraph pipeline' flows' plan' := by
  obtain ⟨unitOwner, state, howner, hloop, rfl, rfl⟩ := expandDataFlows_eq_ok h
  obtain ⟨-, hext, hroutes, hhops⟩ := expandLoop_spec hloop
    (initialOwner_ownersRun howner fun s hs => hprepared.perm.mem_iff.mp hs) hprepared.unexpanded
  have hcomplete : state.OwnersComplete := expandLoop_induction hloop
    (initialOwner_ownersComplete howner hprepared.perm hprepared.units)
    fun _ _ _ _ _ _ hcomplete hadd => addHop_ownersComplete hadd hcomplete
  refine ⟨fun s hs t ht unit hsu htu => ?_, fun flow hflow hne => (hhops flow hflow hne).routeCovered,
    expandLoop_boundaries_nil hloop, fun flow' hflow' => ?_⟩
  · exact Option.some.inj ((hcomplete s hs unit hsu).symm.trans (hcomplete t ht unit htu))
  · obtain ⟨flow, hflow, chain, boundaries, rfl⟩ := hroutes.exists_of_mem_right hflow'
    have hunexpanded := hprepared.unexpanded flow hflow
    have hends := (hprepared.routes flow hflow).endsOnUnits hprepared.units hflow
      hunexpanded.producer_mem hunexpanded.consumer_mem
    have hsame : ∀ s ∈ pipeline.stages, state.plan.unitOf s = plan.unitOf s := by
      intro s hs
      rw [PathExpansionPlan.unitOf, hext.stageInfo s (pipeline.lt_nextRef s hs)]
      rfl
    refine ⟨fun node hnode hkind => ?_, fun node hnode hkind => ?_⟩
    · exact (hsame _ hunexpanded.producer_mem).trans (hends.producer node hnode hkind)
    · exact (hsame _ hunexpanded.consumer_mem).trans (hends.consumer node hnode hkind)

/-- What holds of the units in a plan: no two stages share one, and every FIFO across a boundary
connects the units of the stages that send and receive there. -/
structure UnitsAgree (archGraph : RoutingGraph R) (result : PlanResult R) : Prop where
  distinct : ∀ s ∈ result.pipeline.stages, ∀ t ∈ result.pipeline.stages, ∀ unit,
    result.plan.unitOf s = some unit → result.plan.unitOf t = some unit → s = t
  fifo : ∀ flow ∈ result.flows, ∀ k src dest,
    boundaryPlace archGraph flow k = .ok (.fifo src dest) →
      (∃ sender, flow.sender k = some sender ∧ result.plan.unitOf sender = some src) ∧
        ∃ receiver, flow.receiver k = some receiver ∧ result.plan.unitOf receiver = some dest

omit [DecidableEq R] in
theorem orderStages_mem {pipeline pipeline' : StagePipeline R}
    (h : orderStagesByDependencies pipeline = .ok pipeline') :
    ∀ s ∈ pipeline'.stages, s ∈ pipeline.stages := by
  unfold orderStagesByDependencies at h
  split at h
  · cases h
  · next ordered hordered =>
      cases h
      exact (placeLoop_perm hordered List.nodup_nil (by simp)).2.1

/-- **Units agree in every plan**: however the input pins stages and types FIFOs, and however hops
are shared, a plan that changed the pipeline gives each stage a unit of its own, and the FIFOs
across boundaries connect those units. -/
theorem planPathExpansion_unitsAgree {pipeline : StagePipeline R} {result : PlanResult R}
    (h : planPathExpansion pipeline archGraph = .ok result) (hchanged : result.plan.changed = true)
    (hclosed : ClosedUnder pipeline.dependencies pipeline.stages) :
    UnitsAgree archGraph result := by
  obtain ⟨⟨sortedStages, endpoints, flows, plan⟩, hprepare, h⟩ := Except.bind_eq_ok.mp h
  obtain ⟨needed, -, h⟩ := Except.bind_eq_ok.mp h
  have hprepared := prepare_spec hprepare hclosed
  split at h
  · unfold buildExpansionPlan at h
    split at h
    · cases h
    · obtain ⟨⟨pipeline₁, flows₁, plan₁⟩, hexpand, h⟩ := Except.bind_eq_ok.mp h
      obtain ⟨pipeline₂, horder, h⟩ := Except.bind_eq_ok.mp h
      obtain ⟨expandedStages, -, h⟩ := Except.bind_eq_ok.mp h
      obtain ⟨_, -, h⟩ := Except.bind_eq_ok.mp h
      obtain ⟨⟨state, _⟩, htransfers, h⟩ := Except.bind_eq_ok.mp h
      cases h
      have hexpanded := expandDataFlows_expanded hexpand (hprepared.setChanged true)
      obtain ⟨hunits, hflows⟩ := planTransfers_keepsUnits htransfers
      refine ⟨fun s hs t ht unit hsu htu => ?_, fun flow' hflow' k src dest hplace => ?_⟩
      · rw [hunits] at hsu htu
        exact hexpanded.distinct s (orderStages_mem horder s hs) t (orderStages_mem horder t ht)
          unit hsu htu
      · have hmem : flow'.withoutCarriers ∈ flows₁.map DataFlow.withoutCarriers :=
          hflows ▸ List.mem_map_of_mem hflow'
        obtain ⟨flow, hflow, hsame⟩ := List.mem_map.mp hmem
        have hplace₁ : boundaryPlace archGraph flow k = .ok (.fifo src dest) := by
          change boundaryPlace archGraph flow.withoutCarriers k = _
          rw [hsame]
          exact hplace
        have hchain : flow.chain ≠ [] := by
          intro hnil
          obtain ⟨_, _, _, hidx, -⟩ := boundaryPlace_eq_fifo hplace₁
          rw [hexpanded.boundaries_nil flow hflow hnil] at hidx
          cases hidx
        have hfifo := (hexpanded.covered flow hflow hchain).fifo_units (hexpanded.ends flow hflow)
          hplace₁
        rw [← hunits] at hfifo
        change (∃ sender, flow.withoutCarriers.sender k = some sender ∧ _) ∧
          ∃ receiver, flow.withoutCarriers.receiver k = some receiver ∧ _ at hfifo
        rw [hsame] at hfifo
        exact hfifo
  · cases h
    cases hchanged

/-- A memory, its load unit, a memory between, the load unit of that, and a compute unit. -/
def computeGraph : RoutingGraph Nat where
  nodes := [⟨0, 10, .memory⟩, ⟨1, 11, .loadStoreUnit⟩, ⟨2, 12, .memory⟩, ⟨3, 13, .loadStoreUnit⟩,
    ⟨4, 14, .compute⟩]
  edges := [⟨0, 1, 1⟩, ⟨1, 2, 1⟩, ⟨2, 3, 1⟩, ⟨3, 4, 1⟩]
  nodup_ids := by decide

/-- The one slot of a FIFO from memory 10 to compute unit 14. -/
def slotToCompute : Value Nat :=
  ⟨1, .fifoSlot (some 10) (some 14) (some 64) 0,
    .privateResult (some ⟨100, 0, some [.fifoSlot (some 10) (some 14) (some 64) 0]⟩)⟩

/-- Stage 0 loads a tile from memory 10 into the FIFO, stage 1 on unit 14 reads it. -/
def loadPipeline : StagePipeline Nat :=
  { relayPipeline with
    operation := fun s =>
      if s = 0 then some ⟨200, none, [.mk 0 (.dataTransfer
        ⟨⟨0, .memref [some 64] 0 (some 10), .otherResult⟩, [], [.const 64], none⟩
        ⟨slotToCompute, [], [], none⟩ .copy) []]⟩
      else if s = 1 then some ⟨201, some [some 14], [.mk 1 (.readFromFifo slotToCompute) []]⟩
      else none }

theorem planPathExpansion_unitsAgree_load :
    ∃ result, planPathExpansion loadPipeline computeGraph = .ok result ∧
      result.pipeline.stages = [0, 2, 1] ∧ UnitsAgree computeGraph result := by
  have heval : (planPathExpansion loadPipeline computeGraph).toOption.map
      (fun result => (result.pipeline.stages, result.plan.changed)) = some ([0, 2, 1], true) := by
    decide +kernel
  obtain ⟨result, hplan, hresult⟩ := Except.eq_ok_of_map_toOption heval
  rw [Prod.mk.injEq] at hresult
  exact ⟨result, hplan, hresult.1,
    planPathExpansion_unitsAgree hplan hresult.2 (by decide)⟩

end PathExpansion

end DataflowScheduler
