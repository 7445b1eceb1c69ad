import DataflowScheduler.Transforms.PathExpansion.Rewire

/-!
# Hops cover the routes

`expandDataFlows` splits the middle of each flow's path into hops and gives every hop a stage. The
hops of a flow follow one another without a gap, each stage runs on the load/store unit of its hop
and works on the memory there, and no stage takes two hops of a flow or is an end of it.

A round of the hop loop looks at two path nodes at most (`hopAt_spec`) and adds one stage
(`addHop_spec`); the run over all flows follows from what a round keeps.
-/

namespace DataflowScheduler

namespace PathExpansion

variable {R : Type} [DecidableEq R]

/-! ## The nodes of a hop -/

/-- The node at a path index. -/
def nodeAt (archGraph : RoutingGraph R) (path : RoutingGraph.Path) (i : Nat) :
    Option (ResourceNode R) := path[i]? >>= archGraph.getNode

/-- The resources of the nodes of one kind at path indices from `lo` up to `hi`. -/
def resourcesOfKind (archGraph : RoutingGraph R) (path : RoutingGraph.Path) (kind : ResourceKind)
    (lo hi : Nat) : List R :=
  ((List.range' lo (hi - lo)).filterMap (nodeAt archGraph path)).filterMap fun node =>
    if node.kind = kind then some node.resource else none

variable {archGraph : RoutingGraph R} {flow : DataFlow R} {path : RoutingGraph.Path} {i : Nat}

omit [DecidableEq R] in
theorem pathNode_eq_ok {node : ResourceNode R} :
    pathNode archGraph flow i = .ok node ↔ nodeAt archGraph flow.path i = some node := by
  unfold pathNode nodeAt
  cases flow.path[i]? with
  | none => simp
  | some id => cases hnode : archGraph.getNode id with
    | none => simp [hnode]
    | some node' => simp [hnode]

omit [DecidableEq R] in
theorem resourcesOfKind_one {node : ResourceNode R} (h : nodeAt archGraph path i = some node)
    (kind : ResourceKind) :
    resourcesOfKind archGraph path kind i (i + 1) =
      if node.kind = kind then [node.resource] else [] := by
  have hlen : i + 1 - i = 1 := by omega
  rw [resourcesOfKind, hlen, List.range'_one, List.filterMap_cons, List.filterMap_nil, h]
  by_cases hkind : node.kind = kind
  · simp [hkind]
  · simp [hkind]

omit [DecidableEq R] in
theorem resourcesOfKind_append {j k : Nat} (hij : i ≤ j) (hjk : j ≤ k) (kind : ResourceKind) :
    resourcesOfKind archGraph path kind i k =
      resourcesOfKind archGraph path kind i j ++ resourcesOfKind archGraph path kind j k := by
  have hlen : k - i = (j - i) + (k - j) := by omega
  have hmid : i + 1 * (j - i) = j := by omega
  rw [resourcesOfKind, resourcesOfKind, resourcesOfKind, hlen, ← List.range'_append, hmid,
    List.filterMap_append, List.filterMap_append]

omit [DecidableEq R] in
theorem resourcesOfKind_two {node next : ResourceNode R}
    (hnode : nodeAt archGraph path i = some node)
    (hnext : nodeAt archGraph path (i + 1) = some next) (kind : ResourceKind) :
    resourcesOfKind archGraph path kind i (i + 2) =
      (if node.kind = kind then [node.resource] else []) ++
        if next.kind = kind then [next.resource] else [] := by
  rw [resourcesOfKind_append (Nat.le_add_right i 1) (by omega), resourcesOfKind_one hnode,
    resourcesOfKind_one hnext]

/-- What a hop covers: one load/store unit, at most one memory, and nothing else. -/
structure HopCovers (archGraph : RoutingGraph R) (path : RoutingGraph.Path) (lo hi : Nat)
    (memory : Option R) (unit : R) : Prop where
  units : resourcesOfKind archGraph path .loadStoreUnit lo hi = [unit]
  memories : resourcesOfKind archGraph path .memory lo hi = memory.toList
  computes : resourcesOfKind archGraph path .compute lo hi = []

omit [DecidableEq R] in
theorem nextNode_eq_some {node : ResourceNode R}
    (h : nextNode archGraph flow i = .ok (some node)) :
    i < flow.middleEnd ∧ nodeAt archGraph flow.path i = some node := by
  unfold nextNode at h
  split at h
  · next hlt =>
      cases hpath : pathNode archGraph flow i with
      | error e => simp [hpath] at h
      | ok node' =>
          rw [hpath] at h
          cases h
          exact ⟨hlt, pathNode_eq_ok.mp hpath⟩
  · cases h

omit [DecidableEq R] in
/-- A hop starts at a load/store unit or its memory and stays within the middle of the path. -/
theorem hopAt_spec {memory : Option R} {unit : R} {width : Nat} (hi : i < flow.middleEnd)
    (h : hopAt archGraph flow i = .ok (memory, unit, width)) :
    HopCovers archGraph flow.path i (i + width) memory unit ∧ 0 < width ∧ i + width ≤ flow.middleEnd := by
  unfold hopAt at h
  obtain ⟨node, hnode, h⟩ := Except.bind_eq_ok.mp h
  obtain ⟨next, hnext, h⟩ := Except.bind_eq_ok.mp h
  rw [pathNode_eq_ok] at hnode
  have hone := resourcesOfKind_one hnode
  split at h
  · next second hkind =>
      obtain ⟨hle, hpath⟩ := nextNode_eq_some hnext
      have htwo := resourcesOfKind_two hnode hpath
      split at h
      · next hkind' =>
          cases h
          exact ⟨⟨by simp [htwo, hkind, hkind'], by simp [htwo, hkind, hkind'],
            by simp [htwo, hkind, hkind']⟩, by omega, hle⟩
      · cases h
  · cases h
  · next second hkind =>
      obtain ⟨hle, hpath⟩ := nextNode_eq_some hnext
      have htwo := resourcesOfKind_two hnode hpath
      split at h
      · next hkind' =>
          cases h
          exact ⟨⟨by simp [htwo, hkind, hkind'], by simp [htwo, hkind, hkind'],
            by simp [htwo, hkind, hkind']⟩, by omega, hle⟩
      · cases h
        exact ⟨⟨by simp [hone, hkind], by simp [hone, hkind], by simp [hone, hkind]⟩, by omega, hi⟩
  · next hkind =>
      cases h
      exact ⟨⟨by simp [hone, hkind], by simp [hone, hkind], by simp [hone, hkind]⟩, by omega, hi⟩
  · cases h

/-! ## Adding a hop -/

/-- What `createHopStage` leaves when it puts the new stage after `pos`. -/
def ExpandState.withHopStage (state : ExpandState R) (pos producer : StageRef) (memory : Option R)
    (unit : R) (hpos : pos ∈ state.pipeline.stages) : ExpandState R :=
  { pipeline := addStage state.pipeline pos state.nextStageId hpos
    plan := state.plan.setStageInfo state.pipeline.nextRef
      ⟨.syntheticTransfer, memory, [], some unit⟩
    unitOwner := Function.update state.unitOwner unit (some state.pipeline.nextRef)
    insertAfter := Function.update state.insertAfter producer (some state.pipeline.nextRef)
    nextStageId := state.nextStageId + 1 }

/-- Either the hop goes to the stage that runs on its unit, or to a new one. -/
theorem addHop_cases {state state' : ExpandState R} {flow' : DataFlow R} {memory : Option R}
    {unit : R} (h : addHop state flow memory unit = .ok (state', flow')) :
    ∃ stage, flow' = { flow with chain := flow.chain ++ [stage] } ∧
      ((state' = state ∧ state.unitOwner unit = some stage ∧ stage ≠ flow.producer ∧
          stage ≠ flow.consumer ∧ stage ∉ flow.chain ∧
          ∃ info, state.plan.stageInfo stage = some info ∧ info.stageResource = memory) ∨
        (state.unitOwner unit = none ∧ stage = state.pipeline.nextRef ∧
          ∃ pos hpos, state' = state.withHopStage pos flow.producer memory unit hpos)) := by
  unfold addHop at h
  split at h
  · next hnone =>
      obtain ⟨⟨state₁, synth⟩, hcreate, h⟩ := Except.bind_eq_ok.mp h
      cases h
      unfold createHopStage at hcreate
      dsimp only at hcreate
      split at hcreate
      · next hpos =>
          cases hcreate
          exact ⟨_, rfl, .inr ⟨hnone, rfl, _, hpos, rfl⟩⟩
      · cases hcreate
  · next owner howner =>
      split at h
      · cases h
      · next hfree =>
          obtain ⟨info, hinfo, h⟩ := Except.bind_eq_ok.mp h
          split at h
          · cases h
          · next hmemory =>
              cases h
              have hget := PathExpansionPlan.getStageInfo_eq_ok.mp hinfo
              rw [not_or, not_or] at hfree
              exact ⟨owner, rfl, .inl ⟨rfl, howner, hfree.1, hfree.2.1, hfree.2.2, info, hget,
                not_not.mp hmemory⟩⟩

/-- The stages so far stay, with what is planned for them. -/
structure ExpandState.Extends (state state' : ExpandState R) : Prop where
  nextRef_le : state.pipeline.nextRef ≤ state'.pipeline.nextRef
  stages : ∀ s ∈ state.pipeline.stages, s ∈ state'.pipeline.stages
  stageInfo : ∀ s < state.pipeline.nextRef, state'.plan.stageInfo s = state.plan.stageInfo s

omit [DecidableEq R] in
theorem ExpandState.Extends.refl (state : ExpandState R) : state.Extends state :=
  ⟨Nat.le_refl _, fun _ hs => hs, fun _ _ => rfl⟩

omit [DecidableEq R] in
theorem ExpandState.Extends.trans {state₁ state₂ state₃ : ExpandState R}
    (h₁₂ : state₁.Extends state₂) (h₂₃ : state₂.Extends state₃) : state₁.Extends state₃ where
  nextRef_le := Nat.le_trans h₁₂.nextRef_le h₂₃.nextRef_le
  stages s hs := h₂₃.stages s (h₁₂.stages s hs)
  stageInfo s hs :=
    (h₂₃.stageInfo s (Nat.lt_of_lt_of_le hs h₁₂.nextRef_le)).trans (h₁₂.stageInfo s hs)

/-- Every owner is a stage that runs on the unit it owns. -/
def ExpandState.OwnersRun (state : ExpandState R) : Prop :=
  ∀ unit s, state.unitOwner unit = some s → s ∈ state.pipeline.stages ∧
    ∃ info, state.plan.stageInfo s = some info ∧ info.applicableUnit = some unit

section HopStage

variable {state : ExpandState R} {pos producer : StageRef} {memory : Option R} {unit : R}
  {hpos : pos ∈ state.pipeline.stages}

theorem mem_withHopStage {s : StageRef} :
    s ∈ (state.withHopStage pos producer memory unit hpos).pipeline.stages ↔
      s = state.pipeline.nextRef ∨ s ∈ state.pipeline.stages :=
  (insertAfter_perm hpos).mem_iff.trans List.mem_cons

theorem stageInfo_withHopStage (s : StageRef) :
    (state.withHopStage pos producer memory unit hpos).plan.stageInfo s =
      if s = state.pipeline.nextRef then some ⟨.syntheticTransfer, memory, [], some unit⟩
      else state.plan.stageInfo s :=
  Function.update_apply _ _ _ _

theorem unitOwner_withHopStage (unit' : R) :
    (state.withHopStage pos producer memory unit hpos).unitOwner unit' =
      if unit' = unit then some state.pipeline.nextRef else state.unitOwner unit' :=
  Function.update_apply _ _ _ _

theorem extends_withHopStage :
    state.Extends (state.withHopStage pos producer memory unit hpos) where
  nextRef_le := Nat.le_succ _
  stages s hs := mem_withHopStage.mpr (.inr hs)
  stageInfo s hs := by rw [stageInfo_withHopStage, if_neg (Nat.ne_of_lt hs)]

theorem ownersRun_withHopStage (h : state.OwnersRun) :
    (state.withHopStage pos producer memory unit hpos).OwnersRun := by
  intro unit' s howner
  rw [unitOwner_withHopStage] at howner
  rw [mem_withHopStage, stageInfo_withHopStage]
  split at howner
  · next heq =>
      cases howner
      exact ⟨.inl rfl, _, if_pos rfl, heq ▸ rfl⟩
  · obtain ⟨hmem, info, hinfo, hunit⟩ := h unit' s howner
    rw [if_neg (Nat.ne_of_lt (state.pipeline.lt_nextRef s hmem))]
    exact ⟨.inr hmem, info, hinfo, hunit⟩

end HopStage

/-- The stage runs on the unit of the hop from `lo` to `hi` and works on its memory. -/
def Staffed (archGraph : RoutingGraph R) (path : RoutingGraph.Path) (plan : PathExpansionPlan R)
    (stage : StageRef) (lo hi : Nat) : Prop :=
  ∃ info unit, plan.stageInfo stage = some info ∧ info.applicableUnit = some unit ∧
    HopCovers archGraph path lo hi info.stageResource unit

/-- A hop gets a stage that is no end of the flow and has no other hop of it. -/
theorem addHop_spec {state state' : ExpandState R} {flow' : DataFlow R} {memory : Option R}
    {unit : R} (h : addHop state flow memory unit = .ok (state', flow'))
    (howners : state.OwnersRun) (hends : flow.producer < state.pipeline.nextRef ∧
      flow.consumer < state.pipeline.nextRef)
    (hchain : ∀ s ∈ flow.chain, s < state.pipeline.nextRef) :
    state'.OwnersRun ∧ state.Extends state' ∧
      ∃ stage, flow' = { flow with chain := flow.chain ++ [stage] } ∧ stage ≠ flow.producer ∧
        stage ≠ flow.consumer ∧ stage ∉ flow.chain ∧ stage < state'.pipeline.nextRef ∧
        ∃ info, state'.plan.stageInfo stage = some info ∧ info.applicableUnit = some unit ∧
          info.stageResource = memory := by
  obtain ⟨stage, rfl, ⟨rfl, howner, hproducer, hconsumer, hnew, info, hinfo, hmemory⟩ |
    ⟨-, rfl, pos, hpos, rfl⟩⟩ := addHop_cases h
  · obtain ⟨hmem, info', hinfo', hunit⟩ := howners unit stage howner
    cases hinfo.symm.trans hinfo'
    exact ⟨howners, .refl _, stage, rfl, hproducer, hconsumer, hnew,
      state'.pipeline.lt_nextRef stage hmem, info, hinfo, hunit, hmemory⟩
  · refine ⟨ownersRun_withHopStage howners, extends_withHopStage, _, rfl, Nat.ne_of_gt hends.1,
      Nat.ne_of_gt hends.2, fun hmem => Nat.lt_irrefl _ (hchain _ hmem), Nat.lt_succ_self _,
      ⟨.syntheticTransfer, memory, [], some unit⟩, ?_, rfl, rfl⟩
    rw [stageInfo_withHopStage, if_pos rfl]

/-! ## The hops of a flow -/

/-- The hops so far reach from the beginning of the middle to path index `i`. -/
structure HopsUpTo (archGraph : RoutingGraph R) (state : ExpandState R) (flow : DataFlow R)
    (i : Nat) : Prop where
  count : flow.boundaries.length = flow.chain.length + 1
  first : flow.boundaries.head? = some flow.middleBegin
  last : flow.boundaries.getLast? = some i
  increasing : flow.boundaries.Pairwise (· < ·)
  staffed : ∀ k stage lo hi, flow.chain[k]? = some stage → flow.boundaries[k]? = some lo →
    flow.boundaries[k + 1]? = some hi → Staffed archGraph flow.path state.plan stage lo hi
  nodup : flow.chain.Nodup
  notProducer : flow.producer ∉ flow.chain
  notConsumer : flow.consumer ∉ flow.chain
  allocated : ∀ s ∈ flow.producer :: flow.consumer :: flow.chain, s < state.pipeline.nextRef

namespace HopsUpTo

variable {state state' : ExpandState R}

omit [DecidableEq R] in
/-- Strictly increasing boundaries end with the largest. -/
theorem le_last (h : HopsUpTo archGraph state flow i) {b : Nat} (hb : b ∈ flow.boundaries) :
    b ≤ i := by
  obtain ⟨rest, hrest⟩ := List.getLast?_eq_some_iff.mp h.last
  have hinc := h.increasing
  rw [hrest, List.pairwise_append] at hinc
  rw [hrest, List.mem_append, List.mem_singleton] at hb
  rcases hb with hb | rfl
  · exact Nat.le_of_lt (hinc.2.2 b hb i (List.mem_singleton_self i))
  · exact Nat.le_refl _

omit [DecidableEq R] in
/-- What holds of the hops stays when stages are added. -/
theorem mono (h : HopsUpTo archGraph state flow i) (hext : state.Extends state') :
    HopsUpTo archGraph state' flow i where
  count := h.count
  first := h.first
  last := h.last
  increasing := h.increasing
  staffed k stage lo hi hstage hlo hhi := by
    obtain ⟨info, unit, hinfo, hrest⟩ := h.staffed k stage lo hi hstage hlo hhi
    have hlt := h.allocated stage (by simp [List.mem_of_getElem? hstage])
    exact ⟨info, unit, (hext.stageInfo stage hlt).trans hinfo, hrest⟩
  nodup := h.nodup
  notProducer := h.notProducer
  notConsumer := h.notConsumer
  allocated s hs := Nat.lt_of_lt_of_le (h.allocated s hs) hext.nextRef_le

omit [DecidableEq R] in
/-- One more hop. -/
theorem snoc (h : HopsUpTo archGraph state flow i) {stage : StageRef} {width : Nat}
    (hwidth : 0 < width) (hstage : Staffed archGraph flow.path state.plan stage i (i + width))
    (hproducer : stage ≠ flow.producer) (hconsumer : stage ≠ flow.consumer)
    (hnew : stage ∉ flow.chain) (halloc : stage < state.pipeline.nextRef) :
    HopsUpTo archGraph state
      { flow with
        chain := flow.chain ++ [stage]
        boundaries := flow.boundaries ++ [i + width] } (i + width) where
  count := by simp [h.count]
  first := by
    have hne : flow.boundaries ≠ [] := by
      rintro hnil
      have := h.count
      simp [hnil] at this
    rw [List.head?_append_of_ne_nil _ hne]
    exact h.first
  last := List.getLast?_concat ..
  increasing := by
    rw [List.pairwise_append]
    refine ⟨h.increasing, List.pairwise_singleton .., fun b hb b' hb' => ?_⟩
    rw [List.mem_singleton.mp hb']
    have := h.le_last hb
    omega
  staffed k s lo hi hs hlo hhi := by
    have hcount := h.count
    rw [List.getElem?_append] at hs hlo hhi
    by_cases hk : k < flow.chain.length
    · rw [if_pos hk] at hs
      rw [if_pos (by omega)] at hlo hhi
      exact h.staffed k s lo hi hs hlo hhi
    · -- The new hop is the last one.
      obtain rfl : k = flow.chain.length := by
        rw [if_neg hk, List.getElem?_singleton] at hs
        split at hs
        · omega
        · cases hs
      rw [if_neg (Nat.lt_irrefl _), Nat.sub_self] at hs
      rw [if_pos (by omega)] at hlo
      rw [if_neg (by omega), ← hcount, Nat.sub_self] at hhi
      have hlast := h.last
      rw [List.getLast?_eq_getElem?, hcount, Nat.add_sub_cancel, hlo] at hlast
      cases hs
      cases hhi
      cases hlast
      exact hstage
  nodup := by
    rw [List.nodup_append]
    refine ⟨h.nodup, List.nodup_singleton _, fun a ha b hb => ?_⟩
    rintro rfl
    exact hnew (List.mem_singleton.mp hb ▸ ha)
  notProducer := by simp [h.notProducer, Ne.symm hproducer]
  notConsumer := by simp [h.notConsumer, Ne.symm hconsumer]
  allocated s hs := by
    simp only [List.mem_cons, List.mem_append, List.not_mem_nil, or_false] at hs
    rcases hs with rfl | rfl | hs | rfl
    · exact h.allocated _ (by simp)
    · exact h.allocated _ (by simp)
    · exact h.allocated s (by simp [hs])
    · exact halloc

end HopsUpTo

/-- The flows differ in their hops at most. -/
def DataFlow.SameRoute (flow flow' : DataFlow R) : Prop :=
  ∃ chain boundaries, flow' = { flow with chain := chain, boundaries := boundaries }

/-- The hop loop reaches the end of the middle. -/
theorem hopLoop_spec {fuel : Nat} {state state' : ExpandState R} {flow' : DataFlow R}
    (h : hopLoop archGraph fuel i state flow = .ok (state', flow')) (howners : state.OwnersRun)
    (hhops : HopsUpTo archGraph state flow i) (hfuel : flow.middleEnd ≤ i + fuel)
    (hle : i ≤ flow.middleEnd) :
    state'.OwnersRun ∧ state.Extends state' ∧ flow.SameRoute flow' ∧
      HopsUpTo archGraph state' flow' flow.middleEnd := by
  induction fuel generalizing i state flow with
  | zero =>
      obtain rfl : i = flow.middleEnd := by omega
      cases h
      exact ⟨howners, .refl _, ⟨_, _, rfl⟩, hhops⟩
  | succ fuel ih =>
      rw [hopLoop] at h
      split at h
      · next hlt =>
          obtain ⟨⟨memory, unit, width⟩, hhop, h⟩ := Except.bind_eq_ok.mp h
          obtain ⟨⟨state₁, flow₁⟩, hadd, h⟩ := Except.bind_eq_ok.mp h
          obtain ⟨hcovers, hwidth, hend⟩ := hopAt_spec hlt hhop
          have halloc := hhops.allocated
          obtain ⟨howners₁, hext₁, stage, rfl, hproducer, hconsumer, hnew, hstage, info, hinfo,
            hunit, hmemory⟩ := addHop_spec hadd howners
              ⟨halloc _ (by simp), halloc _ (by simp)⟩ fun s hs => halloc s (by simp [hs])
          have hstaffed : Staffed archGraph flow.path state₁.plan stage i (i + width) :=
            ⟨info, unit, hinfo, hunit, hmemory ▸ hcovers⟩
          have hhops₁ := (hhops.mono hext₁).snoc hwidth hstaffed hproducer hconsumer hnew hstage
          obtain ⟨howners', hext', ⟨chain, boundaries, rfl⟩, hhops'⟩ := ih h howners₁ hhops₁
            (by change flow.middleEnd ≤ i + width + fuel; omega) hend
          exact ⟨howners', hext₁.trans hext', ⟨chain, boundaries, rfl⟩, hhops'⟩
      · obtain rfl : i = flow.middleEnd := by omega
        cases h
        exact ⟨howners, .refl _, ⟨_, _, rfl⟩, hhops⟩

/-! ## All flows -/

/-- A flow between stages of the pipeline that has no hops yet. -/
structure DataFlow.Unexpanded (pipeline : StagePipeline R) (flow : DataFlow R) : Prop where
  chain_nil : flow.chain = []
  boundaries_nil : flow.boundaries = []
  producer_mem : flow.producer ∈ pipeline.stages
  consumer_mem : flow.consumer ∈ pipeline.stages

/-- A flow gets hops over the whole middle of its path, or none. -/
theorem expandDataFlow_spec {state state' : ExpandState R} {flow' : DataFlow R}
    (h : expandDataFlow archGraph state flow = .ok (state', flow')) (howners : state.OwnersRun)
    (hflow : flow.Unexpanded state.pipeline) :
    state'.OwnersRun ∧ state.Extends state' ∧ flow.SameRoute flow' ∧
      (flow'.chain ≠ [] → HopsUpTo archGraph state' flow' flow'.middleEnd) := by
  unfold expandDataFlow at h
  obtain ⟨⟨state₁, flow₁⟩, hloop, h⟩ := Except.bind_eq_ok.mp h
  cases h
  by_cases hle : flow.middleBegin ≤ flow.middleEnd
  · have hstart : HopsUpTo archGraph state
        { flow with boundaries := flow.boundaries ++ [flow.middleBegin] } flow.middleBegin := by
      refine ⟨?_, ?_, List.getLast?_concat .., ?_, ?_, ?_, ?_, ?_, ?_⟩
      all_goals simp only [hflow.chain_nil, hflow.boundaries_nil]
      · rfl
      · rfl
      · exact List.pairwise_singleton ..
      · simp
      · exact List.nodup_nil
      · exact List.not_mem_nil
      · exact List.not_mem_nil
      · intro s hs
        simp only [List.mem_cons, List.not_mem_nil, or_false] at hs
        rcases hs with rfl | rfl
        · exact state.pipeline.lt_nextRef _ hflow.producer_mem
        · exact state.pipeline.lt_nextRef _ hflow.consumer_mem
    obtain ⟨howners', hext, ⟨chain, boundaries, rfl⟩, hhops⟩ := hopLoop_spec hloop howners hstart
      (by change flow.middleEnd ≤ _; omega) hle
    refine ⟨howners', hext, ?_, fun hne => ?_⟩
    · split
      · exact ⟨_, _, rfl⟩
      · exact ⟨_, _, rfl⟩
    · split
      · next hempty =>
          rw [if_pos hempty] at hne
          exact absurd (List.isEmpty_iff.mp hempty) hne
      · exact hhops
  · have hfuel : flow.middleEnd - flow.middleBegin = 0 := by omega
    rw [hfuel] at hloop
    cases hloop
    refine ⟨howners, .refl _, ?_, fun hne => ?_⟩
    · split
      · exact ⟨_, _, rfl⟩
      · exact ⟨_, _, rfl⟩
    · exfalso
      apply hne
      simp [hflow.chain_nil]

/-- What is planned for a flow: its hops cover the middle of its path. -/
structure RouteCovered (archGraph : RoutingGraph R) (plan : PathExpansionPlan R)
    (flow : DataFlow R) : Prop where
  count : flow.boundaries.length = flow.chain.length + 1
  first : flow.boundaries.head? = some flow.middleBegin
  last : flow.boundaries.getLast? = some flow.middleEnd
  increasing : flow.boundaries.Pairwise (· < ·)
  /-- Every index of the middle is in exactly one hop. -/
  covers : ∀ idx, flow.middleBegin ≤ idx → idx < flow.middleEnd →
    ∃! k, Boundaries.Inside flow.boundaries k idx
  /-- The stage of each hop runs on its unit and works on its memory. -/
  staffed : ∀ k stage lo hi, flow.chain[k]? = some stage → flow.boundaries[k]? = some lo →
    flow.boundaries[k + 1]? = some hi → Staffed archGraph flow.path plan stage lo hi
  nodup : flow.chain.Nodup
  notProducer : flow.producer ∉ flow.chain
  notConsumer : flow.consumer ∉ flow.chain

omit [DecidableEq R] in
theorem HopsUpTo.routeCovered {state : ExpandState R}
    (h : HopsUpTo archGraph state flow flow.middleEnd) :
    RouteCovered archGraph state.plan flow where
  count := h.count
  first := h.first
  last := h.last
  increasing := h.increasing
  covers _ hlo hhi := Boundaries.existsUnique_inside h.increasing h.first h.last hlo hhi
  staffed := h.staffed
  nodup := h.nodup
  notProducer := h.notProducer
  notConsumer := h.notConsumer

omit [DecidableEq R] in
theorem DataFlow.Unexpanded.mono {state state' : ExpandState R}
    (h : flow.Unexpanded state.pipeline) (hext : state.Extends state') :
    flow.Unexpanded state'.pipeline where
  chain_nil := h.chain_nil
  boundaries_nil := h.boundaries_nil
  producer_mem := hext.stages _ h.producer_mem
  consumer_mem := hext.stages _ h.consumer_mem

/-- Later flows leave the hops of a flow as they are. -/
theorem expandLoop_spec {flows flows' : List (DataFlow R)} {state state' : ExpandState R}
    (h : expandLoop archGraph state flows = .ok (state', flows')) (howners : state.OwnersRun)
    (hflows : ∀ flow ∈ flows, flow.Unexpanded state.pipeline) :
    state'.OwnersRun ∧ state.Extends state' ∧ List.Forall₂ DataFlow.SameRoute flows flows' ∧
      ∀ flow' ∈ flows', flow'.chain ≠ [] → HopsUpTo archGraph state' flow' flow'.middleEnd := by
  induction flows generalizing state flows' with
  | nil =>
      cases h
      exact ⟨howners, .refl _, .nil, by simp⟩
  | cons flow flows ih =>
      rw [expandLoop] at h
      obtain ⟨⟨state₁, flow₁⟩, hflow, h⟩ := Except.bind_eq_ok.mp h
      obtain ⟨⟨state₂, flows₂⟩, hrest, h⟩ := Except.bind_eq_ok.mp h
      cases h
      obtain ⟨howners₁, hext₁, hroute, hhops⟩ :=
        expandDataFlow_spec hflow howners (hflows flow List.mem_cons_self)
      obtain ⟨howners', hext₂, hroutes, hrest⟩ := ih hrest howners₁
        fun flow hmem => (hflows flow (List.mem_cons_of_mem _ hmem)).mono hext₁
      refine ⟨howners', hext₁.trans hext₂, .cons hroute hroutes, fun flow' hmem hne => ?_⟩
      rcases List.mem_cons.mp hmem with rfl | hmem
      · exact (hhops hne).mono hext₂
      · exact hrest flow' hmem hne

/-- The loop over the original stages records only stages on the units they run on. -/
theorem initialOwner_ownersRun {pipeline : StagePipeline R} {plan : PathExpansionPlan R}
    {stages : List StageRef} {unitOwner : R → Option StageRef} {nextStageId : Nat}
    (h : stages.foldlM (initialOwner plan) (fun _ => none) = .ok unitOwner)
    (hstages : ∀ s ∈ stages, s ∈ pipeline.stages) :
    ExpandState.OwnersRun ⟨pipeline, plan, unitOwner, fun _ => none, nextStageId⟩ := by
  refine Except.foldlM_induction (P := fun unitOwner =>
    ExpandState.OwnersRun ⟨pipeline, plan, unitOwner, fun _ => none, nextStageId⟩) h ?_ ?_
  · intro unit s howner
    cases howner
  · intro owner stage hstage owner' howner hstep
    obtain ⟨info, hinfo, hstep⟩ := Except.bind_eq_ok.mp hstep
    rw [PathExpansionPlan.getStageInfo_eq_ok] at hinfo
    split at hstep
    · cases hstep
      exact howner
    · next unit hunit =>
        cases hstep
        intro unit' s hs
        dsimp only at hs
        rw [Function.update_apply] at hs
        split at hs
        · next heq =>
            cases hs
            exact ⟨hstages _ hstage, info, hinfo, heq ▸ hunit⟩
        · exact howner unit' s hs

/-- What adding a hop keeps, expanding flows keeps. -/
theorem expandLoop_induction {P : ExpandState R → Prop} {flows flows' : List (DataFlow R)}
    {state state' : ExpandState R} (h : expandLoop archGraph state flows = .ok (state', flows'))
    (hstart : P state)
    (hstep : ∀ state flow memory unit state' flow', P state →
      addHop state flow memory unit = .ok (state', flow') → P state') : P state' := by
  have hhop : ∀ fuel i (state : ExpandState R) flow state' flow',
      hopLoop archGraph fuel i state flow = .ok (state', flow') → P state → P state' := by
    intro fuel
    induction fuel with
    | zero =>
        intro i state flow state' flow' h hP
        cases h
        exact hP
    | succ fuel ih =>
        intro i state flow state' flow' h hP
        rw [hopLoop] at h
        split at h
        · obtain ⟨⟨memory, unit, width⟩, -, h⟩ := Except.bind_eq_ok.mp h
          obtain ⟨⟨state₁, flow₁⟩, hadd, h⟩ := Except.bind_eq_ok.mp h
          exact ih _ _ _ _ _ h (hstep _ _ _ _ _ _ hP hadd)
        · cases h
          exact hP
  induction flows generalizing state flows' with
  | nil =>
      cases h
      exact hstart
  | cons flow flows ih =>
      rw [expandLoop] at h
      obtain ⟨⟨state₁, flow₁⟩, hflow, h⟩ := Except.bind_eq_ok.mp h
      obtain ⟨⟨state₂, flows₂⟩, hrest, h⟩ := Except.bind_eq_ok.mp h
      obtain ⟨⟨state₃, flow₃⟩, hloop, hflow⟩ := Except.bind_eq_ok.mp hflow
      cases hflow
      cases h
      exact ih hrest (hhop _ _ _ _ _ _ hloop hstart)

/-- A flow without hops has no boundaries. -/
theorem expandLoop_boundaries_nil {flows flows' : List (DataFlow R)} {state state' : ExpandState R}
    (h : expandLoop archGraph state flows = .ok (state', flows')) :
    ∀ flow ∈ flows', flow.chain = [] → flow.boundaries = [] := by
  induction flows generalizing state flows' with
  | nil =>
      cases h
      exact nofun
  | cons flow flows ih =>
      rw [expandLoop] at h
      obtain ⟨⟨state₁, flow₁⟩, hflow, h⟩ := Except.bind_eq_ok.mp h
      obtain ⟨⟨state₂, flows₂⟩, hrest, h⟩ := Except.bind_eq_ok.mp h
      obtain ⟨⟨state₃, flow₃⟩, -, hflow⟩ := Except.bind_eq_ok.mp hflow
      cases hflow
      cases h
      intro flow' hmem hnil
      rcases List.mem_cons.mp hmem with rfl | hmem
      · split at hnil
        · next hempty => rw [if_pos hempty]
        · next hempty => exact absurd (List.isEmpty_iff.mpr hnil) hempty
      · exact ih hrest flow' hmem hnil

/-- `expandDataFlows` runs the loop from the owners of the original stages, and rewires. -/
theorem expandDataFlows_eq_ok {pipeline pipeline' : StagePipeline R}
    {flows flows' : List (DataFlow R)} {sortedStages : List StageRef}
    {plan plan' : PathExpansionPlan R} {nextStageId : Nat}
    (h : expandDataFlows pipeline flows sortedStages archGraph plan nextStageId =
      .ok (pipeline', flows', plan')) :
    ∃ unitOwner state, sortedStages.foldlM (initialOwner plan) (fun _ => none) = .ok unitOwner ∧
      expandLoop archGraph ⟨pipeline, plan, unitOwner, fun _ => none, nextStageId⟩ flows =
        .ok (state, flows') ∧
      pipeline' = { state.pipeline with
        dependencies := rewireDependencies flows' state.pipeline.dependencies } ∧
      plan' = state.plan := by
  obtain ⟨unitOwner, howner, h⟩ := Except.bind_eq_ok.mp h
  obtain ⟨⟨state, flows₁⟩, hloop, h⟩ := Except.bind_eq_ok.mp h
  cases h
  exact ⟨unitOwner, state, howner, hloop, rfl, rfl⟩

/-- **The hops of every flow cover its route**: for all flows that `expandDataFlows` expands, in any
order and with stages shared between them. -/
theorem expandDataFlows_routeCovered {pipeline pipeline' : StagePipeline R}
    {flows flows' : List (DataFlow R)} {sortedStages : List StageRef}
    {plan plan' : PathExpansionPlan R} {nextStageId : Nat}
    (h : expandDataFlows pipeline flows sortedStages archGraph plan nextStageId =
      .ok (pipeline', flows', plan'))
    (hflows : ∀ flow ∈ flows, flow.Unexpanded pipeline)
    (hsorted : ∀ s ∈ sortedStages, s ∈ pipeline.stages) :
    ∀ flow ∈ flows', flow.chain ≠ [] → RouteCovered archGraph plan' flow := by
  obtain ⟨unitOwner, state, howner, hloop, -, rfl⟩ := expandDataFlows_eq_ok h
  obtain ⟨-, -, -, hhops⟩ := expandLoop_spec hloop (initialOwner_ownersRun howner hsorted) hflows
  intro flow hflow hne
  exact (hhops flow hflow hne).routeCovered

/-- A memory, its load unit, a memory between, the load unit of that, and a last memory. -/
def relayGraph : RoutingGraph Nat where
  nodes := [⟨0, 10, .memory⟩, ⟨1, 11, .loadStoreUnit⟩, ⟨2, 12, .memory⟩, ⟨3, 13, .loadStoreUnit⟩,
    ⟨4, 14, .memory⟩]
  edges := [⟨0, 1, 1⟩, ⟨1, 2, 1⟩, ⟨2, 3, 1⟩, ⟨3, 4, 1⟩]
  nodup_ids := by decide

/-- Two stages with nothing in them. -/
def relayPipeline : StagePipeline Nat where
  stages := [0, 1]
  operation := fun _ => none
  stageId := fun s => s
  dependencies := Function.update (fun _ => []) 0 [1]
  nextRef := 2
  nodup_stages := by decide
  lt_nextRef := by decide

/-- The producer runs on unit 11 and the consumer works on memory 14. -/
def relayPlan : PathExpansionPlan Nat where
  stageInfo := fun s =>
    if s = 0 then some ⟨.preserveOriginal, some 10, [], some 11⟩
    else if s = 1 then some ⟨.preserveOriginal, some 14, [], none⟩ else none
  specs := []
  transfers := []
  changed := false

/-- The flow between them, routed. -/
def relayFlow : DataFlow Nat :=
  { oneHopFlow with
    path := [0, 1, 2, 3, 4]
    producerEnd := 1
    consumerBegin := 4
    chain := []
    boundaries := [] }

theorem expandDataFlows_routeCovered_relay : ∃ result,
    expandDataFlows relayPipeline [relayFlow] [0, 1] relayGraph relayPlan 2 = .ok result ∧
      result.2.1.map DataFlow.chain = [[2]] ∧
      ∀ flow ∈ result.2.1, flow.chain ≠ [] → RouteCovered relayGraph result.2.2 flow := by
  have hflows : ∀ flow ∈ [relayFlow], flow.Unexpanded relayPipeline := by
    intro flow hflow
    rw [List.mem_singleton.mp hflow]
    exact ⟨rfl, rfl, by decide, by decide⟩
  have hsorted : ∀ s ∈ [0, 1], s ∈ relayPipeline.stages := by decide
  have hexpand : expandDataFlows relayPipeline [relayFlow] [0, 1] relayGraph relayPlan 2 =
      .ok (_, _, _) := rfl
  exact ⟨_, hexpand, rfl, expandDataFlows_routeCovered hexpand hflows hsorted⟩

end PathExpansion

end DataflowScheduler
