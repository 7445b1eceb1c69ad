import DataflowScheduler.Dialect.KTDF.Transforms.StageCoarsening.Corrections
import DataflowScheduler.Transforms.Utils.LegalizationRuns
import DataflowScheduler.Util.Acyclic

/-!
# Where the correction succeeds

In a legal tree a dependency is taken to a pipeline that contains both ends if one of the ends stands
directly in such a pipeline. If neither does, the dependency stays where it is, across pipelines.
-/

namespace StageCoarsening

open PipelineTreeLegalizer

variable {tree : List Tree} {a b p u v w : NodeId}

/-! ## Stages and their pipelines -/

/-- A stage and the pipeline that is its parent. -/
def StageOf (tree : List Tree) (a p : NodeId) : Prop :=
  ∃ i q above, (i, q :: above) ∈ nodesAround tree ∧ i.isStageNode = true ∧ i.name = some a ∧
    q.isPipelineNode = true ∧ q.name = some p

/-- The node `a` is the node `u` or is around it. -/
def IsAround (tree : List Tree) (a u : NodeId) : Prop :=
  a = u ∨ some a ∈ (ancestors tree u).map NodeInfo.name

/-- The stages `a` and `b` of the pipeline `p` are around `u` and `v`, and one of them is not only
around. -/
structure Carries (tree : List Tree) (u v p a b : NodeId) : Prop where
  source : StageOf tree a p
  sourceAround : IsAround tree a u
  sink : StageOf tree b p
  sinkAround : IsAround tree b v
  direct : a = u ∨ b = v

/-- The legal trees with names, whose dependencies lead to stages. -/
structure Ready (tree : List Tree) : Prop extends WellNamed tree where
  legal : Legal tree
  closed : ∀ u v, DependsOn tree u v → v ∈ allStages tree

/-- The parent of a stage of a legal tree is a pipeline. -/
theorem exists_pipeline_of_stage (h : Legal tree) {i : NodeInfo} {around : List NodeInfo}
    (hi : (i, around) ∈ nodesAround tree) (hstage : i.isStageNode = true) :
    ∃ q above, around = q :: above ∧ q.isPipelineNode = true := by
  obtain ⟨t, ht, hi⟩ := List.mem_flatMap.mp hi
  obtain ⟨⟨s, above⟩, hs, heq⟩ := List.mem_map.mp hi
  obtain ⟨rfl, rfl⟩ := Prod.mk.inj heq
  cases above with
  | nil =>
    rcases Rose.ancestors_of_mem hs with ⟨rfl, -⟩ | ⟨between, hbetween⟩
    · rw [h.root _ ht] at hstage
      cases hstage
    · simp at hbetween
  | cons q above =>
    refine ⟨q.label, above.map Rose.label, rfl, ?_⟩
    obtain ⟨hq, -⟩ := Rose.parent_mem_withAncestors hs (Nat.zero_le _)
    have hsubtree : q ∈ tree.flatMap Rose.subtrees := by
      refine List.mem_flatMap.mpr ⟨t, ht, ?_⟩
      rw [← Rose.map_fst_withAncestors []]
      exact List.mem_map_of_mem (f := Prod.fst) hq
    by_contra hpipeline
    have hnot := (h.nodes q hsubtree).stageParent (by simpa using hpipeline) s
      (Rose.mem_children_of_mem hs (Nat.zero_le _))
    rw [hnot] at hstage
    cases hstage

theorem mem_allStages : a ∈ allStages tree ↔
    ∃ i around, (i, around) ∈ nodesAround tree ∧ i.isStageNode = true ∧ i.name = some a := by
  unfold allStages
  rw [← nodesAround_fst]
  simp only [List.mem_filterMap, List.mem_filter, List.mem_map]
  constructor
  · rintro ⟨i, ⟨⟨s, hs, rfl⟩, hstage⟩, hname⟩
    exact ⟨s.1, s.2, hs, hstage, hname⟩
  · rintro ⟨i, around, hi, hstage, hname⟩
    exact ⟨i, ⟨⟨(i, around), hi, rfl⟩, hstage⟩, hname⟩

theorem mem_nodesAround_of_parent {i q : NodeInfo} {above : List NodeInfo}
    (h : (i, q :: above) ∈ nodesAround tree) : (q, above) ∈ nodesAround tree :=
  @mem_nodesAround_of_around tree i q [] above h

section Ready

variable (h : Ready tree)

include h

/-- Every stage has its pipeline. -/
theorem Ready.exists_stageOf (ha : a ∈ allStages tree) : ∃ p, StageOf tree a p := by
  obtain ⟨i, around, hi, hstage, hname⟩ := mem_allStages.mp ha
  obtain ⟨q, above, rfl, hq⟩ := exists_pipeline_of_stage h.legal hi hstage
  have hmem : q ∈ tree.flatMap Rose.preorder := by
    rw [← nodesAround_fst]
    exact List.mem_map_of_mem (f := Prod.fst) (mem_nodesAround_of_parent hi)
  obtain ⟨p, hp⟩ := Option.isSome_iff_exists.mp (h.named q hmem)
  exact ⟨p, i, q, above, hi, hstage, hname, hq, hp⟩

/-- The nodes around a stage are its pipeline and those around it. -/
theorem Ready.ancestors_stageOf (ha : StageOf tree a p) : ∃ q, ancestors tree a =
    q :: ancestors tree p ∧ (q, ancestors tree p) ∈ nodesAround tree ∧ q.isPipelineNode = true ∧
      q.name = some p := by
  obtain ⟨i, q, above, hi, -, hname, hq, hp⟩ := ha
  have hq' := mem_nodesAround_of_parent hi
  rw [h.ancestors_eq hi hname, h.ancestors_eq hq' hp]
  exact ⟨q, rfl, hq', hq, hp⟩

theorem Ready.getParentNode_stageOf (ha : StageOf tree a p) : getParentNode tree a = some p := by
  obtain ⟨q, hancestors, -, -, hp⟩ := h.ancestors_stageOf ha
  unfold getParentNode
  rw [hancestors]
  exact hp

/-- A stage has one pipeline. -/
theorem Ready.stageOf_unique {p' : NodeId} (ha : StageOf tree a p) (ha' : StageOf tree a p') :
    p = p' := by
  have heq := (h.getParentNode_stageOf ha).symm.trans (h.getParentNode_stageOf ha')
  exact Option.some.inj heq

/-- Two stages of a pipeline have the same nodes around them. -/
theorem Ready.ancestors_eq_of_stageOf (ha : StageOf tree a p) (hb : StageOf tree b p) :
    ancestors tree a = ancestors tree b := by
  obtain ⟨q, ha', hq, -, hp⟩ := h.ancestors_stageOf ha
  obtain ⟨q', hb', hq', -, hp'⟩ := h.ancestors_stageOf hb
  have hsame := h.eq hq hq' (hp.trans hp'.symm)
  rw [ha', hb', (Prod.mk.inj hsame).1]

/-- What is around a node that is around another is around that. -/
theorem Ready.isAround_trans (hab : IsAround tree a b) (hbv : IsAround tree b v) :
    IsAround tree a v := by
  rcases hbv with rfl | hbv
  · exact hab
  rcases hab with rfl | hab
  · exact Or.inr hbv
  obtain ⟨i, hi, hname⟩ := List.mem_map.mp hbv
  obtain ⟨between, above, hsplit⟩ := List.append_of_mem hi
  obtain ⟨x, -, hx⟩ := @exists_of_ancestors_ne_nil tree v
    (List.ne_nil_of_mem hi)
  rw [hsplit] at hx
  rw [h.ancestors_eq (mem_nodesAround_of_around hx) hname] at hab
  right
  rw [hsplit, List.map_append, List.map_cons]
  exact List.mem_append_right _ (List.mem_cons_of_mem _ hab)

/-- The nodes around `u` up to the stage `a` of the pipeline `p`. -/
theorem Ready.exists_split (ha : StageOf tree a p) (hau : some a ∈ (ancestors tree u).map NodeInfo.name) :
    ∃ between i q, ancestors tree u = between ++ i :: q :: ancestors tree p ∧
      i.isStageNode = true ∧ i.name = some a ∧ q.isPipelineNode = true ∧ q.name = some p := by
  obtain ⟨i', hi', hname'⟩ := List.mem_map.mp hau
  obtain ⟨between, above', hsplit⟩ := List.append_of_mem hi'
  obtain ⟨x, -, hx⟩ := @exists_of_ancestors_ne_nil tree u (List.ne_nil_of_mem hi')
  rw [hsplit] at hx
  obtain ⟨i, q, above, hi, hstage, hname, hq, hp⟩ := ha
  have hsame := h.eq (mem_nodesAround_of_around hx) hi (hname'.trans hname.symm)
  obtain ⟨rfl, rfl⟩ := Prod.mk.inj hsame
  rw [h.ancestors_eq (mem_nodesAround_of_parent hi) hp]
  exact ⟨between, i', q, hsplit, hstage, hname, hq, hp⟩

/-- A node is not around itself. -/
theorem Ready.ne_of_around (hau : some a ∈ (ancestors tree u).map NodeInfo.name) : a ≠ u := by
  rintro rfl
  obtain ⟨i, hi, hname⟩ := List.mem_map.mp hau
  obtain ⟨between, above, hsplit⟩ := List.append_of_mem hi
  obtain ⟨x, hxname, hx⟩ := @exists_of_ancestors_ne_nil tree a
    (List.ne_nil_of_mem hi)
  rw [hsplit] at hx
  have hsame := h.eq (mem_nodesAround_of_around hx) hx (hname.trans hxname.symm)
  have heq := congrArg (fun s => s.2.length) hsame
  simp at heq
  omega

/-- Around a node there is at most one stage of a pipeline. -/
theorem Ready.isAround_unique (ha : StageOf tree a p) (hau : IsAround tree a u)
    (hb : StageOf tree b p) (hbu : IsAround tree b u) : a = b := by
  have hlength : ∀ {a b : NodeId}, StageOf tree a p → StageOf tree b p →
      ¬some b ∈ (ancestors tree a).map NodeInfo.name := by
    intro a b ha hb hba
    obtain ⟨between, i, q, hsplit, -⟩ := h.exists_split hb hba
    obtain ⟨q', ha', -⟩ := h.ancestors_stageOf ha
    have heq := congrArg List.length (ha'.symm.trans hsplit)
    simp at heq
    omega
  rcases hau with rfl | hau <;> rcases hbu with rfl | hbu
  · rfl
  · exact absurd hbu (hlength ha hb)
  · exact absurd hau (hlength hb ha)
  · obtain ⟨between, i, q, hsplit, -, hi, -⟩ := h.exists_split ha hau
    obtain ⟨between', i', q', hsplit', -, hi', -⟩ := h.exists_split hb hbu
    obtain ⟨-, heq⟩ := List.append_inj' (hsplit.symm.trans hsplit') (by simp)
    rw [(List.cons.inj heq).1, hi'] at hi
    exact (Option.some.inj hi).symm

end Ready

/-! ## Depths -/

/-- How many of the nodes are pipelines. -/
def pipelinesIn (around : List NodeInfo) : Nat := around.countP NodeInfo.isPipelineNode

theorem buildDepthMap_eq (above : List Tree) (t : Tree) :
    buildDepthMap (pipelinesIn (above.map Rose.label)) t = (t.withAncestors above).filterMap fun s =>
      if s.1.label.isPipelineNode then some (s.1.label.name, pipelinesIn (s.2.map Rose.label))
      else none := by
  have hlist : ∀ (depth : Nat) (cs : List Tree),
      buildDepthMapList depth cs = cs.flatMap (buildDepthMap depth) := by
    intro depth cs
    induction cs with
    | nil => rfl
    | cons c cs ih => rw [buildDepthMapList, ih, List.flatMap_cons]
  induction t using Rose.induction generalizing above with
  | step i cs ih =>
    have hbelow : ∀ depth, depth = pipelinesIn ((Rose.node i cs :: above).map Rose.label) →
        buildDepthMapList depth cs = (cs.flatMap (Rose.withAncestors (.node i cs :: above))).filterMap
          fun s => if s.1.label.isPipelineNode then
            some (s.1.label.name, pipelinesIn (s.2.map Rose.label)) else none := by
      rintro depth rfl
      rw [hlist, List.filterMap_flatMap]
      exact List.flatMap_congr fun c hc => ih c hc _
    rw [buildDepthMap, Rose.withAncestors_node, List.filterMap_cons, Rose.label_node]
    by_cases hi : i.isPipelineNode = true
    · rw [if_pos hi, if_pos hi, hbelow _ (by simp [pipelinesIn, hi])]
    · rw [if_neg hi, if_neg hi, hbelow _ (by simp [pipelinesIn, hi])]

theorem buildDepthMapList_eq : buildDepthMapList 0 tree = (nodesAround tree).filterMap fun s =>
    if s.1.isPipelineNode then some (s.1.name, pipelinesIn s.2) else none := by
  have hlist : ∀ ts : List Tree, buildDepthMapList 0 ts = ts.flatMap (buildDepthMap 0) := by
    intro ts
    induction ts with
    | nil => rfl
    | cons t ts ih => rw [buildDepthMapList, ih, List.flatMap_cons]
  unfold nodesAround
  rw [hlist, List.filterMap_flatMap]
  apply List.flatMap_congr
  intro t _
  rw [List.filterMap_map]
  exact buildDepthMap_eq [] t

/-- The depth of a pipeline is the number of pipelines around it. -/
theorem WellNamed.pipelineToDepth (h : WellNamed tree) {q : NodeInfo} {above : List NodeInfo}
    (hq : (q, above) ∈ nodesAround tree) (hpipeline : q.isPipelineNode = true)
    (hp : q.name = some p) : pipelineToDepth tree (some p) = pipelinesIn above := by
  have hmem : (some p, pipelinesIn above) ∈ buildDepthMapList 0 tree := by
    rw [buildDepthMapList_eq]
    exact List.mem_filterMap.mpr ⟨(q, above), hq, by simp [hpipeline, hp]⟩
  have hunique : ∀ d, (some p, d) ∈ buildDepthMapList 0 tree → d = pipelinesIn above := by
    intro d hd
    rw [buildDepthMapList_eq] at hd
    obtain ⟨s, hs, hsome⟩ := List.mem_filterMap.mp hd
    split at hsome
    · obtain ⟨hname, rfl⟩ := Prod.mk.inj (Option.some.inj hsome)
      rw [h.eq hs hq (hname.trans hp.symm)]
    · cases hsome
  unfold StageCoarsening.pipelineToDepth
  cases hlookup : (buildDepthMapList 0 tree).lookup (some p) with
  | none =>
    have hnot := List.lookup_eq_none_iff.mp hlookup _ hmem
    simp at hnot
  | some d =>
    obtain ⟨l₁, l₂, hsplit, -⟩ := List.lookup_eq_some_iff.mp hlookup
    exact hunique d (by simp [hsplit])

section Ready

variable (h : Ready tree)

include h

theorem Ready.pipelineToDepth_stageOf (ha : StageOf tree a p) :
    pipelineToDepth tree (some p) = pipelinesIn (ancestors tree p) := by
  obtain ⟨q, -, hq, hpipeline, hp⟩ := h.ancestors_stageOf ha
  exact h.pipelineToDepth hq hpipeline hp

/-- The pipeline of a stage is deeper than that of a stage around it. -/
theorem Ready.depth_lt {p' : NodeId} (hv : StageOf tree v p') (hb : StageOf tree b p)
    (hbv : some b ∈ (ancestors tree v).map NodeInfo.name) :
    pipelineToDepth tree (some p) < pipelineToDepth tree (some p') := by
  rw [h.pipelineToDepth_stageOf hb, h.pipelineToDepth_stageOf hv]
  obtain ⟨between, i, q, hsplit, hi, -, hq, -⟩ := h.exists_split hb hbv
  obtain ⟨q', hancestors, -, hq', -⟩ := h.ancestors_stageOf hv
  rw [hancestors] at hsplit
  cases between with
  | nil =>
    -- A pipeline is no stage.
    obtain ⟨rfl, -⟩ := List.cons.inj hsplit
    simp only [NodeInfo.isStageNode, NodeInfo.isPipelineNode, decide_eq_true_eq] at hi hq'
    rw [hi] at hq'
    cases hq'
  | cons q'' between =>
    have hrest : ancestors tree p' = between ++ i :: q :: ancestors tree p :=
      (List.cons.inj hsplit).2
    rw [hrest]
    simp only [pipelinesIn, List.countP_append, List.countP_cons, hq, if_true]
    omega

/-- The search finds the stage of the pipeline. -/
theorem Ready.findStageAtPipeline_eq (hb : StageOf tree b p)
    (hbv : some b ∈ (ancestors tree v).map NodeInfo.name) :
    findStageAtPipeline (some p) (ancestors tree v) = some b := by
  have hfound : ∀ (between above : List NodeInfo) (i q : NodeInfo),
      (∀ j ∈ between, j.name.isSome = true) → i.isStageNode = true → i.name = some b →
        q.name = some p →
          ∃ w, findStageAtPipeline (some p) (between ++ i :: q :: above) = some w := by
    intro between above i q hnamed hi hname hq
    induction between with
    | nil =>
      refine ⟨b, ?_⟩
      rw [List.nil_append, findStageAtPipeline, if_pos (by simp [hi, hq]), hname]
    | cons j between ih =>
      rw [List.forall_mem_cons] at hnamed
      rw [List.cons_append, findStageAtPipeline]
      split
      · exact Option.isSome_iff_exists.mp hnamed.1
      · exact ih hnamed.2
  obtain ⟨between, i, q, hsplit, hi, hname, hpipeline, hq⟩ := h.exists_split hb hbv
  obtain ⟨x, -, hx⟩ := @exists_of_ancestors_ne_nil tree v (by simp [hsplit])
  have hnamed : ∀ j ∈ between, j.name.isSome = true := by
    intro j hj
    obtain ⟨before, after, rfl⟩ := List.append_of_mem hj
    rw [hsplit, List.append_assoc, List.cons_append] at hx
    apply h.named
    rw [← nodesAround_fst]
    exact List.mem_map_of_mem (f := Prod.fst) (mem_nodesAround_of_around hx)
  obtain ⟨w, hw⟩ := hfound between (ancestors tree p) i q hnamed hi hname hq
  rw [← hsplit] at hw
  obtain ⟨between', j, above, hsplit', hj, hjname, htarget⟩ := findStageAtPipeline_eq_some hw
  rw [hsplit'] at hx
  have hjmem := mem_nodesAround_of_around hx
  obtain ⟨q', above', rfl, hq'⟩ := exists_pipeline_of_stage h.legal hjmem hj
  have hwp : StageOf tree w p := ⟨j, q', above', hjmem, hj, hjname, hq', htarget⟩
  have hwv : some w ∈ (ancestors tree v).map NodeInfo.name := by
    rw [hsplit']
    simp [hjname]
  rw [hw, h.isAround_unique hwp (Or.inr hwv) hb (Or.inr hbv)]

/-- A dependency with an end that stands directly in a pipeline around the other is taken to that
pipeline. -/
theorem Ready.redirect_carries (hu : u ∈ allStages tree) (hv : v ∈ allStages tree)
    (hcarries : Carries tree u v p a b) : redirect tree u v = (a, b) := by
  obtain ⟨ha, hau, hb, hbv, hdirect⟩ := hcarries
  obtain ⟨pu, hpu⟩ := h.exists_stageOf hu
  obtain ⟨pv, hpv⟩ := h.exists_stageOf hv
  have hsame : a = u → b = v → redirect tree u v = (a, b) := by
    rintro rfl rfl
    apply redirect_of_same
    rw [h.getParentNode_stageOf ha, h.getParentNode_stageOf hb]
  unfold redirect at hsame ⊢
  rw [h.getParentNode_stageOf hpu, h.getParentNode_stageOf hpv] at hsame ⊢
  rcases hau with rfl | hau <;> rcases hbv with rfl | hbv
  · exact hsame rfl rfl
  · have hp := h.stageOf_unique hpu ha
    subst hp
    have hlt := h.depth_lt hpv hb hbv
    rw [if_neg (fun heq => Nat.ne_of_lt hlt (by rw [heq])), if_pos hlt,
      h.findStageAtPipeline_eq hb hbv]
    rfl
  · have hp := h.stageOf_unique hpv hb
    subst hp
    have hlt := h.depth_lt hpu ha hau
    rw [if_neg (fun heq => Nat.ne_of_gt hlt (by rw [heq])), if_neg (Nat.lt_asymm hlt), if_pos hlt,
      h.findStageAtPipeline_eq ha hau]
    rfl
  · -- One of the ends stands directly in the pipeline.
    rcases hdirect with rfl | rfl
    · exact absurd rfl (h.ne_of_around hau)
    · exact absurd rfl (h.ne_of_around hbv)

end Ready

/-! ## Corrected dependencies -/

/-- What the correction is for. Every dependency joins two stages of one pipeline, every dependency of
the tree is one between the stages around its ends, or its ends, in the pipeline where these differ,
those in one pipeline are kept, and no pipeline has a cycle. -/
structure DependenciesCorrected (tree : List Tree) (deps : Dependents) : Prop where
  samePipeline : ∀ a b, some b ∈ deps a → ∃ p, StageOf tree a p ∧ StageOf tree b p
  carried : ∀ u v, DependsOn tree u v → ∀ p a b, StageOf tree a p → IsAround tree a u →
    StageOf tree b p → IsAround tree b v → a ≠ b → some b ∈ deps a
  kept : ∀ u v p, DependsOn tree u v → StageOf tree u p → StageOf tree v p → some v ∈ deps u
  acyclic : ∀ p, Acyclic fun a b => StageOf tree a p ∧ StageOf tree b p ∧ some b ∈ deps a

/-- Every dependency has an end that stands directly in a pipeline around the other end. -/
def Reachable (tree : List Tree) : Prop :=
  ∀ u v, DependsOn tree u v → ∃ p a b, Carries tree u v p a b

/-- The dependencies between the stages of a pipeline, or between a stage and what is inside another,
have no cycle. -/
def AcyclicAround (tree : List Tree) : Prop :=
  ∀ p, Acyclic fun a b => ∃ u v, DependsOn tree u v ∧ Carries tree u v p a b

section Ready

variable (h : Ready tree)

include h

theorem Ready.dependsOn_stages (hD : DependsOn tree u v) :
    u ∈ allStages tree ∧ v ∈ allStages tree :=
  ⟨mem_allStages_of_dependsOn hD, h.closed u v hD⟩

theorem Ready.mem_of_carries (hD : DependsOn tree u v) (hcarries : Carries tree u v p a b) :
    some b ∈ correctStageDependencies tree a := by
  obtain ⟨hu, hv⟩ := h.dependsOn_stages hD
  rw [h.correctStageDependencies]
  exact ⟨u, v, hD, h.redirect_carries hu hv hcarries⟩

/-- Where every dependency can be taken to one pipeline, the corrected ones are those. -/
theorem Ready.mem_corrected_iff (hreach : Reachable tree) :
    some b ∈ correctStageDependencies tree a ↔
      ∃ u v p, DependsOn tree u v ∧ Carries tree u v p a b := by
  constructor
  · intro hb
    obtain ⟨u, v, hD, hr⟩ := (h.correctStageDependencies a b).mp hb
    obtain ⟨p, a', b', hcarries⟩ := hreach u v hD
    obtain ⟨hu, hv⟩ := h.dependsOn_stages hD
    obtain ⟨rfl, rfl⟩ := Prod.mk.inj ((h.redirect_carries hu hv hcarries).symm.trans hr)
    exact ⟨u, v, p, hD, hcarries⟩
  · rintro ⟨u, v, p, hD, hcarries⟩
    exact h.mem_of_carries hD hcarries

/-- A stage is around another in a pipeline further out, and then around the stages next to it. -/
theorem Ready.isAround_of_ne (hu : StageOf tree u p) (hb : StageOf tree b p)
    (hau : IsAround tree a u) (hne : a ≠ u) : IsAround tree a b := by
  rcases hau with rfl | hau
  · exact absurd rfl hne
  · rw [h.ancestors_eq_of_stageOf hu hb] at hau
    exact Or.inr hau

/-- The stages around two ends in a pipeline differ in no other pipeline. -/
theorem Ready.carries_unique {p' a' b' : NodeId} (hcarries : Carries tree u v p a b)
    (ha' : StageOf tree a' p') (hau' : IsAround tree a' u) (hb' : StageOf tree b' p')
    (hbv' : IsAround tree b' v) (hne : a' ≠ b') : a' = a ∧ b' = b := by
  obtain ⟨ha, hau, hb, hbv, hdirect⟩ := hcarries
  rcases hdirect with rfl | rfl
  · by_cases heq : a' = a
    · subst heq
      obtain rfl := h.stageOf_unique ha ha'
      exact ⟨rfl, h.isAround_unique hb' hbv' hb hbv⟩
    · have hab := h.isAround_trans (h.isAround_of_ne ha hb hau' heq) hbv
      exact absurd (h.isAround_unique ha' hab hb' hbv') hne
  · by_cases heq : b' = b
    · subst heq
      obtain rfl := h.stageOf_unique hb hb'
      exact ⟨h.isAround_unique ha' hau' ha hau, rfl⟩
    · have hba := h.isAround_trans (h.isAround_of_ne hb ha hbv' heq) hau
      exact absurd (h.isAround_unique ha' hau' hb' hba) hne

/-- **The correction of a legal tree.** -/
theorem Ready.dependenciesCorrected_iff :
    DependenciesCorrected tree (correctStageDependencies tree) ↔
      Reachable tree ∧ AcyclicAround tree := by
  constructor
  · intro hcorrected
    refine ⟨?_, ?_⟩
    · intro u v hD
      have hself : ∀ a b, redirect tree u v = (a, b) → ∃ p, StageOf tree a p ∧ StageOf tree b p :=
        fun a b hr => hcorrected.samePipeline a b
          ((h.correctStageDependencies a b).mpr ⟨u, v, hD, hr⟩)
      cases h.correction u v with
      | stays hr _ =>
        obtain ⟨p, hu, hv⟩ := hself _ _ hr
        exact ⟨p, u, v, hu, Or.inl rfl, hv, Or.inl rfl, Or.inl rfl⟩
      | newSink w _ haround _ hr _ =>
        obtain ⟨p, hu, hw⟩ := hself _ _ hr
        exact ⟨p, u, w, hu, Or.inl rfl, hw, Or.inr haround, Or.inl rfl⟩
      | newSource w _ haround _ hr _ =>
        obtain ⟨p, hw, hv⟩ := hself _ _ hr
        exact ⟨p, w, v, hw, Or.inr haround, hv, Or.inl rfl, Or.inr rfl⟩
    · intro p
      apply (hcorrected.acyclic p).mono
      rintro a b ⟨u, v, hD, hcarries⟩
      exact ⟨hcarries.source, hcarries.sink, h.mem_of_carries hD hcarries⟩
  · rintro ⟨hreach, hacyclic⟩
    constructor
    · intro a b hb
      obtain ⟨u, v, p, -, hcarries⟩ := (h.mem_corrected_iff hreach).mp hb
      exact ⟨p, hcarries.source, hcarries.sink⟩
    · intro u v hD p a b ha hau hb hbv hne
      obtain ⟨p', a', b', hcarries⟩ := hreach u v hD
      obtain ⟨rfl, rfl⟩ := h.carries_unique hcarries ha hau hb hbv hne
      exact h.mem_of_carries hD hcarries
    · intro u v p hD hu hv
      exact h.mem_of_carries (p := p) hD ⟨hu, Or.inl rfl, hv, Or.inl rfl, Or.inl rfl⟩
    · intro p
      apply (hacyclic p).mono
      rintro a b ⟨ha, -, hb⟩
      obtain ⟨u, v, p', hD, hcarries⟩ := (h.mem_corrected_iff hreach).mp hb
      obtain rfl := h.stageOf_unique ha hcarries.source
      exact ⟨u, v, hD, hcarries⟩

end Ready

end StageCoarsening
