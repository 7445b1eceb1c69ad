import DataflowScheduler.Util.Acyclic
import DataflowScheduler.Util.Lists
import DataflowScheduler.Dialect.KTDF.GlobalStageDAG

/-!
# Edges between the first and the last stages of a nest

What the global stage DAG is for: every hand-over between two stages of a pipeline is an edge from
each last stage under the producer to each first stage under the consumer. `buildGlobalStageDAG`
looks for these in the pipeline that a walk meets first, which is the leftmost of the innermost ones,
and knows only the last producer of a token; the edges are the right ones exactly where that does not
matter.
-/

namespace DataflowScheduler

namespace KTDF

open Relation (TransGen)

/-! ## Token edges -/

/-- The last stage that outputs a token. -/
def lastProducer (stages : List StageOp) (token : Token) : Option StageOp :=
  stages.reverse.find? fun stage => token ∈ stage.dependsOut

theorem lastProducer_spec {stages : List StageOp} {token : Token} {stage : StageOp}
    (h : lastProducer stages token = some stage) :
    stage ∈ stages ∧ token ∈ stage.dependsOut := by
  refine ⟨List.mem_reverse.mp (List.mem_of_find?_eq_some h), ?_⟩
  simpa using List.find?_some h

theorem foldl_update_apply (tokens : List Token) (id : StageId) (map : Token → Option StageId)
    (token : Token) : tokens.foldl (fun map t => Function.update map t (some id)) map token =
      if token ∈ tokens then some id else map token := by
  induction tokens generalizing map with
  | nil => rfl
  | cons t tokens ih =>
      rw [List.foldl_cons, ih, Function.update_apply]
      by_cases hmem : token ∈ tokens
      · simp [hmem]
      · simp [hmem]

/-- The map of producers knows the last one of each token. -/
theorem tokenProducerMap_eq (stages : List StageOp) (token : Token) :
    tokenProducerMap stages token = (lastProducer stages token).map StageOp.id := by
  induction stages using List.reverseRecOn with
  | nil => rfl
  | append_singleton stages stage ih =>
      rw [tokenProducerMap, List.foldl_append, List.foldl_cons, List.foldl_nil,
        foldl_update_apply, lastProducer, List.reverse_append, List.reverse_singleton,
        List.singleton_append]
      by_cases hmem : token ∈ stage.dependsOut
      · rw [if_pos hmem, List.find?_cons_of_pos (by simpa using hmem)]
        rfl
      · rw [if_neg hmem, List.find?_cons_of_neg (by simpa using hmem)]
        exact ih

/-- The consumer awaits a token whose last producer is the given one. -/
def AwaitsLast (stages : List StageOp) (producer consumer : StageOp) : Prop :=
  ∃ token ∈ consumer.dependsIn, lastProducer stages token = some producer

theorem mem_tokenEdges {stages : List StageOp} {p c : StageId} : (p, c) ∈ tokenEdges stages ↔
    ∃ s ∈ stages, ∃ t ∈ stages, AwaitsLast stages s t ∧ s.id = p ∧ t.id = c := by
  constructor
  · intro h
    obtain ⟨t, ht, h⟩ := List.mem_flatMap.mp h
    obtain ⟨token, htoken, h⟩ := List.mem_filterMap.mp h
    rw [tokenProducerMap_eq, Option.map_map, Option.map_eq_some_iff] at h
    obtain ⟨s, hs, h⟩ := h
    cases h
    exact ⟨s, (lastProducer_spec hs).1, t, ht, ⟨token, htoken, hs⟩, rfl, rfl⟩
  · rintro ⟨s, -, t, ht, ⟨token, htoken, hlast⟩, rfl, rfl⟩
    refine List.mem_flatMap.mpr ⟨t, ht, List.mem_filterMap.mpr ⟨token, htoken, ?_⟩⟩
    rw [tokenProducerMap_eq, hlast]
    rfl

/-- The tokens of a pipeline order its stages. -/
def TokensAcyclic (stages : List StageOp) : Prop :=
  Acyclic fun producer consumer => (producer, consumer) ∈ tokenEdges stages

/-! ### The analysis succeeds -/

/-- The nodes that have not been visited. -/
def whites (stages : List StageOp) (color : Colors) : Nat :=
  stages.countP fun stage => color stage.id = .white

theorem whites_le (stages : List StageOp) {color color' : Colors}
    (h : ∀ s, color' s = .white → color s = .white) : whites stages color' ≤ whites stages color :=
  List.countP_mono_left fun stage _ hs => by simpa using h stage.id (by simpa using hs)

theorem whites_update_lt {stages : List StageOp} {color : Colors} {op : StageId}
    (hop : op ∈ stages.map StageOp.id) (hwhite : color op = .white) :
    whites stages (Function.update color op .gray) < whites stages color := by
  obtain ⟨stage, hstage, rfl⟩ := List.mem_map.mp hop
  obtain ⟨before, after, rfl⟩ := List.append_of_mem hstage
  have hle : ∀ s, Function.update color stage.id .gray s = .white → color s = .white := by
    intro s hs
    rw [Function.update_apply] at hs
    split at hs
    · cases hs
    · exact hs
  have hbefore := whites_le before hle
  have hafter := whites_le after hle
  simp only [whites, List.countP_append, List.countP_cons, Function.update_self, hwhite,
    decide_true, if_true] at hbefore hafter ⊢
  simp only [reduceCtorEq, decide_false, Bool.false_eq_true, if_false]
  omega

/-- What a visit does to the colours: no node becomes white or gray, and no gray node changes. -/
structure Visited (color color' : Colors) : Prop where
  white : ∀ s, color' s = .white → color s = .white
  gray : ∀ s, color' s = .gray ↔ color s = .gray

theorem Visited.refl (color : Colors) : Visited color color := ⟨fun _ h => h, fun _ => Iff.rfl⟩

theorem Visited.trans {color₁ color₂ color₃ : Colors} (h₁₂ : Visited color₁ color₂)
    (h₂₃ : Visited color₂ color₃) : Visited color₁ color₃ :=
  ⟨fun s hs => h₁₂.white s (h₂₃.white s hs), fun s => (h₂₃.gray s).trans (h₁₂.gray s)⟩

/-- On an acyclic graph a visit finds no cycle: the gray nodes are those on the path to the node. -/
theorem visit_eq_some {stages : List StageOp} {successors : StageId → List StageId}
    (hmem : ∀ p, ∀ c ∈ successors p, c ∈ stages.map StageOp.id)
    (hacyclic : Acyclic fun p c => c ∈ successors p) {fuel : Nat} {color : Colors} {op : StageId}
    (hop : op ∈ stages.map StageOp.id) (hwhite : color op = .white)
    (hfuel : whites stages color ≤ fuel)
    (hgray : ∀ s, color s = .gray → TransGen (fun p c => c ∈ successors p) s op) :
    ∃ color', visit successors fuel color op = some color' ∧ Visited color color' := by
  induction fuel generalizing color op with
  | zero =>
      have := whites_update_lt hop hwhite
      omega
  | succ fuel ih =>
      have hlt := whites_update_lt hop hwhite
      obtain ⟨c, hc, hvisited⟩ : ∃ c, (successors op).foldlM
          (visitSuccessor (visit successors fuel)) (Function.update color op .gray) = some c ∧
            Visited (Function.update color op .gray) c := by
        refine List.foldlM_eq_some (Visited.refl _) fun c succ hsucc hc => ?_
        have hpath : ∀ s, c s = .gray → TransGen (fun p c => c ∈ successors p) s succ := by
          intro s hs
          rw [hc.gray, Function.update_apply] at hs
          split at hs
          · next heq => exact heq ▸ .single hsucc
          · exact (hgray s hs).tail hsucc
        unfold visitSuccessor
        cases hcolor : c succ with
        | gray => exact absurd (hpath succ hcolor) (hacyclic succ)
        | white =>
            have hle := whites_le stages hc.white
            obtain ⟨c', hc', hvisited⟩ := ih (hmem op succ hsucc) hcolor (by omega) hpath
            exact ⟨c', hc', hc.trans hvisited⟩
        | black => exact ⟨c, rfl, hc⟩
      refine ⟨Function.update c op .black, ?_, fun s hs => ?_, fun s => ?_⟩
      · rw [visit, hc]
        rfl
      · rw [Function.update_apply] at hs
        split at hs
        · cases hs
        · next hne =>
            have := hvisited.white s hs
            rwa [Function.update_of_ne hne] at this
      · rw [Function.update_apply]
        split
        · next heq => simp [heq, hwhite]
        · next hne => rw [hvisited.gray, Function.update_of_ne hne]

/-- The entries of a graph are the given edges, at both ends. -/
structure StageDependencyDAG.HasEdges (dag : StageDependencyDAG)
    (edge : StageId → StageId → Prop) : Prop where
  successors : ∀ p c, c ∈ dag.successors p ↔ edge p c
  predecessors : ∀ p c, p ∈ dag.predecessors c ↔ edge p c

theorem StageDependencyDAG.HasEdges.foldl_addEdge {dag : StageDependencyDAG}
    {edge : StageId → StageId → Prop} (h : dag.HasEdges edge) (edges : List (StageId × StageId)) :
    (edges.foldl addEdge dag).HasEdges fun p c => edge p c ∨ (p, c) ∈ edges where
  successors p c := by rw [(mem_foldl_addEdge ..).1, h.successors]
  predecessors p c := by rw [(mem_foldl_addEdge ..).2, h.predecessors]

theorem StageDependencyDAG.hasEdges_empty : empty.HasEdges fun _ _ => False :=
  ⟨fun _ _ => List.mem_nil_iff _, fun _ _ => List.mem_nil_iff _⟩

/-- Where tokens order the stages, the analysis finds their edges. -/
theorem analyzeStageDependencies_eq_some {stages : List StageOp} (h : TokensAcyclic stages) :
    ∃ dag, analyzeStageDependencies stages = some dag ∧
      dag.HasEdges fun p c => (p, c) ∈ tokenEdges stages := by
  have hedges := StageDependencyDAG.hasEdges_empty.foldl_addEdge (tokenEdges stages)
  simp only [false_or] at hedges
  refine ⟨_, ?_, hedges⟩
  unfold analyzeStageDependencies
  generalize (tokenEdges stages).foldl StageDependencyDAG.addEdge .empty = dag at hedges
  have hmem : ∀ p, ∀ c ∈ dag.successors p, c ∈ stages.map StageOp.id := by
    intro p c hc
    obtain ⟨_, -, t, ht, -, -, rfl⟩ := mem_tokenEdges.mp ((hedges.successors p c).mp hc)
    exact List.mem_map_of_mem ht
  have hacyclic : Acyclic fun p c => c ∈ dag.successors p := by
    simp only [hedges.successors]
    exact h
  -- Nothing is gray between the visits of stages.
  obtain ⟨color, hcolor, -⟩ := List.foldlM_eq_some
    (f := visitStage dag.successors stages.length) (P := fun color => ∀ s, color s ≠ .gray)
      (b := fun _ => .white) (l := stages) (by simp) fun color stage hstage hgray => by
    unfold visitStage
    split
    · next hwhite =>
        obtain ⟨color', hvisit, hvisited⟩ := visit_eq_some hmem hacyclic
          (List.mem_map_of_mem hstage) hwhite List.countP_le_length fun s hs => absurd hs (hgray s)
        exact ⟨color', hvisit, fun s hs => hgray s ((hvisited.gray s).mp hs)⟩
    · exact ⟨color, rfl, hgray⟩
  dsimp only
  rw [hcolor]
  rfl

/-! ## First and last stages -/

/-- A stage outputs a token that another one awaits. -/
def HandsOver (producer consumer : StageOp) : Prop :=
  producer.id ≠ consumer.id ∧ ∃ token ∈ producer.dependsOut, token ∈ consumer.dependsIn

instance (producer consumer : StageOp) : Decidable (HandsOver producer consumer) :=
  inferInstanceAs (Decidable (_ ∧ ∃ token ∈ producer.dependsOut, token ∈ consumer.dependsIn))

/-- The stages at one end of what is under a stage: the stage itself if no pipeline is nested in it,
else those under the stages of its outermost pipelines that have no `next` stage there. -/
inductive EndUnder (next : StageOp → StageOp → Prop) : StageOp → StageId → Prop
  | self {stage : StageOp} (h : stage.body.outermost = []) : EndUnder next stage stage.id
  | nested {stage : StageOp} {pipeline : Region} {inner : StageOp} {i : StageId}
      (hpipeline : pipeline ∈ stage.body.outermost) (hinner : inner ∈ pipeline.directStages)
      (hend : ∀ other ∈ pipeline.directStages, ¬ next inner other)
      (h : EndUnder next inner i) : EndUnder next stage i

/-- The last stages under a stage. -/
abbrev LastUnder : StageOp → StageId → Prop := EndUnder HandsOver

/-- The first stages under a stage. -/
abbrev FirstUnder : StageOp → StageId → Prop := EndUnder fun s t => HandsOver t s

namespace EndUnder

variable {next : StageOp → StageOp → Prop} {stage : StageOp} {i : StageId}

theorem mem_stageIds (h : EndUnder next stage i) : i ∈ stage.stageIds := by
  induction h with
  | self => exact List.mem_cons_self
  | nested hpipeline hinner _ _ ih =>
      exact List.mem_cons_of_mem _ ((Region.sublist_pipelines
        (Region.outermost_subset hpipeline)).subset ((Region.sublist_directStages hinner).subset ih))

theorem iff_of_outermost_eq_nil (h : stage.body.outermost = []) :
    EndUnder next stage i ↔ i = stage.id := by
  constructor
  · intro hi
    cases hi with
    | self => rfl
    | nested hpipeline =>
        rw [h] at hpipeline
        cases hpipeline
  · rintro rfl
    exact .self h

/-- Under one stage of an outermost pipeline. -/
theorem iff_inner (hnd : stage.stageIds.Nodup) {pipeline : Region} {inner : StageOp}
    (hpipeline : pipeline ∈ stage.body.outermost) (hinner : inner ∈ pipeline.directStages)
    (hi : i ∈ inner.stageIds) : EndUnder next stage i ↔
      (∀ other ∈ pipeline.directStages, ¬ next inner other) ∧ EndUnder next inner i := by
  constructor
  · intro h
    cases h with
    | self hnil =>
        rw [hnil] at hpipeline
        cases hpipeline
    | @nested _ pipeline' inner' _ hpipeline' hinner' hend h =>
        have hbody := hnd.of_cons
        have hsame := Region.outermost_eq hbody hpipeline hpipeline'
          ((Region.sublist_directStages hinner).subset hi)
          ((Region.sublist_directStages hinner').subset h.mem_stageIds)
        subst hsame
        have hinnerSame := Region.directStages_eq
          (hbody.sublist (Region.sublist_pipelines (Region.outermost_subset hpipeline))) hinner
          hinner' hi h.mem_stageIds
        subst hinnerSame
        exact ⟨hend, h⟩
  · exact fun h => .nested hpipeline hinner h.1 h.2

/-- An innermost pipeline with one stage at the end has all its own at the end. -/
theorem iff_of_innermost (hnd : stage.stageIds.Nodup) {pipeline : Region}
    (hpipeline : pipeline ∈ stage.body.pipelines) (hinnermost : pipeline.pipelines = [])
    (h : EndUnder next stage i) (hi : i ∈ pipeline.stageIds) {s : StageOp}
    (hs : s ∈ pipeline.directStages) :
    EndUnder next stage s.id ↔ ∀ t ∈ pipeline.directStages, ¬ next s t := by
  have hsid : s.id ∈ pipeline.stageIds := (Region.sublist_directStages hs).subset List.mem_cons_self
  induction h with
  | self hnil =>
      rw [Region.outermost_eq_nil.mp hnil] at hpipeline
      cases hpipeline
  | @nested stage outer inner i houter hinner hend h ih =>
      obtain ⟨outer', houter', hin⟩ := Region.mem_pipelines_iff.mp hpipeline
      have hndOuter := hnd.of_cons.sublist (Region.sublist_pipelines (Region.outermost_subset houter))
      have hsame : outer = outer' := by
        refine Region.outermost_eq hnd.of_cons houter houter'
          ((Region.sublist_directStages hinner).subset h.mem_stageIds) ?_
        rcases hin with rfl | hin
        · exact hi
        · exact (Region.sublist_pipelines hin).subset hi
      subst hsame
      rcases hin with rfl | hin
      · have hnil : s.body.outermost = [] := by
          refine List.eq_nil_iff_forall_not_mem.mpr fun p hp => ?_
          have := Region.pipelines_of_stage hs (Region.outermost_subset hp)
          rw [hinnermost] at this
          cases this
        rw [iff_inner hnd houter hs List.mem_cons_self]
        exact and_iff_left (.self hnil)
      · have hin' := Region.pipelines_stage_of_mem hndOuter hinner hin hi h.mem_stageIds
        rw [iff_inner hnd houter hinner (List.mem_cons_of_mem _
          ((Region.sublist_pipelines hin').subset hsid)), and_iff_right hend]
        exact ih (hndOuter.sublist (Region.sublist_directStages hinner)) hin' hi

end EndUnder

/-! ### What the analysis finds -/

theorem innermost_of_head? {region pipeline : Region}
    (h : region.pipelines.head? = some pipeline) : pipeline.pipelines = [] := by
  induction region with
  | nil => cases h
  | cons kind body rest ihBody ihRest =>
      rw [Region.pipelines_cons] at h
      cases hbody : body.pipelines with
      | cons p ps =>
          rw [hbody] at h ihBody
          exact ihBody h
      | nil =>
          rw [hbody, List.nil_append] at h
          split at h
          · cases h
            exact hbody
          · exact ihRest h

/-- One of the two ends: where the analysis looks for neighbours, which stages come next, and which
it knows to come next. -/
structure Side where
  neighbors : StageDependencyDAG → StageId → List StageId
  next : StageOp → StageOp → Prop
  known : List StageOp → StageOp → StageOp → Prop
  mem_neighbors : ∀ {stages : List StageOp} {dag : StageDependencyDAG},
    dag.HasEdges (fun p c => (p, c) ∈ tokenEdges stages) → ∀ {p c : StageId},
      c ∈ neighbors dag p ↔ ∃ s ∈ stages, ∃ t ∈ stages, known stages s t ∧ s.id = p ∧ t.id = c
  next_of_known : ∀ {stages : List StageOp}, TokensAcyclic stages → ∀ {s t : StageOp},
    s ∈ stages → t ∈ stages → known stages s t → next s t
  exists_end : ∀ {stages : List StageOp}, TokensAcyclic stages → stages ≠ [] →
    ∃ s ∈ stages, ∀ t ∈ stages, ¬ known stages s t

theorem handsOver_of_awaitsLast {stages : List StageOp} (hacyclic : TokensAcyclic stages)
    {s t : StageOp} (hs : s ∈ stages) (ht : t ∈ stages) (h : AwaitsLast stages s t) :
    HandsOver s t := by
  refine ⟨fun heq => ?_, ?_⟩
  · exact hacyclic s.id (.single (mem_tokenEdges.mpr ⟨s, hs, t, ht, h, rfl, heq.symm⟩))
  · obtain ⟨token, htoken, hlast⟩ := h
    exact ⟨token, (lastProducer_spec hlast).2, htoken⟩

/-- Where the leaves are. -/
def Side.leaves : Side where
  neighbors := StageDependencyDAG.successors
  next := HandsOver
  known := AwaitsLast
  mem_neighbors h _ _ := by rw [h.successors, mem_tokenEdges]
  next_of_known := handsOver_of_awaitsLast
  exists_end {stages} hacyclic hne := by
    obtain ⟨i, hi, hlast⟩ := hacyclic.exists_last (l := stages.map StageOp.id) (by simpa using hne)
    obtain ⟨s, hs, rfl⟩ := List.mem_map.mp hi
    exact ⟨s, hs, fun t ht h => hlast t.id (List.mem_map_of_mem ht)
      (mem_tokenEdges.mpr ⟨s, hs, t, ht, h, rfl, rfl⟩)⟩

/-- Where the roots are. -/
def Side.roots : Side where
  neighbors := StageDependencyDAG.predecessors
  next s t := HandsOver t s
  known stages s t := AwaitsLast stages t s
  mem_neighbors h p c := by
    rw [h.predecessors, mem_tokenEdges]
    constructor
    · rintro ⟨s, hs, t, ht, hlast, hc, hp⟩
      exact ⟨t, ht, s, hs, hlast, hp, hc⟩
    · rintro ⟨s, hs, t, ht, hlast, hp, hc⟩
      exact ⟨t, ht, s, hs, hlast, hc, hp⟩
  next_of_known hacyclic _ _ hs ht h := handsOver_of_awaitsLast hacyclic ht hs h
  exists_end {stages} hacyclic hne := by
    obtain ⟨i, hi, hfirst⟩ := hacyclic.exists_first (l := stages.map StageOp.id) (by simpa using hne)
    obtain ⟨s, hs, rfl⟩ := List.mem_map.mp hi
    exact ⟨s, hs, fun t ht h => hfirst t.id (List.mem_map_of_mem ht)
      (mem_tokenEdges.mpr ⟨t, ht, s, hs, h, rfl, rfl⟩)⟩

section Side

variable (side : Side) {stage : StageOp}

theorem getEndStages_of_nil (h : stage.body.pipelines = []) :
    getEndStages side.neighbors stage = [stage.id] := by
  have hnone : stage.nestedPipeline = none := by rw [StageOp.nestedPipeline, h]; rfl
  rw [getEndStages]
  split
  · rfl
  · next hsome =>
      rw [hnone] at hsome
      cases hsome

/-- The analysis takes the ends of the pipeline it meets first. -/
theorem mem_getEndStages {pipeline : Region} (hfirst : stage.nestedPipeline = some pipeline)
    (hacyclic : TokensAcyclic pipeline.directStages) (hnd : pipeline.stageIds.Nodup)
    {i : StageId} : i ∈ getEndStages side.neighbors stage ↔ ∃ s ∈ pipeline.directStages,
      (∀ t ∈ pipeline.directStages, ¬ side.known pipeline.directStages s t) ∧ s.id = i := by
  obtain ⟨dag, hdag, hedges⟩ := analyzeStageDependencies_eq_some hacyclic
  have hinner : ∀ s ∈ pipeline.directStages, getEndStages side.neighbors s = [s.id] := by
    intro s hs
    refine getEndStages_of_nil side (List.eq_nil_iff_forall_not_mem.mpr fun p hp => ?_)
    have := Region.pipelines_of_stage hs hp
    rw [innermost_of_head? hfirst] at this
    cases this
  have hnone : ∀ s ∈ pipeline.directStages, (side.neighbors dag s.id).isEmpty ↔
      ∀ t ∈ pipeline.directStages, ¬ side.known pipeline.directStages s t := by
    intro s hs
    rw [List.isEmpty_iff, List.eq_nil_iff_forall_not_mem]
    simp only [side.mem_neighbors hedges]
    constructor
    · exact fun h t ht hknown => h t.id ⟨s, hs, t, ht, hknown, rfl, rfl⟩
    · rintro h c ⟨s', hs', t, ht, hknown, hid, -⟩
      have hsame := Region.directStages_eq hnd hs' hs (i := s.id) (hid ▸ List.mem_cons_self)
        List.mem_cons_self
      exact h t ht (hsame ▸ hknown)
  rw [getEndStages]
  split
  · next hsome =>
      rw [hfirst] at hsome
      cases hsome
  · next pipeline' hsome =>
      rw [hfirst] at hsome
      cases hsome
      rw [hdag]
      simp only [List.mem_flatMap, List.mem_attach, true_and, Subtype.exists]
      refine exists_congr fun s => ?_
      constructor
      · rintro ⟨hs, hi⟩
        split at hi
        · next hempty =>
            rw [hinner s hs, List.mem_singleton] at hi
            exact ⟨hs, (hnone s hs).mp hempty, hi.symm⟩
        · cases hi
      · rintro ⟨hs, hend, rfl⟩
        refine ⟨hs, ?_⟩
        rw [if_pos ((hnone s hs).mpr hend), hinner s hs]
        exact List.mem_cons_self

/-- The walk meets a pipeline without stages first. -/
def StageOp.MeetsEmpty (stage : StageOp) : Prop :=
  ∃ pipeline, stage.nestedPipeline = some pipeline ∧ pipeline.directStages = []

/-- What it takes for the stages at one end to be those of the pipeline that the walk meets first. -/
structure EndsIn (side : Side) (stage : StageOp) (pipeline : Region) : Prop where
  /-- No other pipeline has a stage at the end. -/
  all : ∀ i, EndUnder side.next stage i → i ∈ pipeline.directStages.map StageOp.id
  /-- The pipeline has one, if it has stages. -/
  exists_end : pipeline.directStages ≠ [] → ∃ i, EndUnder side.next stage i
  /-- Where a stage of the pipeline has a next one, the last producers of tokens tell so. -/
  known : ∀ s ∈ pipeline.directStages, ∀ t ∈ pipeline.directStages, side.next s t →
    ∃ t' ∈ pipeline.directStages, side.known pipeline.directStages s t'

/-- All stages at one end under a stage are in the pipeline that the walk meets first. -/
def EndsFound (side : Side) (stage : StageOp) : Prop :=
  ∀ pipeline, stage.nestedPipeline = some pipeline → EndsIn side stage pipeline

/-- What is needed of a stage: stages occur once in it, and tokens order those of its pipelines. -/
structure StageOp.Ordered (stage : StageOp) : Prop where
  nodup : stage.stageIds.Nodup
  acyclic : ∀ pipeline ∈ stage.body.pipelines, TokensAcyclic pipeline.directStages

theorem getEndStages_sublist (h : stage.Ordered) {i : StageId}
    (hi : i ∈ getEndStages side.neighbors stage) : i ∈ stage.stageIds := by
  cases hfirst : stage.nestedPipeline with
  | none =>
      rw [getEndStages_of_nil side (List.head?_eq_none_iff.mp hfirst), List.mem_singleton] at hi
      exact hi ▸ List.mem_cons_self
  | some pipeline =>
      have hpipeline := List.mem_of_mem_head? hfirst
      have hsub := Region.sublist_pipelines hpipeline
      obtain ⟨s, hs, -, rfl⟩ := (mem_getEndStages side hfirst (h.acyclic _ hpipeline)
        (h.nodup.of_cons.sublist hsub)).mp hi
      exact List.mem_cons_of_mem _ (hsub.subset
        ((Region.sublist_directStages hs).subset List.mem_cons_self))

/-- The ends are found exactly if they are where the analysis looks. -/
theorem mem_getEndStages_iff_endUnder (h : stage.Ordered) :
    (∀ i, i ∈ getEndStages side.neighbors stage ↔ EndUnder side.next stage i) ↔
      EndsFound side stage := by
  cases hfirst : stage.nestedPipeline with
  | none =>
      have hnil := List.head?_eq_none_iff.mp hfirst
      refine iff_of_true (fun i => ?_) (fun _ hsome => by rw [hfirst] at hsome; cases hsome)
      rw [getEndStages_of_nil side hnil, List.mem_singleton,
        EndUnder.iff_of_outermost_eq_nil (Region.outermost_eq_nil.mpr hnil)]
  | some pipeline =>
      have hpipeline := List.mem_of_mem_head? hfirst
      have hacyclic := h.acyclic _ hpipeline
      have hnd := h.nodup.of_cons.sublist (Region.sublist_pipelines hpipeline)
      have hid : ∀ {s}, s ∈ pipeline.directStages → s.id ∈ pipeline.stageIds :=
        fun hs => (Region.sublist_directStages hs).subset List.mem_cons_self
      have hends : ∀ {i s}, EndUnder side.next stage i → i ∈ pipeline.stageIds →
          s ∈ pipeline.directStages → (EndUnder side.next stage s.id ↔
            ∀ t ∈ pipeline.directStages, ¬ side.next s t) := fun hi hmem hs =>
        hi.iff_of_innermost h.nodup hpipeline (innermost_of_head? hfirst) hmem hs
      simp only [mem_getEndStages side hfirst hacyclic hnd]
      constructor
      · rintro hiff pipeline' hsome
        rw [hfirst] at hsome
        cases hsome
        refine ⟨fun i hi => ?_, fun hne => ?_, fun s hs t ht hnext => ?_⟩
        · obtain ⟨s, hs, -, rfl⟩ := (hiff i).mpr hi
          exact List.mem_map_of_mem hs
        · obtain ⟨s, hs, hend⟩ := side.exists_end hacyclic hne
          exact ⟨s.id, (hiff s.id).mp ⟨s, hs, hend, rfl⟩⟩
        · by_contra hknown
          rw [not_exists] at hknown
          have hend := (hiff s.id).mp ⟨s, hs, fun t' ht' hk => hknown t' ⟨ht', hk⟩, rfl⟩
          exact (hends hend (hid hs) hs).mp hend t ht hnext
      · intro hfound i
        have hin := hfound pipeline hfirst
        constructor
        · rintro ⟨s, hs, hend, rfl⟩
          obtain ⟨i, hi⟩ := hin.exists_end (List.ne_nil_of_mem hs)
          obtain ⟨s', hs', rfl⟩ := List.mem_map.mp (hin.all i hi)
          refine (hends hi (hid hs') hs).mpr fun t ht hnext => ?_
          obtain ⟨t', ht', hknown⟩ := hin.known s hs t ht hnext
          exact hend t' ht' hknown
        · intro hi
          obtain ⟨s, hs, rfl⟩ := List.mem_map.mp (hin.all i hi)
          refine ⟨s, hs, fun t ht hknown => ?_, rfl⟩
          exact (hends hi (hid hs) hs).mp hi t ht (side.next_of_known hacyclic hs ht hknown)

theorem getEndStages_eq_nil_iff (h : stage.Ordered) :
    (∀ i, i ∉ getEndStages side.neighbors stage) ↔ stage.MeetsEmpty := by
  cases hfirst : stage.nestedPipeline with
  | none =>
      refine iff_of_false (fun hnot => hnot stage.id ?_) ?_
      · rw [getEndStages_of_nil side (List.head?_eq_none_iff.mp hfirst)]
        exact List.mem_cons_self
      · rintro ⟨_, hsome, -⟩
        rw [hfirst] at hsome
        cases hsome
  | some pipeline =>
      have hpipeline := List.mem_of_mem_head? hfirst
      have hacyclic := h.acyclic _ hpipeline
      have hnd := h.nodup.of_cons.sublist (Region.sublist_pipelines hpipeline)
      simp only [mem_getEndStages side hfirst hacyclic hnd]
      constructor
      · intro hnot
        refine ⟨pipeline, hfirst, ?_⟩
        by_contra hne
        obtain ⟨s, hs, hend⟩ := side.exists_end hacyclic hne
        exact hnot s.id ⟨s, hs, hend, rfl⟩
      · rintro ⟨_, hsome, hnil⟩ i ⟨s, hs, -⟩
        rw [hfirst] at hsome
        cases hsome
        rw [hnil] at hs
        cases hs

end Side

/-! ## The edges of a nest -/

/-- A nest of pipelines, in which every stage occurs once. -/
structure Nest where
  root : Region
  nodup_stageIds : root.stageIds.Nodup

/-- The edges there should be: from the last stages under a stage to the first stages under another
one of its pipeline that it hands over to. -/
def StageEdge (root : Region) (leaf first : StageId) : Prop :=
  ∃ pipeline ∈ root.pipelines, ∃ s ∈ pipeline.directStages, ∃ t ∈ pipeline.directStages,
    HandsOver s t ∧ LastUnder s leaf ∧ FirstUnder t first

/-- The edges that are stitched at a token edge of a pipeline. -/
def StitchedEdge (pipeline : Region) (leaf root : StageId) : Prop :=
  ∃ s ∈ pipeline.directStages, ∃ t ∈ pipeline.directStages,
    AwaitsLast pipeline.directStages s t ∧ leaf ∈ getLeafStages s ∧ root ∈ getRootStages t

/-- `buildGlobalStageDAG` stitches the edges of each pipeline. -/
theorem addPipeline_eq_some {pipeline : Region} (hacyclic : TokensAcyclic pipeline.directStages)
    (hnd : pipeline.stageIds.Nodup) {dag : StageDependencyDAG} {edge : StageId → StageId → Prop}
    (hdag : dag.HasEdges edge) : ∃ dag', addPipeline dag pipeline = some dag' ∧
      dag'.HasEdges fun leaf root => edge leaf root ∨ StitchedEdge pipeline leaf root := by
  unfold addPipeline
  split
  · next hempty =>
      rw [List.isEmpty_iff] at hempty
      refine ⟨dag, rfl, ?_⟩
      have hnone : ∀ leaf root, ¬ StitchedEdge pipeline leaf root := by
        rintro leaf root ⟨s, hs, -⟩
        rw [hempty] at hs
        cases hs
      simpa only [hnone, or_false] using hdag
  · obtain ⟨localDag, hlocal, hedges⟩ := analyzeStageDependencies_eq_some hacyclic
    rw [hlocal]
    refine ⟨_, rfl, ?_⟩
    have hmem : ∀ leaf root, (leaf, root) ∈ pipeline.directStages.flatMap
        (stitchedEdges pipeline.directStages localDag) ↔ StitchedEdge pipeline leaf root := by
      -- A stage is found again by its identity.
      have hfind : ∀ t ∈ pipeline.directStages,
          (pipeline.directStages.find? fun stage => stage.id = t.id) = some t := by
        intro t ht
        have hsome : (pipeline.directStages.find? fun stage => stage.id = t.id).isSome := by
          rw [List.find?_isSome]
          exact ⟨t, ht, by simp⟩
        obtain ⟨t', ht'⟩ := Option.isSome_iff_exists.mp hsome
        have hid : t'.id = t.id := by simpa using List.find?_some ht'
        rw [ht', Region.directStages_eq hnd (List.mem_of_find?_eq_some ht') ht
          (hid ▸ List.mem_cons_self) List.mem_cons_self]
      intro leaf root
      simp only [List.mem_flatMap, stitchedEdges, hedges.successors, mem_tokenEdges]
      constructor
      · rintro ⟨s, hs, c, ⟨s', hs', t, ht, hlast, hid, rfl⟩, h⟩
        have hsame := Region.directStages_eq hnd hs' hs (i := s.id) (hid ▸ List.mem_cons_self)
          List.mem_cons_self
        subst hsame
        rw [hfind t ht] at h
        obtain ⟨leaf', hleaf, h⟩ := List.mem_flatMap.mp h
        obtain ⟨root', hroot, h⟩ := List.mem_map.mp h
        cases h
        exact ⟨s', hs, t, ht, hlast, hleaf, hroot⟩
      · rintro ⟨s, hs, t, ht, hlast, hleaf, hroot⟩
        refine ⟨s, hs, t.id, ⟨s, hs, t, ht, hlast, rfl, rfl⟩, ?_⟩
        rw [hfind t ht]
        exact List.mem_flatMap.mpr ⟨leaf, hleaf, List.mem_map.mpr ⟨root, hroot, rfl⟩⟩
    have := hdag.foldl_addEdge (pipeline.directStages.flatMap
      (stitchedEdges pipeline.directStages localDag))
    simpa only [hmem] using this

theorem buildGlobalStageDAG_eq_some {root : Region} (hnd : root.stageIds.Nodup)
    (hacyclic : ∀ pipeline ∈ root.pipelines, TokensAcyclic pipeline.directStages) :
    ∃ dag, buildGlobalStageDAG root = some dag ∧
      dag.HasEdges fun leaf first => ∃ pipeline ∈ root.pipelines,
        StitchedEdge pipeline leaf first := by
  have hall : ∀ (pipelines : List Region) (dag : StageDependencyDAG)
      (edge : StageId → StageId → Prop), (∀ pipeline ∈ pipelines, pipeline ∈ root.pipelines) →
        dag.HasEdges edge → ∃ dag', pipelines.foldlM addPipeline dag = some dag' ∧
          dag'.HasEdges fun leaf first =>
            edge leaf first ∨ ∃ pipeline ∈ pipelines, StitchedEdge pipeline leaf first := by
    intro pipelines
    induction pipelines with
    | nil =>
        intro dag edge _ hdag
        exact ⟨dag, rfl, by simpa using hdag⟩
    | cons pipeline pipelines ih =>
        intro dag edge hsub hdag
        have hmem := hsub pipeline List.mem_cons_self
        obtain ⟨dag₁, hdag₁, hedges₁⟩ := addPipeline_eq_some (hacyclic pipeline hmem)
          (hnd.sublist (Region.sublist_pipelines hmem)) hdag
        obtain ⟨dag', hdag', hedges⟩ :=
          ih dag₁ _ (fun p hp => hsub p (List.mem_cons_of_mem _ hp)) hedges₁
        refine ⟨dag', ?_, by simpa only [List.exists_mem_cons_iff, or_assoc] using hedges⟩
        rw [List.foldlM_cons, hdag₁]
        exact hdag'
  obtain ⟨dag, hdag, hedges⟩ := hall root.pipelines.reverse .empty _
    (fun _ h => List.mem_reverse.mp h) StageDependencyDAG.hasEdges_empty
  exact ⟨dag, hdag, by simpa only [false_or, List.mem_reverse] using hedges⟩

section Nest

variable (nest : Nest)
  (hacyclic : ∀ pipeline ∈ nest.root.pipelines, TokensAcyclic pipeline.directStages)

include hacyclic

theorem Nest.ordered {pipeline : Region} (hp : pipeline ∈ nest.root.pipelines) {s : StageOp}
    (hs : s ∈ pipeline.directStages) : s.Ordered where
  nodup := nest.nodup_stageIds.sublist
    ((Region.sublist_directStages hs).trans (Region.sublist_pipelines hp))
  acyclic q hq := hacyclic q (Region.pipelines_trans hp (Region.pipelines_of_stage hs hq))

/-- An edge of the nest and a stitched one that agree come from the same pair of stages. -/
theorem Nest.same_pair {p q : Region} (hp : p ∈ nest.root.pipelines) (hq : q ∈ nest.root.pipelines)
    {s t s' t' : StageOp} (hs : s ∈ p.directStages) (ht : t ∈ p.directStages)
    (hs' : s' ∈ q.directStages) (ht' : t' ∈ q.directStages) {leaf first : StageId}
    (hawaits : AwaitsLast p.directStages s t) (hleaf : leaf ∈ getLeafStages s)
    (hroot : first ∈ getRootStages t) (hover : HandsOver s' t') (hlast : LastUnder s' leaf)
    (hfirst : FirstUnder t' first) : p = q ∧ s = s' ∧ t = t' := by
  have hst : s ≠ t := fun h => (handsOver_of_awaitsLast (hacyclic p hp) hs ht hawaits).1 (h ▸ rfl)
  have hst' : s' ≠ t' := fun h => hover.1 (h ▸ rfl)
  exact Region.pair_unique nest.nodup_stageIds hp hq hs ht hs' ht' hst hst'
    (getEndStages_sublist .leaves (nest.ordered hacyclic hp hs) hleaf)
    hlast.mem_stageIds
    (getEndStages_sublist .roots (nest.ordered hacyclic hp ht) hroot)
    hfirst.mem_stageIds

end Nest

/-- What it takes for the edges between two stages of a pipeline to be the right ones: the consumer
awaits a token that no later stage outputs, and the analysis looks where the last stages under the
producer and the first under the consumer are; or there is nothing to connect, and it finds
nothing. -/
def Stitched (pipeline : Region) (s t : StageOp) : Prop :=
  (AwaitsLast pipeline.directStages s t ∧ EndsFound .leaves s ∧ EndsFound .roots t) ∨
    ((∀ leaf, ¬ LastUnder s leaf) ∨ ∀ first, ¬ FirstUnder t first) ∧
      (AwaitsLast pipeline.directStages s t → s.MeetsEmpty ∨ t.MeetsEmpty)

/-- When two products of sets are the same. -/
theorem prod_iff_prod {α : Type} {a : Prop} {p q p' q' : α → Prop} :
    (∀ x y, a ∧ p x ∧ q y ↔ p' x ∧ q' y) ↔
      (a ∧ (∀ x, p x ↔ p' x) ∧ ∀ y, q y ↔ q' y) ∨
        ((∀ x, ¬ p' x) ∨ ∀ y, ¬ q' y) ∧ (a → (∀ x, ¬ p x) ∨ ∀ y, ¬ q y) := by
  constructor
  · intro h
    by_cases hnone : (∀ x, ¬ p' x) ∨ ∀ y, ¬ q' y
    · refine .inr ⟨hnone, fun ha => ?_⟩
      by_contra hsome
      simp only [not_or, not_forall, not_not] at hsome
      obtain ⟨⟨x, hx⟩, y, hy⟩ := hsome
      obtain ⟨hx', hy'⟩ := (h x y).mp ⟨ha, hx, hy⟩
      exact hnone.elim (fun hn => hn x hx') fun hn => hn y hy'
    · simp only [not_or, not_forall, not_not] at hnone
      obtain ⟨⟨x, hx⟩, y, hy⟩ := hnone
      obtain ⟨ha, hpx, hqy⟩ := (h x y).mpr ⟨hx, hy⟩
      refine .inl ⟨ha, fun x' => ⟨fun hx' => ?_, fun hx' => ?_⟩, fun y' => ⟨fun hy' => ?_,
        fun hy' => ?_⟩⟩
      · exact ((h x' y).mp ⟨ha, hx', hqy⟩).1
      · exact ((h x' y).mpr ⟨hx', hy⟩).2.1
      · exact ((h x y').mp ⟨ha, hpx, hy'⟩).2
      · exact ((h x y').mpr ⟨hx, hy'⟩).2.2
  · rintro (⟨ha, hp, hq⟩ | ⟨hnone, hnone'⟩) x y
    · rw [hp, hq, and_iff_right ha]
    · refine iff_of_false (fun ⟨ha, hx, hy⟩ => ?_) fun ⟨hx, hy⟩ => ?_
      · exact (hnone' ha).elim (fun hn => hn x hx) fun hn => hn y hy
      · exact hnone.elim (fun hn => hn x hx) fun hn => hn y hy

/-- **The global stage DAG is right exactly where the analysis looks at the right stages**: for every
nest whose tokens order the stages of each pipeline, the analysis succeeds, and its edges are those
of the nest if and only if every hand-over is stitched. -/
theorem buildGlobalStageDAG_hasEdges_iff (nest : Nest)
    (hacyclic : ∀ pipeline ∈ nest.root.pipelines, TokensAcyclic pipeline.directStages) :
    ∃ dag, buildGlobalStageDAG nest.root = some dag ∧ (dag.HasEdges (StageEdge nest.root) ↔
      ∀ pipeline ∈ nest.root.pipelines, ∀ s ∈ pipeline.directStages,
        ∀ t ∈ pipeline.directStages, HandsOver s t → Stitched pipeline s t) := by
  have hnd := nest.nodup_stageIds
  obtain ⟨dag, hdag, hedges⟩ := buildGlobalStageDAG_eq_some hnd hacyclic
  refine ⟨dag, hdag, ?_⟩
  have hpair : ∀ {pipeline s t}, pipeline ∈ nest.root.pipelines → s ∈ pipeline.directStages →
      t ∈ pipeline.directStages → HandsOver s t → (Stitched pipeline s t ↔ ∀ leaf first,
        AwaitsLast pipeline.directStages s t ∧ leaf ∈ getLeafStages s ∧ first ∈ getRootStages t ↔
          LastUnder s leaf ∧ FirstUnder t first) := by
    intro pipeline s t hp hs ht hover
    rw [prod_iff_prod, Stitched]
    have hs' := nest.ordered hacyclic hp hs
    have ht' := nest.ordered hacyclic hp ht
    refine or_congr ?_ ?_
    · rw [← mem_getEndStages_iff_endUnder .leaves hs', ← mem_getEndStages_iff_endUnder .roots ht']
      rfl
    · rw [← getEndStages_eq_nil_iff .leaves hs',
        ← getEndStages_eq_nil_iff .roots ht']
      rfl
  have hcongr : dag.HasEdges (StageEdge nest.root) ↔ ∀ leaf first,
      (∃ pipeline ∈ nest.root.pipelines, StitchedEdge pipeline leaf first) ↔
        StageEdge nest.root leaf first :=
    ⟨fun h leaf first => (hedges.successors leaf first).symm.trans (h.successors leaf first),
      fun h => ⟨fun p c => (hedges.successors p c).trans (h p c),
        fun p c => (hedges.predecessors p c).trans (h p c)⟩⟩
  rw [hcongr]
  constructor
  · intro h pipeline hp s hs t ht hover
    refine (hpair hp hs ht hover).mpr fun leaf first => ⟨fun ⟨hawaits, hleaf, hfirst⟩ => ?_,
      fun ⟨hlastUnder, hfirstUnder⟩ => ?_⟩
    · obtain ⟨q, hq, s', hs', t', ht', hover', hlastUnder, hfirstUnder⟩ :=
        (h leaf first).mp ⟨pipeline, hp, s, hs, t, ht, hawaits, hleaf, hfirst⟩
      obtain ⟨rfl, rfl, rfl⟩ := nest.same_pair hacyclic hp hq hs ht hs' ht' hawaits hleaf hfirst
        hover' hlastUnder hfirstUnder
      exact ⟨hlastUnder, hfirstUnder⟩
    · obtain ⟨q, hq, s', hs', t', ht', hawaits, hleaf, hfirst⟩ :=
        (h leaf first).mpr ⟨pipeline, hp, s, hs, t, ht, hover, hlastUnder, hfirstUnder⟩
      obtain ⟨rfl, rfl, rfl⟩ := nest.same_pair hacyclic hq hp hs' ht' hs ht hawaits hleaf hfirst
        hover hlastUnder hfirstUnder
      exact ⟨hawaits, hleaf, hfirst⟩
  · intro h leaf first
    constructor
    · rintro ⟨p, hp, s, hs, t, ht, hawaits, hleaf, hfirst⟩
      have hover := handsOver_of_awaitsLast (hacyclic p hp) hs ht hawaits
      obtain ⟨hlastUnder, hfirstUnder⟩ := ((hpair hp hs ht hover).mp (h p hp s hs t ht hover) leaf
        first).mp ⟨hawaits, hleaf, hfirst⟩
      exact ⟨p, hp, s, hs, t, ht, hover, hlastUnder, hfirstUnder⟩
    · rintro ⟨p, hp, s, hs, t, ht, hover, hlastUnder, hfirstUnder⟩
      exact ⟨p, hp, s, hs, t, ht, ((hpair hp hs ht hover).mp (h p hp s hs t ht hover) leaf
        first).mpr ⟨hlastUnder, hfirstUnder⟩⟩

/-- Tokens that go from smaller to larger stage ids order the stages. -/
theorem tokensAcyclic_of_lt {stages : List StageOp}
    (h : ∀ edge ∈ tokenEdges stages, edge.1 < edge.2) : TokensAcyclic stages :=
  Acyclic.of_rank id fun p c hedge => h (p, c) hedge

/-- Stage 1, between stages 0 and 2, holds a pipeline of stages 3 and 4, which hand over a token,
and 5. -/
def oneNested : Nest where
  root := .cons .pipeline
    (.cons (.stage 0 [0] []) .nil
      (.cons (.stage 1 [1] [0])
        (.cons .pipeline
          (.cons (.stage 3 [2] []) .nil (.cons (.stage 4 [] [2]) .nil
            (.cons (.stage 5 [] []) .nil .nil)))
          .nil)
        (.cons (.stage 2 [] [1]) .nil .nil)))
    .nil
  nodup_stageIds := by decide

theorem buildGlobalStageDAG_hasEdges_iff_oneNested :
    ∃ dag, buildGlobalStageDAG oneNested.root = some dag ∧
      (dag.HasEdges (StageEdge oneNested.root) ↔
        ∀ pipeline ∈ oneNested.root.pipelines, ∀ s ∈ pipeline.directStages,
          ∀ t ∈ pipeline.directStages, HandsOver s t → Stitched pipeline s t) :=
  buildGlobalStageDAG_hasEdges_iff oneNested fun pipeline hp =>
    tokensAcyclic_of_lt ((by decide : ∀ pipeline ∈ oneNested.root.pipelines,
      ∀ edge ∈ tokenEdges pipeline.directStages, edge.1 < edge.2) pipeline hp)

/-- Stage 0 holds a pipeline whose first stage holds another one. Its last stage is 3, but the walk
meets the pipeline of stage 2 first. -/
def twoNested : Nest where
  root := .cons .pipeline
    (.cons (.stage 0 [0] [])
      (.cons .pipeline
        (.cons (.stage 1 [1] [])
          (.cons .pipeline (.cons (.stage 2 [] []) .nil .nil) .nil)
          (.cons (.stage 3 [] [1]) .nil .nil))
        .nil)
      (.cons (.stage 4 [] [0]) .nil .nil))
    .nil
  nodup_stageIds := by decide

/-- Stage 3 hands over to stage 4, and no edge says so. -/
theorem not_hasEdges_of_twoNested : ∃ dag, buildGlobalStageDAG twoNested.root = some dag ∧
    StageEdge twoNested.root 3 4 ∧ 4 ∉ dag.successors 3 ∧
      ¬ dag.HasEdges (StageEdge twoNested.root) := by
  have hacyclic : ∀ pipeline ∈ twoNested.root.pipelines, TokensAcyclic pipeline.directStages :=
    fun pipeline hp => tokensAcyclic_of_lt ((by decide : ∀ pipeline ∈ twoNested.root.pipelines,
      ∀ edge ∈ tokenEdges pipeline.directStages, edge.1 < edge.2) pipeline hp)
  obtain ⟨dag, hdag, hedges⟩ := buildGlobalStageDAG_eq_some twoNested.nodup_stageIds hacyclic
  -- The pipeline of stages 0 and 4, and what is under them.
  obtain ⟨outer, houter, s, hs, t, ht, hover, hlast, hfirst, hleaf⟩ :
      ∃ p ∈ twoNested.root.pipelines, ∃ s ∈ p.directStages, ∃ t ∈ p.directStages,
        HandsOver s t ∧ LastUnder s 3 ∧ FirstUnder t 4 ∧ 3 ∉ getLeafStages s := by
    refine ⟨_, List.mem_of_getLast? rfl, _, List.mem_cons_self, _,
      List.mem_cons_of_mem _ List.mem_cons_self, by decide, ?_, .self rfl, ?_⟩
    · exact .nested List.mem_cons_self (List.mem_cons_of_mem _ List.mem_cons_self) (by decide)
        (.self rfl)
    · intro hmem
      obtain ⟨s, hs, -, hid⟩ :=
        (mem_getEndStages .leaves rfl (hacyclic _ List.mem_cons_self) (by decide)).mp hmem
      cases List.mem_singleton.mp hs
      cases hid
  have hlost : 4 ∉ dag.successors 3 := by
    rw [hedges.successors]
    rintro ⟨p, hp, s', hs', t', ht', hawaits, hleaf', hroot⟩
    obtain ⟨-, rfl, -⟩ := twoNested.same_pair hacyclic hp houter hs' ht' hs ht hawaits hleaf' hroot
      hover hlast hfirst
    exact hleaf hleaf'
  have hedge : StageEdge twoNested.root 3 4 := ⟨outer, houter, s, hs, t, ht, hover, hlast, hfirst⟩
  exact ⟨dag, hdag, hedge, hlost, fun h => hlost ((h.successors 3 4).mpr hedge)⟩

end KTDF

end DataflowScheduler
