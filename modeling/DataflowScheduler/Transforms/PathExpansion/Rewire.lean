import DataflowScheduler.Transforms.PathExpansion.Expand

/-!
# Rewiring of dependencies

`rewireDependencies` visits the pairs of stages that flows join. A pair all of whose flows got hop
stages loses its direct dependency, and each of those flows leads through its hop stages instead.

A dependency is a multigraph edge, so everything here is about how often a pair of stages occurs.
Visiting a pair takes one occurrence of it away if all its flows have hops, and then adds each step
of its chains that is missing.
-/

namespace DataflowScheduler

namespace PathExpansion

variable {R : Type}

/-- How many tokens go from one stage to another. -/
def edgeCount (dependencies : Dependencies) (edge : StageRef × StageRef) : Nat :=
  (dependencies edge.1).count edge.2

theorem edgeCount_pos {dependencies : Dependencies} {edge : StageRef × StageRef} :
    0 < edgeCount dependencies edge ↔ edge.2 ∈ dependencies edge.1 := List.count_pos_iff

theorem edgeCount_eq_zero {dependencies : Dependencies} {edge : StageRef × StageRef} :
    edgeCount dependencies edge = 0 ↔ edge.2 ∉ dependencies edge.1 := List.count_eq_zero

/-- All flows between the two stages, and there are some, have hop stages. -/
def Chained (flows : List (DataFlow R)) (pair : StageRef × StageRef) : Prop :=
  pairFlows flows pair ≠ [] ∧ ∀ flow ∈ pairFlows flows pair, flow.chain ≠ []

instance (flows : List (DataFlow R)) (pair : StageRef × StageRef) :
    Decidable (Chained flows pair) :=
  decidable_of_iff ((pairFlows flows pair).isEmpty = false ∧
    ∀ flow ∈ pairFlows flows pair, flow.chain ≠ []) (by simp [Chained])

/-- The steps of the flows with hops between two stages. -/
def chainSteps (flows : List (DataFlow R)) (pair : StageRef × StageRef) :
    List (StageRef × StageRef) :=
  ((pairFlows flows pair).filter DataFlow.hasChain).flatMap DataFlow.steps

theorem hasChain_iff {flow : DataFlow R} : flow.hasChain = true ↔ flow.chain ≠ [] := by
  simp [DataFlow.hasChain]

theorem mem_pairFlows {flows : List (DataFlow R)} {pair : StageRef × StageRef}
    {flow : DataFlow R} :
    flow ∈ pairFlows flows pair ↔ flow ∈ flows ∧ (flow.producer, flow.consumer) = pair := by
  simp [pairFlows]

theorem mem_flowPairs {flows : List (DataFlow R)} {pair : StageRef × StageRef} :
    pair ∈ flowPairs flows ↔ pairFlows flows pair ≠ [] := by
  rw [← List.length_pos_iff, List.length_pos_iff_exists_mem]
  simp [flowPairs, mem_pairFlows]

theorem nodup_flowPairs (flows : List (DataFlow R)) : (flowPairs flows).Nodup :=
  List.nodup_reverse.mpr (List.nodup_dedup _)

theorem mem_chainSteps {flows : List (DataFlow R)} {pair step : StageRef × StageRef} :
    step ∈ chainSteps flows pair ↔
      ∃ flow ∈ pairFlows flows pair, flow.chain ≠ [] ∧ step ∈ flow.steps := by
  simp [chainSteps, hasChain_iff, and_assoc]

/-- A pair whose flows join it without hops adds no steps. -/
theorem chainSteps_eq_nil {flows : List (DataFlow R)} {pair : StageRef × StageRef}
    (h : ∀ flow ∈ pairFlows flows pair, flow.chain = []) : chainSteps flows pair = [] := by
  refine List.eq_nil_iff_forall_not_mem.mpr fun step hstep => ?_
  obtain ⟨flow, hflow, hchain, -⟩ := mem_chainSteps.mp hstep
  exact hchain (h flow hflow)

/-! ## Counts -/

theorem edgeCount_update {dependencies : Dependencies} {stage : StageRef} {deps : List StageRef}
    {edge : StageRef × StageRef} :
    edgeCount (Function.update dependencies stage deps) edge =
      if edge.1 = stage then deps.count edge.2 else edgeCount dependencies edge := by
  unfold edgeCount
  by_cases h : edge.1 = stage
  · rw [if_pos h, h, Function.update_self]
  · rw [if_neg h, Function.update_of_ne h]

/-- A step is added unless it is there. -/
theorem edgeCount_addDependency (dependencies : Dependencies) (step edge : StageRef × StageRef) :
    edgeCount (addDependency dependencies step) edge =
      if edge = step then max (edgeCount dependencies edge) 1
      else edgeCount dependencies edge := by
  unfold addDependency
  by_cases hmem : step.2 ∈ dependencies step.1
  · rw [if_pos hmem]
    by_cases heq : edge = step
    · rw [if_pos heq, heq]
      have hpos := edgeCount_pos.mpr hmem
      omega
    · rw [if_neg heq]
  · rw [if_neg hmem, edgeCount_update]
    by_cases heq : edge = step
    · subst heq
      rw [if_pos rfl, if_pos rfl, edgeCount_eq_zero.mpr hmem, List.count_append,
        List.count_eq_zero.mpr hmem]
      simp
    · rw [if_neg heq]
      by_cases hstage : edge.1 = step.1
      · have hne : step.2 ≠ edge.2 := fun h => heq (Prod.ext hstage h.symm)
        rw [if_pos hstage, List.count_append, List.count_singleton, if_neg (by simpa using hne),
          ← hstage]
        rfl
      · rw [if_neg hstage]

theorem edgeCount_addSteps (steps : List (StageRef × StageRef)) (dependencies : Dependencies)
    (edge : StageRef × StageRef) :
    edgeCount (steps.foldl addDependency dependencies) edge =
      if edge ∈ steps then max (edgeCount dependencies edge) 1
      else edgeCount dependencies edge := by
  induction steps generalizing dependencies with
  | nil => simp
  | cons step steps ih =>
      rw [List.foldl_cons, ih, edgeCount_addDependency]
      grind

/-- Dropping a dependency takes away one of its occurrences. -/
theorem edgeCount_dropDependency (dependencies : Dependencies) (pair edge : StageRef × StageRef) :
    edgeCount (dropDependency dependencies pair) edge =
      if edge = pair then edgeCount dependencies edge - 1 else edgeCount dependencies edge := by
  unfold dropDependency
  rw [StageNode.removeNullified_nullify, edgeCount_update]
  by_cases heq : edge = pair
  · subst heq
    rw [if_pos rfl, if_pos rfl, List.count_erase_self]
    rfl
  · rw [if_neg heq]
    by_cases hstage : edge.1 = pair.1
    · have hne : edge.2 ≠ pair.2 := fun h => heq (Prod.ext hstage h)
      rw [if_pos hstage, List.count_erase_of_ne hne, ← hstage]
      rfl
    · rw [if_neg hstage]

/-- The flows of a pair add their steps one flow after the other. -/
theorem foldl_steps (flows : List (DataFlow R)) (dependencies : Dependencies) :
    flows.foldl (fun dependencies flow => flow.steps.foldl addDependency dependencies)
      dependencies = (flows.flatMap DataFlow.steps).foldl addDependency dependencies :=
  List.foldl_flatMap.symm

/-- What visiting a pair does to the count of an edge. -/
theorem edgeCount_rewirePair (flows : List (DataFlow R)) (dependencies : Dependencies)
    (pair edge : StageRef × StageRef) :
    edgeCount (rewirePair flows dependencies pair) edge =
      if edge ∈ chainSteps flows pair
      then max (if edge = pair ∧ Chained flows pair then edgeCount dependencies edge - 1
        else edgeCount dependencies edge) 1
      else if edge = pair ∧ Chained flows pair then edgeCount dependencies edge - 1
        else edgeCount dependencies edge := by
  unfold rewirePair
  by_cases hany : (pairFlows flows pair).any DataFlow.hasChain
  · rw [if_pos hany, foldl_steps, edgeCount_addSteps]
    have hne : pairFlows flows pair ≠ [] := by
      rintro h
      rw [h] at hany
      cases hany
    by_cases hall : (pairFlows flows pair).all DataFlow.hasChain
    · have hchained : Chained flows pair :=
        ⟨hne, fun flow hflow => hasChain_iff.mp (List.all_eq_true.mp hall flow hflow)⟩
      rw [if_pos hall, edgeCount_dropDependency]
      simp only [chainSteps, hchained, and_true]
    · have hchained : ¬ Chained flows pair := fun h => hall
        (List.all_eq_true.mpr fun flow hflow => hasChain_iff.mpr (h.2 flow hflow))
      rw [if_neg hall]
      simp only [chainSteps, hchained, and_false, if_false]
  · rw [if_neg hany]
    have hnone : ∀ flow ∈ pairFlows flows pair, flow.chain = [] := by
      intro flow hflow
      by_contra hchain
      exact hany (List.any_eq_true.mpr ⟨flow, hflow, hasChain_iff.mpr hchain⟩)
    have hchained : ¬ Chained flows pair := by
      rintro ⟨hne, hall⟩
      obtain ⟨flow, hflow⟩ := List.exists_mem_of_ne_nil _ hne
      exact hall flow hflow (hnone flow hflow)
    rw [chainSteps_eq_nil hnone]
    simp [hchained]

/-! ## The pass over all pairs -/

/-- Visits that never take an edge away. -/
theorem edgeCount_foldl (flows : List (DataFlow R)) (edge : StageRef × StageRef)
    (pairs : List (StageRef × StageRef)) (dependencies : Dependencies)
    (hkeep : edge ∈ pairs → ¬ Chained flows edge) :
    edgeCount (pairs.foldl (rewirePair flows) dependencies) edge =
      if edge ∈ pairs.flatMap (chainSteps flows)
      then max (edgeCount dependencies edge) 1 else edgeCount dependencies edge := by
  induction pairs generalizing dependencies with
  | nil => simp
  | cons pair pairs ih =>
      have hstays : ¬ (edge = pair ∧ Chained flows pair) := by
        rintro ⟨rfl, hchained⟩
        exact hkeep List.mem_cons_self hchained
      rw [List.foldl_cons, ih _ fun h => hkeep (List.mem_cons_of_mem _ h), edgeCount_rewirePair,
        if_neg hstays]
      simp only [List.flatMap_cons, List.mem_append]
      by_cases hstep : edge ∈ chainSteps flows pair
      · simp [hstep]
      · simp only [hstep, if_false, false_or]

/-- A pair that keeps some flow without hops, or that no flow joins, keeps its tokens. -/
theorem edgeCount_rewireDependencies (flows : List (DataFlow R)) (dependencies : Dependencies)
    {edge : StageRef × StageRef} (h : ¬ Chained flows edge) :
    edgeCount (rewireDependencies flows dependencies) edge =
      if edge ∈ (flowPairs flows).flatMap (chainSteps flows)
      then max (edgeCount dependencies edge) 1 else edgeCount dependencies edge :=
  edgeCount_foldl flows edge _ dependencies fun _ => h

/-- A pair all of whose flows have hops is left without a token if it had at most one, and no step
of its own or a later pair puts one back. -/
theorem edgeCount_eq_zero_iff {flows : List (DataFlow R)} {dependencies : Dependencies}
    {edge : StageRef × StageRef} (h : Chained flows edge)
    {before after : List (StageRef × StageRef)} (hpairs : flowPairs flows = before ++ edge :: after) :
    edgeCount (rewireDependencies flows dependencies) edge = 0 ↔
      edgeCount dependencies edge ≤ 1 ∧ ∀ pair ∈ edge :: after, edge ∉ chainSteps flows pair := by
  have hnd := nodup_flowPairs flows
  rw [hpairs, List.nodup_append, List.nodup_cons] at hnd
  have hbefore : edge ∉ before := fun hmem => hnd.2.2 edge hmem edge List.mem_cons_self rfl
  rw [rewireDependencies, hpairs, List.foldl_append, List.foldl_cons,
    edgeCount_foldl flows edge after _ fun hmem => absurd hmem hnd.2.1.1,
    edgeCount_rewirePair, if_pos (show edge = edge ∧ Chained flows edge from ⟨rfl, h⟩),
    edgeCount_foldl flows edge before _ fun hmem => absurd hmem hbefore]
  rw [List.forall_mem_cons]
  by_cases hafter : edge ∈ after.flatMap (chainSteps flows)
  · rw [if_pos hafter]
    obtain ⟨pair, hpair, hstep⟩ := List.mem_flatMap.mp hafter
    constructor
    · intro hzero
      omega
    · intro hnone
      exact absurd hstep (hnone.2.2 pair hpair)
  · rw [if_neg hafter]
    have hlater : ∀ pair ∈ after, edge ∉ chainSteps flows pair :=
      fun pair hpair hstep => hafter (List.mem_flatMap.mpr ⟨pair, hpair, hstep⟩)
    by_cases hown : edge ∈ chainSteps flows edge
    · rw [if_pos hown]
      constructor
      · intro hzero
        omega
      · intro hnone
        exact absurd hown hnone.2.1
    · rw [if_neg hown, and_iff_left (show _ ∧ _ from ⟨hown, hlater⟩)]
      split
      · omega
      · omega

/-! ## What rewiring is for -/

/-- What `rewireDependencies` has to achieve. -/
structure Rewired (flows : List (DataFlow R)) (before after : Dependencies) : Prop where
  /-- Where all flows have hops, the data goes through the hops only. -/
  chained : ∀ pair, Chained flows pair → pair.2 ∉ after pair.1 ∧
    ∀ flow ∈ pairFlows flows pair, ∀ step ∈ flow.steps, step.2 ∈ after step.1
  /-- A flow without hops keeps the direct dependency. -/
  direct : ∀ pair, (∃ flow ∈ pairFlows flows pair, flow.chain = []) →
    pair.2 ∈ before pair.1 → edgeCount after pair = edgeCount before pair
  /-- Between other stages no token is lost, and only steps of chains are new. -/
  unjoined : ∀ pair, (∀ flow ∈ pairFlows flows pair, flow.chain = []) →
    edgeCount after pair = edgeCount before pair ∨
      pair.2 ∉ before pair.1 ∧ ∃ flow ∈ flows, flow.chain ≠ [] ∧ pair ∈ flow.steps

/-- The pair `pair` is visited before `pair'`. -/
def VisitedBefore (flows : List (DataFlow R)) (pair pair' : StageRef × StageRef) : Prop :=
  pair ∈ (flowPairs flows).takeWhile (· ≠ pair')

theorem takeWhile_flowPairs {flows : List (DataFlow R)} {pair : StageRef × StageRef}
    {before after : List (StageRef × StageRef)}
    (hpairs : flowPairs flows = before ++ pair :: after) :
    (flowPairs flows).takeWhile (· ≠ pair) = before := by
  have hnd := nodup_flowPairs flows
  rw [hpairs, List.nodup_append] at hnd
  rw [hpairs, List.takeWhile_append_of_pos, List.takeWhile_cons_of_neg (by simp), List.append_nil]
  intro a ha
  simpa using hnd.2.2 a ha pair List.mem_cons_self

/-- A pair can be rewired: one token at most, and any flow that leads over the pair itself is of a
pair that keeps its direct dependency and is visited before it. -/
def Rewirable (flows : List (DataFlow R)) (dependencies : Dependencies)
    (pair : StageRef × StageRef) : Prop :=
  edgeCount dependencies pair ≤ 1 ∧
    ∀ flow ∈ flows, flow.chain ≠ [] → pair ∈ flow.steps →
      ¬ Chained flows (flow.producer, flow.consumer) ∧
        VisitedBefore flows (flow.producer, flow.consumer) pair

/-- The pairs whose visit adds an edge are those of the flows that lead over it. -/
theorem mem_flatMap_chainSteps {flows : List (DataFlow R)} {edge : StageRef × StageRef} :
    edge ∈ (flowPairs flows).flatMap (chainSteps flows) ↔
      ∃ flow ∈ flows, flow.chain ≠ [] ∧ edge ∈ flow.steps := by
  rw [List.mem_flatMap]
  constructor
  · rintro ⟨pair, -, hstep⟩
    obtain ⟨flow, hflow, hchain, hmem⟩ := mem_chainSteps.mp hstep
    exact ⟨flow, (mem_pairFlows.mp hflow).1, hchain, hmem⟩
  · rintro ⟨flow, hflow, hchain, hmem⟩
    have hpair := mem_pairFlows.mpr ⟨hflow, rfl⟩
    exact ⟨_, mem_flowPairs.mpr (List.ne_nil_of_mem hpair),
      mem_chainSteps.mpr ⟨flow, hpair, hchain, hmem⟩⟩

/-- A pair can be rewired exactly if it ends without a token and no chain that has to stay leads
over it. -/
theorem rewirable_iff {flows : List (DataFlow R)} {dependencies : Dependencies}
    {pair : StageRef × StageRef} (h : Chained flows pair) :
    Rewirable flows dependencies pair ↔
      edgeCount (rewireDependencies flows dependencies) pair = 0 ∧
        ∀ pair', Chained flows pair' → pair ∉ chainSteps flows pair' := by
  obtain ⟨before, after, hpairs⟩ := List.append_of_mem (mem_flowPairs.mpr h.1)
  have hnd := nodup_flowPairs flows
  rw [hpairs, List.nodup_append] at hnd
  rw [edgeCount_eq_zero_iff h hpairs]
  constructor
  · rintro ⟨hcount, hflows⟩
    refine ⟨⟨hcount, fun pair' hpair' hstep => ?_⟩, fun pair' hchained hstep => ?_⟩
    · obtain ⟨flow, hflow, hchain, hmem⟩ := mem_chainSteps.mp hstep
      obtain ⟨hin, rfl⟩ := mem_pairFlows.mp hflow
      have hbefore := (hflows flow hin hchain hmem).2
      rw [VisitedBefore, takeWhile_flowPairs hpairs] at hbefore
      exact hnd.2.2 _ hbefore _ hpair' rfl
    · obtain ⟨flow, hflow, hchain, hmem⟩ := mem_chainSteps.mp hstep
      obtain ⟨hin, rfl⟩ := mem_pairFlows.mp hflow
      exact (hflows flow hin hchain hmem).1 hchained
  · rintro ⟨⟨hcount, hlater⟩, hchained⟩
    refine ⟨hcount, fun flow hflow hchain hmem => ?_⟩
    have hpair := mem_pairFlows.mpr ⟨hflow, rfl⟩
    have hstep := mem_chainSteps.mpr ⟨flow, hpair, hchain, hmem⟩
    refine ⟨fun h => hchained _ h hstep, ?_⟩
    rw [VisitedBefore, takeWhile_flowPairs hpairs]
    have hvisited := mem_flowPairs.mpr (List.ne_nil_of_mem hpair)
    rw [hpairs, List.mem_append] at hvisited
    exact hvisited.resolve_right fun h => hlater _ h hstep

/-- **Rewiring does what it is for exactly where every pair that loses its direct dependency can be
rewired.** -/
theorem rewireDependencies_rewired_iff (flows : List (DataFlow R)) (dependencies : Dependencies) :
    Rewired flows dependencies (rewireDependencies flows dependencies) ↔
      ∀ pair, Chained flows pair → Rewirable flows dependencies pair := by
  constructor
  · intro hrewired pair hpair
    rw [rewirable_iff hpair]
    refine ⟨edgeCount_eq_zero.mpr (hrewired.chained pair hpair).1, fun pair' hpair' hstep => ?_⟩
    obtain ⟨flow, hflow, -, hmem⟩ := mem_chainSteps.mp hstep
    exact (hrewired.chained pair hpair).1 ((hrewired.chained pair' hpair').2 flow hflow pair hmem)
  · intro hcan
    refine ⟨fun pair hpair => ⟨?_, fun flow hflow step hstep => ?_⟩, fun pair hdirect hmem => ?_,
      fun pair hnone => ?_⟩
    · exact edgeCount_eq_zero.mp ((rewirable_iff hpair).mp (hcan pair hpair)).1
    · have hin := mem_chainSteps.mpr ⟨flow, hflow, hpair.2 flow hflow, hstep⟩
      have hstays : ¬ Chained flows step := fun h =>
        ((rewirable_iff h).mp (hcan step h)).2 pair hpair hin
      rw [← edgeCount_pos, edgeCount_rewireDependencies flows dependencies hstays,
        if_pos (List.mem_flatMap.mpr ⟨pair, mem_flowPairs.mpr hpair.1, hin⟩)]
      omega
    · have hstays : ¬ Chained flows pair := by
        obtain ⟨flow, hflow, hchain⟩ := hdirect
        exact fun h => h.2 flow hflow hchain
      have hpos := edgeCount_pos.mpr hmem
      rw [edgeCount_rewireDependencies flows dependencies hstays]
      split
      · omega
      · rfl
    · have hstays : ¬ Chained flows pair := by
        rintro ⟨hne, hall⟩
        obtain ⟨flow, hflow⟩ := List.exists_mem_of_ne_nil _ hne
        exact hall flow hflow (hnone flow hflow)
      rw [edgeCount_rewireDependencies flows dependencies hstays]
      by_cases hnew : pair ∈ (flowPairs flows).flatMap (chainSteps flows)
      · rw [if_pos hnew]
        by_cases hmem : pair.2 ∈ dependencies pair.1
        · have hpos := edgeCount_pos.mpr hmem
          left
          omega
        · exact .inr ⟨hmem, mem_flatMap_chainSteps.mp hnew⟩
      · rw [if_neg hnew]
        exact .inl rfl

/-- A flow from stage 0 to stage 1 through hop stage 2: a transfer writes a memref that another
reads. -/
def oneHopFlow : DataFlow Nat where
  carrier := ⟨0, .memref [some 64] 0 (some 1), .otherResult⟩
  producerOp := .mk 0 (.dataTransfer
    ⟨⟨1, .memref [some 64] 0 (some 0), .otherResult⟩, [], [], none⟩
    ⟨⟨0, .memref [some 64] 0 (some 1), .otherResult⟩, [], [], none⟩ .copy) []
  consumerOp := .mk 1 (.dataTransfer
    ⟨⟨0, .memref [some 64] 0 (some 1), .otherResult⟩, [], [], none⟩
    ⟨⟨2, .memref [some 64] 0 (some 2), .otherResult⟩, [], [], none⟩ .copy) []
  producer := 0
  consumer := 1
  transferMode := .copy
  path := [0, 1, 2, 3]
  producerEnd := 0
  consumerBegin := 3
  producerUnit := none
  consumerUnit := none
  chain := [2]
  boundaries := [1, 3]
  carriers := []

/-- With two tokens from stage 0 to stage 1, one stays: the stages keep their direct dependency. -/
theorem not_rewired_of_twoTokens :
    ¬ Rewired [oneHopFlow] (Function.update (fun _ => []) 0 [1, 1])
      (rewireDependencies [oneHopFlow] (Function.update (fun _ => []) 0 [1, 1])) := by
  intro hrewired
  have hgone := (hrewired.chained (0, 1) (by decide)).1
  exact hgone (by decide)

end PathExpansion

end DataflowScheduler
