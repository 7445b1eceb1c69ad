import Mathlib.Logic.Relation
import DataflowScheduler.Transforms.PathExpansion.StageSides

/-!
# What side a stage is on

The two walks of `classifyStageSides` mark each stage at most from its direct neighbours. Over stages
in topological order they find every stage that a path joins to a compute stage.
-/

namespace DataflowScheduler

namespace PathExpansion

/-- Every stage stands before the stages that depend on it. -/
def TopologicallySorted (dependencies : Dependencies) : List StageRef → Prop
  | [] => True
  | stage :: stages =>
      (∀ succ ∈ dependencies stage, succ ∈ stages) ∧ TopologicallySorted dependencies stages

/-- A directed path of at least one edge. It may run through any stages. -/
def HasPath (dependencies : Dependencies) : StageRef → StageRef → Prop :=
  Relation.TransGen fun stage succ => succ ∈ dependencies stage

/-- A path begins with an edge. -/
theorem hasPath_iff {dependencies : Dependencies} {stage target : StageRef} :
    HasPath dependencies stage target ↔
      ∃ succ ∈ dependencies stage, succ = target ∨ HasPath dependencies succ target := by
  constructor
  · intro h
    cases Relation.TransGen.head'_iff.mp h with
    | intro succ hsucc =>
        exact ⟨succ, hsucc.1, (Relation.reflTransGen_iff_eq_or_transGen.mp hsucc.2).imp Eq.symm id⟩
  · rintro ⟨succ, hsucc, rfl | hpath⟩
    · exact .single hsucc
    · exact .head hsucc hpath

/-! ## The walks -/

/-- The forward walk marks what was marked before, and what a path from an anchor or a marked stage
leads to. -/
theorem mem_afterCompute {dependencies : Dependencies} {anchors : List StageRef}
    {stages : List StageRef} (hsorted : TopologicallySorted dependencies stages)
    {after : List StageRef} {target : StageRef} :
    target ∈ afterCompute dependencies anchors stages after ↔
      target ∈ after ∨
        ∃ stage ∈ stages, (stage ∈ anchors ∨ stage ∈ after) ∧ HasPath dependencies stage target := by
  induction stages generalizing after with
  | nil => simp [afterCompute]
  | cons stage stages ih =>
      obtain ⟨hsucc, hrest⟩ := hsorted
      unfold afterCompute
      split
      · next hmarked =>
          rw [ih hrest]
          constructor
          · rintro (hmem | ⟨first, hfirst, hfrom, hpath⟩)
            · rcases List.mem_append.mp hmem with hmem | hmem
              · exact .inr ⟨stage, List.mem_cons_self, hmarked, .single hmem⟩
              · exact .inl hmem
            · rcases hfrom with hanchor | hmem
              · exact .inr ⟨first, List.mem_cons_of_mem _ hfirst, .inl hanchor, hpath⟩
              · rcases List.mem_append.mp hmem with hmem | hmem
                · exact .inr ⟨stage, List.mem_cons_self, hmarked, .head hmem hpath⟩
                · exact .inr ⟨first, List.mem_cons_of_mem _ hfirst, .inr hmem, hpath⟩
          · rintro (hmem | ⟨first, hfirst, hfrom, hpath⟩)
            · exact .inl (List.mem_append_right _ hmem)
            · rcases List.mem_cons.mp hfirst with rfl | hfirst
              · -- the successors are marked, and come later in the order
                obtain ⟨succ, hmem, rfl | hpath⟩ := hasPath_iff.mp hpath
                · exact .inl (List.mem_append_left _ hmem)
                · exact .inr ⟨succ, hsucc succ hmem, .inr (List.mem_append_left _ hmem), hpath⟩
              · exact .inr ⟨first, hfirst, hfrom.imp_right (List.mem_append_right _), hpath⟩
      · next hmarked =>
          rw [ih hrest]
          refine or_congr_right ⟨?_, ?_⟩
          · rintro ⟨first, hfirst, hpath⟩
            exact ⟨first, List.mem_cons_of_mem _ hfirst, hpath⟩
          · rintro ⟨first, hfirst, hfrom, hpath⟩
            rcases List.mem_cons.mp hfirst with rfl | hfirst
            · exact absurd hfrom hmarked
            · exact ⟨first, hfirst, hfrom, hpath⟩

theorem beforeCompute_append (dependencies : Dependencies) (anchors : List StageRef)
    (first rest before : List StageRef) :
    beforeCompute dependencies anchors (first ++ rest) before =
      beforeCompute dependencies anchors rest
        (beforeCompute dependencies anchors first before) := by
  induction first generalizing before with
  | nil => rfl
  | cons stage first ih =>
      rw [List.cons_append]
      simp only [beforeCompute]
      split
      · exact ih _
      · exact ih _

/-- The backward walk marks the stages from which a path leads to an anchor. -/
theorem mem_beforeCompute {dependencies : Dependencies} {anchors : List StageRef}
    {stages : List StageRef} (hsorted : TopologicallySorted dependencies stages)
    {source : StageRef} :
    source ∈ beforeCompute dependencies anchors stages.reverse [] ↔
      source ∈ stages ∧ ∃ anchor ∈ anchors, HasPath dependencies source anchor := by
  induction stages generalizing source with
  | nil => simp [beforeCompute]
  | cons stage stages ih =>
      obtain ⟨hsucc, hrest⟩ := hsorted
      -- the first stage is looked at last, when all its successors have been
      have hfeeds : ((dependencies stage).any fun succ => succ ∈ anchors ||
          succ ∈ beforeCompute dependencies anchors stages.reverse []) = true ↔
          ∃ anchor ∈ anchors, HasPath dependencies stage anchor := by
        simp only [List.any_eq_true, Bool.or_eq_true, decide_eq_true_eq, ih hrest]
        constructor
        · rintro ⟨succ, hmem, hanchor | ⟨-, anchor, hanchor, hpath⟩⟩
          · exact ⟨succ, hanchor, .single hmem⟩
          · exact ⟨anchor, hanchor, .head hmem hpath⟩
        · rintro ⟨anchor, hanchor, hpath⟩
          obtain ⟨succ, hmem, rfl | hpath⟩ := hasPath_iff.mp hpath
          · exact ⟨succ, hmem, .inl hanchor⟩
          · exact ⟨succ, hmem, .inr ⟨hsucc succ hmem, anchor, hanchor, hpath⟩⟩
      rw [List.reverse_cons, beforeCompute_append]
      simp only [beforeCompute]
      split
      · next hmarked =>
          rw [List.mem_cons, ih hrest, List.mem_cons]
          constructor
          · rintro (rfl | ⟨hmem, hpath⟩)
            · exact ⟨.inl rfl, hfeeds.mp hmarked⟩
            · exact ⟨.inr hmem, hpath⟩
          · rintro ⟨rfl | hmem, hpath⟩
            · exact .inl rfl
            · exact .inr ⟨hmem, hpath⟩
      · next hmarked =>
          rw [ih hrest, List.mem_cons]
          constructor
          · rintro ⟨hmem, hpath⟩
            exact ⟨.inr hmem, hpath⟩
          · rintro ⟨rfl | hmem, hpath⟩
            · exact absurd (hfeeds.mpr hpath) hmarked
            · exact ⟨hmem, hpath⟩

variable {R : Type}

/-! ## The sides -/

/-- All sides are found when each is, and every stage keeps its own. -/
theorem assignSides_eq_ok {anchors after before stages : List StageRef} {sides : StageSideMap} :
    (∃ result, assignSides (R := R) anchors after before stages sides = .ok result) ↔
      ∀ stage ∈ stages, ∃ side, sideOf (R := R) anchors after before stage = .ok side := by
  induction stages generalizing sides with
  | nil => simp [assignSides]
  | cons stage stages ih =>
      simp only [assignSides, Except.bind_eq_ok, List.forall_mem_cons]
      constructor
      · rintro ⟨result, side, hside, hrest⟩
        exact ⟨⟨side, hside⟩, ih.mp ⟨result, hrest⟩⟩
      · rintro ⟨⟨side, hside⟩, hrest⟩
        obtain ⟨result, hresult⟩ := ih.mpr hrest
        exact ⟨result, side, hside, hresult⟩

theorem sides_of_assignSides {anchors after before stages : List StageRef}
    {sides result : StageSideMap}
    (h : assignSides (R := R) anchors after before stages sides = .ok result) (stage : StageRef) :
    (stage ∉ stages → result stage = sides stage) ∧
      ∀ side, stage ∈ stages → sideOf (R := R) anchors after before stage = .ok side →
        result stage = some side := by
  induction stages generalizing sides with
  | nil =>
      cases h
      exact ⟨fun _ => rfl, nofun⟩
  | cons first stages ih =>
      obtain ⟨firstSide, hfirst, h⟩ := Except.bind_eq_ok.mp h
      obtain ⟨hother, hmem⟩ := ih h
      constructor
      · intro hnot
        rw [List.mem_cons, not_or] at hnot
        rw [hother hnot.2, Function.update_of_ne hnot.1]
      · intro side hstage hside
        by_cases hlater : stage ∈ stages
        · exact hmem side hlater hside
        · rcases List.mem_cons.mp hstage with rfl | hstage
          · rw [hother hlater, Function.update_self]
            rw [hside] at hfirst
            cases hfirst
            rfl
          · exact absurd hstage hlater

/-- What a stage of each side is, from where paths join it to the anchors. -/
def StageSide.Holds (isAnchor isBefore isAfter : Prop) : StageSide → Prop
  | .load => ¬ isAnchor ∧ isBefore ∧ ¬ isAfter
  | .compute => isAnchor
  | .store => ¬ isAnchor ∧ isAfter ∧ ¬ isBefore

theorem sideOf_eq_ok {anchors after before : List StageRef} {stage : StageRef}
    {side : StageSide} :
    sideOf (R := R) anchors after before stage = .ok side ↔
      side.Holds (stage ∈ anchors) (stage ∈ before) (stage ∈ after) := by
  unfold sideOf
  cases side <;> simp only [StageSide.Holds] <;> grind

/-- A filter whose tests all return keeps what they are true of. -/
theorem filterAuxM_eq_ok {ε : Type} {test : StageRef → Except ε Bool} {stages : List StageRef}
    (htest : ∀ stage ∈ stages, ∃ kept, test stage = .ok kept) (acc : List StageRef) :
    ∃ result, stages.filterAuxM test acc = .ok result ∧
      ∀ stage, stage ∈ result ↔ stage ∈ acc ∨ stage ∈ stages ∧ test stage = .ok true := by
  induction stages generalizing acc with
  | nil => exact ⟨acc, rfl, by simp⟩
  | cons first stages ih =>
      obtain ⟨⟨kept, hfirst⟩, htest⟩ := List.forall_mem_cons.mp htest
      obtain ⟨result, hresult, hmem⟩ := ih htest (cond kept (first :: acc) acc)
      refine ⟨result, ?_, fun stage => ?_⟩
      · rw [List.filterAuxM, hfirst]
        exact hresult
      · rw [hmem]
        cases kept with
        | false => grind
        | true => grind

/-- The anchors are the stages that are pinned to a compute unit, when every lookup is allowed. -/
theorem filterM_isComputeAnchor [DecidableEq R] {pipeline : StagePipeline R}
    {archGraph : RoutingGraph R} {stages : List StageRef}
    (hlookup : ∀ stage ∈ stages, ∃ isAnchor,
      isComputeAnchor pipeline archGraph stage = .ok isAnchor) :
    ∃ anchors, stages.filterM (isComputeAnchor pipeline archGraph) = .ok anchors ∧
      ∀ stage, stage ∈ anchors ↔
        stage ∈ stages ∧ isComputeAnchor pipeline archGraph stage = .ok true := by
  obtain ⟨result, hresult, hmem⟩ := filterAuxM_eq_ok hlookup []
  refine ⟨result.reverse, ?_, fun stage => ?_⟩
  · rw [List.filterM, hresult]
    rfl
  · rw [List.mem_reverse, hmem]
    simp

/-! ## The classification -/

variable [DecidableEq R]

/-- A stage of the pipeline that is pinned to a compute unit. -/
def IsAnchor (pipeline : StagePipeline R) (archGraph : RoutingGraph R) (stages : List StageRef)
    (stage : StageRef) : Prop :=
  stage ∈ stages ∧ isComputeAnchor pipeline archGraph stage = .ok true

/-- A path leads to a compute stage. -/
def IsUpstream (pipeline : StagePipeline R) (archGraph : RoutingGraph R) (stages : List StageRef)
    (stage : StageRef) : Prop :=
  ∃ anchor, IsAnchor pipeline archGraph stages anchor ∧ HasPath pipeline.dependencies stage anchor

/-- A path leads from a compute stage. -/
def IsDownstream (pipeline : StagePipeline R) (archGraph : RoutingGraph R) (stages : List StageRef)
    (stage : StageRef) : Prop :=
  ∃ anchor, IsAnchor pipeline archGraph stages anchor ∧ HasPath pipeline.dependencies anchor stage

/-- Stages in topological order are classified exactly when there is a compute stage and every other
stage is either upstream or downstream of one, and then these are its sides. -/
theorem classifyStageSides_sides_iff {pipeline : StagePipeline R} {archGraph : RoutingGraph R}
    {stages : List StageRef} (hsorted : TopologicallySorted pipeline.dependencies stages)
    (hlookup : ∀ stage ∈ stages, ∃ isAnchor,
      isComputeAnchor pipeline archGraph stage = .ok isAnchor) :
    ((∃ sides, classifyStageSides pipeline stages archGraph = .ok sides) ↔
      (∃ anchor, IsAnchor pipeline archGraph stages anchor) ∧
      ∀ stage ∈ stages, ¬ IsAnchor pipeline archGraph stages stage →
        Xor (IsUpstream pipeline archGraph stages stage)
          (IsDownstream pipeline archGraph stages stage)) ∧
    ∀ sides, classifyStageSides pipeline stages archGraph = .ok sides →
      (∀ stage ∉ stages, sides stage = none) ∧
      ∀ stage ∈ stages,
        (sides stage = some .compute ↔ IsAnchor pipeline archGraph stages stage) ∧
        (sides stage = some .load ↔ ¬ IsAnchor pipeline archGraph stages stage ∧
          IsUpstream pipeline archGraph stages stage) ∧
        (sides stage = some .store ↔ ¬ IsAnchor pipeline archGraph stages stage ∧
          IsDownstream pipeline archGraph stages stage) := by
  obtain ⟨anchors, hanchors, hanchor⟩ := filterM_isComputeAnchor hlookup
  have hbefore : ∀ stage ∈ stages,
      (stage ∈ beforeCompute pipeline.dependencies anchors stages.reverse [] ↔
        IsUpstream pipeline archGraph stages stage) := by
    intro stage hstage
    rw [mem_beforeCompute hsorted]
    simp only [hanchor, hstage, true_and, IsUpstream, IsAnchor]
  have hafter : ∀ stage, stage ∈ afterCompute pipeline.dependencies anchors stages [] ↔
      IsDownstream pipeline archGraph stages stage := by
    intro stage
    rw [mem_afterCompute hsorted]
    simp only [hanchor, List.not_mem_nil, or_false, false_or, IsDownstream, IsAnchor]
    grind
  -- what the last loop finds, in terms of paths
  have hside : ∀ stage ∈ stages, ∀ side,
      (sideOf (R := R) anchors (afterCompute pipeline.dependencies anchors stages [])
          (beforeCompute pipeline.dependencies anchors stages.reverse []) stage = .ok side ↔
        side.Holds (IsAnchor pipeline archGraph stages stage)
          (IsUpstream pipeline archGraph stages stage)
          (IsDownstream pipeline archGraph stages stage)) := by
    intro stage hstage side
    rw [sideOf_eq_ok, hbefore stage hstage, hafter stage, hanchor]
    rfl
  have hclassify : classifyStageSides pipeline stages archGraph =
      if anchors.isEmpty then .error .noComputeStage
      else assignSides anchors (afterCompute pipeline.dependencies anchors stages [])
        (beforeCompute pipeline.dependencies anchors stages.reverse []) stages fun _ => none := by
    unfold classifyStageSides
    rw [hanchors]
    rfl
  have hnone : (∃ anchor, IsAnchor pipeline archGraph stages anchor) ↔ anchors.isEmpty = false := by
    rw [List.isEmpty_eq_false_iff_exists_mem]
    exact exists_congr fun stage => (hanchor stage).symm
  rw [hclassify, hnone]
  cases anchors.isEmpty with
  | true => simp
  | false =>
      simp only [Bool.false_eq_true, if_false, true_and, assignSides_eq_ok]
      constructor
      · refine forall₂_congr fun stage hstage => ?_
        constructor
        · rintro ⟨side, hok⟩ hnot
          have := (hside stage hstage side).mp hok
          cases side with
          | load => exact .inl this.2
          | compute => exact absurd this hnot
          | store => exact .inr this.2
        · intro hxor
          by_cases hisAnchor : IsAnchor pipeline archGraph stages stage
          · exact ⟨.compute, (hside stage hstage .compute).mpr hisAnchor⟩
          · rcases hxor hisAnchor with hload | hstore
            · exact ⟨.load, (hside stage hstage .load).mpr ⟨hisAnchor, hload⟩⟩
            · exact ⟨.store, (hside stage hstage .store).mpr ⟨hisAnchor, hstore⟩⟩
      · intro sides hsides
        refine ⟨fun stage hnot => (sides_of_assignSides hsides stage).1 hnot,
          fun stage hstage => ?_⟩
        obtain ⟨side, hok⟩ := assignSides_eq_ok.mp ⟨sides, hsides⟩ stage hstage
        have hholds := (hside stage hstage side).mp hok
        rw [(sides_of_assignSides hsides stage).2 side hstage hok]
        cases side with
        | load =>
            obtain ⟨hisAnchor, hup, hdown⟩ := hholds
            simp [hisAnchor, hup, hdown]
        | compute => simp [show IsAnchor pipeline archGraph stages stage from hholds]
        | store =>
            obtain ⟨hisAnchor, hdown, hup⟩ := hholds
            simp [hisAnchor, hup, hdown]

/-- A memory beside a compute unit. -/
def anchorGraph : RoutingGraph Nat where
  nodes := [⟨0, 10, .memory⟩, ⟨1, 14, .compute⟩]
  edges := [⟨0, 1, 1⟩, ⟨1, 0, 1⟩]
  nodup_ids := by decide

/-- Two stages feed one that is pinned to unit 14, which feeds a last one. -/
def joinPipeline : StagePipeline Nat where
  stages := [0, 1, 2, 3]
  operation := fun s => if s = 2 then some ⟨202, some [some 14], []⟩ else none
  stageId := id
  dependencies := fun s => if s < 2 then [2] else if s = 2 then [3] else []
  nextRef := 4
  nodup_stages := by decide
  lt_nextRef := by decide

theorem classifyStageSides_sides_iff_join :
    ∃ sides, classifyStageSides joinPipeline [0, 1, 2, 3] anchorGraph = .ok sides ∧
      sides 1 = some .load ∧ IsUpstream joinPipeline anchorGraph [0, 1, 2, 3] 1 ∧
      sides 3 = some .store ∧ IsDownstream joinPipeline anchorGraph [0, 1, 2, 3] 3 := by
  have heval : (classifyStageSides joinPipeline [0, 1, 2, 3] anchorGraph).toOption.map
      (fun sides => (sides 1, sides 3)) = some (some .load, some .store) := by
    decide +kernel
  obtain ⟨sides, hsides, hboth⟩ := Except.eq_ok_of_map_toOption heval
  rw [Prod.mk.injEq] at hboth
  obtain ⟨-, hspec⟩ := @classifyStageSides_sides_iff Nat _ joinPipeline anchorGraph [0, 1, 2, 3]
    ⟨by decide, by decide, by decide, by decide, trivial⟩ fun stage _ => by
      rcases Decidable.em (stage = 2) with rfl | hne
      · exact ⟨true, rfl⟩
      · exact ⟨false, by simp [isComputeAnchor, joinPipeline, hne]⟩
  obtain ⟨-, hspec⟩ := hspec sides hsides
  exact ⟨sides, hsides, hboth.1, ((hspec 1 (by decide)).2.1.mp hboth.1).2, hboth.2,
    ((hspec 3 (by decide)).2.2.mp hboth.2).2⟩

end PathExpansion

end DataflowScheduler
