import DataflowScheduler.Dialect.KTDF.Transforms.StageCoarsening
import Mathlib.Data.List.ReduceOption

/-!
# What the correction does to the dependencies

A dependency is redirected to where the correction takes it, by itself, whatever has been corrected
before. So the lists may be edited while they are gone through.
-/

namespace StageCoarsening

open PipelineTreeLegalizer

variable {tree : List Tree} {a u v w : NodeId}

/-! ## Nodes and the nodes around them -/

/-- All nodes have names, no two the same. -/
structure WellNamed (tree : List Tree) : Prop where
  named : ∀ i ∈ tree.flatMap Rose.preorder, i.name.isSome = true
  nodup : ((tree.flatMap Rose.preorder).map NodeInfo.name).Nodup

theorem nodesAround_fst : (nodesAround tree).map Prod.fst = tree.flatMap Rose.preorder := by
  unfold nodesAround
  rw [List.map_flatMap]
  apply List.flatMap_congr
  intro t _
  rw [List.map_map, ← Rose.map_label_withAncestors [] t]
  rfl

/-- A name tells the node. -/
theorem WellNamed.eq (h : WellNamed tree) {s s' : NodeInfo × List NodeInfo}
    (hs : s ∈ nodesAround tree) (hs' : s' ∈ nodesAround tree) (hname : s.1.name = s'.1.name) :
    s = s' := by
  have hnodup := h.nodup
  rw [← nodesAround_fst, List.map_map] at hnodup
  exact List.inj_on_of_nodup_map hnodup hs hs' hname

/-- The nodes around a node are nodes themselves. -/
theorem mem_nodesAround_of_around {x p : NodeInfo} {between around : List NodeInfo}
    (h : (x, between ++ p :: around) ∈ nodesAround tree) : (p, around) ∈ nodesAround tree := by
  obtain ⟨t, ht, h⟩ := List.mem_flatMap.mp h
  obtain ⟨s, hs, heq⟩ := List.mem_map.mp h
  obtain ⟨s, above⟩ := s
  obtain ⟨rfl, habove⟩ := Prod.mk.inj heq
  obtain ⟨between', rest, rfl, rfl, hrest⟩ := List.map_eq_append_iff.mp habove
  obtain ⟨p', around', rfl, rfl, rfl⟩ := List.map_eq_cons_iff.mp hrest
  obtain ⟨hp, -⟩ := Rose.ancestor_mem_withAncestors hs
  exact List.mem_flatMap.mpr ⟨t, ht, List.mem_map.mpr ⟨_, hp, rfl⟩⟩

theorem WellNamed.ancestors_eq (h : WellNamed tree) {x : NodeInfo} {around : List NodeInfo}
    (hx : (x, around) ∈ nodesAround tree) (ha : x.name = some a) : ancestors tree a = around := by
  unfold ancestors
  cases hfind : (nodesAround tree).find? fun s => s.1.name = some a with
  | none => exact absurd ha (by simpa using List.find?_eq_none.mp hfind _ hx)
  | some s =>
    have hs : s.1.name = some a := by simpa using List.find?_some hfind
    rw [h.eq (List.mem_of_find?_eq_some hfind) hx (hs.trans ha.symm)]
    rfl

/-- A node with something around it is in the tree. -/
theorem exists_of_ancestors_ne_nil (h : ancestors tree a ≠ []) :
    ∃ x, x.name = some a ∧ (x, ancestors tree a) ∈ nodesAround tree := by
  unfold ancestors at h ⊢
  cases hfind : (nodesAround tree).find? fun s => s.1.name = some a with
  | none => simp [hfind] at h
  | some s =>
    have hs : s.1.name = some a := by simpa using List.find?_some hfind
    exact ⟨s.1, hs, List.mem_of_find?_eq_some hfind⟩

/-- What the search for a stage finds. -/
theorem findStageAtPipeline_eq_some {target : Option NodeId} {around : List NodeInfo}
    (h : findStageAtPipeline target around = some w) :
    ∃ between i above, around = between ++ i :: above ∧ i.isStageNode = true ∧ i.name = some w ∧
      above.head?.bind NodeInfo.name = target := by
  induction around with
  | nil => cases h
  | cons i above ih =>
    rw [findStageAtPipeline] at h
    split at h
    next hi =>
      simp only [Bool.and_eq_true, decide_eq_true_eq] at hi
      exact ⟨[], i, above, rfl, hi.1, h, hi.2⟩
    next =>
      obtain ⟨between, j, above', rfl, hj⟩ := ih h
      exact ⟨i :: between, j, above', rfl, hj⟩

/-- The stage that is found is around the stage that the search starts from, and its parent is the
pipeline. -/
theorem WellNamed.findStageAtPipeline (h : WellNamed tree) {target : Option NodeId}
    (hfind : findStageAtPipeline target (ancestors tree a) = some w) :
    w ≠ a ∧ some w ∈ (ancestors tree a).map NodeInfo.name ∧ getParentNode tree w = target := by
  obtain ⟨between, i, above, haround, -, hw, htarget⟩ := findStageAtPipeline_eq_some hfind
  obtain ⟨x, hx, hmem⟩ := @exists_of_ancestors_ne_nil tree a (by simp [haround])
  rw [haround] at hmem
  have hi := mem_nodesAround_of_around hmem
  refine ⟨?_, ?_, ?_⟩
  · rintro rfl
    have heq := congrArg (fun s => s.2.length) (h.eq hmem hi (hx.trans hw.symm))
    simp at heq
    omega
  · rw [haround]
    simp [hw]
  · unfold getParentNode
    rw [h.ancestors_eq hi hw]
    exact htarget

/-! ## One dependency -/

/-- Where the correction takes a dependency. -/
def redirect (tree : List Tree) (source sink : NodeId) : NodeId × NodeId :=
  let sourcePipeline := getParentNode tree source
  let sinkPipeline := getParentNode tree sink
  if sourcePipeline = sinkPipeline then (source, sink)
  else if pipelineToDepth tree sourcePipeline < pipelineToDepth tree sinkPipeline then
    (source, (findStageAtPipeline sourcePipeline (ancestors tree sink)).getD sink)
  else if pipelineToDepth tree sinkPipeline < pipelineToDepth tree sourcePipeline then
    ((findStageAtPipeline sinkPipeline (ancestors tree source)).getD source, sink)
  else (source, sink)

/-- A dependency stays, gets a sink around its sink or gets a source around its source. -/
inductive Correction (tree : List Tree) (source sink : NodeId) : Prop where
  | stays (hredirect : redirect tree source sink = (source, sink))
      (hcorrect : ∀ deps, correctDependency tree source sink deps = deps)
  | newSink (w : NodeId) (hne : w ≠ sink)
      (haround : some w ∈ (ancestors tree sink).map NodeInfo.name)
      (hparent : getParentNode tree w = getParentNode tree source)
      (hredirect : redirect tree source sink = (source, w))
      (hcorrect : ∀ deps,
        correctDependency tree source sink deps = replaceDependency deps source sink w)
  | newSource (w : NodeId) (hne : w ≠ source)
      (haround : some w ∈ (ancestors tree source).map NodeInfo.name)
      (hparent : getParentNode tree w = getParentNode tree sink)
      (hredirect : redirect tree source sink = (w, sink))
      (hcorrect : ∀ deps, correctDependency tree source sink deps =
        nullifyDependency (if some sink ∈ deps w then deps else addDependency deps w sink) source sink)

theorem WellNamed.correction (h : WellNamed tree) (u v : NodeId) : Correction tree u v := by
  by_cases hsame : getParentNode tree u = getParentNode tree v
  · apply Correction.stays
    · rw [redirect, if_pos hsame]
    · intro deps
      rw [correctDependency, if_pos hsame]
  by_cases hinner : pipelineToDepth tree (getParentNode tree u) <
      pipelineToDepth tree (getParentNode tree v)
  · cases hfind : StageCoarsening.findStageAtPipeline (getParentNode tree u) (ancestors tree v) with
    | none =>
      apply Correction.stays
      · rw [redirect, if_neg hsame, if_pos hinner, hfind]
        rfl
      · intro deps
        rw [correctDependency, if_neg hsame, if_pos hinner, hfind]
    | some w =>
      obtain ⟨hne, haround, hparent⟩ := h.findStageAtPipeline hfind
      apply Correction.newSink w hne haround hparent
      · rw [redirect, if_neg hsame, if_pos hinner, hfind]
        rfl
      · intro deps
        rw [correctDependency, if_neg hsame, if_pos hinner, hfind]
  by_cases houter : pipelineToDepth tree (getParentNode tree v) <
      pipelineToDepth tree (getParentNode tree u)
  · cases hfind : StageCoarsening.findStageAtPipeline (getParentNode tree v) (ancestors tree u) with
    | none =>
      apply Correction.stays
      · rw [redirect, if_neg hsame, if_neg hinner, if_pos houter, hfind]
        rfl
      · intro deps
        rw [correctDependency, if_neg hsame, if_neg hinner, if_pos houter, hfind]
    | some w =>
      obtain ⟨hne, haround, hparent⟩ := h.findStageAtPipeline hfind
      apply Correction.newSource w hne haround hparent
      · rw [redirect, if_neg hsame, if_neg hinner, if_pos houter, hfind]
        rfl
      · intro deps
        rw [correctDependency, if_neg hsame, if_neg hinner, if_pos houter, hfind]
  · apply Correction.stays
    · rw [redirect, if_neg hsame, if_neg hinner, if_neg houter]
    · intro deps
      rw [correctDependency, if_neg hsame, if_neg hinner, if_neg houter]

theorem redirect_of_same (h : getParentNode tree u = getParentNode tree v) :
    redirect tree u v = (u, v) := by
  rw [redirect, if_pos h]

/-- A redirected dependency stays. -/
theorem WellNamed.redirect_redirect (h : WellNamed tree) {b : NodeId}
    (hredirect : redirect tree u v = (a, b)) : redirect tree a b = (a, b) := by
  cases h.correction u v with
  | stays hr _ =>
    obtain ⟨rfl, rfl⟩ := Prod.mk.inj (hr.symm.trans hredirect)
    exact hr
  | newSink w _ _ hparent hr _ =>
    obtain ⟨rfl, rfl⟩ := Prod.mk.inj (hr.symm.trans hredirect)
    exact redirect_of_same hparent.symm
  | newSource w _ _ hparent hr _ =>
    obtain ⟨rfl, rfl⟩ := Prod.mk.inj (hr.symm.trans hredirect)
    exact redirect_of_same hparent

/-! ## The dependents of a stage -/

/-- What is left of a dependent of `u` at its position. -/
def settledSink (tree : List Tree) (u v : NodeId) : Option NodeId :=
  if (redirect tree u v).1 = u then some (redirect tree u v).2 else none

theorem settledSink_eq_some {b : NodeId} :
    settledSink tree u v = some b ↔ redirect tree u v = (u, b) := by
  unfold settledSink
  split
  next h => simp [Prod.ext_iff, h]
  next h => simp [Prod.ext_iff, h]

/-- After `k` positions of the dependents `sinks` of `u`: those before are settled. -/
structure PartlyCorrected (tree : List Tree) (u : NodeId) (sinks : List NodeId)
    (start : Dependents) (k : Nat) (deps : Dependents) : Prop where
  own : deps u = (sinks.take k).map (settledSink tree u) ++ (sinks.drop k).map some
  others : ∀ c, c ≠ u → ∀ b, some b ∈ deps c ↔
    some b ∈ start c ∨ ∃ v ∈ sinks.take k, redirect tree u v = (c, b)
  present : ∀ c, c ≠ u → none ∉ deps c

/-- A dependent that does not stay is not among the settled ones. -/
theorem WellNamed.not_mem_settled (h : WellNamed tree) (hmoves : redirect tree u v ≠ (u, v))
    (sinks : List NodeId) : some v ∉ sinks.map (settledSink tree u) := by
  intro hv
  obtain ⟨v', -, hv'⟩ := List.mem_map.mp hv
  exact hmoves (h.redirect_redirect (settledSink_eq_some.mp hv'))

theorem PartlyCorrected.step (h : WellNamed tree) {sinks : List NodeId} {start deps : Dependents}
    {k : Nat} (hdeps : PartlyCorrected tree u sinks start k deps) (hv : sinks[k]? = some v) :
    PartlyCorrected tree u sinks start (k + 1) (correctDependency tree u v deps) := by
  obtain ⟨hk, rfl⟩ := List.getElem?_eq_some_iff.mp hv
  have htake : sinks.take (k + 1) = sinks.take k ++ [sinks[k]] := List.take_succ_eq_append_getElem hk
  have hdrop : sinks.drop k = sinks[k] :: sinks.drop (k + 1) := List.drop_eq_getElem_cons hk
  have hown := hdeps.own
  rw [hdrop, List.map_cons] at hown
  have hsettled : (sinks.take (k + 1)).map (settledSink tree u) =
      (sinks.take k).map (settledSink tree u) ++ [settledSink tree u sinks[k]] := by
    rw [htake, List.map_append, List.map_singleton]
  have hothers : ∀ c b, (∃ v ∈ sinks.take (k + 1), redirect tree u v = (c, b)) ↔
      (∃ v ∈ sinks.take k, redirect tree u v = (c, b)) ∨ redirect tree u sinks[k] = (c, b) := by
    intro c b
    rw [htake]
    simp only [List.mem_append, List.mem_singleton]
    constructor
    · rintro ⟨v, hv | rfl, hr⟩
      · exact Or.inl ⟨v, hv, hr⟩
      · exact Or.inr hr
    · rintro (⟨v, hv, hr⟩ | hr)
      · exact ⟨v, Or.inl hv, hr⟩
      · exact ⟨_, Or.inr rfl, hr⟩
  cases h.correction u sinks[k] with
  | stays hr hcorrect =>
    rw [hcorrect]
    refine ⟨?_, ?_, hdeps.present⟩
    · rw [hown, hsettled, settledSink_eq_some.mpr hr, List.append_assoc]
      rfl
    · intro c hc b
      rw [hdeps.others c hc, hothers]
      have hne : redirect tree u sinks[k] ≠ (c, b) := by
        rw [hr]
        exact fun heq => hc (Prod.mk.inj heq).1.symm
      simp [hne]
  | newSink w hne _ _ hr hcorrect =>
    have hmoves : redirect tree u sinks[k] ≠ (u, sinks[k]) := by
      rw [hr]
      exact fun heq => hne (Prod.mk.inj heq).2
    rw [hcorrect]
    unfold replaceDependency
    refine ⟨?_, ?_, ?_⟩
    · rw [Function.update_self, hown,
        List.replace_append_right (h.not_mem_settled hmoves _), List.replace_cons_self, hsettled,
        settledSink_eq_some.mpr hr, List.append_assoc]
      rfl
    · intro c hc b
      rw [Function.update_of_ne hc, hdeps.others c hc, hothers]
      have hne : redirect tree u sinks[k] ≠ (c, b) := by
        rw [hr]
        exact fun heq => hc (Prod.mk.inj heq).1.symm
      simp [hne]
    · intro c hc
      rw [Function.update_of_ne hc]
      exact hdeps.present c hc
  | newSource w hne _ _ hr hcorrect =>
    have hmoves : redirect tree u sinks[k] ≠ (u, sinks[k]) := by
      rw [hr]
      exact fun heq => hne (Prod.mk.inj heq).1
    have hnone : settledSink tree u sinks[k] = none := by
      unfold settledSink
      rw [hr, if_neg hne]
    -- The sink is added to another stage, so the list that is gone through keeps its positions.
    have hadded : ∀ c, (if some sinks[k] ∈ deps w then deps else addDependency deps w sinks[k]) c =
        if c = w ∧ some sinks[k] ∉ deps w then deps c ++ [some sinks[k]] else deps c := by
      intro c
      unfold addDependency
      split
      next hin => rw [if_neg (by simp [hin])]
      next hin =>
        by_cases hc : c = w
        · subst hc
          rw [Function.update_self, if_pos ⟨rfl, hin⟩]
        · rw [Function.update_of_ne hc, if_neg (by simp [hc])]
    rw [hcorrect]
    unfold nullifyDependency
    refine ⟨?_, ?_, ?_⟩
    · rw [Function.update_self, hadded, if_neg (by simp [hne.symm]), hown,
        List.replace_append_right (h.not_mem_settled hmoves _), List.replace_cons_self, hsettled,
        hnone, List.append_assoc]
      rfl
    · intro c hc b
      rw [Function.update_of_ne hc, hadded, hothers, ← or_assoc, ← hdeps.others c hc, hr,
        Prod.mk.injEq]
      by_cases hcw : c = w
      · subst hcw
        by_cases hin : some sinks[k] ∈ deps c
        · rw [if_neg (by simp [hin])]
          constructor
          · exact Or.inl
          · rintro (hb | ⟨-, rfl⟩)
            · exact hb
            · exact hin
        · rw [if_pos ⟨rfl, hin⟩, List.mem_append, List.mem_singleton, Option.some.injEq]
          simp [eq_comm]
      · rw [if_neg (by simp [hcw])]
        simp [Ne.symm hcw]
    · intro c hc
      rw [Function.update_of_ne hc, hadded]
      split
      · simpa using hdeps.present c hc
      · exact hdeps.present c hc

/-- The state between two stages: no dependent is null. -/
def Present (deps : Dependents) : Prop := ∀ c, none ∉ deps c

theorem Present.eq_map {deps : Dependents} (h : Present deps) (u : NodeId) :
    ∃ sinks : List NodeId, deps u = sinks.map some := by
  refine ⟨(deps u).reduceOption, ?_⟩
  have hall : ∀ l : List (Option NodeId), none ∉ l → l = l.reduceOption.map some := by
    intro l hl
    induction l with
    | nil => rfl
    | cons x l ih =>
      cases x with
      | none => simp at hl
      | some x =>
        rw [List.reduceOption_cons_of_some, List.map_cons, ← ih (by simpa using hl)]
  exact hall _ (h u)

theorem WellNamed.correctLoop (h : WellNamed tree) {sinks : List NodeId} {start : Dependents}
    (hpresent : Present start) (hsinks : start u = sinks.map some) {k : Nat}
    (hk : k ≤ sinks.length) :
    PartlyCorrected tree u sinks start k ((List.range k).foldl (correctAt tree u) start) := by
  induction k with
  | zero =>
    refine ⟨by simpa using hsinks, ?_, fun c _ => hpresent c⟩
    intro c _ b
    simp
  | succ k ih =>
    have hpartly := ih (Nat.le_of_succ_le hk)
    rw [List.range_succ, List.foldl_append, List.foldl_cons, List.foldl_nil]
    have hget : sinks[k]? = some sinks[k] := List.getElem?_eq_getElem hk
    have hhere : ((List.range k).foldl (correctAt tree u) start u)[k]? = some (some sinks[k]) := by
      have hlength : ((sinks.take k).map (settledSink tree u)).length = k := by
        rw [List.length_map, List.length_take, Nat.min_eq_left (Nat.le_of_succ_le hk)]
      rw [hpartly.own, List.drop_eq_getElem_cons hk, List.map_cons,
        List.getElem?_append_right (Nat.le_of_eq hlength), hlength, Nat.sub_self]
      rfl
    have hstep : correctAt tree u ((List.range k).foldl (correctAt tree u) start) k =
        correctDependency tree u sinks[k] ((List.range k).foldl (correctAt tree u) start) := by
      rw [correctAt, hhere]
    rw [hstep]
    exact hpartly.step h hget

/-- **One stage.** Its dependencies are redirected, and those of the others stay. -/
theorem WellNamed.correctStage (h : WellNamed tree) {deps : Dependents} (hdeps : Present deps)
    (u : NodeId) : Present (correctStage tree deps u) ∧ ∀ c b, some b ∈ correctStage tree deps u c ↔
      (c ≠ u ∧ some b ∈ deps c) ∨ ∃ v, some v ∈ deps u ∧ redirect tree u v = (c, b) := by
  obtain ⟨sinks, hsinks⟩ := hdeps.eq_map u
  have hlast := h.correctLoop hdeps hsinks (Nat.le_refl _)
  have hown := hlast.own
  rw [List.take_length, List.drop_length, List.map_nil, List.append_nil] at hown
  have hlength : (deps u).length = sinks.length := by rw [hsinks, List.length_map]
  unfold StageCoarsening.correctStage removeNullifiedDependencies
  rw [hlength]
  constructor
  · intro c
    by_cases hc : c = u
    · subst hc
      rw [Function.update_self]
      simp
    · rw [Function.update_of_ne hc]
      exact hlast.present c hc
  · intro c b
    by_cases hc : c = u
    · subst hc
      rw [Function.update_self, List.mem_filter, hown, hsinks]
      simp [settledSink_eq_some]
    · rw [Function.update_of_ne hc, hlast.others c hc, List.take_length, hsinks]
      simp [hc]

/-! ## All dependencies -/

theorem present_getDependencies (tree : List Tree) : Present (getDependencies tree) := by
  intro c hc
  unfold getDependencies at hc
  cases hfind : ((tree.flatMap Rose.preorder).filter NodeInfo.isStageNode).find?
    fun i => i.name = some c with
  | none => simp [hfind] at hc
  | some i => simp [hfind] at hc

/-- A dependency of the tree that is handed to the correction. -/
def DependsOn (tree : List Tree) (u v : NodeId) : Prop := some v ∈ getDependencies tree u

theorem mem_allStages_of_dependsOn (h : DependsOn tree u v) : u ∈ allStages tree := by
  unfold DependsOn getDependencies at h
  cases hfind : ((tree.flatMap Rose.preorder).filter NodeInfo.isStageNode).find?
    fun i => i.name = some u with
  | none => simp [hfind] at h
  | some i =>
    have hname : i.name = some u := by simpa using List.find?_some hfind
    exact List.mem_filterMap.mpr ⟨i, List.mem_of_find?_eq_some hfind, hname⟩

/-- The dependencies once the stages `done` are corrected. -/
def CorrectedUpTo (tree : List Tree) (done : List NodeId) (deps : Dependents) : Prop :=
  ∀ c b, some b ∈ deps c ↔ (c ∉ done ∧ DependsOn tree c b) ∨
    ∃ u ∈ done, ∃ v, DependsOn tree u v ∧ redirect tree u v = (c, b)

theorem CorrectedUpTo.step (h : WellNamed tree) {done : List NodeId} {deps : Dependents}
    (hpresent : Present deps) (hdeps : CorrectedUpTo tree done deps) (x : NodeId) :
    CorrectedUpTo tree (done ++ [x]) (correctStage tree deps x) := by
  intro c b
  rw [(h.correctStage hpresent x).2 c b]
  simp only [List.mem_append, List.mem_singleton, not_or]
  constructor
  · rintro (⟨hcx, hb⟩ | ⟨v, hv, hr⟩)
    · rcases (hdeps c b).mp hb with ⟨hc, hD⟩ | ⟨u, hu, hD⟩
      · exact Or.inl ⟨⟨hc, hcx⟩, hD⟩
      · exact Or.inr ⟨u, Or.inl hu, hD⟩
    · rcases (hdeps x v).mp hv with ⟨-, hD⟩ | ⟨u, hu, v', hD, hr'⟩
      · exact Or.inr ⟨x, Or.inr rfl, v, hD, hr⟩
      · -- What was added to `x` is settled.
        rw [h.redirect_redirect hr'] at hr
        exact Or.inr ⟨u, Or.inl hu, v', hD, hr'.trans hr⟩
  · rintro (⟨⟨hc, hcx⟩, hD⟩ | ⟨u, hu, v, hD, hr⟩)
    · exact Or.inl ⟨hcx, (hdeps c b).mpr (Or.inl ⟨hc, hD⟩)⟩
    · by_cases hdone : u ∈ done
      · have hb : some b ∈ deps c := (hdeps c b).mpr (Or.inr ⟨u, hdone, v, hD, hr⟩)
        by_cases hcx : c = x
        · subst hcx
          exact Or.inr ⟨b, hb, h.redirect_redirect hr⟩
        · exact Or.inl ⟨hcx, hb⟩
      · obtain rfl := hu.resolve_left hdone
        exact Or.inr ⟨v, (hdeps u v).mpr (Or.inl ⟨hdone, hD⟩), hr⟩

/-- **All stages.** The dependencies are those of the tree, redirected. -/
theorem WellNamed.correctStageDependencies (h : WellNamed tree) (c b : NodeId) :
    some b ∈ correctStageDependencies tree c ↔
      ∃ u v, DependsOn tree u v ∧ redirect tree u v = (c, b) := by
  have hloop : ∀ (stages done : List NodeId) (deps : Dependents), Present deps →
      CorrectedUpTo tree done deps →
        CorrectedUpTo tree (done ++ stages) (stages.foldl (StageCoarsening.correctStage tree) deps) := by
    intro stages
    induction stages with
    | nil =>
      intro done deps _ hdeps
      simpa using hdeps
    | cons x stages ih =>
      intro done deps hpresent hdeps
      have hnext := ih (done ++ [x]) _ (h.correctStage hpresent x).1 (hdeps.step h hpresent x)
      rwa [List.append_assoc] at hnext
  have hstart : CorrectedUpTo tree [] (getDependencies tree) := by
    intro c b
    simp [DependsOn]
  have hend := hloop (allStages tree) [] _ (present_getDependencies tree) hstart c b
  rw [StageCoarsening.correctStageDependencies, hend, List.nil_append]
  constructor
  · rintro (⟨hc, hD⟩ | ⟨u, -, v, hD⟩)
    · exact absurd (mem_allStages_of_dependsOn hD) hc
    · exact ⟨u, v, hD⟩
  · rintro ⟨u, v, hD, hr⟩
    exact Or.inr ⟨u, mem_allStages_of_dependsOn hD, v, hD, hr⟩

end StageCoarsening
