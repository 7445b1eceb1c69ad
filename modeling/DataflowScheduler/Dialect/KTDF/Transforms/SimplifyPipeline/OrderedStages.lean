import DataflowScheduler.Dialect.KTDF.Transforms.SimplifyPipeline.OrderStages

/-!
# Ordered stages

The components that were moved stand in front of all their consumers, and stay there: later moves are
of other components, whose consumers were all moved before.
-/

namespace DataflowScheduler

namespace OrderStages

open Relation (ReflTransGen)

theorem mem_stagesOf {body : List BodyOp} {s : StageId} :
    s ∈ stagesOf body ↔ BodyOp.stage s ∈ body := by
  rw [stagesOf, List.mem_filterMap]
  constructor
  · rintro ⟨op, hmem, hop⟩
    cases op with
    | stage t =>
        cases hop
        exact hmem
    | privateOp => cases hop
    | other _ => cases hop
  · intro hmem
    exact ⟨_, hmem, rfl⟩

/-! ## The earliest consumer -/

section Earliest

variable {body : List BodyOp} {scc : List StageId}

/-- A consumer in the body and outside of the component. -/
def IsCandidate (body : List BodyOp) (scc : List StageId) (b : StageId) : Prop :=
  BodyOp.stage b ∈ body ∧ b ∉ scc

theorem earlierConsumer_of_not {b : StageId} (h : ¬IsCandidate body scc b) (acc : Option StageId) :
    earlierConsumer body scc acc b = acc := by
  apply if_pos
  by_cases hb : BodyOp.stage b ∈ body
  · exact .inr (by_contra fun hscc => h ⟨hb, hscc⟩)
  · exact .inl hb

theorem earlierConsumer_of_candidate {b : StageId} (h : IsCandidate body scc b)
    (acc : Option StageId) : ∃ e, earlierConsumer body scc acc b = some e ∧
      (acc = some e ∨ e = b) ∧ body.idxOf (.stage e) ≤ body.idxOf (.stage b) ∧
      ∀ e' ∈ acc, body.idxOf (.stage e) ≤ body.idxOf (.stage e') := by
  have hnot : ¬(BodyOp.stage b ∉ body ∨ b ∈ scc) := by
    rintro (hb | hscc)
    · exact hb h.1
    · exact h.2 hscc
  unfold earlierConsumer
  rw [if_neg hnot]
  cases acc with
  | none => exact ⟨b, rfl, .inr rfl, Nat.le_refl _, nofun⟩
  | some e =>
      dsimp only
      split
      · next hlt =>
          refine ⟨b, rfl, .inr rfl, Nat.le_refl _, fun e' he' => ?_⟩
          cases he'
          exact Nat.le_of_lt hlt
      · next hge =>
          refine ⟨e, rfl, .inl rfl, Nat.not_lt.mp hge, fun e' he' => ?_⟩
          cases he'
          exact Nat.le_refl _

theorem foldl_earlierConsumer (l : List StageId) (acc : Option StageId) :
    (l.foldl (earlierConsumer body scc) acc = none →
      acc = none ∧ ∀ b ∈ l, ¬IsCandidate body scc b) ∧
    ∀ e, l.foldl (earlierConsumer body scc) acc = some e →
      (acc = some e ∨ (e ∈ l ∧ IsCandidate body scc e)) ∧
      (∀ b ∈ acc, body.idxOf (.stage e) ≤ body.idxOf (.stage b)) ∧
      ∀ b ∈ l, IsCandidate body scc b → body.idxOf (.stage e) ≤ body.idxOf (.stage b) := by
  induction l generalizing acc with
  | nil =>
      refine ⟨fun h => ⟨h, nofun⟩, fun e he => ⟨.inl he, fun b hb => ?_, nofun⟩⟩
      rw [List.foldl_nil] at he
      rw [he] at hb
      cases hb
      exact Nat.le_refl _
  | cons c l ih =>
      rw [List.foldl_cons]
      obtain ⟨hnone, hsome⟩ := ih (earlierConsumer body scc acc c)
      by_cases hc : IsCandidate body scc c
      · obtain ⟨first, hfirst, hfrom, hle, hleacc⟩ := earlierConsumer_of_candidate hc acc
        rw [hfirst] at hnone hsome ⊢
        constructor
        · intro h
          cases (hnone h).1
        · intro e he
          obtain ⟨hmem, hlefirst, hlel⟩ := hsome e he
          have hefirst := hlefirst first rfl
          refine ⟨?_, fun b hb => Nat.le_trans hefirst (hleacc b hb), fun b hb hcand => ?_⟩
          · rcases hmem with heq | ⟨hmem, hcand⟩
            · cases heq
              rcases hfrom with hacc | rfl
              · exact .inl hacc
              · exact .inr ⟨List.mem_cons_self, hc⟩
            · exact .inr ⟨List.mem_cons_of_mem _ hmem, hcand⟩
          · rcases List.mem_cons.mp hb with rfl | hb
            · exact Nat.le_trans hefirst hle
            · exact hlel b hb hcand
      · rw [earlierConsumer_of_not hc] at hnone hsome ⊢
        constructor
        · intro h
          refine ⟨(hnone h).1, fun b hb => ?_⟩
          rcases List.mem_cons.mp hb with rfl | hb
          · exact hc
          · exact (hnone h).2 b hb
        · intro e he
          obtain ⟨hmem, hleacc, hlel⟩ := hsome e he
          refine ⟨hmem.imp_right fun hm => ⟨List.mem_cons_of_mem _ hm.1, hm.2⟩, hleacc,
            fun b hb hcand => ?_⟩
          rcases List.mem_cons.mp hb with rfl | hb
          · exact absurd hcand hc
          · exact hlel b hb hcand

variable {consumers : StageId → List StageId}

theorem findEarliestConsumer_eq_none (h : findEarliestConsumer body consumers scc = none) :
    ∀ a ∈ scc, ∀ b ∈ consumers a, ¬IsCandidate body scc b := by
  intro a ha b hb
  exact ((foldl_earlierConsumer _ _).1 h).2 b (List.mem_flatMap.mpr ⟨a, ha, hb⟩)

theorem findEarliestConsumer_eq_some (hnodup : body.Nodup) {e : StageId}
    (h : findEarliestConsumer body consumers scc = some e) :
    IsCandidate body scc e ∧ (∃ a ∈ scc, e ∈ consumers a) ∧
      ∀ a ∈ scc, ∀ b ∈ consumers a, IsCandidate body scc b →
        b = e ∨ Precedes body (.stage e) (.stage b) := by
  obtain ⟨hmem, -, hle⟩ := (foldl_earlierConsumer _ _).2 e h
  obtain ⟨hflat, hcand⟩ := hmem.resolve_left nofun
  refine ⟨hcand, List.mem_flatMap.mp hflat, fun a ha b hb hb' => ?_⟩
  by_cases hbe : b = e
  · exact .inl hbe
  · refine .inr ((Precedes.iff_idxOf hnodup hcand.1 hb'.1).mpr ?_)
    refine Nat.lt_of_le_of_ne (hle b (List.mem_flatMap.mpr ⟨a, ha, hb⟩) hb') fun heq => hbe ?_
    exact (BodyOp.stage.inj ((List.idxOf_inj hcand.1).mp heq)).symm

end Earliest

/-! ## Moving a component -/

/-- The stages of a component that a move takes along. -/
structure MovedInFront (p : Pipeline) (scc : List StageId) (body : List BodyOp)
    (moved : List BodyOp × Bool) : Prop where
  perm : moved.1.Perm body
  privateFirst : body.head? = some .privateOp → moved.1.head? = some .privateOp
  same : ∀ x y, inScc scc x = inScc scc y → (Precedes moved.1 x y ↔ Precedes body x y)
  upwards : ∀ x y, inScc scc x = true → inScc scc y = false → Precedes body x y →
    Precedes moved.1 x y
  front : ∀ a ∈ scc, BodyOp.stage a ∈ body → ∀ c ∈ scc, ∀ b, p.Edge c b →
    IsCandidate body scc b → Precedes moved.1 (.stage a) (.stage b)
  unchanged : moved.2 = false → moved.1 = body
  changed : moved.2 = true → ∃ a ∈ scc, ∃ c ∈ scc, ∃ e, p.Edge c e ∧ IsCandidate body scc e ∧
    Precedes body (.stage e) (.stage a) ∧ Precedes moved.1 (.stage a) (.stage e)

theorem inScc_stage {scc : List StageId} {a : StageId} :
    inScc scc (.stage a) = true ↔ a ∈ scc := List.contains_iff_mem

theorem inScc_stage_eq_false {scc : List StageId} {a : StageId} :
    inScc scc (.stage a) = false ↔ a ∉ scc := by
  rw [← Bool.not_eq_true, inScc_stage]

theorem exists_of_inScc {scc : List StageId} {op : BodyOp} (h : inScc scc op = true) :
    ∃ a ∈ scc, op = .stage a := by
  cases op with
  | stage a => exact ⟨a, inScc_stage.mp h, rfl⟩
  | privateOp => cases h
  | other _ => cases h

theorem moveInFrontOfConsumers_moved (p : Pipeline) {body : List BodyOp} (hnodup : body.Nodup)
    (scc : List StageId) :
    MovedInFront p scc body (moveInFrontOfConsumers body p.consumers scc) := by
  unfold moveInFrontOfConsumers
  split
  · next hnone =>
      refine ⟨.refl _, id, fun _ _ _ => Iff.rfl, fun _ _ _ _ h => h, ?_, fun _ => rfl, nofun⟩
      intro a _ _ c hc b hb hcand
      exact absurd hcand (findEarliestConsumer_eq_none hnone c hc b hb)
  · next e hsome =>
      obtain ⟨hcand, ⟨c, hc, hce⟩, hearliest⟩ := findEarliestConsumer_eq_some hnodup hsome
      have hsplit := List.takeWhile_append_cons_tail hcand.1
      have hnot : inScc scc (.stage e) = false := inScc_stage_eq_false.mpr hcand.2
      dsimp only
      generalize body.takeWhile (· != .stage e) = front at hsplit ⊢
      generalize (body.dropWhile (· != .stage e)).tail = behind at hsplit ⊢
      subst hsplit
      constructor
      · exact List.movedInFront_perm
      · intro hhead
        cases front with
        | nil => cases hhead
        | cons op front => exact hhead
      · intro x y hxy
        exact List.precedes_movedInFront_of_eq hnot hxy
      · intro x y hx hy hxy
        exact List.precedes_movedInFront hnot hx hy hxy
      · intro a ha hmem c hc b hb hb'
        refine List.precedes_movedInFront_of_behind hnot (inScc_stage.mpr ha) hmem
          (inScc_stage_eq_false.mpr hb'.2) ?_
        rcases hearliest c hc b hb hb' with rfl | hbehind
        · exact .inl rfl
        · exact .inr (List.mem_behind_of_precedes hnodup hbehind)
      · intro hany
        apply List.movedInFront_of_nil
        rw [List.filter_eq_nil_iff]
        intro op hop
        exact List.any_eq_false.mp hany op hop
      · intro hany
        obtain ⟨op, hop, hin⟩ := List.any_eq_true.mp hany
        obtain ⟨a, ha, rfl⟩ := exists_of_inScc hin
        refine ⟨a, ha, c, hc, e, hce, hcand, ?_, ?_⟩
        · exact (Precedes.cons hop).append_right _
        · exact List.precedes_movedInFront_of_behind hnot hin
            (List.mem_append_right _ (List.mem_cons_of_mem _ hop)) hnot (.inl rfl)

/-! ## The components in place -/

/-- A stage that was removed from the worklist. -/
def Processed (p : Pipeline) (s : OrderState) (a : StageId) : Prop := a ∈ p.stages ∧ a ∉ s.worklist

/-- The stages that were processed stand in front of the consumers of their components. -/
structure Placed (p : Pipeline) (s : OrderState) : Prop where
  perm : s.body.Perm p.body
  worklist : s.worklist.Sublist p.stages
  privateFirst : .privateOp ∈ p.body → s.body.head? = some .privateOp
  closed : ∀ a b, Processed p s a → ReflTransGen p.Edge a b → b ∈ p.stages → Processed p s b
  front : ∀ a c b, Processed p s a → SameComponent p.Edge a c → p.Edge c b → b ∈ p.stages →
    ¬SameComponent p.Edge a b → Precedes s.body (.stage a) (.stage b)
  components : ∀ a b, SameComponent p.Edge a b →
    (Precedes s.body (.stage a) (.stage b) ↔ Precedes p.body (.stage a) (.stage b))
  unchanged : s.changed = false → s.body = p.body
  changed : s.changed = true → (.privateOp ∈ p.body ∧ p.body.head? ≠ some .privateOp) ∨
    ∃ a b, Processed p s a ∧ Processed p s b ∧ Precedes p.body (.stage b) (.stage a) ∧
      Precedes s.body (.stage a) (.stage b)

section Placed

variable {p : Pipeline} {s : OrderState} {scc : List StageId}

theorem visitScc_of_notMem {front : StageId} {rest : List StageId} (h : front ∉ s.worklist) :
    visitScc p s (front :: rest) = s := if_pos h

theorem visitScc_of_mem {front : StageId} {rest : List StageId} (h : front ∈ s.worklist) :
    visitScc p s (front :: rest) =
      ⟨(moveInFrontOfConsumers s.body p.consumers (front :: rest)).1,
        s.worklist.filter fun stage => !(front :: rest).contains stage,
        s.changed || (moveInFrontOfConsumers s.body p.consumers (front :: rest)).2⟩ :=
  if_neg (not_not.mpr h)

theorem visitScc_worklist_sublist : (visitScc p s scc).worklist.Sublist s.worklist := by
  cases scc with
  | nil => exact .refl _
  | cons front rest =>
      by_cases hfront : front ∈ s.worklist
      · rw [visitScc_of_mem hfront]
        exact List.filter_sublist
      · rw [visitScc_of_notMem hfront]

theorem Processed.mono {s' : OrderState} (h : s'.worklist.Sublist s.worklist) {a : StageId}
    (ha : Processed p s a) : Processed p s' a := ⟨ha.1, fun hmem => ha.2 (h.subset hmem)⟩

/-- A component can be placed when what it reaches is. -/
theorem Placed.visit (hnodup : p.body.Nodup) (h : Placed p s)
    (hcomp : ∀ a ∈ scc, ∀ b, b ∈ scc ↔ SameComponent p.Edge a b)
    (hready : ∀ a ∈ scc, ∀ b ∈ p.stages, ReflTransGen p.Edge a b → b ∈ scc ∨ Processed p s b)
    (hfront : (∃ a ∈ scc, a ∈ s.worklist) → ∀ front ∈ scc.head?, front ∈ s.worklist) :
    Placed p (visitScc p s scc) ∧ ∀ a ∈ scc, a ∈ p.stages → Processed p (visitScc p s scc) a := by
  cases scc with
  | nil => exact ⟨h, nofun⟩
  | cons front rest =>
      by_cases hmem : front ∈ s.worklist
      case neg =>
        rw [visitScc_of_notMem hmem]
        exact ⟨h, fun a ha ha' => ⟨ha', fun hwork => hmem (hfront ⟨a, ha, hwork⟩ front rfl)⟩⟩
      rw [visitScc_of_mem hmem]
      have hmoved := moveInFrontOfConsumers_moved p (h.perm.nodup_iff.mpr hnodup) (front :: rest)
      have hhead : front ∈ front :: rest := List.mem_cons_self
      generalize front :: rest = scc at *
      generalize moveInFrontOfConsumers s.body p.consumers scc = moved at *
      have hbody : ∀ b, BodyOp.stage b ∈ s.body ↔ b ∈ p.stages := fun b => by
        rw [h.perm.mem_iff, Pipeline.stages, mem_stagesOf]
      -- no stage of the component was processed
      have hnew : ∀ a, Processed p s a → a ∉ scc := by
        intro a ha hscc
        have hreach := ((hcomp a hscc front).mp hhead).1
        exact (h.closed a front ha hreach (h.worklist.subset hmem)).2 hmem
      have hprocessed : ∀ a, Processed p ⟨moved.1, s.worklist.filter fun stage =>
          !scc.contains stage, s.changed || moved.2⟩ a ↔
            a ∈ p.stages ∧ (a ∈ scc ∨ Processed p s a) := by
        intro a
        show a ∈ p.stages ∧ a ∉ s.worklist.filter (fun stage => !scc.contains stage) ↔ _
        rw [List.mem_filter, Bool.not_eq_true', ← Bool.not_eq_true, List.contains_iff_mem]
        unfold Processed
        tauto
      have hsame : ∀ a b, a ∉ scc → b ∉ scc → (Precedes moved.1 (.stage a) (.stage b) ↔
          Precedes s.body (.stage a) (.stage b)) := by
        intro a b ha hb
        apply hmoved.same
        rw [inScc_stage_eq_false.mpr ha, inScc_stage_eq_false.mpr hb]
      refine ⟨⟨hmoved.perm.trans h.perm, List.filter_sublist.trans h.worklist,
        fun hprivate => hmoved.privateFirst (h.privateFirst hprivate), ?_, ?_, ?_, ?_, ?_⟩, ?_⟩
      · intro a b ha hab hb
        refine (hprocessed b).mpr ⟨hb, ?_⟩
        rcases ((hprocessed a).mp ha).2 with hscc | ha
        · exact hready a hscc b hb hab
        · exact .inr (h.closed a b ha hab hb)
      · intro a c b ha hac hcb hb hab
        rcases ((hprocessed a).mp ha).2 with hscc | ha'
        · have hb' : b ∉ scc := fun hmem => hab ((hcomp a hscc b).mp hmem)
          exact hmoved.front a hscc ((hbody a).mpr ha.1) c ((hcomp a hscc c).mpr hac) b hcb
            ⟨(hbody b).mpr hb, hb'⟩
        · have hb' := h.closed a b ha' (hac.1.tail hcb) hb
          exact (hsame a b (hnew a ha') (hnew b hb')).mpr (h.front a c b ha' hac hcb hb hab)
      · intro a b hab
        rw [← h.components a b hab]
        apply hmoved.same
        by_cases ha : a ∈ scc
        · rw [inScc_stage.mpr ha, inScc_stage.mpr ((hcomp a ha b).mpr hab)]
        · have hb : b ∉ scc := fun hb => ha ((hcomp b hb a).mpr hab.symm)
          rw [inScc_stage_eq_false.mpr ha, inScc_stage_eq_false.mpr hb]
      · intro hflag
        rw [Bool.or_eq_false_iff] at hflag
        exact (hmoved.unchanged hflag.2).trans (h.unchanged hflag.1)
      · intro hflag
        by_cases hold : s.changed = true
        · refine (h.changed hold).imp_right ?_
          rintro ⟨a, b, ha, hb, hbefore, hafter⟩
          exact ⟨a, b, (hprocessed a).mpr ⟨ha.1, .inr ha⟩, (hprocessed b).mpr ⟨hb.1, .inr hb⟩, hbefore,
            (hsame a b (hnew a ha) (hnew b hb)).mpr hafter⟩
        · rw [Bool.not_eq_true] at hold
          have hmove : moved.2 = true := by
            rw [← hflag, hold, Bool.false_or]
          obtain ⟨a, ha, c, hc, e, hce, hcand, hbefore, hafter⟩ := hmoved.changed hmove
          have he := (hbody e).mp hcand.1
          have hreach := ((hcomp a ha c).mp hc).1.tail hce
          rw [h.unchanged hold] at hbefore
          refine .inr ⟨a, e, (hprocessed a).mpr ⟨?_, .inl ha⟩, (hprocessed e).mpr ⟨he, .inr ?_⟩,
            hbefore, hafter⟩
          · rw [Pipeline.stages, mem_stagesOf]
            exact hbefore.mem_right
          · exact (hready a ha e he hreach).resolve_left hcand.2
      · intro a ha ha'
        exact (hprocessed a).mpr ⟨ha', .inl ha⟩

end Placed

end OrderStages

end DataflowScheduler
