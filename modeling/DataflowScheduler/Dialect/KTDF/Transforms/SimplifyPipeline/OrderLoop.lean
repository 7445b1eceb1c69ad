import DataflowScheduler.Dialect.KTDF.Transforms.SimplifyPipeline.OrderedStages

/-!
# The loop that orders the stages

Every search empties the worklist a bit further, unless it emits the component of its root with a stage
of another pipeline in front. Then the next search is the same one.
-/

namespace DataflowScheduler

namespace OrderStages

open Relation (ReflTransGen)

variable {p : Pipeline}

/-! ## One search -/

section Search

variable {s : OrderState} {root : StageId}

theorem foldl_visitScc_worklist (sccs : List (List StageId)) (s : OrderState) :
    (sccs.foldl (visitScc p) s).worklist.Sublist s.worklist := by
  induction sccs generalizing s with
  | nil => exact .refl _
  | cons scc sccs ih => exact (ih (visitScc p s scc)).trans visitScc_worklist_sublist

/-- A search places all components it emits. -/
theorem Placed.search (hnodup : p.body.Nodup) (h : Placed p s) {sccs : List (List StageId)}
    (hemits : EmitsComponents p.Edge root sccs)
    (hfront : ∀ scc ∈ sccs, (∀ front ∈ scc.head?, front ∈ p.stages) ∨
      ∀ a ∈ scc, a ∈ p.stages → Processed p s a) :
    Placed p (sccs.foldl (visitScc p) s) ∧
      ∀ a ∈ sccs.flatten, a ∈ p.stages → Processed p (sccs.foldl (visitScc p) s) a := by
  have hrest : ∀ (rest before : List (List StageId)) (t : OrderState), sccs = before ++ rest →
      t.worklist.Sublist s.worklist → Placed p t →
      (∀ a ∈ before.flatten, a ∈ p.stages → Processed p t a) →
      Placed p (rest.foldl (visitScc p) t) ∧
        ∀ a ∈ sccs.flatten, a ∈ p.stages → Processed p (rest.foldl (visitScc p) t) a := by
    intro rest
    induction rest with
    | nil =>
        intro before t hsplit _ ht hbefore
        rw [List.append_nil] at hsplit
        exact ⟨ht, hsplit ▸ hbefore⟩
    | cons scc rest ih =>
        intro before t hsplit hsub ht hbefore
        have hmem : scc ∈ sccs := by
          rw [hsplit]
          exact List.mem_append_right _ List.mem_cons_self
        have hcomp := hemits.mem_iff scc hmem
        have hready : ∀ a ∈ scc, ∀ b ∈ p.stages, ReflTransGen p.Edge a b →
            b ∈ scc ∨ Processed p t b := by
          intro a ha b hb hab
          rcases hemits.mem_of_reaches hsplit ha hab with hb' | hb'
          · exact .inr (hbefore b hb' hb)
          · exact .inl hb'
        -- the first stage is in the worklist if any is
        have hhead : (∃ a ∈ scc, a ∈ t.worklist) → ∀ front ∈ scc.head?, front ∈ t.worklist := by
          rintro ⟨a, ha, hwork⟩ front hhead
          have ha' := ht.worklist.subset hwork
          by_contra hnot
          rcases hfront scc hmem with hstage | hdone
          · have hreach := ((hcomp front (List.mem_of_mem_head? hhead) a).mp ha).1
            exact (ht.closed front a ⟨hstage front hhead, hnot⟩ hreach ha').2 hwork
          · exact (hdone a ha ha').2 (hsub.subset hwork)
        obtain ⟨hplaced, hdone⟩ := ht.visit hnodup hcomp hready hhead
        refine ih (before ++ [scc]) (visitScc p t scc) ?_ (visitScc_worklist_sublist.trans hsub)
          hplaced fun a ha ha' => ?_
        · rw [hsplit, List.append_assoc, List.singleton_append]
        · rw [List.flatten_append, List.flatten_singleton, List.mem_append] at ha
          rcases ha with ha | ha
          · exact (hbefore a ha ha').mono visitScc_worklist_sublist
          · exact hdone a ha ha'
  exact hrest sccs [] s rfl (.refl _) h nofun

end Search

/-! ## The loop -/

theorem stages_nodup (hvalid : p.Valid) : p.stages.Nodup := by
  apply List.Nodup.filterMap _ hvalid.nodup
  intro op op' a hop hop'
  cases op <;> cases op' <;> cases hop <;> cases hop'
  rfl

/-- What stands before the first stage of the worklist was processed. -/
theorem processed_of_precedes (hvalid : p.Valid) {s : OrderState} (h : Placed p s) {root : StageId}
    {rest : List StageId} (hwork : s.worklist = root :: rest) {b : StageId}
    (hb : Precedes p.stages b root) : Processed p s b := by
  refine ⟨hb.mem_left, fun hmem => ?_⟩
  rw [hwork] at hmem
  have hrest := (List.mem_cons.mp hmem).resolve_left (hb.ne (stages_nodup hvalid))
  have hsub := h.worklist
  rw [hwork] at hsub
  exact hb.asymm (stages_nodup hvalid) ((Precedes.cons hrest).trans hsub)

theorem orderLoop_of_fronts (hvalid : p.Valid) (hfronts : p.FrontsInPipeline) {s : OrderState}
    (h : Placed p s) {fuel : Nat} (hfuel : s.worklist.length < fuel) :
    ∃ t, orderLoop p fuel s = some t ∧ Placed p t ∧ t.worklist = [] := by
  induction fuel generalizing s with
  | zero => cases hfuel
  | succ fuel ih =>
      cases hwork : s.worklist with
      | nil => exact ⟨s, by rw [orderLoop, hwork], h, hwork⟩
      | cons root rest =>
          have hroot : root ∈ p.stages := h.worklist.subset (hwork ▸ List.mem_cons_self)
          have hemits := hvalid.emits root hroot
          have hfront : ∀ scc ∈ p.sccs root, (∀ front ∈ scc.head?, front ∈ p.stages) ∨
              ∀ a ∈ scc, a ∈ p.stages → Processed p s a := by
            intro scc hscc
            by_cases hfirst : ∀ b, Precedes p.stages b root → ∀ a ∈ scc, ¬ReflTransGen p.Edge b a
            · by_cases hstage : ∃ a ∈ scc, a ∈ p.stages
              · exact .inl (hfronts root hroot scc hscc hstage hfirst)
              · exact .inr fun a ha ha' => absurd ⟨a, ha, ha'⟩ hstage
            · push Not at hfirst
              obtain ⟨b, hb, a, ha, hba⟩ := hfirst
              refine .inr fun a' ha' hstage => ?_
              exact h.closed b a' (processed_of_precedes hvalid h hwork hb)
                (hba.trans ((hemits.mem_iff scc hscc a ha a').mp ha').1) hstage
          obtain ⟨hplaced, hdone⟩ := h.search hvalid.nodup hemits hfront
          have hprocessed := hdone root ((hemits.mem_flatten root).mpr .refl) hroot
          have hsub := foldl_visitScc_worklist (p := p) (p.sccs root) s
          rw [hwork] at hsub
          have hshorter := (List.sublist_cons_iff.mp hsub).resolve_right (by
            rintro ⟨r, hr, -⟩
            exact hprocessed.2 (hr ▸ List.mem_cons_self))
          rw [hwork, List.length_cons] at hfuel
          obtain ⟨t, ht, hresult⟩ := ih hplaced
            (Nat.lt_of_le_of_lt hshorter.length_le (Nat.lt_of_succ_lt_succ hfuel))
          exact ⟨t, by rw [orderLoop, hwork]; exact ht, hresult⟩

/-! ### Before the loop -/

theorem stage_ne_privateOp (a : StageId) : (BodyOp.stage a != .privateOp) = true := rfl

theorem precedes_movePrivateOp {body : List BodyOp} (hnodup : body.Nodup) (a b : StageId) :
    Precedes (movePrivateOp body).1 (.stage a) (.stage b) ↔ Precedes body (.stage a) (.stage b) := by
  unfold movePrivateOp
  split
  · rw [hnodup.erase_eq_filter]
    constructor
    · intro h
      rcases h.cons_cases with ⟨hop, -⟩ | h
      · cases hop
      · exact h.of_filter
    · intro h
      exact (h.filter (stage_ne_privateOp a) (stage_ne_privateOp b)).trans
        (List.sublist_cons_self _ _)
  · exact Iff.rfl

theorem placed_startState (hvalid : p.Valid) : Placed p (startState p.body) := by
  have hnone : ∀ a, ¬Processed p (startState p.body) a := fun a ha => ha.2 ha.1
  refine ⟨?_, .refl _, fun hprivate => ?_, fun a _ ha => absurd ha (hnone a),
    fun a _ _ ha => absurd ha (hnone a), fun a b _ => precedes_movePrivateOp hvalid.nodup a b,
    fun hflag => ?_, fun hflag => ?_⟩
  · show (movePrivateOp p.body).1.Perm p.body
    unfold movePrivateOp
    split
    · next hcond => exact (List.perm_cons_erase hcond.1).symm
    · exact .refl _
  · show (movePrivateOp p.body).1.head? = _
    unfold movePrivateOp
    split
    · rfl
    · next hcond => exact by_contra fun hhead => hcond ⟨hprivate, hhead⟩
  · show (movePrivateOp p.body).1 = p.body
    change (movePrivateOp p.body).2 = false at hflag
    unfold movePrivateOp at hflag ⊢
    split at hflag
    · cases hflag
    · next hcond => rw [if_neg hcond]
  · change (movePrivateOp p.body).2 = true at hflag
    unfold movePrivateOp at hflag
    split at hflag
    · next hcond => exact .inl hcond
    · cases hflag

/-- Where all stages are in place, the pipeline is ordered. -/
theorem Placed.ordered (hvalid : p.Valid) {s : OrderState} (h : Placed p s)
    (hwork : s.worklist = []) : Ordered p (s.body, s.changed) := by
  have hall : ∀ a ∈ p.stages, Processed p s a := by
    intro a ha
    refine ⟨ha, ?_⟩
    rw [hwork]
    exact List.not_mem_nil
  refine ⟨h.perm, h.privateFirst, fun a ha b hb hab hne => ?_, h.components, fun hflag => ?_,
    fun hne => ?_⟩
  · exact h.front a a b (hall a ha) (.refl a) hab hb hne
  · intro heq
    rcases h.changed hflag with ⟨hprivate, hhead⟩ | ⟨a, b, -, -, hbefore, hafter⟩
    · exact hhead (heq ▸ h.privateFirst hprivate)
    · exact hbefore.asymm hvalid.nodup (heq ▸ hafter)
  · by_contra hflag
    exact hne (h.unchanged (Bool.not_eq_true _ ▸ hflag))

/-! ## The second application -/

/-- Every stage stands in front of the consumers of its component, and the private op first. -/
structure InPlace (p : Pipeline) : Prop where
  privateFirst : .privateOp ∈ p.body → p.body.head? = some .privateOp
  front : ∀ a ∈ p.stages, ∀ c b, SameComponent p.Edge a c → p.Edge c b → b ∈ p.stages →
    ¬SameComponent p.Edge a b → Precedes p.body (.stage a) (.stage b)

section InPlace

theorem InPlace.visit (hvalid : p.Valid) (h : InPlace p) {s : OrderState} {root : StageId}
    (hroot : root ∈ p.stages) {scc : List StageId} (hscc : scc ∈ p.sccs root) (hbody : s.body = p.body)
    (hchanged : s.changed = false) :
    (visitScc p s scc).body = p.body ∧ (visitScc p s scc).changed = false := by
  cases scc with
  | nil => exact ⟨hbody, hchanged⟩
  | cons front rest =>
      by_cases hfront : front ∈ s.worklist
      case neg =>
        rw [visitScc_of_notMem hfront]
        exact ⟨hbody, hchanged⟩
      have hcomp := (hvalid.emits root hroot).mem_iff _ hscc
      rw [visitScc_of_mem hfront, hbody, hchanged, Bool.false_or]
      have hmoved := moveInFrontOfConsumers_moved p hvalid.nodup (front :: rest)
      have hstay : (moveInFrontOfConsumers p.body p.consumers (front :: rest)).2 = false := by
        by_contra hmove
        obtain ⟨a, ha, c, hc, e, hce, hcand, hbefore, -⟩ :=
          hmoved.changed (Bool.not_eq_false _ ▸ hmove)
        have ha' : a ∈ p.stages := mem_stagesOf.mpr hbefore.mem_right
        have hae := h.front a ha' c e ((hcomp a ha c).mp hc) hce (mem_stagesOf.mpr hcand.1)
          fun hsame => hcand.2 ((hcomp a ha e).mpr hsame)
        exact hae.asymm hvalid.nodup hbefore
      exact ⟨hmoved.unchanged hstay, hstay⟩

theorem InPlace.orderLoop (hvalid : p.Valid) (h : InPlace p) {fuel : Nat} {s t : OrderState}
    (hsub : s.worklist.Sublist p.stages) (hbody : s.body = p.body) (hchanged : s.changed = false)
    (hrun : orderLoop p fuel s = some t) : t.body = p.body ∧ t.changed = false := by
  have hsearch : ∀ {root : StageId}, root ∈ p.stages → ∀ (sccs : List (List StageId)) (u : OrderState),
      (∀ scc ∈ sccs, scc ∈ p.sccs root) → u.body = p.body → u.changed = false →
      (sccs.foldl (visitScc p) u).body = p.body ∧ (sccs.foldl (visitScc p) u).changed = false := by
    intro root hroot sccs
    induction sccs with
    | nil => exact fun u _ hbody hchanged => ⟨hbody, hchanged⟩
    | cons scc sccs ih =>
        intro u hmem hbody hchanged
        obtain ⟨hbody', hchanged'⟩ := h.visit hvalid hroot (hmem scc List.mem_cons_self) hbody hchanged
        exact ih _ (fun d hd => hmem d (List.mem_cons_of_mem _ hd)) hbody' hchanged'
  induction fuel generalizing s with
  | zero => cases hrun
  | succ fuel ih =>
      cases hwork : s.worklist with
      | nil =>
          rw [OrderStages.orderLoop, hwork] at hrun
          cases hrun
          exact ⟨hbody, hchanged⟩
      | cons root rest =>
          rw [OrderStages.orderLoop, hwork] at hrun
          have hroot : root ∈ p.stages := hsub.subset (hwork ▸ List.mem_cons_self)
          obtain ⟨hbody', hchanged'⟩ := hsearch hroot (p.sccs root) s (fun _ hd => hd) hbody hchanged
          exact ih ((foldl_visitScc_worklist _ _).trans hsub) hbody' hchanged' hrun

/-- A pipeline in place is reported unchanged. -/
theorem InPlace.again (hvalid : p.Valid) (h : InPlace p) {result : List BodyOp × Bool}
    (hrun : p.TerminatesWith result) : result = (p.body, false) := by
  obtain ⟨fuel, hrun⟩ := hrun
  have hmove : movePrivateOp p.body = (p.body, false) :=
    if_neg fun hcond => hcond.2 (h.privateFirst hcond.1)
  rw [orderStages, startState, hmove] at hrun
  obtain ⟨t, ht, rfl⟩ := Option.map_eq_some_iff.mp hrun
  obtain ⟨hbody, hchanged⟩ := h.orderLoop hvalid (.refl _) rfl rfl ht
  rw [hbody, hchanged]

end InPlace

/-! ## A component that is skipped forever -/

/-- The component of a stage comes with a stage of the pipeline in front, if the search starts from the
stage before any other one reaches it. -/
def Pipeline.RootFrontsInPipeline (p : Pipeline) : Prop :=
  ∀ root ∈ p.stages, (∀ b, Precedes p.stages b root → ¬ReflTransGen p.Edge b root) →
    ∀ scc ∈ p.sccs root, root ∈ scc → ∀ front ∈ scc.head?, front ∈ p.stages

theorem mem_worklist_visitScc {s : OrderState} {scc : List StageId} {root : StageId}
    (hsub : s.worklist.Sublist p.stages)
    (hfront : root ∈ scc → ∃ front ∈ scc.head?, front ∉ p.stages) (h : root ∈ s.worklist) :
    root ∈ (visitScc p s scc).worklist := by
  cases scc with
  | nil => exact h
  | cons front rest =>
      by_cases hmem : front ∈ s.worklist
      · rw [visitScc_of_mem hmem]
        refine List.mem_filter.mpr ⟨h, ?_⟩
        rw [Bool.not_eq_true', ← Bool.not_eq_true, List.contains_iff_mem]
        intro hroot
        obtain ⟨front', hhead, hforeign⟩ := hfront hroot
        cases hhead
        exact hforeign (hsub.subset hmem)
      · rw [visitScc_of_notMem hmem]
        exact h

theorem orderLoop_eq_none (hvalid : p.Valid) {root : StageId}
    (hfirst : ∀ b, Precedes p.stages b root → ¬ReflTransGen p.Edge b root)
    (hforeign : ∀ scc ∈ p.sccs root, root ∈ scc → ∃ front ∈ scc.head?, front ∉ p.stages)
    (fuel : Nat) (s : OrderState) (hsub : s.worklist.Sublist p.stages) (h : root ∈ s.worklist) :
    orderLoop p fuel s = none := by
  have hsearch : ∀ (sccs : List (List StageId)) (t : OrderState),
      (∀ scc ∈ sccs, root ∈ scc → ∃ front ∈ scc.head?, front ∉ p.stages) →
      t.worklist.Sublist p.stages → root ∈ t.worklist →
      root ∈ (sccs.foldl (visitScc p) t).worklist := by
    intro sccs
    induction sccs with
    | nil => exact fun t _ _ ht => ht
    | cons scc sccs ih =>
        intro t hfront hsub ht
        refine ih (visitScc p t scc) (fun d hd => hfront d (List.mem_cons_of_mem _ hd))
          (visitScc_worklist_sublist.trans hsub) ?_
        exact mem_worklist_visitScc hsub (hfront scc List.mem_cons_self) ht
  induction fuel generalizing s with
  | zero => rfl
  | succ fuel ih =>
      cases hwork : s.worklist with
      | nil =>
          rw [hwork] at h
          cases h
      | cons r rest =>
          rw [orderLoop, hwork]
          refine ih _ ((foldl_visitScc_worklist _ _).trans hsub) (hsearch _ _ ?_ hsub h)
          intro scc hscc hmem
          by_cases hr : r = root
          · exact hforeign scc (hr ▸ hscc) hmem
          · -- a search from an earlier stage does not reach the root
            rw [hwork] at h hsub
            have hrest := (List.mem_cons.mp h).resolve_left (Ne.symm hr)
            have hr' : r ∈ p.stages := hsub.subset List.mem_cons_self
            have hreach := ((hvalid.emits r hr').mem_flatten root).mp
              (List.mem_flatten.mpr ⟨scc, hscc, hmem⟩)
            exact absurd hreach (hfirst r ((Precedes.cons hrest).trans hsub))

theorem rootFronts_of_terminates (hvalid : p.Valid) {result : List BodyOp × Bool}
    (hrun : p.TerminatesWith result) : p.RootFrontsInPipeline := by
  intro root hroot hfirst scc hscc hmem front hhead
  by_contra hnot
  have hforeign : ∀ d ∈ p.sccs root, root ∈ d → ∃ front ∈ d.head?, front ∉ p.stages := by
    intro d hd hmem'
    have heq := (hvalid.emits root hroot).eq_of_mem hd hscc hmem' hmem
    exact ⟨front, heq ▸ hhead, hnot⟩
  obtain ⟨fuel, hrun⟩ := hrun
  rw [orderStages, orderLoop_eq_none hvalid hfirst hforeign fuel (startState p.body) (.refl _)
    hroot] at hrun
  cases hrun

/-! ## Ordered pipelines -/

/-- The pipeline with its ops in another order. -/
def Pipeline.reordered (p : Pipeline) (body : List BodyOp) : Pipeline := { p with body := body }

theorem mem_stages_reordered {body : List BodyOp} (h : body.Perm p.body) {a : StageId} :
    a ∈ (p.reordered body).stages ↔ a ∈ p.stages := by
  rw [Pipeline.stages, mem_stagesOf, Pipeline.stages, mem_stagesOf]
  exact h.mem_iff

theorem valid_reordered (hvalid : p.Valid) {body : List BodyOp} (h : body.Perm p.body) :
    (p.reordered body).Valid :=
  ⟨h.nodup_iff.mpr hvalid.nodup, fun root hroot =>
    hvalid.emits root ((mem_stages_reordered h).mp hroot)⟩

/-- **Stages are ordered if the fronts of components are in the pipeline**: then the loop ends, the order
is as promised, and a second application reports no change. A component that the search emits from its
own stage with a stage of another pipeline in front is searched forever. -/
theorem orderStages_orders (hvalid : p.Valid) :
    (p.FrontsInPipeline → ∃ result, p.TerminatesWith result ∧ Ordered p result ∧
      (∀ again, (p.reordered result.1).TerminatesWith again → again = (result.1, false)) ∧
      ((p.reordered result.1).FrontsInPipeline →
        (p.reordered result.1).TerminatesWith (result.1, false))) ∧
    ∀ result, p.TerminatesWith result → p.RootFrontsInPipeline := by
  refine ⟨fun hfronts => ?_, fun result hrun => rootFronts_of_terminates hvalid hrun⟩
  obtain ⟨s, hloop, hplaced, hwork⟩ :=
    orderLoop_of_fronts hvalid hfronts (placed_startState hvalid) (Nat.lt_succ_self _)
  have hvalid' := valid_reordered hvalid hplaced.perm
  have hinPlace : InPlace (p.reordered s.body) := by
    refine ⟨fun hprivate => hplaced.privateFirst (hplaced.perm.mem_iff.mp hprivate),
      fun a ha c b hac hcb hb hab => ?_⟩
    have ha' := (mem_stages_reordered hplaced.perm).mp ha
    refine hplaced.front a c b ⟨ha', ?_⟩ hac hcb ((mem_stages_reordered hplaced.perm).mp hb) hab
    rw [hwork]
    exact List.not_mem_nil
  refine ⟨(s.body, s.changed), ⟨_, by rw [orderStages, hloop]; rfl⟩, hplaced.ordered hvalid hwork,
    fun again hrun => hinPlace.again hvalid' hrun, fun hfronts' => ?_⟩
  obtain ⟨t, hloop', -, -⟩ :=
    orderLoop_of_fronts hvalid' hfronts' (placed_startState hvalid') (Nat.lt_succ_self _)
  have hrun : (p.reordered s.body).TerminatesWith (t.body, t.changed) :=
    ⟨_, by rw [orderStages, hloop']; rfl⟩
  have hagain : (t.body, t.changed) = (s.body, false) := hinPlace.again hvalid' hrun
  rw [hagain] at hrun
  exact hrun

/-! ### Two pipelines -/

/-- A consumer stands in front of its producer, and the private op behind both. -/
def reversedStages : Pipeline where
  body := [.stage 1, .stage 0, .privateOp]
  consumers := fun stage => if stage = 0 then [1] else []
  sccs := fun root => if root = 0 then [[1], [0]] else [[1]]

example : orderStages reversedStages 4 = some ([.privateOp, .stage 0, .stage 1], true) := by decide

theorem reversedStages_edge {a b : StageId} : reversedStages.Edge a b ↔ a = 0 ∧ b = 1 := by
  show b ∈ (if a = 0 then [1] else []) ↔ _
  split
  · next ha => simp [ha]
  · next ha => simp [ha]

theorem reversedStages_valid : reversedStages.Valid := by
  refine ⟨by decide, fun root hroot => ?_⟩
  have hmem : root = 1 ∨ root = 0 := by simpa [Pipeline.stages, stagesOf, reversedStages,
    BodyOp.stage?] using hroot
  rcases hmem with rfl | rfl
  · apply EmitsComponents.of_takeWhile (l := [1]) (by decide) _ (by decide)
    · intro a ha
      rw [List.mem_singleton.mp ha]
    · intro a ha b hab
      rw [List.mem_singleton.mp ha, reversedStages_edge] at hab
      cases hab.1
  · apply EmitsComponents.of_takeWhile (l := [1, 0]) (by decide) _ (by decide)
    · intro a ha
      rcases List.mem_cons.mp ha with rfl | ha
      · exact .single (reversedStages_edge.mpr ⟨rfl, rfl⟩)
      · rw [List.mem_singleton.mp ha]
    · intro a ha b hab
      obtain ⟨rfl, rfl⟩ := reversedStages_edge.mp hab
      decide

theorem reversedStages_ordered :
    ∃ result, reversedStages.TerminatesWith result ∧ Ordered reversedStages result := by
  have hfronts : reversedStages.FrontsInPipeline := by
    have hall : ∀ root ∈ reversedStages.stages, ∀ scc ∈ reversedStages.sccs root,
        ∀ front ∈ scc.head?, front ∈ reversedStages.stages := by decide
    exact fun root hroot scc hscc _ _ => hall root hroot scc hscc
  obtain ⟨result, hrun, hordered, -⟩ := (orderStages_orders reversedStages_valid).1 hfronts
  exact ⟨result, hrun, hordered⟩

/-- A stage and a stage of another pipeline that await tokens of each other. -/
def cyclicStages : Pipeline where
  body := [.stage 0]
  consumers := fun stage => if stage = 0 then [1] else if stage = 1 then [0] else []
  sccs := fun _ => [[1, 0]]

theorem cyclicStages_edge {a b : StageId} :
    cyclicStages.Edge a b ↔ (a = 0 ∧ b = 1) ∨ (a = 1 ∧ b = 0) := by
  show b ∈ (if a = 0 then [1] else if a = 1 then [0] else []) ↔ _
  split
  · next ha => simp [ha]
  · split
    · next ha => simp [ha]
    · next ha ha' => simp [ha, ha']

theorem cyclicStages_valid : cyclicStages.Valid := by
  refine ⟨by decide, fun root hroot => ?_⟩
  have hroot' : root = 0 := by simpa [Pipeline.stages, stagesOf, cyclicStages,
    BodyOp.stage?] using hroot
  subst hroot'
  have h01 : cyclicStages.Edge 0 1 := cyclicStages_edge.mpr (.inl ⟨rfl, rfl⟩)
  have h10 : cyclicStages.Edge 1 0 := cyclicStages_edge.mpr (.inr ⟨rfl, rfl⟩)
  have hreach : ∀ a b, a = 0 ∨ a = 1 → (b = 0 ∨ b = 1 ↔ ReflTransGen cyclicStages.Edge a b) := by
    intro a b ha
    constructor
    · rintro (rfl | rfl) <;> rcases ha with rfl | rfl
      · exact .refl
      · exact .single h10
      · exact .single h01
      · exact .refl
    · intro hab
      induction hab with
      | refl => exact ha
      | tail _ hbc ih =>
          rcases cyclicStages_edge.mp hbc with ⟨-, rfl⟩ | ⟨-, rfl⟩
          · exact .inr rfl
          · exact .inl rfl
  have hmem : ∀ a, a ∈ [1, 0] ↔ a = 0 ∨ a = 1 := fun a => by simp [or_comm]
  refine ⟨fun a => (hmem a).trans (hreach 0 a (.inl rfl)), ?_, ?_, by decide, ?_⟩
  · intro c hc
    rw [List.mem_singleton.mp hc]
    exact List.cons_ne_nil _ _
  · intro c hc a ha b
    rw [List.mem_singleton.mp hc, hmem] at ha ⊢
    constructor
    · intro hb
      exact ⟨(hreach a b ha).mp hb, (hreach b a hb).mp ha⟩
    · exact fun hsame => (hreach a b ha).mpr hsame.1
  · intro before c after hsplit a ha b hab
    have hc : c = [1, 0] := by
      have hmem' : c ∈ cyclicStages.sccs 0 := by
        rw [hsplit]
        exact List.mem_append_right _ List.mem_cons_self
      exact List.mem_singleton.mp hmem'
    rw [hc, hmem] at ha ⊢
    exact .inr ((hreach a b ha).mpr (.single hab))

/-- The root of the search comes last in its component, and the loop does not end. -/
theorem cyclicStages_searchedForever : cyclicStages.Valid ∧
    (cyclicStages.sccs 0).flatten.getLast? = some 0 ∧
    ¬∃ result, cyclicStages.TerminatesWith result := by
  refine ⟨cyclicStages_valid, rfl, ?_⟩
  rintro ⟨result, hrun⟩
  have hfronts := rootFronts_of_terminates cyclicStages_valid hrun
  have hfirst : ∀ b, ¬Precedes cyclicStages.stages b 0 := by
    intro b hb
    have hlength : 2 ≤ 1 := List.Sublist.length_le hb
    exact absurd hlength (by decide)
  have hmem := hfronts 0 (by decide) (fun b hb => absurd hb (hfirst b)) [1, 0] (by decide) (by decide)
    1 rfl
  exact absurd hmem (by decide)

end OrderStages

end DataflowScheduler
