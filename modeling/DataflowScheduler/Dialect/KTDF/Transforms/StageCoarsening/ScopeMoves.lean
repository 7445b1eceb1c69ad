import DataflowScheduler.Dialect.KTDF.Transforms.StageCoarsening.PrivateUses

/-!
# Moves between scopes

The IR after a move is corrected exactly if the move takes whole ops.
-/

namespace DataflowScheduler

namespace ScopeCorrection

/-! ## What is yielded -/

theorem getElem?_filterMap_of_isSome {α β : Type} {f : α → Option β} {l : List α}
    (h : ∀ a ∈ l, (f a).isSome) (i : Nat) : (l.filterMap f)[i]? = l[i]?.bind f := by
  induction l generalizing i with
  | nil => rfl
  | cons a l ih =>
      obtain ⟨b, hb⟩ := Option.isSome_iff_exists.mp (h a List.mem_cons_self)
      rw [List.filterMap_cons_some hb]
      cases i with
      | zero => exact hb.symm
      | succ i => exact ih (fun a ha => h a (List.mem_cons_of_mem _ ha)) i

/-- The elements of a list that satisfy a predicate are those at the indices that do. -/
theorem filter_eq_filterMap_range {α : Type} (P : α → Bool) (l : List α) :
    l.filter P = ((List.range l.length).filter fun i => (l[i]?.map P).getD false).filterMap
      fun i => l[i]? := by
  induction l using List.reverseRecOn with
  | nil => rfl
  | append_singleton l a ih =>
      have hsame : ∀ i ∈ List.range l.length, (l ++ [a])[i]? = l[i]? := fun i hi =>
        List.getElem?_append_left (List.mem_range.mp hi)
      have hfilter : ((List.range l.length).filter fun i => ((l ++ [a])[i]?.map P).getD false) =
          (List.range l.length).filter fun i => (l[i]?.map P).getD false :=
        List.filter_congr fun i hi => by rw [hsame i hi]
      have hmap : ((List.range l.length).filter fun i => (l[i]?.map P).getD false).filterMap
          (fun i => (l ++ [a])[i]?) =
          ((List.range l.length).filter fun i => (l[i]?.map P).getD false).filterMap
            fun i => l[i]? :=
        List.filterMap_congr fun i hi => hsame i (List.mem_filter.mp hi).1
      rw [List.filter_append, List.length_append, List.length_singleton, List.range_succ,
        List.filter_append, List.filterMap_append, hfilter, hmap, ← ih]
      congr 1
      cases ha : P a <;> simp [ha]

section

variable {ir : IR} {outer : PrivateOp} (h : ir.Valid outer)

include h

theorem isSome_yields {idx : Nat} (hidx : idx ∈ movedIndices ir outer) :
    (outer.yields[idx]?).isSome := by
  have hlt := List.mem_range.mp (List.mem_filter.mp hidx).1
  rw [← h.yields_length outer h.outer_mem] at hlt
  rw [List.getElem?_eq_getElem hlt]
  rfl

theorem length_moved_yields :
    ((movedIndices ir outer).filterMap fun idx => outer.yields[idx]?).length =
      (movedIndices ir outer).length := by
  rw [List.length_filterMap_eq_countP]
  exact List.countP_eq_length.mpr fun idx hidx => isSome_yields h hidx

end

namespace Moves

variable {ir : IR} {outer q : PrivateOp} {p : Nat} (h : Moves ir outer q p)

include h

theorem yields_length : outer.yields.length = outer.resultTypes.length :=
  h.valid.yields_length outer h.valid.outer_mem

/-- What a moved result yields is defined by a moved op. -/
theorem mem_movedValues {idx : Nat} (hidx : idx ∈ movedIndices ir outer) {v : Value}
    (hv : outer.yields[idx]? = some v) : v ∈ movedValues ir outer := by
  have hmem := h.valid.inScope.yields outer h.valid.outer_mem v (List.mem_of_getElem? hv)
  obtain ⟨op, hop, hresult⟩ := List.mem_flatMap.mp hmem
  obtain ⟨k, hk, rfl⟩ := mem_resultsOf.mp hresult
  have hsome : (outer.body.find? fun op' => op'.id = op.id).isSome :=
    List.find?_isSome.mpr ⟨op, hop, by simp⟩
  obtain ⟨found, hfound⟩ := Option.isSome_iff_exists.mp hsome
  have hid : found.id = op.id := by simpa using List.find?_some hfound
  have hsame := (h.valid.op_unique h.valid.outer_mem h.valid.outer_mem
    (List.mem_of_find?_eq_some hfound) hop hid).2
  refine List.mem_flatMap.mpr ⟨op, mem_movedOps.mpr (List.mem_filterMap.mpr ⟨idx, hidx, ?_⟩), hresult⟩
  rw [yieldedFrom, hv]
  exact hsame ▸ hfound

omit h in
theorem lt_of_moved {idx : Nat} (hidx : idx ∈ movedIndices ir outer) :
    idx < outer.resultTypes.length := List.mem_range.mp (List.mem_filter.mp hidx).1

/-- The kept results whose ops stay. -/
theorem keptPrivate_yields : (keptPrivate ir outer).yields =
    ((keptIndices ir outer).filter fun idx => (outer.yields[idx]?.map fun v =>
      decide (v ∉ movedValues ir outer)).getD false).filterMap fun idx => outer.yields[idx]? := by
  show outer.yields.filter _ = _
  rw [filter_eq_filterMap_range, keptIndices, List.filter_filter, h.yields_length]
  congr 1
  apply List.filter_congr
  intro idx hidx
  have hlt := List.mem_range.mp hidx
  rw [← h.yields_length] at hlt
  rw [List.getElem?_eq_getElem hlt]
  by_cases hmem : outer.yields[idx] ∈ movedValues ir outer
  · simp [hmem]
  · have hnot : idx ∉ movedIndices ir outer := fun hmoved =>
      hmem (h.mem_movedValues hmoved (List.getElem?_eq_getElem hlt))
    simp [hmem, hnot]

/-- A kept result is yielded if all of them still are. -/
theorem kept_yielded (hm : Movable ir outer) {i idx : Nat}
    (hidx : (keptIndices ir outer)[i]? = some idx) :
    (keptPrivate ir outer).yields[i]? = outer.yields[idx]? := by
  have hsome : ∀ idx ∈ keptIndices ir outer, ∃ v, outer.yields[idx]? = some v := by
    intro idx hidx
    have hlt := (mem_keptIndices.mp hidx).1
    rw [← h.yields_length] at hlt
    exact ⟨_, List.getElem?_eq_getElem hlt⟩
  have hall : (keptIndices ir outer).filter (fun idx => (outer.yields[idx]?.map fun v =>
      decide (v ∉ movedValues ir outer)).getD false) = keptIndices ir outer := by
    apply List.filter_eq_self.mpr
    intro idx hidx
    obtain ⟨v, hv⟩ := hsome idx hidx
    have hnot := hm.kept idx v (mem_keptIndices.mp hidx).2 hv
    simp [hv, hnot]
  rw [h.keptPrivate_yields, hall, getElem?_filterMap_of_isSome, hidx]
  · rfl
  · exact fun idx hidx => Option.isSome_iff_exists.mpr (hsome idx hidx)

theorem moved_yields {i idx : Nat} (hidx : (movedIndices ir outer)[i]? = some idx) :
    ((movedIndices ir outer).filterMap fun idx => outer.yields[idx]?)[i]? = outer.yields[idx]? := by
  rw [getElem?_filterMap_of_isSome fun idx hidx => isSome_yields h.valid hidx, hidx]
  rfl

/-! ## Moved ops are enough -/

/-- A moved result has the place of what it yields among all that the moved ops define. -/
theorem moved_yielded (hm : Movable ir outer) {i idx : Nat}
    (hidx : (movedIndices ir outer)[i]? = some idx) :
    (movedValues ir outer ++ q.yields)[i]? = outer.yields[idx]? := by
  have hlt : idx < outer.yields.length := by
    rw [h.yields_length]
    exact lt_of_moved (List.mem_of_getElem? hidx)
  have hget := h.moved_yields hidx
  rw [List.getElem?_eq_getElem hlt] at hget ⊢
  obtain ⟨rest, hrest⟩ := hm.inOrder
  have hlen := (List.getElem?_eq_some_iff.mp hget).1
  rw [← hrest, List.append_assoc, List.getElem?_append_left hlen]
  exact hget

theorem bodies_kept (hm : Movable ir outer) :
    BodyInScope (movedIR ir outer q p).Visible [] (keptPrivate ir outer).body := by
  have hbody : BodyInScope Value.IsOutside [] (keptPrivate ir outer).body := by
    apply h.valid.reads.filter
    · exact fun v hv => (by cases hv)
    · intro op hop hdrop v hv
      have hmoved : op ∈ movedOps ir outer := by simpa using hdrop
      exact List.mem_flatMap.mpr ⟨op, hmoved, hv⟩
    · intro op hop hkeep
      exact hm.staying op hop (by simpa using hkeep)
  exact hbody.imp (fun v hv => hv) fun v hv => .inl hv

theorem bodies_moved (hm : Movable ir outer) : BodyInScope (movedIR ir outer q p).Visible []
    ((movedPrivate ir outer q).mapValues (substitution ir outer q)).body := by
  have hresults : ∀ op ∈ (movedPrivate ir outer q).body, ∀ v ∈ op.results,
      substitution ir outer q v = v := by
    intro op hop v hv
    obtain ⟨q', hq', hmem⟩ := h.body_moved hop
    exact h.substitution_op hq' (List.mem_flatMap.mpr ⟨op, hmem, hv⟩)
  show BodyInScope _ [] ((movedOps ir outer ++ q.body).map _)
  rw [List.map_append, bodyInScope_append]
  constructor
  · refine hm.moving.map (fun v hv => by cases hv) (fun op hop => hresults op ?_) fun v hv => ?_
    · exact List.mem_append_left _ hop
    · rw [substitution_outside hv]
      exact .inl hv
  · refine (h.valid.inScope.bodies q h.mem).map (fun v hv => by cases hv)
      (fun op hop => hresults op ?_) fun v hv => h.visible hv
    exact List.mem_append_right _ hop

omit h in
/-- The results of the ops of a changed body are those that they were. -/
theorem results_mapValues (f : Value → Value) (ops : List Op) :
    (ops.map (Op.mapValues f)).flatMap Op.results = ops.flatMap Op.results := by
  rw [List.flatMap_map]
  rfl

theorem inScope (hm : Movable ir outer) : (movedIR ir outer q p).InScope where
  bodies := by
    intro q' hq'
    rcases h.mem_privateOps.mp hq' with rfl | rfl | ⟨q₀, hq₀, -, -, rfl⟩
    · exact h.bodies_kept hm
    · exact h.bodies_moved hm
    · refine (h.valid.inScope.bodies q₀ hq₀).map (fun v hv => by cases hv) (fun op hop v hv => ?_)
        fun v hv => h.visible hv
      exact h.substitution_op hq₀ (List.mem_flatMap.mpr ⟨op, hop, hv⟩)
  yields := by
    intro q' hq' v hv
    rcases h.mem_privateOps.mp hq' with rfl | rfl | ⟨q₀, hq₀, -, -, rfl⟩
    · obtain ⟨hv, hnot⟩ := List.mem_filter.mp hv
      obtain ⟨op, hop, hresult⟩ :=
        List.mem_flatMap.mp (h.valid.inScope.yields outer h.valid.outer_mem v hv)
      refine List.mem_flatMap.mpr ⟨op, List.mem_filter.mpr ⟨hop, ?_⟩, hresult⟩
      apply decide_eq_true
      intro hmoved
      exact of_decide_eq_true hnot (List.mem_flatMap.mpr ⟨op, hmoved, hresult⟩)
    · rw [h.movedPrivate_yields] at hv
      show v ∈ ((movedPrivate ir outer q).body.map _).flatMap Op.results
      rw [results_mapValues]
      exact h.yields_moved hv
    · rw [h.other_yields hq₀] at hv
      show v ∈ (q₀.body.map _).flatMap Op.results
      rw [results_mapValues]
      exact h.valid.inScope.yields q₀ hq₀ v hv
  users := by
    have hops : ∀ pipeline ∈ ir.pipelines, ∀ op ∈ pipeline.ops.map
        (Op.mapValues (substitution ir outer q)), ∀ v ∈ op.operands,
        (movedIR ir outer q p).Visible v := by
      intro pipeline hpipeline op' hop' v' hv'
      obtain ⟨op, hop, rfl⟩ := List.mem_map.mp hop'
      obtain ⟨v, hv, rfl⟩ := List.mem_map.mp hv'
      exact h.visible (h.valid.inScope.users pipeline hpipeline op hop v hv)
    intro pipeline' hpipeline' op' hop'
    rcases List.mem_cons.mp hpipeline' with rfl | hinner
    · exact hops ir.outer List.mem_cons_self op' hop'
    · obtain ⟨pipeline, hpipeline, rfl⟩ := List.mem_map.mp hinner
      apply hops pipeline (List.mem_cons_of_mem _ hpipeline)
      split at hop' <;> exact hop'

theorem lengths (hm : Movable ir outer) : ∀ q' ∈ (movedIR ir outer q p).privateOps,
    q'.yields.length = q'.resultTypes.length := by
  intro q' hq'
  rcases h.mem_privateOps.mp hq' with rfl | rfl | ⟨q₀, hq₀, -, -, rfl⟩
  · rw [length_keptPrivate]
    apply Nat.le_antisymm
    · rw [h.keptPrivate_yields]
      exact Nat.le_trans (List.length_filterMap_le _ _) (List.length_filter_le _ _)
    · by_contra hlt
      have hlt : (keptPrivate ir outer).yields.length < (keptIndices ir outer).length := by omega
      have hget := h.kept_yielded hm (List.getElem?_eq_getElem hlt)
      have hidx := (mem_keptIndices.mp (List.getElem_mem hlt)).1
      rw [← h.yields_length] at hidx
      rw [List.getElem?_eq_getElem hidx, List.getElem?_eq_none (Nat.le_refl _)] at hget
      cases hget
  · rw [h.movedPrivate_yields, List.length_append, h.valid.yields_length q h.mem]
    show _ = (movedPrivate ir outer q).resultTypes.length
    rw [length_movedPrivate]
  · rw [h.other_yields hq₀]
    exact h.valid.yields_length q₀ hq₀

/-- Where a used result of the outer private op is yielded. -/
theorem outer_yielded (hm : Movable ir outer) {idx : Nat} {v : Value}
    (hv : outer.yields[idx]? = some v) : ∃ q' k', substitution ir outer q (.result outer.id idx) =
      .result q'.id k' ∧ q'.yields[k']? = some v ∧
      ((∃ p', getTarget ir outer idx = some p') → (movedIR ir outer q p).getPrivateOp p = some q') ∧
      ((∀ p', getTarget ir outer idx ≠ some p') →
        (movedIR ir outer q p).getPrivateOp ir.outer.id = some q') := by
  by_cases hmoved : idx ∈ movedIndices ir outer
  · obtain ⟨i, hi⟩ := List.getElem?_of_mem hmoved
    refine ⟨(movedPrivate ir outer q).mapValues (substitution ir outer q), i,
      h.substitution_moved hi, ?_, fun _ => h.getPrivateOp_target, fun hnone => ?_⟩
    · rw [h.movedPrivate_yields, h.moved_yielded hm hi]
      exact hv
    · obtain ⟨p', hp'⟩ := (mem_movedIndices h.valid).mp hmoved
      exact absurd hp' (hnone p')
  · have hlt := (List.getElem?_eq_some_iff.mp hv).1
    rw [h.yields_length] at hlt
    obtain ⟨i, hi⟩ := List.getElem?_of_mem (mem_keptIndices.mpr ⟨hlt, hmoved⟩)
    refine ⟨keptPrivate ir outer, i, h.substitution_kept hi, ?_, fun hsome => ?_,
      fun _ => h.getPrivateOp_outer⟩
    · rw [h.kept_yielded hm hi]
      exact hv
    · exact absurd ((mem_movedIndices h.valid).mpr hsome) hmoved

theorem inner_yielded (hm : Movable ir outer) {k : Nat} {v : Value} (hv : q.yields[k]? = some v)
    (huse : ir.getUses (.result q.id k) ≠ []) : ∃ q' k', substitution ir outer q (.result q.id k) =
      .result q'.id k' ∧ q'.yields[k']? = some v ∧
      (movedIR ir outer q p).getPrivateOp p = some q' := by
  have hlt := (List.getElem?_eq_some_iff.mp hv).1
  rw [h.valid.yields_length q h.mem] at hlt
  obtain ⟨idx, hp⟩ := h.target
  obtain ⟨hle, hsame⟩ := hm.innerResults idx p q hp h.privateOp k hlt huse
  refine ⟨(movedPrivate ir outer q).mapValues (substitution ir outer q), _,
    h.substitution_inner hlt, ?_, h.getPrivateOp_target⟩
  have hfewer := h.le
  rw [h.movedPrivate_yields, List.getElem?_append_right (by omega), ← hv, ← hsame]
  congr 1
  omega

/-- **Moving whole ops is enough.** -/
theorem corrected (hm : Movable ir outer) :
    Corrected ir (movedIR ir outer q p) outer (substitution ir outer q) where
  outerOps := rfl
  innerOps := by
    show List.Forall₂ _ ir.inner (ir.inner.map _)
    rw [List.forall₂_map_right_iff, List.forall₂_same]
    intro pipeline hpipeline
    by_cases hid : pipeline.id = p
    · rw [if_pos hid]
      refine ⟨rfl, rfl, fun q₀ hq₀ => ⟨_, rfl, ?_⟩⟩
      obtain ⟨target, htarget, htargetId, hq⟩ := h.exists_pipeline
      have hsame := h.valid.id_unique (List.mem_cons_of_mem _ hpipeline)
        (List.mem_cons_of_mem _ htarget) (hid.trans htargetId.symm)
      have hqq : q₀ = q := by
        rw [hsame, hq] at hq₀
        exact (Option.some.inj hq₀).symm
      subst hqq
      constructor
      · exact fun op hop => List.mem_map_of_mem (List.mem_append_right _ hop)
      · intro v hv
        rw [h.movedPrivate_yields]
        exact List.mem_append_right _ hv
    · rw [if_neg hid]
      refine ⟨rfl, rfl, fun q₀ hq₀ => ⟨q₀.mapValues (substitution ir outer q), ?_, ?_, ?_⟩⟩
      · show pipeline.privateOp.map _ = _
        rw [hq₀]
        rfl
      · exact fun op hop => List.mem_map_of_mem hop
      · intro v hv
        have hmem := ScopeCorrection.mem_privateOps.mpr ⟨pipeline, List.mem_cons_of_mem _ hpipeline, hq₀⟩
        rw [h.other_yields hmem]
        exact hv
  clones := by
    intro q' hq' op' hop'
    rcases h.mem_privateOps.mp hq' with rfl | rfl | ⟨q₀, hq₀, -, -, rfl⟩
    · have hop := (List.mem_filter.mp hop').1
      refine ⟨outer, h.valid.outer_mem, op', hop, (Op.mapValues_eq_self fun v hv => ?_).symm⟩
      have huse : v ∈ outer.uses := List.mem_append_left _ (List.mem_flatMap.mpr ⟨op', hop, hv⟩)
      exact substitution_other (h.valid.outer_uses huse h.valid.outer_mem)
        (h.valid.outer_uses huse h.mem)
    · obtain ⟨op, hop, rfl⟩ := List.mem_map.mp hop'
      obtain ⟨q₀, hq₀, hmem⟩ := h.body_moved hop
      exact ⟨q₀, hq₀, op, hmem, rfl⟩
    · obtain ⟨op, hop, rfl⟩ := List.mem_map.mp hop'
      exact ⟨q₀, hq₀, op, hop, rfl⟩
  outerResults := by
    intro idx v p' hv huse
    obtain ⟨q', k', hsub, hyield, hmoved, hkept⟩ := h.outer_yielded hm hv
    refine ⟨q', k', hsub, hyield, ?_⟩
    by_cases htarget : ∃ p', getTarget ir outer idx = some p'
    · obtain ⟨p'', hp''⟩ := htarget
      obtain rfl := h.oneTarget idx p'' hp''
      have hsame := (getTarget_eq_some.mp hp'').2.2.2 p' huse
      rw [hsame]
      exact .inl (hmoved ⟨_, hp''⟩)
    · exact .inr (hkept fun p' hp' => htarget ⟨p', hp'⟩)
  movedResults := by
    intro idx v p' hv htoken hne huse hall
    have htarget := getTarget_eq_some.mpr ⟨htoken, huse, hne, hall⟩
    obtain rfl := h.oneTarget idx p' htarget
    obtain ⟨q', k', hsub, hyield, hmoved, -⟩ := h.outer_yielded hm hv
    exact ⟨q', k', hsub, hyield, hmoved ⟨_, htarget⟩⟩
  innerResults := by
    intro pipeline hpipeline q₀ hq₀ k v hv huse
    have hmem := List.mem_cons_of_mem ir.outer hpipeline
    by_cases hid : pipeline.id = p
    · obtain ⟨target, htarget, htargetId, hq⟩ := h.exists_pipeline
      have hsame := h.valid.id_unique hmem (List.mem_cons_of_mem _ htarget)
        (hid.trans htargetId.symm)
      have hqq : q₀ = q := by
        rw [hsame, hq] at hq₀
        exact (Option.some.inj hq₀).symm
      subst hqq
      rw [hid]
      exact h.inner_yielded hm hv huse
    · have hprivate := ScopeCorrection.mem_privateOps.mpr ⟨pipeline, hmem, hq₀⟩
      refine ⟨q₀.mapValues (substitution ir outer q), k, ?_, ?_, h.getPrivateOp_other hpipeline hid hq₀⟩
      · apply substitution_other
        · intro i heq
          exact h.ne_outer hpipeline hq₀ (h.valid.privateOp_unique hprivate h.valid.outer_mem
            (Value.result.inj heq).1)
        · intro i heq
          have hqq := h.valid.privateOp_unique hprivate h.mem (Value.result.inj heq).1
          obtain ⟨target, htarget, htargetId, hq⟩ := h.exists_pipeline
          have hsame := h.valid.pipeline_unique hmem (List.mem_cons_of_mem _ htarget) hq₀ (hqq ▸ hq)
          exact hid (hsame ▸ htargetId)
      · rw [h.other_yields hprivate]
        exact hv
  inScope := h.inScope hm
  yields_length := h.lengths hm

/-! ## Moved ops are needed -/

omit h in
/-- Two ways to read other values agree on what is read. -/
theorem eq_of_mapValues {f g : Value → Value} {op : Op} (hop : op.mapValues f = op.mapValues g)
    {v : Value} (hv : v ∈ op.operands) : f v = g v :=
  List.map_inj_left.mp (Op.mk.inj hop).2.1 v hv

/-- In corrected IR, uses refer to what they were replaced by. -/
theorem eq_substitution {f : Value → Value} (hc : Corrected ir (movedIR ir outer q p) outer f)
    {q₀ : PrivateOp} (hq₀ : q₀ ∈ ir.privateOps) {k p' : Nat}
    (huse : p' ∈ ir.getUses (.result q₀.id k)) :
    f (.result q₀.id k) = substitution ir outer q (.result q₀.id k) := by
  obtain ⟨pipeline, hpipeline, hv, -⟩ := mem_getUses.mp huse
  have hinnerOps := hc.innerOps
  rw [movedIR, List.forall₂_map_right_iff, List.forall₂_same] at hinnerOps
  have hops : ∀ op ∈ pipeline.ops, op.mapValues f = op.mapValues (substitution ir outer q) := by
    rcases List.mem_cons.mp hpipeline with rfl | hinner
    · exact fun op hop => (List.map_inj_left.mp hc.outerOps op hop).symm
    · have hsame := (hinnerOps pipeline hinner).2.1
      have hleft : (if pipeline.id = p then
          { pipeline with
            privateOp := some ((movedPrivate ir outer q).mapValues (substitution ir outer q))
            ops := pipeline.ops.map (Op.mapValues (substitution ir outer q)) }
          else pipeline.mapValues (substitution ir outer q)).ops =
          pipeline.ops.map (Op.mapValues (substitution ir outer q)) := by
        split <;> rfl
      rw [hleft] at hsame
      exact fun op hop => (List.map_inj_left.mp hsame op hop).symm
  rcases List.mem_append.mp hv with hv | hv
  · obtain ⟨op, hop, hv⟩ := List.mem_flatMap.mp hv
    exact eq_of_mapValues (hops op hop) hv
  · cases hprivate : pipeline.privateOp with
    | none =>
        rw [hprivate] at hv
        cases hv
    | some q₁ =>
        rw [hprivate] at hv
        have hq₁ := ScopeCorrection.mem_privateOps.mpr ⟨pipeline, hpipeline, hprivate⟩
        have huses : Value.result q₀.id k ∈ q₁.uses := hv
        rcases List.mem_append.mp hv with hv | hv
        · obtain ⟨op, hop, hv⟩ := List.mem_flatMap.mp hv
          rcases List.mem_cons.mp hpipeline with rfl | hinner
          · rw [h.valid.outer_eq] at hprivate
            rw [← Option.some.inj hprivate] at huses
            exact absurd rfl (h.valid.outer_uses huses hq₀ k)
          · -- the op has one clone, wherever its pipeline is
            obtain ⟨q', hq', hbody, -⟩ := (hinnerOps pipeline hinner).2.2 q₁ hprivate
            have hclone : ∃ op₂ q₂, q₂ ∈ ir.privateOps ∧ op₂ ∈ q₂.body ∧
                op.mapValues f = op₂.mapValues (substitution ir outer q) := by
              split at hq'
              · obtain rfl := Option.some.inj hq'
                obtain ⟨op₂, hop₂, heq⟩ := List.mem_map.mp (hbody op hop)
                obtain ⟨q₂, hq₂, hmem⟩ := h.body_moved hop₂
                exact ⟨op₂, q₂, hq₂, hmem, heq.symm⟩
              · rw [PipelineOp.mapValues, hprivate] at hq'
                obtain rfl := Option.some.inj hq'
                obtain ⟨op₂, hop₂, heq⟩ := List.mem_map.mp (hbody op hop)
                exact ⟨op₂, q₁, hq₁, hop₂, heq.symm⟩
            obtain ⟨op₂, q₂, hq₂, hop₂, heq⟩ := hclone
            have hid : op.id = op₂.id := (Op.mk.inj heq).1
            obtain ⟨-, rfl⟩ := h.valid.op_unique hq₁ hq₂ hop hop₂ hid
            exact eq_of_mapValues heq hv
        · have hresult := h.valid.inScope.yields q₁ hq₁ _ hv
          exact absurd rfl (h.valid.result_ne hq₀ hq₁ hresult k)

/-- A private op with the name of the one that takes the moved results is that one. -/
theorem eq_moved {q' : PrivateOp} (hq' : q' ∈ (movedIR ir outer q p).privateOps)
    (hid : q'.id = ir.next) :
    q' = (movedPrivate ir outer q).mapValues (substitution ir outer q) := by
  rcases h.mem_privateOps.mp hq' with rfl | rfl | ⟨q₀, hq₀, -, -, rfl⟩
  · have : ir.next + 1 = ir.next := hid
    omega
  · rfl
  · have hlt := h.valid.lt_next _ (id_mem_names hq₀)
    have : q₀.id = ir.next := hid
    omega

theorem inOrder_of_corrected {f : Value → Value}
    (hc : Corrected ir (movedIR ir outer q p) outer f) :
    (movedIndices ir outer).filterMap (fun idx => outer.yields[idx]?) <+: movedValues ir outer := by
  have hsome := fun idx (hidx : idx ∈ movedIndices ir outer) => isSome_yields h.valid hidx
  have hlen := length_moved_yields h.valid
  rw [List.prefix_iff_eq_take]
  apply List.ext_getElem?
  intro i
  rw [hlen]
  by_cases hi : i < (movedIndices ir outer).length
  · rw [List.getElem?_take_of_lt hi]
    have hidx := List.getElem?_eq_getElem hi
    rw [h.moved_yields hidx]
    obtain ⟨v, hv⟩ := Option.isSome_iff_exists.mp (hsome _ (List.getElem_mem hi))
    obtain ⟨p', hp'⟩ := (mem_movedIndices h.valid).mp (List.getElem_mem hi)
    have huse := (getTarget_eq_some.mp hp').2.1
    obtain ⟨q', k', hf, hyield, hprivate⟩ := hc.outerResults _ v p' hv huse
    rw [h.eq_substitution hc h.valid.outer_mem huse, h.substitution_moved hidx] at hf
    obtain ⟨hid, rfl⟩ := Value.result.inj hf
    have hq' : q' ∈ (movedIR ir outer q p).privateOps := by
      rcases hprivate with hprivate | hprivate <;> exact getPrivateOp_mem hprivate
    rw [h.eq_moved hq' hid.symm, h.movedPrivate_yields,
      List.getElem?_append_left (Nat.lt_of_lt_of_le hi h.le)] at hyield
    rw [hyield, hv]
  · rw [List.getElem?_eq_none (by rw [hlen]; omega), List.getElem?_eq_none]
    rw [List.length_take]
    omega

theorem innerResults_of_corrected {f : Value → Value}
    (hc : Corrected ir (movedIR ir outer q p) outer f) {k : Nat} (hk : k < q.resultTypes.length)
    (huse : ir.getUses (.result q.id k) ≠ []) :
    (movedValues ir outer).length - (movedIndices ir outer).length ≤ k ∧
      q.yields[k - ((movedValues ir outer).length - (movedIndices ir outer).length)]? =
        q.yields[k]? := by
  obtain ⟨target, htarget, htargetId, hq⟩ := h.exists_pipeline
  rw [← h.valid.yields_length q h.mem] at hk
  have hv := List.getElem?_eq_getElem hk
  obtain ⟨q', k', hf, hyield, hprivate⟩ := hc.innerResults target htarget q hq k _ hv huse
  obtain ⟨p', hp'⟩ := List.exists_mem_of_ne_nil _ huse
  have hlt := hk
  rw [h.valid.yields_length q h.mem] at hlt
  rw [h.eq_substitution hc h.mem hp', h.substitution_inner hlt] at hf
  obtain ⟨hid, rfl⟩ := Value.result.inj hf
  rw [h.eq_moved (getPrivateOp_mem hprivate) hid.symm, h.movedPrivate_yields] at hyield
  have hle := h.le
  have hbehind : (movedValues ir outer).length ≤ (movedIndices ir outer).length + k := by
    by_contra hbefore
    -- a value of a moved op is no value of the inner private op
    have hbefore : (movedIndices ir outer).length + k < (movedValues ir outer).length := by omega
    rw [List.getElem?_append_left hbefore] at hyield
    obtain ⟨op, hop, hresult⟩ := List.mem_flatMap.mp (List.mem_of_getElem? hyield)
    obtain ⟨op', hop', hresult'⟩ := List.mem_flatMap.mp
      (h.valid.inScope.yields q h.mem _ (List.getElem_mem hk))
    obtain ⟨i, -, heq⟩ := mem_resultsOf.mp hresult
    obtain ⟨i', -, heq'⟩ := mem_resultsOf.mp hresult'
    have hids := (Value.result.inj (heq.symm.trans heq')).1
    have hsame := (h.valid.op_unique h.valid.outer_mem h.mem (movedOps_mem hop) hop' hids).1
    exact h.id_ne (hsame ▸ rfl)
  rw [List.getElem?_append_right hbehind] at hyield
  refine ⟨by omega, ?_⟩
  rw [hv, ← hyield]
  congr 1
  omega

theorem kept_of_corrected (hlen : (keptPrivate ir outer).yields.length =
    (keptPrivate ir outer).resultTypes.length) {idx : Nat} {v : Value}
    (hidx : idx ∉ movedIndices ir outer) (hv : outer.yields[idx]? = some v) :
    v ∉ movedValues ir outer := by
  rw [length_keptPrivate, h.keptPrivate_yields] at hlen
  have hle := List.length_filterMap_le (fun idx => outer.yields[idx]?)
    ((keptIndices ir outer).filter fun idx => (outer.yields[idx]?.map fun v =>
      decide (v ∉ movedValues ir outer)).getD false)
  have hall := List.length_filter_eq_length_iff.mp
    (Nat.le_antisymm (List.length_filter_le _ _) (hlen ▸ hle))
  have hlt := (List.getElem?_eq_some_iff.mp hv).1
  rw [h.yields_length] at hlt
  have hstays := hall idx (mem_keptIndices.mpr ⟨hlt, hidx⟩)
  rw [hv] at hstays
  exact of_decide_eq_true hstays

/-- Results of ops are not visible in other private ops. -/
theorem not_visible {v : Value} (hv : v ∈ outer.body.flatMap Op.results) :
    ¬ (movedIR ir outer q p).Visible v := by
  obtain ⟨op, hop, hresult⟩ := List.mem_flatMap.mp hv
  obtain ⟨k, -, rfl⟩ := mem_resultsOf.mp hresult
  have hlt := h.valid.lt_next _ (op_id_mem_names h.valid.outer_mem hop)
  rintro (houtside | ⟨q', hq', hresult'⟩)
  · cases houtside
  · obtain ⟨k', -, heq⟩ := mem_resultsOf.mp hresult'
    have hid : op.id = q'.id := (Value.result.inj heq).1
    rcases h.mem_privateOps.mp hq' with rfl | rfl | ⟨q₀, hq₀, -, -, rfl⟩
    · have : op.id = ir.next + 1 := hid
      omega
    · have : op.id = ir.next := hid
      omega
    · exact h.valid.op_id_ne hq₀ h.valid.outer_mem hop hid

theorem staying_of_inScope
    (hscope : BodyInScope (movedIR ir outer q p).Visible [] (keptPrivate ir outer).body) {op : Op}
    (hop : op ∈ outer.body) (hstay : op ∉ movedOps ir outer) {v : Value} (hv : v ∈ op.operands) :
    v ∉ movedValues ir outer := by
  intro hmoved
  obtain ⟨moved, hmovedOp, hresult⟩ := List.mem_flatMap.mp hmoved
  have hbody := movedOps_mem hmovedOp
  have hkept : op ∈ (keptPrivate ir outer).body := List.mem_filter.mpr ⟨hop, decide_eq_true hstay⟩
  rcases hscope.mem_of_operand hkept hv with hnil | hvisible | hdefined
  · cases hnil
  · exact h.not_visible (List.mem_flatMap.mpr ⟨moved, hbody, hresult⟩) hvisible
  · obtain ⟨op', hop', hresult'⟩ := List.mem_flatMap.mp hdefined
    obtain ⟨hop', hnot⟩ := List.mem_filter.mp hop'
    obtain ⟨k, -, heq⟩ := mem_resultsOf.mp hresult
    obtain ⟨k', -, heq'⟩ := mem_resultsOf.mp hresult'
    have hids := (Value.result.inj (heq.symm.trans heq')).1
    have hsame := (h.valid.op_unique h.valid.outer_mem h.valid.outer_mem hbody hop' hids).2
    exact of_decide_eq_true hnot (hsame ▸ hmovedOp)

theorem moving_of_inScope (hscope : BodyInScope (movedIR ir outer q p).Visible []
    ((movedPrivate ir outer q).mapValues (substitution ir outer q)).body) :
    BodyInScope Value.IsOutside [] (movedOps ir outer) := by
  have hfix : ∀ op ∈ movedOps ir outer, op.mapValues (substitution ir outer q) = op := by
    intro op hop
    apply Op.mapValues_eq_self
    intro v hv
    have huse : v ∈ outer.uses :=
      List.mem_append_left _ (List.mem_flatMap.mpr ⟨op, movedOps_mem hop, hv⟩)
    exact substitution_other (h.valid.outer_uses huse h.valid.outer_mem)
      (h.valid.outer_uses huse h.mem)
  have hmoved : BodyInScope (movedIR ir outer q p).Visible [] (movedOps ir outer) := by
    have hsplit : ((movedPrivate ir outer q).mapValues (substitution ir outer q)).body =
        movedOps ir outer ++ q.body.map (Op.mapValues (substitution ir outer q)) := by
      show (movedOps ir outer ++ q.body).map _ = _
      rw [List.map_append, map_eq_self hfix]
    rw [hsplit] at hscope
    exact (bodyInScope_append.mp hscope).1
  apply hmoved.strengthen
  intro op hop v hv hvisible
  rcases h.valid.reads.mem_of_operand (movedOps_mem hop) hv with hnil | houtside | hresult
  · cases hnil
  · exact houtside
  · exact absurd hvisible (h.not_visible hresult)

/-- **Moving whole ops is needed.** -/
theorem movable {f : Value → Value} (hc : Corrected ir (movedIR ir outer q p) outer f) :
    Movable ir outer where
  oneTarget := by
    intro idx idx' p₁ p₂ hp₁ hp₂
    rw [h.oneTarget idx p₁ hp₁, h.oneTarget idx' p₂ hp₂]
  privateOp := by
    intro idx p' hp'
    rw [h.oneTarget idx p' hp', h.privateOp]
    rfl
  inOrder := h.inOrder_of_corrected hc
  innerResults := by
    intro idx p' q' hp' hq' k hk huse
    obtain rfl := h.oneTarget idx p' hp'
    rw [h.privateOp] at hq'
    obtain rfl := Option.some.inj hq'
    exact h.innerResults_of_corrected hc hk huse
  kept := fun idx v hidx hv =>
    h.kept_of_corrected (hc.yields_length _ (h.mem_privateOps.mpr (.inl rfl))) hidx hv
  staying := fun op hop hstay v hv =>
    h.staying_of_inScope (hc.inScope.bodies _ (h.mem_privateOps.mpr (.inl rfl))) hop hstay hv
  moving := h.moving_of_inScope (hc.inScope.bodies _ (h.mem_privateOps.mpr (.inr (.inl rfl))))

end Moves

/-! ## Runs -/

section

variable {ir ir' : IR} {outer : PrivateOp}
  {order : List ScopeCorrectionInfo → List ScopeCorrectionInfo}

/-- Where nothing is moved, nothing has to be. -/
theorem movable_of_none (hnil : movedIndices ir outer = [])
    (hnone : ∀ idx p, getTarget ir outer idx ≠ some p) : Movable ir outer := by
  have hops : movedOps ir outer = [] := by rw [movedOps, hnil]; rfl
  have hvalues : movedValues ir outer = [] := by rw [movedValues, hops]; rfl
  refine ⟨fun idx _ p _ hp => absurd hp (hnone idx p), fun idx p hp => absurd hp (hnone idx p), ?_,
    fun idx p q hp => absurd hp (hnone idx p), ?_, ?_, ?_⟩
  · rw [hnil]
    exact List.nil_prefix
  · intro idx v _ _
    rw [hvalues]
    exact List.not_mem_nil
  · intro op _ _ v _
    rw [hvalues]
    exact List.not_mem_nil
  · rw [hops]
    trivial

theorem corrected_self (h : ir.Valid outer) (hnone : ∀ idx p, getTarget ir outer idx ≠ some p) :
    Corrected ir ir outer fun v => v where
  outerOps := (map_eq_self fun op _ => Op.mapValues_eq_self fun _ _ => rfl).symm
  innerOps := by
    rw [List.forall₂_same]
    intro p _
    refine ⟨rfl, (map_eq_self fun op _ => Op.mapValues_eq_self fun _ _ => rfl).symm,
      fun q hq => ⟨q, hq, fun op hop => ?_, fun v hv => hv⟩⟩
    rw [Op.mapValues_eq_self fun _ _ => rfl]
    exact hop
  clones := fun q hq op hop => ⟨q, hq, op, hop, (Op.mapValues_eq_self fun _ _ => rfl).symm⟩
  outerResults := fun idx v _ hv _ => ⟨outer, idx, rfl, hv, .inr
    ((getPrivateOp_eq_some h.pipelines).mpr ⟨ir.outer, List.mem_cons_self, rfl, h.outer_eq⟩)⟩
  movedResults := fun idx v p _ htoken hne huse hall =>
    absurd (getTarget_eq_some.mpr ⟨htoken, huse, hne, hall⟩) (hnone idx p)
  innerResults := fun p hp q hq k v hv _ => ⟨q, k, rfl, hv,
    (getPrivateOp_eq_some h.pipelines).mpr ⟨p, List.mem_cons_of_mem _ hp, rfl, hq⟩⟩
  inScope := h.inScope
  yields_length := h.yields_length

theorem movable_of_run (h : ir.Valid outer) (horder : ∀ l, (order l).Perm l)
    (hrun : run order ir = .ok ir') {f : Value → Value} (hc : Corrected ir ir' outer f) :
    Movable ir outer := by
  obtain ⟨hone, ⟨hnil, -⟩ | ⟨idx, p, q, hp, hq, hle, rfl⟩⟩ := (run_eq_ok h horder).mp hrun
  · apply movable_of_none hnil
    intro idx p hp
    have hmem := (mem_movedIndices h).mpr ⟨p, hp⟩
    rw [hnil] at hmem
    cases hmem
  · have hmoves : Moves ir outer q p :=
      ⟨h, ⟨idx, hp⟩, fun idx' p' hp' => hone idx' idx p' p hp' hp, hq, hle⟩
    exact hmoves.movable hc

theorem run_of_movable (h : ir.Valid outer) (horder : ∀ l, (order l).Perm l)
    (hm : Movable ir outer) : ∃ ir', run order ir = .ok ir' ∧ ∃ f, Corrected ir ir' outer f := by
  by_cases hnil : movedIndices ir outer = []
  · refine ⟨ir, (run_eq_ok h horder).mpr ⟨hm.oneTarget, .inl ⟨hnil, rfl⟩⟩, fun v => v,
      corrected_self h fun idx p hp => ?_⟩
    have hmem := (mem_movedIndices h).mpr ⟨p, hp⟩
    rw [hnil] at hmem
    cases hmem
  · obtain ⟨idx, hidx⟩ := List.exists_mem_of_ne_nil _ hnil
    obtain ⟨p, hp⟩ := (mem_movedIndices h).mp hidx
    obtain ⟨q, hq⟩ := Option.isSome_iff_exists.mp (hm.privateOp idx p hp)
    have hle : (movedIndices ir outer).length ≤ (movedValues ir outer).length := by
      rw [← length_moved_yields h]
      exact hm.inOrder.length_le
    have hmoves : Moves ir outer q p :=
      ⟨h, ⟨idx, hp⟩, fun idx' p' hp' => hm.oneTarget idx' idx p' p hp' hp, hq, hle⟩
    exact ⟨_, (run_eq_ok h horder).mpr ⟨hm.oneTarget, .inr ⟨idx, p, q, hp, hq, hle, rfl⟩⟩, _,
      hmoves.corrected hm⟩

/-- **Scope correction.** Whatever order the inner pipelines come in, a run ends and every use of a
private result refers to a clone of what it was, in its own pipeline where only that one uses it,
exactly if one inner pipeline takes results, it has a private op, the results are in order all that
the ops of theirs define, and nothing else in the outer private op needs these ops. -/
theorem run_corrected_iff (h : ir.Valid outer) (horder : ∀ l, (order l).Perm l) :
    (∃ ir', run order ir = .ok ir' ∧ ∃ f, Corrected ir ir' outer f) ↔ Movable ir outer := by
  constructor
  · intro ⟨ir', hrun, f, hc⟩
    exact movable_of_run h horder hrun hc
  · exact run_of_movable h horder

end

/-! ### Two slots of a FIFO -/

/-- A FIFO of two slots that an inner pipeline uses, yielded as results `first` and `second`. The inner
pipeline has a buffer of its own. -/
def slotsPrivate (first second : Nat) : PrivateOp where
  id := 1
  resultTypes := [.other 0, .other 0]
  body := [⟨10, [], [.other 0, .other 0]⟩]
  yields := [.result 10 first, .result 10 second]

def slotsYielded (first second : Nat) : IR where
  next := 20
  outer := ⟨0, some (slotsPrivate first second), []⟩
  inner := [⟨2, some ⟨3, [.other 1], [⟨11, [], [.other 1]⟩], [.result 11 0]⟩,
    [⟨12, [.result 1 0, .result 1 1, .result 3 0], []⟩]⟩]

theorem slotsYielded_valid : (slotsYielded 0 1).Valid (slotsPrivate 0 1) :=
  ⟨rfl, ⟨by decide, by decide, by decide⟩, by decide, by decide, by decide, by decide, by decide⟩

theorem slotsYielded_swapped_valid : (slotsYielded 1 0).Valid (slotsPrivate 1 0) :=
  ⟨rfl, ⟨by decide, by decide, by decide⟩, by decide, by decide, by decide, by decide, by decide⟩

theorem target_slotsYielded {first second idx p : Nat}
    (hp : getTarget (slotsYielded first second) (slotsPrivate first second) idx = some p) : p = 2 := by
  obtain ⟨-, huse, hne, -⟩ := getTarget_eq_some.mp hp
  obtain ⟨pipeline, hpipeline, -, hid⟩ := mem_getUses.mp huse
  rcases List.mem_cons.mp hpipeline with rfl | hinner
  · exact absurd hid.symm hne
  · rw [← hid, List.mem_singleton.mp hinner]

theorem slotsYielded_movable : Movable (slotsYielded 0 1) (slotsPrivate 0 1) where
  oneTarget := fun idx idx' p p' hp hp' =>
    (target_slotsYielded hp).trans (target_slotsYielded hp').symm
  privateOp := by
    intro idx p hp
    rw [target_slotsYielded hp]
    decide
  inOrder := by decide
  innerResults := by
    intro idx p q hp hq
    rw [target_slotsYielded hp] at hq
    cases hq
    decide
  kept := by
    intro idx v hidx hv
    have hlt := (List.getElem?_eq_some_iff.mp hv).1
    have hall : ∀ idx < 2, idx ∈ movedIndices (slotsYielded 0 1) (slotsPrivate 0 1) := by decide
    exact absurd (hall idx hlt) hidx
  staying := by decide
  moving := by decide

theorem run_corrected_iff_slots : ∃ ir', run id (slotsYielded 0 1) = .ok ir' ∧
    ∃ f, Corrected (slotsYielded 0 1) ir' (slotsPrivate 0 1) f :=
  (run_corrected_iff slotsYielded_valid List.Perm.refl).mpr slotsYielded_movable

/-- Yielded the other way round, the slots are swapped. -/
theorem not_corrected_slots : (slotsYielded 1 0).Valid (slotsPrivate 1 0) ∧
    ¬ ∃ ir', run id (slotsYielded 1 0) = .ok ir' ∧
      ∃ f, Corrected (slotsYielded 1 0) ir' (slotsPrivate 1 0) f := by
  refine ⟨slotsYielded_swapped_valid, ?_⟩
  intro ⟨ir', hrun, f, hc⟩
  have hm := movable_of_run slotsYielded_swapped_valid List.Perm.refl hrun hc
  exact absurd hm.inOrder (by decide)

end ScopeCorrection

end DataflowScheduler
