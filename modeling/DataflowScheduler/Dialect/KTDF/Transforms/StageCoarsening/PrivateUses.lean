import DataflowScheduler.Dialect.KTDF.Transforms.StageCoarsening.MovedResults

/-!
# Uses of private results

A run of `ScopeCorrection` leaves every use of a private result with what it stood for exactly if one
inner pipeline takes whole ops, in order, that nothing else needs.
-/

namespace DataflowScheduler

namespace ScopeCorrection

section

variable {ir ir' : IR} {outer q : PrivateOp} {p : Nat}

/-! ## Runs -/

theorem mem_privateOps : q ∈ ir.privateOps ↔ ∃ pipeline ∈ ir.pipelines, pipeline.privateOp = some q :=
  List.mem_filterMap

/-- What is used is visible, or a result of an op of a private op. -/
theorem IR.InScope.uses (h : ir.InScope) {pipeline : PipelineOp} (hpipeline : pipeline ∈ ir.pipelines)
    {v : Value} (hv : v ∈ pipeline.uses) :
    ir.Visible v ∨ ∃ q ∈ ir.privateOps, v ∈ q.body.flatMap Op.results := by
  rcases List.mem_append.mp hv with hv | hv
  · obtain ⟨op, hop, hv⟩ := List.mem_flatMap.mp hv
    exact .inl (h.users pipeline hpipeline op hop v hv)
  · cases hq : pipeline.privateOp with
    | none =>
        rw [hq] at hv
        cases hv
    | some q =>
        rw [hq] at hv
        have hmem := mem_privateOps.mpr ⟨pipeline, hpipeline, hq⟩
        rcases List.mem_append.mp hv with hv | hv
        · obtain ⟨op, hop, hv⟩ := List.mem_flatMap.mp hv
          rcases (h.bodies q hmem).mem_of_operand hop hv with hscope | hvisible | hresult
          · cases hscope
          · exact .inl hvisible
          · exact .inr ⟨q, hmem, hresult⟩
        · exact .inr ⟨q, hmem, h.yields q hmem v hv⟩

/-- A result of a private op that is used exists. -/
theorem IR.Valid.lt_of_use (h : ir.Valid outer) (hq : q ∈ ir.privateOps) {k : Nat}
    (hp : p ∈ ir.getUses (.result q.id k)) : k < q.resultTypes.length := by
  obtain ⟨pipeline, hpipeline, hv, -⟩ := mem_getUses.mp hp
  rcases h.inScope.uses hpipeline hv with hvisible | ⟨q', hq', hresult⟩
  · rcases hvisible with houtside | ⟨q', hq', hresult⟩
    · cases houtside
    · obtain ⟨k', hk', heq⟩ := mem_resultsOf.mp hresult
      obtain ⟨hid, hk⟩ := Value.result.inj heq
      rw [h.privateOp_unique hq hq' hid, hk]
      exact hk'
  · exact absurd rfl (h.result_ne hq hq' hresult k)

theorem mem_movedIndices (h : ir.Valid outer) {idx : Nat} : idx ∈ movedIndices ir outer ↔
    ∃ p, getTarget ir outer idx = some p := by
  rw [movedIndices, List.mem_filter, List.mem_range, Option.isSome_iff_exists]
  constructor
  · exact And.right
  · intro ⟨p, hp⟩
    exact ⟨h.lt_of_use h.outer_mem (getTarget_eq_some.mp hp).2.1, p, hp⟩

theorem inner_ne_nil {idx : Nat} (hp : getTarget ir outer idx = some p) : ir.inner ≠ [] := by
  intro hnil
  obtain ⟨-, hmem, hne, -⟩ := getTarget_eq_some.mp hp
  obtain ⟨pipeline, hpipeline, -, hid⟩ := mem_getUses.mp hmem
  rw [IR.pipelines, hnil, List.mem_singleton] at hpipeline
  exact hne (hpipeline ▸ hid.symm)

/-- How a run ends well: nothing is moved, or all to one pipeline that has a private op. -/
theorem run_eq_ok (h : ir.Valid outer)
    {order : List ScopeCorrectionInfo → List ScopeCorrectionInfo} (horder : ∀ l, (order l).Perm l) :
    run order ir = .ok ir' ↔
      (∀ idx idx' p p', getTarget ir outer idx = some p → getTarget ir outer idx' = some p' →
        p = p') ∧
      ((movedIndices ir outer = [] ∧ ir' = ir) ∨ ∃ idx p q, getTarget ir outer idx = some p ∧
        ir.getPrivateOp p = some q ∧
        (movedIndices ir outer).length ≤ (movedValues ir outer).length ∧
        ir' = movedIR ir outer q p) := by
  have hrun : ir.inner ≠ [] → run order ir = (order (analyzePrivateResultUsage ir outer)).foldlM
      (movePrivateResultsToInnerPipeline outer.id) ir := by
    intro hinner
    rw [run, h.outer_eq]
    exact if_neg hinner
  by_cases hone : ∀ idx idx' p p', getTarget ir outer idx = some p →
      getTarget ir outer idx' = some p' → p = p'
  · have hinfos : ∀ p, (∀ idx p', getTarget ir outer idx = some p' → p' = p) →
        analyzePrivateResultUsage ir outer =
          if movedIndices ir outer = [] then [] else [movedInfo ir outer p] := by
      intro p hp
      rw [analyzePrivateResultUsage,
        analyze_of_oneTarget (h.body_nodup h.outer_mem) fun idx _ => hp idx]
      rfl
    by_cases hnil : movedIndices ir outer = []
    · have hnone : ∀ idx p, getTarget ir outer idx ≠ some p := fun idx p hp => by
        have hmem := (mem_movedIndices h).mpr ⟨p, hp⟩
        rw [hnil] at hmem
        cases hmem
      have hok : run order ir = .ok ir := by
        by_cases hinner : ir.inner = []
        · rw [run, h.outer_eq]
          exact if_pos hinner
        · rw [hrun hinner, hinfos 0 fun idx p hp => absurd hp (hnone idx p), if_pos hnil,
            (horder []).eq_nil]
          rfl
      rw [hok]
      constructor
      · intro heq
        exact ⟨hone, .inl ⟨hnil, (Except.ok.inj heq).symm⟩⟩
      · rintro ⟨-, ⟨-, rfl⟩ | ⟨idx, p, q, hp, -⟩⟩
        · rfl
        · exact absurd hp (hnone idx p)
    · obtain ⟨idx, hidx⟩ := List.exists_mem_of_ne_nil _ hnil
      obtain ⟨p, hp⟩ := (mem_movedIndices h).mp hidx
      have hmove : run order ir = movePrivateResultsToInnerPipeline outer.id ir
          (movedInfo ir outer p) := by
        rw [hrun (inner_ne_nil hp), hinfos p fun idx' p' hp' => hone idx' idx p' p hp' hp,
          if_neg hnil, List.perm_singleton.mp (horder _), List.foldlM_cons]
        exact bind_pure _
      rw [hmove, movePrivateResults_eq_ok h]
      constructor
      · rintro ⟨q, hq, hlen, heq⟩
        exact ⟨hone, .inr ⟨idx, p, q, hp, hq, hlen, heq⟩⟩
      · rintro ⟨-, ⟨hnil', -⟩ | ⟨idx', p', q, hp', hq, hlen, heq⟩⟩
        · exact absurd hnil' hnil
        · obtain rfl := hone idx' idx p' p hp' hp
          exact ⟨q, hq, hlen, heq⟩
  · -- with two pipelines there are two infos, and the second is not moved
    have hfail : ∃ e, run order ir = .error e := by
      push Not at hone
      obtain ⟨idx, idx', p, p', hp, hp', hne⟩ := hone
      have hlt := fun idx p (hp : getTarget ir outer idx = some p) =>
        List.mem_range.mpr (h.lt_of_use h.outer_mem (getTarget_eq_some.mp hp).2.1)
      have hmem := mem_targets_analyze.mpr ⟨idx, hlt idx p hp, hp⟩
      have hmem' := mem_targets_analyze.mpr ⟨idx', hlt idx' p' hp', hp'⟩
      rw [hrun (inner_ne_nil hp)]
      have hperm := horder (analyzePrivateResultUsage ir outer)
      obtain ⟨info, hinfo, htarget⟩ := List.mem_map.mp hmem
      obtain ⟨info', hinfo', htarget'⟩ := List.mem_map.mp hmem'
      have hinfo := hperm.mem_iff.mpr hinfo
      have hinfo' := hperm.mem_iff.mpr hinfo'
      match horderEq : order (analyzePrivateResultUsage ir outer), hinfo, hinfo' with
      | [a], hinfo, hinfo' =>
          rw [List.mem_singleton] at hinfo hinfo'
          exact absurd (htarget.symm.trans (hinfo ▸ hinfo' ▸ htarget')) hne
      | a :: b :: infos, _, _ => exact move_twice h a b infos
    obtain ⟨e, he⟩ := hfail
    rw [he]
    constructor
    · nofun
    · exact fun ⟨hone', _⟩ => absurd hone' hone

/-! ## Scopes of changed bodies -/

theorem BodyInScope.imp {visible visible' : Value → Prop} {scope scope' : List Value}
    {ops : List Op} (h : BodyInScope visible scope ops) (hscope : ∀ v ∈ scope, v ∈ scope')
    (hvisible : ∀ v, visible v → visible' v) : BodyInScope visible' scope' ops := by
  induction ops generalizing scope scope' with
  | nil => trivial
  | cons op ops ih =>
      refine ⟨fun v hv => (h.1 v hv).imp (hscope v) (hvisible v), ih h.2 fun v hv => ?_⟩
      rcases List.mem_append.mp hv with hv | hv
      · exact List.mem_append_left _ (hscope v hv)
      · exact List.mem_append_right _ hv

theorem bodyInScope_append {visible : Value → Prop} {scope : List Value} {ops ops' : List Op} :
    BodyInScope visible scope (ops ++ ops') ↔ BodyInScope visible scope ops ∧
      BodyInScope visible (scope ++ ops.flatMap Op.results) ops' := by
  induction ops generalizing scope with
  | nil => simp [BodyInScope]
  | cons op ops ih =>
      rw [List.cons_append, BodyInScope, BodyInScope, ih, List.flatMap_cons, List.append_assoc]
      tauto

/-- Ops can be left out if no other op reads what they define. -/
theorem BodyInScope.filter {visible : Value → Prop} {scope scope' dropped : List Value}
    {ops : List Op} {keep : Op → Bool} (h : BodyInScope visible scope ops)
    (hscope : ∀ v ∈ scope, v ∈ scope' ∨ v ∈ dropped)
    (hdrop : ∀ op ∈ ops, keep op = false → ∀ v ∈ op.results, v ∈ dropped)
    (hkeep : ∀ op ∈ ops, keep op = true → ∀ v ∈ op.operands, v ∉ dropped) :
    BodyInScope visible scope' (ops.filter keep) := by
  induction ops generalizing scope scope' with
  | nil => trivial
  | cons op ops ih =>
      have hdrop' := fun op' hop' => hdrop op' (List.mem_cons_of_mem op hop')
      have hkeep' := fun op' hop' => hkeep op' (List.mem_cons_of_mem op hop')
      cases hop : keep op with
      | true =>
          rw [List.filter_cons_of_pos hop]
          refine ⟨fun v hv => ?_, ih h.2 (fun v hv => ?_) hdrop' hkeep'⟩
          · have hnot := hkeep op List.mem_cons_self hop v hv
            exact (h.1 v hv).imp_left fun hmem => (hscope v hmem).resolve_right hnot
          · rcases List.mem_append.mp hv with hv | hv
            · exact (hscope v hv).imp_left (List.mem_append_left _)
            · exact .inl (List.mem_append_right _ hv)
      | false =>
          rw [List.filter_cons_of_neg (by rw [hop]; exact Bool.false_ne_true)]
          refine ih h.2 (fun v hv => ?_) hdrop' hkeep'
          rcases List.mem_append.mp hv with hv | hv
          · exact hscope v hv
          · exact .inr (hdrop op List.mem_cons_self hop v hv)

/-- Ops that read other values instead of those that are visible. -/
theorem BodyInScope.map {visible visible' : Value → Prop} {scope scope' : List Value}
    {ops : List Op} {f : Value → Value} (h : BodyInScope visible scope ops)
    (hscope : ∀ v ∈ scope, f v ∈ scope') (hresults : ∀ op ∈ ops, ∀ v ∈ op.results, f v = v)
    (hvisible : ∀ v, visible v → visible' (f v)) :
    BodyInScope visible' scope' (ops.map (Op.mapValues f)) := by
  induction ops generalizing scope scope' with
  | nil => trivial
  | cons op ops ih =>
      refine ⟨fun v hv => ?_, ih h.2 (fun v hv => ?_) fun op' hop' =>
        hresults op' (List.mem_cons_of_mem _ hop')⟩
      · obtain ⟨u, hu, rfl⟩ := List.mem_map.mp hv
        exact (h.1 u hu).imp (hscope u) (hvisible u)
      · rcases List.mem_append.mp hv with hv | hv
        · exact List.mem_append_left _ (hscope v hv)
        · rw [hresults op List.mem_cons_self v hv]
          exact List.mem_append_right _ hv

/-- Values that are no results of these ops are not in their scope. -/
theorem BodyInScope.strengthen {visible visible' : Value → Prop} {scope : List Value}
    {ops : List Op} (h : BodyInScope visible scope ops)
    (hvisible : ∀ op ∈ ops, ∀ v ∈ op.operands, visible v → visible' v) :
    BodyInScope visible' scope ops := by
  induction ops generalizing scope with
  | nil => trivial
  | cons op ops ih =>
      exact ⟨fun v hv => (h.1 v hv).imp_right (hvisible op List.mem_cons_self v hv),
        ih h.2 fun op' hop' => hvisible op' (List.mem_cons_of_mem _ hop')⟩

/-! ## Pipelines and their private ops -/

theorem names_eq : ir.names = ir.pipelines.flatMap fun pipeline =>
    pipeline.privateOp.elim [] fun q => q.id :: q.body.map Op.id := by
  rw [IR.names, IR.privateOps]
  induction ir.pipelines with
  | nil => rfl
  | cons pipeline pipelines ih =>
      rw [List.flatMap_cons, ← ih]
      cases hq : pipeline.privateOp with
      | none => rw [List.filterMap_cons_none hq]; rfl
      | some q => rw [List.filterMap_cons_some hq, List.flatMap_cons]; rfl

theorem IR.Valid.pipeline_unique (h : ir.Valid outer) {pipeline pipeline' : PipelineOp}
    (hpipeline : pipeline ∈ ir.pipelines) (hpipeline' : pipeline' ∈ ir.pipelines)
    (hq : pipeline.privateOp = some q) (hq' : pipeline'.privateOp = some q) :
    pipeline = pipeline' := by
  have hnames := h.names
  rw [names_eq] at hnames
  apply eq_of_mem_flatMap hnames hpipeline hpipeline' (b := q.id)
  · rw [hq]
    exact List.mem_cons_self
  · rw [hq']
    exact List.mem_cons_self

theorem IR.Valid.id_unique (h : ir.Valid outer) {pipeline pipeline' : PipelineOp}
    (hpipeline : pipeline ∈ ir.pipelines) (hpipeline' : pipeline' ∈ ir.pipelines)
    (hid : pipeline.id = pipeline'.id) : pipeline = pipeline' :=
  List.inj_on_of_nodup_map h.pipelines hpipeline hpipeline' hid

theorem getPrivateOp_eq_some (hnodup : (ir.pipelines.map PipelineOp.id).Nodup) :
    ir.getPrivateOp p = some q ↔
      ∃ pipeline ∈ ir.pipelines, pipeline.id = p ∧ pipeline.privateOp = some q := by
  constructor
  · intro hp
    obtain ⟨pipeline, hfind, hq⟩ := Option.bind_eq_some_iff.mp hp
    exact ⟨pipeline, List.mem_of_find?_eq_some hfind, by simpa using List.find?_some hfind, hq⟩
  · rintro ⟨pipeline, hpipeline, hid, hq⟩
    have hsome : (ir.pipelines.find? fun pipeline => pipeline.id = p).isSome :=
      List.find?_isSome.mpr ⟨pipeline, hpipeline, by simpa using hid⟩
    obtain ⟨found, hfound⟩ := Option.isSome_iff_exists.mp hsome
    have hfoundId : found.id = p := by simpa using List.find?_some hfound
    have hsame : found = pipeline := List.inj_on_of_nodup_map hnodup
      (List.mem_of_find?_eq_some hfound) hpipeline (hfoundId.trans hid.symm)
    rw [IR.getPrivateOp, hfound, hsame]
    exact hq

end

/-! ## What is read afterwards -/

/-- The results of one inner pipeline are moved, into the private op that it has. -/
structure Moves (ir : IR) (outer q : PrivateOp) (p : Nat) : Prop where
  valid : ir.Valid outer
  target : ∃ idx, getTarget ir outer idx = some p
  oneTarget : ∀ idx p', getTarget ir outer idx = some p' → p' = p
  privateOp : ir.getPrivateOp p = some q
  le : (movedIndices ir outer).length ≤ (movedValues ir outer).length

namespace Moves

variable {ir : IR} {outer q : PrivateOp} {p : Nat} (h : Moves ir outer q p)

include h

theorem target_ne : p ≠ ir.outer.id := by
  obtain ⟨idx, hp⟩ := h.target
  exact (getTarget_eq_some.mp hp).2.2.1

theorem mem : q ∈ ir.privateOps := getPrivateOp_mem h.privateOp

/-- The inner pipeline that the results go to. -/
theorem exists_pipeline : ∃ pipeline ∈ ir.inner, pipeline.id = p ∧ pipeline.privateOp = some q := by
  obtain ⟨pipeline, hpipeline, hid, hq⟩ := (getPrivateOp_eq_some h.valid.pipelines).mp h.privateOp
  rcases List.mem_cons.mp hpipeline with rfl | hinner
  · exact absurd hid.symm h.target_ne
  · exact ⟨pipeline, hinner, hid, hq⟩

theorem ne_outer {pipeline : PipelineOp} (hpipeline : pipeline ∈ ir.inner) {q' : PrivateOp}
    (hq' : pipeline.privateOp = some q') : q' ≠ outer := by
  rintro rfl
  have hsame := h.valid.pipeline_unique (List.mem_cons_of_mem _ hpipeline) List.mem_cons_self hq'
    h.valid.outer_eq
  have hnodup := h.valid.pipelines
  exact (List.nodup_cons.mp hnodup).1 (hsame ▸ List.mem_map_of_mem hpipeline)

theorem id_ne : q.id ≠ outer.id := by
  obtain ⟨pipeline, hpipeline, -, hq⟩ := h.exists_pipeline
  intro hid
  exact h.ne_outer hpipeline hq (h.valid.privateOp_unique h.mem h.valid.outer_mem hid)

theorem outer_lt : outer.id < ir.next := h.valid.lt_next _ (id_mem_names h.valid.outer_mem)

theorem inner_lt : q.id < ir.next := h.valid.lt_next _ (id_mem_names h.mem)

/-! ### The substitution -/

theorem substitution_moved {i idx : Nat} (hidx : (movedIndices ir outer)[i]? = some idx) :
    substitution ir outer q (.result outer.id idx) = .result ir.next i := by
  have hget : (movedResults ir outer)[i]? = some (.result outer.id idx) := by
    rw [movedResults, List.getElem?_map, hidx]
    rfl
  have hq := h.inner_lt
  have hout := h.outer_lt
  have hinner : ∀ k, Value.result ir.next i ≠ .result q.id k := fun k heq => by
    have := (Value.result.inj heq).1
    omega
  have houter : ∀ k, Value.result ir.next i ≠ .result outer.id k := fun k heq => by
    have := (Value.result.inj heq).1
    omega
  rw [substitution, redirect_getElem movedResults_nodup hget, Nat.zero_add]
  exact (congrArg _ (redirect_of_private hinner _ _)).trans (redirect_of_outer houter _ _)

theorem substitution_kept {i idx : Nat} (hidx : (keptIndices ir outer)[i]? = some idx) :
    substitution ir outer q (.result outer.id idx) = .result (ir.next + 1) i := by
  have hget : (keptResults ir outer)[i]? = some (.result outer.id idx) := by
    rw [keptResults, List.getElem?_map, hidx]
    rfl
  have hnot : Value.result outer.id idx ∉ movedResults ir outer := by
    intro hmem
    obtain ⟨idx', hidx', heq⟩ := List.mem_map.mp hmem
    have hkept := (List.mem_filter.mp (List.mem_of_getElem? hidx)).2
    exact of_decide_eq_true hkept ((Value.result.inj heq).2 ▸ hidx')
  have hinner : ∀ k, Value.result outer.id idx ≠ .result q.id k := fun k heq =>
    h.id_ne (Value.result.inj heq).1.symm
  have hnodup : (keptResults ir outer).Nodup := nodup_map_result _ keptIndices_nodup
  rw [substitution, redirect_of_notMem hnot]
  refine (congrArg _ (redirect_of_private hinner _ _)).trans ?_
  rw [redirect_getElem hnodup hget, Nat.zero_add]

theorem substitution_inner {k : Nat} (hk : k < q.resultTypes.length) :
    substitution ir outer q (.result q.id k) =
      .result ir.next ((movedIndices ir outer).length + k) := by
  have hout := h.outer_lt
  have houter : ∀ i, Value.result q.id k ≠ .result outer.id i := fun i heq =>
    h.id_ne (Value.result.inj heq).1
  have houter' : ∀ i, Value.result ir.next ((movedIndices ir outer).length + k) ≠
      .result outer.id i := fun i heq => by
    have := (Value.result.inj heq).1
    omega
  have hnodup : q.results.Nodup := nodup_resultsOf _ _
  have hget : q.results[k]? = some (.result q.id k) := getElem?_resultsOf hk
  have hfirst : redirect (movedResults ir outer) ir.next 0 (.result q.id k) = .result q.id k :=
    redirect_of_outer houter _ _
  rw [substitution, hfirst, redirect_getElem hnodup hget]
  exact redirect_of_outer houter' _ _

omit h in
theorem substitution_other {v : Value} (houter : ∀ k, v ≠ .result outer.id k)
    (hinner : ∀ k, v ≠ .result q.id k) : substitution ir outer q v = v := by
  have hfirst : redirect (movedResults ir outer) ir.next 0 v = v := redirect_of_outer houter _ _
  rw [substitution, hfirst]
  exact (congrArg _ (redirect_of_private hinner _ _)).trans (redirect_of_outer houter _ _)

theorem substitution_op {q' : PrivateOp} (hq' : q' ∈ ir.privateOps) {v : Value}
    (hv : v ∈ q'.body.flatMap Op.results) : substitution ir outer q v = v :=
  substitution_other (h.valid.result_ne h.valid.outer_mem hq' hv) (h.valid.result_ne h.mem hq' hv)

omit h in
theorem substitution_outside {v : Value} (hv : v.IsOutside) : substitution ir outer q v = v := by
  cases v with
  | outside n => exact substitution_other nofun nofun
  | result op k => cases hv

/-! ### The private ops -/

theorem mem_privateOps {q' : PrivateOp} : q' ∈ (movedIR ir outer q p).privateOps ↔
    q' = keptPrivate ir outer ∨
    q' = (movedPrivate ir outer q).mapValues (substitution ir outer q) ∨
    ∃ q₀ ∈ ir.privateOps, q₀ ≠ outer ∧ q₀ ≠ q ∧ q' = q₀.mapValues (substitution ir outer q) := by
  obtain ⟨target, htarget, hid, hq⟩ := h.exists_pipeline
  have hsplit : q' ∈ (movedIR ir outer q p).privateOps ↔ q' = keptPrivate ir outer ∨
      ∃ pipeline ∈ (movedIR ir outer q p).inner, pipeline.privateOp = some q' := by
    rw [ScopeCorrection.mem_privateOps, IR.pipelines, List.exists_mem_cons_iff]
    exact or_congr (by rw [movedIR, Option.some.injEq, eq_comm]) Iff.rfl
  rw [hsplit]
  apply or_congr Iff.rfl
  constructor
  · rintro ⟨pipeline', hpipeline', hq'⟩
    obtain ⟨pipeline, hpipeline, rfl⟩ := List.mem_map.mp hpipeline'
    split at hq'
    · exact .inl (Option.some.inj hq').symm
    · next hne =>
        obtain ⟨q₀, hq₀, rfl⟩ := Option.map_eq_some_iff.mp hq'
        have hmem := List.mem_cons_of_mem ir.outer hpipeline
        refine .inr ⟨q₀, ScopeCorrection.mem_privateOps.mpr ⟨pipeline, hmem, hq₀⟩,
          h.ne_outer hpipeline hq₀, ?_, rfl⟩
        rintro rfl
        have hsame := h.valid.pipeline_unique hmem (List.mem_cons_of_mem _ htarget) hq₀ hq
        exact hne (hsame ▸ hid)
  · rintro (rfl | ⟨q₀, hq₀, hneOuter, hneInner, rfl⟩)
    · refine ⟨_, List.mem_map_of_mem htarget, ?_⟩
      rw [if_pos hid]
    · obtain ⟨pipeline, hpipeline, hprivate⟩ := ScopeCorrection.mem_privateOps.mp hq₀
      rcases List.mem_cons.mp hpipeline with rfl | hinner
      · rw [h.valid.outer_eq] at hprivate
        exact absurd (Option.some.inj hprivate).symm hneOuter
      · refine ⟨_, List.mem_map_of_mem hinner, ?_⟩
        rw [if_neg]
        · rw [PipelineOp.mapValues, hprivate]
          rfl
        · intro hidp
          have hsame := h.valid.id_unique hpipeline (List.mem_cons_of_mem _ htarget)
            (hidp.trans hid.symm)
          rw [hsame, hq] at hprivate
          exact hneInner (Option.some.inj hprivate).symm

omit h in
theorem pipelines_id : (movedIR ir outer q p).pipelines.map PipelineOp.id =
    ir.pipelines.map PipelineOp.id := by
  rw [IR.pipelines, IR.pipelines, List.map_cons, List.map_cons, movedIR, List.map_map]
  congr 1
  apply List.map_congr_left
  intro pipeline _
  show (if pipeline.id = p then _ else _ : PipelineOp).id = _
  split <;> rfl

theorem getPrivateOp_outer :
    (movedIR ir outer q p).getPrivateOp ir.outer.id = some (keptPrivate ir outer) := by
  have hnodup := h.valid.pipelines
  rw [← pipelines_id] at hnodup
  exact (getPrivateOp_eq_some hnodup).mpr ⟨_, List.mem_cons_self, rfl, rfl⟩

theorem getPrivateOp_target : (movedIR ir outer q p).getPrivateOp p =
    some ((movedPrivate ir outer q).mapValues (substitution ir outer q)) := by
  have hnodup := h.valid.pipelines
  rw [← pipelines_id] at hnodup
  obtain ⟨target, htarget, hid, -⟩ := h.exists_pipeline
  refine (getPrivateOp_eq_some hnodup).mpr
    ⟨_, List.mem_cons_of_mem _ (List.mem_map_of_mem htarget), ?_, ?_⟩
  · rw [if_pos hid]
    exact hid
  · rw [if_pos hid]

theorem getPrivateOp_other {pipeline : PipelineOp} (hpipeline : pipeline ∈ ir.inner)
    (hne : pipeline.id ≠ p) {q₀ : PrivateOp} (hq₀ : pipeline.privateOp = some q₀) :
    (movedIR ir outer q p).getPrivateOp pipeline.id =
      some (q₀.mapValues (substitution ir outer q)) := by
  have hnodup := h.valid.pipelines
  rw [← pipelines_id] at hnodup
  refine (getPrivateOp_eq_some hnodup).mpr
    ⟨_, List.mem_cons_of_mem _ (List.mem_map_of_mem hpipeline), ?_, ?_⟩
  · rw [if_neg hne]
    rfl
  · rw [if_neg hne, PipelineOp.mapValues, hq₀]
    rfl

/-- What private ops yield stays. -/
theorem yields_mapValues {q₀ : PrivateOp} (hyields : ∀ v ∈ q₀.yields,
    ∃ q' ∈ ir.privateOps, v ∈ q'.body.flatMap Op.results) :
    (q₀.mapValues (substitution ir outer q)).yields = q₀.yields :=
  map_eq_self fun v hv =>
    let ⟨_, hq', hmem⟩ := hyields v hv
    h.substitution_op hq' hmem

theorem yields_moved {v : Value} (hv : v ∈ (movedPrivate ir outer q).yields) :
    v ∈ (movedPrivate ir outer q).body.flatMap Op.results := by
  show v ∈ (movedOps ir outer ++ q.body).flatMap Op.results
  rw [List.flatMap_append]
  rcases List.mem_append.mp hv with hv | hv
  · exact List.mem_append_left _ hv
  · exact List.mem_append_right _ (h.valid.inScope.yields q h.mem v hv)

/-- The ops of the inner private op are ops of the private ops that there were. -/
theorem body_moved {op : Op} (hop : op ∈ (movedPrivate ir outer q).body) :
    ∃ q' ∈ ir.privateOps, op ∈ q'.body := by
  rcases List.mem_append.mp hop with hop | hop
  · exact ⟨outer, h.valid.outer_mem, movedOps_mem hop⟩
  · exact ⟨q, h.mem, hop⟩

theorem movedPrivate_yields :
    ((movedPrivate ir outer q).mapValues (substitution ir outer q)).yields =
      movedValues ir outer ++ q.yields := by
  apply h.yields_mapValues
  intro v hv
  obtain ⟨op, hop, hresult⟩ := List.mem_flatMap.mp (h.yields_moved hv)
  obtain ⟨q', hq', hmem⟩ := h.body_moved hop
  exact ⟨q', hq', List.mem_flatMap.mpr ⟨op, hmem, hresult⟩⟩

theorem other_yields {q₀ : PrivateOp} (hq₀ : q₀ ∈ ir.privateOps) :
    (q₀.mapValues (substitution ir outer q)).yields = q₀.yields :=
  h.yields_mapValues fun v hv => ⟨q₀, hq₀, h.valid.inScope.yields q₀ hq₀ v hv⟩

/-! ### Scopes -/

omit h in
theorem mem_keptIndices {idx : Nat} : idx ∈ keptIndices ir outer ↔
    idx < outer.resultTypes.length ∧ idx ∉ movedIndices ir outer := by
  rw [keptIndices, List.mem_filter, List.mem_range, decide_eq_true_iff]

/-- What is read instead of something visible is visible. -/
theorem visible {v : Value} (hv : ir.Visible v) :
    (movedIR ir outer q p).Visible (substitution ir outer q v) := by
  rcases hv with houtside | ⟨q', hq', hresult⟩
  · rw [substitution_outside houtside]
    exact .inl houtside
  · obtain ⟨k, hk, rfl⟩ := mem_resultsOf.mp hresult
    by_cases houter : q' = outer
    · subst houter
      by_cases hmoved : k ∈ movedIndices ir q'
      · obtain ⟨i, hi⟩ := List.getElem?_of_mem hmoved
        rw [h.substitution_moved hi]
        refine .inr ⟨_, h.mem_privateOps.mpr (.inr (.inl rfl)), mem_resultsOf.mpr ⟨i, ?_, rfl⟩⟩
        have hlt := (List.getElem?_eq_some_iff.mp hi).1
        have hle := h.le
        show i < (movedPrivate ir q' q).resultTypes.length
        rw [length_movedPrivate]
        omega
      · obtain ⟨i, hi⟩ := List.getElem?_of_mem (mem_keptIndices.mpr ⟨hk, hmoved⟩)
        rw [h.substitution_kept hi]
        refine .inr ⟨_, h.mem_privateOps.mpr (.inl rfl), mem_resultsOf.mpr ⟨i, ?_, rfl⟩⟩
        rw [length_keptPrivate]
        exact (List.getElem?_eq_some_iff.mp hi).1
    · by_cases hinner : q' = q
      · subst hinner
        rw [h.substitution_inner hk]
        refine .inr ⟨_, h.mem_privateOps.mpr (.inr (.inl rfl)), mem_resultsOf.mpr ⟨_, ?_, rfl⟩⟩
        have hle := h.le
        show _ < (movedPrivate ir outer q').resultTypes.length
        rw [length_movedPrivate]
        omega
      · have hneOuter : ∀ i, Value.result q'.id k ≠ .result outer.id i := fun i heq =>
          houter (h.valid.privateOp_unique hq' h.valid.outer_mem (Value.result.inj heq).1)
        have hneInner : ∀ i, Value.result q'.id k ≠ .result q.id i := fun i heq =>
          hinner (h.valid.privateOp_unique hq' h.mem (Value.result.inj heq).1)
        rw [substitution_other hneOuter hneInner]
        exact .inr ⟨_, h.mem_privateOps.mpr (.inr (.inr ⟨q', hq', houter, hinner, rfl⟩)), hresult⟩

end Moves

end ScopeCorrection

end DataflowScheduler
