import Mathlib.Data.List.Nodup

/-!
# Pipelines and stages in each other

Pipelines hold stages, and stages may hold pipelines again, at any depth and among other operations.
A region is its operations with what is nested in them; where every stage occurs once, it is decided
by one stage which pipeline and which stage around it are meant.
-/

namespace DataflowScheduler

namespace KTDF

/-- The identity of a `ktdf.stage`. -/
abbrev StageId := Nat

/-- A token value. -/
abbrev Token := Nat

/-- An operation, as far as the analysis looks at it. -/
inductive OpKind where
  /-- `ktdf.stage` -/
  | stage (id : StageId) (dependsOut dependsIn : List Token)
  /-- `ktdf.pipeline` -/
  | pipeline
  /-- Any other operation, such as an `scf.for`. -/
  | other
  deriving DecidableEq

/-- The operations of a region: the first one, the `body` of operations nested in it, and the `rest`
of the operations after it. -/
inductive Region where
  | nil
  | cons (kind : OpKind) (body rest : Region)

/-- A `ktdf.stage`. -/
structure StageOp where
  id : StageId
  dependsOut : List Token
  dependsIn : List Token
  body : Region

namespace Region

/-- The stages among the operations of a region, not those nested deeper. -/
def directStages : Region → List StageOp
  | nil => []
  | cons (.stage id dependsOut dependsIn) body rest =>
      ⟨id, dependsOut, dependsIn, body⟩ :: rest.directStages
  | cons _ _ rest => rest.directStages

/-- The bodies of the pipelines in a region, in the order a walk visits them: a pipeline after those
nested in it. -/
def pipelines : Region → List Region
  | nil => []
  | cons .pipeline body rest => body.pipelines ++ body :: rest.pipelines
  | cons _ body rest => body.pipelines ++ rest.pipelines

/-- The stages in a region, at any depth. -/
def stageIds : Region → List StageId
  | nil => []
  | cons (.stage id _ _) body rest => id :: body.stageIds ++ rest.stageIds
  | cons _ body rest => body.stageIds ++ rest.stageIds

theorem mem_directStages_cons {kind : OpKind} {body rest : Region} {stage : StageOp} :
    stage ∈ (cons kind body rest).directStages ↔
      kind = .stage stage.id stage.dependsOut stage.dependsIn ∧ stage.body = body ∨
        stage ∈ rest.directStages := by
  cases kind with
  | stage id dependsOut dependsIn =>
      rw [directStages, List.mem_cons]
      refine or_congr_left ⟨?_, ?_⟩
      · rintro rfl
        exact ⟨rfl, rfl⟩
      · rintro ⟨hkind, rfl⟩
        cases hkind
        rfl
  | pipeline => simp [directStages]
  | other => simp [directStages]

theorem pipelines_cons (kind : OpKind) (body rest : Region) : (cons kind body rest).pipelines =
    body.pipelines ++ ((if kind = .pipeline then [body] else []) ++ rest.pipelines) := by
  cases kind with
  | stage => simp [pipelines]
  | pipeline => simp [pipelines]
  | other => simp [pipelines]

theorem mem_pipelines_cons {kind : OpKind} {body rest pipeline : Region} :
    pipeline ∈ (cons kind body rest).pipelines ↔
      pipeline ∈ body.pipelines ∨ kind = .pipeline ∧ pipeline = body ∨
        pipeline ∈ rest.pipelines := by
  rw [pipelines_cons, List.mem_append, List.mem_append]
  by_cases hkind : kind = .pipeline
  · simp [hkind]
  · simp [hkind]

theorem sizeOf_directStages {region : Region} {stage : StageOp}
    (h : stage ∈ region.directStages) : sizeOf stage.body < sizeOf region := by
  induction region with
  | nil => cases h
  | cons kind body rest _ ih =>
      rw [Region.cons.sizeOf_spec]
      rcases mem_directStages_cons.mp h with ⟨-, rfl⟩ | h
      · omega
      · have := ih h
        omega

theorem sizeOf_pipelines {region pipeline : Region} (h : pipeline ∈ region.pipelines) :
    sizeOf pipeline < sizeOf region := by
  induction region with
  | nil => cases h
  | cons kind body rest ihBody ihRest =>
      rw [Region.cons.sizeOf_spec]
      rcases mem_pipelines_cons.mp h with h | ⟨-, rfl⟩ | h
      · have := ihBody h
        omega
      · omega
      · have := ihRest h
        omega

end Region

/-- A stage and the stages in it. -/
def StageOp.stageIds (stage : StageOp) : List StageId := stage.id :: stage.body.stageIds

namespace Region

/-- The bodies of the pipelines in a region that are not in another of its pipelines. -/
def outermost : Region → List Region
  | nil => []
  | cons .pipeline body rest => body :: rest.outermost
  | cons _ body rest => body.outermost ++ rest.outermost

theorem mem_outermost_cons {kind : OpKind} {body rest pipeline : Region} :
    pipeline ∈ (cons kind body rest).outermost ↔
      (kind ≠ .pipeline ∧ pipeline ∈ body.outermost ∨ kind = .pipeline ∧ pipeline = body) ∨
        pipeline ∈ rest.outermost := by
  cases kind with
  | stage => simp [outermost]
  | pipeline => simp [outermost]
  | other => simp [outermost]

theorem sublist_stageIds_cons (kind : OpKind) (body rest : Region) :
    (body.stageIds ++ rest.stageIds).Sublist (cons kind body rest).stageIds := by
  cases kind with
  | stage id => exact List.sublist_cons_self ..
  | pipeline => exact List.Sublist.refl _
  | other => exact List.Sublist.refl _

theorem sublist_directStages {region : Region} {stage : StageOp} (h : stage ∈ region.directStages) :
    stage.stageIds.Sublist region.stageIds := by
  induction region with
  | nil => cases h
  | cons kind body rest _ ih =>
      rcases mem_directStages_cons.mp h with ⟨rfl, rfl⟩ | h
      · exact List.sublist_append_left ..
      · exact (ih h).trans ((List.sublist_append_right ..).trans (sublist_stageIds_cons ..))

theorem sublist_pipelines {region pipeline : Region} (h : pipeline ∈ region.pipelines) :
    pipeline.stageIds.Sublist region.stageIds := by
  induction region with
  | nil => cases h
  | cons kind body rest ihBody ihRest =>
      refine List.Sublist.trans ?_ (sublist_stageIds_cons kind body rest)
      rcases mem_pipelines_cons.mp h with h | ⟨-, rfl⟩ | h
      · exact (ihBody h).trans (List.sublist_append_left ..)
      · exact List.sublist_append_left ..
      · exact (ihRest h).trans (List.sublist_append_right ..)

/-- A pipeline is an outermost one or in one of those. -/
theorem mem_pipelines_iff {region pipeline : Region} : pipeline ∈ region.pipelines ↔
    ∃ outer ∈ region.outermost, pipeline = outer ∨ pipeline ∈ outer.pipelines := by
  induction region with
  | nil => simp [pipelines, outermost]
  | cons kind body rest ihBody ihRest =>
      rw [mem_pipelines_cons, ihRest]
      constructor
      · rintro (h | ⟨rfl, rfl⟩ | ⟨outer, houter, h⟩)
        · by_cases hkind : kind = .pipeline
          · exact ⟨body, mem_outermost_cons.mpr (.inl (.inr ⟨hkind, rfl⟩)), .inr h⟩
          · obtain ⟨outer, houter, h⟩ := ihBody.mp h
            exact ⟨outer, mem_outermost_cons.mpr (.inl (.inl ⟨hkind, houter⟩)), h⟩
        · exact ⟨pipeline, mem_outermost_cons.mpr (.inl (.inr ⟨rfl, rfl⟩)), .inl rfl⟩
        · exact ⟨outer, mem_outermost_cons.mpr (.inr houter), h⟩
      · rintro ⟨outer, houter, h⟩
        rcases mem_outermost_cons.mp houter with (⟨-, houter⟩ | ⟨rfl, rfl⟩) | houter
        · exact .inl (ihBody.mpr ⟨outer, houter, h⟩)
        · exact h.elim (fun h => .inr (.inl ⟨rfl, h⟩)) .inl
        · exact .inr (.inr ⟨outer, houter, h⟩)

theorem outermost_subset {region pipeline : Region} (h : pipeline ∈ region.outermost) :
    pipeline ∈ region.pipelines := mem_pipelines_iff.mpr ⟨pipeline, h, .inl rfl⟩

theorem outermost_eq_nil {region : Region} : region.outermost = [] ↔ region.pipelines = [] := by
  constructor
  · intro h
    refine List.eq_nil_iff_forall_not_mem.mpr fun pipeline hmem => ?_
    obtain ⟨outer, houter, -⟩ := mem_pipelines_iff.mp hmem
    rw [h] at houter
    cases houter
  · intro h
    refine List.eq_nil_iff_forall_not_mem.mpr fun pipeline hmem => ?_
    have := outermost_subset hmem
    rw [h] at this
    cases this

theorem pipelines_of_stage {region pipeline : Region} {stage : StageOp}
    (hstage : stage ∈ region.directStages) (h : pipeline ∈ stage.body.pipelines) :
    pipeline ∈ region.pipelines := by
  induction region with
  | nil => cases hstage
  | cons kind body rest _ ih =>
      rcases mem_directStages_cons.mp hstage with ⟨-, rfl⟩ | hstage
      · exact mem_pipelines_cons.mpr (.inl h)
      · exact mem_pipelines_cons.mpr (.inr (.inr (ih hstage)))

/-- A pipeline in a pipeline of the region is a pipeline of it. -/
theorem pipelines_trans {region p q : Region} (hp : p ∈ region.pipelines) (hq : q ∈ p.pipelines) :
    q ∈ region.pipelines := by
  induction region with
  | nil => cases hp
  | cons kind body rest ihBody ihRest =>
      rcases mem_pipelines_cons.mp hp with hp | ⟨-, rfl⟩ | hp
      · exact mem_pipelines_cons.mpr (.inl (ihBody hp))
      · exact mem_pipelines_cons.mpr (.inl hq)
      · exact mem_pipelines_cons.mpr (.inr (.inr (ihRest hp)))

/-! ## Where every stage occurs once -/

/-- An operation has no stage in common with the operations after it. -/
theorem disjoint_of_nodup {kind : OpKind} {body rest : Region}
    (hnd : (cons kind body rest).stageIds.Nodup) :
    (∀ i ∈ body.stageIds, i ∉ rest.stageIds) ∧
      ∀ stage : StageOp, kind = .stage stage.id stage.dependsOut stage.dependsIn →
        stage.body = body → ∀ i ∈ stage.stageIds, i ∉ rest.stageIds := by
  constructor
  · intro i hi
    exact List.disjoint_of_nodup_append (hnd.sublist (sublist_stageIds_cons kind body rest)) hi
  · rintro stage rfl rfl i hi
    exact List.disjoint_of_nodup_append hnd hi

theorem nodup_body {kind : OpKind} {body rest : Region}
    (hnd : (cons kind body rest).stageIds.Nodup) : body.stageIds.Nodup :=
  (hnd.sublist (sublist_stageIds_cons kind body rest)).of_append_left

theorem nodup_rest {kind : OpKind} {body rest : Region}
    (hnd : (cons kind body rest).stageIds.Nodup) : rest.stageIds.Nodup :=
  (hnd.sublist (sublist_stageIds_cons kind body rest)).of_append_right

/-- Two stages of a region that share a stage are the same. -/
theorem directStages_eq {region : Region} (hnd : region.stageIds.Nodup) {s t : StageOp}
    (hs : s ∈ region.directStages) (ht : t ∈ region.directStages) {i : StageId}
    (his : i ∈ s.stageIds) (hit : i ∈ t.stageIds) : s = t := by
  induction region with
  | nil => cases hs
  | cons kind body rest _ ih =>
      have hdisjoint := (disjoint_of_nodup hnd).2
      rcases mem_directStages_cons.mp hs with ⟨hks, hbs⟩ | hs
      · rcases mem_directStages_cons.mp ht with ⟨hkt, hbt⟩ | ht
        · subst hbs
          cases s
          cases t
          simp_all
        · exact absurd ((sublist_directStages ht).subset hit) (hdisjoint s hks hbs i his)
      · rcases mem_directStages_cons.mp ht with ⟨hkt, hbt⟩ | ht
        · exact absurd ((sublist_directStages hs).subset his) (hdisjoint t hkt hbt i hit)
        · exact ih (nodup_rest hnd) hs ht

/-- A pipeline that shares a stage with a stage of the region is in that stage. -/
theorem pipelines_stage_of_mem {region : Region} (hnd : region.stageIds.Nodup) {s : StageOp}
    {pipeline : Region} (hs : s ∈ region.directStages) (hp : pipeline ∈ region.pipelines)
    {i : StageId} (hip : i ∈ pipeline.stageIds) (his : i ∈ s.stageIds) :
    pipeline ∈ s.body.pipelines := by
  induction region with
  | nil => cases hs
  | cons kind body rest _ ih =>
      obtain ⟨hdisjoint, hdisjoint'⟩ := disjoint_of_nodup hnd
      rcases mem_directStages_cons.mp hs with ⟨hkind, hbody⟩ | hs
      · rcases mem_pipelines_cons.mp hp with hp | ⟨hpipeline, -⟩ | hp
        · exact hbody ▸ hp
        · rw [hpipeline] at hkind
          cases hkind
        · exact absurd ((sublist_pipelines hp).subset hip) (hdisjoint' s hkind hbody i his)
      · have hrest := (sublist_directStages hs).subset his
        rcases mem_pipelines_cons.mp hp with hp | ⟨-, rfl⟩ | hp
        · exact absurd hrest (hdisjoint i ((sublist_pipelines hp).subset hip))
        · exact absurd hrest (hdisjoint i hip)
        · exact ih (nodup_rest hnd) hs hp

/-- Two pipelines that share a stage are nested in each other. -/
theorem pipelines_nested {region : Region} (hnd : region.stageIds.Nodup) {p q : Region}
    (hp : p ∈ region.pipelines) (hq : q ∈ region.pipelines) {i : StageId} (hip : i ∈ p.stageIds)
    (hiq : i ∈ q.stageIds) : p = q ∨ p ∈ q.pipelines ∨ q ∈ p.pipelines := by
  induction region with
  | nil => cases hp
  | cons kind body rest ihBody ihRest =>
      have hdisjoint := (disjoint_of_nodup hnd).1
      -- Whether a pipeline is in the first operation is decided by the stage they share.
      have hside : ∀ p, p ∈ (cons kind body rest).pipelines → i ∈ p.stageIds →
          (i ∈ body.stageIds ∧ (p ∈ body.pipelines ∨ p = body)) ∨
            (i ∈ rest.stageIds ∧ p ∈ rest.pipelines) := by
        intro p hp hip
        rcases mem_pipelines_cons.mp hp with hp | ⟨-, rfl⟩ | hp
        · exact .inl ⟨(sublist_pipelines hp).subset hip, .inl hp⟩
        · exact .inl ⟨hip, .inr rfl⟩
        · exact .inr ⟨(sublist_pipelines hp).subset hip, hp⟩
      rcases hside p hp hip with ⟨hi, hp⟩ | ⟨hi, hp⟩
      · rcases hside q hq hiq with ⟨-, hq⟩ | ⟨hi', -⟩
        · rcases hp with hp | rfl
          · rcases hq with hq | rfl
            · exact ihBody (nodup_body hnd) hp hq
            · exact .inr (.inl hp)
          · exact hq.elim (fun hq => .inr (.inr hq)) fun hq => .inl hq.symm
        · exact absurd hi' (hdisjoint i hi)
      · rcases hside q hq hiq with ⟨hi', -⟩ | ⟨-, hq⟩
        · exact absurd hi (hdisjoint i hi')
        · exact ihRest (nodup_rest hnd) hp hq

/-- Two outermost pipelines that share a stage are the same. -/
theorem outermost_eq {region : Region} (hnd : region.stageIds.Nodup) {p q : Region}
    (hp : p ∈ region.outermost) (hq : q ∈ region.outermost) {i : StageId} (hip : i ∈ p.stageIds)
    (hiq : i ∈ q.stageIds) : p = q := by
  induction region with
  | nil => cases hp
  | cons kind body rest ihBody ihRest =>
      have hdisjoint := (disjoint_of_nodup hnd).1
      have hin : ∀ {r}, r ∈ rest.outermost → i ∈ r.stageIds → i ∈ rest.stageIds :=
        fun h hi => (sublist_pipelines (outermost_subset h)).subset hi
      have hbody : ∀ {r}, kind ≠ .pipeline ∧ r ∈ body.outermost ∨ kind = .pipeline ∧ r = body →
          i ∈ r.stageIds → i ∈ body.stageIds := by
        rintro r (⟨-, h⟩ | ⟨-, rfl⟩) hi
        · exact (sublist_pipelines (outermost_subset h)).subset hi
        · exact hi
      rcases mem_outermost_cons.mp hp with hp | hp
      · rcases mem_outermost_cons.mp hq with hq | hq
        · rcases hp with ⟨hkind, hp⟩ | ⟨hkind, rfl⟩
          · rcases hq with ⟨-, hq⟩ | ⟨hkind', -⟩
            · exact ihBody (nodup_body hnd) hp hq
            · exact absurd hkind' hkind
          · rcases hq with ⟨hkind', -⟩ | ⟨-, rfl⟩
            · exact absurd hkind hkind'
            · rfl
        · exact absurd (hin hq hiq) (hdisjoint i (hbody hp hip))
      · rcases mem_outermost_cons.mp hq with hq | hq
        · exact absurd (hin hp hip) (hdisjoint i (hbody hq hiq))
        · exact ihRest (nodup_rest hnd) hp hq

/-- Two stages of one pipeline that hold a given pair of stages are found in one pipeline only. -/
theorem pair_unique {region : Region} (hnd : region.stageIds.Nodup) {p q : Region}
    (hp : p ∈ region.pipelines) (hq : q ∈ region.pipelines) {s t s' t' : StageOp}
    (hs : s ∈ p.directStages) (ht : t ∈ p.directStages) (hs' : s' ∈ q.directStages)
    (ht' : t' ∈ q.directStages) (hst : s ≠ t) (hst' : s' ≠ t') {i j : StageId}
    (hi : i ∈ s.stageIds) (hi' : i ∈ s'.stageIds) (hj : j ∈ t.stageIds) (hj' : j ∈ t'.stageIds) :
    p = q ∧ s = s' ∧ t = t' := by
  -- A pipeline in another one is in one of its stages, which then holds both.
  have hinner : ∀ {p q : Region} {s t s' t' : StageOp}, q ∈ region.pipelines → p ∈ q.pipelines →
      s ∈ p.directStages → t ∈ p.directStages → s' ∈ q.directStages → t' ∈ q.directStages →
        i ∈ s.stageIds → i ∈ s'.stageIds → j ∈ t.stageIds → j ∈ t'.stageIds → s' = t' := by
    intro p q s t s' t' hq hpq hs ht hs' ht' hi hi' hj hj'
    have hndq := hnd.sublist (sublist_pipelines hq)
    have hin := pipelines_stage_of_mem hndq hs' hpq ((sublist_directStages hs).subset hi) hi'
    have hjs' : j ∈ s'.stageIds := List.mem_cons_of_mem _
      ((sublist_pipelines hin).subset ((sublist_directStages ht).subset hj))
    exact directStages_eq hndq hs' ht' hjs' hj'
  have hip := (sublist_directStages hs).subset hi
  have hiq := (sublist_directStages hs').subset hi'
  rcases pipelines_nested hnd hp hq hip hiq with rfl | hpq | hqp
  · have hndp := hnd.sublist (sublist_pipelines hp)
    exact ⟨rfl, directStages_eq hndp hs hs' hi hi', directStages_eq hndp ht ht' hj hj'⟩
  · exact absurd (hinner hq hpq hs ht hs' ht' hi hi' hj hj') hst'
  · exact absurd (hinner hp hqp hs' ht' hs ht hi' hi hj' hj) hst

end Region

end KTDF

end DataflowScheduler
