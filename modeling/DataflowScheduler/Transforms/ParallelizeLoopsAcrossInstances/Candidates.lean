import DataflowScheduler.Transforms.ParallelizeLoopsAcrossInstances
import DataflowScheduler.Util.Except

/-!
# The loops that are taken

The loop taken for a pipeline has no other pipelines in its body than those in the pipeline. So the
loops of two pipelines are different, and one is in the other if and only if one pipeline is.
-/

namespace ParallelizeLoops

open KTDF KTDF.Scope

/-- A module before the pass, with different ids and without `ktdf.parallel`. -/
structure Module where
  op : Op
  ids : (op.preorder.map OpInfo.id).Nodup
  parallelFree : ∀ info ∈ op.preorder, info.parallelFree = true

namespace Module

variable (module : Module)

/-- All places. -/
def places : List Place := module.op.withAncestors []

variable {module} {p q : Place}

theorem ids_places : module.places.map (fun place => place.1.label.id) =
    module.op.preorder.map OpInfo.id := by
  rw [← Rose.map_label_withAncestors [], List.map_map]
  rfl

/-- The id of an operation is that of one place. -/
theorem place_unique (hp : p ∈ module.places) (hq : q ∈ module.places)
    (h : p.1.label.id = q.1.label.id) : p = q := by
  have hnodup := module.ids
  rw [← ids_places] at hnodup
  exact List.inj_on_of_nodup_map hnodup hp hq h

/-- The operations below a place, with their ids. -/
theorem mem_below_of_id (hp : p ∈ module.places) (hq : q ∈ module.places)
    (h : q.1.label.id ∈ p.1.preorder.map OpInfo.id) : q ∈ p.1.withAncestors p.2 := by
  rw [← Rose.map_label_withAncestors p.2, List.map_map] at h
  obtain ⟨r, hr, hid⟩ := List.mem_map.mp h
  have hr' := Rose.withAncestors_subset hp hr
  rw [← place_unique hr' hq hid]
  exact hr

/-- Two places that are each below the other are the same. -/
theorem eq_of_below (hpq : p ∈ q.1.withAncestors q.2) (hqp : q ∈ p.1.withAncestors p.2) : p = q := by
  rcases Rose.ancestors_of_mem hpq with ⟨h₁, h₂⟩ | ⟨xs, hxs⟩
  · exact Prod.ext h₁ h₂
  · rcases Rose.ancestors_of_mem hqp with ⟨h₁, h₂⟩ | ⟨ys, hys⟩
    · exact (Prod.ext h₁ h₂).symm
    · have hlength := congrArg List.length hxs
      have hlength' := congrArg List.length hys
      simp only [List.length_append, List.length_cons] at hlength hlength'
      omega

theorem info_unique {a b : OpInfo} (ha : a ∈ module.op.preorder) (hb : b ∈ module.op.preorder)
    (h : a.id = b.id) : a = b :=
  List.inj_on_of_nodup_map module.ids ha hb h

/-! ## Scopes -/

/-- **What a loop of the scope is.** It is around the place with only loops in between, and the
pipelines in it are those in the operation at the place. -/
theorem mem_enclosingLoops {current : Op} {around : List Op} {forOp : ForOp}
    (hp : (current, around) ∈ module.places) (h : forOp ∈ enclosingLoops current around) :
    ∃ between loop above, around = between ++ loop :: above ∧ loop.label.asFor = some forOp ∧
      (∀ op ∈ between, op.label.asFor.isSome = true) ∧
        ∀ op ∈ loop.preorder, op.isPipeline = true → op.id ∈ current.preorder.map OpInfo.id := by
  induction around generalizing current with
  | nil => cases h
  | cons parent around ih =>
    obtain ⟨hparent, -⟩ := Rose.parent_mem_withAncestors hp (Nat.zero_le _)
    rw [enclosingLoops] at h
    split at h
    next => cases h
    next outer hfor =>
      split at h
      next hpeer =>
        have hpipelines : ∀ op ∈ parent.preorder, op.isPipeline = true →
            op.id ∈ current.preorder.map OpInfo.id := by
          intro op hop hpipeline
          cases parent with
          | node info children =>
            rw [Rose.preorder_node] at hop
            rcases List.mem_cons.mp hop with rfl | hop
            · cases op with
              | mk id kind => cases kind <;> simp_all [OpInfo.isPipeline, OpInfo.asFor]
            · have hall := List.all_eq_true.mp hpeer op hop
              simpa [hpipeline] using hall
        rcases List.mem_cons.mp h with rfl | h
        · exact ⟨[], parent, around, rfl, hfor, by simp, hpipelines⟩
        · obtain ⟨between, loop, above, rfl, hloop, hbetween, hbelow⟩ := ih hparent h
          refine ⟨parent :: between, loop, above, rfl, hloop, ?_, ?_⟩
          · exact List.forall_mem_cons.mpr ⟨by simp [hfor], hbetween⟩
          · intro op hop hpipeline
            obtain ⟨op', hop', hid⟩ := List.mem_map.mp (hbelow op hop hpipeline)
            obtain ⟨hloopPlace, -⟩ := @Rose.ancestor_mem_withAncestors _ _ (parent :: between) _ _ _ hp
            have heq : op' = op := info_unique (Rose.preorder_subset_of_mem hparent hop')
              (Rose.preorder_subset_of_mem hloopPlace hop) hid
            rw [heq] at hop'
            exact hpipelines op hop' hpipeline
      next => cases h

theorem not_pipeline_of_asFor {op : OpInfo} (h : op.asFor.isSome = true) :
    op.isPipeline = false := by
  cases op with
  | mk id kind => cases kind <;> simp_all [OpInfo.isPipeline, OpInfo.asFor]

theorem id_of_asFor {op : OpInfo} {forOp : ForOp} (h : op.asFor = some forOp) : forOp.id = op.id := by
  cases op with
  | mk id kind =>
    cases kind with
    | scfFor loop =>
      obtain rfl := Option.some.inj h
      rfl
    | _ => cases h

/-- The loop with the id `a` is around the operation with the id `b`. -/
def Encloses (module : Op) (a b : OpId) : Prop :=
  ∃ place ∈ module.withAncestors [], place.1.label.id = b ∧ a ∈ place.2.map fun op => op.label.id

/-- The place `p` is around the place `q`. -/
def Inside (p q : Place) : Prop := ∃ between, q.2 = between ++ p.1 :: p.2

theorem below_iff (hp : p ∈ module.places) (hq : q ∈ module.places) :
    q ∈ p.1.withAncestors p.2 ↔ q = p ∨ Inside p q := by
  constructor
  · intro h
    rcases Rose.ancestors_of_mem h with ⟨h₁, h₂⟩ | hbetween
    · exact Or.inl (Prod.ext h₁ h₂)
    · exact Or.inr hbetween
  · rintro (rfl | ⟨between, hbetween⟩)
    · exact Rose.self_mem_withAncestors _ _
    · obtain ⟨t, around⟩ := q
      obtain rfl : around = between ++ p.1 :: p.2 := hbetween
      exact (Rose.ancestor_mem_withAncestors hq).2

theorem ancestor_place {between above : List Op} {loop : Op} (hp : p ∈ module.places)
    (haround : p.2 = between ++ loop :: above) : (loop, above) ∈ module.places := by
  obtain ⟨t, around⟩ := p
  obtain rfl : around = between ++ loop :: above := haround
  exact (Rose.ancestor_mem_withAncestors hp).1

/-- The loops of two pipelines: if the loop of the first is around the second pipeline, then the first
pipeline is the second or around it. -/
theorem below_of_loop {between above : List Op} {loop : Op}
    (hp : p ∈ module.places) (hq : q ∈ module.places) (hpipeline : q.1.label.isPipeline = true)
    (hloop : ∀ op ∈ loop.preorder, op.isPipeline = true → op.id ∈ p.1.preorder.map OpInfo.id)
    (haround : q.2 = between ++ loop :: above) : q ∈ p.1.withAncestors p.2 := by
  apply mem_below_of_id hp hq
  apply hloop _ _ hpipeline
  obtain ⟨t, around⟩ := q
  obtain rfl : around = between ++ loop :: above := haround
  exact Rose.label_mem_preorder_of_mem (Rose.ancestor_mem_withAncestors hq).2

/-- Two pipelines with the same loop in their scopes are the same. -/
theorem eq_of_same_loop {forOp forOp' : ForOp} (hp : p ∈ module.places) (hq : q ∈ module.places)
    (hpp : p.1.label.isPipeline = true) (hqp : q.1.label.isPipeline = true)
    (hf : forOp ∈ getPipelineEnclosingScope p) (hf' : forOp' ∈ getPipelineEnclosingScope q)
    (hid : forOp.id = forOp'.id) : p = q := by
  obtain ⟨between, loop, above, hp2, hloop, -, hbelow⟩ := mem_enclosingLoops hp hf
  obtain ⟨between', loop', above', hq2, hloop', -, hbelow'⟩ := mem_enclosingLoops hq hf'
  have hplace : (loop, above) ∈ module.places := (ancestor_place hp hp2)
  have hplace' : (loop', above') ∈ module.places := (ancestor_place hq hq2)
  have hsame : (loop, above) = (loop', above') := by
    apply place_unique hplace hplace'
    show loop.label.id = loop'.label.id
    rw [← id_of_asFor hloop, ← id_of_asFor hloop', hid]
  obtain ⟨rfl, rfl⟩ := Prod.mk.inj hsame
  exact eq_of_below (below_of_loop hq hp hpp hbelow' hp2) (below_of_loop hp hq hqp hbelow hq2)

/-- If a loop of the first pipeline is around a loop of the second, the pipelines are the same or the
first is around the second. -/
theorem inside_of_encloses {forOp forOp' : ForOp} (hp : p ∈ module.places) (hq : q ∈ module.places)
    (hqp : q.1.label.isPipeline = true)
    (hf : forOp ∈ getPipelineEnclosingScope p) (hf' : forOp' ∈ getPipelineEnclosingScope q)
    (h : Encloses module.op forOp.id forOp'.id) : q = p ∨ Inside p q := by
  obtain ⟨between, loop, above, hp2, hloop, -, hbelow⟩ := mem_enclosingLoops hp hf
  obtain ⟨between', loop', above', hq2, hloop', -, -⟩ := mem_enclosingLoops hq hf'
  obtain ⟨r, hr, hrid, hmem⟩ := h
  have hr' : r = (loop', above') := by
    apply place_unique hr (ancestor_place hq hq2)
    rw [hrid, id_of_asFor hloop']
  subst hr'
  obtain ⟨op, hop, hopid⟩ := List.mem_map.mp hmem
  obtain ⟨xs, ys, hsplit⟩ := List.append_of_mem hop
  obtain rfl : above' = xs ++ op :: ys := hsplit
  have hplace : (op, ys) ∈ module.places := ancestor_place hr rfl
  have hsame : (op, ys) = (loop, above) := by
    apply place_unique hplace (ancestor_place hp hp2)
    show op.label.id = loop.label.id
    rw [hopid, id_of_asFor hloop]
  obtain ⟨rfl, rfl⟩ := Prod.mk.inj hsame
  rw [← below_iff hp hq]
  apply @below_of_loop _ _ _ (between' ++ loop' :: xs) _ _ hp hq hqp hbelow
  rw [hq2, List.append_assoc, List.cons_append]

/-- If the first pipeline is around the second, its loops are around those of the second. -/
theorem encloses_of_inside {forOp forOp' : ForOp} (hp : p ∈ module.places) (hq : q ∈ module.places)
    (hpp : p.1.label.isPipeline = true)
    (hf : forOp ∈ getPipelineEnclosingScope p) (hf' : forOp' ∈ getPipelineEnclosingScope q)
    (h : Inside p q) : Encloses module.op forOp.id forOp'.id := by
  obtain ⟨between, loop, above, hp2, hloop, -, -⟩ := mem_enclosingLoops hp hf
  obtain ⟨between', loop', above', hq2, hloop', hbetween', -⟩ := mem_enclosingLoops hq hf'
  obtain ⟨xs, hxs⟩ := h
  have hnot : p.1.label.asFor.isSome = false := by
    cases hfor : p.1.label.asFor.isSome with
    | false => rfl
    | true => simp [not_pipeline_of_asFor hfor] at hpp
  -- the loop of the second pipeline is below the first pipeline, which is no loop
  have habove : ∃ zs, above' = zs ++ p.1 :: p.2 := by
    rw [hxs] at hq2
    rcases List.append_eq_append_iff.mp hq2 with ⟨zs, hzs, htail⟩ | ⟨zs, hzs, htail⟩
    · cases zs with
      | nil =>
        obtain ⟨hpl, -⟩ := List.cons.inj htail
        simp [hpl, hloop'] at hnot
      | cons z zs =>
        obtain ⟨rfl, -⟩ := List.cons.inj htail
        have hfor := hbetween' p.1 (by rw [hzs]; simp)
        simp [hnot] at hfor
    · cases zs with
      | nil =>
        obtain ⟨hpl, -⟩ := List.cons.inj htail
        simp [← hpl, hloop'] at hnot
      | cons z zs =>
        obtain ⟨-, rfl⟩ := List.cons.inj htail
        exact ⟨zs, rfl⟩
  obtain ⟨zs, rfl⟩ := habove
  refine ⟨_, ancestor_place hq hq2, (id_of_asFor hloop').symm, ?_⟩
  rw [id_of_asFor hloop]
  apply List.mem_map_of_mem (f := fun op : Op => op.label.id)
  show loop ∈ zs ++ p.1 :: p.2
  rw [hp2]
  simp

/-- No loop is around itself. -/
theorem not_encloses_self (a : OpId) : ¬Encloses module.op a a := by
  rintro ⟨r, hr, hrid, hmem⟩
  obtain ⟨op, hop, hopid⟩ := List.mem_map.mp hmem
  obtain ⟨xs, ys, hsplit⟩ := List.append_of_mem hop
  have hsame := place_unique (ancestor_place hr hsplit) hr (by rw [hrid]; exact hopid)
  have hlength := congrArg (fun place : Place => place.2.length) hsame
  rw [hsplit] at hlength
  simp at hlength
  omega

end Module

/-! ## Selection -/

section Selection

variable {device : Device} {getStaticTripCount : StaticTripCount} {p q : Place}

theorem firstMatching_isSome {scope : List ForOp} {pred : Option Int → Bool} :
    (firstMatching getStaticTripCount scope pred).isSome = true ↔
      ∃ forOp ∈ scope, forOp.loop.isParallel = true ∧ pred (getStaticTripCount forOp.loop) = true := by
  unfold firstMatching
  rw [List.find?_isSome]
  simp

theorem firstMatching_mem {scope : List ForOp} {pred : Option Int → Bool} {forOp : ForOp}
    (h : firstMatching getStaticTripCount scope pred = some forOp) : forOp ∈ scope :=
  List.mem_reverse.mp (List.mem_of_find?_eq_some h)

theorem selectLoop_mem {scope : List ForOp} {numInstances : Nat} {forOp : ForOp}
    (h : selectLoop getStaticTripCount scope numInstances = some forOp) : forOp ∈ scope := by
  unfold selectLoop at h
  rcases Option.or_eq_some_iff.mp h with h | ⟨-, h⟩
  · exact firstMatching_mem h
  · rcases Option.or_eq_some_iff.mp h with h | ⟨-, h⟩
    · exact firstMatching_mem h
    · exact firstMatching_mem h

/-- A loop is taken if and only if the scope has a parallel loop that is dynamic or has as many
iterations as there are instances. -/
theorem selectLoop_isSome {scope : List ForOp} {numInstances : Nat} :
    (selectLoop getStaticTripCount scope numInstances).isSome = true ↔
      ∃ forOp ∈ scope, forOp.loop.isParallel = true ∧
        ∀ trip ∈ getStaticTripCount forOp.loop, (numInstances : Int) ≤ trip := by
  unfold selectLoop
  rw [Option.isSome_or, Option.isSome_or, Bool.or_eq_true, Bool.or_eq_true, firstMatching_isSome,
    firstMatching_isSome, firstMatching_isSome]
  constructor
  · rintro (⟨forOp, hmem, hpar, htrip⟩ | ⟨forOp, hmem, hpar, htrip⟩ | ⟨forOp, hmem, hpar, htrip⟩)
    all_goals
      refine ⟨forOp, hmem, hpar, ?_⟩
      cases hcount : getStaticTripCount forOp.loop <;> simp_all
  · rintro ⟨forOp, hmem, hpar, htrip⟩
    right
    cases hcount : getStaticTripCount forOp.loop with
    | none => exact Or.inr ⟨forOp, hmem, hpar, by simp [hcount]⟩
    | some t => exact Or.inl ⟨forOp, hmem, hpar, by simp [hcount, htrip t hcount]⟩

/-- The pipeline can be in any of `groups`, which are at least two. -/
def InGroups (device : Device) (p : Place) (groups : Finset GroupId) : Prop :=
  ∃ units group, collectPipelineApplicableUnits p.1 = .ok units ∧
    device.findEnclosingGroup units = some group ∧ groups = device.getEquivalenceClass group ∧
      2 ≤ groups.card

/-- The pipeline can be in any of `groups`, and a loop around it can be distributed over them. -/
def Distributed (device : Device) (getStaticTripCount : StaticTripCount) (p : Place)
    (groups : Finset GroupId) : Prop :=
  InGroups device p groups ∧ ∃ forOp ∈ getPipelineEnclosingScope p, forOp.loop.isParallel = true ∧
    ∀ trip ∈ getStaticTripCount forOp.loop, (groups.card : Int) ≤ trip

/-- The loop to distribute over `groups` for the pipeline. -/
def Takes (device : Device) (getStaticTripCount : StaticTripCount) (p : Place)
    (groups : Finset GroupId) (forOp : ForOp) : Prop :=
  InGroups device p groups ∧
    selectLoop getStaticTripCount (getPipelineEnclosingScope p) groups.card = some forOp

theorem distributed_iff {groups : Finset GroupId} :
    Distributed device getStaticTripCount p groups ↔
      ∃ forOp, Takes device getStaticTripCount p groups forOp := by
  unfold Distributed Takes
  rw [← selectLoop_isSome, Option.isSome_iff_exists]
  simp

/-- **What a candidate is.** -/
theorem findCandidate_some {c : Candidate}
    (h : findCandidate device getStaticTripCount p = .ok (some c)) :
    ∃ forOp, Takes device getStaticTripCount p c.applicableGroups forOp ∧ c.loop = forOp.id ∧
      c.upperBound = forOp.loop.upperBound := by
  unfold findCandidate at h
  cases hunits : collectPipelineApplicableUnits p.1 with
  | error e =>
    rw [hunits] at h
    cases h
  | ok units =>
    simp only [hunits, bind, Except.bind] at h
    cases hgroup : device.findEnclosingGroup units with
    | none =>
      rw [hgroup] at h
      cases h
    | some group =>
      rw [hgroup] at h
      simp only at h
      split at h
      next => cases h
      next hcard =>
        split at h
        next => cases h
        next =>
          split at h
          next => cases h
          next forOp hselect =>
            obtain rfl := Option.some.inj (Except.ok.inj h)
            exact ⟨forOp, ⟨⟨units, group, hunits, hgroup, rfl, Nat.le_of_not_lt hcard⟩, hselect⟩,
              rfl, rfl⟩

/-- Where a loop is taken there is a candidate. -/
theorem findCandidate_of_takes {groups : Finset GroupId} {forOp : ForOp}
    (h : Takes device getStaticTripCount p groups forOp) :
    ∃ c, findCandidate device getStaticTripCount p = .ok (some c) ∧ c.applicableGroups = groups ∧
      c.loop = forOp.id ∧ c.upperBound = forOp.loop.upperBound := by
  obtain ⟨⟨units, group, hunits, hgroup, rfl, hcard⟩, hselect⟩ := h
  have hscope : (getPipelineEnclosingScope p).isEmpty = false := by
    cases hnil : getPipelineEnclosingScope p with
    | nil => simp [hnil, selectLoop, firstMatching] at hselect
    | cons => rfl
  unfold findCandidate
  simp only [hunits, hgroup, bind, Except.bind]
  rw [if_neg (Nat.not_lt.mpr hcard), if_neg (by simp [hscope]), hselect]
  exact ⟨_, rfl, rfl, rfl, rfl⟩

/-- The candidate of a pipeline, if the pass finds one. -/
def candidateOf (device : Device) (getStaticTripCount : StaticTripCount) (p : Place) :
    Option Candidate := (findCandidate device getStaticTripCount p).toOption.join

theorem candidateOf_some {c : Candidate} (h : candidateOf device getStaticTripCount p = some c) :
    ∃ forOp, Takes device getStaticTripCount p c.applicableGroups forOp ∧ c.loop = forOp.id ∧
      c.upperBound = forOp.loop.upperBound := by
  apply findCandidate_some
  unfold candidateOf at h
  cases hfind : findCandidate device getStaticTripCount p with
  | error e =>
    rw [hfind] at h
    cases h
  | ok found =>
    rw [hfind] at h
    exact congrArg Except.ok h

theorem candidateOf_of_takes {groups : Finset GroupId} {forOp : ForOp}
    (h : Takes device getStaticTripCount p groups forOp) :
    ∃ c, candidateOf device getStaticTripCount p = some c ∧ c.applicableGroups = groups ∧
      c.loop = forOp.id ∧ c.upperBound = forOp.loop.upperBound := by
  obtain ⟨c, hc, hrest⟩ := findCandidate_of_takes h
  exact ⟨c, by unfold candidateOf; rw [hc]; rfl, hrest⟩

theorem filterMap_of_found {ps : List Place} {found : List (Option Candidate)}
    (h : List.Forall₂ (fun p c => findCandidate device getStaticTripCount p = .ok c) ps found) :
    found.filterMap id = ps.filterMap (candidateOf device getStaticTripCount) := by
  induction h with
  | nil => rfl
  | @cons p c ps found hp _ ih =>
    have hc : candidateOf device getStaticTripCount p = c := by
      unfold candidateOf
      rw [hp]
      rfl
    rw [List.filterMap_cons, List.filterMap_cons, hc, ih]
    rfl

theorem collectCandidates_eq {module : Op} {cs : List Candidate}
    (h : collectCandidates device getStaticTripCount module = .ok cs) :
    cs = (pipelines module).filterMap (candidateOf device getStaticTripCount) := by
  obtain ⟨found, hfound, hcs⟩ := Except.bind_eq_ok.mp h
  obtain rfl := Except.ok.inj hcs
  exact filterMap_of_found (Except.mapM_eq_ok hfound)

end Selection

end ParallelizeLoops
