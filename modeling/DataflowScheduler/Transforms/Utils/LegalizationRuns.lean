import DataflowScheduler.Transforms.Utils.Legalization
import Mathlib.Algebra.Ring.Nat

/-!
# Runs of the legalizer

A fix is a step among the children of one node. Every step keeps the legal form, keeps that all checks
return and adds a node, so a run ends when its checks return and its assertions hold.
-/

namespace PipelineTreeLegalizer

/-! ## One step -/

/-- What the fix of the first violation does to the children of `parent`; there is no result when an
assertion fails. -/
inductive FixStep : Option NodeInfo → Option (Option OpId) → List Tree → Option (List Tree) → Prop
    where
  | wrap {parent above cs i children} (k : Nat) (next : Int)
      (hget : cs[k]? = some (.node i children)) (hi : i.isPipelineNode = true)
      (hillegal : children.any (fun c => c.label.isIllegalChild) = true)
      (hreturns : PrivateMustExistRule.isViolated i (children.map Rose.label) ≠ none) :
      FixStep parent above cs
        (some (cs.set k (.node i (wrapGroups createStageNode next [] children).1)))
  | nest {parent above cs} (hparent : parent.any NodeInfo.isPipelineNode = false)
      (hstage : cs.any (fun c => c.label.isStageNode) = true) :
      FixStep parent above cs (StageParentRule.fixViolation above cs)
  | makePrivate {parent above cs i children} (k : Nat)
      (hget : cs[k]? = some (.node i children))
      (hviolated : PrivateMustExistRule.isViolated i (children.map Rose.label) = some true) :
      FixStep parent above cs
        (some (cs.set k (.node i (PrivateMustExistRule.fixViolation children))))
  | inside {parent above cs i children result} (k : Nat)
      (hget : cs[k]? = some (.node i children))
      (hlegal : i.isStageNode = true → parent.any NodeInfo.isPipelineNode = true)
      (h : FixStep (some i) (nearestPipeline parent above) children result) :
      FixStep parent above cs (result.map fun children' => cs.set k (.node i children'))

variable {parent : Option NodeInfo} {above : Option (Option OpId)} {cs ds : List Tree} {t : Tree}

/-- The first violation among siblings is in the first sibling with one. -/
theorem collectList_head {k : Nat} {v : Violation} {vs : List Violation}
    (h : collectList parent k cs = some (v :: vs)) :
    ∃ j c v' vs', cs[j]? = some c ∧ collectTree parent c = some (v' :: vs') ∧
      v = ⟨v'.rule, (k + j) :: v'.path⟩ := by
  induction cs generalizing k with
  | nil =>
    rw [collectList] at h
    cases h
  | cons c cs ih =>
    rw [collectList] at h
    cases hhere : collectTree parent c with
    | none => simp [hhere] at h
    | some here =>
      cases hrest : collectList parent (k + 1) cs with
      | none => simp [hhere, hrest] at h
      | some rest =>
        simp only [hhere, hrest, Option.bind_eq_bind, Option.bind_some, Option.pure_def,
          Option.some.injEq] at h
        cases here with
        | nil =>
          rw [List.map_nil, List.nil_append] at h
          rw [h] at hrest
          obtain ⟨j, d, v', vs', hget, hd, rfl⟩ := ih hrest
          refine ⟨j + 1, d, v', vs', hget, hd, ?_⟩
          rw [Nat.add_right_comm, Nat.add_assoc]
        | cons v' vs' =>
          rw [List.map_cons, List.cons_append, List.cons.injEq] at h
          exact ⟨0, c, v', vs', rfl, hhere, h.1.symm⟩

/-- The fix of the first violation is a step. -/
theorem fixStep_of_collectTree {next : Int} {j : Nat} {v : Violation} {vs : List Violation}
    (hget : cs[j]? = some t) (h : collectTree parent t = some (v :: vs)) :
    FixStep parent above cs ((fixAt v.rule next parent above (j :: v.path) cs).map Prod.fst) := by
  induction t using Rose.induction generalizing parent above cs j v vs with
  | step i children ih =>
    rw [collectTree, violatedRules] at h
    cases hnoPrivate : PrivateMustExistRule.isViolated i (children.map Rose.label) with
    | none => simp [hnoPrivate] at h
    | some noPrivate =>
      cases hbelow : collectList (some i) 0 children with
      | none => simp [hnoPrivate, hbelow] at h
      | some below =>
        simp only [hnoPrivate, hbelow, Option.map_some, Option.bind_eq_bind, Option.bind_some,
          Option.pure_def, Option.some.injEq] at h
        by_cases hwrap : PipelineChildrenRule.isViolated i (children.map Rose.label) = true
        · rw [if_pos hwrap] at h
          obtain ⟨rfl, -⟩ : v = ⟨.pipelineChildren, []⟩ ∧ _ := by
            simpa using (List.cons.inj h.symm)
          simp only [PipelineChildrenRule.isViolated, Bool.and_eq_true] at hwrap
          have hreturns : PrivateMustExistRule.isViolated i (children.map Rose.label) ≠ none := by
            simp [hnoPrivate]
          simp only [fixAt, hget, Option.map_some, fixViolation_eq_wrapGroups hwrap.1 hreturns]
          apply FixStep.wrap j next hget hwrap.1 _ hreturns
          simpa [List.any_map, Function.comp_def] using hwrap.2
        · rw [if_neg hwrap, List.nil_append] at h
          by_cases hnest : StageParentRule.isViolated parent i = true
          · rw [if_pos hnest] at h
            obtain ⟨rfl, -⟩ : v = ⟨.stageParent, []⟩ ∧ _ := by
              simpa using (List.cons.inj h.symm)
            simp only [StageParentRule.isViolated, Bool.and_eq_true, Bool.not_eq_true'] at hnest
            simp only [fixAt, hget, Option.map_map]
            have hresult : Option.map (Prod.fst ∘ fun x => (x, next))
                (StageParentRule.fixViolation above cs) =
                StageParentRule.fixViolation above cs := Option.map_id' ..
            rw [hresult]
            apply FixStep.nest hnest.2
            rw [List.any_eq_true]
            exact ⟨_, List.mem_of_getElem? hget, hnest.1⟩
          · rw [if_neg hnest, List.nil_append] at h
            cases noPrivate with
            | true =>
              obtain ⟨rfl, -⟩ : v = ⟨.privateMustExist, []⟩ ∧ _ := by
                simpa using (List.cons.inj h.symm)
              simp only [fixAt, hget, Option.map_some]
              exact FixStep.makePrivate j hget hnoPrivate
            | false =>
              rw [if_neg Bool.false_ne_true, List.map_nil, List.nil_append] at h
              rw [h] at hbelow
              obtain ⟨j', c, v', vs', hget', hc, rfl⟩ := collectList_head hbelow
              have hstep := @ih c (List.mem_of_getElem? hget') (some i)
                (nearestPipeline parent above) children j' v' vs' hget' hc
              have hlegal : i.isStageNode = true → parent.any NodeInfo.isPipelineNode = true := by
                intro hi
                simpa [StageParentRule.isViolated, hi] using hnest
              have hinside := FixStep.inside j hget hlegal hstep
              show FixStep parent above cs
                ((fixAt v'.rule next parent above (j :: (0 + j') :: v'.path) cs).map Prod.fst)
              rw [fixAt, Nat.zero_add]
              simp only [hget]
              rw [Option.map_map] at hinside ⊢
              exact hinside

/-! ## The legal form -/

theorem legalList_set {k : Nat} {t' : Tree} (hget : cs[k]? = some t)
    (h : legalTree parent above t' = legalTree parent above t) :
    legalList parent above (cs.set k t') = legalList parent above cs := by
  obtain ⟨hk, rfl⟩ := List.getElem?_eq_some_iff.mp hget
  rw [legalList_eq_map, legalList_eq_map, List.map_set, h, ← List.map_set, List.set_getElem_self hk]

/-- The legal form of a node is decided by that of its children. -/
theorem legalTree_node_congr {i : NodeInfo}
    (h : settle (some i) (around parent above i) (legalList (some i) (around parent above i) ds) =
      settle (some i) (around parent above i) (legalList (some i) (around parent above i) cs)) :
    legalTree parent above (.node i ds) = legalTree parent above (.node i cs) := by
  rw [legalTree, legalTree, h]

/-- **A step does not change the legal form.** -/
theorem FixStep.settle_eq {result : Option (List Tree)} (h : FixStep parent above cs result) :
    ∀ ds, result = some ds →
      settle parent above (legalList parent above ds) =
        settle parent above (legalList parent above cs) := by
  induction h with
  | wrap k next hget hi hillegal hreturns =>
    rintro ds ⟨⟩
    rw [legalList_set hget]
    apply legalTree_node_congr
    exact settle_wrapGroups hi next
  | nest hparent hstage =>
    intro ds hds
    unfold StageParentRule.fixViolation at hds
    split at hds
    next => cases hds
    next =>
      obtain rfl := Option.some.inj hds
      exact settle_nestStages hparent hstage
  | makePrivate k hget hviolated =>
    rintro ds ⟨⟩
    rw [legalList_set hget]
    apply legalTree_node_congr
    exact settle_addPrivate hviolated
  | @inside parent above cs i children result k hget hlegal h ih =>
    intro ds hds
    obtain ⟨children', rfl, rfl⟩ := Option.map_eq_some_iff.mp hds
    have haround : around parent above i = nearestPipeline parent above := by
      unfold around
      rw [if_neg]
      intro hi
      simp only [Bool.and_eq_true, Bool.not_eq_true'] at hi
      simp [hlegal hi.1] at hi
    rw [legalList_set hget]
    apply legalTree_node_congr
    rw [haround]
    exact ih children' rfl

/-! ## The checks -/

/-- Every check of a node in the tree returns. -/
def ChecksReturn (tree : List Tree) : Prop :=
  ∀ t ∈ tree.flatMap Rose.subtrees, checkReturns t.label (t.children.map Rose.label) = true

theorem checksReturn_cons :
    ChecksReturn (t :: cs) ↔
      checkReturns t.label (t.children.map Rose.label) = true ∧ ChecksReturn t.children ∧
        ChecksReturn cs := by
  cases t with
  | node i children =>
    unfold ChecksReturn
    rw [List.flatMap_cons, Rose.subtrees_node]
    simp only [List.cons_append, List.forall_mem_cons, List.forall_mem_append, Rose.label_node,
      Rose.children_node]

/-- A search among siblings returns when those at each of them do. -/
theorem collectList_isSome_of
    (h : ∀ c ∈ cs, ∀ parent, (collectTree parent c).isSome = true ↔ ChecksReturn [c])
    (parent : Option NodeInfo) (k : Nat) :
    (collectList parent k cs).isSome = true ↔ ChecksReturn cs := by
  induction cs generalizing k with
  | nil => simp [collectList, ChecksReturn]
  | cons c cs ih =>
    have hc := h c List.mem_cons_self parent
    have hcs := ih (fun d hd => h d (List.mem_cons_of_mem _ hd)) (k + 1)
    have hnil : ChecksReturn [] := by simp [ChecksReturn]
    have hsplit : (collectList parent k (c :: cs)).isSome = true ↔
        (collectTree parent c).isSome = true ∧ (collectList parent (k + 1) cs).isSome = true := by
      rw [collectList]
      cases collectTree parent c <;> cases collectList parent (k + 1) cs <;> simp
    rw [checksReturn_cons] at hc ⊢
    rw [hsplit, hc, hcs]
    tauto

theorem collectTree_isSome (parent : Option NodeInfo) (t : Tree) :
    (collectTree parent t).isSome = true ↔ ChecksReturn [t] := by
  induction t using Rose.induction generalizing parent with
  | step i children ih =>
    have hbelow := collectList_isSome_of (fun c hc parent => ih c hc parent) (some i) 0
    rw [checksReturn_cons, Rose.label_node, Rose.children_node, ← hbelow, ← isViolated_isSome,
      collectTree, violatedRules]
    cases PrivateMustExistRule.isViolated i (children.map Rose.label) <;>
      cases collectList (some i) 0 children <;> simp [ChecksReturn]

/-- The search for violations returns when every check does. -/
theorem collectList_isSome (parent : Option NodeInfo) (k : Nat) :
    (collectList parent k cs).isSome = true ↔ ChecksReturn cs :=
  collectList_isSome_of (fun c _ parent => collectTree_isSome parent c) parent k

theorem checksReturn_iff :
    ChecksReturn cs ↔ ∀ c ∈ cs, checkReturns c.label (c.children.map Rose.label) = true ∧
      ChecksReturn c.children := by
  induction cs with
  | nil => simp [ChecksReturn]
  | cons c cs ih =>
    rw [checksReturn_cons, ih, List.forall_mem_cons, and_assoc]

theorem checksReturn_set {k : Nat} (hcs : ChecksReturn cs)
    (ht : checkReturns t.label (t.children.map Rose.label) = true) (hchildren : ChecksReturn t.children) :
    ChecksReturn (cs.set k t) := by
  rw [checksReturn_iff] at hcs ⊢
  intro c hc
  rcases List.mem_or_eq_of_mem_set hc with hc | rfl
  · exact hcs c hc
  · exact ⟨ht, hchildren⟩

/-- A child after wrapping is one from before or a new stage around illegal ones. -/
theorem mem_of_mem_wrapGroups {newStage : Int → NodeInfo} {next : Int} {group : List Tree}
    (ht : t ∈ (wrapGroups newStage next group cs).1) :
    t ∈ cs ∨ ∃ next' group', t = .node (newStage next') group' ∧ ∀ c ∈ group', c ∈ group ++ cs := by
  have hclose : ∀ (next : Int) (group : List Tree), t ∈ (closeGroup newStage next group).1 →
      ∃ next', t = .node (newStage next') group := by
    intro next group ht
    unfold closeGroup at ht
    split at ht
    · cases ht
    · exact ⟨next, List.mem_singleton.mp ht⟩
  induction cs generalizing next group with
  | nil =>
    obtain ⟨next', rfl⟩ := hclose next group ht
    exact Or.inr ⟨next', group, rfl, by simp⟩
  | cons c cs ih =>
    rw [wrapGroups] at ht
    split at ht
    next =>
      rcases ih ht with ht | ⟨next', group', rfl, hgroup⟩
      · exact Or.inl (List.mem_cons_of_mem _ ht)
      · exact Or.inr ⟨next', group', rfl, fun d hd => by simpa using hgroup d hd⟩
    next =>
      rcases List.mem_append.mp ht with ht | ht
      · obtain ⟨next', rfl⟩ := hclose next group ht
        exact Or.inr ⟨next', group, rfl, fun d hd => List.mem_append_left _ hd⟩
      · rcases List.mem_cons.mp ht with rfl | ht
        · exact Or.inl List.mem_cons_self
        · rcases ih ht with ht | ⟨next', group', rfl, hgroup⟩
          · exact Or.inl (List.mem_cons_of_mem _ ht)
          · refine Or.inr ⟨next', group', rfl, fun d hd => ?_⟩
            exact List.mem_append_right _ (List.mem_cons_of_mem _ (hgroup d hd))

theorem checkReturns_wrapGroups {i : NodeInfo} {next : Int}
    (h : checkReturns i (cs.map Rose.label) = true) :
    checkReturns i ((wrapGroups createStageNode next [] cs).1.map Rose.label) = true := by
  rw [← isViolated_isSome] at h ⊢
  unfold PrivateMustExistRule.isViolated at h ⊢
  cases hi : i.isPipelineNode with
  | false => simp
  | true =>
    cases hfirst : (cs.map Rose.label).head?.any NodeInfo.isPrivateNode with
    | true =>
      have hprivate : ((wrapGroups createStageNode next [] cs).1.map Rose.label).head?.any
          NodeInfo.isPrivateNode = true := by
        cases cs with
        | nil => cases hfirst
        | cons c cs =>
          have hc : c.label.isPrivateNode = true := hfirst
          rw [wrapGroups, if_neg (by simp [NodeInfo.isIllegalChild, hc])]
          simp [closeGroup, hc]
      rw [if_neg (by simp), if_pos hprivate]
      rfl
    | false =>
      simp only [hi, hfirst, Bool.not_true, Bool.false_eq_true, if_false] at h
      simp only [Bool.not_true, Bool.false_eq_true, if_false]
      split
      next => rfl
      next =>
        rw [scan_wrapGroups next h]
        exact h

/-- The check of a pipeline of stages returns. -/
theorem checkReturns_of_all_stage {i : NodeInfo} {children : List NodeInfo}
    (h : ∀ c ∈ children, c.isStageNode = true) : checkReturns i children = true := by
  unfold checkReturns
  rw [Bool.or_eq_true]
  right
  rw [Option.all_eq_true]
  intro c hc
  have hmem : c ∈ children := (List.dropWhile_sublist _).mem (List.mem_of_mem_head? hc)
  have hdep : ¬(c.isStageNode && c.dependencies.isEmpty) = true := by
    intro hcontra
    have hne := List.head?_dropWhile_not (fun c : NodeInfo => c.isStageNode && c.dependencies.isEmpty)
      children
    rw [Option.mem_def.mp hc] at hne
    simp [hcontra] at hne
  simpa [hasDependents, h c hmem] using hdep

/-- A step among the children of a pipeline keeps the children's infos. -/
theorem FixStep.labels {result : Option (List Tree)} (h : FixStep parent above cs result)
    (hparent : parent.any NodeInfo.isPipelineNode = true) :
    ∀ ds, result = some ds → ds.map Rose.label = cs.map Rose.label := by
  have hset : ∀ (k : Nat) (i : NodeInfo) (children children' : List Tree),
      cs[k]? = some (.node i children) →
        (cs.set k (.node i children')).map Rose.label = cs.map Rose.label := by
    intro k i children children' hget
    obtain ⟨hk, hnode⟩ := List.getElem?_eq_some_iff.mp hget
    have hlabel : (Rose.node i children').label = cs[k].label := by rw [hnode, Rose.label_node,
      Rose.label_node]
    rw [List.map_set, hlabel, ← List.map_set, List.set_getElem_self hk]
  cases h with
  | wrap k next hget =>
    rintro ds ⟨⟩
    exact hset k _ _ _ hget
  | nest hnot => simp [hnot] at hparent
  | makePrivate k hget =>
    rintro ds ⟨⟩
    exact hset k _ _ _ hget
  | inside k hget =>
    intro ds hds
    obtain ⟨children', -, rfl⟩ := Option.map_eq_some_iff.mp hds
    exact hset k _ _ _ hget

theorem mem_nestStages {newPipeline : List Tree → Tree} (ht : t ∈ nestStages newPipeline cs) :
    t ∈ cs ∨ t = newPipeline (cs.filter fun c => c.label.isStageNode) := by
  unfold nestStages at ht
  simp only at ht
  split at ht
  · rcases List.mem_append.mp ht with ht | ht
    · exact Or.inl ((List.dropWhile_sublist _).mem (List.mem_filter.mp ht).1)
    · exact Or.inr (List.mem_singleton.mp ht)
  · rcases List.mem_append.mp ht with ht | ht
    · exact Or.inl ((List.takeWhile_sublist _).mem ht)
    · rcases List.mem_cons.mp ht with rfl | ht
      · exact Or.inr rfl
      · exact Or.inl ((List.dropWhile_sublist _).mem (List.mem_filter.mp ht).1)

/-- **Checks keep returning.** -/
theorem FixStep.checksReturn {result : Option (List Tree)} (h : FixStep parent above cs result)
    (hcs : ChecksReturn cs) : ∀ ds, result = some ds → ChecksReturn ds := by
  induction h with
  | @wrap parent above cs i children k next hget hi hillegal hreturns =>
    rintro ds ⟨⟩
    obtain ⟨hnode, hchildren⟩ := checksReturn_iff.mp hcs _ (List.mem_of_getElem? hget)
    apply checksReturn_set hcs (checkReturns_wrapGroups hnode)
    rw [checksReturn_iff] at hchildren ⊢
    intro c hc
    rcases mem_of_mem_wrapGroups hc with hc | ⟨next', group, rfl, hgroup⟩
    · exact hchildren c hc
    · refine ⟨rfl, ?_⟩
      rw [checksReturn_iff]
      intro d hd
      exact hchildren d (by simpa using hgroup d hd)
  | @nest parent above cs hparent hstage =>
    intro ds hds
    unfold StageParentRule.fixViolation at hds
    split at hds
    next => cases hds
    next =>
      obtain rfl := Option.some.inj hds
      rw [checksReturn_iff] at hcs ⊢
      intro c hc
      rcases mem_nestStages hc with hc | rfl
      · exact hcs c hc
      · constructor
        · apply checkReturns_of_all_stage
          intro i hi
          obtain ⟨d, hd, rfl⟩ := List.mem_map.mp hi
          exact (List.mem_filter.mp hd).2
        · rw [checksReturn_iff]
          intro d hd
          exact hcs d (List.mem_filter.mp hd).1
  | @makePrivate parent above cs i children k hget hviolated =>
    rintro ds ⟨⟩
    obtain ⟨-, hchildren⟩ := checksReturn_iff.mp hcs _ (List.mem_of_getElem? hget)
    apply checksReturn_set hcs
    · show (!i.isPipelineNode || true || _) = true
      simp
    · exact checksReturn_cons.mpr ⟨rfl, by simp [ChecksReturn], hchildren⟩
  | @inside parent above cs i children result k hget hlegal h ih =>
    intro ds hds
    obtain ⟨children', rfl, rfl⟩ := Option.map_eq_some_iff.mp hds
    obtain ⟨hnode, hchildren⟩ := checksReturn_iff.mp hcs _ (List.mem_of_getElem? hget)
    refine checksReturn_set hcs ?_ (by exact ih hchildren children' rfl)
    show checkReturns i (children'.map Rose.label) = true
    cases hi : i.isPipelineNode with
    | false => simp [checkReturns, hi]
    | true =>
      rw [h.labels hi children' rfl]
      exact hnode

/-! ## The templates -/

mutual

/-- The stages with a parent that is not a pipeline for which the nearest pipeline around the parent
has neither an operation nor a template. -/
def untemplatedTree (parent : Option NodeInfo) (above : Option (Option OpId)) :
    Tree → List NodeInfo
  | .node i cs =>
      (if StageParentRule.isViolated parent i && above = some none then [i] else []) ++
        untemplatedList (some i) (around parent above i) cs

/-- Those at and below the children of `parent`. -/
def untemplatedList (parent : Option NodeInfo) (above : Option (Option OpId)) :
    List Tree → List NodeInfo
  | [] => []
  | c :: cs => untemplatedTree parent above c ++ untemplatedList parent above cs

end

/-- Every nested pipeline finds its template. A stage outside all pipelines needs none, but one inside
such a stage does, and there is none. -/
def Templated (tree : List Tree) : Prop := untemplatedList none none tree = []

theorem untemplatedList_eq_flatMap :
    untemplatedList parent above cs = cs.flatMap (untemplatedTree parent above) := by
  induction cs with
  | nil => rfl
  | cons c cs ih => rw [untemplatedList, ih, List.flatMap_cons]

theorem untemplatedList_eq_nil :
    untemplatedList parent above cs = [] ↔ ∀ c ∈ cs, untemplatedTree parent above c = [] := by
  rw [untemplatedList_eq_flatMap, List.flatMap_eq_nil_iff]

theorem untemplatedTree_eq_nil {i : NodeInfo} :
    untemplatedTree parent above (.node i cs) = [] ↔
      ¬(StageParentRule.isViolated parent i = true ∧ above = some none) ∧
        untemplatedList (some i) (around parent above i) cs = [] := by
  rw [untemplatedTree, List.append_eq_nil_iff]
  simp

theorem untemplatedTree_congr {parent' : Option NodeInfo} {above' : Option (Option OpId)}
    (hviolated : StageParentRule.isViolated parent t.label = false)
    (hviolated' : StageParentRule.isViolated parent' t.label = false)
    (haround : around parent above t.label = around parent' above' t.label) :
    untemplatedTree parent above t = untemplatedTree parent' above' t := by
  cases t with
  | node i cs =>
    rw [Rose.label_node] at hviolated hviolated' haround
    rw [untemplatedTree, untemplatedTree, hviolated, hviolated', haround]
    rfl

/-- What is read off the nodes is read off in the same order after wrapping, if the new stages add
nothing. -/
theorem flatMap_wrapGroups {α : Type} (g : Tree → List α) (newStage : Int → NodeInfo)
    (hnew : ∀ next group, (∀ c ∈ group, c.label.isIllegalChild = true) →
      g (.node (newStage next) group) = group.flatMap g)
    (next : Int) {group : List Tree} (hgroup : ∀ c ∈ group, c.label.isIllegalChild = true) :
    (wrapGroups newStage next group cs).1.flatMap g = group.flatMap g ++ cs.flatMap g := by
  have hclose : ∀ (next : Int) (group : List Tree), (∀ c ∈ group, c.label.isIllegalChild = true) →
      (closeGroup newStage next group).1.flatMap g = group.flatMap g := by
    intro next group hgroup
    unfold closeGroup
    split
    next hnil => rw [hnil]
    next => rw [List.flatMap_singleton, hnew next group hgroup]
  induction cs generalizing next group with
  | nil =>
    rw [wrapGroups, hclose next group hgroup, List.flatMap_nil, List.append_nil]
  | cons c cs ih =>
    rw [wrapGroups]
    split
    next hc =>
      rw [ih next, List.flatMap_append, List.flatMap_singleton, List.append_assoc,
        List.flatMap_cons]
      intro d hd
      rcases List.mem_append.mp hd with hd | hd
      · exact hgroup d hd
      · rw [List.mem_singleton.mp hd]
        exact hc
    next =>
      simp only
      rw [List.flatMap_append, List.flatMap_cons, hclose next group hgroup, ih _ (by simp)]
      simp

theorem nestStages_perm (newPipeline : List Tree → Tree) :
    (nestStages newPipeline cs).Perm (newPipeline (cs.filter fun c => c.label.isStageNode) ::
      cs.filter fun c => !c.label.isStageNode) := by
  have hbefore : (cs.takeWhile fun c => !c.label.isStageNode).filter
      (fun c => !c.label.isStageNode) = cs.takeWhile fun c => !c.label.isStageNode := by
    rw [List.filter_eq_self]
    intro c hc
    simpa using List.mem_takeWhile_imp hc
  have hsplit : cs.filter (fun c => !c.label.isStageNode) =
      (cs.takeWhile fun c => !c.label.isStageNode) ++
        (cs.dropWhile fun c => !c.label.isStageNode).filter fun c => !c.label.isStageNode := by
    conv_lhs => rw [← List.takeWhile_append_dropWhile (p := fun c : Tree => !c.label.isStageNode)
      (l := cs), List.filter_append, hbefore]
  rw [hsplit]
  unfold nestStages
  simp only
  split
  next hnil =>
    rw [hnil, List.nil_append]
    exact List.perm_append_singleton _ _
  next => exact List.perm_middle

theorem forall_mem_set {P : Tree → Prop} {k : Nat} {t' : Tree} (hget : cs[k]? = some t)
    (h : P t' ↔ P t) : (∀ c ∈ cs.set k t', P c) ↔ ∀ c ∈ cs, P c := by
  induction cs generalizing k with
  | nil => cases hget
  | cons c cs ih =>
    cases k with
    | zero =>
      obtain rfl := Option.some.inj hget
      simp only [List.set_cons_zero, List.forall_mem_cons, h]
    | succ k =>
      simp only [List.set_cons_succ, List.forall_mem_cons, ih hget]

/-- Wrapping does not change which stages are without a template. -/
theorem untemplatedList_wrapGroups {i : NodeInfo} (hi : i.isPipelineNode = true) (next : Int) :
    untemplatedList (some i) above (wrapGroups createStageNode next [] cs).1 =
      untemplatedList (some i) above cs := by
  rw [untemplatedList_eq_flatMap, untemplatedList_eq_flatMap,
    flatMap_wrapGroups (untemplatedTree (some i) above) createStageNode _ next (by simp),
    List.flatMap_nil, List.nil_append]
  intro next group hgroup
  have hnew : (createStageNode next).isPipelineNode = false := rfl
  have hviolated : StageParentRule.isViolated (some i) (createStageNode next) = false := by
    simp [StageParentRule.isViolated, hi]
  rw [untemplatedTree, hviolated, untemplatedList_eq_flatMap]
  apply List.flatMap_congr
  intro c hc
  have hstage := not_stage_of_illegal (hgroup c hc)
  apply untemplatedTree_congr
  · simp [StageParentRule.isViolated, hstage]
  · simp [StageParentRule.isViolated, hstage]
  · simp [around, nearestPipeline, hstage, hi, hnew]

/-- A new private node adds no stage without a template. -/
theorem untemplatedList_makePrivate :
    untemplatedList parent above (PrivateMustExistRule.fixViolation cs) =
      untemplatedList parent above cs := by
  have hnew : untemplatedTree parent above (.node createPrivateNode []) = [] := rfl
  show untemplatedTree parent above (.node createPrivateNode []) ++ _ = _
  rw [hnew, List.nil_append]

/-- In a new pipeline the stages have their template if there is one for the pipeline. -/
theorem untemplatedTree_pipeline (hparent : parent.any NodeInfo.isPipelineNode = false)
    (habove : above ≠ some none) {stages : List Tree}
    (h : ∀ c ∈ stages, c.label.isStageNode = true) :
    untemplatedTree parent above (.node (createPipelineNode above.join) stages) =
      untemplatedList parent above stages := by
  have hnew : (createPipelineNode above.join).isPipelineNode = true := rfl
  have htemplate : (createPipelineNode above.join).operationOrTemplate = above.join := rfl
  rw [untemplatedTree]
  show untemplatedList _ _ stages = _
  rw [untemplatedList_eq_flatMap, untemplatedList_eq_flatMap]
  apply List.flatMap_congr
  intro c hc
  cases c with
  | node i children =>
    have hi : i.isStageNode = true := h _ hc
    have haround : around (some (createPipelineNode above.join))
        (around parent above (createPipelineNode above.join)) i = around parent above i := by
      simp [around, nearestPipeline, hi, hparent, hnew, htemplate]
    rw [untemplatedTree, untemplatedTree, haround]
    congr 1
    simp [StageParentRule.isViolated, hi, hparent, hnew, habove]

/-- **Templates.** A step succeeds and leaves every stage its template if and only if every stage has
one before. -/
theorem FixStep.untemplated_iff {result : Option (List Tree)}
    (h : FixStep parent above cs result) :
    untemplatedList parent above cs = [] ↔
      ∃ ds, result = some ds ∧ untemplatedList parent above ds = [] := by
  induction h with
  | @wrap parent above cs i children k next hget hi hillegal hreturns =>
    simp only [Option.some.injEq, exists_eq_left', untemplatedList_eq_nil]
    rw [forall_mem_set hget]
    rw [untemplatedTree_eq_nil, untemplatedTree_eq_nil, untemplatedList_wrapGroups hi]
  | @nest parent above cs hparent hstage =>
    obtain ⟨t, ht, hts⟩ := List.any_eq_true.mp hstage
    unfold StageParentRule.fixViolation
    split
    next habove =>
      simp only [reduceCtorEq, false_and, exists_false, iff_false]
      rw [untemplatedList_eq_nil]
      intro hall
      have hnot := hall t ht
      cases t with
      | node i children =>
        rw [untemplatedTree_eq_nil] at hnot
        have hi : i.isStageNode = true := hts
        exact hnot.1 ⟨by simp [StageParentRule.isViolated, hi, hparent], habove⟩
    next habove =>
      simp only [Option.some.injEq, exists_eq_left']
      have hstages : ∀ c ∈ cs.filter (fun c => c.label.isStageNode), c.label.isStageNode = true :=
        fun c hc => (List.mem_filter.mp hc).2
      have hperm : (untemplatedList parent above
          (nestStages (.node (createPipelineNode above.join)) cs)).Perm
          (untemplatedList parent above cs) := by
        calc untemplatedList parent above (nestStages (.node (createPipelineNode above.join)) cs)
            = (nestStages (.node (createPipelineNode above.join)) cs).flatMap
                (untemplatedTree parent above) := untemplatedList_eq_flatMap
          _ |>.Perm (untemplatedTree parent above (.node (createPipelineNode above.join)
                (cs.filter fun c => c.label.isStageNode)) ++
              (cs.filter fun c => !c.label.isStageNode).flatMap (untemplatedTree parent above)) :=
              (nestStages_perm _).flatMap_right _
          _ |>.Perm (untemplatedList parent above cs) := by
              rw [untemplatedTree_pipeline hparent habove hstages, untemplatedList_eq_flatMap,
                untemplatedList_eq_flatMap, ← List.flatMap_append]
              exact (List.filter_append_perm _ _).flatMap_right _
      constructor
      · intro hnil
        rw [hnil] at hperm
        exact hperm.eq_nil
      · intro hnil
        rw [hnil] at hperm
        exact hperm.symm.eq_nil
  | @makePrivate parent above cs i children k hget hviolated =>
    simp only [Option.some.injEq, exists_eq_left', untemplatedList_eq_nil]
    rw [forall_mem_set hget]
    rw [untemplatedTree_eq_nil, untemplatedTree_eq_nil, untemplatedList_makePrivate]
  | @inside parent above cs i children result k hget hlegal h ih =>
    have hviolated : StageParentRule.isViolated parent i = false := by
      cases hi : i.isStageNode with
      | false => simp [StageParentRule.isViolated, hi]
      | true => simp [StageParentRule.isViolated, hlegal hi]
    have haround : around parent above i = nearestPipeline parent above := by
      unfold around
      exact if_neg (by simpa [StageParentRule.isViolated] using hviolated)
    have hnode : ∀ children', untemplatedTree parent above (.node i children') = [] ↔
        untemplatedList (some i) (nearestPipeline parent above) children' = [] := by
      intro children'
      rw [untemplatedTree_eq_nil, hviolated, haround]
      simp
    constructor
    · intro hnil
      have hnil' := untemplatedList_eq_nil.mp hnil
      have hchildren := (hnode children).mp (hnil' _ (List.mem_of_getElem? hget))
      obtain ⟨children', rfl, hchildren'⟩ := ih.mp hchildren
      refine ⟨_, rfl, untemplatedList_eq_nil.mpr ?_⟩
      rw [forall_mem_set hget]
      · exact hnil'
      · rw [hnode, hnode, hchildren', hchildren]
    · rintro ⟨ds, hds, hnil⟩
      obtain ⟨children', rfl, rfl⟩ := Option.map_eq_some_iff.mp hds
      rw [untemplatedList_eq_nil] at hnil ⊢
      have hlength : k < cs.length := (List.getElem?_eq_some_iff.mp hget).1
      have hchildren' := (hnode children').mp (hnil _ (List.mem_set hlength _))
      have hchildren := ih.mpr ⟨children', rfl, hchildren'⟩
      rw [← forall_mem_set hget]
      · exact hnil
      · rw [hnode, hnode, hchildren', hchildren]

/-! ## Sizes -/

def size (t : Tree) : Nat := t.preorder.length

/-- The number of nodes. -/
def sizes (cs : List Tree) : Nat := (cs.map size).sum

@[simp] theorem sizes_nil : sizes [] = 0 := rfl

@[simp] theorem sizes_cons : sizes (t :: cs) = size t + sizes cs := by
  rw [sizes, List.map_cons, List.sum_cons, sizes]

@[simp] theorem sizes_append : sizes (cs ++ ds) = sizes cs + sizes ds := by
  simp [sizes]

@[simp] theorem size_node (i : NodeInfo) : size (.node i cs) = sizes cs + 1 := by
  rw [size, Rose.preorder_node, List.length_cons, List.length_flatMap]
  rfl

theorem sizes_perm (h : cs.Perm ds) : sizes cs = sizes ds := (h.map size).sum_nat

/-- Wrapping adds a node if there is something to wrap. -/
theorem sizes_wrapGroups (newStage : Int → NodeInfo) (next : Int) (group : List Tree) :
    sizes group + sizes cs +
        (if group = [] ∧ ¬cs.any (fun c => c.label.isIllegalChild) then 0 else 1) ≤
      sizes (wrapGroups newStage next group cs).1 := by
  have hclose : ∀ (next : Int) (group : List Tree),
      sizes (closeGroup newStage next group).1 = sizes group + if group = [] then 0 else 1 := by
    intro next group
    unfold closeGroup
    split
    next hnil => rw [hnil]; rfl
    next => simp
  induction cs generalizing next group with
  | nil =>
    rw [wrapGroups, hclose]
    simp
  | cons c cs ih =>
    rw [wrapGroups]
    by_cases hc : c.label.isIllegalChild = true
    · have hgroup := ih next (group ++ [c])
      simp only [sizes_append, sizes_cons, sizes_nil, List.append_eq_nil_iff, List.cons_ne_nil,
        and_false, false_and, if_false] at hgroup
      rw [if_neg (by simp [hc]), if_pos hc, sizes_cons]
      omega
    · have hrest := ih (closeGroup newStage next group).2 []
      simp only [sizes_nil, true_and] at hrest
      rw [if_neg hc]
      simp only [sizes_append, sizes_cons, hclose, List.any_cons, hc, Bool.false_or]
      grind

theorem sizes_nestStages (newPipeline : List Tree → Tree) :
    sizes (nestStages newPipeline cs) + sizes (cs.filter fun c => c.label.isStageNode) =
      sizes cs + size (newPipeline (cs.filter fun c => c.label.isStageNode)) := by
  have hperm := sizes_perm (@nestStages_perm cs newPipeline)
  have hsplit := sizes_perm (List.filter_append_perm (fun c : Tree => c.label.isStageNode) cs)
  rw [sizes_cons] at hperm
  rw [sizes_append] at hsplit
  omega

theorem sizes_le_addPrivate : sizes cs ≤ sizes (addPrivate cs) := by
  unfold addPrivate
  split
  · rw [sizes_cons]
    exact Nat.le_add_left _ _
  · exact Nat.le_refl _

theorem sizes_le_settle : sizes cs ≤ sizes (settle parent above cs) := by
  unfold settle
  split
  · have hwrap := @sizes_wrapGroups cs anonymousStage 0 []
    have hprivate := @sizes_le_addPrivate (wrapGroups anonymousStage 0 [] cs).1
    rw [sizes_nil] at hwrap
    omega
  · split
    · have hnest := @sizes_nestStages cs
        fun stages => .node (createPipelineNode above.join) (addPrivate stages)
      have hprivate := @sizes_le_addPrivate (cs.filter fun c => c.label.isStageNode)
      rw [size_node] at hnest
      omega
    · exact Nat.le_refl _

theorem sizes_le_map {f : Tree → Tree} (h : ∀ c ∈ cs, size c ≤ size (f c)) :
    sizes cs ≤ sizes (cs.map f) := by
  induction cs with
  | nil => exact Nat.le_refl _
  | cons c cs ih =>
    rw [List.map_cons, sizes_cons, sizes_cons]
    exact Nat.add_le_add (h c List.mem_cons_self) (ih fun d hd => h d (List.mem_cons_of_mem _ hd))

/-- The legal form has at least the nodes of the tree. -/
theorem size_le_legalTree : size t ≤ size (legalTree parent above t) := by
  induction t using Rose.induction generalizing parent above with
  | step i cs ih =>
    rw [legalTree, size_node, size_node]
    apply Nat.succ_le_succ
    apply Nat.le_trans _ sizes_le_settle
    rw [legalList_eq_map]
    exact sizes_le_map fun c hc => ih c hc

theorem sizes_le_legalForm (tree : List Tree) : sizes tree ≤ sizes (legalForm tree) := by
  apply Nat.le_trans _ sizes_le_settle
  rw [legalList_eq_map]
  exact sizes_le_map fun c _ => size_le_legalTree

theorem sizes_set {k : Nat} {t' : Tree} (hget : cs[k]? = some t) :
    sizes (cs.set k t') + size t = sizes cs + size t' := by
  induction cs generalizing k with
  | nil => cases hget
  | cons c cs ih =>
    cases k with
    | zero =>
      obtain rfl := Option.some.inj hget
      simp only [List.set_cons_zero, sizes_cons]
      omega
    | succ k =>
      have hcs := ih hget
      simp only [List.set_cons_succ, sizes_cons]
      omega

/-- **A step adds a node.** -/
theorem FixStep.sizes_lt {result : Option (List Tree)} (h : FixStep parent above cs result) :
    ∀ ds, result = some ds → sizes cs < sizes ds := by
  induction h with
  | @wrap parent above cs i children k next hget hi hillegal hreturns =>
    rintro ds ⟨⟩
    have hset := @sizes_set _ _ _ (.node i (wrapGroups createStageNode next [] children).1) hget
    have hwrap := @sizes_wrapGroups children createStageNode next []
    rw [sizes_nil, if_neg (by simp [hillegal])] at hwrap
    rw [size_node, size_node] at hset
    omega
  | @nest parent above cs hparent hstage =>
    intro ds hds
    unfold StageParentRule.fixViolation at hds
    split at hds
    next => cases hds
    next =>
      obtain rfl := Option.some.inj hds
      have hnest := @sizes_nestStages cs (.node (createPipelineNode above.join))
      rw [size_node] at hnest
      omega
  | @makePrivate parent above cs i children k hget hviolated =>
    rintro ds ⟨⟩
    have hset := @sizes_set _ _ _ (.node i (PrivateMustExistRule.fixViolation children)) hget
    have hprivate : sizes (PrivateMustExistRule.fixViolation children) = 1 + sizes children := by
      show sizes (.node createPrivateNode [] :: children) = _
      rw [sizes_cons, size_node, sizes_nil]
    rw [size_node, size_node] at hset
    omega
  | @inside parent above cs i children result k hget hlegal h ih =>
    intro ds hds
    obtain ⟨children', rfl, rfl⟩ := Option.map_eq_some_iff.mp hds
    have hset := @sizes_set _ _ _ (.node i children') hget
    have hchildren := ih children' rfl
    rw [size_node, size_node] at hset
    omega

/-! ## Runs -/

theorem collectViolations_isSome (tree : List Tree) :
    (collectViolations tree).isSome = true ↔ ChecksReturn tree := collectList_isSome none 0

theorem checksReturn_of_some {tree : List Tree} {violations : List Violation}
    (h : collectViolations tree = some violations) : ChecksReturn tree :=
  (collectViolations_isSome tree).mp (by rw [h]; rfl)

theorem legalForm_eq_of_step (h : FixStep none none cs (some ds)) : legalForm ds = legalForm cs :=
  h.settle_eq ds rfl

/-- The fix of the first violation of a tree is a step. -/
theorem fixStep_of_collectViolations {tree : List Tree} {next : Int} {v : Violation}
    {vs : List Violation} (h : collectViolations tree = some (v :: vs)) :
    FixStep none none tree ((fixAt v.rule next none none v.path tree).map Prod.fst) := by
  obtain ⟨j, c, v', vs', hget, hc, rfl⟩ := collectList_head h
  show FixStep none none tree ((fixAt v'.rule next none none ((0 + j) :: v'.path) tree).map Prod.fst)
  rw [Nat.zero_add]
  exact fixStep_of_collectTree hget hc

/-- What the rules ask of a node and its children. -/
structure NodeLegal (t : Tree) : Prop where
  pipelineChildren : t.label.isPipelineNode = true →
    ∀ c ∈ t.children, c.label.isStageNode = true ∨ c.label.isPrivateNode = true
  stageParent : t.label.isPipelineNode = false → ∀ c ∈ t.children, c.label.isStageNode = false
  privateMustExist : t.label.isPipelineNode = true →
    (∃ c ∈ t.children, c.label.isStageNode = true ∧ c.label.dependencies ≠ []) →
      ∃ c cs, t.children = c :: cs ∧ c.label.isPrivateNode = true

/-- No rule is violated; the root is no pipeline. -/
structure Legal (tree : List Tree) : Prop where
  root : ∀ c ∈ tree, c.label.isStageNode = false
  nodes : ∀ t ∈ tree.flatMap Rose.subtrees, NodeLegal t

theorem collectList_eq_nil {k : Nat} (h : collectList parent k cs = some []) :
    ∀ c ∈ cs, collectTree parent c = some [] := by
  induction cs generalizing k with
  | nil => simp
  | cons c cs ih =>
    rw [collectList] at h
    cases hc : collectTree parent c with
    | none => simp [hc] at h
    | some here =>
      cases hcs : collectList parent (k + 1) cs with
      | none => simp [hc, hcs] at h
      | some rest =>
        simp only [hc, hcs, Option.bind_eq_bind, Option.bind_some, Option.pure_def,
          Option.some.injEq, List.append_eq_nil_iff, List.map_eq_nil_iff] at h
        obtain ⟨rfl, rfl⟩ := h
        exact List.forall_mem_cons.mpr ⟨hc, ih hcs⟩

theorem collectTree_eq_nil {i : NodeInfo} (h : collectTree parent (.node i cs) = some []) :
    PipelineChildrenRule.isViolated i (cs.map Rose.label) = false ∧
      StageParentRule.isViolated parent i = false ∧
        PrivateMustExistRule.isViolated i (cs.map Rose.label) = some false ∧
          collectList (some i) 0 cs = some [] := by
  rw [collectTree, violatedRules] at h
  cases hnoPrivate : PrivateMustExistRule.isViolated i (cs.map Rose.label) with
  | none => simp [hnoPrivate] at h
  | some noPrivate =>
    cases hbelow : collectList (some i) 0 cs with
    | none => simp [hnoPrivate, hbelow] at h
    | some below =>
      simp only [hnoPrivate, hbelow, Option.map_some, Option.bind_eq_bind, Option.bind_some,
        Option.pure_def, Option.some.injEq, List.append_eq_nil_iff, List.map_eq_nil_iff,
        ite_eq_right_iff, List.cons_ne_nil, imp_false, Bool.not_eq_true] at h
      obtain ⟨⟨⟨hchildren, hparent⟩, rfl⟩, rfl⟩ := h
      exact ⟨hchildren, hparent, rfl, rfl⟩

theorem not_hasDependents_of_scan {children : List NodeInfo}
    (h : PrivateMustExistRule.scan children = some false) :
    ∀ c ∈ children, c.isStageNode = true → c.dependencies = [] := by
  induction children with
  | nil => simp
  | cons c children ih =>
    rw [PrivateMustExistRule.scan] at h
    split at h
    next => cases h
    next =>
      split at h
      next => cases h
      next hdep =>
        exact List.forall_mem_cons.mpr ⟨fun _ => by simpa using hdep, ih h⟩

/-- A node without violations is legal, and so is everything below it. -/
theorem nodeLegal_of_collectTree (h : collectTree parent t = some []) :
    ∀ s ∈ t.subtrees, NodeLegal s := by
  induction t using Rose.induction generalizing parent with
  | step i cs ih =>
    obtain ⟨hchildren, -, hprivate, hbelow⟩ := collectTree_eq_nil h
    have hlist := collectList_eq_nil hbelow
    rw [Rose.subtrees_node]
    intro s hs
    rcases List.mem_cons.mp hs with rfl | hs
    · constructor
      · intro hi c hc
        have hi' : i.isPipelineNode = true := hi
        simp only [PipelineChildrenRule.isViolated, hi', Bool.true_and, List.any_map,
          List.any_eq_false] at hchildren
        have hlegal := hchildren c hc
        simp only [Function.comp_apply, NodeInfo.isIllegalChild, Bool.and_eq_true,
          Bool.not_eq_true'] at hlegal
        by_cases hstage : c.label.isStageNode = true
        · exact Or.inl hstage
        · simp_all
      · intro hi c hc
        have hi' : i.isPipelineNode = false := hi
        cases c with
        | node j children =>
          obtain ⟨-, hparent, -, -⟩ := collectTree_eq_nil (hlist _ hc)
          simpa [StageParentRule.isViolated, hi'] using hparent
      · rintro hi ⟨c, hc, hstage, hdep⟩
        have hi' : i.isPipelineNode = true := hi
        unfold PrivateMustExistRule.isViolated at hprivate
        rw [if_neg (by simp [hi'])] at hprivate
        split at hprivate
        next hfirst =>
          cases cs with
          | nil => cases hc
          | cons c cs => exact ⟨c, cs, rfl, hfirst⟩
        next =>
          exact absurd (not_hasDependents_of_scan hprivate _ (List.mem_map_of_mem hc) hstage) hdep
    · obtain ⟨c, hc, hs⟩ := List.mem_flatMap.mp hs
      exact ih c hc (hlist c hc) s hs

/-- **A tree without violations is legal.** -/
theorem legal_of_collectViolations {tree : List Tree} (h : collectViolations tree = some []) :
    Legal tree := by
  have hlist := collectList_eq_nil h
  constructor
  · intro c hc
    cases c with
    | node i cs =>
      obtain ⟨-, hparent, -, -⟩ := collectTree_eq_nil (hlist _ hc)
      simpa [StageParentRule.isViolated] using hparent
  · intro t ht
    obtain ⟨c, hc, ht⟩ := List.mem_flatMap.mp ht
    exact nodeLegal_of_collectTree (hlist c hc) t ht

theorem untemplatedTree_of_collectTree (h : collectTree parent t = some []) :
    untemplatedTree parent above t = [] := by
  induction t using Rose.induction generalizing parent above with
  | step i cs ih =>
    obtain ⟨-, hparent, -, hbelow⟩ := collectTree_eq_nil h
    have hlist := collectList_eq_nil hbelow
    rw [untemplatedTree_eq_nil, untemplatedList_eq_nil]
    exact ⟨by simp [hparent], fun c hc => ih c hc (hlist c hc)⟩

theorem templated_of_collectViolations {tree : List Tree} (h : collectViolations tree = some []) :
    Templated tree := by
  unfold Templated
  rw [untemplatedList_eq_nil]
  exact fun c hc => untemplatedTree_of_collectTree (collectList_eq_nil h c hc)

/-- **A run that ends.** Its checks return and its assertions hold, and it ends without violations in
a tree with the same legal form. -/
theorem fixAll_done {rounds : Nat} {tree tree' : List Tree} {next : Int} {iterations n : Nat}
    (h : fixAll rounds tree next iterations = .done tree' n) :
    ChecksReturn tree ∧ Templated tree ∧ collectViolations tree' = some [] ∧
      legalForm tree' = legalForm tree := by
  induction rounds generalizing tree next iterations with
  | zero =>
    rw [fixAll] at h
    split at h
    next => cases h
    next hnone =>
      obtain ⟨rfl, -⟩ := Outcome.done.inj h
      exact ⟨checksReturn_of_some hnone, templated_of_collectViolations hnone, hnone, rfl⟩
    next => cases h
  | succ rounds ih =>
    rw [fixAll] at h
    split at h
    next => cases h
    next hnone =>
      obtain ⟨rfl, -⟩ := Outcome.done.inj h
      exact ⟨checksReturn_of_some hnone, templated_of_collectViolations hnone, hnone, rfl⟩
    next v vs hsome =>
      have hstep := @fixStep_of_collectViolations tree next v vs hsome
      split at h
      next => cases h
      next tree₁ next₁ hfix =>
        rw [hfix, Option.map_some] at hstep
        obtain ⟨-, htemplated, hnone, hlegal⟩ := ih h
        exact ⟨checksReturn_of_some hsome, hstep.untemplated_iff.mpr ⟨tree₁, rfl, htemplated⟩, hnone,
          hlegal.trans (legalForm_eq_of_step hstep)⟩

/-- **Termination.** A run whose checks return and whose assertions hold ends: every round adds a
node, and the legal form bounds their number. -/
theorem fixAll_terminates {rounds : Nat} {tree : List Tree} {next : Int} {iterations : Nat}
    (hreturn : ChecksReturn tree) (htemplated : Templated tree)
    (hrounds : sizes (legalForm tree) ≤ sizes tree + rounds) :
    ∃ tree' n, fixAll rounds tree next iterations = .done tree' n := by
  induction rounds generalizing tree next iterations with
  | zero =>
    obtain ⟨violations, hviolations⟩ :=
      Option.isSome_iff_exists.mp ((collectViolations_isSome tree).mpr hreturn)
    cases violations with
    | nil => exact ⟨tree, iterations, by rw [fixAll, hviolations]⟩
    | cons v vs =>
      have hstep := @fixStep_of_collectViolations tree next v vs hviolations
      obtain ⟨ds, hds, -⟩ := hstep.untemplated_iff.mp htemplated
      rw [hds] at hstep
      have hlt := hstep.sizes_lt ds rfl
      have hbound := sizes_le_legalForm ds
      rw [legalForm_eq_of_step hstep] at hbound
      omega
  | succ rounds ih =>
    obtain ⟨violations, hviolations⟩ :=
      Option.isSome_iff_exists.mp ((collectViolations_isSome tree).mpr hreturn)
    cases violations with
    | nil => exact ⟨tree, iterations, by rw [fixAll, hviolations]⟩
    | cons v vs =>
      have hstep := @fixStep_of_collectViolations tree next v vs hviolations
      obtain ⟨ds, hds, htemplated'⟩ := hstep.untemplated_iff.mp htemplated
      rw [hds] at hstep
      obtain ⟨⟨tree₁, next₁⟩, hfix, rfl⟩ := Option.map_eq_some_iff.mp hds
      have hlt := hstep.sizes_lt tree₁ rfl
      obtain ⟨tree', n, hdone⟩ := @ih tree₁ next₁ (iterations + 1)
        (hstep.checksReturn hreturn tree₁ rfl) htemplated' (by
          rw [legalForm_eq_of_step hstep]
          omega)
      refine ⟨tree', n, ?_⟩
      rw [fixAll, hviolations]
      simp only [hfix]
      exact hdone

end PipelineTreeLegalizer
