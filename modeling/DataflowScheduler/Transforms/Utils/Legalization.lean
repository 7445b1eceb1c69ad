import DataflowScheduler.Transforms.Utils.PipelineTreeLegalizer
import Mathlib.Data.List.TakeWhile
import Mathlib.Data.List.Perm.Basic

/-!
# The legalizer reaches the legal form of the tree

The legal form of a tree is defined by recursion over the tree. A fix does not change it, and a tree
without violations is its own legal form. So whatever the order of the fixes, the legalizer ends with
the legal form, and what it keeps is read off there.
-/

namespace PipelineTreeLegalizer

/-! ## Infos -/

/-- An info without its stage id. -/
def forget (i : NodeInfo) : NodeInfo := { i with stageId := 0 }

section Forget

variable (i : NodeInfo)

@[simp] theorem forget_isStageNode : (forget i).isStageNode = i.isStageNode := rfl
@[simp] theorem forget_isPrivateNode : (forget i).isPrivateNode = i.isPrivateNode := rfl
@[simp] theorem forget_isPipelineNode : (forget i).isPipelineNode = i.isPipelineNode := rfl
@[simp] theorem forget_isIllegalChild : (forget i).isIllegalChild = i.isIllegalChild := rfl
@[simp] theorem forget_dependencies : (forget i).dependencies = i.dependencies := rfl
@[simp] theorem forget_name : (forget i).name = i.name := rfl
@[simp] theorem forget_createStageNode (next : Int) :
    forget (createStageNode next) = createStageNode 0 := rfl

theorem not_stage_of_illegal {i : NodeInfo} (h : i.isIllegalChild = true) :
    i.isStageNode = false := by
  simp only [NodeInfo.isIllegalChild, Bool.and_eq_true, Bool.not_eq_true'] at h
  exact h.2

theorem legal_of_stage {i : NodeInfo} (h : i.isStageNode = true) : i.isIllegalChild = false := by
  simp [NodeInfo.isIllegalChild, h]

theorem not_private_of_stage {i : NodeInfo} (h : i.isStageNode = true) :
    i.isPrivateNode = false := by
  simp only [NodeInfo.isStageNode, decide_eq_true_eq] at h
  simp [NodeInfo.isPrivateNode, h]

end Forget

/-! ## The legal form -/

/-- A stage with dependents. -/
def hasDependents (i : NodeInfo) : Bool := i.isStageNode && !i.dependencies.isEmpty

@[simp] theorem hasDependents_forget (i : NodeInfo) : hasDependents (forget i) = hasDependents i :=
  rfl

/-- The children of a pipeline, with the private node they need. -/
def addPrivate (cs : List Tree) : List Tree :=
  if (!cs.head?.any fun c => c.label.isPrivateNode) && cs.any fun c => hasDependents c.label then
    .node createPrivateNode [] :: cs
  else cs

/-- The new stage of the legal form. -/
def anonymousStage (_ : Int) : NodeInfo := createStageNode 0

/-- The children of a node, when their subtrees are in legal form. -/
def settle (parent : Option NodeInfo) (above : Option (Option OpId)) (cs : List Tree) : List Tree :=
  if parent.any NodeInfo.isPipelineNode then addPrivate (wrapGroups anonymousStage 0 [] cs).1
  else if cs.any fun c => c.label.isStageNode then
    nestStages (fun stages => .node (createPipelineNode above.join) (addPrivate stages)) cs
  else cs

/-- The nearest pipeline around the children of a child of `parent`, once the parent's children are
legal: a stage outside a pipeline gets one that is modelled on the nearest pipeline above. -/
def around (parent : Option NodeInfo) (above : Option (Option OpId)) (i : NodeInfo) :
    Option (Option OpId) :=
  if i.isStageNode && !parent.any NodeInfo.isPipelineNode then some above.join
  else nearestPipeline parent above

mutual

/-- The legal form of a tree below `parent`. -/
def legalTree (parent : Option NodeInfo) (above : Option (Option OpId)) : Tree → Tree
  | .node i cs =>
      .node (forget i) (settle (some i) (around parent above i)
        (legalList (some i) (around parent above i) cs))

/-- The legal forms of the children of `parent`, each by itself. -/
def legalList (parent : Option NodeInfo) (above : Option (Option OpId)) : List Tree → List Tree
  | [] => []
  | c :: cs => legalTree parent above c :: legalList parent above cs

end

/-- The legal form of a pipeline tree. -/
def legalForm (tree : List Tree) : List Tree := settle none none (legalList none none tree)

variable {parent : Option NodeInfo} {above : Option (Option OpId)} {cs ds : List Tree} {t : Tree}

theorem legalList_eq_map : legalList parent above cs = cs.map (legalTree parent above) := by
  induction cs with
  | nil => rfl
  | cons c cs ih => rw [legalList, ih, List.map_cons]

@[simp] theorem label_legalTree : (legalTree parent above t).label = forget t.label := by
  cases t with
  | node i cs => rw [legalTree, Rose.label_node, Rose.label_node]

/-- Only what is around the node matters for its legal form. -/
theorem legalTree_congr {parent' : Option NodeInfo} {above' : Option (Option OpId)}
    (h : around parent above t.label = around parent' above' t.label) :
    legalTree parent above t = legalTree parent' above' t := by
  cases t with
  | node i cs =>
    rw [Rose.label_node] at h
    rw [legalTree, legalTree, h]

theorem legalList_congr {parent' : Option NodeInfo} {above' : Option (Option OpId)}
    (h : ∀ c ∈ cs, around parent above c.label = around parent' above' c.label) :
    legalList parent above cs = legalList parent' above' cs := by
  rw [legalList_eq_map, legalList_eq_map]
  exact List.map_congr_left fun c hc => legalTree_congr (h c hc)

/-! ## Groups of illegal children -/

theorem wrapGroups_anonymous (next next' : Int) (group : List Tree) :
    (wrapGroups anonymousStage next group cs).1 = (wrapGroups anonymousStage next' group cs).1 := by
  induction cs generalizing next next' group with
  | nil =>
    unfold wrapGroups closeGroup
    split <;> rfl
  | cons c cs ih =>
    unfold wrapGroups
    split
    next => exact ih next next' _
    next =>
      have hclosed : (closeGroup anonymousStage next group).1 =
          (closeGroup anonymousStage next' group).1 := by
        unfold closeGroup
        split <;> rfl
      simp only [hclosed]
      rw [ih _ (closeGroup anonymousStage next' group).2 []]

/-- The legal form of a new stage around illegal children. -/
theorem legalTree_group {i : NodeInfo} (hi : i.isPipelineNode = true) (next : Int)
    {group : List Tree} (hgroup : ∀ c ∈ group, c.label.isIllegalChild = true) :
    legalTree (some i) above (.node (createStageNode next) group) =
      .node (createStageNode 0) (legalList (some i) above group) := by
  have haround : ∀ c ∈ group, around (some (createStageNode next))
      (around (some i) above (createStageNode next)) c.label = around (some i) above c.label := by
    intro c hc
    have hstage := not_stage_of_illegal (hgroup c hc)
    have hnew : (createStageNode next).isPipelineNode = false := rfl
    simp [around, nearestPipeline, hstage, hi, hnew]
  rw [legalTree, legalList_congr haround, forget_createStageNode]
  congr 1
  have hnone : (legalList (some i) above group).any (fun c => c.label.isStageNode) = false := by
    rw [legalList_eq_map, List.any_map, List.any_eq_false]
    intro c hc
    simp [not_stage_of_illegal (hgroup c hc)]
  have hnew : Option.any NodeInfo.isPipelineNode (some (createStageNode next)) = false := rfl
  simp [settle, hnone, hnew]

/-- Wrapping commutes with the legal form of the children. -/
theorem legalList_wrapGroups {i : NodeInfo} (hi : i.isPipelineNode = true) (next : Int)
    {group : List Tree} (hgroup : ∀ c ∈ group, c.label.isIllegalChild = true) :
    legalList (some i) above (wrapGroups createStageNode next group cs).1 =
      (wrapGroups anonymousStage 0 (legalList (some i) above group)
        (legalList (some i) above cs)).1 := by
  have hclose : ∀ (next : Int) (group : List Tree), (∀ c ∈ group, c.label.isIllegalChild = true) →
      legalList (some i) above (closeGroup createStageNode next group).1 =
        (closeGroup anonymousStage 0 (legalList (some i) above group)).1 := by
    intro next group hgroup
    unfold closeGroup
    cases group with
    | nil => rfl
    | cons c group =>
      rw [if_neg (List.cons_ne_nil _ _), if_neg (by simp [legalList])]
      rw [legalList, legalTree_group hi next hgroup]
      rfl
  induction cs generalizing next group with
  | nil => exact hclose next group hgroup
  | cons c cs ih =>
    rw [wrapGroups, legalList, wrapGroups, label_legalTree, forget_isIllegalChild]
    split
    next hc =>
      have happend : legalList (some i) above group ++ [legalTree (some i) above c] =
          legalList (some i) above (group ++ [c]) := by
        simp [legalList_eq_map]
      rw [happend]
      apply ih
      intro d hd
      rcases List.mem_append.mp hd with hd | hd
      · exact hgroup d hd
      · rw [List.mem_singleton.mp hd]
        exact hc
    next =>
      have happend : ∀ xs ys : List Tree, legalList (some i) above (xs ++ c :: ys) =
          legalList (some i) above xs ++ legalTree (some i) above c ::
            legalList (some i) above ys := by
        intro xs ys
        simp [legalList_eq_map]
      simp only
      rw [happend, hclose next group hgroup, ih _ (by simp)]
      rw [wrapGroups_anonymous (closeGroup anonymousStage 0 (legalList (some i) above group)).2 0]
      rfl

theorem wrapGroups_of_legal (newStage : Int → NodeInfo) (next : Int)
    (h : ∀ c ∈ cs, c.label.isIllegalChild = false) :
    (wrapGroups newStage next [] cs).1 = cs := by
  induction cs generalizing next with
  | nil => rfl
  | cons c cs ih =>
    rw [wrapGroups, if_neg (by simp [h c])]
    simp only [closeGroup, if_true, List.nil_append]
    rw [ih next fun d hd => h d (List.mem_cons_of_mem _ hd)]

/-- After wrapping there is no illegal child. -/
theorem legal_of_mem_wrapGroups {newStage : Int → NodeInfo}
    (hnew : ∀ next, (newStage next).isStageNode = true) (next : Int) (group : List Tree) :
    ∀ c ∈ (wrapGroups newStage next group cs).1, c.label.isIllegalChild = false := by
  have hclose : ∀ (next : Int) (group : List Tree),
      ∀ c ∈ (closeGroup newStage next group).1, c.label.isIllegalChild = false := by
    intro next group c hc
    unfold closeGroup at hc
    split at hc
    · cases hc
    · rw [List.mem_singleton.mp hc]
      exact legal_of_stage (hnew next)
  induction cs generalizing next group with
  | nil => exact hclose next group
  | cons c cs ih =>
    rw [wrapGroups]
    split
    next => exact ih next _
    next hc =>
      intro d hd
      rcases List.mem_append.mp hd with hd | hd
      · exact hclose next group d hd
      · rcases List.mem_cons.mp hd with rfl | hd
        · simpa using hc
        · exact ih _ _ d hd

/-- Wrapping twice is wrapping once. -/
theorem wrapGroups_wrapGroups (next : Int) (group : List Tree) :
    (wrapGroups anonymousStage 0 [] (wrapGroups anonymousStage next group cs).1).1 =
      (wrapGroups anonymousStage next group cs).1 :=
  wrapGroups_of_legal anonymousStage 0 (legal_of_mem_wrapGroups (fun _ => rfl) next group)

/-- A check that returns sees no illegal child first, so all groups are wrapped in their place. -/
theorem fixViolation_eq_wrapGroups {i : NodeInfo} (hi : i.isPipelineNode = true)
    (hreturns : PrivateMustExistRule.isViolated i (cs.map Rose.label) ≠ none) (next : Int) :
    PipelineChildrenRule.fixViolation next cs = wrapGroups createStageNode next [] cs := by
  have hfirst : cs.takeWhile (fun c => c.label.isIllegalChild) = [] := by
    cases cs with
    | nil => rfl
    | cons c cs =>
      rw [List.takeWhile_cons_of_neg]
      intro hc
      have hstage := not_stage_of_illegal hc
      have hprivate : c.label.isPrivateNode = false := by
        simp only [NodeInfo.isIllegalChild, Bool.and_eq_true, Bool.not_eq_true'] at hc
        exact hc.1
      simp [PrivateMustExistRule.isViolated, PrivateMustExistRule.scan, hi, hprivate, hstage]
        at hreturns
  unfold PipelineChildrenRule.fixViolation
  rw [hfirst]
  rfl

/-- **The first fix.** It does not change the legal form. -/
theorem settle_wrapGroups {i : NodeInfo} (hi : i.isPipelineNode = true) (next : Int) :
    settle (some i) above (legalList (some i) above (wrapGroups createStageNode next [] cs).1) =
      settle (some i) above (legalList (some i) above cs) := by
  have hpipeline : Option.any NodeInfo.isPipelineNode (some i) = true := hi
  rw [legalList_wrapGroups hi next (by simp)]
  unfold settle
  rw [if_pos hpipeline, if_pos hpipeline]
  show addPrivate (wrapGroups anonymousStage 0 [] (wrapGroups anonymousStage 0 [] _).1).1 = _
  rw [wrapGroups_wrapGroups]

/-! ## Nested pipelines -/

theorem nestStages_map (f : Tree → Tree) (hf : ∀ c, (f c).label.isStageNode = c.label.isStageNode)
    (newPipeline newPipeline' : List Tree → Tree)
    (hnew : f (newPipeline (cs.filter fun c => c.label.isStageNode)) =
      newPipeline' ((cs.filter fun c => c.label.isStageNode).map f)) :
    (nestStages newPipeline cs).map f = nestStages newPipeline' (cs.map f) := by
  have hfilter : ∀ xs : List Tree, (xs.map f).filter (fun c => !c.label.isStageNode) =
      (xs.filter fun c => !c.label.isStageNode).map f := by
    intro xs
    rw [List.filter_map]
    congr 1
    exact List.filter_congr fun c _ => by simp [hf]
  have hstages : (cs.map f).filter (fun c => c.label.isStageNode) =
      (cs.filter fun c => c.label.isStageNode).map f := by
    rw [List.filter_map]
    congr 1
    exact List.filter_congr fun c _ => by simp [hf]
  have htake : (cs.map f).takeWhile (fun c => !c.label.isStageNode) =
      (cs.takeWhile fun c => !c.label.isStageNode).map f := by
    rw [List.takeWhile_map]
    congr 2
    funext c
    simp [hf]
  have hdrop : (cs.map f).dropWhile (fun c => !c.label.isStageNode) =
      (cs.dropWhile fun c => !c.label.isStageNode).map f := by
    rw [List.dropWhile_map]
    congr 2
    funext c
    simp [hf]
  unfold nestStages
  simp only [hstages, htake, hdrop, hfilter, List.map_eq_nil_iff]
  split
  · rw [List.map_append, List.map_singleton, hnew]
  · rw [List.map_append, List.map_cons, hnew]

theorem addPrivate_of_all_stage (h : ∀ c ∈ cs, c.label.isStageNode = true)
    (i : NodeInfo) (hi : i.isPipelineNode = true) :
    settle (some i) above cs = addPrivate cs := by
  have hpipeline : Option.any NodeInfo.isPipelineNode (some i) = true := hi
  unfold settle
  rw [if_pos hpipeline, wrapGroups_of_legal _ _ fun c hc => legal_of_stage (h c hc)]

/-- The legal form of a new pipeline around stages. -/
theorem legalTree_pipeline (hparent : parent.any NodeInfo.isPipelineNode = false)
    {stages : List Tree} (h : ∀ c ∈ stages, c.label.isStageNode = true) :
    legalTree parent above (.node (createPipelineNode above.join) stages) =
      .node (createPipelineNode above.join) (addPrivate (legalList parent above stages)) := by
  have hnew : (createPipelineNode above.join).isPipelineNode = true := rfl
  have haround : ∀ c ∈ stages, around (some (createPipelineNode above.join))
      (around parent above (createPipelineNode above.join)) c.label =
      around parent above c.label := by
    intro c hc
    have htemplate : (createPipelineNode above.join).operationOrTemplate = above.join := rfl
    simp [around, nearestPipeline, h c hc, hparent, hnew, htemplate]
  rw [legalTree, legalList_congr haround, addPrivate_of_all_stage _ _ hnew]
  · rfl
  · intro c hc
    rw [legalList_eq_map, List.mem_map] at hc
    obtain ⟨d, hd, rfl⟩ := hc
    simpa using h d hd

/-- All stages are in the new pipeline. -/
theorem not_stage_of_mem_nestStages {newPipeline : List Tree → Tree}
    (hnew : ∀ stages, (newPipeline stages).label.isStageNode = false) :
    ∀ c ∈ nestStages newPipeline cs, c.label.isStageNode = false := by
  have htake : ∀ c ∈ cs.takeWhile (fun c => !c.label.isStageNode), c.label.isStageNode = false := by
    intro c hc
    simpa using List.mem_takeWhile_imp hc
  intro c hc
  unfold nestStages at hc
  simp only at hc
  split at hc
  · rcases List.mem_append.mp hc with hc | hc
    · simpa using (List.mem_filter.mp hc).2
    · rw [List.mem_singleton.mp hc]
      exact hnew _
  · rcases List.mem_append.mp hc with hc | hc
    · exact htake c hc
    · rcases List.mem_cons.mp hc with rfl | hc
      · exact hnew _
      · simpa using (List.mem_filter.mp hc).2

/-- **The second fix.** It does not change the legal form. -/
theorem settle_nestStages (hparent : parent.any NodeInfo.isPipelineNode = false)
    (hstage : cs.any (fun c => c.label.isStageNode) = true) :
    settle parent above (legalList parent above
        (nestStages (.node (createPipelineNode above.join)) cs)) =
      settle parent above (legalList parent above cs) := by
  have hnest : legalList parent above (nestStages (.node (createPipelineNode above.join)) cs) =
      nestStages (fun stages => .node (createPipelineNode above.join) (addPrivate stages))
        (legalList parent above cs) := by
    rw [legalList_eq_map, legalList_eq_map]
    apply nestStages_map _ (by simp)
    rw [← legalList_eq_map]
    apply legalTree_pipeline hparent
    intro c hc
    exact (List.mem_filter.mp hc).2
  have hany : (legalList parent above cs).any (fun c => c.label.isStageNode) = true := by
    rw [legalList_eq_map, List.any_map]
    simpa [Function.comp_def] using hstage
  have hnone : (nestStages (fun stages => .node (createPipelineNode above.join)
      (addPrivate stages)) (legalList parent above cs)).any (fun c => c.label.isStageNode) =
      false := by
    rw [List.any_eq_false]
    intro c hc
    rw [Bool.not_eq_true]
    exact not_stage_of_mem_nestStages (fun _ => rfl) c hc
  rw [hnest]
  unfold settle
  rw [if_neg (by simp [hparent]), if_neg (by simp [hnone]), if_neg (by simp [hparent]), if_pos hany]

/-! ## Private nodes -/

/-- The check for a private node returns at a pipeline without children, with a private node first, or
with only stages up to the first stage with dependents. -/
def checkReturns (i : NodeInfo) (children : List NodeInfo) : Bool :=
  !i.isPipelineNode || children.head?.any NodeInfo.isPrivateNode ||
    (children.dropWhile fun c => c.isStageNode && c.dependencies.isEmpty).head?.all hasDependents

theorem scan_isSome (children : List NodeInfo) :
    (PrivateMustExistRule.scan children).isSome =
      (children.dropWhile fun c => c.isStageNode && c.dependencies.isEmpty).head?.all
        hasDependents := by
  induction children with
  | nil => rfl
  | cons c children ih =>
    rw [PrivateMustExistRule.scan]
    cases hstage : c.isStageNode with
    | false => simp [hstage, hasDependents]
    | true =>
      cases hdep : c.dependencies.isEmpty with
      | false => simp [hstage, hdep, hasDependents]
      | true => simpa [hstage, hdep] using ih

theorem isViolated_isSome (i : NodeInfo) (children : List NodeInfo) :
    (PrivateMustExistRule.isViolated i children).isSome = checkReturns i children := by
  unfold PrivateMustExistRule.isViolated checkReturns
  cases hi : i.isPipelineNode with
  | false => simp
  | true =>
    cases hfirst : children.head?.any NodeInfo.isPrivateNode with
    | true => simp
    | false => simp [scan_isSome]

/-- Wrapping does not change what the search finds. -/
theorem scan_wrapGroups (next : Int)
    (hreturns : (PrivateMustExistRule.scan (cs.map Rose.label)).isSome = true) :
    PrivateMustExistRule.scan ((wrapGroups createStageNode next [] cs).1.map Rose.label) =
      PrivateMustExistRule.scan (cs.map Rose.label) := by
  induction cs with
  | nil => rfl
  | cons c cs ih =>
    rw [List.map_cons, PrivateMustExistRule.scan] at hreturns
    cases hstage : c.label.isStageNode with
    | false => simp [hstage] at hreturns
    | true =>
      rw [wrapGroups, if_neg (by simp [legal_of_stage hstage])]
      simp only [closeGroup, if_true, List.nil_append]
      rw [List.map_cons, List.map_cons, PrivateMustExistRule.scan, PrivateMustExistRule.scan]
      cases hdep : c.label.dependencies.isEmpty with
      | false => simp [hstage]
      | true =>
        simp only [hstage, hdep, Bool.not_true, Bool.false_eq_true, if_false] at hreturns ⊢
        exact ih hreturns

theorem scan_true {children : List NodeInfo} (h : PrivateMustExistRule.scan children = some true) :
    children.head?.any NodeInfo.isStageNode = true ∧ ∃ c ∈ children, hasDependents c = true := by
  induction children with
  | nil => cases h
  | cons c children ih =>
    rw [PrivateMustExistRule.scan] at h
    cases hstage : c.isStageNode with
    | false => simp [hstage] at h
    | true =>
      refine ⟨hstage, ?_⟩
      cases hdep : c.dependencies.isEmpty with
      | false => exact ⟨c, List.mem_cons_self, by simp [hasDependents, hstage, hdep]⟩
      | true =>
        simp only [hstage, hdep, Bool.not_true, Bool.false_eq_true, if_false] at h
        obtain ⟨d, hd, hdependents⟩ := (ih h).2
        exact ⟨d, List.mem_cons_of_mem _ hd, hdependents⟩

/-- What a violation says: the first child is a stage, and some stage has dependents. -/
theorem isViolated_true {i : NodeInfo} {children : List NodeInfo}
    (h : PrivateMustExistRule.isViolated i children = some true) :
    i.isPipelineNode = true ∧ children.head?.any NodeInfo.isStageNode = true ∧
      ∃ c ∈ children, hasDependents c = true := by
  unfold PrivateMustExistRule.isViolated at h
  split at h
  next => cases h
  next hi =>
    split at h
    next => cases h
    next => exact ⟨by simpa using hi, scan_true h⟩

/-- A legal child stays a child. -/
theorem mem_wrapGroups (newStage : Int → NodeInfo) {c : Tree} (hc : c ∈ cs)
    (hlegal : c.label.isIllegalChild = false) (next : Int) (group : List Tree) :
    c ∈ (wrapGroups newStage next group cs).1 := by
  induction cs generalizing next group with
  | nil => cases hc
  | cons d cs ih =>
    rw [wrapGroups]
    rcases List.mem_cons.mp hc with rfl | hc
    · rw [if_neg (by simp [hlegal])]
      simp
    · split
      next => exact ih hc _ _
      next =>
        simp only [List.mem_append, List.mem_cons]
        exact Or.inr (Or.inr (ih hc _ _))

/-- **The third fix.** It does not change the legal form. -/
theorem settle_addPrivate {i : NodeInfo}
    (hviolated : PrivateMustExistRule.isViolated i (cs.map Rose.label) = some true) :
    settle (some i) above
        (legalList (some i) above (PrivateMustExistRule.fixViolation cs)) =
      settle (some i) above (legalList (some i) above cs) := by
  obtain ⟨hi, hfirst, e, he, hdependents⟩ := isViolated_true hviolated
  have hpipeline : Option.any NodeInfo.isPipelineNode (some i) = true := hi
  cases cs with
  | nil => cases hfirst
  | cons c cs =>
    have hstage : c.label.isStageNode = true := hfirst
    obtain ⟨d, hd, rfl⟩ := List.mem_map.mp he
    have hd' : legalTree (some i) above d ∈ legalList (some i) above (c :: cs) := by
      rw [legalList_eq_map]
      exact List.mem_map_of_mem hd
    have hlegal : (legalTree (some i) above d).label.isIllegalChild = false := by
      rw [label_legalTree, forget_isIllegalChild]
      simp only [hasDependents, Bool.and_eq_true] at hdependents
      exact legal_of_stage hdependents.1
    have hmem := mem_wrapGroups anonymousStage hd' hlegal 0 []
    have hnew : legalTree (some i) above (.node createPrivateNode []) =
        .node createPrivateNode [] := rfl
    have hhead : ((wrapGroups anonymousStage 0 [] (legalList (some i) above (c :: cs))).1.head?.any
        fun c => c.label.isPrivateNode) = false := by
      rw [legalList, wrapGroups, if_neg (by simp [legal_of_stage hstage])]
      have hkind := not_private_of_stage hstage
      simp [closeGroup, hkind]
    have hany : ((wrapGroups anonymousStage 0 [] (legalList (some i) above (c :: cs))).1.any
        fun c => hasDependents c.label) = true := by
      rw [List.any_eq_true]
      exact ⟨_, hmem, by simpa using hdependents⟩
    unfold settle
    rw [if_pos hpipeline, if_pos hpipeline]
    show addPrivate (wrapGroups anonymousStage 0 []
      (legalTree (some i) above (.node createPrivateNode []) ::
        legalList (some i) above (c :: cs))).1 = _
    rw [hnew, wrapGroups, if_neg (by decide)]
    show addPrivate (.node createPrivateNode [] ::
      (wrapGroups anonymousStage 0 [] (legalList (some i) above (c :: cs))).1) = _
    unfold addPrivate
    have hprivate : createPrivateNode.isPrivateNode = true := rfl
    rw [if_neg (by simp [hprivate]), if_pos (by simp [hhead, hany])]

end PipelineTreeLegalizer
