import DataflowScheduler.Transforms.Utils.LegalizationRuns

/-!
# What the legalizer keeps

The legal form of a tree has the nodes of the tree with the same ancestors. It has them in the same
order when the stages below a node that is no pipeline are next to each other and do not come first
among other children.
-/

namespace PipelineTreeLegalizer

variable {parent : Option NodeInfo} {above : Option (Option OpId)} {cs ds : List Tree} {t : Tree}

/-! ## Names, ancestors and siblings -/

/-- The names in pre-order. -/
def names (tree : List Tree) : List NodeId := (tree.flatMap Rose.preorder).filterMap NodeInfo.name

/-- The node `a` is above the node `b`. -/
def IsAncestor (tree : List Tree) (a b : NodeId) : Prop :=
  ∃ t ∈ tree.flatMap Rose.subtrees, t.label.name = some a ∧ b ∈ names t.children

/-- The children of the root and of all nodes. -/
def siblingLists (tree : List Tree) : List (List Tree) :=
  tree :: (tree.flatMap Rose.subtrees).map Rose.children

/-- The nodes `a` and `b` are siblings, `a` before `b`. -/
def OrderedSiblings (tree : List Tree) (a b : NodeId) : Prop :=
  ∃ cs ∈ siblingLists tree, [some a, some b].Sublist (cs.map fun c => c.label.name)

/-- A pipeline tree that is handed to the legalizer. Its nodes have different names. -/
structure PipelineTree where
  children : List Tree
  named : ∀ i ∈ children.flatMap Rose.preorder, i.name.isSome = true
  nodup : (names children).Nodup

/-- The tree is legal, and the nodes are still there, with the same ancestors and in the same order. -/
structure Legalized (tree tree' : List Tree) : Prop where
  legal : Legal tree'
  kept : ∀ a ∈ names tree, a ∈ names tree'
  ancestors : ∀ a b, IsAncestor tree' a b ↔ IsAncestor tree a b
  ordered : ∀ a b, OrderedSiblings tree a b → [a, b].Sublist (names tree')

/-- The stages among some children are next to each other, and no other child is behind them when
they come first. `stages` says which children are stages. -/
def nextToEachOther (stages : List Bool) : Bool :=
  let before := stages.takeWhile fun s => !s
  let behind := (stages.dropWhile fun s => !s).dropWhile fun s => s
  (behind.all fun s => !s) && (!before.isEmpty || behind.isEmpty)

/-- Which children are stages. -/
def stageFlags (cs : List Tree) : List Bool := cs.map fun c => c.label.isStageNode

/-- So it is below the root and below every node that is no pipeline. -/
def StagesTogether (tree : List Tree) : Prop :=
  nextToEachOther (stageFlags tree) = true ∧ ∀ t ∈ tree.flatMap Rose.subtrees,
    t.label.isPipelineNode = false → nextToEachOther (stageFlags t.children) = true

/-! ## What is read off the nodes -/

/-- A node that the legalizer creates. -/
def IsCreated (i : NodeInfo) : Prop := i.name = none ∧ i.dependencies = []

section Attributes

variable {α : Type} (g : Tree → List α)

theorem flatMap_addPrivate (hg : ∀ i cs, IsCreated i → g (.node i cs) = cs.flatMap g) :
    (addPrivate cs).flatMap g = cs.flatMap g := by
  unfold addPrivate
  split
  · rw [List.flatMap_cons, hg _ _ ⟨rfl, rfl⟩]
    rfl
  · rfl

/-- What created nodes add nothing to is the same for the settled children, up to order. -/
theorem flatMap_settle_perm (hg : ∀ i cs, IsCreated i → g (.node i cs) = cs.flatMap g) :
    ((settle parent above cs).flatMap g).Perm (cs.flatMap g) := by
  unfold settle
  split
  · rw [flatMap_addPrivate g hg, flatMap_wrapGroups g anonymousStage (fun _ _ _ => hg _ _ ⟨rfl, rfl⟩) 0
      (by simp)]
    exact List.Perm.refl _
  · split
    · apply ((nestStages_perm _).flatMap_right g).trans
      rw [List.flatMap_cons, hg _ _ ⟨rfl, rfl⟩, flatMap_addPrivate g hg, ← List.flatMap_append]
      exact (List.filter_append_perm _ _).flatMap_right g
    · exact List.Perm.refl _

/-- The children before the first stage. -/
def beforeStages (cs : List Tree) : List Tree := cs.takeWhile fun c => !c.label.isStageNode

/-- The children from the first stage on. -/
def fromStages (cs : List Tree) : List Tree := cs.dropWhile fun c => !c.label.isStageNode

/-- The first stages next to each other. -/
def firstStages (cs : List Tree) : List Tree := (fromStages cs).takeWhile fun c => c.label.isStageNode

/-- The children behind the first stages. -/
def behindStages (cs : List Tree) : List Tree :=
  (fromStages cs).dropWhile fun c => c.label.isStageNode

theorem nextToEachOther_stageFlags :
    nextToEachOther (stageFlags cs) =
      ((behindStages cs).all (fun c => !c.label.isStageNode) &&
        (!(beforeStages cs).isEmpty || (behindStages cs).isEmpty)) := by
  unfold nextToEachOther stageFlags behindStages beforeStages fromStages
  simp only [List.takeWhile_map, List.dropWhile_map, List.all_map, Function.comp_def,
    List.isEmpty_map]

theorem not_stage_of_mem_beforeStages : ∀ c ∈ beforeStages cs, c.label.isStageNode = false := by
  intro c hc
  simpa using List.mem_takeWhile_imp hc

theorem before_append_from : beforeStages cs ++ fromStages cs = cs :=
  List.takeWhile_append_dropWhile

/-- Where the stages are next to each other, nesting them keeps the order. -/
theorem flatMap_nestStages (h : nextToEachOther (stageFlags cs) = true)
    (newPipeline : List Tree → Tree) (hnew : ∀ stages, g (newPipeline stages) = stages.flatMap g) :
    (nestStages newPipeline cs).flatMap g = cs.flatMap g := by
  rw [nextToEachOther_stageFlags] at h
  simp only [Bool.and_eq_true, List.all_eq_true, Bool.not_eq_true', Bool.or_eq_true,
    List.isEmpty_iff] at h
  obtain ⟨hbehind, hfirst⟩ := h
  have hfrom : firstStages cs ++ behindStages cs = fromStages cs := List.takeWhile_append_dropWhile
  have hsplit : cs = beforeStages cs ++ (firstStages cs ++ behindStages cs) := by
    rw [hfrom, before_append_from]
  have hstages : ∀ c ∈ firstStages cs, c.label.isStageNode = true := by
    intro c hc
    simpa using List.mem_takeWhile_imp hc
  have hfilter : cs.filter (fun c => c.label.isStageNode) = firstStages cs := by
    conv_lhs => rw [hsplit]
    rw [List.filter_append, List.filter_append, List.filter_eq_self.mpr hstages,
      List.filter_eq_nil_iff.mpr fun c hc => by simp [not_stage_of_mem_beforeStages c hc],
      List.filter_eq_nil_iff.mpr fun c hc => by simp [hbehind c hc]]
    simp
  have hrest : (fromStages cs).filter (fun c => !c.label.isStageNode) = behindStages cs := by
    rw [← hfrom, List.filter_append, List.filter_eq_nil_iff.mpr fun c hc => by simp [hstages c hc],
      List.filter_eq_self.mpr fun c hc => by simp [hbehind c hc], List.nil_append]
  have hnest : nestStages newPipeline cs = if beforeStages cs = [] then
      behindStages cs ++ [newPipeline (firstStages cs)]
      else beforeStages cs ++ newPipeline (firstStages cs) :: behindStages cs := by
    rw [← hfilter, ← hrest]
    rfl
  rw [hnest]
  conv_rhs => rw [hsplit]
  split
  next hbefore =>
    rcases hfirst with hfirst | hfirst
    · simp [hbefore] at hfirst
    · simp [hbefore, hfirst, hnew]
  next => simp [hnew]

/-- With the stages next to each other, settling keeps the order. -/
theorem flatMap_settle (hg : ∀ i cs, IsCreated i → g (.node i cs) = cs.flatMap g)
    (h : parent.any NodeInfo.isPipelineNode = false → nextToEachOther (stageFlags cs) = true) :
    (settle parent above cs).flatMap g = cs.flatMap g := by
  unfold settle
  split
  · rw [flatMap_addPrivate g hg, flatMap_wrapGroups g anonymousStage (fun _ _ _ => hg _ _ ⟨rfl, rfl⟩) 0
      (by simp)]
    rfl
  next hparent =>
    split
    · apply flatMap_nestStages g (h (by simpa using hparent))
      intro stages
      rw [hg _ _ ⟨rfl, rfl⟩, flatMap_addPrivate g hg]
    · rfl

end Attributes

/-! ## Attributes of the nodes -/

section Attribute

variable {α : Type}

/-- What is read off the nodes in pre-order. -/
def attributes (f : NodeInfo → Option α) (tree : List Tree) : List α :=
  (tree.flatMap Rose.preorder).filterMap f

variable (f : NodeInfo → Option α)

theorem attributes_eq_flatMap : attributes f cs = cs.flatMap fun c => attributes f [c] := by
  unfold attributes
  rw [List.filterMap_flatMap]
  simp

theorem attributes_node (i : NodeInfo) :
    attributes f [.node i cs] = (f i).toList ++ attributes f cs := by
  unfold attributes
  rw [List.flatMap_singleton, Rose.preorder_node, List.filterMap_cons]
  cases f i <;> rfl

theorem attributes_append : attributes f (cs ++ ds) = attributes f cs ++ attributes f ds := by
  unfold attributes
  rw [List.flatMap_append, List.filterMap_append]

/-- An attribute that created nodes do not have. -/
def ForCreated (f : NodeInfo → Option α) : Prop := ∀ i, IsCreated i → f i = none

variable {f}

theorem ForCreated.attributes (hf : ForCreated f) (i : NodeInfo) (cs : List Tree) (hi : IsCreated i) :
    attributes f [.node i cs] = cs.flatMap fun c => attributes f [c] := by
  rw [attributes_node, hf i hi, ← attributes_eq_flatMap]
  rfl

theorem ForCreated.settle_perm (hf : ForCreated f) :
    (PipelineTreeLegalizer.attributes f (settle parent above cs)).Perm
      (PipelineTreeLegalizer.attributes f cs) := by
  rw [attributes_eq_flatMap, @attributes_eq_flatMap cs _ f]
  exact flatMap_settle_perm _ hf.attributes

theorem ForCreated.legalTree_perm (hf : ForCreated f) (hforget : ∀ i, f (forget i) = f i) :
    (PipelineTreeLegalizer.attributes f [legalTree parent above t]).Perm
      (PipelineTreeLegalizer.attributes f [t]) := by
  induction t using Rose.induction generalizing parent above with
  | step i cs ih =>
    rw [legalTree, attributes_node, attributes_node, hforget]
    apply List.Perm.append_left
    apply hf.settle_perm.trans
    rw [legalList_eq_map, attributes_eq_flatMap, @attributes_eq_flatMap cs _ f, List.flatMap_map]
    exact List.Perm.flatMap_left cs fun c hc => ih c hc

/-- **The legal form has the nodes of the tree**, with their attributes. -/
theorem ForCreated.legalForm_perm (hf : ForCreated f) (hforget : ∀ i, f (forget i) = f i)
    (tree : List Tree) : (PipelineTreeLegalizer.attributes f (legalForm tree)).Perm
      (PipelineTreeLegalizer.attributes f tree) := by
  apply hf.settle_perm.trans
  rw [legalList_eq_map, attributes_eq_flatMap, @attributes_eq_flatMap tree _ f,
    List.flatMap_map]
  exact List.Perm.flatMap_left tree fun _ _ => hf.legalTree_perm hforget

end Attribute

/-! ## The names of the legal form -/

theorem forCreated_name : ForCreated NodeInfo.name := fun _ hi => hi.1

theorem names_eq_flatMap : names cs = cs.flatMap fun c => names [c] := attributes_eq_flatMap _

theorem names_node (i : NodeInfo) : names [.node i cs] = i.name.toList ++ names cs :=
  attributes_node _ i

theorem names_anonymous (i : NodeInfo) (cs : List Tree) (hi : IsCreated i) :
    names [.node i cs] = cs.flatMap fun c => names [c] := forCreated_name.attributes i cs hi

theorem names_settle_perm : (names (settle parent above cs)).Perm (names cs) :=
  forCreated_name.settle_perm

theorem names_settle
    (h : parent.any NodeInfo.isPipelineNode = false → nextToEachOther (stageFlags cs) = true) :
    names (settle parent above cs) = names cs := by
  rw [names_eq_flatMap, @names_eq_flatMap cs]
  exact flatMap_settle _ names_anonymous h

theorem names_legalTree_perm : (names [legalTree parent above t]).Perm (names [t]) :=
  forCreated_name.legalTree_perm forget_name

theorem names_legalForm_perm (tree : List Tree) : (names (legalForm tree)).Perm (names tree) :=
  forCreated_name.legalForm_perm forget_name tree

theorem stageFlags_legalList : stageFlags (legalList parent above cs) = stageFlags cs := by
  unfold stageFlags
  rw [legalList_eq_map, List.map_map]
  apply List.map_congr_left
  intro c _
  simp

theorem names_legalTree (h : ∀ s ∈ t.subtrees, s.label.isPipelineNode = false →
    nextToEachOther (stageFlags s.children) = true) :
    names [legalTree parent above t] = names [t] := by
  induction t using Rose.induction generalizing parent above with
  | step i cs ih =>
    rw [Rose.subtrees_node, List.forall_mem_cons] at h
    rw [legalTree, names_node, names_node, forget_name, names_settle]
    · congr 1
      rw [legalList_eq_map, names_eq_flatMap, @names_eq_flatMap cs, List.flatMap_map]
      apply List.flatMap_congr
      intro c hc
      exact ih c hc fun s hs => h.2 s (List.mem_flatMap.mpr ⟨c, hc, hs⟩)
    · rw [stageFlags_legalList]
      exact h.1

/-- **The legal form has the order of the tree** where the stages are next to each other. -/
theorem names_legalForm {tree : List Tree} (h : StagesTogether tree) :
    names (legalForm tree) = names tree := by
  unfold legalForm
  rw [names_settle]
  · rw [legalList_eq_map, names_eq_flatMap, @names_eq_flatMap tree, List.flatMap_map]
    apply List.flatMap_congr
    intro c hc
    exact names_legalTree fun s hs => h.2 s (List.mem_flatMap.mpr ⟨c, hc, hs⟩)
  · rw [stageFlags_legalList]
    exact fun _ => h.1

/-! ## Ancestors -/

/-- The pairs of a node and one below it. -/
def ancestorPairs (t : Tree) : List (NodeId × NodeId) :=
  t.subtrees.flatMap fun s => s.label.name.toList.flatMap fun a => (names s.children).map (a, ·)

theorem isAncestor_iff {tree : List Tree} {a b : NodeId} :
    IsAncestor tree a b ↔ (a, b) ∈ tree.flatMap ancestorPairs := by
  unfold IsAncestor ancestorPairs
  simp only [← List.flatMap_assoc, List.mem_flatMap, List.mem_map, Option.mem_toList,
    Prod.mk.injEq]
  constructor
  · rintro ⟨s, hs, ha, hb⟩
    exact ⟨s, hs, a, ha, b, hb, rfl, rfl⟩
  · rintro ⟨s, hs, _, ha, _, hb, rfl, rfl⟩
    exact ⟨s, hs, ha, hb⟩

theorem ancestorPairs_node (i : NodeInfo) :
    ancestorPairs (.node i cs) =
      (i.name.toList.flatMap fun a => (names cs).map (a, ·)) ++ cs.flatMap ancestorPairs := by
  unfold ancestorPairs
  rw [Rose.subtrees_node, List.flatMap_cons, List.flatMap_assoc]
  rfl

theorem ancestorPairs_anonymous (i : NodeInfo) (cs : List Tree) (hi : IsCreated i) :
    ancestorPairs (.node i cs) = cs.flatMap ancestorPairs := by
  rw [ancestorPairs_node, hi.1]
  rfl

theorem ancestorPairs_legalTree_perm :
    (ancestorPairs (legalTree parent above t)).Perm (ancestorPairs t) := by
  induction t using Rose.induction generalizing parent above with
  | step i cs ih =>
    have hchild : ∀ (parent : Option NodeInfo) (above : Option (Option OpId)),
        (names (legalList parent above cs)).Perm (names cs) := by
      intro parent above
      rw [legalList_eq_map, names_eq_flatMap, @names_eq_flatMap cs, List.flatMap_map]
      exact List.Perm.flatMap_left cs fun _ _ => names_legalTree_perm
    rw [legalTree, ancestorPairs_node, ancestorPairs_node, forget_name]
    apply List.Perm.append
    · apply List.Perm.flatMap_left
      intro a _
      exact (names_settle_perm.trans (hchild _ _)).map _
    · apply (flatMap_settle_perm ancestorPairs ancestorPairs_anonymous).trans
      rw [legalList_eq_map, List.flatMap_map]
      exact List.Perm.flatMap_left cs fun c hc => ih c hc

/-- **The legal form has the ancestors of the tree.** -/
theorem isAncestor_legalForm {tree : List Tree} {a b : NodeId} :
    IsAncestor (legalForm tree) a b ↔ IsAncestor tree a b := by
  have hperm : ((legalForm tree).flatMap ancestorPairs).Perm (tree.flatMap ancestorPairs) := by
    apply (flatMap_settle_perm ancestorPairs ancestorPairs_anonymous).trans
    rw [legalList_eq_map, List.flatMap_map]
    exact List.Perm.flatMap_left tree fun _ _ => ancestorPairs_legalTree_perm
  rw [isAncestor_iff, isAncestor_iff, hperm.mem_iff]

/-! ## Order -/

theorem names_append : names (cs ++ ds) = names cs ++ names ds := attributes_append _

theorem names_cons : names (t :: cs) = names [t] ++ names cs := @names_append [t] cs

theorem mem_names_of_label {a : NodeId} (ht : t ∈ cs) (ha : t.label.name = some a) :
    a ∈ names cs := by
  rw [names_eq_flatMap, List.mem_flatMap]
  refine ⟨t, ht, ?_⟩
  cases t with
  | node i children =>
    rw [names_node]
    exact List.mem_append_left _ (by simpa using ha)

theorem names_sublist_of_mem (ht : t ∈ cs) : (names [t]).Sublist (names cs) := by
  obtain ⟨xs, ys, rfl⟩ := List.append_of_mem ht
  rw [names_append, @names_cons ys t]
  exact (List.sublist_append_left _ _).trans (List.sublist_append_right _ _)

theorem names_children_sublist : (names t.children).Sublist (names [t]) := by
  cases t with
  | node i children =>
    rw [names_node]
    exact List.sublist_append_right _ _

theorem names_sublist_of_subtree {s : Tree} (hs : s ∈ t.subtrees) :
    (names [s]).Sublist (names [t]) := by
  induction t using Rose.induction with
  | step i cs ih =>
    rw [Rose.subtrees_node] at hs
    rcases List.mem_cons.mp hs with rfl | hs
    · exact List.Sublist.refl _
    · obtain ⟨c, hc, hs⟩ := List.mem_flatMap.mp hs
      exact (ih c hc hs).trans ((names_sublist_of_mem hc).trans
        (names_children_sublist (t := .node i cs)))

theorem label_names_sublist : (cs.filterMap fun c => c.label.name).Sublist (names cs) := by
  induction cs with
  | nil => exact List.nil_sublist _
  | cons c cs ih =>
    rw [names_cons]
    cases c with
    | node i children =>
      rw [names_node, List.filterMap_cons, Rose.label_node]
      cases i.name with
      | none => exact ih.trans (List.sublist_append_right _ _)
      | some a => exact List.Sublist.cons_cons a (ih.trans (List.sublist_append_right _ _))

/-- Siblings are in the order of the pre-order. -/
theorem sublist_of_orderedSiblings {tree : List Tree} {a b : NodeId}
    (h : OrderedSiblings tree a b) : [a, b].Sublist (names tree) := by
  obtain ⟨cs, hcs, hab⟩ := h
  have hsub : [a, b].Sublist (names cs) := by
    apply List.Sublist.trans _ label_names_sublist
    simpa [List.filterMap_map, Function.comp_def] using hab.filterMap id
  rcases List.mem_cons.mp hcs with rfl | hcs
  · exact hsub
  · obtain ⟨t, ht, rfl⟩ := List.mem_map.mp hcs
    obtain ⟨c, hc, ht⟩ := List.mem_flatMap.mp ht
    exact hsub.trans (names_children_sublist.trans
      ((names_sublist_of_subtree ht).trans (names_sublist_of_mem hc)))

/-- Two entries of a list without repetitions have one order. -/
theorem not_both_orders {α : Type} {l : List α} {a b : α} (hl : l.Nodup) (hab : [a, b].Sublist l)
    (hba : [b, a].Sublist l) : False := by
  induction l with
  | nil => cases hab
  | cons x l ih =>
    rw [List.nodup_cons] at hl
    cases hab with
    | cons _ hab =>
      cases hba with
      | cons _ hba => exact ih hl.2 hab hba
      | cons_cons _ ha => exact hl.1 (hab.subset (by simp))
    | cons_cons _ hb =>
      cases hba with
      | cons _ hba => exact hl.1 (hba.subset (by simp))
      | cons_cons _ ha => exact hl.1 (List.singleton_sublist.mp hb)

theorem exists_behindStages (h : behindStages cs ≠ []) :
    ∃ d rest, behindStages cs = d :: rest ∧ d.label.isStageNode = false := by
  cases hbehind : behindStages cs with
  | nil => exact absurd hbehind h
  | cons d rest =>
    refine ⟨d, rest, rfl, ?_⟩
    have hhead := List.head?_dropWhile_not (fun c : Tree => c.label.isStageNode) (fromStages cs)
    unfold behindStages at hbehind
    rw [hbehind] at hhead
    simpa using hhead

theorem exists_firstStages (h : behindStages cs ≠ []) :
    ∃ c rest, firstStages cs = c :: rest ∧ c.label.isStageNode = true := by
  have hhead := List.head?_dropWhile_not (fun c : Tree => !c.label.isStageNode) cs
  cases hfrom : fromStages cs with
  | nil => simp [behindStages, hfrom] at h
  | cons c cs' =>
    have hstage : c.label.isStageNode = true := by
      unfold fromStages at hfrom
      rw [hfrom] at hhead
      simpa using hhead
    refine ⟨c, cs'.takeWhile fun c => c.label.isStageNode, ?_, hstage⟩
    unfold firstStages
    rw [hfrom, List.takeWhile_cons, if_pos hstage]

/-- Settling reverses two siblings if the stages are not next to each other, or if they come first
among other children. -/
theorem exists_reversed (hparent : parent.any NodeInfo.isPipelineNode = false)
    (h : nextToEachOther (stageFlags cs) = false) :
    ∃ c d, [c, d].Sublist cs ∧ ∀ a b, c.label.name = some a → d.label.name = some b →
      [b, a].Sublist (names (settle parent above cs)) := by
  let newPipeline : List Tree → Tree :=
    fun stages => .node (createPipelineNode above.join) (addPrivate stages)
  rw [nextToEachOther_stageFlags] at h
  have hbehind : behindStages cs ≠ [] := by
    intro hnil
    simp [hnil] at h
  have hfrom : firstStages cs ++ behindStages cs = fromStages cs := List.takeWhile_append_dropWhile
  have hsplit : cs = beforeStages cs ++ (firstStages cs ++ behindStages cs) := by
    rw [hfrom, before_append_from]
  obtain ⟨d, rest, hd, hdstage⟩ := exists_behindStages hbehind
  obtain ⟨c, cs', hc, hcstage⟩ := exists_firstStages hbehind
  have hany : cs.any (fun c => c.label.isStageNode) = true := by
    rw [List.any_eq_true]
    refine ⟨c, ?_, hcstage⟩
    rw [hsplit, hc]
    simp
  have hnames : ∀ x ∈ cs, x.label.isStageNode = true → ∀ a, x.label.name = some a →
      a ∈ names [newPipeline (cs.filter fun c => c.label.isStageNode)] := by
    intro x hx hstage a ha
    rw [names_anonymous _ _ ⟨rfl, rfl⟩, flatMap_addPrivate _ names_anonymous, ← names_eq_flatMap]
    exact mem_names_of_label (List.mem_filter.mpr ⟨hx, hstage⟩) ha
  have hsettle : settle parent above cs = nestStages newPipeline cs := by
    unfold settle
    rw [if_neg (by simp [hparent]), if_pos hany]
  have hdmem : d ∈ (fromStages cs).filter fun c => !c.label.isStageNode := by
    rw [List.mem_filter, ← hfrom, hd]
    simp [hdstage]
  rw [hsettle]
  by_cases hbefore : beforeStages cs = []
  · refine ⟨c, d, ?_, ?_⟩
    · rw [hsplit, hbefore, hc, hd]
      simp
    · intro a b ha hb
      have hnest : nestStages newPipeline cs =
          ((fromStages cs).filter fun c => !c.label.isStageNode) ++
            [newPipeline (cs.filter fun c => c.label.isStageNode)] := if_pos hbefore
      rw [hnest, names_append]
      have hcmem : c ∈ cs := by
        rw [hsplit, hc]
        simp
      exact List.Sublist.append (List.singleton_sublist.mpr (mem_names_of_label hdmem hb))
        (List.singleton_sublist.mpr (hnames c hcmem hcstage a ha))
  · obtain ⟨x, hx, hxstage⟩ : ∃ x ∈ behindStages cs, x.label.isStageNode = true := by
      simp only [Bool.and_eq_false_iff, List.all_eq_false, Bool.or_eq_false_iff,
        Bool.not_eq_false', List.isEmpty_iff, hbefore, false_and, or_false] at h
      simpa using h
    rw [hd] at hx
    rcases List.mem_cons.mp hx with rfl | hx
    · rw [hdstage] at hxstage
      cases hxstage
    refine ⟨d, x, ?_, ?_⟩
    · rw [hsplit, hd]
      have hdx : [d, x].Sublist (d :: rest) := (List.singleton_sublist.mpr hx).cons_cons d
      exact hdx.trans ((List.sublist_append_right _ _).trans (List.sublist_append_right _ _))
    · intro a b ha hb
      have hnest : nestStages newPipeline cs =
          beforeStages cs ++ newPipeline (cs.filter fun c => c.label.isStageNode) ::
            (fromStages cs).filter fun c => !c.label.isStageNode := if_neg hbefore
      have hxmem : x ∈ cs := by
        rw [hsplit, hd]
        simp [hx]
      rw [hnest, names_append, names_cons]
      apply List.Sublist.trans _ (List.sublist_append_right _ _)
      exact List.Sublist.append (List.singleton_sublist.mpr (hnames x hxmem hxstage b hb))
        (List.singleton_sublist.mpr (mem_names_of_label hdmem ha))

theorem names_sublist_settle (ht : t ∈ cs) :
    (names [t]).Sublist (names (settle parent above cs)) := by
  cases hparent : parent.any NodeInfo.isPipelineNode with
  | true =>
    rw [names_settle (by simp [hparent])]
    exact names_sublist_of_mem ht
  | false =>
    unfold settle
    rw [if_neg (by simp [hparent])]
    split
    next =>
      have hperm := @nestStages_perm cs
        fun stages => .node (createPipelineNode above.join) (addPrivate stages)
      cases hstage : t.label.isStageNode with
      | false =>
        apply names_sublist_of_mem
        rw [hperm.mem_iff]
        exact List.mem_cons_of_mem _ (List.mem_filter.mpr ⟨ht, by simp [hstage]⟩)
      | true =>
        have hnew := names_sublist_of_mem (hperm.mem_iff.mpr List.mem_cons_self)
        apply List.Sublist.trans _ hnew
        rw [names_anonymous _ _ ⟨rfl, rfl⟩, flatMap_addPrivate _ names_anonymous, ← names_eq_flatMap]
        exact names_sublist_of_mem (List.mem_filter.mpr ⟨ht, hstage⟩)
    next => exact names_sublist_of_mem ht

/-- The legal form of a subtree is part of that of the tree. -/
theorem names_legalTree_sublist {s : Tree} (hs : s ∈ t.subtrees) :
    ∃ parent' above', (names [legalTree parent' above' s]).Sublist
      (names [legalTree parent above t]) := by
  induction t using Rose.induction generalizing parent above with
  | step i cs ih =>
    rw [Rose.subtrees_node] at hs
    rcases List.mem_cons.mp hs with rfl | hs
    · exact ⟨parent, above, List.Sublist.refl _⟩
    · obtain ⟨c, hc, hs⟩ := List.mem_flatMap.mp hs
      obtain ⟨parent', above', hsub⟩ := @ih c hc (some i) (around parent above i) hs
      refine ⟨parent', above', hsub.trans ?_⟩
      rw [legalTree]
      apply List.Sublist.trans _ (names_children_sublist (t := .node _ _))
      apply names_sublist_settle
      rw [legalList_eq_map]
      exact List.mem_map_of_mem hc

/-- The settled children of some node are part of the legal form. -/
theorem exists_settle_sublist {tree : List Tree} {t : Tree} (ht : t ∈ tree.flatMap Rose.subtrees) :
    ∃ above, (names (settle (some t.label) above (legalList (some t.label) above t.children))).Sublist
      (names (legalForm tree)) := by
  obtain ⟨c, hc, ht⟩ := List.mem_flatMap.mp ht
  obtain ⟨parent, above, hsub⟩ := @names_legalTree_sublist none none c t ht
  refine ⟨around parent above t.label, ?_⟩
  have hlegal : legalTree none none c ∈ legalList none none tree := by
    rw [legalList_eq_map]
    exact List.mem_map_of_mem hc
  apply List.Sublist.trans _ (hsub.trans (names_sublist_settle hlegal))
  cases t with
  | node i children =>
    rw [legalTree]
    exact names_children_sublist (t := .node _ _)

/-- The siblings among the settled children keep the names of the children. -/
theorem exists_reversed_legalList (hparent : parent.any NodeInfo.isPipelineNode = false)
    (hnamed : ∀ c ∈ cs, c.label.name.isSome = true)
    (h : nextToEachOther (stageFlags cs) = false) (above' : Option (Option OpId)) :
    ∃ a b, [some a, some b].Sublist (cs.map fun c => c.label.name) ∧
      [b, a].Sublist (names (settle parent above' (legalList parent above cs))) := by
  rw [← @stageFlags_legalList parent above] at h
  obtain ⟨c', d', hsub, hnames⟩ := @exists_reversed parent above' _ hparent h
  rw [legalList_eq_map] at hsub
  obtain ⟨l, hl, hcd⟩ := List.sublist_map_iff.mp hsub
  obtain ⟨c, d, rfl⟩ : ∃ c d, l = [c, d] := by
    rw [← List.length_eq_two, ← List.length_map (f := legalTree parent above), ← hcd]
    rfl
  simp only [List.map_cons, List.map_nil, List.cons.injEq, and_true] at hcd
  obtain ⟨rfl, rfl⟩ := hcd
  obtain ⟨a, ha⟩ := Option.isSome_iff_exists.mp (hnamed c (hl.subset (by simp)))
  obtain ⟨b, hb⟩ := Option.isSome_iff_exists.mp (hnamed d (hl.subset (by simp)))
  refine ⟨a, b, ?_, hnames a b (by simpa using ha) (by simpa using hb)⟩
  simpa [ha, hb] using hl.map fun c : Tree => c.label.name

/-- Siblings are nodes of the tree. -/
theorem label_mem_of_siblingLists {tree : List Tree} (hcs : cs ∈ siblingLists tree) (ht : t ∈ cs) :
    t.label ∈ tree.flatMap Rose.preorder := by
  rcases List.mem_cons.mp hcs with rfl | hcs
  · exact List.mem_flatMap.mpr ⟨t, ht, t.label_mem_preorder⟩
  · obtain ⟨s, hs, rfl⟩ := List.mem_map.mp hcs
    obtain ⟨c, hc, hs⟩ := List.mem_flatMap.mp hs
    refine List.mem_flatMap.mpr ⟨c, hc, Rose.preorder_subset_of_mem_subtrees hs ?_⟩
    cases s with
    | node i children =>
      rw [Rose.preorder_node]
      exact List.mem_cons_of_mem _ (List.mem_flatMap.mpr ⟨t, ht, t.label_mem_preorder⟩)

/-! ## The legalizer -/

theorem stagesTogether_of_legal {tree : List Tree} (h : Legal tree) : StagesTogether tree := by
  have hnone : ∀ cs : List Tree, (∀ c ∈ cs, c.label.isStageNode = false) →
      nextToEachOther (stageFlags cs) = true := by
    intro cs hcs
    have hbefore : fromStages cs = [] := by
      unfold fromStages
      rw [List.dropWhile_eq_nil_iff]
      intro c hc
      simp [hcs c hc]
    rw [nextToEachOther_stageFlags]
    simp [behindStages, hbefore]
  exact ⟨hnone tree h.root, fun t ht hpipeline => hnone _ ((h.nodes t ht).stageParent hpipeline)⟩

/-- A run that ends, ends in a tree with the names of the legal form, in its order. -/
theorem names_of_done {tree tree' : List Tree} (hnone : collectViolations tree' = some [])
    (hlegal : legalForm tree' = legalForm tree) : names tree' = names (legalForm tree) := by
  rw [← hlegal, names_legalForm (stagesTogether_of_legal (legal_of_collectViolations hnone))]

/-- **The legalizer.** It ends in a legal tree that keeps the nodes, their ancestors and the order of
siblings if and only if every check returns, every nested pipeline finds its template, and the stages
below a node that is no pipeline are next to each other. -/
theorem findAndFixViolations_legalizes_iff (tree : PipelineTree) :
    (∃ rounds tree' n, findAndFixViolations rounds tree.children = .done tree' n ∧
      Legalized tree.children tree') ↔
      ChecksReturn tree.children ∧ Templated tree.children ∧ StagesTogether tree.children := by
  constructor
  · rintro ⟨rounds, tree', n, hdone, hlegalized⟩
    obtain ⟨hreturn, htemplated, hnone, hlegal⟩ := fixAll_done hdone
    have hnames := names_of_done hnone hlegal
    have hnodup : (names tree').Nodup := by
      rw [hnames, (names_legalForm_perm _).nodup_iff]
      exact tree.nodup
    have htogether : ∀ (parent : Option NodeInfo) (cs : List Tree), cs ∈ siblingLists tree.children →
        parent.any NodeInfo.isPipelineNode = false →
        (∃ above, (names (settle parent above (legalList parent above cs))).Sublist
          (names (legalForm tree.children))) → nextToEachOther (stageFlags cs) = true := by
      intro parent cs hcs hparent ⟨above, hsub⟩
      have hnamed : ∀ c ∈ cs, c.label.name.isSome = true :=
        fun c hc => tree.named _ (label_mem_of_siblingLists hcs hc)
      by_contra hnot
      obtain ⟨a, b, hab, hba⟩ := @exists_reversed_legalList _ above _ hparent hnamed
        (by simpa using hnot) above
      apply not_both_orders hnodup (hlegalized.ordered a b ⟨cs, hcs, hab⟩)
      rw [hnames]
      exact hba.trans hsub
    refine ⟨hreturn, htemplated, ?_, ?_⟩
    · exact htogether none _ List.mem_cons_self rfl ⟨none, List.Sublist.refl _⟩
    · intro t ht hpipeline
      exact htogether (some t.label) _ (List.mem_cons_of_mem _ (List.mem_map_of_mem ht)) hpipeline
        (exists_settle_sublist ht)
  · rintro ⟨hreturn, htemplated, htogether⟩
    obtain ⟨tree', n, hdone⟩ := @fixAll_terminates _ tree.children (firstStageId tree.children) 0
      hreturn htemplated (Nat.le_add_left _ _)
    obtain ⟨-, -, hnone, hlegal⟩ := fixAll_done hdone
    have hnames := names_of_done hnone hlegal
    rw [names_legalForm htogether] at hnames
    refine ⟨_, tree', n, hdone, legal_of_collectViolations hnone, ?_, ?_, ?_⟩
    · intro a ha
      rw [hnames]
      exact ha
    · intro a b
      rw [← isAncestor_legalForm, hlegal, isAncestor_legalForm]
    · intro a b hab
      rw [hnames]
      exact sublist_of_orderedSiblings hab

/-- A pipeline whose first child is a loop. -/
def loopInPipeline : PipelineTree where
  children := [.node ⟨.pipeline, some 0, some 0, none, 0, []⟩
    [.node ⟨.loop, some 1, some 1, none, 0, []⟩ []]]
  named := by simp [Rose.preorder, Rose.preorderList]
  nodup := by simp [names, Rose.preorder, Rose.preorderList]

/-- There the first check never returns. -/
theorem not_legalized_loopInPipeline :
    ¬∃ rounds tree' n, findAndFixViolations rounds loopInPipeline.children = .done tree' n ∧
      Legalized loopInPipeline.children tree' := by
  rintro ⟨rounds, tree', n, hdone, -⟩
  have hnone : collectViolations loopInPipeline.children = none := rfl
  unfold findAndFixViolations at hdone
  cases rounds <;> simp [fixAll, hnone] at hdone

end PipelineTreeLegalizer
