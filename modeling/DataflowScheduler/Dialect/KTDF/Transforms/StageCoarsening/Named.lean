import DataflowScheduler.Dialect.KTDF.Transforms.StageCoarsening.Restructured

/-!
# Dependencies of coarsened pipelines

The tree that distributing, sinking and legalizing end with is legal, its nodes have different names
once the created ones are named, and its dependencies are those of the tree that was read in. The
correction takes them to single pipelines unless one joins two nested pipelines.
-/

namespace StageCoarsening

open PipelineTreeLegalizer

variable {tree cs : List Tree} {t : Tree} {u v : NodeId}

/-! ## Names for the created nodes -/

/-- The names that are given to some nodes in order. -/
def nameLabels (next : NodeId) : List NodeInfo → List NodeInfo × NodeId
  | [] => ([], next)
  | i :: is =>
      let first := nameNode next i
      let rest := nameLabels first.2 is
      (first.1 :: rest.1, rest.2)

theorem nameLabels_append (next : NodeId) (is js : List NodeInfo) :
    nameLabels next (is ++ js) = ((nameLabels next is).1 ++
      (nameLabels (nameLabels next is).2 js).1, (nameLabels (nameLabels next is).2 js).2) := by
  induction is generalizing next with
  | nil => rfl
  | cons i is ih => simp only [List.cons_append, nameLabels, ih]

/-- Nodes are named in pre-order. -/
theorem nameTree_labels (next : NodeId) (t : Tree) :
    ((nameTree next t).1.preorder, (nameTree next t).2) = nameLabels next t.preorder := by
  induction t using Rose.induction generalizing next with
  | step i cs ih =>
    have hlist : ∀ (cs : List Tree), (∀ c ∈ cs, ∀ next,
        ((nameTree next c).1.preorder, (nameTree next c).2) = nameLabels next c.preorder) →
          ∀ next, ((nameList next cs).1.flatMap Rose.preorder, (nameList next cs).2) =
            nameLabels next (cs.flatMap Rose.preorder) := by
      intro cs hcs
      induction cs with
      | nil => exact fun _ => rfl
      | cons c cs ih =>
        intro next
        rw [List.forall_mem_cons] at hcs
        rw [List.flatMap_cons, nameLabels_append, ← hcs.1, ← ih hcs.2, nameList]
        rfl
    rw [nameTree, Rose.preorder_node, Rose.preorder_node]
    simp only [nameLabels, ← hlist cs ih]

theorem nameList_labels (next : NodeId) (cs : List Tree) :
    ((nameList next cs).1.flatMap Rose.preorder, (nameList next cs).2) =
      nameLabels next (cs.flatMap Rose.preorder) := by
  induction cs generalizing next with
  | nil => rfl
  | cons c cs ih =>
    rw [List.flatMap_cons, nameLabels_append, ← nameTree_labels, ← ih, nameList]
    rfl

theorem nameNode_isSome (next : NodeId) (i : NodeInfo) : (nameNode next i).1.name.isSome = true := by
  unfold nameNode
  split
  next h => simp [h]
  next => rfl

/-- A node keeps all but its missing name. -/
theorem nameNode_cases (next : NodeId) (i : NodeInfo) :
    nameNode next i = (i, next) ∧ i.name.isSome = true ∨
      nameNode next i = ({ i with name := some next }, next + 1) ∧ i.name = none := by
  unfold nameNode
  split
  next h => exact Or.inl ⟨rfl, by simp [h]⟩
  next h => exact Or.inr ⟨rfl, h⟩

theorem nameLabels_named (next : NodeId) (is : List NodeInfo) :
    ∀ j ∈ (nameLabels next is).1, j.name.isSome = true := by
  induction is generalizing next with
  | nil => simp [nameLabels]
  | cons i is ih =>
    rw [nameLabels, List.forall_mem_cons]
    exact ⟨nameNode_isSome next i, ih _⟩

/-- Every named node is still there. -/
theorem mem_nameLabels {next : NodeId} {is : List NodeInfo} {i : NodeInfo} (hi : i ∈ is)
    (hname : i.name.isSome = true) : i ∈ (nameLabels next is).1 := by
  induction is generalizing next with
  | nil => cases hi
  | cons j is ih =>
    rw [nameLabels]
    rcases List.mem_cons.mp hi with rfl | hi
    · rcases nameNode_cases next i with ⟨h, -⟩ | ⟨-, h⟩
      · simp [h]
      · simp [h] at hname
    · exact List.mem_cons_of_mem _ (ih hi)

/-- Every node was there, maybe without a name. -/
theorem exists_of_mem_nameLabels {next : NodeId} {is : List NodeInfo} {j : NodeInfo}
    (hj : j ∈ (nameLabels next is).1) : ∃ i ∈ is, j.kind = i.kind ∧
      j.dependencies = i.dependencies ∧ (i.name.isSome = true → j = i) := by
  induction is generalizing next with
  | nil => cases hj
  | cons i is ih =>
    rw [nameLabels] at hj
    rcases List.mem_cons.mp hj with rfl | hj
    · refine ⟨i, List.mem_cons_self, ?_⟩
      rcases nameNode_cases next i with ⟨h, -⟩ | ⟨h, hnone⟩
      · simp [h]
      · simp [h, hnone]
    · obtain ⟨i', hi', h⟩ := ih hj
      exact ⟨i', List.mem_cons_of_mem _ hi', h⟩

/-- The new names start at `next`, and the others stay. -/
theorem name_of_mem_nameLabels {next : NodeId} {is : List NodeInfo} {j : NodeInfo} {a : NodeId}
    (hj : j ∈ (nameLabels next is).1) (ha : j.name = some a) :
    a ∈ is.filterMap NodeInfo.name ∨ next ≤ a := by
  induction is generalizing next with
  | nil => cases hj
  | cons i is ih =>
    rw [nameLabels] at hj
    rw [List.mem_filterMap]
    rcases nameNode_cases next i with ⟨h, -⟩ | ⟨h, -⟩
    · rw [h] at hj
      rcases List.mem_cons.mp hj with rfl | hj
      · exact Or.inl ⟨j, List.mem_cons_self, ha⟩
      · rcases ih hj with hin | hle
        · obtain ⟨i', hi', hname⟩ := List.mem_filterMap.mp hin
          exact Or.inl ⟨i', List.mem_cons_of_mem _ hi', hname⟩
        · exact Or.inr hle
    · rw [h] at hj
      rcases List.mem_cons.mp hj with rfl | hj
      · exact Or.inr (Nat.le_of_eq (Option.some.inj ha))
      · rcases ih hj with hin | hle
        · obtain ⟨i', hi', hname⟩ := List.mem_filterMap.mp hin
          exact Or.inl ⟨i', List.mem_cons_of_mem _ hi', hname⟩
        · exact Or.inr (Nat.le_of_succ_le hle)

theorem nameLabels_nodup (next : NodeId) (is : List NodeInfo)
    (hbelow : ∀ a ∈ is.filterMap NodeInfo.name, a < next)
    (hnodup : (is.filterMap NodeInfo.name).Nodup) :
    ((nameLabels next is).1.map NodeInfo.name).Nodup := by
  induction is generalizing next with
  | nil => exact List.nodup_nil
  | cons i is ih =>
    rw [nameLabels, List.map_cons, List.nodup_cons]
    rcases nameNode_cases next i with ⟨h, hname⟩ | ⟨h, hname⟩
    · obtain ⟨a, ha⟩ := Option.isSome_iff_exists.mp hname
      rw [List.filterMap_cons_some ha] at hbelow hnodup
      rw [List.forall_mem_cons] at hbelow
      rw [List.nodup_cons] at hnodup
      rw [h]
      refine ⟨?_, ih next hbelow.2 hnodup.2⟩
      intro hin
      obtain ⟨j, hj, hja⟩ := List.mem_map.mp hin
      rcases name_of_mem_nameLabels hj (hja.trans ha) with hin | hle
      · exact hnodup.1 hin
      · exact Nat.not_lt.mpr hle hbelow.1
    · rw [List.filterMap_cons_none hname] at hbelow hnodup
      rw [h]
      refine ⟨?_, ih (next + 1) (fun a ha => Nat.lt_succ_of_lt (hbelow a ha)) hnodup⟩
      intro hin
      obtain ⟨j, hj, hja⟩ := List.mem_map.mp hin
      rcases name_of_mem_nameLabels hj hja with hin | hle
      · exact Nat.lt_irrefl _ (hbelow next hin)
      · exact Nat.not_succ_le_self _ hle

/-- The first new name is larger than all names. -/
theorem lt_firstName {is : List NodeInfo} {a : NodeId} (ha : a ∈ is.filterMap NodeInfo.name) :
    a < is.foldl (fun next i => max next (i.name.elim 0 (· + 1))) 0 := by
  have hmono : ∀ (is : List NodeInfo) (next : NodeId),
      next ≤ is.foldl (fun next i => max next (i.name.elim 0 (· + 1))) next := by
    intro is
    induction is with
    | nil => exact fun _ => Nat.le_refl _
    | cons i is ih => exact fun next => (Nat.le_max_left _ _).trans (ih _)
  have hmem : ∀ (is : List NodeInfo) (next : NodeId), a ∈ is.filterMap NodeInfo.name →
      a < is.foldl (fun next i => max next (i.name.elim 0 (· + 1))) next := by
    intro is
    induction is with
    | nil => simp
    | cons i is ih =>
      intro next ha
      cases hi : i.name with
      | none =>
        rw [List.filterMap_cons_none hi] at ha
        exact ih _ ha
      | some b =>
        rw [List.filterMap_cons_some hi] at ha
        rcases List.mem_cons.mp ha with rfl | ha
        · rw [List.foldl_cons, hi]
          exact (Nat.lt_of_lt_of_le (Nat.lt_succ_self a) (Nat.le_max_right next (a + 1))).trans_le
            (hmono is _)
        · exact ih _ ha
  exact hmem is 0 ha

theorem labels_nameCreated : ∃ next, (nameCreated tree).flatMap Rose.preorder =
    (nameLabels next (tree.flatMap Rose.preorder)).1 ∧ ∀ a ∈ names tree, a < next :=
  ⟨_, congrArg Prod.fst (nameList_labels _ tree), fun _ ha => lt_firstName ha⟩

theorem wellNamed_nameCreated (h : (names tree).Nodup) : WellNamed (nameCreated tree) := by
  obtain ⟨next, hlabels, hbelow⟩ := @labels_nameCreated tree
  constructor
  · rw [hlabels]
    exact nameLabels_named next _
  · rw [hlabels]
    exact nameLabels_nodup next _ hbelow h

/-! ## Named trees are legal -/

/-- A node without its name. -/
def forgetName (i : NodeInfo) : NodeInfo := { i with name := none }

section ForgetName

variable (i : NodeInfo)

@[simp] theorem forgetName_isStageNode : (forgetName i).isStageNode = i.isStageNode := rfl
@[simp] theorem forgetName_isPrivateNode : (forgetName i).isPrivateNode = i.isPrivateNode := rfl
@[simp] theorem forgetName_isPipelineNode : (forgetName i).isPipelineNode = i.isPipelineNode := rfl
@[simp] theorem forgetName_dependencies : (forgetName i).dependencies = i.dependencies := rfl

end ForgetName

theorem nameTree_map (next : NodeId) (t : Tree) :
    (nameTree next t).1.map forgetName = t.map forgetName := by
  induction t using Rose.induction generalizing next with
  | step i cs ih =>
    have hlist : ∀ (cs : List Tree), (∀ c ∈ cs, ∀ next,
        (nameTree next c).1.map forgetName = c.map forgetName) → ∀ next,
          (nameList next cs).1.map (Rose.map forgetName) = cs.map (Rose.map forgetName) := by
      intro cs hcs
      induction cs with
      | nil => exact fun _ => rfl
      | cons c cs ih =>
        intro next
        rw [List.forall_mem_cons] at hcs
        rw [nameList, List.map_cons, List.map_cons, hcs.1, ih hcs.2]
    rw [nameTree, Rose.map_node, Rose.map_node, hlist cs ih]
    congr 1
    rcases nameNode_cases next i with ⟨h, -⟩ | ⟨h, -⟩
    · rw [h]
    · rw [h]
      rfl

theorem nameCreated_map : (nameCreated tree).map (Rose.map forgetName) =
    tree.map (Rose.map forgetName) := by
  have hlist : ∀ (cs : List Tree) (next : NodeId),
      (nameList next cs).1.map (Rose.map forgetName) = cs.map (Rose.map forgetName) := by
    intro cs
    induction cs with
    | nil => exact fun _ => rfl
    | cons c cs ih =>
      intro next
      rw [nameList, List.map_cons, List.map_cons, nameTree_map, ih]
  exact hlist tree _

theorem nodeLegal_map : NodeLegal (t.map forgetName) ↔ NodeLegal t := by
  cases t with
  | node i cs =>
    rw [Rose.map_node]
    have hfirst : (∃ c cs', cs.map (Rose.map forgetName) = c :: cs' ∧ c.label.isPrivateNode = true) ↔
        ∃ c cs', cs = c :: cs' ∧ c.label.isPrivateNode = true := by
      cases cs with
      | nil => simp
      | cons c cs => simp
    constructor
    · rintro ⟨hchildren, hparent, hprivate⟩
      refine ⟨?_, ?_, ?_⟩
      · intro hi c hc
        simpa using hchildren hi _ (List.mem_map_of_mem hc)
      · intro hi c hc
        simpa using hparent hi _ (List.mem_map_of_mem hc)
      · rintro hi ⟨c, hc, h⟩
        exact hfirst.mp (hprivate hi ⟨_, List.mem_map_of_mem hc, by simpa using h⟩)
    · rintro ⟨hchildren, hparent, hprivate⟩
      refine ⟨?_, ?_, ?_⟩
      · intro hi c' hc'
        obtain ⟨c, hc, rfl⟩ := List.mem_map.mp hc'
        simpa using hchildren hi c hc
      · intro hi c' hc'
        obtain ⟨c, hc, rfl⟩ := List.mem_map.mp hc'
        simpa using hparent hi c hc
      · rintro hi ⟨c', hc', h⟩
        obtain ⟨c, hc, rfl⟩ := List.mem_map.mp hc'
        exact hfirst.mpr (hprivate hi ⟨c, hc, by simpa using h⟩)

/-- Whether a tree is legal does not depend on the names. -/
theorem legal_map : Legal (tree.map (Rose.map forgetName)) ↔ Legal tree := by
  constructor
  · rintro ⟨hroot, hnodes⟩
    refine ⟨?_, ?_⟩
    · intro c hc
      simpa using hroot _ (List.mem_map_of_mem hc)
    · intro t ht
      apply nodeLegal_map.mp
      apply hnodes
      rw [List.flatMap_map]
      obtain ⟨c, hc, ht⟩ := List.mem_flatMap.mp ht
      refine List.mem_flatMap.mpr ⟨c, hc, ?_⟩
      rw [Rose.subtrees_map]
      exact List.mem_map_of_mem ht
  · rintro ⟨hroot, hnodes⟩
    refine ⟨?_, ?_⟩
    · intro c' hc'
      obtain ⟨c, hc, rfl⟩ := List.mem_map.mp hc'
      simpa using hroot c hc
    · intro t' ht'
      rw [List.flatMap_map] at ht'
      obtain ⟨c, hc, ht'⟩ := List.mem_flatMap.mp ht'
      rw [Rose.subtrees_map] at ht'
      obtain ⟨t, ht, rfl⟩ := List.mem_map.mp ht'
      exact nodeLegal_map.mpr (hnodes t (List.mem_flatMap.mpr ⟨c, hc, ht⟩))

theorem legal_nameCreated (h : Legal tree) : Legal (nameCreated tree) := by
  rw [← legal_map, nameCreated_map, legal_map]
  exact h

/-! ## Stages keep their dependencies -/

/-- A stage that has a name or dependents, with both. -/
def stageEntry (i : NodeInfo) : Option (Option NodeId × List NodeId) :=
  if i.isStageNode && (i.name.isSome || !i.dependencies.isEmpty) then some (i.name, i.dependencies)
  else none

theorem mem_stageEntries {x : Option NodeId} {deps : List NodeId} :
    (x, deps) ∈ attributes stageEntry tree ↔ ∃ i ∈ tree.flatMap Rose.preorder,
      i.isStageNode = true ∧ (i.name.isSome = true ∨ i.dependencies ≠ []) ∧ i.name = x ∧
        i.dependencies = deps := by
  unfold attributes
  rw [List.mem_filterMap]
  apply exists_congr
  intro i
  apply and_congr_right
  intro _
  unfold stageEntry
  split
  next h => simp_all
  next h => simp_all

theorem forCreated_stageEntry : ForCreated stageEntry := by
  rintro i ⟨hname, hdeps⟩
  simp [stageEntry, hname, hdeps]

/-- **The stages of the restructured tree.** -/
theorem stageEntries_perm {candidate : TransformCandidate} {rounds n : Nat} {tree' : List Tree}
    (hdone : findAndFixViolations rounds (restructure candidate tree) = .done tree' n) :
    (attributes stageEntry tree').Perm (attributes stageEntry tree) := by
  obtain ⟨-, -, -, hlegal⟩ := fixAll_done hdone
  have hloop : ∀ i : NodeInfo, i.kind = .loop → stageEntry i = none := by
    intro i hi
    simp [stageEntry, NodeInfo.isStageNode, hi]
  have hforget : ∀ i, stageEntry (forget i) = stageEntry i := fun _ => rfl
  apply (forCreated_stageEntry.legalForm_perm hforget tree').symm.trans
  rw [hlegal]
  exact (forCreated_stageEntry.legalForm_perm hforget _).trans
    (restructure_perm forCreated_stageEntry hloop candidate)

/-- A pipeline tree that is read in: dependencies lead to stages. -/
structure CoarseningTree extends PipelineTree where
  closed : ∀ i ∈ children.flatMap Rose.preorder, i.isStageNode = true →
    ∀ d ∈ i.dependencies, d ∈ allStages children

theorem WellNamed.dependsOn_iff (h : WellNamed tree) : DependsOn tree u v ↔
    ∃ i ∈ tree.flatMap Rose.preorder, i.isStageNode = true ∧ i.name = some u ∧
      v ∈ i.dependencies := by
  unfold DependsOn getDependencies
  constructor
  · intro hv
    cases hfind : ((tree.flatMap Rose.preorder).filter NodeInfo.isStageNode).find?
      fun i => i.name = some u with
    | none => simp [hfind] at hv
    | some i =>
      have hname : i.name = some u := by simpa using List.find?_some hfind
      obtain ⟨hi, hstage⟩ := List.mem_filter.mp (List.mem_of_find?_eq_some hfind)
      rw [hfind] at hv
      exact ⟨i, hi, hstage, hname, by simpa using hv⟩
  · rintro ⟨i, hi, hstage, hname, hv⟩
    cases hfind : ((tree.flatMap Rose.preorder).filter NodeInfo.isStageNode).find?
      fun i => i.name = some u with
    | none =>
      exact absurd hname (by
        simpa using List.find?_eq_none.mp hfind i (List.mem_filter.mpr ⟨hi, hstage⟩))
    | some i' =>
      have hname' : i'.name = some u := by simpa using List.find?_some hfind
      have hi' := (List.mem_filter.mp (List.mem_of_find?_eq_some hfind)).1
      obtain rfl := List.inj_on_of_nodup_map h.nodup hi hi' (hname.trans hname'.symm)
      simpa using hv

theorem PipelineTree.wellNamed (tree : PipelineTree) : WellNamed tree.children := by
  refine ⟨tree.named, ?_⟩
  have hnodup := tree.nodup
  have hnamed := tree.named
  unfold names at hnodup
  generalize tree.children.flatMap Rose.preorder = labels at hnodup hnamed ⊢
  induction labels with
  | nil => exact List.nodup_nil
  | cons i labels ih =>
    rw [List.forall_mem_cons] at hnamed
    obtain ⟨a, ha⟩ := Option.isSome_iff_exists.mp hnamed.1
    rw [List.filterMap_cons_some ha, List.nodup_cons] at hnodup
    rw [List.map_cons, List.nodup_cons]
    refine ⟨?_, ih hnodup.2 hnamed.2⟩
    intro hin
    obtain ⟨j, hj, hja⟩ := List.mem_map.mp hin
    exact hnodup.1 (List.mem_filterMap.mpr ⟨j, hj, hja.trans ha⟩)

section Restructured

variable {candidate : TransformCandidate} {rounds n : Nat} {tree' : List Tree}

theorem names_nodup_of_done (h : (names tree).Nodup)
    (hdone : findAndFixViolations rounds (restructure candidate tree) = .done tree' n) :
    (names tree').Nodup := by
  obtain ⟨-, -, -, hlegal⟩ := fixAll_done hdone
  rw [← (names_legalForm_perm tree').nodup_iff, hlegal, (names_legalForm_perm _).nodup_iff]
  exact names_restructure candidate h

/-- A stage of the named tree with a dependent is one of the tree that was read in. -/
theorem mem_stageEntries_of_named (tree : PipelineTree)
    (hdone : findAndFixViolations rounds (restructure candidate tree.children) = .done tree' n)
    {j : NodeInfo} (hj : j ∈ (nameCreated tree').flatMap Rose.preorder)
    (hstage : j.isStageNode = true) (hdeps : j.dependencies ≠ []) :
    (j.name, j.dependencies) ∈ attributes stageEntry tree.children := by
  obtain ⟨next, hlabels, -⟩ := @labels_nameCreated tree'
  rw [hlabels] at hj
  obtain ⟨i, hi, hkind, heq, hsame⟩ := exists_of_mem_nameLabels hj
  have hstage' : i.isStageNode = true := by
    simpa [NodeInfo.isStageNode, hkind] using hstage
  have hentry : (i.name, i.dependencies) ∈ attributes stageEntry tree' :=
    mem_stageEntries.mpr ⟨i, hi, hstage', Or.inr (heq ▸ hdeps), rfl, rfl⟩
  rw [(stageEntries_perm hdone).mem_iff] at hentry
  obtain ⟨i', hi', -, -, hname, -⟩ := mem_stageEntries.mp hentry
  rw [hsame (hname ▸ tree.named i' hi')]
  exact hentry

/-- **The dependencies that the correction starts from** are those that were read in. -/
theorem dependsOn_nameCreated (tree : PipelineTree)
    (hdone : findAndFixViolations rounds (restructure candidate tree.children) = .done tree' n) :
    DependsOn (nameCreated tree') u v ↔ DependsOn tree.children u v := by
  have hnamed := wellNamed_nameCreated (names_nodup_of_done tree.nodup hdone)
  obtain ⟨next, hlabels, -⟩ := @labels_nameCreated tree'
  rw [hnamed.dependsOn_iff, (PipelineTree.wellNamed tree).dependsOn_iff]
  constructor
  · rintro ⟨j, hj, hstage, hname, hv⟩
    have hentry := mem_stageEntries_of_named tree hdone hj hstage (List.ne_nil_of_mem hv)
    obtain ⟨i, hi, hi', -, hname', hdeps⟩ := mem_stageEntries.mp hentry
    exact ⟨i, hi, hi', hname'.trans hname, hdeps ▸ hv⟩
  · rintro ⟨i, hi, hstage, hname, hv⟩
    have hentry : (i.name, i.dependencies) ∈ attributes stageEntry tree.children :=
      mem_stageEntries.mpr ⟨i, hi, hstage, Or.inr (List.ne_nil_of_mem hv), rfl, rfl⟩
    rw [← (stageEntries_perm hdone).mem_iff] at hentry
    obtain ⟨i', hi', hstage', -, hname', hdeps⟩ := mem_stageEntries.mp hentry
    refine ⟨i', ?_, hstage', hname'.trans hname, hdeps ▸ hv⟩
    rw [hlabels]
    exact mem_nameLabels hi' (by simp [hname', hname])

theorem mem_allStages_nameCreated (tree : PipelineTree)
    (hdone : findAndFixViolations rounds (restructure candidate tree.children) = .done tree' n)
    (hv : v ∈ allStages tree.children) : v ∈ allStages (nameCreated tree') := by
  obtain ⟨next, hlabels, -⟩ := @labels_nameCreated tree'
  unfold allStages at hv ⊢
  obtain ⟨i, hi, hname⟩ := List.mem_filterMap.mp hv
  obtain ⟨hi, hstage⟩ := List.mem_filter.mp hi
  have hentry : (i.name, i.dependencies) ∈ attributes stageEntry tree.children :=
    mem_stageEntries.mpr ⟨i, hi, hstage, Or.inl (by simp [hname]), rfl, rfl⟩
  rw [← (stageEntries_perm hdone).mem_iff] at hentry
  obtain ⟨i', hi', hstage', -, hname', -⟩ := mem_stageEntries.mp hentry
  refine List.mem_filterMap.mpr ⟨i', List.mem_filter.mpr ⟨?_, hstage'⟩, hname'.trans hname⟩
  rw [hlabels]
  exact mem_nameLabels hi' (by simp [hname', hname])

/-- **The tree that is handed to the correction.** -/
theorem ready_nameCreated (tree : CoarseningTree)
    (hdone : findAndFixViolations rounds (restructure candidate tree.children) = .done tree' n) :
    Ready (nameCreated tree') := by
  obtain ⟨-, -, hnone, -⟩ := fixAll_done hdone
  refine ⟨wellNamed_nameCreated (names_nodup_of_done tree.nodup hdone),
    legal_nameCreated (legal_of_collectViolations hnone), ?_⟩
  intro u v hD
  rw [dependsOn_nameCreated tree.toPipelineTree hdone,
    (PipelineTree.wellNamed tree.toPipelineTree).dependsOn_iff] at hD
  obtain ⟨i, hi, hstage, -, hv⟩ := hD
  exact mem_allStages_nameCreated tree.toPipelineTree hdone (tree.closed i hi hstage v hv)

/-- **Corrected dependencies.** They are as they should be if and only if every dependency has an end
that stands directly in a pipeline around the other end, and no pipeline has a cycle of dependencies
between its stages and what is inside them. -/
theorem correctStageDependencies_corrected_iff (tree : CoarseningTree)
    (hdone : findAndFixViolations rounds (restructure candidate tree.children) = .done tree' n) :
    DependenciesCorrected (nameCreated tree') (correctStageDependencies (nameCreated tree')) ↔
      Reachable (nameCreated tree') ∧ AcyclicAround (nameCreated tree') :=
  (ready_nameCreated tree hdone).dependenciesCorrected_iff

/-- Two ends in different pipelines are not corrected. -/
theorem not_corrected_of_parents (tree : CoarseningTree)
    (hdone : findAndFixViolations rounds (restructure candidate tree.children) = .done tree' n)
    (hv : some v ∈ correctStageDependencies (nameCreated tree') u)
    (hne : getParentNode (nameCreated tree') u ≠ getParentNode (nameCreated tree') v) :
    ¬DependenciesCorrected (nameCreated tree') (correctStageDependencies (nameCreated tree')) := by
  intro hcorrected
  have h := ready_nameCreated tree hdone
  obtain ⟨p, hu, hv⟩ := hcorrected.samePipeline u v hv
  apply hne
  rw [h.getParentNode_stageOf hu, h.getParentNode_stageOf hv]

end Restructured

/-! ## Two groups apart -/

/-- Five stages below a loop, the fourth after the first. -/
def fiveStages : CoarseningTree where
  children := [.node ⟨.loop, some 0, some 0, none, 0, []⟩
    [.node ⟨.pipeline, some 1, some 1, none, 0, []⟩
      [.node ⟨.privateNode, some 2, some 2, none, 0, []⟩ [],
        .node ⟨.stage, some 3, some 3, none, 0, [6]⟩ [],
        .node ⟨.stage, some 4, some 4, none, 1, []⟩ [],
        .node ⟨.stage, some 5, some 5, none, 2, []⟩ [],
        .node ⟨.stage, some 6, some 6, none, 3, []⟩ [],
        .node ⟨.stage, some 7, some 7, none, 4, []⟩ []]]]
  named := by decide
  nodup := by decide
  closed := by decide

/-- The first two stages are one group, and so are the last two. -/
def twoPairs : TransformCandidate := ⟨[0], 1, [[3, 4], [5], [6, 7]]⟩

/-- The dependency between the pairs joins two nested pipelines, and stays so. -/
theorem not_corrected_twoPairs : ∃ tree' n,
    findAndFixViolations 20 (restructure twoPairs fiveStages.children) = .done tree' n ∧
      ¬DependenciesCorrected (nameCreated tree') (correctStageDependencies (nameCreated tree')) := by
  refine ⟨_, _, rfl, ?_⟩
  apply @not_corrected_of_parents 3 6 twoPairs 20 _ _ fiveStages rfl
  · decide
  · decide

/-- All stages are one group. -/
def oneGroup : TransformCandidate := ⟨[0], 1, [[3, 4, 5, 6, 7]]⟩

theorem correctStageDependencies_corrected_oneGroup : ∃ tree' n,
    findAndFixViolations 20 (restructure oneGroup fiveStages.children) = .done tree' n ∧
      (DependenciesCorrected (nameCreated tree') (correctStageDependencies (nameCreated tree')) ↔
        Reachable (nameCreated tree') ∧ AcyclicAround (nameCreated tree')) :=
  ⟨_, _, rfl, @correctStageDependencies_corrected_iff oneGroup 20 _ _ fiveStages rfl⟩

end StageCoarsening
