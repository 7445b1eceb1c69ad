import DataflowScheduler.Analysis.OperationTree
import DataflowScheduler.Transforms.PathExpansion.PlacedStages

/-!
# Relinking the stages of a pipeline node

`orderStagesByDependencies` on the tree itself: the children of a pipeline node are private nodes
and stage nodes in any order, and the stages are linked in again where the first one used to be.
-/

namespace DataflowScheduler

/-- An `mlir::LogicalResult`. -/
inductive LogicalResult where
  | success
  | failure
  deriving DecidableEq

namespace PipelineNode

/-- The walk along siblings of `getStages`. -/
def siblingsFrom (tree : OperationTree) : Nat → Option NodeRef → List NodeRef
  | 0, _ => []
  | _ + 1, none => []
  | fuel + 1, some child => child :: siblingsFrom tree fuel (tree.nextSibling child)

/-- `PipelineNode::getStages`. -/
def getStages (tree : OperationTree) (isStageNode : NodeRef → Bool) (pipeline : NodeRef) :
    List StageRef :=
  (siblingsFrom tree tree.nodeCount (tree.firstChild pipeline)).filter isStageNode

/-- A round of the last loop of `orderStagesByDependencies`. -/
def relinkStage (pipeline : NodeRef) (tree : OperationTree) (pos : Option NodeRef)
    (stage : StageRef) : Option OperationTree :=
  match pos with
  | some pos => tree.insertChildNode pipeline stage (some pos)
  | none => some (tree.insertAsFirstChild pipeline stage)

/-- The last loop of `orderStagesByDependencies`. -/
def relinkStages (pipeline : NodeRef) (tree : OperationTree) (pos : Option NodeRef) :
    List StageRef → Option OperationTree
  | [] => some tree
  | stage :: ordered => do
      let tree ← relinkStage pipeline tree pos stage
      relinkStages pipeline tree (some stage) ordered

/-- `orderStagesByDependencies`. `none` is a failed assertion. -/
def orderStagesByDependencies (tree : OperationTree) (isStageNode : NodeRef → Bool)
    (dependencies : Dependencies) (pipeline : NodeRef) : Option (LogicalResult × OperationTree) :=
  let stages := getStages tree isStageNode pipeline
  match stages.head? with
  | none => some (.success, tree)
  | some front =>
      match PathExpansion.placeLoop dependencies stages stages.length []
        fun s => inDegrees dependencies stages s with
      | none => some (.failure, tree)
      | some ordered =>
          if ordered = stages then some (.success, tree)
          else do
            let pos ← tree.getPrevSibling front
            let tree ← stages.foldlM OperationTree.unlink tree
            let tree ← relinkStages pipeline tree pos ordered
            some (.success, tree)

open OperationTree PathExpansion PipelineTree

variable {tree : OperationTree} {pipeline : NodeRef} {children before after : List NodeRef}
  {isStageNode : NodeRef → Bool} {dependencies : Dependencies} {stages ordered : List StageRef}

theorem siblingsFrom_eq {fuel : Nat} {start : Option NodeRef}
    (h : Linked tree.nextSibling start children) (hfuel : children.length ≤ fuel) :
    siblingsFrom tree fuel start = children := by
  induction children generalizing fuel start with
  | nil =>
      rw [show start = none from h]
      cases fuel <;> rfl
  | cons c children ih =>
      obtain ⟨hstart, hrest⟩ := h
      cases fuel with
      | zero => simp at hfuel
      | succ fuel => rw [hstart, siblingsFrom, ih hrest (by simpa using hfuel)]

theorem getStages_eq (h : Children tree pipeline children) :
    getStages tree isStageNode pipeline = children.filter isStageNode := by
  rw [getStages, siblingsFrom_eq h.linked h.length_le]

/-! ## Unlinking and linking in again -/

/-- The other children stay when stages are unlinked. -/
theorem foldlM_unlink (h : Children tree pipeline children) (hnd : stages.Nodup)
    (hsub : ∀ s ∈ stages, s ∈ children) :
    ∃ tree', stages.foldlM OperationTree.unlink tree = some tree' ∧
      Children tree' pipeline (children.filter (· ∉ stages)) ∧
      (∀ s ∈ stages, tree'.nextSibling s = none) ∧ SameBut pipeline children tree tree' := by
  induction stages generalizing tree children with
  | nil =>
      have hall : children.filter (· ∉ ([] : List StageRef)) = children := by
        apply List.filter_eq_self.mpr
        intro c _
        simp
      exact ⟨tree, rfl, hall.symm ▸ h, by simp, SameBut.refl ..⟩
  | cons s stages ih =>
      obtain ⟨hs, hstages⟩ := List.nodup_cons.mp hnd
      obtain ⟨before, after, rfl⟩ := List.append_of_mem (hsub s List.mem_cons_self)
      obtain ⟨tree₁, hunlink, hchildren, hnext, hsame⟩ := h.unlink
      have hnew : s ∉ before ++ after := (List.nodup_cons.mp (List.nodup_middle.mp h.nodup)).1
      obtain ⟨tree', hfold, hchildren', hnext', hsame'⟩ := ih hchildren hstages (by
        intro t ht
        have hne : t ≠ s := ne_of_mem_of_not_mem ht hs
        have := hsub t (List.mem_cons_of_mem _ ht)
        simp only [List.mem_append, List.mem_cons] at this ⊢
        tauto)
      refine ⟨tree', ?_, ?_, ?_, hsame.trans hsame' ?_⟩
      · rw [List.foldlM_cons, hunlink]
        exact hfold
      · have hfilter : (before ++ s :: after).filter (· ∉ s :: stages) =
            (before ++ after).filter (· ∉ stages) := by
          rw [List.filter_append, List.filter_append, List.filter_cons_of_neg (by simp)]
          congr 1
          all_goals
            apply List.filter_congr
            intro c hc
            have hne : c ≠ s := ne_of_mem_of_not_mem (by simp [hc]) hnew
            simp [hne]
        rw [hfilter]
        exact hchildren'
      · intro t ht
        rcases List.mem_cons.mp ht with heq | ht
        · rw [heq, hsame'.nextSibling_eq s hnew]
          exact hnext
        · exact hnext' t ht
      · intro c hc
        simp only [List.mem_append, List.mem_cons] at hc ⊢
        tauto

/-- The stages come behind the position, in their new order. -/
theorem relinkStages_children (h : Children tree pipeline (before ++ after))
    (hnd : (before ++ ordered ++ after).Nodup) (hnext : ∀ s ∈ ordered, tree.nextSibling s = none)
    (hlen : (before ++ ordered ++ after).length ≤ tree.nodeCount) :
    ∃ tree', relinkStages pipeline tree before.getLast? ordered = some tree' ∧
      Children tree' pipeline (before ++ ordered ++ after) ∧
      SameBut pipeline (before ++ ordered ++ after) tree tree' := by
  induction ordered generalizing tree before with
  | nil =>
      rw [List.append_nil]
      exact ⟨tree, rfl, h, SameBut.refl ..⟩
  | cons s ordered ih =>
      have hassoc : before ++ s :: ordered ++ after = before ++ [s] ++ ordered ++ after := by simp
      rw [hassoc] at hnd hlen ⊢
      have hnew : s ∉ before ++ after := by
        have hperm : (before ++ [s] ++ ordered ++ after).Perm (s :: (before ++ ordered ++ after)) := by
          rw [List.append_assoc, List.append_assoc, List.append_assoc]
          exact List.perm_middle
        have := (List.nodup_cons.mp (hperm.nodup_iff.mp hnd)).1
        simp only [List.mem_append] at this ⊢
        tauto
      have hshort : (before ++ [s] ++ after).length ≤ tree.nodeCount := by
        simp only [List.length_append, List.length_singleton] at hlen ⊢
        omega
      -- the stage is put in right behind what is in front of the position
      obtain ⟨tree₁, hinsert, hchildren, hsame⟩ : ∃ tree₁,
          relinkStage pipeline tree before.getLast? s = some tree₁ ∧
          Children tree₁ pipeline (before ++ [s] ++ after) ∧
          SameBut pipeline (before ++ [s] ++ after) tree tree₁ := by
        rcases List.eq_nil_or_concat before with hnil | ⟨first, pos, hconcat⟩
        · subst hnil
          have := h.insertAsFirstChild hnew (hnext s List.mem_cons_self) hshort
          exact ⟨_, rfl, this.1, this.2⟩
        · subst hconcat
          rw [List.concat_eq_append] at *
          have heq : first ++ [pos] ++ [s] ++ after = first ++ pos :: s :: after := by simp
          have heq' : first ++ [pos] ++ after = first ++ pos :: after := by simp
          rw [heq'] at h hnew
          rw [heq] at hshort ⊢
          rw [List.getLast?_concat]
          exact h.insertChildNode hnew hshort
      obtain ⟨tree', hrelink, hchildren', hsame'⟩ := ih hchildren hnd (by
        intro t ht
        rw [hsame.nextSibling_eq]
        · exact hnext t (List.mem_cons_of_mem _ ht)
        · have hdisjoint : (ordered ++ (before ++ [s] ++ after)).Nodup := by
            have hperm : (ordered ++ (before ++ [s] ++ after)).Perm
                (before ++ [s] ++ ordered ++ after) := by
              rw [← List.append_assoc]
              exact List.perm_append_comm.append_right after
            exact hperm.nodup_iff.mpr hnd
          exact fun hmem => (List.nodup_append.mp hdisjoint).2.2 t ht t hmem rfl)
        (hsame.nodeCount_eq.symm ▸ hlen)
      rw [List.getLast?_concat] at hrelink
      refine ⟨tree', ?_, hchildren', SameBut.trans (hsame.mono ?_) hsame' fun c hc => hc⟩
      · rw [relinkStages, hinsert]
        exact hrelink
      · intro c hc
        simp only [List.mem_append] at hc ⊢
        tauto

/-! ## The new order -/

/-- What has to hold of the stages `ordered` that come out for those that went in. -/
structure Ordered (dependencies : Dependencies) (stages ordered : List StageRef) : Prop where
  perm : ordered.Perm stages
  idxOf_lt : ∀ s ∈ stages, ∀ t ∈ dependencies s, ordered.idxOf s < ordered.idxOf t
  /-- Each position has the earliest stage that is not placed although its predecessors are. -/
  earliest : ∀ i, earliestReady dependencies stages (ordered.take i) = ordered[i]?

/-- Stages that cannot be placed have a cycle. -/
theorem placeLoop_cyclic (hnd : stages.Nodup)
    (hloop : placeLoop dependencies stages stages.length []
      (fun s => inDegrees dependencies stages s) = none) :
    ¬ Acyclic (Feeds dependencies stages) := by
  intro hacyclic
  have hsome :=
    (placeLoop_spec hnd (Placing.start dependencies stages) (Nat.zero_add stages.length)).1 hacyclic
  rw [hloop] at hsome
  cases hsome

/-- Stages that are placed have none. They get in order, and in their old one if they were. -/
theorem placeLoop_ordered (hnd : stages.Nodup) (hclosed : ClosedUnder dependencies stages)
    (hloop : placeLoop dependencies stages stages.length []
      (fun s => inDegrees dependencies stages s) = some ordered) :
    Acyclic (Feeds dependencies stages) ∧ Ordered dependencies stages ordered ∧
      ((∀ s ∈ stages, ∀ t ∈ dependencies s, stages.idxOf s < stages.idxOf t) →
        ordered = stages) := by
  obtain ⟨hperm, hfirst, -, hgreedy⟩ :=
    (placeLoop_spec hnd (Placing.start dependencies stages) (Nat.zero_add stages.length)).2 ordered
      hloop
  have hnd' : ordered.Nodup := hperm.nodup_iff.mpr hnd
  have hmem : ∀ s t, Feeds dependencies stages s t → t ∈ ordered := fun s t hst =>
    hperm.mem_iff.mpr (hclosed s hst.1 t hst.2)
  refine ⟨hfirst.acyclic hnd' hmem, ⟨hperm, fun s hs t ht => ?_, fun i => ?_⟩, fun hold => ?_⟩
  · exact hfirst.idxOf_lt hnd' (hmem s t ⟨hs, ht⟩) ⟨hs, ht⟩
  · exact hgreedy i (Nat.zero_le i)
  · apply eq_of_greedy hnd _ fun i => hgreedy i (Nat.zero_le i)
    exact PredecessorsFirst.of_idxOf_lt fun s t hst => hold s hst.1 t hst.2

/-! ## The children in their new order -/

section

variable {front : NodeRef}

theorem filter_not_children (hsplit : children = before ++ front :: after)
    (hfront : isStageNode front) (hbefore : ∀ c ∈ before, !isStageNode c) :
    children.filter (!isStageNode ·) = before ++ after.filter (!isStageNode ·) := by
  rw [hsplit, List.filter_append, List.filter_eq_self.mpr hbefore,
    List.filter_cons_of_neg (by simp [hfront])]

theorem takeWhile_before (hfront : isStageNode front) (hbefore : ∀ c ∈ before, !isStageNode c) :
    (before ++ front :: after).takeWhile (!isStageNode ·) = before := by
  rw [List.takeWhile_append_of_pos hbefore, List.takeWhile_cons_of_neg (by simp [hfront]),
    List.append_nil]

/-- Without its stages a pipeline node has the children in front of them and the other ones. -/
theorem filter_notMem_stages (hsplit : children = before ++ front :: after)
    (hfront : isStageNode front) (hbefore : ∀ c ∈ before, !isStageNode c) :
    children.filter (· ∉ children.filter isStageNode) =
      before ++ after.filter (!isStageNode ·) := by
  have hcongr : children.filter (· ∉ children.filter isStageNode) =
      children.filter (!isStageNode ·) := by
    apply List.filter_congr
    intro c hc
    simp [List.mem_filter, hc]
  rw [hcongr, filter_not_children hsplit hfront hbefore]

/-- All children are there again. -/
theorem children_perm (hsplit : children = before ++ front :: after)
    (hfront : isStageNode front) (hbefore : ∀ c ∈ before, !isStageNode c)
    (hperm : ordered.Perm (children.filter isStageNode)) :
    (before ++ ordered ++ after.filter (!isStageNode ·)).Perm children := by
  have hothers := filter_not_children hsplit hfront hbefore
  calc before ++ ordered ++ after.filter (!isStageNode ·)
      _ |>.Perm (ordered ++ (before ++ after.filter (!isStageNode ·))) := by
        rw [← List.append_assoc]
        exact List.perm_append_comm.append_right _
      _ |>.Perm (children.filter isStageNode ++ children.filter (!isStageNode ·)) := by
        rw [hothers]
        exact hperm.append_right _
      _ |>.Perm children := List.filter_append_perm ..

/-- The stages among the children are those that were linked in. -/
theorem filter_relinked (hbefore : ∀ c ∈ before, !isStageNode c)
    (hperm : ordered.Perm (children.filter isStageNode)) :
    (before ++ ordered ++ after.filter (!isStageNode ·)).filter isStageNode = ordered := by
  have hnone : before.filter isStageNode = [] := by
    rw [List.filter_eq_nil_iff]
    intro c hc
    simpa using hbefore c hc
  have hall : ordered.filter isStageNode = ordered := by
    rw [List.filter_eq_self]
    intro s hs
    exact (List.mem_filter.mp (hperm.mem_iff.mp hs)).2
  have hrest : (after.filter (!isStageNode ·)).filter isStageNode = [] := by
    rw [List.filter_eq_nil_iff]
    intro c hc
    simpa using (List.mem_filter.mp hc).2
  rw [List.filter_append, List.filter_append, hnone, hall, hrest, List.nil_append, List.append_nil]

/-- And the other ones are as before. -/
theorem filter_not_relinked (hsplit : children = before ++ front :: after)
    (hfront : isStageNode front) (hbefore : ∀ c ∈ before, !isStageNode c)
    (hperm : ordered.Perm (children.filter isStageNode)) :
    (before ++ ordered ++ after.filter (!isStageNode ·)).filter (!isStageNode ·) =
      children.filter (!isStageNode ·) := by
  have hnone : ordered.filter (!isStageNode ·) = [] := by
    rw [List.filter_eq_nil_iff]
    intro s hs
    simpa using (List.mem_filter.mp (hperm.mem_iff.mp hs)).2
  rw [filter_not_children hsplit hfront hbefore, List.filter_append, List.filter_append, hnone,
    List.append_nil, List.filter_eq_self.mpr hbefore, List.filter_filter]
  simp

end

/-- A cycle leaves the tree as it is. -/
theorem orderStagesByDependencies_none
    (hstages : getStages tree isStageNode pipeline = stages)
    (hloop : placeLoop dependencies stages stages.length []
      (fun s => inDegrees dependencies stages s) = none) :
    orderStagesByDependencies tree isStageNode dependencies pipeline = some (.failure, tree) := by
  rw [orderStagesByDependencies, hstages]
  cases stages with
  | nil => cases hloop
  | cons front stages =>
      show (match placeLoop _ _ _ _ _ with
        | none => _
        | some ordered => _) = _
      rw [hloop]

/-- Otherwise the stages get linked in the order in which they were placed, behind what was in
front of them all. -/
theorem orderStagesByDependencies_some (h : Children tree pipeline children)
    (hperm : ordered.Perm (children.filter isStageNode))
    (hloop : placeLoop dependencies (children.filter isStageNode)
      (children.filter isStageNode).length []
      (fun s => inDegrees dependencies (children.filter isStageNode) s) = some ordered) :
    ∃ tree' children',
      orderStagesByDependencies tree isStageNode dependencies pipeline = some (.success, tree') ∧
      Children tree' pipeline children' ∧ SameBut pipeline children tree tree' ∧
      children'.filter isStageNode = ordered ∧
      (ordered = children.filter isStageNode → tree' = tree) ∧
      children'.filter (!isStageNode ·) = children.filter (!isStageNode ·) ∧
      children.takeWhile (!isStageNode ·) <+: children' := by
  have hstages : getStages tree isStageNode pipeline = children.filter isStageNode :=
    getStages_eq h
  rw [orderStagesByDependencies, hstages]
  cases hfront : (children.filter isStageNode).head? with
  | none =>
      have hnil : children.filter isStageNode = [] := List.head?_eq_none_iff.mp hfront
      have hordered : ordered = [] := List.perm_nil.mp (hnil ▸ hperm)
      exact ⟨tree, children, rfl, h, SameBut.refl .., hnil.trans hordered.symm, fun _ => rfl, rfl,
        List.takeWhile_prefix _⟩
  | some front =>
      dsimp only
      rw [hloop]
      dsimp only
      by_cases heq : ordered = children.filter isStageNode
      · rw [if_pos heq]
        exact ⟨tree, children, rfl, h, SameBut.refl .., heq.symm, fun _ => rfl, rfl,
          List.takeWhile_prefix _⟩
      · rw [if_neg heq]
        obtain ⟨hfrontStage, before, after, hsplit, hbefore⟩ :=
          List.find?_eq_some_iff_append.mp (List.head?_filter ▸ hfront)
        obtain ⟨tree₁, hunlink, hchildren₁, hnext, hsame₁⟩ :=
          foldlM_unlink h (h.nodup.filter _) fun s hs => List.mem_of_mem_filter hs
        rw [filter_notMem_stages hsplit hfrontStage hbefore] at hchildren₁
        have hall := children_perm hsplit hfrontStage hbefore hperm
        obtain ⟨tree', hrelink, hchildren', hsame'⟩ :=
          relinkStages_children hchildren₁ (hall.nodup_iff.mpr h.nodup)
            (fun s hs => hnext s (hperm.mem_iff.mp hs))
            (hsame₁.nodeCount_eq.symm ▸ hall.length_eq.symm ▸ h.length_le)
        have hpos : tree.getPrevSibling front = some before.getLast? :=
          Children.getPrevSibling_eq (hsplit ▸ h)
        refine ⟨tree', _, ?_, hchildren', hsame₁.trans hsame' fun c hc => hall.mem_iff.mp hc,
          filter_relinked hbefore hperm, fun hkept => absurd hkept heq,
          filter_not_relinked hsplit hfrontStage hbefore hperm, ?_⟩
        · rw [hpos, Option.bind_eq_bind, Option.bind_some, hunlink, Option.bind_eq_bind,
            Option.bind_some, hrelink]
          rfl
        · rw [hsplit, takeWhile_before hfrontStage hbefore, List.append_assoc]
          exact List.prefix_append ..

/-- What it does to the tree is what planning takes it to do to the list of stages. -/
theorem orderStagesByDependencies_refines {R : Type} {plan : StagePipeline R}
    (h : Children tree pipeline children) (hstages : children.filter isStageNode = plan.stages) :
    ∃ result, orderStagesByDependencies tree isStageNode plan.dependencies pipeline = some result ∧
      (∀ e, PathExpansion.orderStagesByDependencies plan = .error e → result = (.failure, tree)) ∧
      ∀ plan', PathExpansion.orderStagesByDependencies plan = .ok plan' →
        result.1 = .success ∧ getStages result.2 isStageNode pipeline = plan'.stages := by
  unfold PathExpansion.orderStagesByDependencies
  split
  · next hloop =>
      refine ⟨_, orderStagesByDependencies_none ((getStages_eq h).trans hstages) hloop,
        fun _ _ => rfl, (fun plan' hok => by cases hok)⟩
  · next ordered hloop =>
      have hperm : ordered.Perm plan.stages := by
        obtain ⟨hnd, hmem, hlen⟩ := placeLoop_perm hloop List.nodup_nil (by simp)
        exact (hnd.subperm hmem).perm_of_length_le (by simp [hlen])
      obtain ⟨tree', children', hrun, hchildren', -, hfilter, -⟩ :=
        orderStagesByDependencies_some h (hstages.symm ▸ hperm) (hstages.symm ▸ hloop)
      refine ⟨_, hrun, (fun e herror => by cases herror), fun plan' hok => ?_⟩
      cases hok
      exact ⟨rfl, (getStages_eq hchildren').trans hfilter⟩

/-- Ordering the stages of a pipeline node fails on a cycle alone, and then leaves the tree as it
is. Otherwise the stages are ordered by their dependencies, an order that will do is kept, the
other children keep theirs, and those that were in front of all stages still are. -/
theorem orderStagesByDependencies_ordersStages (h : Children tree pipeline children)
    (hclosed : ClosedUnder dependencies (children.filter isStageNode)) :
    ∃ result, orderStagesByDependencies tree isStageNode dependencies pipeline = some result ∧
      (result.1 = .failure ↔ ¬ Acyclic (Feeds dependencies (children.filter isStageNode))) ∧
      (result.1 = .failure → result.2 = tree) ∧
      (result.1 = .success → ∃ children',
        Children result.2 pipeline children' ∧ SameBut pipeline children tree result.2 ∧
        Ordered dependencies (children.filter isStageNode) (children'.filter isStageNode) ∧
        ((∀ s ∈ children.filter isStageNode, ∀ t ∈ dependencies s,
            (children.filter isStageNode).idxOf s < (children.filter isStageNode).idxOf t) →
          result.2 = tree) ∧
        children'.filter (!isStageNode ·) = children.filter (!isStageNode ·) ∧
        children.takeWhile (!isStageNode ·) <+: children') := by
  have hnd := h.nodup.filter isStageNode
  cases hloop : placeLoop dependencies (children.filter isStageNode)
      (children.filter isStageNode).length []
      fun s => inDegrees dependencies (children.filter isStageNode) s with
  | none =>
      have hcyclic := placeLoop_cyclic hnd hloop
      refine ⟨_, orderStagesByDependencies_none (getStages_eq h) hloop, ?_, fun _ => rfl, ?_⟩
      · exact ⟨fun _ => hcyclic, fun _ => rfl⟩
      · intro hsuccess
        cases hsuccess
  | some ordered =>
      obtain ⟨hacyclic, hspec, hstable⟩ := placeLoop_ordered hnd hclosed hloop
      obtain ⟨tree', children', hrun, hchildren', hsame, hfilter, hkept, hothers, hprefix⟩ :=
        orderStagesByDependencies_some h hspec.perm hloop
      refine ⟨_, hrun, ?_, ?_, fun _ => ⟨children', hchildren', hsame, hfilter.symm ▸ hspec,
        fun hold => hkept (hstable hold), hothers, hprefix⟩⟩
      · constructor
        · intro hfailure
          cases hfailure
        · exact fun hcyclic => absurd hacyclic hcyclic
      · intro hfailure
        cases hfailure

/-- A pipeline node `0` with a private node, two stages and another private node. -/
def fourChildren : OperationTree where
  parentNode n := if 1 ≤ n ∧ n ≤ 4 then some 0 else none
  firstChild n := if n = 0 then some 1 else none
  nextSibling n := if 1 ≤ n ∧ n < 4 then some (n + 1) else none
  nodeCount := 5

/-- The same, as a list of stages: stage `3` feeds stage `2` twice. -/
def twoStages : StagePipeline Nat where
  stages := [2, 3]
  operation _ := none
  stageId _ := 0
  dependencies s := if s = 3 then [2, 2] else []
  nextRef := 4
  nodup_stages := by decide
  lt_nextRef := by decide

theorem orderStagesByDependencies_refines_fourChildren :
    ∃ result, orderStagesByDependencies fourChildren (· ∈ [2, 3]) twoStages.dependencies 0 =
        some result ∧
      (∀ e, PathExpansion.orderStagesByDependencies twoStages = .error e →
        result = (.failure, fourChildren)) ∧
      ∀ plan', PathExpansion.orderStagesByDependencies twoStages = .ok plan' →
        result.1 = .success ∧ getStages result.2 (· ∈ [2, 3]) 0 = plan'.stages :=
  orderStagesByDependencies_refines
    (show Children fourChildren 0 [1, 2, 3, 4] from
      ⟨⟨rfl, rfl, rfl, rfl, rfl⟩, by decide, by decide, by decide⟩)
    (by decide)

theorem orderStagesByDependencies_ordersStages_fourChildren :
    ∃ result, orderStagesByDependencies fourChildren (· ∈ [2, 3])
        (fun s => if s = 3 then [2, 2] else []) 0 = some result ∧
      (result.1 = .failure ↔ ¬ Acyclic (Feeds (fun s => if s = 3 then [2, 2] else [])
        ([1, 2, 3, 4].filter (· ∈ [2, 3])))) ∧
      (result.1 = .failure → result.2 = fourChildren) ∧
      (result.1 = .success → ∃ children',
        Children result.2 0 children' ∧ SameBut 0 [1, 2, 3, 4] fourChildren result.2 ∧
        Ordered (fun s => if s = 3 then [2, 2] else []) ([1, 2, 3, 4].filter (· ∈ [2, 3]))
          (children'.filter (· ∈ [2, 3])) ∧
        ((∀ s ∈ [1, 2, 3, 4].filter (· ∈ [2, 3]), ∀ t ∈ (if s = 3 then [2, 2] else []),
            ([1, 2, 3, 4].filter (· ∈ [2, 3])).idxOf s <
              ([1, 2, 3, 4].filter (· ∈ [2, 3])).idxOf t) → result.2 = fourChildren) ∧
        children'.filter (fun c => !decide (c ∈ [2, 3])) = [1, 2, 3, 4].filter (fun c => !decide (c ∈ [2, 3])) ∧
        [1, 2, 3, 4].takeWhile (fun c => !decide (c ∈ [2, 3])) <+: children') :=
  orderStagesByDependencies_ordersStages
    ⟨⟨rfl, rfl, rfl, rfl, rfl⟩, by decide, by decide, by decide⟩ (by decide)

example : (orderStagesByDependencies fourChildren (· ∈ [2, 3])
    (fun s => if s = 3 then [2, 2] else []) 0).map
      (fun result => siblingsFrom result.2 5 (result.2.firstChild 0)) = some [1, 3, 2, 4] := by
  decide +kernel

end PipelineNode

end DataflowScheduler
