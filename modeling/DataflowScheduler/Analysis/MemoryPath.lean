import DataflowScheduler.Analysis.MemoryTree
import DataflowScheduler.Util.Forest

/-!
# Paths in the memory hierarchy

`MemoryTree::getPath` climbs from the source to the root, then from the target until it meets one of
the ancestors found, and joins the two climbs. Its loops are as long as the tree is high, so the
number of nodes is fuel enough; `none` is a lookup that misses, or a climb without end.
-/

namespace DataflowScheduler

namespace MemoryTree

variable {R : Type} (tree : MemoryTree R)

/-- The loop that fills `source_ancestors`, whose depths are not used. -/
def collectAncestors : Nat → NodeId → Option (List NodeId)
  | 0, _ => none
  | steps + 1, current => do
      let node ← tree.getNode current
      match node.parent with
      | none => some [current]
      | some parent => (collectAncestors steps parent).map (current :: ·)

/-- The loop that finds the common ancestor, with the nodes it passes. -/
def climbToAncestor (sourceAncestors : List NodeId) :
    Nat → NodeId → List NodeId → Option (NodeId × List NodeId)
  | 0, _, _ => none
  | steps + 1, current, targetToAncestor => do
      let node ← tree.getNode current
      match node.parent with
      | none => some (current, targetToAncestor)
      | some parent =>
          if parent ∈ sourceAncestors then some (parent, targetToAncestor ++ [parent])
          else climbToAncestor sourceAncestors steps parent (targetToAncestor ++ [parent])

/-- The climb from the source to the common ancestor. -/
def climbTo (commonAncestor : NodeId) : Nat → NodeId → List NodeId → Option (List NodeId)
  | 0, _, _ => none
  | steps + 1, current, path =>
      if current = commonAncestor then some path
      else do
        let node ← tree.getNode current
        let parent ← node.parent
        climbTo commonAncestor steps parent (path ++ [parent])

/-- `getPath`. -/
def getPath (source target : NodeId) : Option (List NodeId) :=
  if (tree.getNode source).isNone || (tree.getNode target).isNone then some []
  else do
    let sourceAncestors ← tree.collectAncestors tree.nodes.length source
    let (current, targetToAncestor) ←
      tree.climbToAncestor sourceAncestors tree.nodes.length target [target]
    if current ∉ sourceAncestors then some []
    else do
      let path ← tree.climbTo current tree.nodes.length source [source]
      some (path ++ targetToAncestor.reverse.filter (· ≠ current))

/-- The parent of a node. -/
def parentOf (id : NodeId) : Option NodeId := (tree.getNode id).bind MemoryNode.parent

/-- Parents are nodes, and no node is its own ancestor. -/
structure IsForest : Prop where
  parent_known : ∀ node ∈ tree.nodes, ∀ parent ∈ node.parent, (tree.getNode parent).isSome
  acyclic : Acyclic (Forest.Up tree.parentOf)

open Forest (Up Above)

theorem parentOf_eq {id : NodeId} {node : MemoryNode R} (h : tree.getNode id = some node) :
    tree.parentOf id = node.parent := by
  rw [parentOf, h]
  rfl

variable {tree}

namespace IsForest

variable (h : tree.IsForest)

include h

theorem known_parent {id parent : NodeId} (hup : tree.parentOf id = some parent) :
    (tree.getNode parent).isSome := by
  obtain ⟨node, hnode, hparent⟩ := Option.bind_eq_some_iff.mp hup
  exact h.parent_known node (tree.mem_nodes_of_getNode hnode) parent hparent

/-- A bound on the steps of a climb: fewer than there are nodes, and fewer from the parent. -/
theorem exists_height : ∃ height : NodeId → Nat,
    (∀ id, (tree.getNode id).isSome → height id < tree.nodes.length) ∧
      ∀ id parent, tree.parentOf id = some parent → height parent < height id := by
  obtain ⟨rank, hlt, hup⟩ := h.acyclic.flip.exists_rank tree.getAllNodeIds
  have hmem : ∀ id, (tree.getNode id).isSome → id ∈ tree.getAllNodeIds := by
    intro id hid
    obtain ⟨node, hnode⟩ := Option.isSome_iff_exists.mp hid
    have := List.find?_some hnode
    exact List.mem_map.mpr ⟨node, tree.mem_nodes_of_getNode hnode, by simpa using this⟩
  refine ⟨rank, fun id hid => ?_, fun id parent hparent => ?_⟩
  · have := hlt id (hmem id hid)
    rwa [getAllNodeIds, List.length_map] at this
  · exact hup parent (hmem parent (h.known_parent hparent)) id hparent

/-- Enough steps lead from a node to the root, past all its ancestors. -/
theorem collectAncestors_eq_some {height : NodeId → Nat}
    (hheight : ∀ id parent, tree.parentOf id = some parent → height parent < height id)
    {steps : Nat} {current : NodeId} (hcurrent : (tree.getNode current).isSome)
    (hsteps : height current < steps) :
    ∃ ancestors, tree.collectAncestors steps current = some ancestors ∧
      ∀ x, x ∈ ancestors ↔ Above tree.parentOf current x := by
  induction steps generalizing current with
  | zero => omega
  | succ steps ih =>
      obtain ⟨node, hnode⟩ := Option.isSome_iff_exists.mp hcurrent
      have hparent := tree.parentOf_eq hnode
      rw [collectAncestors, hnode]
      cases hup : node.parent with
      | none =>
          refine ⟨[current], by simp [hup], fun x => ?_⟩
          rw [List.mem_singleton]
          exact ⟨fun heq => heq ▸ .refl x, fun habove => habove.eq_of_root (hparent.trans hup)⟩
      | some parent =>
          rw [hup] at hparent
          obtain ⟨ancestors, hancestors, hmem⟩ := ih (h.known_parent hparent)
            (by have := hheight _ _ hparent; omega)
          refine ⟨current :: ancestors, by simp [hup, hancestors], fun x => ?_⟩
          rw [List.mem_cons, hmem]
          constructor
          · rintro (rfl | habove)
            · exact .refl x
            · exact .trans (.of_parent hparent) habove
          · intro habove
            rcases Relation.ReflTransGen.cases_head habove with heq | ⟨next, hnext, habove⟩
            · exact .inl heq.symm
            · cases hparent.symm.trans hnext
              exact .inr habove

/-- The climb from the target ends at the first ancestor that is one of the source, or else at the
root. The target itself is not looked at. -/
theorem climbToAncestor_eq_some {height : NodeId → Nat}
    (hheight : ∀ id parent, tree.parentOf id = some parent → height parent < height id)
    (sourceAncestors : List NodeId) {steps : Nat} {current : NodeId}
    (hcurrent : (tree.getNode current).isSome) (hsteps : height current < steps)
    (passed : List NodeId) :
    ∃ top downs, tree.climbToAncestor sourceAncestors steps current passed =
        some (top, passed ++ downs.tail) ∧
      Walk (Up tree.parentOf) current top downs ∧
      (∀ x ∈ downs.tail, x ∈ sourceAncestors → x = top) ∧
      (tree.parentOf top = none ∨ top ∈ downs.tail ∧ top ∈ sourceAncestors) := by
  induction steps generalizing current passed with
  | zero => omega
  | succ steps ih =>
      obtain ⟨node, hnode⟩ := Option.isSome_iff_exists.mp hcurrent
      have hparent := tree.parentOf_eq hnode
      rw [climbToAncestor, hnode]
      cases hup : node.parent with
      | none => exact ⟨current, [current], by simp [hup], .refl current, by simp,
          .inl (hparent.trans hup)⟩
      | some parent =>
          rw [hup] at hparent
          by_cases hmem : parent ∈ sourceAncestors
          · exact ⟨parent, [current, parent], by simp [hup, hmem], .step hparent (.refl parent),
              by simp, .inr ⟨by simp, hmem⟩⟩
          · obtain ⟨top, downs, hclimb, hwalk, honly, hend⟩ := ih (h.known_parent hparent)
              (by have := hheight _ _ hparent; omega) (passed ++ [parent])
            have hdowns := hwalk.eq_cons
            refine ⟨top, current :: downs, ?_, .step hparent hwalk, fun x hx hsource => ?_, ?_⟩
            · simp only [hup, hmem, Option.bind_eq_bind, Option.bind_some, if_false, hclimb]
              rw [List.append_assoc]
              show some (top, passed ++ parent :: downs.tail) = some (top, passed ++ downs)
              rw [← hdowns]
            · rw [List.tail_cons, hdowns] at hx
              rcases List.mem_cons.mp hx with rfl | hx
              · exact absurd hsource hmem
              · exact honly x hx hsource
            · exact hend.imp_right fun ⟨htail, hsource⟩ => ⟨List.mem_of_mem_tail htail, hsource⟩

/-- A climb to an ancestor finds its way. -/
theorem climbTo_eq_some {height : NodeId → Nat}
    (hheight : ∀ id parent, tree.parentOf id = some parent → height parent < height id)
    {steps : Nat} {current top : NodeId} {ups : List NodeId}
    (hwalk : Walk (Up tree.parentOf) current top ups) (hsteps : height current < steps)
    (passed : List NodeId) :
    tree.climbTo top steps current passed = some (passed ++ ups.tail) := by
  induction hwalk generalizing steps passed with
  | refl current =>
      cases steps with
      | zero => omega
      | succ steps => simp [climbTo]
  | @step current parent top ups hparent hwalk ih =>
      cases steps with
      | zero => omega
      | succ steps =>
          have hlt := hheight _ _ hparent
          have hne : current ≠ top := by
            rintro rfl
            exact h.acyclic current (Relation.TransGen.head' hparent hwalk.reflTransGen)
          obtain ⟨node, hnode, hup⟩ := Option.bind_eq_some_iff.mp hparent
          rw [climbTo, if_neg hne]
          simp only [hnode, hup, Option.bind_eq_bind, Option.bind_some]
          rw [ih (by omega), List.append_assoc]
          show some (passed ++ parent :: ups.tail) = some (passed ++ ups)
          rw [← hwalk.eq_cons]

/-- The nodes of a climb without the last, from the top down. -/
theorem filter_reverse_climb {bottom top : NodeId} {downs : List NodeId}
    (hwalk : Walk (Up tree.parentOf) bottom top downs) :
    downs.reverse.filter (· ≠ top) = downs.reverse.tail := by
  have hnodup := List.nodup_reverse.mpr (Forest.nodup_of_climb h.acyclic hwalk)
  rw [hwalk.reverse.eq_cons] at hnodup ⊢
  rw [List.filter_cons_of_neg (by simp), List.tail_cons, List.filter_eq_self]
  rintro x hx
  exact decide_eq_true fun heq => (List.nodup_cons.mp hnodup).1 (heq ▸ hx)

/-- What `getPath` returns: the two climbs joined, at the first node above the target that is above
the source, or at the root of the target. -/
theorem getPath_eq_some {source target : NodeId} (hsource : (tree.getNode source).isSome)
    (htarget : (tree.getNode target).isSome) :
    ∃ top downs, Walk (Up tree.parentOf) target top downs ∧
      (∀ x ∈ downs.tail, Above tree.parentOf source x → x = top) ∧
      (tree.parentOf top = none ∨ top ∈ downs.tail ∧ Above tree.parentOf source top) ∧
      (¬ Above tree.parentOf source top → tree.getPath source target = some []) ∧
      ∀ ups, Walk (Up tree.parentOf) source top ups →
        tree.getPath source target = some (Forest.join ups downs) := by
  obtain ⟨height, hlt, hheight⟩ := h.exists_height
  obtain ⟨ancestors, hancestors, hmem⟩ :=
    h.collectAncestors_eq_some hheight hsource (hlt source hsource)
  obtain ⟨top, downs, hclimb, hwalk, honly, hend⟩ :=
    h.climbToAncestor_eq_some hheight ancestors htarget (hlt target htarget) [target]
  have hdowns : [target] ++ downs.tail = downs := hwalk.eq_cons.symm
  rw [hdowns] at hclimb
  simp only [hmem] at honly hend
  have hknown : ((tree.getNode source).isNone || (tree.getNode target).isNone) = false := by
    simp [hsource, htarget]
  refine ⟨top, downs, hwalk, honly, hend, fun hnot => ?_, fun ups hups => ?_⟩
  · rw [getPath, if_neg (by simp [hknown]), hancestors]
    simp [hclimb, hmem, hnot]
  · have habove : Above tree.parentOf source top := hups.reflTransGen
    have hclimbTo := h.climbTo_eq_some hheight hups (hlt source hsource) [source]
    rw [show [source] ++ ups.tail = ups from hups.eq_cons.symm] at hclimbTo
    rw [getPath, if_neg (by simp [hknown]), hancestors]
    simp only [Option.bind_eq_bind, Option.bind_some, hclimb, hmem, habove, not_true_eq_false,
      if_false, hclimbTo, h.filter_reverse_climb hwalk, Forest.join]

end IsForest

open Forest (IsPath SameTree IsLowestCommonAncestor)

/-- What a path query answers: between nodes of one tree the path through the lowest common ancestor,
which is the only one that repeats no node, and nothing between nodes of different trees. -/
structure FindsPath (tree : MemoryTree R) (source target : NodeId) : Prop where
  path : SameTree tree.parentOf source target →
    ∃ path, tree.getPath source target = some path ∧ IsPath tree.parentOf source target path ∧
      (∀ other, IsPath tree.parentOf source target other → other = path) ∧
      ∃ top ∈ path, IsLowestCommonAncestor tree.parentOf source target top
  empty : tree.getPath source target = some [] ↔ ¬ SameTree tree.parentOf source target

/-- `getPath` finds the path unless the target is the source or an ancestor of it. Then it climbs on
to the parent of the target and returns, and finds the path only if there is no parent. -/
theorem getPath_findsPath_iff (h : tree.IsForest) {source target : NodeId}
    (hsource : (tree.getNode source).isSome) (htarget : (tree.getNode target).isSome) :
    tree.FindsPath source target ↔
      ¬ Above tree.parentOf source target ∨ tree.parentOf target = none := by
  obtain ⟨top, downs, hwalk, honly, hend, hempty, hjoin⟩ := h.getPath_eq_some hsource htarget
  constructor
  · -- climbing past the target repeats it
    intro hfinds
    by_contra hcon
    push Not at hcon
    obtain ⟨habove, hparent⟩ := hcon
    cases hwalk with
    | refl =>
        rcases hend with hroot | ⟨hmem, -⟩
        · exact hparent hroot
        · cases hmem
    | @step _ parent _ rest hup hrest =>
        have hmem : parent ∈ rest := hrest.eq_cons ▸ List.mem_cons_self
        cases honly parent hmem (habove.trans (.of_parent hup))
        cases Forest.climb_unique h.acyclic hrest (.refl top)
        obtain ⟨ups, hups⟩ :=
          Walk.exists_of_reflTransGen (habove.trans (.of_parent hup) : Above tree.parentOf source top)
        obtain ⟨path, hpath, hispath, -⟩ := hfinds.path ⟨target, habove, .refl target⟩
        rw [hjoin ups hups] at hpath
        cases hpath
        have hpassed := (Forest.mem_climb h.acyclic hups).mpr ⟨habove, .of_parent hup⟩
        exact (List.nodup_append.mp hispath.nodup).2.2 target hpassed target (by simp) rfl
  · intro hcond
    have hlowest : ∀ x, Above tree.parentOf source x → Above tree.parentOf target x →
        IsLowestCommonAncestor tree.parentOf source target top := by
      intro x hsx htx
      have hst : Above tree.parentOf source top := by
        rcases hend with hroot | ⟨-, hst⟩
        · rcases Above.total htx hwalk.reflTransGen with hle | hle
          · exact hsx.trans hle
          · rwa [← hle.eq_of_root hroot]
        · exact hst
      refine ⟨hst, hwalk.reflTransGen, fun y hsy hty => ?_⟩
      rcases Above.total (hwalk.reflTransGen : Above tree.parentOf target top) hty with hle | hle
      · exact hle
      · have hmem := (Forest.mem_climb h.acyclic hwalk).mpr ⟨hty, hle⟩
        rw [hwalk.eq_cons] at hmem
        rcases List.mem_cons.mp hmem with rfl | hmem
        · -- the target is above the source, so it is a root
          have hroot := hcond.resolve_left (not_not.mpr hsy)
          rw [hle.eq_of_root hroot]
          exact .refl y
        · rw [honly y hmem hsy]
          exact .refl top
    have hpath : SameTree tree.parentOf source target →
        ∃ path, tree.getPath source target = some path ∧
          IsPath tree.parentOf source target path ∧
          (∀ other, IsPath tree.parentOf source target other → other = path) ∧
          ∃ top ∈ path, IsLowestCommonAncestor tree.parentOf source target top := by
      rintro ⟨x, hsx, htx⟩
      have hlow := hlowest x hsx htx
      obtain ⟨ups, hups⟩ := Walk.exists_of_reflTransGen hlow.left
      exact ⟨Forest.join ups downs, hjoin ups hups, Forest.isPath_join h.acyclic hups hwalk hlow,
        fun other hother => Forest.eq_join_of_isPath h.acyclic hups hwalk hlow hother, top,
        List.mem_append_left _ (List.mem_of_getLast? hups.getLast?), hlow⟩
    refine ⟨hpath, fun hnil hsame => ?_, fun hnot => hempty fun hst => hnot ⟨top, hst, ?_⟩⟩
    · obtain ⟨path, hsome, hispath, -⟩ := hpath hsame
      cases hsome.symm.trans hnil
      cases hispath.head
    · exact hwalk.reflTransGen

/-- A device memory with one scratchpad, which holds a register file. -/
def scratchpadTree : MemoryTree Nat where
  nodes := [⟨0, 100, none, none, [1], none, none⟩, ⟨1, 101, none, some 0, [2], none, none⟩,
    ⟨2, 102, none, some 1, [], none, none⟩]
  resourceToNode := fun r => if r = 100 then some 0 else if r = 101 then some 1
    else if r = 102 then some 2 else none
  aliasToNode := fun _ => none
  nodup_ids := by decide
  isSome_resourceToNode := by decide
  resource_of_resourceToNode := by
    intro resource id h
    split at h
    · cases h
      exact ⟨_, .head _, rfl, by simp_all⟩
    · split at h
      · cases h
        exact ⟨_, .tail _ (.head _), rfl, by simp_all⟩
      · split at h
        · cases h
          exact ⟨_, .tail _ (.tail _ (.head _)), rfl, by simp_all⟩
        · cases h

theorem isForest_scratchpadTree : scratchpadTree.IsForest where
  parent_known := by decide
  acyclic := by
    refine Acyclic.flip (Acyclic.of_rank id fun a b hup => ?_)
    obtain ⟨node, hnode, hparent⟩ := Option.bind_eq_some_iff.mp hup
    have hid : node.id = b := by simpa using List.find?_some hnode
    have hlt : ∀ node ∈ scratchpadTree.nodes, ∀ parent ∈ node.parent, parent < node.id := by decide
    exact hid ▸ hlt node (scratchpadTree.mem_nodes_of_getNode hnode) a hparent

theorem getPath_findsPath_iff_down :
    scratchpadTree.getPath 0 2 = some [0, 1, 2] ∧ scratchpadTree.FindsPath 0 2 :=
  ⟨by decide, (getPath_findsPath_iff isForest_scratchpadTree (by decide) (by decide)).mpr
    (.inl fun habove => absurd (habove.eq_of_root (by decide)) (by decide))⟩

/-- The path from the scratchpad to itself goes over the device memory. -/
theorem not_findsPath_self : ¬ ∀ (tree : MemoryTree Nat), tree.IsForest →
    ∀ source target, (tree.getNode source).isSome → (tree.getNode target).isSome →
      tree.FindsPath source target := by
  intro hfinds
  obtain ⟨path, hpath, hispath, -⟩ :=
    (hfinds scratchpadTree isForest_scratchpadTree 1 1 (by decide) (by decide)).path
      ⟨1, .refl 1, .refl 1⟩
  cases (by decide : scratchpadTree.getPath 1 1 = some [1, 0, 1]).symm.trans hpath
  exact absurd hispath.nodup (by decide)

end MemoryTree

end DataflowScheduler
