import DataflowScheduler.Util.LinkedList
import Mathlib.Data.Option.Basic

/-!
# Trees of operations

A node of an `OperationTree` points to its parent, its first child and its next sibling. Relinking
nodes is done on these pointers.
-/

namespace DataflowScheduler

/-- An `OperationTreeNode*`. -/
abbrev NodeRef := Nat

/-- The links of all `OperationTreeNode`s. A walk along siblings meets `nodeCount` nodes at most. -/
structure OperationTree where
  parentNode : NodeRef → Option NodeRef
  firstChild : NodeRef → Option NodeRef
  nextSibling : NodeRef → Option NodeRef
  nodeCount : Nat

namespace OperationTree

def setParentNode (tree : OperationTree) (n : NodeRef) (p : Option NodeRef) : OperationTree :=
  { tree with parentNode := Function.update tree.parentNode n p }

def setFirstChild (tree : OperationTree) (n : NodeRef) (c : Option NodeRef) : OperationTree :=
  { tree with firstChild := Function.update tree.firstChild n c }

def setNextSibling (tree : OperationTree) (n : NodeRef) (s : Option NodeRef) : OperationTree :=
  { tree with nextSibling := Function.update tree.nextSibling n s }

def isLeaf (tree : OperationTree) (n : NodeRef) : Bool := tree.firstChild n = none

/-- The walk of `getLastChild`. -/
def lastFrom (tree : OperationTree) : Nat → NodeRef → NodeRef
  | 0, child => child
  | fuel + 1, child =>
      match tree.nextSibling child with
      | none => child
      | some next => lastFrom tree fuel next

def getLastChild (tree : OperationTree) (n : NodeRef) : Option NodeRef :=
  (tree.firstChild n).map (lastFrom tree tree.nodeCount)

/-- The walk of `getPrevSibling`. -/
def prevFrom (tree : OperationTree) (n : NodeRef) : Nat → Option NodeRef → Option NodeRef
  | 0, _ => none
  | _ + 1, none => none
  | fuel + 1, some prev =>
      if tree.nextSibling prev = some n then some prev
      else prevFrom tree n fuel (tree.nextSibling prev)

/-- `getPrevSibling`. The outer `none` is the failed assertion that there is a parent. -/
def getPrevSibling (tree : OperationTree) (n : NodeRef) : Option (Option NodeRef) := do
  let parent ← tree.parentNode n
  if tree.firstChild parent = some n then some none
  else some (tree.prevFrom n tree.nodeCount (tree.firstChild parent))

/-- `unlink`. -/
def unlink (tree : OperationTree) (n : NodeRef) : Option OperationTree := do
  let tree ← match ← tree.getPrevSibling n with
    | some prev => some (tree.setNextSibling prev (tree.nextSibling n))
    | none => do
      let parent ← tree.parentNode n
      some (tree.setFirstChild parent (tree.nextSibling n))
  some ((tree.setNextSibling n none).setParentNode n none)

/-- `insertChildNode`. `none` is a failed assertion. -/
def insertChildNode (tree : OperationTree) (n child : NodeRef) (pos : Option NodeRef) :
    Option OperationTree := do
  let tree ←
    if tree.isLeaf n then
      if pos = none then some (tree.setFirstChild n (some child)) else none
    else
      match pos with
      | some pos =>
          if tree.parentNode pos = some n then
            some ((tree.setNextSibling pos (some child)).setNextSibling child
              (tree.nextSibling pos))
          else none
      | none => do
          let last ← tree.getLastChild n
          some (tree.setNextSibling last (some child))
  some (tree.setParentNode child (some n))

/-- `insertAsFirstChild`. -/
def insertAsFirstChild (tree : OperationTree) (n child : NodeRef) : OperationTree :=
  let tree' := match tree.firstChild n with
    | some oldFirstChild => tree.setNextSibling child (some oldFirstChild)
    | none => tree
  (tree'.setFirstChild n (some child)).setParentNode child (some n)

/-- The loop of `unlinkNode`: a chain of children gets another parent, and what comes behind it. -/
def adoptFrom (tree : OperationTree) (parent : NodeRef) (lastChild next : Option NodeRef) :
    Nat → Option NodeRef → OperationTree
  | 0, _ => tree
  | _ + 1, none => tree
  | fuel + 1, some child =>
      let tree := tree.setParentNode child (some parent)
      if some child = lastChild then tree.setNextSibling child next
      else adoptFrom tree parent lastChild next fuel (tree.nextSibling child)

/-- What stands behind a previous sibling, or at the front of a parent's children. -/
def setBehind (tree : OperationTree) (parent : NodeRef) (prevSibling start : Option NodeRef) :
    OperationTree :=
  match prevSibling with
  | some prevSibling => tree.setNextSibling prevSibling start
  | none => tree.setFirstChild parent start

/-- `unlinkNode`. A root is left alone. -/
def unlinkNode (tree : OperationTree) (n : NodeRef) : Option OperationTree :=
  match tree.parentNode n with
  | none => some tree
  | some parent => do
      let prevSibling ← tree.getPrevSibling n
      let nextSibling := tree.nextSibling n
      let firstChild := tree.firstChild n
      let lastChild := tree.getLastChild n
      let tree :=
        if firstChild.isSome then
          (tree.setBehind parent prevSibling firstChild).adoptFrom parent lastChild nextSibling
            tree.nodeCount firstChild
        else tree.setBehind parent prevSibling nextSibling
      some (((tree.setFirstChild n none).setNextSibling n none).setParentNode n none)

/-! ## The children of a node -/

/-- The children of a node, in the order in which they are linked. -/
structure Children (tree : OperationTree) (parent : NodeRef) (children : List NodeRef) : Prop where
  linked : Linked tree.nextSibling (tree.firstChild parent) children
  nodup : children.Nodup
  parentNode_eq : ∀ c ∈ children, tree.parentNode c = some parent
  length_le : children.length ≤ tree.nodeCount

/-- Nothing but the links of the given children and the list's start have changed. -/
structure SameBut (parent : NodeRef) (children : List NodeRef) (tree tree' : OperationTree) :
    Prop where
  parentNode_eq : ∀ n ∉ children, tree'.parentNode n = tree.parentNode n
  nextSibling_eq : ∀ n ∉ children, tree'.nextSibling n = tree.nextSibling n
  firstChild_eq : ∀ n ≠ parent, tree'.firstChild n = tree.firstChild n
  nodeCount_eq : tree'.nodeCount = tree.nodeCount

namespace SameBut

variable {parent : NodeRef} {children children' : List NodeRef} {tree tree' tree'' : OperationTree}

theorem refl (parent : NodeRef) (children : List NodeRef) (tree : OperationTree) :
    SameBut parent children tree tree :=
  ⟨fun _ _ => rfl, fun _ _ => rfl, fun _ _ => rfl, rfl⟩

theorem trans (h : SameBut parent children tree tree')
    (h' : SameBut parent children' tree' tree'') (hsub : ∀ c ∈ children', c ∈ children) :
    SameBut parent children tree tree'' where
  parentNode_eq n hn :=
    (h'.parentNode_eq n fun hmem => hn (hsub n hmem)).trans (h.parentNode_eq n hn)
  nextSibling_eq n hn :=
    (h'.nextSibling_eq n fun hmem => hn (hsub n hmem)).trans (h.nextSibling_eq n hn)
  firstChild_eq n hn := (h'.firstChild_eq n hn).trans (h.firstChild_eq n hn)
  nodeCount_eq := h'.nodeCount_eq.trans h.nodeCount_eq

theorem mono (h : SameBut parent children tree tree') (hsub : ∀ c ∈ children, c ∈ children') :
    SameBut parent children' tree tree' where
  parentNode_eq n hn := h.parentNode_eq n fun hmem => hn (hsub n hmem)
  nextSibling_eq n hn := h.nextSibling_eq n fun hmem => hn (hsub n hmem)
  firstChild_eq := h.firstChild_eq
  nodeCount_eq := h.nodeCount_eq

end SameBut

namespace Children

variable {tree : OperationTree} {parent n : NodeRef} {before after : List NodeRef}

/-- The walk finds the sibling in front. -/
theorem prevFrom_eq {prev : NodeRef} {fuel : Nat} {start : Option NodeRef}
    (h : Linked tree.nextSibling start (before ++ prev :: n :: after))
    (hnd : (before ++ prev :: n :: after).Nodup) (hfuel : before.length < fuel) :
    tree.prevFrom n fuel start = some prev := by
  induction before generalizing fuel start with
  | nil =>
      obtain ⟨hstart, hprev, -⟩ := h
      obtain ⟨fuel, rfl⟩ : ∃ k, fuel = k + 1 := ⟨fuel - 1, by simp at hfuel; omega⟩
      rw [hstart, prevFrom, if_pos hprev]
  | cons b before ih =>
      obtain ⟨hstart, hrest⟩ := h
      obtain ⟨fuel, rfl⟩ : ∃ k, fuel = k + 1 := ⟨fuel - 1, by omega⟩
      have hnd' := (List.nodup_cons.mp hnd).2
      rw [hstart, prevFrom, if_neg, ih hrest hnd' (by simpa using hfuel)]
      -- the next one is still in front of the node
      rw [hrest.head?_eq]
      intro heq
      cases before with
      | nil =>
          cases heq
          simp at hnd'
      | cons c before =>
          cases heq
          simp at hnd'

theorem getPrevSibling_eq (h : Children tree parent (before ++ n :: after)) :
    tree.getPrevSibling n = some before.getLast? := by
  have hparent : tree.parentNode n = some parent := h.parentNode_eq n (by simp)
  rw [getPrevSibling, hparent]
  show (if tree.firstChild parent = some n then some none
    else some (tree.prevFrom n tree.nodeCount (tree.firstChild parent))) = _
  rcases List.eq_nil_or_concat before with hnil | ⟨before, prev, hconcat⟩
  · subst hnil
    rw [if_pos h.linked.1]
    rfl
  · subst hconcat
    have heq : before.concat prev ++ n :: after = before ++ prev :: n :: after := by simp
    rw [heq] at h
    rw [if_neg, prevFrom_eq h.linked h.nodup, List.concat_eq_append, List.getLast?_concat]
    · have := h.length_le
      simp only [List.length_append, List.length_cons] at this
      omega
    · rw [h.linked.head?_eq]
      intro hhead
      have hnd := h.nodup
      cases before with
      | nil =>
          cases hhead
          simp at hnd
      | cons b before =>
          cases hhead
          simp at hnd

/-- Unlinking takes one child off the list. -/
theorem unlink (h : Children tree parent (before ++ n :: after)) :
    ∃ tree', tree.unlink n = some tree' ∧ Children tree' parent (before ++ after) ∧
      tree'.nextSibling n = none ∧ SameBut parent (before ++ n :: after) tree tree' := by
  have hparent : tree.parentNode n = some parent := h.parentNode_eq n (by simp)
  have hnew : n ∉ before ++ after := (List.nodup_middle.mp h.nodup |> List.nodup_cons.mp).1
  have hnd : (before ++ after).Nodup := (List.nodup_middle.mp h.nodup |> List.nodup_cons.mp).2
  have hlen := h.length_le
  have hmem : ∀ c ∈ before ++ after, c ∈ before ++ n :: after := by
    intro c hc
    simp only [List.mem_append, List.mem_cons] at hc ⊢
    tauto
  have hlen' : (before ++ after).length ≤ tree.nodeCount := by
    simp only [List.length_append, List.length_cons] at hlen ⊢
    omega
  have hparents : ∀ c ∈ before ++ after,
      Function.update tree.parentNode n none c = some parent := by
    intro c hc
    rw [Function.update_of_ne (ne_of_mem_of_not_mem hc hnew)]
    exact h.parentNode_eq c (hmem c hc)
  rw [OperationTree.unlink, h.getPrevSibling_eq]
  rcases List.eq_nil_or_concat before with hnil | ⟨before, prev, hconcat⟩
  · subst hnil
    refine ⟨((tree.setFirstChild parent (tree.nextSibling n)).setNextSibling n none).setParentNode
      n none, by simp [hparent], ⟨?_, hnd, hparents, hlen'⟩, ?_, ?_⟩
    · show Linked (Function.update tree.nextSibling n none)
        (Function.update tree.firstChild parent (tree.nextSibling n) parent) after
      rw [Function.update_self]
      apply h.linked.2.congr
      intro c hc
      exact Function.update_of_ne (ne_of_mem_of_not_mem hc hnew) ..
    · exact Function.update_self ..
    · refine ⟨fun m hm => ?_, fun m hm => ?_, fun m hm => ?_, rfl⟩
      · exact Function.update_of_ne (ne_of_mem_of_not_mem List.mem_cons_self hm).symm ..
      · exact Function.update_of_ne (ne_of_mem_of_not_mem List.mem_cons_self hm).symm ..
      · exact Function.update_of_ne hm ..
  · subst hconcat
    rw [List.concat_eq_append] at *
    rw [List.getLast?_concat]
    have hlinked := h.linked
    have hnodup := h.nodup
    rw [List.append_assoc, List.singleton_append] at hlinked hnodup
    refine ⟨_, rfl, ⟨?_, hnd, hparents, hlen'⟩, ?_, ?_⟩
    · rw [List.append_assoc, List.singleton_append]
      exact hlinked.unlink hnodup
    · exact Function.update_self ..
    · refine ⟨fun m hm => ?_, fun m hm => ?_, fun m hm => rfl, rfl⟩
      · exact Function.update_of_ne (ne_of_mem_of_not_mem (by simp) hm).symm ..
      · show Function.update (Function.update tree.nextSibling prev (tree.nextSibling n)) n none m = _
        rw [Function.update_of_ne (ne_of_mem_of_not_mem (by simp) hm).symm,
          Function.update_of_ne (ne_of_mem_of_not_mem (by simp) hm).symm]

/-- Inserting behind a child puts a node on the list. -/
theorem insertChildNode {pos : NodeRef} (h : Children tree parent (before ++ pos :: after))
    (hnew : n ∉ before ++ pos :: after)
    (hlen : (before ++ pos :: n :: after).length ≤ tree.nodeCount) :
    ∃ tree', tree.insertChildNode parent n (some pos) = some tree' ∧
      Children tree' parent (before ++ pos :: n :: after) ∧
      SameBut parent (before ++ pos :: n :: after) tree tree' := by
  have hpos : tree.parentNode pos = some parent := h.parentNode_eq pos (by simp)
  have hleaf : tree.isLeaf parent = false := by
    rw [isLeaf, h.linked.head?_eq]
    cases before <;> rfl
  have hnodup : (before ++ pos :: n :: after).Nodup := by
    have hperm : (before ++ pos :: n :: after).Perm (n :: (before ++ pos :: after)) := by
      rw [List.append_cons, List.append_cons before pos after]
      exact List.perm_middle
    exact hperm.nodup_iff.mpr (List.nodup_cons.mpr ⟨hnew, h.nodup⟩)
  rw [OperationTree.insertChildNode, hleaf]
  refine ⟨((tree.setNextSibling pos (some n)).setNextSibling n
    (tree.nextSibling pos)).setParentNode n (some parent), by simp [hpos], ⟨h.linked.insert h.nodup hnew, hnodup, ?_, hlen⟩, ?_⟩
  · intro c hc
    show Function.update tree.parentNode n (some parent) c = _
    by_cases hcn : c = n
    · rw [hcn, Function.update_self]
    · rw [Function.update_of_ne hcn]
      apply h.parentNode_eq
      simp only [List.mem_append, List.mem_cons] at hc ⊢
      tauto
  · refine ⟨fun m hm => ?_, fun m hm => ?_, fun m hm => rfl, rfl⟩
    · exact Function.update_of_ne (ne_of_mem_of_not_mem (by simp) hm).symm ..
    · show Function.update (Function.update tree.nextSibling pos (some n)) n
        (tree.nextSibling pos) m = _
      rw [Function.update_of_ne (ne_of_mem_of_not_mem (by simp) hm).symm,
        Function.update_of_ne (ne_of_mem_of_not_mem (by simp) hm).symm]

/-- So does inserting in front; a node that becomes an only child must not have a sibling. -/
theorem insertAsFirstChild (h : Children tree parent after) (hnew : n ∉ after)
    (hnext : tree.nextSibling n = none) (hlen : (n :: after).length ≤ tree.nodeCount) :
    Children (tree.insertAsFirstChild parent n) parent (n :: after) ∧
      SameBut parent (n :: after) tree (tree.insertAsFirstChild parent n) := by
  have hlinks : (tree.insertAsFirstChild parent n).nextSibling =
      Function.update tree.nextSibling n (tree.firstChild parent) := by
    rw [OperationTree.insertAsFirstChild]
    cases hfirst : tree.firstChild parent with
    | none =>
        show tree.nextSibling = Function.update tree.nextSibling n none
        rw [← hnext, Function.update_eq_self]
    | some oldFirstChild => rfl
  have hparents : (tree.insertAsFirstChild parent n).parentNode =
      Function.update tree.parentNode n (some parent) := by
    rw [OperationTree.insertAsFirstChild]
    cases tree.firstChild parent <;> rfl
  have hfirsts : (tree.insertAsFirstChild parent n).firstChild =
      Function.update tree.firstChild parent (some n) := by
    rw [OperationTree.insertAsFirstChild]
    cases tree.firstChild parent <;> rfl
  have hcount : (tree.insertAsFirstChild parent n).nodeCount = tree.nodeCount := by
    rw [OperationTree.insertAsFirstChild]
    cases tree.firstChild parent <;> rfl
  refine ⟨⟨?_, List.nodup_cons.mpr ⟨hnew, h.nodup⟩, ?_, hcount ▸ hlen⟩,
    ⟨fun m hm => ?_, fun m hm => ?_, fun m hm => ?_, hcount⟩⟩
  · rw [hlinks, hfirsts, Function.update_self]
    refine ⟨rfl, ?_⟩
    rw [Function.update_self]
    apply h.linked.congr
    intro c hc
    exact Function.update_of_ne (ne_of_mem_of_not_mem hc hnew) ..
  · intro c hc
    rw [hparents]
    by_cases hcn : c = n
    · rw [hcn, Function.update_self]
    · rw [Function.update_of_ne hcn]
      exact h.parentNode_eq c ((List.mem_cons.mp hc).resolve_left hcn)
  · rw [hparents]
    exact Function.update_of_ne (ne_of_mem_of_not_mem List.mem_cons_self hm).symm ..
  · rw [hlinks]
    exact Function.update_of_ne (ne_of_mem_of_not_mem List.mem_cons_self hm).symm ..
  · rw [hfirsts]
    exact Function.update_of_ne hm ..

end Children

end OperationTree

end DataflowScheduler
