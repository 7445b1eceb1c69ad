import DataflowScheduler.Analysis.OperationForest
import DataflowScheduler.Util.RoseEdit

/-!
# The tree of a unit

`PipelineTree::compute` walks over a unit in pre-order. For every selected operation it creates a node,
and links it in below the node of an operation around it, which it searches from the inside out.
-/

namespace DataflowScheduler

namespace PipelineTree

inductive OperationKind
  | forOp
  | pipelineOp
  | stageOp
  | privateOp
  | other
  deriving DecidableEq

/-- An `Operation*`, with what the walk asks of the operation. -/
structure Operation where
  id : Nat
  kind : OperationKind
  deriving DecidableEq

/-- `isOperationSelected`. -/
def isOperationSelected (op : Operation) : Bool := op.kind ≠ .other

/-- The node that an operation gets. Only stages have an id. -/
structure Node where
  operation : Operation
  stageId : Option Nat
  deriving DecidableEq

/-- The tree while it is built: the links and contents of the allocated nodes, and the map from
operations to nodes. -/
structure Computation where
  links : OperationTree
  node : NodeRef → Option Node
  opToNode : Nat → Option NodeRef
  nextRef : NodeRef
  nextStageId : Nat

/-- The first node that is allocated. -/
def root : NodeRef := 0

/-- A tree with a root only. -/
def Computation.empty : Computation where
  links := ⟨fun _ => none, fun _ => none, fun _ => none, 1⟩
  node _ := none
  opToNode _ := none
  nextRef := 1
  nextStageId := 0

/-- One of the factory methods, according to the kind of the operation. -/
def createNode (s : Computation) (op : Operation) : Computation :=
  { links := { s.links with nodeCount := s.links.nodeCount + 1 }
    node := Function.update s.node s.nextRef
      (some ⟨op, if op.kind = .stageOp then some s.nextStageId else none⟩)
    opToNode := Function.update s.opToNode op.id (some s.nextRef)
    nextRef := s.nextRef + 1
    nextStageId := if op.kind = .stageOp then s.nextStageId + 1 else s.nextStageId }

/-- The search for the parent, over the operations around the operation, innermost first. `none` is
the failed assertion that the parent is in the map. -/
def findParent (unit : Operation) (opToNode : Nat → Option NodeRef) :
    List Operation → Option NodeRef
  | [] => some root
  | op :: around =>
      if isOperationSelected op = false then findParent unit opToNode around
      else if op.id = unit.id then some root
      else opToNode op.id

/-- The node below which a new one is linked in. That of the unit is put below the root. -/
def parentFor (unit : Operation) (opToNode : Nat → Option NodeRef)
    (c : Operation × List Operation) : Option NodeRef :=
  if c.1.id = unit.id then some root else findParent unit opToNode c.2

/-- What the walk does at an operation with those around it. -/
def visit (unit : Operation) (s : Computation) (c : Operation × List Operation) :
    Option Computation :=
  if isOperationSelected c.1 = false then some s
  else do
    let node := s.nextRef
    let s := createNode s c.1
    let parent ← parentFor unit s.opToNode c
    let links ← s.links.insertChildNode parent node none
    some { s with links := links }

/-- `PipelineTree::compute`, for a unit below other operations. -/
def compute (unit : Rose Operation) (above : List Operation) : Option Computation :=
  (unit.contexts above).foldlM (visit unit.label) .empty

/-! ## What the tree is to be -/

/-- The selected operations of a unit in program order, each with the selected ones around it inside
the unit, innermost first. -/
def selectedContexts (unit : Rose Operation) : List (Operation × List Operation) :=
  (unit.contexts []).filterMap fun c =>
    if isOperationSelected c.1 then some (c.1, c.2.filter isOperationSelected) else none

/-- The operation of a node. -/
def Computation.operation (s : Computation) (n : NodeRef) : Option Operation :=
  (s.node n).map Node.operation

/-- The nodes below the root are those of the selected operations, in program order, and around a node
are the nodes of the selected operations around its operation. -/
def Computes (unit : Rose Operation) (result : Option Computation) : Prop :=
  ∃ s trees, result = some s ∧ s.links.Represents [.node root trees] ∧
    Rose.contextsList [] (Rose.mapList s.operation trees) =
      (selectedContexts unit).map fun c => (some c.1, c.2.map some)

/-! ## New nodes -/

/-- The links so far, with nothing in the nodes that come next. -/
structure Linking (s : Computation) (forest : List (Rose NodeRef)) : Prop where
  represents : s.links.Represents forest
  lt_nextRef : ∀ n ∈ Rose.preorderList forest, n < s.nextRef
  unlinked : ∀ n, s.nextRef ≤ n → s.links.parentNode n = none ∧ s.links.firstChild n = none ∧
    s.links.nextSibling n = none

theorem linking_empty : Linking .empty [.node root []] where
  represents := by
    refine ⟨by decide, ?_, ?_, ?_, by decide⟩
    · simp [Rose.linksList, Rose.links, Linked, Computation.empty]
    · simp [Rose.linksList, Rose.links]
    · simp [Computation.empty]
  lt_nextRef := by decide
  unlinked _ _ := ⟨rfl, rfl, rfl⟩

section Visit

variable {s : Computation} {unit op : Operation} {around : List Operation}
  {forest : List (Rose NodeRef)} {f : Rose.Frame NodeRef} {fs : List (Rose.Frame NodeRef)}
  {cs : List (Rose NodeRef)}

/-- A new node is a root of its own. -/
theorem Linking.createNode (h : Linking s forest) (op : Operation) :
    Linking (createNode s op) (forest ++ [.node s.nextRef []]) := by
  have hpreorder : Rose.preorderList (forest ++ [.node s.nextRef []]) =
      Rose.preorderList forest ++ [s.nextRef] := by
    rw [← Rose.map_fst_linksList, Rose.linksList_append, List.map_append, Rose.map_fst_linksList]
    rfl
  have hnew : s.nextRef ∉ Rose.preorderList forest := fun hmem =>
    Nat.lt_irrefl _ (h.lt_nextRef _ hmem)
  obtain ⟨hparent, hfirst, hnext⟩ := h.unlinked s.nextRef (Nat.le_refl _)
  refine ⟨⟨?_, ?_, ?_, ?_, ?_⟩, ?_, fun n hn => h.unlinked n (Nat.le_of_succ_le hn)⟩
  · rw [hpreorder, List.nodup_append]
    refine ⟨h.represents.nodup, by simp, fun a ha b hb => ?_⟩
    rw [List.mem_singleton] at hb
    exact hb ▸ ne_of_mem_of_not_mem ha hnew
  · intro q hq
    rw [Rose.linksList_append] at hq
    rcases List.mem_append.mp hq with hq | hq
    · exact h.represents.linked q hq
    · rw [List.mem_singleton.mp hq]
      exact hfirst
  · intro q hq c hc
    rw [Rose.linksList_append] at hq
    rcases List.mem_append.mp hq with hq | hq
    · exact h.represents.parentNode_eq q hq c hc
    · rw [List.mem_singleton.mp hq] at hc
      cases hc
  · intro a ha
    rw [List.map_append] at ha
    rcases List.mem_append.mp ha with ha | ha
    · exact h.represents.root a ha
    · rw [List.mem_singleton.mp ha]
      exact ⟨hparent, hnext⟩
  · rw [hpreorder, List.length_append]
    exact Nat.succ_le_succ h.represents.length_le
  · rw [hpreorder]
    intro n hn
    show n < s.nextRef + 1
    rcases List.mem_append.mp hn with hn | hn
    · exact Nat.lt_succ_of_lt (h.lt_nextRef n hn)
    · rw [List.mem_singleton.mp hn]
      exact Nat.lt_succ_self _

/-- A selected operation becomes the last child of its parent. -/
theorem Linking.visit (h : Linking s (Rose.plug (f :: fs) cs))
    (hselected : isOperationSelected op = true)
    (hparent : parentFor unit (PipelineTree.createNode s op).opToNode (op, around) =
      some f.label) :
    ∃ links, PipelineTree.visit unit s (op, around) =
        some { PipelineTree.createNode s op with links := links } ∧
      Linking { PipelineTree.createNode s op with links := links }
        (Rose.plug (f :: fs) (cs ++ [.node s.nextRef []])) := by
  have hcreated := h.createNode op
  obtain ⟨links, hinsert, hrepresents, hsame⟩ :=
    hcreated.represents.insertChildNode_last (List.append_nil _)
  refine ⟨links, ?_, hrepresents, ?_, ?_⟩
  · rw [PipelineTree.visit, if_neg (by simp [hselected])]
    show (parentFor unit (PipelineTree.createNode s op).opToNode (op, around) >>= _) = _
    rw [hparent]
    show ((PipelineTree.createNode s op).links.insertChildNode f.label s.nextRef none >>= _) = _
    rw [show (PipelineTree.createNode s op).links.insertChildNode f.label s.nextRef none =
      some links from hinsert]
    rfl
  · intro n hn
    show n < s.nextRef + 1
    rcases List.mem_append.mp ((Rose.preorderList_plug_append f fs cs _).mem_iff.mp hn) with hn | hn
    · exact Nat.lt_succ_of_lt (h.lt_nextRef n hn)
    · rw [List.mem_singleton.mp hn]
      exact Nat.lt_succ_self _
  · intro n hn
    change s.nextRef + 1 ≤ n at hn
    -- a node that comes later is neither the parent nor one of its children
    have hlater : n ∉ Rose.preorderList (Rose.plug (f :: fs) cs) := fun hmem =>
      Nat.lt_irrefl n (Nat.lt_trans (h.lt_nextRef n hmem) hn)
    have hlabel : n ≠ f.label := fun heq => hlater (heq ▸ Rose.label_mem_plug f fs cs)
    have hnot : n ∉ (cs ++ [Rose.node s.nextRef []]).map Rose.label := by
      intro hmem
      rw [List.map_append] at hmem
      rcases List.mem_append.mp hmem with hmem | hmem
      · exact hlater (Rose.mem_plug_of_mem f fs (Rose.label_mem_preorderList hmem))
      · exact Nat.ne_of_gt hn (List.mem_singleton.mp hmem)
    obtain ⟨hparent', hfirst, hnext⟩ := hcreated.unlinked n hn
    show links.parentNode n = none ∧ links.firstChild n = none ∧ links.nextSibling n = none
    rw [hsame.parentNode_eq n hnot, hsame.firstChild_eq n hlabel, hsame.nextSibling_eq n hnot]
    exact ⟨hparent', hfirst, hnext⟩

end Visit

/-! ## The walk -/

/-- Nodes are added for the given operations, and nothing else changes. -/
structure Extends (ids : List Nat) (s s' : Computation) : Prop where
  nextRef_le : s.nextRef ≤ s'.nextRef
  node_eq : ∀ n < s.nextRef, s'.node n = s.node n
  opToNode_eq : ∀ id ∉ ids, s'.opToNode id = s.opToNode id

theorem Extends.refl (ids : List Nat) (s : Computation) : Extends ids s s :=
  ⟨Nat.le_refl _, fun _ _ => rfl, fun _ _ => rfl⟩

theorem Extends.trans {ids ids' : List Nat} {s s' s'' : Computation} (h : Extends ids s s')
    (h' : Extends ids' s' s'') : Extends (ids ++ ids') s s'' where
  nextRef_le := Nat.le_trans h.nextRef_le h'.nextRef_le
  node_eq n hn := (h'.node_eq n (Nat.lt_of_lt_of_le hn h.nextRef_le)).trans (h.node_eq n hn)
  opToNode_eq id hid := by
    rw [List.mem_append] at hid
    exact (h'.opToNode_eq id fun hmem => hid (Or.inr hmem)).trans
      (h.opToNode_eq id fun hmem => hid (Or.inl hmem))

/-- Only the operations around are looked up. -/
theorem findParent_congr {unit : Operation} {opToNode opToNode' : Nat → Option NodeRef}
    {around : List Operation} (h : ∀ id ∈ around.map Operation.id, opToNode' id = opToNode id) :
    findParent unit opToNode' around = findParent unit opToNode around := by
  induction around with
  | nil => rfl
  | cons op around ih =>
    rw [List.map_cons, List.forall_mem_cons] at h
    rw [findParent, findParent, ih h.2, h.1]

/-- What is made of an operation: it gets a node, or what is below it takes its place. -/
def editOf (op : Operation) : Rose.Edit := if isOperationSelected op then .keep else .unwrap

/-- The walk links in new nodes as the last children of the node found for the operations around. -/
def Walks (unit : Operation) (around : List Operation) (contexts : List (Operation × List Operation))
    (ids : List Nat) (out : List (Rose Operation)) : Prop :=
  ∀ s f fs cs, Linking s (Rose.plug (f :: fs) cs) →
    findParent unit s.opToNode around = some f.label →
    ∃ s' ds, contexts.foldlM (visit unit) s = some s' ∧
      Linking s' (Rose.plug (f :: fs) (cs ++ ds)) ∧
      Rose.mapList s'.operation ds = Rose.mapList some out ∧ Extends ids s s'

section Walk

variable {unit : Operation} {around : List Operation}

/-- Nodes keep their operations. -/
theorem Extends.mapList_eq {ids : List Nat} {s s' : Computation} (h : Extends ids s s')
    {ds : List (Rose NodeRef)} (hlt : ∀ n ∈ Rose.preorderList ds, n < s.nextRef) :
    Rose.mapList s'.operation ds = Rose.mapList s.operation ds := by
  apply Rose.mapList_congr
  intro n hn
  rw [Computation.operation, Computation.operation, h.node_eq n (hlt n ?_)]
  exact Rose.mem_preorderList_of_postorderList hn

theorem Walks.append {contexts contexts' : List (Operation × List Operation)} {ids ids' : List Nat}
    {out out' : List (Rose Operation)} (h : Walks unit around contexts ids out)
    (h' : Walks unit around contexts' ids' out')
    (hids : ∀ id ∈ around.map Operation.id, id ∉ ids) :
    Walks unit around (contexts ++ contexts') (ids ++ ids') (out ++ out') := by
  intro s f fs cs hlinking hparent
  obtain ⟨s', ds, hfold, hlinking', hmap, hextends⟩ := h s f fs cs hlinking hparent
  have hparent' : findParent unit s'.opToNode around = some f.label := by
    rw [findParent_congr fun id hid => hextends.opToNode_eq id (hids id hid)]
    exact hparent
  obtain ⟨s'', ds', hfold', hlinking'', hmap', hextends'⟩ :=
    h' s' f fs (cs ++ ds) hlinking' hparent'
  refine ⟨s'', ds ++ ds', ?_, by rwa [List.append_assoc] at hlinking'', ?_,
    hextends.trans hextends'⟩
  · rw [List.foldlM_append, hfold]
    exact hfold'
  · rw [Rose.mapList_append, Rose.mapList_append, hmap', ← hmap, hextends'.mapList_eq]
    intro n hn
    apply hlinking'.lt_nextRef
    exact Rose.mem_plug_of_mem f fs (by
      rw [Rose.preorderList_append]
      exact List.mem_append_right _ hn)

mutual

theorem walks_contexts (t : Rose Operation) (around : List Operation)
    (hnodup : (around.map Operation.id ++ t.preorder.map Operation.id).Nodup)
    (hunit : unit.id ∉ t.preorder.map Operation.id) :
    Walks unit around (t.contexts around) (t.preorder.map Operation.id) (t.edit editOf) := by
  cases t with
  | node op cs =>
    rw [Rose.preorder, List.map_cons] at hnodup hunit
    have hnew : op.id ∉ around.map Operation.id := fun hmem =>
      (List.nodup_append.mp hnodup).2.2 _ hmem op.id List.mem_cons_self rfl
    have hunit' : op.id ≠ unit.id := fun heq => hunit (heq ▸ List.mem_cons_self)
    have hcs := walks_contextsList cs (op :: around) (by
      rw [List.map_cons, List.cons_append]
      exact List.nodup_middle.mp hnodup) fun hmem => hunit (List.mem_cons_of_mem _ hmem)
    intro s f fs kids hlinking hparent
    rw [Rose.contexts, Rose.preorder, Rose.edit]
    cases hselected : isOperationSelected op with
    | true =>
      have hcreated : (createNode s op).opToNode op.id = some s.nextRef := Function.update_self ..
      have hfor : parentFor unit (createNode s op).opToNode (op, around) = some f.label := by
        rw [parentFor, if_neg hunit', ← hparent]
        apply findParent_congr
        intro id hid
        exact Function.update_of_ne (ne_of_mem_of_not_mem hid hnew) ..
      obtain ⟨links, hvisit, hvisited⟩ := hlinking.visit hselected hfor
      have hself : findParent unit (createNode s op).opToNode (op :: around) =
          some s.nextRef := by
        rw [findParent, if_neg (by simp [hselected]), if_neg hunit', hcreated]
      obtain ⟨s', ds, hfold, hlinking', hmap, hextends⟩ :=
        hcs _ ⟨kids, s.nextRef, []⟩ (f :: fs) [] hvisited hself
      refine ⟨s', [.node s.nextRef ds], ?_, hlinking', ?_, ?_⟩
      · rw [List.foldlM_cons, hvisit]
        exact hfold
      · have hnode : s'.operation s.nextRef = some op := by
          rw [Computation.operation, hextends.node_eq _ (Nat.lt_succ_self _)]
          show (Function.update s.node s.nextRef _ s.nextRef).map Node.operation = some op
          rw [Function.update_self]
          rfl
        rw [editOf, if_pos hselected]
        show [Rose.node (s'.operation s.nextRef) (Rose.mapList s'.operation ds)] =
          [Rose.node (some op) (Rose.mapList some (Rose.editList editOf cs))]
        rw [hnode, hmap]
      · refine ⟨Nat.le_of_succ_le hextends.nextRef_le, ?_, ?_⟩
        · intro n hn
          rw [hextends.node_eq n (Nat.lt_succ_of_lt hn)]
          exact Function.update_of_ne (Nat.ne_of_lt hn) ..
        · intro id hid
          rw [List.map_cons, List.mem_cons, not_or] at hid
          rw [hextends.opToNode_eq id hid.2]
          exact Function.update_of_ne hid.1 ..
    | false =>
      have haround : findParent unit s.opToNode (op :: around) = some f.label := by
        rw [findParent, if_pos hselected]
        exact hparent
      obtain ⟨s', ds, hfold, hlinking', hmap, hextends⟩ := hcs s f fs kids hlinking haround
      refine ⟨s', ds, ?_, hlinking', ?_, hextends.nextRef_le, hextends.node_eq, ?_⟩
      · rw [List.foldlM_cons, visit, if_pos hselected]
        exact hfold
      · rw [editOf, if_neg (by simp [hselected])]
        exact hmap
      · intro id hid
        rw [List.map_cons, List.mem_cons, not_or] at hid
        exact hextends.opToNode_eq id hid.2

/-- The same for a list of operations in the same region. -/
theorem walks_contextsList (ts : List (Rose Operation)) (around : List Operation)
    (hnodup : (around.map Operation.id ++ (Rose.preorderList ts).map Operation.id).Nodup)
    (hunit : unit.id ∉ (Rose.preorderList ts).map Operation.id) :
    Walks unit around (Rose.contextsList around ts) ((Rose.preorderList ts).map Operation.id)
      (Rose.editList editOf ts) := by
  cases ts with
  | nil =>
    intro s f fs cs hlinking _
    exact ⟨s, [], rfl, by rwa [List.append_nil], rfl, Extends.refl _ s⟩
  | cons t ts =>
    rw [Rose.preorderList, List.map_append] at hnodup hunit ⊢
    rw [List.mem_append, not_or] at hunit
    obtain ⟨haround, hids, hdisjoint⟩ := List.nodup_append.mp hnodup
    obtain ⟨ht, hts, -⟩ := List.nodup_append.mp hids
    rw [Rose.contextsList, Rose.editList]
    apply Walks.append (walks_contexts t around ?_ hunit.1) (walks_contextsList ts around ?_ hunit.2)
    · intro id hid hmem
      exact hdisjoint id hid id (List.mem_append_left _ hmem) rfl
    · exact List.nodup_append.mpr ⟨haround, ht,
        fun a ha b hb => hdisjoint a ha b (List.mem_append_left _ hb)⟩
    · exact List.nodup_append.mpr ⟨haround, hts,
        fun a ha b hb => hdisjoint a ha b (List.mem_append_right _ hb)⟩

end

/-- Unselected operations leave the tree as it is. -/
theorem foldlM_visit_of_unselected {contexts : List (Operation × List Operation)}
    (h : ∀ c ∈ contexts, isOperationSelected c.1 = false) (s : Computation) :
    contexts.foldlM (visit unit) s = some s := by
  induction contexts with
  | nil => rfl
  | cons c contexts ih =>
    rw [List.forall_mem_cons] at h
    rw [List.foldlM_cons, visit, if_pos h.1]
    exact ih h.2

mutual

theorem foldlM_contexts_eq_none (t : Rose Operation) (around : List Operation)
    (hnodup : (around.map Operation.id ++ t.preorder.map Operation.id).Nodup)
    (hunit : unit.id ∉ t.preorder.map Operation.id) (s : Computation)
    (hparent : findParent unit s.opToNode around = none)
    (hselected : ∃ op ∈ t.preorder, isOperationSelected op = true) :
    (t.contexts around).foldlM (visit unit) s = none := by
  cases t with
  | node op cs =>
    rw [Rose.preorder, List.map_cons] at hnodup hunit
    have hnew : op.id ∉ around.map Operation.id := fun hmem =>
      (List.nodup_append.mp hnodup).2.2 _ hmem op.id List.mem_cons_self rfl
    have hunit' : op.id ≠ unit.id := fun heq => hunit (heq ▸ List.mem_cons_self)
    rw [Rose.contexts, List.foldlM_cons]
    cases hop : isOperationSelected op with
    | true =>
      -- its parent is looked up and not found
      have hfor : parentFor unit (createNode s op).opToNode (op, around) = none := by
        rw [parentFor, if_neg hunit', ← hparent]
        apply findParent_congr
        intro id hid
        exact Function.update_of_ne (ne_of_mem_of_not_mem hid hnew) ..
      have hvisit : visit unit s (op, around) = none := by
        rw [visit, if_neg (by simp [hop])]
        show (parentFor unit (createNode s op).opToNode (op, around) >>= _) = none
        rw [hfor]
        rfl
      rw [hvisit]
      rfl
    | false =>
      rw [visit, if_pos hop]
      refine foldlM_contextsList_eq_none cs (op :: around) ?_ ?_ s ?_ ?_
      · rw [List.map_cons, List.cons_append]
        exact List.nodup_middle.mp hnodup
      · exact fun hmem => hunit (List.mem_cons_of_mem _ hmem)
      · rw [findParent, if_pos hop]
        exact hparent
      · obtain ⟨op', hop', hsel⟩ := hselected
        rw [Rose.preorder] at hop'
        rcases List.mem_cons.mp hop' with rfl | hop'
        · exact absurd hsel (by simp [hop])
        · exact ⟨op', hop', hsel⟩

/-- The first selected operation of a list has no parent in the map. -/
theorem foldlM_contextsList_eq_none (ts : List (Rose Operation)) (around : List Operation)
    (hnodup : (around.map Operation.id ++ (Rose.preorderList ts).map Operation.id).Nodup)
    (hunit : unit.id ∉ (Rose.preorderList ts).map Operation.id) (s : Computation)
    (hparent : findParent unit s.opToNode around = none)
    (hselected : ∃ op ∈ Rose.preorderList ts, isOperationSelected op = true) :
    (Rose.contextsList around ts).foldlM (visit unit) s = none := by
  cases ts with
  | nil =>
    obtain ⟨op, hop, -⟩ := hselected
    cases hop
  | cons t ts =>
    rw [Rose.preorderList, List.map_append] at hnodup hunit
    rw [List.mem_append, not_or] at hunit
    obtain ⟨haround, hids, hdisjoint⟩ := List.nodup_append.mp hnodup
    obtain ⟨ht, hts, -⟩ := List.nodup_append.mp hids
    have hnodup' : (around.map Operation.id ++ t.preorder.map Operation.id).Nodup :=
      List.nodup_append.mpr ⟨haround, ht,
        fun a ha b hb => hdisjoint a ha b (List.mem_append_left _ hb)⟩
    rw [Rose.contextsList, List.foldlM_append]
    by_cases hfirst : ∃ op ∈ t.preorder, isOperationSelected op = true
    · rw [foldlM_contexts_eq_none t around hnodup' hunit.1 s hparent hfirst]
      rfl
    · have hskip : (t.contexts around).foldlM (visit unit) s = some s := by
        apply foldlM_visit_of_unselected
        intro c hc
        have hmem : c.1 ∈ t.preorder := Rose.fst_mem_preorder hc
        simpa using fun hsel => hfirst ⟨c.1, hmem, hsel⟩
      rw [hskip]
      refine foldlM_contextsList_eq_none ts around ?_ hunit.2 s hparent ?_
      · exact List.nodup_append.mpr ⟨haround, hts,
          fun a ha b hb => hdisjoint a ha b (List.mem_append_right _ hb)⟩
      · obtain ⟨op, hop, hsel⟩ := hselected
        rw [Rose.preorderList] at hop
        rcases List.mem_append.mp hop with hop | hop
        · exact absurd ⟨op, hop, hsel⟩ hfirst
        · exact ⟨op, hop, hsel⟩

end

/-- Outside of the unit nothing is in the map. -/
theorem findParent_eq_none {above : List Operation} (hunit : unit.id ∉ above.map Operation.id)
    (hselected : ∃ op ∈ above, isOperationSelected op = true) :
    findParent unit (fun _ => none) above = none := by
  induction above with
  | nil =>
    obtain ⟨op, hop, -⟩ := hselected
    cases hop
  | cons op above ih =>
    rw [List.map_cons, List.mem_cons, not_or] at hunit
    rw [findParent]
    cases hop : isOperationSelected op with
    | true => rw [if_neg (by simp), if_neg (Ne.symm hunit.1)]
    | false =>
      rw [if_pos rfl]
      apply ih hunit.2
      obtain ⟨op', hop', hsel⟩ := hselected
      rcases List.mem_cons.mp hop' with rfl | hop'
      · exact absurd hsel (by simp [hop])
      · exact ⟨op', hop', hsel⟩

theorem findParent_eq_root {opToNode : Nat → Option NodeRef} {above : List Operation}
    (h : ∀ op ∈ above, isOperationSelected op = false) :
    findParent unit opToNode above = some root := by
  induction above with
  | nil => rfl
  | cons op above ih =>
    rw [List.forall_mem_cons] at h
    rw [findParent, if_pos h.1, ih h.2]

end Walk

/-! ## The computed tree -/

theorem leftOf_editOf (c : Operation × List Operation) : Rose.leftOf editOf c =
    if isOperationSelected c.1 then some (c.1, c.2.filter isOperationSelected) else none := by
  have hkeep : ∀ op, editOf op = .keep ↔ isOperationSelected op = true := by
    intro op
    rw [editOf]
    split
    · next h => simp [h]
    · next h => simp [h]
  have herase : ∀ op, editOf op ≠ .erase := by
    intro op
    rw [editOf]
    split
    · simp
    · simp
  rw [Rose.leftOf]
  simp only [hkeep, herase, ne_eq, not_false_eq_true, implies_true, and_true, Bool.decide_eq_true]

/-- The selected operations below others, each with the selected ones around it. -/
theorem filterMap_contextsList (around : List Operation) (ts : List (Rose Operation)) :
    ((Rose.contextsList around ts).filterMap fun c =>
      if isOperationSelected c.1 then some (c.1, c.2.filter isOperationSelected) else none) =
      Rose.contextsList (around.filter isOperationSelected) (Rose.editList editOf ts) := by
  have h : ∀ b ∈ around, editOf b ≠ .erase := by
    intro b _
    rw [editOf]
    split
    · simp
    · simp
  have hkeep : (around.filter fun b => editOf b = .keep) = around.filter isOperationSelected := by
    apply List.filter_congr
    intro b _
    rw [editOf]
    split
    · next h => simp [h]
    · next h => simp [h]
  rw [← hkeep, Rose.contextsList_editList editOf h ts]
  exact List.filterMap_congr fun c _ => (leftOf_editOf c).symm

theorem contextsList_mapList_some (ts : List (Rose Operation)) :
    Rose.contextsList [] (Rose.mapList some ts) =
      (Rose.contextsList [] ts).map fun c => (some c.1, c.2.map some) :=
  Rose.contextsList_map some [] ts

theorem map_some_injective : Function.Injective
    fun c : Operation × List Operation => (some c.1, c.2.map some) := by
  intro c c' h
  obtain ⟨hfst, hsnd⟩ := Prod.mk.inj h
  exact Prod.ext (Option.some.inj hfst)
    (List.map_injective_iff.mpr (Option.some_injective _) hsnd)

/-- The tree that comes out is the only one that its links represent. -/
theorem computes_some_iff {unit : Rose Operation} {s : Computation} {trees : List (Rose NodeRef)}
    {out : List (Rose Operation)} (h : s.links.Represents [.node root trees])
    (hmap : Rose.mapList s.operation trees = Rose.mapList some out) :
    Computes unit (some s) ↔ Rose.contextsList [] out = selectedContexts unit := by
  have hcontexts : Rose.contextsList [] (Rose.mapList s.operation trees) =
      (Rose.contextsList [] out).map fun c => (some c.1, c.2.map some) := by
    rw [hmap]
    exact contextsList_mapList_some out
  constructor
  · rintro ⟨s', trees', hs, hrepresents, heq⟩
    obtain rfl := Option.some.inj hs
    obtain ⟨-, rfl⟩ := Rose.node.inj (h.unique hrepresents rfl)
    rw [hcontexts] at heq
    exact List.map_injective_iff.mpr map_some_injective heq
  · intro heq
    refine ⟨s, trees, rfl, h, ?_⟩
    rw [hcontexts, heq]

section Unit

variable {op : Operation} {cs : List (Rose Operation)} {above : List Operation}

theorem editList_eq_nil_iff {ts : List (Rose Operation)} : Rose.editList editOf ts = [] ↔
    ∀ op ∈ Rose.preorderList ts, isOperationSelected op = false := by
  have hnil : ∀ us : List (Rose Operation), us = [] ↔ Rose.contextsList [] us = [] := by
    intro us
    cases us with
    | nil => simp [Rose.contextsList]
    | cons u us =>
      cases u with
      | node a ds => simp [Rose.contextsList, Rose.contexts]
  have hcontexts := filterMap_contextsList [] ts
  rw [List.filter_nil] at hcontexts
  rw [hnil, ← hcontexts, List.filterMap_eq_nil_iff, ← Rose.map_fst_contextsList []]
  simp

/-- A selected unit gets a node of its own, and what is inside is put beside it. -/
theorem computes_iff_of_selected
    (hids : (above.map Operation.id ++ (Rose.node op cs).preorder.map Operation.id).Nodup)
    (hop : isOperationSelected op = true) :
    Computes (.node op cs) (compute (.node op cs) above) ↔
      ∀ op' ∈ Rose.preorderList cs, isOperationSelected op' = false := by
  rw [Rose.preorder, List.map_cons] at hids
  have hfor : parentFor op (createNode .empty op).opToNode (op, above) = some root := if_pos rfl
  obtain ⟨links, hvisit, hlinking⟩ :=
    @Linking.visit _ _ _ _ ⟨[], root, []⟩ [] [] linking_empty hop hfor
  have hself : findParent op (createNode .empty op).opToNode (op :: above) = some root := by
    rw [findParent, if_neg (by simp [hop]), if_pos rfl]
  have hunit : op.id ∉ (Rose.preorderList cs).map Operation.id :=
    (List.nodup_cons.mp (List.nodup_append.mp hids).2.1).1
  obtain ⟨s, ds, hfold, hlinking', hmap, hextends⟩ := walks_contextsList cs (op :: above)
    (by
      rw [List.map_cons, List.cons_append]
      exact List.nodup_middle.mp hids) hunit _ ⟨[], root, []⟩ [] _ hlinking hself
  have hcompute : compute (.node op cs) above = some s := by
    rw [compute, Rose.contexts, List.foldlM_cons, Rose.label_node, hvisit]
    exact hfold
  have hnode : s.operation (Computation.empty.nextRef) = some op := by
    rw [Computation.operation, hextends.node_eq _ (Nat.lt_succ_self _)]
    rfl
  have htrees : Rose.mapList s.operation ([.node Computation.empty.nextRef []] ++ ds) =
      Rose.mapList some (.node op [] :: Rose.editList editOf cs) := by
    rw [Rose.mapList_append, hmap]
    show [Rose.node (s.operation Computation.empty.nextRef) []] ++ _ = _
    rw [hnode]
    rfl
  rw [hcompute, computes_some_iff hlinking'.represents htrees, selectedContexts, Rose.contexts,
    List.filterMap_cons_some (by rw [if_pos hop]), filterMap_contextsList, ← editList_eq_nil_iff,
    List.filter_cons_of_pos hop]
  show (op, []) :: Rose.contextsList [op] [] ++ Rose.contextsList [] (Rose.editList editOf cs) =
    (op, []) :: Rose.contextsList [op] (Rose.editList editOf cs) ↔ _
  cases hout : Rose.editList editOf cs with
  | nil => simp [Rose.contextsList]
  | cons t ts =>
    cases t with
    | node a ds => simp [Rose.contextsList, Rose.contexts]

/-- An unselected unit gets the nodes inside, as long as nothing selected is around it. -/
theorem computes_iff_of_unselected
    (hids : (above.map Operation.id ++ (Rose.node op cs).preorder.map Operation.id).Nodup)
    (hop : isOperationSelected op = false) :
    Computes (.node op cs) (compute (.node op cs) above) ↔
      (∀ op' ∈ Rose.preorderList cs, isOperationSelected op' = false) ∨
        ∀ op' ∈ above, isOperationSelected op' = false := by
  rw [Rose.preorder, List.map_cons] at hids
  have hunit : op.id ∉ (Rose.preorderList cs).map Operation.id :=
    (List.nodup_cons.mp (List.nodup_append.mp hids).2.1).1
  have habove : op.id ∉ above.map Operation.id := fun hmem =>
    (List.nodup_append.mp hids).2.2 _ hmem op.id List.mem_cons_self rfl
  have hids' : ((op :: above).map Operation.id ++
      (Rose.preorderList cs).map Operation.id).Nodup := by
    rw [List.map_cons, List.cons_append]
    exact List.nodup_middle.mp hids
  have hcompute : compute (.node op cs) above =
      (Rose.contextsList (op :: above) cs).foldlM (visit op) .empty := by
    rw [compute, Rose.contexts, List.foldlM_cons, Rose.label_node, visit, if_pos hop]
    rfl
  have hselected : selectedContexts (.node op cs) =
      Rose.contextsList [] (Rose.editList editOf cs) := by
    rw [selectedContexts, Rose.contexts, List.filterMap_cons_none (by rw [if_neg (by simp [hop])]),
      filterMap_contextsList, List.filter_cons_of_neg (by simp [hop]), List.filter_nil]
  by_cases haround : ∀ op' ∈ above, isOperationSelected op' = false
  · have hparent : findParent op Computation.empty.opToNode (op :: above) = some root := by
      rw [findParent, if_pos hop, findParent_eq_root haround]
    obtain ⟨s, ds, hfold, hlinking, hmap, -⟩ :=
      walks_contextsList cs (op :: above) hids' hunit _ ⟨[], root, []⟩ [] [] linking_empty hparent
    rw [hcompute, hfold, computes_some_iff hlinking.represents hmap, hselected]
    exact iff_of_true rfl (Or.inr haround)
  · by_cases hinside : ∀ op' ∈ Rose.preorderList cs, isOperationSelected op' = false
    · have hskip : (Rose.contextsList (op :: above) cs).foldlM (visit op) .empty =
          some Computation.empty := by
        apply foldlM_visit_of_unselected
        intro c hc
        apply hinside
        rw [← Rose.map_fst_contextsList (op :: above)]
        exact List.mem_map_of_mem hc
      have hout : Rose.mapList Computation.empty.operation [] =
          Rose.mapList some (Rose.editList editOf cs) := by
        rw [editList_eq_nil_iff.mpr hinside]
        rfl
      rw [hcompute, hskip, computes_some_iff linking_empty.represents hout, hselected]
      exact iff_of_true rfl (Or.inl hinside)
    · have hparent : findParent op Computation.empty.opToNode (op :: above) = none := by
        rw [findParent, if_pos hop]
        apply findParent_eq_none habove
        simpa using haround
      have hnone := foldlM_contextsList_eq_none cs (op :: above) hids' hunit .empty hparent
        (by simpa using hinside)
      rw [hcompute, hnone]
      refine iff_of_false ?_ (not_or.mpr ⟨hinside, haround⟩)
      rintro ⟨s, trees, hs, -⟩
      cases hs

end Unit

/-- The tree of a unit is right exactly if nothing inside is selected, or neither the unit nor anything
around it is. -/
theorem compute_computes_iff (unit : Rose Operation) (above : List Operation)
    (hids : (above.map Operation.id ++ unit.preorder.map Operation.id).Nodup) :
    Computes unit (compute unit above) ↔
      (∀ op ∈ Rose.preorderList unit.children, isOperationSelected op = false) ∨
        ∀ op ∈ unit.label :: above, isOperationSelected op = false := by
  cases unit with
  | node op cs =>
    rw [Rose.children_node, Rose.label_node, List.forall_mem_cons]
    cases hop : isOperationSelected op with
    | true =>
      rw [computes_iff_of_selected hids hop]
      simp
    | false =>
      rw [computes_iff_of_unselected hids hop]
      simp

/-- A function with a pipeline of one stage. -/
theorem function_computes :
    Computes (.node ⟨0, .other⟩ [.node ⟨1, .pipelineOp⟩ [.node ⟨2, .stageOp⟩ []]])
      (compute (.node ⟨0, .other⟩ [.node ⟨1, .pipelineOp⟩ [.node ⟨2, .stageOp⟩ []]]) []) := by
  apply (compute_computes_iff _ [] (by decide)).mpr
  exact Or.inr (by decide)

/-- A pipeline in a loop is put beside the node of the loop. -/
theorem loop_not_computes :
    ¬ Computes (.node ⟨0, .forOp⟩ [.node ⟨1, .pipelineOp⟩ []])
      (compute (.node ⟨0, .forOp⟩ [.node ⟨1, .pipelineOp⟩ []]) []) := by
  rw [computes_iff_of_selected (by decide) rfl]
  decide

/-- In a branch inside a loop the loop is not in the map. -/
example : compute (.node ⟨1, .other⟩ [.node ⟨2, .pipelineOp⟩ []]) [⟨0, .forOp⟩] = none := rfl

end PipelineTree

end DataflowScheduler
