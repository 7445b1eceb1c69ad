import DataflowScheduler.Analysis.MemoryPath
import DataflowScheduler.Util.RoseEdit

/-!
# The memory hierarchy of a device body

`MemoryTree::initialize` walks the body of a device, adds a node for each memory and remembers the
memory that the groups around it share. Only when the walk is over the nodes are linked, in the order
in which a hash map has them, which is any order. Aliases come last.
-/

namespace DataflowScheduler

abbrev DeviceOp.ValueId := Nat

open DeviceOp (ValueId)

/-- An op in the body of a device. -/
inductive DeviceOp (R : Type) where
  /-- `ktdf_arch.memory` -/
  | memory (result : ValueId) (kind : R) (size : Option SizeT) (firstAvailableAddress : SizeT)
  /-- `ktdf_arch.group` -/
  | group (sharedMemory : List ValueId)
  | other
  deriving Repr, DecidableEq

namespace DeviceOp

variable {R : Type}

/-- The result that stands for a memory. -/
def memoryResult : DeviceOp R → Option ValueId
  | .memory result .. => some result
  | _ => none

def sharedMemory : DeviceOp R → List ValueId
  | .group sharedMemory => sharedMemory
  | _ => []

def isGroup : DeviceOp R → Bool
  | .group _ => true
  | _ => false

end DeviceOp

namespace MemoryTree

variable {R : Type}

/-! ## The walk -/

/-- The tree without its links, and what the walk remembers. Nodes are numbered in order, so
`next_node_id_` is how many there are. A memory is met once, so its entry of `child_to_parent` is
written once. -/
structure Builder (R : Type) where
  nodes : List (MemoryNode R)
  resourceToNode : R → Option NodeId
  valueToNode : ValueId → Option NodeId
  childToParent : List (ValueId × ValueId)

/-- `addNode`, for the memory that a value stands for. -/
def Builder.addNode [DecidableEq R] (b : Builder R) (result : ValueId) (kind : R)
    (capacity reserved : Option SizeT) : Builder R where
  nodes := b.nodes ++ [⟨b.nodes.length, kind, none, none, [], capacity, reserved⟩]
  resourceToNode := Function.update b.resourceToNode kind (some b.nodes.length)
  valueToNode := Function.update b.valueToNode result (some b.nodes.length)
  childToParent := b.childToParent

/-- A memory with the memory that is its parent, if there is one. -/
structure Memory (R : Type) where
  result : ValueId
  kind : R
  size : Option SizeT
  firstAvailableAddress : SizeT
  parentMem : Option ValueId
  deriving Repr, DecidableEq

/-- What `processRegion` does for a memory. -/
def Builder.addMemory [DecidableEq R] (b : Builder R) (m : Memory R) : Builder R :=
  { b.addNode m.result m.kind m.size (some m.firstAvailableAddress) with
    childToParent := b.childToParent ++ (m.parentMem.map (m.result, ·)).toList }

section Walk

variable [DecidableEq R]

mutual

def processOp (parentMem : Option ValueId) (b : Builder R) : Rose (DeviceOp R) → Builder R
  | .node (.memory result kind size firstAvailableAddress) _ =>
      b.addMemory ⟨result, kind, size, firstAvailableAddress, parentMem⟩
  -- The first memory that is shared is the parent in the scope of the group.
  | .node (.group sharedMemory) body =>
      processRegion (sharedMemory.head?.or parentMem) b body
  | .node _ _ => b

/-- `processRegion` -/
def processRegion (parentMem : Option ValueId) (b : Builder R) :
    List (Rose (DeviceOp R)) → Builder R
  | [] => b
  | op :: ops => processRegion parentMem (processOp parentMem b op) ops

end

end Walk

/-! ## Links and aliases -/

/-- `setParent` -/
def setParent (nodes : List (MemoryNode R)) (link : NodeId × NodeId) : List (MemoryNode R) :=
  let nodes := nodes.map fun node =>
    if node.id = link.1 then { node with parent := some link.2 } else node
  nodes.map fun node =>
    if node.id = link.2 then { node with children := node.children ++ [link.1] } else node

/-- The nodes that an entry of `child_to_parent` links. -/
def Builder.link (b : Builder R) (entry : ValueId × ValueId) : Option (NodeId × NodeId) := do
  let child ← b.valueToNode entry.1
  let parent ← b.valueToNode entry.2
  some (child, parent)

theorem Builder.link_eq_some_iff {b : Builder R} {entry : ValueId × ValueId}
    {link : NodeId × NodeId} : b.link entry = some link ↔
      b.valueToNode entry.1 = some link.1 ∧ b.valueToNode entry.2 = some link.2 := by
  cases link
  simp [Builder.link, Option.bind_eq_some_iff]

/-- One entry of the mapping that `populateAliases` reads. -/
def setAlias [DecidableEq R] (resourceToNode : R → Option NodeId)
    (s : List (MemoryNode R) × (R → Option NodeId)) (entry : R × R) :
    List (MemoryNode R) × (R → Option NodeId) :=
  match resourceToNode entry.2 with
  | some id =>
      (s.1.map fun node => if node.id = id then { node with aliasResource := some entry.1 } else node,
        Function.update s.2 entry.1 (some id))
  | none => s

/-- The nodes after `initialize`, and `alias_to_node_`. The order is that of `child_to_parent`. -/
def Builder.finish [DecidableEq R] (b : Builder R)
    (order : List (ValueId × ValueId) → List (ValueId × ValueId)) (memSpaceMapping : List (R × R)) :
    List (MemoryNode R) × (R → Option NodeId) :=
  memSpaceMapping.foldl (setAlias b.resourceToNode)
    (((order b.childToParent).filterMap b.link).foldl setParent b.nodes, fun _ => none)

/-! ## What the walk builds -/

/-- Nothing is built yet. -/
def Builder.empty : Builder R := ⟨[], fun _ => none, fun _ => none, []⟩

/-- The node that a memory gets. -/
def Memory.node (m : Memory R) (id : NodeId) : MemoryNode R :=
  ⟨id, m.kind, none, none, [], m.size, some m.firstAvailableAddress⟩

section Built

variable [DecidableEq R]

/-- The last position of a key is what is found for it. -/
structure Indexes {K : Type} (key : Memory R → K) (ms : List (Memory R)) (find : K → Option NodeId) :
    Prop where
  isSome : ∀ m ∈ ms, (find (key m)).isSome
  get : ∀ k id, find k = some id → ∃ m, ms[id]? = some m ∧ key m = k

omit [DecidableEq R] in
theorem Indexes.append {K : Type} [DecidableEq K] {key : Memory R → K} {ms : List (Memory R)}
    {find : K → Option NodeId} (h : Indexes key ms find) (m : Memory R) :
    Indexes key (ms ++ [m]) (Function.update find (key m) (some ms.length)) where
  isSome m' hm' := by
    rw [Function.update_apply]
    split
    · rfl
    · next hne =>
      rcases List.mem_append.mp hm' with hm' | hm'
      · exact h.isSome m' hm'
      · exact absurd (congrArg key (List.mem_singleton.mp hm')) hne
  get k id hk := by
    rw [Function.update_apply] at hk
    split at hk
    · next heq =>
      cases hk
      exact ⟨m, by simp, heq.symm⟩
    · obtain ⟨m', hm', hkey⟩ := h.get k id hk
      exact ⟨m', (List.getElem?_append_left (List.getElem?_eq_some_iff.mp hm').1).trans hm', hkey⟩

omit [DecidableEq R] in
theorem Indexes.eq_some_iff {K : Type} {key : Memory R → K} {ms : List (Memory R)}
    {find : K → Option NodeId} (h : Indexes key ms find) (hnodup : (ms.map key).Nodup) {k : K}
    {id : NodeId} : find k = some id ↔ ∃ m, ms[id]? = some m ∧ key m = k := by
  refine ⟨h.get k id, ?_⟩
  rintro ⟨m, hm, rfl⟩
  obtain ⟨id', hid'⟩ := Option.isSome_iff_exists.mp (h.isSome m (List.mem_of_getElem? hm))
  obtain ⟨m', hm', hkey⟩ := h.get _ _ hid'
  have hlt : id < (ms.map key).length := by simpa using (List.getElem?_eq_some_iff.mp hm).1
  rw [hid', (List.getElem?_inj hlt hnodup).mp (by simp [hm, hm', hkey] :
    (ms.map key)[id]? = (ms.map key)[id']?)]

/-- What is built of some memories. -/
structure Built (ms : List (Memory R)) (b : Builder R) : Prop where
  nodes_eq : b.nodes = ms.mapIdx fun i m => m.node i
  resource : Indexes Memory.kind ms b.resourceToNode
  value : Indexes Memory.result ms b.valueToNode
  childToParent_eq : b.childToParent = ms.filterMap fun m => m.parentMem.map (m.result, ·)

theorem Built.addMemory {ms : List (Memory R)} {b : Builder R} (h : Built ms b) (m : Memory R) :
    Built (ms ++ [m]) (b.addMemory m) := by
  have hlen : b.nodes.length = ms.length := by rw [h.nodes_eq, List.length_mapIdx]
  have hresource := h.resource.append m
  have hvalue := h.value.append m
  rw [← hlen] at hresource hvalue
  refine ⟨?_, hresource, hvalue, ?_⟩
  · show b.nodes ++ [m.node b.nodes.length] = _
    rw [hlen, List.mapIdx_append, h.nodes_eq]
    simp
  · show b.childToParent ++ (m.parentMem.map (m.result, ·)).toList = _
    rw [h.childToParent_eq, List.filterMap_append]
    cases hparent : m.parentMem with
    | none => simp [hparent]
    | some parent => simp [hparent]

theorem built_foldl (ms : List (Memory R)) : Built ms (ms.foldl Builder.addMemory .empty) := by
  induction ms using List.reverseRecOn with
  | nil =>
    have hnone {K : Type} (key : Memory R → K) : Indexes key [] fun _ => none :=
      ⟨fun m hm => absurd hm List.not_mem_nil, fun k id hk => by cases hk⟩
    exact ⟨rfl, hnone _, hnone _, rfl⟩
  | append_singleton ms m ih =>
    rw [List.foldl_append]
    exact ih.addMemory m

/-- The memory that an op stands for, with what the innermost group around it that shares memory
shares first. Only groups are walked. -/
def memoryOf : DeviceOp R × List (DeviceOp R) → Option (Memory R)
  | (.memory result kind size firstAvailableAddress, around) =>
      if around.all DeviceOp.isGroup then
        some ⟨result, kind, size, firstAvailableAddress,
          around.findSome? fun group => group.sharedMemory.head?⟩
      else none
  | _ => none

/-- The memories of a device body, in order. -/
def memories (body : List (Rose (DeviceOp R))) : List (Memory R) :=
  (Rose.contextsList [] body).filterMap memoryOf

omit [DecidableEq R] in
theorem memoryOf_eq_none {op : DeviceOp R} {around : List (DeviceOp R)} (h : op.isGroup = false)
    {c : DeviceOp R × List (DeviceOp R)} {ops : List (Rose (DeviceOp R))}
    (hc : c ∈ Rose.contextsList (op :: around) ops) : memoryOf c = none := by
  have hall : ¬ c.2.all DeviceOp.isGroup := fun hall => by
    have := List.all_eq_true.mp hall op (Rose.around_of_mem_contextsList hc op List.mem_cons_self)
    grind
  unfold memoryOf
  grind

mutual

theorem processOp_eq (around : List (DeviceOp R)) (haround : around.all DeviceOp.isGroup)
    (b : Builder R) (op : Rose (DeviceOp R)) :
    processOp (around.findSome? fun group => group.sharedMemory.head?) b op =
      ((op.contexts around).filterMap memoryOf).foldl Builder.addMemory b := by
  obtain ⟨op, body⟩ := op
  -- nothing is walked below an op that is no group
  have hskip (hgroup : op.isGroup = false) :
      (Rose.contextsList (op :: around) body).filterMap memoryOf = [] :=
    List.filterMap_eq_nil_iff.mpr fun _ hc => memoryOf_eq_none hgroup hc
  cases op with
  | memory result kind size address =>
    rw [Rose.contexts, List.filterMap_cons, hskip rfl, memoryOf, if_pos haround]
    rfl
  | group sharedMemory =>
    have hbody := processRegion_eq (.group sharedMemory :: around)
      (List.all_eq_true.mpr (List.forall_mem_cons.mpr ⟨rfl, List.all_eq_true.mp haround⟩)) b body
    rw [List.findSome?_cons] at hbody
    refine Eq.trans ?_ hbody
    cases sharedMemory <;> rfl
  | _ =>
    rw [Rose.contexts, List.filterMap_cons, hskip rfl]
    rfl

/-- The walk adds the memories, one after the other. -/
theorem processRegion_eq (around : List (DeviceOp R)) (haround : around.all DeviceOp.isGroup)
    (b : Builder R) (ops : List (Rose (DeviceOp R))) :
    processRegion (around.findSome? fun group => group.sharedMemory.head?) b ops =
      ((Rose.contextsList around ops).filterMap memoryOf).foldl Builder.addMemory b := by
  cases ops with
  | nil => rfl
  | cons op ops =>
    rw [processRegion, processOp_eq around haround, processRegion_eq around haround, Rose.contextsList,
      List.filterMap_append, List.foldl_append]

end

theorem built_processRegion (body : List (Rose (DeviceOp R))) :
    Built (memories body) (processRegion none .empty body) := by
  have := processRegion_eq [] rfl (Builder.empty (R := R)) body
  rw [List.findSome?_nil] at this
  rw [this]
  exact built_foldl (memories body)

end Built

/-! ## The finished nodes -/

/-- The node of a memory among linked nodes. The last link of a child is the one that stays. -/
def Memory.linked (m : Memory R) (links : List (NodeId × NodeId)) (id : NodeId) : MemoryNode R :=
  { m.node id with
    parent := links.reverse.lookup id
    children := (links.filter fun link => link.2 = id).map Prod.fst }

theorem foldl_setParent (ms : List (Memory R)) (links : List (NodeId × NodeId)) :
    links.foldl setParent (ms.mapIdx fun id m => m.node id) =
      ms.mapIdx fun id m => m.linked links id := by
  induction links using List.reverseRecOn with
  | nil => rfl
  | append_singleton links link ih =>
    rw [List.foldl_append, ih, List.foldl_cons, List.foldl_nil, setParent]
    refine List.ext_getElem? fun id => ?_
    simp only [List.getElem?_map, List.getElem?_mapIdx, Option.map_map]
    refine congrArg (Option.map · _) (funext fun m => ?_)
    -- the new link makes a difference at its two ends only
    simp only [Function.comp_apply, Memory.linked, Memory.node, List.reverse_append,
      List.filter_append, List.map_append, List.reverse_singleton, List.singleton_append]
    by_cases hchild : id = link.1 <;> by_cases hparent : id = link.2 <;> grind

theorem foldl_setAlias [DecidableEq R] (resourceToNode : R → Option NodeId) (memSpaceMapping : List (R × R))
    (s : List (MemoryNode R) × (R → Option NodeId)) :
    ∃ names : MemoryNode R → Option R,
      (memSpaceMapping.foldl (setAlias resourceToNode) s).1 =
        s.1.map fun node => { node with aliasResource := names node } := by
  induction memSpaceMapping generalizing s with
  | nil => exact ⟨MemoryNode.aliasResource, (List.map_id' s.1).symm⟩
  | cons entry memSpaceMapping ih =>
    obtain ⟨names, hall⟩ := ih (setAlias resourceToNode s entry)
    rw [List.foldl_cons, hall, setAlias]
    split
    · next id _ =>
      refine ⟨fun node => names
        (if node.id = id then { node with aliasResource := some entry.1 } else node), ?_⟩
      rw [List.map_map]
      refine List.map_congr_left fun node _ => ?_
      simp only [Function.comp_apply]
      split <;> rfl
    · exact ⟨names, rfl⟩

/-! ## The tree -/

section Tree

variable [DecidableEq R] (order : List (ValueId × ValueId) → List (ValueId × ValueId))
  (memSpaceMapping : List (R × R)) (body : List (Rose (DeviceOp R)))

/-- The nodes that are linked, in order. -/
def links : List (NodeId × NodeId) :=
  (order (processRegion none .empty body).childToParent).filterMap
    (processRegion none .empty body).link

/-- The nodes, up to their aliases, whatever is in the body. -/
theorem exists_nodes : ∃ names : MemoryNode R → Option R,
    ((processRegion none .empty body).finish order memSpaceMapping).1 =
      (memories body).mapIdx fun (id : NodeId) m =>
        { m.linked (links order body) id with
          aliasResource := names (m.linked (links order body) id) } := by
  obtain ⟨names, hnames⟩ := foldl_setAlias (processRegion none .empty body).resourceToNode
    memSpaceMapping ((links order body).foldl setParent (processRegion none .empty body).nodes,
      fun _ => none)
  refine ⟨names, hnames.trans ?_⟩
  dsimp only
  rw [(built_processRegion body).nodes_eq, foldl_setParent]
  refine List.ext_getElem? fun id => ?_
  simp only [List.getElem?_map, List.getElem?_mapIdx, Option.map_map]
  rfl

/-- `initialize`. The order is that of the entries of `child_to_parent`. -/
def initializeTree : MemoryTree R where
  nodes := ((processRegion none .empty body).finish order memSpaceMapping).1
  resourceToNode := (processRegion none .empty body).resourceToNode
  aliasToNode := ((processRegion none .empty body).finish order memSpaceMapping).2
  nodup_ids := by
    obtain ⟨names, hnodes⟩ := exists_nodes order memSpaceMapping body
    rw [hnodes, List.mapIdx_eq_zipIdx_map, List.map_map]
    exact List.zipIdx_map_snd 0 (memories body) ▸ List.nodup_range'
  isSome_resourceToNode := by
    obtain ⟨names, hnodes⟩ := exists_nodes order memSpaceMapping body
    intro node hnode
    rw [hnodes] at hnode
    obtain ⟨id, hid, rfl⟩ := List.mem_mapIdx.mp hnode
    exact (built_processRegion body).resource.isSome _ (List.getElem_mem hid)
  resource_of_resourceToNode := by
    obtain ⟨names, hnodes⟩ := exists_nodes order memSpaceMapping body
    intro resource id hid
    obtain ⟨m, hm, hkind⟩ := (built_processRegion body).resource.get resource id hid
    have hnode := (congrArg (·[id]?) hnodes).trans List.getElem?_mapIdx
    rw [hm] at hnode
    exact ⟨_, List.mem_of_getElem? hnode, rfl, hkind⟩

/-- A memory is declared before the groups that share it. -/
def DeclaredBeforeShared : Prop :=
  (Rose.preorderList body).Pairwise fun op later =>
    ∀ v ∈ op.sharedMemory, later.memoryResult ≠ some v

variable {order memSpaceMapping body}

theorem getNode_initializeTree {f : NodeId → Memory R → MemoryNode R}
    (hnodes : (initializeTree order memSpaceMapping body).nodes = (memories body).mapIdx f)
    (hid : ∀ id m, (f id m).id = id) (id : NodeId) :
    (initializeTree order memSpaceMapping body).getNode id = (memories body)[id]?.map (f id) := by
  cases hm : (memories body)[id]? with
  | none =>
    rw [Option.map_none, getNode, List.find?_eq_none, hnodes]
    intro node hnode
    obtain ⟨i, hi, rfl⟩ := List.mem_mapIdx.mp hnode
    grind
  | some m =>
    have hmem : f id m ∈ (initializeTree order memSpaceMapping body).nodes := by
      rw [hnodes]
      exact List.mem_iff_getElem?.mpr ⟨id, by grind⟩
    have := getNode_eq_some _ hmem
    rwa [hid] at this

section Links

variable (hnodup : ((memories body).map Memory.result).Nodup) (horder : ∀ l, (order l).Perm l)

include hnodup horder

/-- A node is linked to the node of the memory that its memory has for a parent. -/
theorem mem_links {id parent : NodeId} :
    (id, parent) ∈ links order body ↔
      ∃ m m', (memories body)[id]? = some m ∧ (memories body)[parent]? = some m' ∧
        m.parentMem = some m'.result := by
  have hbuilt := built_processRegion body
  rw [links, List.mem_filterMap]
  simp only [(horder _).mem_iff, hbuilt.childToParent_eq, List.mem_filterMap]
  constructor
  · rintro ⟨⟨child, above⟩, ⟨m₀, hm₀, hentry⟩, hlink⟩
    obtain ⟨hchild, habove⟩ := Builder.link_eq_some_iff.mp hlink
    obtain ⟨m, hm, rfl⟩ := (hbuilt.value.eq_some_iff hnodup).mp hchild
    obtain ⟨m', hm', rfl⟩ := (hbuilt.value.eq_some_iff hnodup).mp habove
    obtain ⟨v, hparent, hv⟩ := Option.map_eq_some_iff.mp hentry
    -- two memories with one result are the same
    have hsame : m₀ = m := List.inj_on_of_nodup_map hnodup hm₀ (List.mem_of_getElem? hm)
      (congrArg Prod.fst hv)
    grind
  · intro ⟨m, m', hm, hm', hparent⟩
    exact ⟨(m.result, m'.result), ⟨m, List.mem_of_getElem? hm, by rw [hparent]; rfl⟩,
      Builder.link_eq_some_iff.mpr ⟨(hbuilt.value.eq_some_iff hnodup).mpr ⟨m, hm, rfl⟩,
        (hbuilt.value.eq_some_iff hnodup).mpr ⟨m', hm', rfl⟩⟩⟩

theorem nodup_links : ((links order body).map Prod.fst).Nodup := by
  have hbuilt := built_processRegion body
  have hkeys : (processRegion none .empty body).childToParent.Pairwise fun e e' => e.1 ≠ e'.1 := by
    rw [hbuilt.childToParent_eq, List.pairwise_filterMap]
    refine (List.pairwise_map.mp hnodup).imp fun hne e he e' he' => ?_
    obtain ⟨v, -, rfl⟩ := Option.map_eq_some_iff.mp he
    obtain ⟨v', -, rfl⟩ := Option.map_eq_some_iff.mp he'
    exact hne
  have horder := ((horder _).pairwise_iff fun h => h.symm).mpr hkeys
  refine List.pairwise_map.mpr (List.pairwise_filterMap.mpr (horder.imp ?_))
  intro e e' hne link hlink link' hlink' heq
  obtain ⟨m, hm, hres⟩ := hbuilt.value.get _ _ (Builder.link_eq_some_iff.mp hlink).1
  obtain ⟨m', hm', hres'⟩ := hbuilt.value.get _ _ (Builder.link_eq_some_iff.mp hlink').1
  grind

theorem lookup_links {id parent : NodeId} :
    (links order body).reverse.lookup id = some parent ↔ (id, parent) ∈ links order body := by
  rw [List.lookup_eq_some_iff, ← List.mem_reverse]
  constructor
  · rintro ⟨before, after, heq, -⟩
    exact heq ▸ List.mem_append_right _ List.mem_cons_self
  · intro hmem
    obtain ⟨before, after, heq⟩ := List.append_of_mem hmem
    refine ⟨before, after, heq, fun link hlink => ?_⟩
    have hnodup := List.nodup_reverse.mpr (nodup_links hnodup horder)
    rw [← List.map_reverse, heq, List.map_append, List.nodup_append] at hnodup
    have := hnodup.2.2 _ (List.mem_map_of_mem hlink) id (by simp)
    grind

end Links

omit [DecidableEq R] in
/-- The parent of a memory is declared before it. -/
theorem pairwise_memories (hshared : DeclaredBeforeShared body) :
    (memories body).Pairwise (fun m later => m.parentMem ≠ some later.result) ∧
      ∀ m ∈ memories body, m.parentMem ≠ some m.result := by
  obtain ⟨hlater, hself⟩ := Rose.pairwise_contextsList
    (r := fun (op later : DeviceOp R) => ∀ v ∈ op.sharedMemory, later.memoryResult ≠ some v)
    (fun b hb => absurd hb List.not_mem_nil) hshared
  have hmemory {c : DeviceOp R × List (DeviceOp R)} {m : Memory R} (h : memoryOf c = some m) :
      c.1.memoryResult = some m.result ∧
        ∀ v ∈ m.parentMem, ∃ group ∈ c.2, v ∈ group.sharedMemory := by
    unfold memoryOf at h
    split at h
    · split at h
      · cases h
        refine ⟨rfl, fun v hv => ?_⟩
        obtain ⟨group, hgroup, hhead⟩ := List.exists_of_findSome?_eq_some hv
        exact ⟨group, hgroup, List.mem_of_head? hhead⟩
      · cases h
    · cases h
  refine ⟨List.pairwise_filterMap.mpr (hlater.imp fun hc m hm m' hm' hparent => ?_),
    fun m hm hparent => ?_⟩
  · obtain ⟨group, hgroup, hv⟩ := (hmemory hm).2 _ hparent
    exact hc group hgroup _ hv (hmemory hm').1
  · obtain ⟨c, hc, hm⟩ := List.mem_filterMap.mp hm
    obtain ⟨group, hgroup, hv⟩ := (hmemory hm).2 _ hparent
    exact (hself c hc group hgroup).1 _ hv (hmemory hm).1

/-- What the tree of some memories is: they are its nodes, in order, a memory has the parent that it
was found with, and parents and children agree. -/
structure IsTreeOf (tree : MemoryTree R) (ms : List (Memory R)) : Prop where
  isForest : tree.IsForest
  node : ∀ id, (tree.getNode id).map (fun node =>
      (node.memoryResource, node.capacityInBytes, node.reservedInBytes)) =
    ms[id]?.map fun m => (m.kind, m.size, some m.firstAvailableAddress)
  parent : ∀ id parent, tree.parentOf id = some parent ↔ ∃ m m', ms[id]? = some m ∧
    ms[parent]? = some m' ∧ m.parentMem = some m'.result
  children : ∀ id node, tree.getNode id = some node →
    node.children.Nodup ∧ ∀ child, child ∈ node.children ↔ tree.parentOf child = some id

/-- The tree of a device whose memories are declared before they are shared, whatever the order. -/
theorem initializeTree_isTreeOf (hnodup : ((memories body).map Memory.result).Nodup)
    (hshared : DeclaredBeforeShared body) (horder : ∀ l, (order l).Perm l) :
    (initializeTree order memSpaceMapping body).IsTreeOf (memories body) := by
  obtain ⟨names, hnodes⟩ := exists_nodes order memSpaceMapping body
  have hget := getNode_initializeTree hnodes fun _ _ => rfl
  have hparent (id parent : NodeId) :
      (initializeTree order memSpaceMapping body).parentOf id = some parent ↔
        ∃ m m', (memories body)[id]? = some m ∧ (memories body)[parent]? = some m' ∧
          m.parentMem = some m'.result := by
    rw [parentOf, hget]
    cases hm : (memories body)[id]? with
    | none => simp
    | some m =>
      rw [← hm, ← mem_links hnodup horder, ← lookup_links hnodup horder, hm]
      rfl
  refine ⟨⟨?_, ?_⟩, fun id => ?_, hparent, ?_⟩
  · intro node hnode parent hnodeParent
    have hup := parentOf_eq _ (getNode_eq_some _ hnode)
    obtain ⟨m, m', -, hm', -⟩ := (hparent node.id parent).mp (hup.trans hnodeParent)
    rw [hget, hm']
    rfl
  · -- a parent comes before its children in the walk
    refine Acyclic.flip (Acyclic.of_rank id fun parent child hup => ?_)
    obtain ⟨m, m', hm, hm', hparent⟩ := (hparent child parent).mp hup
    obtain ⟨hlater, hself⟩ := pairwise_memories hshared
    by_contra hge
    rcases Nat.lt_or_eq_of_le (Nat.le_of_not_lt hge) with hlt | heq
    · obtain ⟨hchild, rfl⟩ := List.getElem?_eq_some_iff.mp hm
      obtain ⟨hbelow, rfl⟩ := List.getElem?_eq_some_iff.mp hm'
      exact List.pairwise_iff_getElem.mp hlater child parent hchild hbelow hlt hparent
    · have := hself m (List.mem_of_getElem? hm)
      grind
  · rw [hget, Option.map_map]
    rfl
  · intro id node hnode
    rw [hget] at hnode
    obtain ⟨m, hm, rfl⟩ := Option.map_eq_some_iff.mp hnode
    have hlinks := nodup_links hnodup horder
    refine ⟨hlinks.sublist (List.filter_sublist.map _), fun child => ?_⟩
    rw [hparent, ← mem_links hnodup horder]
    simp only [Memory.linked, List.mem_map, List.mem_filter, decide_eq_true_eq]
    grind

/-- A device with one global memory, shared by a core that has a scratchpad and shares it with a unit
that has registers. -/
def coreDevice : List (Rose (DeviceOp Nat)) :=
  [.node (.memory 0 10 (some 1024) 0) [],
    .node (.group [0])
      [.node (.memory 1 20 (some 64) 8) [], .node (.group [1, 0]) [.node (.memory 2 30 none 0) []],
        .node .other []]]

theorem initializeTree_isTreeOf_core :
    (initializeTree List.reverse [(11, 10)] coreDevice).IsTreeOf (memories coreDevice) :=
  initializeTree_isTreeOf (by decide)
    (by simp [DeclaredBeforeShared, coreDevice, Rose.preorderList, Rose.preorder,
      DeviceOp.sharedMemory, DeviceOp.memoryResult])
    fun l => l.reverse_perm

end Tree

end MemoryTree

end DataflowScheduler
