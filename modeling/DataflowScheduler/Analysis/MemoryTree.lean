import Mathlib.Data.Bool.Basic
import DataflowScheduler.Util.Lists

/-!
# The memory hierarchy of a device

`arch_view::MemoryTree`: one node a memory, with its resource, an optional alias of it, its parent
and its size. Only the queries that address assignment asks are here: which resources are global
memory, and which node a resource names.

The node table is a hash map in the source and its iteration order is unspecified, so `nodes` lists
the nodes in an arbitrary order; that an id occurs once is a field, and so is that
`resourceToNode` indexes the nodes by their canonical resource.
-/

namespace DataflowScheduler

/-- `size_t`. Its arithmetic wraps. -/
abbrev SizeT := BitVec 64

abbrev MemoryTree.NodeId := Nat

open MemoryTree (NodeId)

/-- `MemoryTree::MemoryNode`. -/
structure MemoryNode (R : Type) where
  id : NodeId
  /-- Canonical resource. -/
  memoryResource : R
  /-- Optional alias for this resource. -/
  aliasResource : Option R
  parent : Option NodeId
  children : List NodeId
  capacityInBytes : Option SizeT
  reservedInBytes : Option SizeT
  deriving Repr, DecidableEq

/-- `MemoryTree`. `resourceToNode` and `aliasToNode` are its two indices. -/
structure MemoryTree (R : Type) where
  nodes : List (MemoryNode R)
  resourceToNode : R → Option NodeId
  aliasToNode : R → Option NodeId
  nodup_ids : (nodes.map MemoryNode.id).Nodup
  isSome_resourceToNode : ∀ node ∈ nodes, (resourceToNode node.memoryResource).isSome
  resource_of_resourceToNode : ∀ resource id, resourceToNode resource = some id →
    ∃ node ∈ nodes, node.id = id ∧ node.memoryResource = resource

namespace MemoryTree

variable {R : Type} [DecidableEq R] (tree : MemoryTree R)

/-- Get a memory node by its id. -/
def getNode (id : NodeId) : Option (MemoryNode R) :=
  tree.nodes.find? fun node => node.id == id

/-- Get all node ids in the tree. -/
def getAllNodeIds : List NodeId := tree.nodes.map MemoryNode.id

/-- Get all root nodes (memories with no parent). -/
def getRootNodes : List NodeId :=
  (tree.nodes.filter fun node => node.parent.isNone).map MemoryNode.id

/-- The node a resource names, under its canonical name or under an alias. -/
def getNodeIdForMemory (resource : R) : Option NodeId :=
  match tree.resourceToNode resource with
  | some id => some id
  | none => tree.aliasToNode resource

/-- Whether two resources name the same memory. -/
def areAliases (resource1 resource2 : R) : Bool :=
  if resource1 = resource2 then true
  else match tree.getNodeIdForMemory resource1, tree.getNodeIdForMemory resource2 with
    | some id1, some id2 => id1 == id2
    | _, _ => false

/-- Whether a resource is global memory: a root of the tree, or the alias of one. -/
def isGlobalMemory (memoryResource : R) : Bool :=
  tree.getRootNodes.any fun rootId =>
    match tree.getNode rootId with
    | none => false
    | some root => root.memoryResource == memoryResource || root.aliasResource == some memoryResource

/-- The number of parents above a node, found in at most as many steps as given. -/
def depthFrom : Nat → NodeId → Option Nat
  | 0, _ => none
  | steps + 1, id => do
      let node ← tree.getNode id
      match node.parent with
      | none => some 0
      | some parent => (depthFrom steps parent).map (· + 1)

/-- Get the depth of a node. The parents form a tree, so a walk up has no more steps than nodes. -/
def getNodeDepth (id : NodeId) : Option Nat := depthFrom tree tree.nodes.length id

def getNodesAtDepth (depth : Nat) : List NodeId :=
  tree.getAllNodeIds.filter fun id => tree.getNodeDepth id = some depth

/-- Whether a resource is the scratchpad of a core: a child of a root, or the alias of one. -/
def isPerCoreScratchPadMemory (memoryResource : R) : Bool :=
  if tree.getRootNodes.isEmpty then false
  else (tree.getNodesAtDepth 1).any fun id =>
    match tree.getNode id with
    | none => false
    | some node => node.memoryResource == memoryResource || node.aliasResource == some memoryResource

/-- Every memory with a capacity reserves at most that much of it. -/
def ReservedWithinCapacity : Prop :=
  ∀ node ∈ tree.nodes, ∀ capacity ∈ node.capacityInBytes,
    node.reservedInBytes.getD 0 ≤ capacity

-- Not by `inferInstance`, which tries all `2 ^ 64` values of `capacity`.
instance : Decidable tree.ReservedWithinCapacity :=
  decidable_of_iff (tree.nodes.all fun node => node.capacityInBytes.all fun capacity =>
    node.reservedInBytes.getD 0 ≤ capacity)
    (by simp [ReservedWithinCapacity, List.all_eq_true, Option.all_eq_true])

omit [DecidableEq R] in
/-- The ids are those of the nodes, so looking one up cannot miss. -/
theorem getNode_eq_some {node : MemoryNode R} (h : node ∈ tree.nodes) :
    tree.getNode node.id = some node := KeyedList.find?_of_nodup tree.nodup_ids h

omit [DecidableEq R] in
theorem mem_nodes_of_getNode {id : NodeId} {node : MemoryNode R}
    (h : tree.getNode id = some node) : node ∈ tree.nodes :=
  List.mem_of_find?_eq_some h

omit [DecidableEq R] in
/-- Two canonical resources are indexed at the same node only if they are the same. -/
theorem resourceToNode_inj {r₁ r₂ : R} {id : NodeId} (h₁ : tree.resourceToNode r₁ = some id)
    (h₂ : tree.resourceToNode r₂ = some id) : r₁ = r₂ := by
  obtain ⟨node₁, hmem₁, hid₁, rfl⟩ := tree.resource_of_resourceToNode r₁ id h₁
  obtain ⟨node₂, hmem₂, hid₂, rfl⟩ := tree.resource_of_resourceToNode r₂ id h₂
  have hget : some node₁ = some node₂ := by
    rw [← tree.getNode_eq_some hmem₁, ← tree.getNode_eq_some hmem₂, hid₁, hid₂]
  rw [Option.some.inj hget]

omit [DecidableEq R] in
/-- The same under `getNodeIdForMemory`, which looks at the aliases as well. -/
theorem getNodeIdForMemory_inj {r₁ r₂ : R}
    (h₁ : (tree.resourceToNode r₁).isSome) (h₂ : (tree.resourceToNode r₂).isSome)
    (h : tree.getNodeIdForMemory r₁ = tree.getNodeIdForMemory r₂) : r₁ = r₂ := by
  obtain ⟨id₁, hid₁⟩ := Option.isSome_iff_exists.mp h₁
  obtain ⟨id₂, hid₂⟩ := Option.isSome_iff_exists.mp h₂
  simp only [getNodeIdForMemory, hid₁, hid₂, Option.some.injEq] at h
  exact tree.resourceToNode_inj hid₁ (h ▸ hid₂)

end MemoryTree

end DataflowScheduler
