import Mathlib.Logic.Function.Basic
import DataflowScheduler.Util.Lists

/-!
# The routing graph of a device

`arch_view::RoutingGraph`: memories, load/store units and compute units as nodes, datapaths as
directed edges. Several nodes may carry the same resource, one for each copy of a unit.
-/

namespace DataflowScheduler

abbrev RoutingGraph.NodeId := Nat

open RoutingGraph (NodeId)

/-- `RoutingGraph::ResourceNode::ResourceKind`. -/
inductive ResourceKind where
  | memory
  | compute
  | loadStoreUnit
  deriving Repr, DecidableEq

/-- `RoutingGraph::ResourceNode`, without the capacities. -/
structure ResourceNode (R : Type) where
  id : NodeId
  resource : R
  kind : ResourceKind
  deriving Repr, DecidableEq

/-- `RoutingGraph::EdgeInfo`. -/
structure EdgeInfo where
  source : NodeId
  target : NodeId
  cost : Nat
  deriving Repr, DecidableEq

/-- `RoutingGraph`: nodes in insertion order, and edges in the order they were added. -/
structure RoutingGraph (R : Type) where
  nodes : List (ResourceNode R)
  edges : List EdgeInfo
  nodup_ids : (nodes.map ResourceNode.id).Nodup

namespace RoutingGraph

abbrev Path := List NodeId

variable {R : Type} [DecidableEq R] (graph : RoutingGraph R)

/-- Why a lookup by resource is not allowed. -/
inductive LookupError (R : Type) where
  /-- "resource not found in graph" -/
  | notFound (resource : R)
  /-- "resource maps to multiple nodes; use getNodeIdsForResource" -/
  | multipleNodes (resource : R)
  deriving Repr, DecidableEq

/-- `getNode`, by id. -/
def getNode (id : NodeId) : Option (ResourceNode R) :=
  graph.nodes.find? fun node => node.id == id

def hasNode (id : NodeId) : Bool := (graph.getNode id).isSome

/-- All node ids whose resource is the given one. -/
def getNodeIdsForResource (resource : R) : List NodeId :=
  (graph.nodes.filter fun node => node.resource = resource).map ResourceNode.id

/-- The node id of a resource that exactly one node carries. -/
def getNodeIdForResource (resource : R) : Except (LookupError R) NodeId :=
  match graph.getNodeIdsForResource resource with
  | [] => .error (.notFound resource)
  | [id] => .ok id
  | _ => .error (.multipleNodes resource)

/-- `getNode`, by resource. -/
def getNodeOfResource (resource : R) : Except (LookupError R) (Option (ResourceNode R)) := do
  let id ← graph.getNodeIdForResource resource
  return graph.getNode id

def getAllNodeIds : List NodeId := graph.nodes.map ResourceNode.id

def getNeighbors (id : NodeId) : List NodeId :=
  (graph.edges.filter fun edge => edge.source == id).map EdgeInfo.target

def getEdgeInfo (source target : NodeId) : Option EdgeInfo :=
  graph.edges.find? fun edge => edge.source == source && edge.target == target

/-! ## Shortest paths -/

/-- The search state: nodes to look at, and the predecessor of each visited node other than the
source. -/
structure Search where
  worklist : List NodeId
  visited : List NodeId
  predecessor : NodeId → Option NodeId

/-- Visit the neighbours of `current` that are new. -/
def visit (current : NodeId) (s : Search) (neighbor : NodeId) : Search :=
  if neighbor ∈ s.visited then s
  else
    { worklist := s.worklist ++ [neighbor]
      visited := neighbor :: s.visited
      predecessor := Function.update s.predecessor neighbor (some current) }

/-- The breadth-first loop. Every node enters the worklist at most once, so the number of nodes is
fuel enough. -/
def search (target : NodeId) : Nat → Search → Search
  | 0, s => s
  | fuel + 1, s =>
      match s.worklist with
      | [] => s
      | current :: rest =>
          let s := { s with worklist := rest }
          if current = target then s
          else search target fuel ((graph.getNeighbors current).foldl (visit current) s)

/-- Follow the predecessors from `current` back to `source`, with the path from `current` on in
`suffix`. -/
def backtrack (source : NodeId) (predecessor : NodeId → Option NodeId) :
    Nat → NodeId → Path → Option Path
  | fuel, current, suffix =>
      if current = source then some (current :: suffix)
      else match fuel, predecessor current with
        | fuel + 1, some previous => backtrack source predecessor fuel previous (current :: suffix)
        | _, _ => none

/-- `findShortestPath`. -/
def findShortestPath (source target : NodeId) : Option Path :=
  if !graph.hasNode source || !graph.hasNode target then none
  else
    let s := graph.search target graph.nodes.length
      ⟨[source], [source], fun _ => none⟩
    if target ∈ s.visited then backtrack source s.predecessor graph.nodes.length target []
    else none

omit [DecidableEq R] in
theorem getNode_id {id : NodeId} {node : ResourceNode R} (h : graph.getNode id = some node) :
    node.id = id := by
  have := List.find?_some h
  simpa using this

omit [DecidableEq R] in
theorem getNode_eq_some {node : ResourceNode R} (h : node ∈ graph.nodes) :
    graph.getNode node.id = some node := KeyedList.find?_of_nodup graph.nodup_ids h

/-- A resource with exactly one node is that node's. -/
theorem resource_of_getNodeIdForResource {resource : R} {id : NodeId}
    (h : graph.getNodeIdForResource resource = .ok id) :
    ∃ node, graph.getNode id = some node ∧ node.resource = resource := by
  unfold getNodeIdForResource at h
  split at h
  · cases h
  · next id' hids =>
      cases h
      have hmem : id ∈ graph.getNodeIdsForResource resource := hids ▸ List.mem_singleton_self id
      obtain ⟨node, hnode, rfl⟩ := List.mem_map.mp hmem
      rw [List.mem_filter] at hnode
      exact ⟨node, graph.getNode_eq_some hnode.1, by simpa using hnode.2⟩
  · cases h

/-- A path found by following predecessors runs from the source to where it was started. -/
theorem backtrack_ends {source : NodeId} {predecessor : NodeId → Option NodeId} {fuel : Nat}
    {current : NodeId} {suffix path : Path}
    (h : backtrack source predecessor fuel current suffix = some path) :
    ∃ middle, path = middle ++ suffix ∧ path.head? = some source ∧
      middle.getLast? = some current := by
  induction fuel generalizing current suffix with
  | zero =>
      unfold backtrack at h
      split at h
      · next heq =>
          cases h
          exact ⟨[current], rfl, by simp [heq], rfl⟩
      · cases h
  | succ fuel ih =>
      unfold backtrack at h
      split at h
      · next heq =>
          cases h
          exact ⟨[current], rfl, by simp [heq], rfl⟩
      · split at h
        · next fuel' previous hfuel hprev =>
            cases hfuel
            obtain ⟨middle, rfl, hhead, hlast⟩ := ih h
            exact ⟨middle ++ [current], by simp, hhead, by simp⟩
        · cases h

omit [DecidableEq R] in
/-- The shortest path starts at its source and ends at its target. -/
theorem findShortestPath_ends {source target : NodeId} {path : Path}
    (h : graph.findShortestPath source target = some path) :
    path.head? = some source ∧ path.getLast? = some target := by
  unfold findShortestPath at h
  split at h
  · cases h
  · dsimp only at h
    split at h
    · obtain ⟨middle, rfl, hhead, hlast⟩ := backtrack_ends h
      exact ⟨hhead, by simpa using hlast⟩
    · cases h

end RoutingGraph

end DataflowScheduler
