import Mathlib.Data.List.Perm.Subperm
import DataflowScheduler.Analysis.RoutingGraph
import DataflowScheduler.Util.Walk

/-!
# Shortest paths in the routing graph

`findShortestPath` is a breadth-first search. Every node it visits has a level, the number of edges on
the way back to the source. The levels grow along the nodes that have been taken from the worklist and
those still in it, and no walk from the source gets ahead of the front of the worklist.
-/

namespace DataflowScheduler

namespace RoutingGraph

variable {R : Type} (graph : RoutingGraph R)

/-- There is an edge from one node to the other. -/
def HasEdge (source target : NodeId) : Prop :=
  ∃ edge ∈ graph.edges, edge.source = source ∧ edge.target = target

/-- What `addEdge` asserts of every edge. -/
def EdgesKnown : Prop :=
  ∀ edge ∈ graph.edges, graph.hasNode edge.source ∧ graph.hasNode edge.target

theorem mem_getNeighbors {source target : NodeId} :
    target ∈ graph.getNeighbors source ↔ graph.HasEdge source target := by
  simp [getNeighbors, HasEdge, and_assoc]

/-- The loop of the search, as long as it takes. -/
inductive SearchEnds (target : NodeId) : Search → Search → Prop
  | exhausted {s : Search} : s.worklist = [] → SearchEnds target s s
  | found {s : Search} {rest : List NodeId} :
      s.worklist = target :: rest → SearchEnds target s { s with worklist := rest }
  | round {s s' : Search} {current : NodeId} {rest : List NodeId} :
      s.worklist = current :: rest → current ≠ target →
      SearchEnds target
        ((graph.getNeighbors current).foldl (visit current) { s with worklist := rest }) s' →
      SearchEnds target s s'

variable {graph}

/-! ## One round -/

/-- A round puts the new neighbours at the end of the worklist, each once, with the node as their
predecessor. -/
theorem foldl_visit (current : NodeId) (neighbors : List NodeId) (s : Search) :
    ∃ new : List NodeId, new.Nodup ∧ (∀ v, v ∈ new ↔ v ∈ neighbors ∧ v ∉ s.visited) ∧
      (neighbors.foldl (visit current) s).worklist = s.worklist ++ new ∧
      (∀ v, v ∈ (neighbors.foldl (visit current) s).visited ↔ v ∈ s.visited ∨ v ∈ new) ∧
      ∀ v, (neighbors.foldl (visit current) s).predecessor v =
        if v ∈ new then some current else s.predecessor v := by
  induction neighbors generalizing s with
  | nil => exact ⟨[], by simp⟩
  | cons neighbor neighbors ih =>
      rw [List.foldl_cons]
      by_cases hvisited : neighbor ∈ s.visited
      · rw [visit, if_pos hvisited]
        obtain ⟨new, hnodup, hmem, hrest⟩ := ih s
        refine ⟨new, hnodup, fun v => ?_, hrest⟩
        rw [hmem, List.mem_cons]
        grind
      · rw [visit, if_neg hvisited]
        obtain ⟨new, hnodup, hmem, hwork, hvis, hpred⟩ :=
          ih ⟨s.worklist ++ [neighbor], neighbor :: s.visited,
            Function.update s.predecessor neighbor (some current)⟩
        have hnot : neighbor ∉ new := fun h => ((hmem neighbor).mp h).2 List.mem_cons_self
        refine ⟨neighbor :: new, List.nodup_cons.mpr ⟨hnot, hnodup⟩, fun v => ?_, ?_, fun v => ?_,
          fun v => ?_⟩
        · rw [List.mem_cons, hmem]
          grind
        · rw [hwork, List.append_assoc]
          rfl
        · rw [hvis]
          grind
        · rw [hpred]
          dsimp only
          rw [Function.update_apply]
          grind

/-! ## The frontier -/

/-- What holds between rounds. `finished` are the nodes that have been taken from the worklist, in
that order. -/
structure Explored (graph : RoutingGraph R) (source : NodeId) (level : NodeId → Nat)
    (finished : List NodeId) (s : Search) : Prop where
  nodup : (finished ++ s.worklist).Nodup
  mem_visited : ∀ v, v ∈ s.visited ↔ v ∈ finished ++ s.worklist
  known : ∀ v ∈ s.visited, graph.hasNode v
  source_visited : source ∈ s.visited
  level_source : level source = 0
  /-- Predecessors are one level nearer. -/
  predecessor : ∀ v ∈ s.visited, v = source ∨
    ∃ u ∈ s.visited, s.predecessor v = some u ∧ graph.HasEdge u v ∧ level v = level u + 1
  sorted : (finished ++ s.worklist).Pairwise fun u v => level u ≤ level v
  narrow : ∀ u ∈ s.worklist, ∀ v ∈ s.worklist, level v ≤ level u + 1
  closed : ∀ u ∈ finished, ∀ v, graph.HasEdge u v → v ∈ s.visited ∧ level v ≤ level u + 1

theorem Explored.start {source : NodeId} (hsource : graph.hasNode source) :
    Explored graph source (fun _ => 0) [] ⟨[source], [source], fun _ => none⟩ where
  nodup := List.nodup_singleton source
  mem_visited v := Iff.rfl
  known v hv := by rwa [List.mem_singleton.mp hv]
  source_visited := List.mem_singleton_self source
  level_source := rfl
  predecessor v hv := .inl (List.mem_singleton.mp hv)
  sorted := List.pairwise_singleton _ _
  narrow _ _ _ _ := Nat.zero_le _
  closed := nofun

/-- A round keeps it. -/
theorem Explored.round {source current : NodeId} {level : NodeId → Nat} {finished rest : List NodeId}
    {s : Search} (h : Explored graph source level finished s)
    (hedges : graph.EdgesKnown) (hwork : s.worklist = current :: rest) :
    ∃ level', Explored graph source level' (finished ++ [current])
      ((graph.getNeighbors current).foldl (visit current) { s with worklist := rest }) := by
  obtain ⟨new, hnew, hmem, hwork', hvisited', hpred'⟩ :=
    foldl_visit current (graph.getNeighbors current) { s with worklist := rest }
  dsimp only at hmem hwork' hvisited' hpred'
  generalize (graph.getNeighbors current).foldl (visit current) { s with worklist := rest } = s' at *
  have hfresh : ∀ v ∈ new, v ∉ s.visited := fun v hv => ((hmem v).mp hv).2
  have hcurrent : current ∈ s.visited := (h.mem_visited current).mpr (by simp [hwork])
  -- the new nodes are one level further than the current one, the others stay
  let level' : NodeId → Nat := fun v => if v ∈ new then level current + 1 else level v
  have hold : ∀ v ∈ s.visited, level' v = level v := fun v hv =>
    if_neg fun hin => hfresh v hin hv
  have hnext : ∀ v ∈ new, level' v = level current + 1 := fun v hv => if_pos hv
  have happend : finished ++ [current] ++ s'.worklist = finished ++ s.worklist ++ new := by
    rw [hwork', hwork]
    simp
  have hlevel_current := hold current hcurrent
  have hle_next : ∀ v ∈ s.visited, level v ≤ level current + 1 := by
    intro v hv
    rcases List.mem_append.mp ((h.mem_visited v).mp hv) with hv | hv
    · have := (List.pairwise_append.mp h.sorted).2.2 v hv current (by simp [hwork])
      omega
    · exact h.narrow current (by simp [hwork]) v hv
  refine ⟨level', ?_, fun v => ?_, fun v hv => ?_, ?_, ?_, fun v hv => ?_, ?_, ?_, ?_⟩
  case refine_1 =>
    rw [happend]
    refine List.nodup_append.mpr ⟨h.nodup, hnew, fun u hu v hv huv => ?_⟩
    exact hfresh v hv (huv ▸ (h.mem_visited u).mpr hu)
  case refine_2 => rw [hvisited', happend, List.mem_append, h.mem_visited]
  case refine_3 =>
    rcases (hvisited' v).mp hv with hv | hv
    · exact h.known v hv
    · obtain ⟨edge, hedge, -, rfl⟩ := graph.mem_getNeighbors.mp ((hmem v).mp hv).1
      exact (hedges edge hedge).2
  case refine_4 => exact (hvisited' source).mpr (.inl h.source_visited)
  case refine_5 => rw [hold source h.source_visited, h.level_source]
  case refine_6 =>
    rw [hpred']
    rcases (hvisited' v).mp hv with hv | hv
    · rw [if_neg fun hin => hfresh v hin hv, hold v hv]
      refine (h.predecessor v hv).imp_right fun ⟨u, hu, hpred, hedge, hlevel⟩ => ?_
      exact ⟨u, (hvisited' u).mpr (.inl hu), hpred, hedge, by rw [hold u hu, hlevel]⟩
    · rw [if_pos hv, hnext v hv]
      exact .inr ⟨current, (hvisited' current).mpr (.inl hcurrent), rfl,
        graph.mem_getNeighbors.mp ((hmem v).mp hv).1, by rw [hlevel_current]⟩
  case refine_7 =>
    rw [happend]
    refine List.pairwise_append.mpr ⟨h.sorted.imp_of_mem fun {u v} hu hv hle => ?_,
      List.pairwise_of_forall_mem_list fun u hu v hv => ?_, fun u hu v hv => ?_⟩
    · rwa [hold u ((h.mem_visited u).mpr hu), hold v ((h.mem_visited v).mpr hv)]
    · rw [hnext u hu, hnext v hv]
    · rw [hnext v hv, hold u ((h.mem_visited u).mpr hu)]
      exact hle_next u ((h.mem_visited u).mpr hu)
  case refine_8 =>
    intro u hu v hv
    have hlow : level current ≤ level' u := by
      rw [hwork'] at hu
      rcases List.mem_append.mp hu with hu | hu
      · have hmemu : u ∈ s.worklist := hwork ▸ List.mem_cons_of_mem _ hu
        rw [hold u ((h.mem_visited u).mpr (List.mem_append_right _ hmemu))]
        have hsorted := (List.pairwise_append.mp h.sorted).2.1
        rw [hwork] at hsorted
        exact List.rel_of_pairwise_cons hsorted hu
      · rw [hnext u hu]
        exact Nat.le_succ _
    have hhigh : level' v ≤ level current + 1 := by
      rw [hwork'] at hv
      rcases List.mem_append.mp hv with hv | hv
      · have hvis : v ∈ s.visited := (h.mem_visited v).mpr (by simp [hwork, hv])
        rw [hold v hvis]
        exact hle_next v hvis
      · rw [hnext v hv]
    omega
  case refine_9 =>
    intro u hu v hedge
    rcases List.mem_append.mp hu with hu | hu
    · obtain ⟨hvis, hle⟩ := h.closed u hu v hedge
      refine ⟨(hvisited' v).mpr (.inl hvis), ?_⟩
      rwa [hold v hvis, hold u ((h.mem_visited u).mpr (List.mem_append_left _ hu))]
    · rw [List.mem_singleton.mp hu] at hedge ⊢
      rw [hlevel_current]
      by_cases hvis : v ∈ s.visited
      · exact ⟨(hvisited' v).mpr (.inl hvis), hold v hvis ▸ hle_next v hvis⟩
      · have hin : v ∈ new := (hmem v).mpr ⟨graph.mem_getNeighbors.mpr hedge, hvis⟩
        exact ⟨(hvisited' v).mpr (.inr hin), Nat.le_of_eq (hnext v hin)⟩

/-- No walk from the source gets ahead of the front of the worklist. -/
theorem Explored.level_le {source : NodeId} {level : NodeId → Nat} {finished : List NodeId}
    {s : Search} (h : Explored graph source level finished s) {v : NodeId} {path : List NodeId}
    (hwalk : Walk (fun u v => graph.HasEdge v u) v source path) :
    v ∈ s.visited ∧ level v < path.length ∨
      ∃ front ∈ s.worklist.head?, level front < path.length := by
  induction hwalk with
  | refl => exact .inl ⟨h.source_visited, by simp [h.level_source]⟩
  | @step v u source path hedge hwalk ih =>
      rw [List.length_cons]
      rcases ih h with ⟨hvis, hlt⟩ | ⟨front, hfront, hlt⟩
      · rcases List.mem_append.mp ((h.mem_visited u).mp hvis) with hfin | hwork
        · obtain ⟨hvis, hle⟩ := h.closed u hfin v hedge
          exact .inl ⟨hvis, by omega⟩
        · -- the node is still in the worklist, and not nearer than the front
          cases hlist : s.worklist with
          | nil =>
              rw [hlist] at hwork
              cases hwork
          | cons front rest =>
              refine .inr ⟨front, by simp, ?_⟩
              have hsorted := (List.pairwise_append.mp h.sorted).2.1
              rw [hlist] at hsorted hwork
              rcases List.mem_cons.mp hwork with rfl | hmem
              · omega
              · have := List.rel_of_pairwise_cons hsorted hmem
                omega
      · exact .inr ⟨front, hfront, by omega⟩

/-! ## The search -/

/-- Distinct nodes are no more than the graph has. -/
theorem length_le_nodes {ids : List NodeId} (hnodup : ids.Nodup)
    (hknown : ∀ v ∈ ids, graph.hasNode v) : ids.length ≤ graph.nodes.length := by
  have hsub : ids ⊆ graph.getAllNodeIds := by
    intro v hv
    obtain ⟨node, hnode⟩ := Option.isSome_iff_exists.mp (hknown v hv)
    exact List.mem_map.mpr ⟨node, List.mem_of_find?_eq_some hnode, graph.getNode_id hnode⟩
  have := (List.subperm_of_subset hnodup hsub).length_le
  rwa [getAllNodeIds, List.length_map] at this

/-- With fuel for every node not yet finished the loop ends, at an empty worklist or when the target
comes to its front. -/
theorem search_ends (hedges : graph.EdgesKnown) {source : NodeId} (target : NodeId)
    {level : NodeId → Nat} {finished : List NodeId} {s : Search}
    (h : Explored graph source level finished s) (fuel : Nat)
    (hfuel : graph.nodes.length ≤ fuel + finished.length) :
    SearchEnds graph target s (graph.search target fuel s) ∧
      ∃ level finished last, Explored graph source level finished last ∧
        (graph.search target fuel s).visited = last.visited ∧
        (graph.search target fuel s).predecessor = last.predecessor ∧
        (last.worklist = [] ∨ last.worklist.head? = some target) := by
  induction fuel generalizing level finished s with
  | zero =>
      have hlen := length_le_nodes h.nodup fun v hv => h.known v ((h.mem_visited v).mpr hv)
      rw [List.length_append] at hlen
      have hnil : s.worklist = [] := List.eq_nil_of_length_eq_zero (by omega)
      exact ⟨.exhausted hnil, level, finished, s, h, rfl, rfl, .inl hnil⟩
  | succ fuel ih =>
      rw [search]
      cases hwork : s.worklist with
      | nil => exact ⟨.exhausted hwork, level, finished, s, h, rfl, rfl, .inl hwork⟩
      | cons current rest =>
          dsimp only
          by_cases heq : current = target
          · subst heq
            rw [if_pos rfl]
            exact ⟨.found hwork, level, finished, s, h, rfl, rfl, .inr (by rw [hwork]; rfl)⟩
          · rw [if_neg heq]
            obtain ⟨level', h'⟩ := h.round hedges hwork
            obtain ⟨hends, hlast⟩ := ih h' (by rw [List.length_append, List.length_singleton]; omega)
            exact ⟨.round hwork heq hends, hlast⟩

theorem Explored.backtrack_source {source : NodeId} {level : NodeId → Nat}
    {finished : List NodeId} {s : Search} (h : Explored graph source level finished s) (fuel : Nat)
    (suffix : Path) :
    ∃ path, backtrack source s.predecessor fuel source suffix = some (path ++ suffix) ∧
      Walk graph.HasEdge source source path ∧ path.map level = List.range (level source + 1) ∧
      ∀ x ∈ path, x ∈ s.visited := by
  refine ⟨[source], ?_, .refl source, by simp [h.level_source], ?_⟩
  · unfold backtrack
    rw [if_pos rfl]
    rfl
  · intro x hx
    rw [List.mem_singleton.mp hx]
    exact h.source_visited

/-- The way back from a visited node has one node of every level. -/
theorem Explored.backtrack_eq_some {source : NodeId} {level : NodeId → Nat}
    {finished : List NodeId} {s : Search} (h : Explored graph source level finished s)
    {v : NodeId} (hv : v ∈ s.visited) {fuel : Nat} (hfuel : level v ≤ fuel) (suffix : Path) :
    ∃ path, backtrack source s.predecessor fuel v suffix = some (path ++ suffix) ∧
      Walk graph.HasEdge source v path ∧ path.map level = List.range (level v + 1) ∧
      ∀ x ∈ path, x ∈ s.visited := by
  induction fuel generalizing v suffix with
  | zero =>
      rcases h.predecessor v hv with rfl | ⟨u, -, -, -, hlevel⟩
      · exact h.backtrack_source 0 suffix
      · omega
  | succ fuel ih =>
      by_cases heq : v = source
      · exact heq ▸ h.backtrack_source (fuel + 1) suffix
      · obtain ⟨u, hu, hpred, hedge, hlevel⟩ := (h.predecessor v hv).resolve_left heq
        obtain ⟨path, hpath, hwalk, hmap, hvis⟩ := ih hu (by omega) (v :: suffix)
        refine ⟨path ++ [v], ?_, hwalk.snoc hedge, ?_, fun x hx => ?_⟩
        · unfold backtrack
          rw [if_neg heq, hpred]
          show backtrack source s.predecessor fuel u (v :: suffix) = _
          rw [hpath, List.append_assoc]
          rfl
        · rw [List.map_append, hmap, hlevel, List.range_succ (n := level u + 1)]
          simp [hlevel]
        · rcases List.mem_append.mp hx with hx | hx
          · exact hvis x hx
          · rwa [List.mem_singleton.mp hx]

/-- `findShortestPath` searches until it has seen all it can reach, or the target. It returns nothing
exactly when no walk leads to the target, and else a walk that repeats no node and has the fewest
edges. -/
theorem findShortestPath_shortest (hedges : graph.EdgesKnown) {source target : NodeId}
    (hsource : graph.hasNode source) (htarget : graph.hasNode target) :
    SearchEnds graph target ⟨[source], [source], fun _ => none⟩
      (graph.search target graph.nodes.length ⟨[source], [source], fun _ => none⟩) ∧
    (graph.findShortestPath source target = none ↔
      ¬ Relation.ReflTransGen graph.HasEdge source target) ∧
    ∀ path, graph.findShortestPath source target = some path →
      path.head? = some source ∧ path.getLast? = some target ∧ path.IsChain graph.HasEdge ∧
      path.Nodup ∧
      ∀ other : Path, other.head? = some source → other.getLast? = some target →
        other.IsChain graph.HasEdge → path.length ≤ other.length := by
  obtain ⟨hends, level, finished, last, h, hvisited, hpredecessor, hstop⟩ :=
    search_ends hedges target (Explored.start hsource) graph.nodes.length (by simp)
  refine ⟨hends, ?_⟩
  -- a walk to the target is no shorter than its level
  have hlevel : ∀ other, Walk graph.HasEdge source target other →
      target ∈ last.visited ∧ level target < other.length := by
    intro other hwalk
    have hle := h.level_le hwalk.reverse
    rw [List.length_reverse] at hle
    rcases hle with hle | ⟨front, hfront, hlt⟩
    · exact hle
    · rcases hstop with hnil | htop
      · simp [hnil] at hfront
      · cases htop.symm.trans hfront
        have hmem := List.mem_of_mem_head? hfront
        exact ⟨(h.mem_visited target).mpr (List.mem_append_right _ hmem), hlt⟩
  have hfind : graph.findShortestPath source target =
      if target ∈ last.visited then
        backtrack source last.predecessor graph.nodes.length target []
      else none := by
    unfold findShortestPath
    rw [if_neg (by simp [hsource, htarget])]
    dsimp only
    rw [hvisited, hpredecessor]
  by_cases hvis : target ∈ last.visited
  · obtain ⟨path, hpath, hwalk, hmap, hmem⟩ :
        ∃ path, backtrack source last.predecessor graph.nodes.length target [] = some path ∧
          Walk graph.HasEdge source target path ∧ path.map level = List.range (level target + 1) ∧
          path.Nodup := by
      -- first with fuel for the level, to see that there are nodes for it
      obtain ⟨path, -, -, hmap, hmem⟩ := h.backtrack_eq_some hvis le_rfl []
      have hlen := length_le_nodes (List.Nodup.of_map level (hmap ▸ List.nodup_range))
        fun v hv => h.known v (hmem v hv)
      rw [← List.length_map (f := level), hmap, List.length_range] at hlen
      obtain ⟨path, hpath, hwalk, hmap, -⟩ :=
        h.backtrack_eq_some hvis (show level target ≤ graph.nodes.length by omega) []
      rw [List.append_nil] at hpath
      exact ⟨path, hpath, hwalk, hmap, List.Nodup.of_map level (hmap ▸ List.nodup_range)⟩
    rw [hfind, if_pos hvis, hpath]
    refine ⟨iff_of_false (Option.some_ne_none path) (not_not.mpr hwalk.reflTransGen), ?_⟩
    rintro _ ⟨rfl⟩
    refine ⟨hwalk.head?, hwalk.getLast?, hwalk.isChain, hmem, fun other hhead hlast hchain => ?_⟩
    have hlt := (hlevel other (Walk.iff_isChain.mpr ⟨hhead, hlast, hchain⟩)).2
    have hlen : path.length = level target + 1 := by
      rw [← List.length_range (n := level target + 1), ← hmap, List.length_map]
    omega
  · rw [hfind, if_neg hvis]
    refine ⟨iff_of_true rfl fun hreach => ?_, nofun⟩
    obtain ⟨other, hwalk⟩ := Walk.exists_of_reflTransGen hreach
    exact hvis (hlevel other hwalk).1

/-- Four nodes in a ring, with a second edge across. -/
def ringGraph : RoutingGraph Nat where
  nodes := [⟨0, 10, .memory⟩, ⟨1, 11, .loadStoreUnit⟩, ⟨2, 12, .memory⟩, ⟨3, 13, .compute⟩]
  edges := [⟨0, 1, 1⟩, ⟨1, 2, 1⟩, ⟨2, 3, 1⟩, ⟨3, 0, 1⟩, ⟨1, 3, 1⟩, ⟨1, 3, 2⟩]
  nodup_ids := by decide

theorem findShortestPath_shortest_ring :
    ringGraph.findShortestPath 0 3 = some [0, 1, 3] ∧
      ∀ other : Path, other.head? = some 0 → other.getLast? = some 3 →
        other.IsChain ringGraph.HasEdge → 3 ≤ other.length := by
  have hpath : ringGraph.findShortestPath 0 3 = some [0, 1, 3] := by decide
  have hknown : ringGraph.EdgesKnown := by
    show ∀ edge ∈ ringGraph.edges, _
    decide
  exact ⟨hpath, ((findShortestPath_shortest hknown rfl rfl).2.2 _ hpath).2.2.2.2⟩

end RoutingGraph

end DataflowScheduler
