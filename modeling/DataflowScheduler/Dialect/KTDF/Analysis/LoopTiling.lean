import DataflowScheduler.Util.Chains
import DataflowScheduler.Util.Rose
import DataflowScheduler.Util.Writes

/-!
# Nests of loops for tiling

`LoopTilingInfo` groups the `scf.for` loops of an op into perfect nests, and says of each loop what
it is a candidate for.
-/

namespace DataflowScheduler

namespace LoopTiling

/-- An `mlir::Operation*`. -/
abbrev OpId := Nat

/-- A `ktdf::LoopType`. -/
inductive LoopType where
  | parallelLoop
  | reductionLoop
  deriving DecidableEq

/-- What an op is: an `scf.for` with its `loop_type` attribute, or some other op. -/
inductive OpKind where
  | forOp (loopType : Option LoopType)
  | other
  deriving DecidableEq

/-- An op. Its children are the ops in its regions, without terminators. -/
structure OpInfo where
  id : OpId
  kind : OpKind
  deriving DecidableEq

/-- An op with the ops around it, innermost first. -/
abbrev LocatedOp := Rose OpInfo × List (Rose OpInfo)

def isForOp (op : Rose OpInfo) : Bool :=
  match op.label.kind with
  | .forOp _ => true
  | .other => false

/-- `isParallelLoop`. -/
def isParallelLoop (op : Rose OpInfo) : Bool := op.label.kind = .forOp (some .parallelLoop)

namespace LocatedOp

def id (op : LocatedOp) : OpId := op.1.label.id

/-- Whether there is an `scf.for` around an op. -/
def hasParentForOp (op : LocatedOp) : Bool := op.2.any isForOp

end LocatedOp

/-- All `scf.for` loops in an op, in pre-order. -/
def allLoops (root : Rose OpInfo) : List LocatedOp :=
  (root.withAncestors []).filter fun op => isForOp op.1

mutual

/-- `getPerfectlyNestedLoops`: a loop, and the ones in it as long as a body is one loop alone. -/
def getPerfectlyNestedLoops (above : List (Rose OpInfo)) : Rose OpInfo → List LocatedOp
  | .node info body => (.node info body, above) :: loopsOfBody (.node info body :: above) body

def loopsOfBody (above : List (Rose OpInfo)) : List (Rose OpInfo) → List LocatedOp
  | [] => []
  | op :: ops => if ops.isEmpty && isForOp op then getPerfectlyNestedLoops above op else []

end

/-- The nest that a sub-nest is split off at each loop that is not parallel, and at the last one.
`back` is the last loop. -/
def splitNest (back : Option OpId) (currentSubNest : List LocatedOp) :
    List LocatedOp → List (List LocatedOp)
  | [] => []
  | nestedLoop :: loops =>
      let isParallel := isParallelLoop nestedLoop.1
      let isLast := back = some nestedLoop.id
      if !isParallel || isLast then (currentSubNest ++ [nestedLoop]) :: splitNest back [] loops
      else splitNest back (currentSubNest ++ [nestedLoop]) loops

/-- `LoopTilingMetadata::Strategy`. -/
inductive Strategy where
  | kNone
  | kTiling
  | kStripMining
  deriving DecidableEq

/-- `LoopTilingMetadata`. -/
structure LoopTilingMetadata where
  divisibility : Int
  minValue : Int
  strategy : Strategy
  isInvalidated : Bool
  deriving DecidableEq

/-- `LoopTilingInfo`. -/
structure LoopTilingInfo where
  loopNests : List (List LocatedOp)
  loopToMetadata : OpId → Option LoopTilingMetadata
  loopToNestIndex : OpId → Option Nat

def kMaxLoopNestDepth : Nat := 4

/-- What `assignMetadata` gives to one loop. -/
def metadataFor (nestDepth i : Nat) (loop : LocatedOp) : LoopTilingMetadata where
  divisibility := 1
  minValue := 1
  strategy :=
    if nestDepth > 1 then .kTiling
    else if nestDepth = 1 ∧ i = 0 then if !loop.hasParentForOp then .kStripMining else .kNone
    else .kNone
  isInvalidated := false

/-- The entries that `assignMetadata` makes. -/
def assignMetadata (nest : List LocatedOp) : List (OpId × Option LoopTilingMetadata) :=
  nest.zipIdx.map fun loop => (loop.1.id, some (metadataFor nest.length loop.2 loop.1))

/-- One round of the loop over sub-nests. -/
def recordNest (info : LoopTilingInfo) (nest : List LocatedOp) : LoopTilingInfo where
  loopNests := info.loopNests ++ [nest]
  loopToMetadata := Writes.store info.loopToMetadata (assignMetadata nest)
  loopToNestIndex :=
    Writes.store info.loopToNestIndex (nest.map fun loop => (loop.id, some info.loopNests.length))

/-- The sub-nests that the loop over all loops makes from one loop. -/
def subNestsFrom (loop : LocatedOp) : List (List LocatedOp) :=
  let nestedLoops := (getPerfectlyNestedLoops loop.2 loop.1).take kMaxLoopNestDepth
  splitNest (nestedLoops.getLast?.map LocatedOp.id) [] nestedLoops

/-- One round of the loop over all loops, with the loops visited so far. -/
def visitLoop (state : LoopTilingInfo × List OpId) (loop : LocatedOp) :
    LoopTilingInfo × List OpId :=
  if loop.id ∈ state.2 then state
  else
    let subNests := subNestsFrom loop
    (subNests.foldl recordNest state.1, state.2 ++ subNests.flatten.map LocatedOp.id)

/-- `LoopTilingInfo::computeLoopNests`. -/
def computeLoopNests (root : Rose OpInfo) : LoopTilingInfo :=
  ((allLoops root).foldl visitLoop (⟨[], fun _ => none, fun _ => none⟩, [])).1

/-! ## Perfect nesting -/

/-- The loop that is the whole body of a loop. -/
def perfectlyNested (op : LocatedOp) : Option LocatedOp :=
  match op.1.children with
  | [inner] => if isForOp op.1 && isForOp inner then some (inner, op.1 :: op.2) else none
  | _ => none

/-- The number of loops that a loop is perfectly nested in. -/
def perfectDepth (op : Rose OpInfo) : List (Rose OpInfo) → Nat
  | [] => 0
  | outer :: above =>
      if isForOp outer ∧ outer.children.length = 1 ∧ isForOp op then perfectDepth outer above + 1
      else 0

theorem perfectlyNested_eq_some {outer inner : LocatedOp} :
    perfectlyNested outer = some inner ↔
      isForOp outer.1 ∧ isForOp inner.1 ∧ outer.1.children = [inner.1] ∧
        inner.2 = outer.1 :: outer.2 := by
  rw [perfectlyNested]
  constructor
  · intro h
    split at h
    · next op hchildren =>
        split at h
        · next hfor =>
            obtain ⟨houter, hinner⟩ := Bool.and_eq_true_iff.mp hfor
            cases h
            exact ⟨houter, hinner, hchildren, rfl⟩
        · cases h
    · cases h
  · intro h
    obtain ⟨houter, hinner, hchildren, habove⟩ := h
    rw [hchildren]
    show (if (isForOp outer.1 && isForOp inner.1) = true then some (inner.1, outer.1 :: outer.2)
      else none) = some inner
    rw [if_pos (Bool.and_eq_true_iff.mpr ⟨houter, hinner⟩), ← habove]

/-- The loops that are found from a loop on are its chain. -/
theorem take_getPerfectlyNestedLoops {loop : LocatedOp} (hfor : isForOp loop.1) (n : Nat) :
    (getPerfectlyNestedLoops loop.2 loop.1).take n = Chains.chain perfectlyNested n loop := by
  obtain ⟨op, above⟩ := loop
  induction n generalizing op above with
  | zero => rfl
  | succ n ih =>
      cases op with
      | node info body =>
          rw [getPerfectlyNestedLoops, List.take_succ_cons]
          cases hnext : perfectlyNested (.node info body, above) with
          | none =>
              rw [Chains.chain_succ_of_none hnext]
              have hbody : loopsOfBody (.node info body :: above) body = [] := by
                cases body with
                | nil => rfl
                | cons inner body =>
                    rw [loopsOfBody, if_neg]
                    intro hsingle
                    obtain ⟨hempty, hinner⟩ := Bool.and_eq_true_iff.mp hsingle
                    have hnil := List.isEmpty_iff.mp hempty
                    subst hnil
                    have hsome : perfectlyNested (.node info [inner], above) =
                        some (inner, .node info [inner] :: above) :=
                      perfectlyNested_eq_some.mpr ⟨hfor, hinner, rfl, rfl⟩
                    rw [hnext] at hsome
                    cases hsome
              rw [hbody, List.take_nil]
          | some inner =>
              obtain ⟨-, hinner, hchildren, habove⟩ := perfectlyNested_eq_some.mp hnext
              rw [Chains.chain_succ_of_some hnext]
              obtain ⟨inner, around⟩ := inner
              rw [Rose.children_node] at hchildren
              dsimp only at hchildren habove hinner
              subst hchildren habove
              rw [loopsOfBody, if_pos (by simp [hinner]), ih _ _ hinner]

/-! ## The loops of an op and their chains -/

section

variable {root : Rose OpInfo}

/-- The ops are different ones. -/
def DistinctOps (root : Rose OpInfo) : Prop := (root.preorder.map OpInfo.id).Nodup

instance (root : Rose OpInfo) : Decidable (DistinctOps root) :=
  inferInstanceAs (Decidable (root.preorder.map OpInfo.id).Nodup)

theorem DistinctOps.nodup_ids (h : DistinctOps root) :
    ((allLoops root).map LocatedOp.id).Nodup := by
  have hall : ((root.withAncestors []).map LocatedOp.id).Nodup := by
    have hids : (root.withAncestors []).map LocatedOp.id = root.preorder.map OpInfo.id := by
      rw [← Rose.map_label_withAncestors [] root, List.map_map]
      rfl
    rw [hids]
    exact h
  exact hall.sublist (List.filter_sublist.map _)

theorem mem_allLoops {loop : LocatedOp} :
    loop ∈ allLoops root ↔ loop ∈ root.withAncestors [] ∧ isForOp loop.1 :=
  List.mem_filter

/-- The loop around a perfectly nested one is a loop of the op, too, and comes first. -/
theorem perfectlyNested_sublist {outer inner : LocatedOp} (hinner : inner ∈ allLoops root)
    (h : perfectlyNested outer = some inner) : [outer, inner].Sublist (allLoops root) := by
  obtain ⟨houterFor, hinnerFor, -, habove⟩ := perfectlyNested_eq_some.mp h
  obtain ⟨inner, around⟩ := inner
  dsimp only at habove
  subst habove
  have hsub := Rose.parent_sublist_withAncestors (mem_allLoops.mp hinner).1 (Nat.zero_le _)
  have hfilter := hsub.filter fun op => isForOp op.1
  have hboth : [outer, (inner, outer.1 :: outer.2)].filter (fun op => isForOp op.1) =
      [outer, (inner, outer.1 :: outer.2)] := by
    apply List.filter_eq_self.mpr
    intro op hop
    rcases List.mem_cons.mp hop with heq | hop
    · exact heq ▸ houterFor
    · exact List.mem_singleton.mp hop ▸ hinnerFor
  exact hboth ▸ hfilter

/-- The loops of an op are ranked by how deep they are perfectly nested. -/
theorem ranked (h : DistinctOps root) :
    Chains.Ranked perfectlyNested (allLoops root) fun loop => perfectDepth loop.1 loop.2 where
  nodup := h.nodup_ids.of_map _
  mem_next := by
    intro outer houter inner hnext
    obtain ⟨-, hinnerFor, hchildren, habove⟩ := perfectlyNested_eq_some.mp hnext
    refine mem_allLoops.mpr ⟨?_, hinnerFor⟩
    apply Rose.withAncestors_subset (mem_allLoops.mp houter).1
    obtain ⟨outer, around⟩ := outer
    obtain ⟨inner, above⟩ := inner
    cases outer with
    | node info body =>
        dsimp only at hchildren habove
        rw [Rose.children_node] at hchildren
        subst hchildren habove
        rw [Rose.withAncestors_node, List.flatMap_singleton]
        exact List.mem_cons_of_mem _ (Rose.self_mem_withAncestors _ _)
  inj := by
    intro a b c ha hb
    obtain ⟨-, -, -, ha⟩ := perfectlyNested_eq_some.mp ha
    obtain ⟨-, -, -, hb⟩ := perfectlyNested_eq_some.mp hb
    obtain ⟨hop, habove⟩ := List.cons.inj (ha.symm.trans hb)
    exact Prod.ext hop habove
  predecessorsFirst :=
    PredecessorsFirst.of_sublist (h.nodup_ids.of_map _) fun _ _ hnext hinner =>
      perfectlyNested_sublist hinner hnext
  depth_next := by
    intro outer inner hnext
    obtain ⟨houterFor, hinnerFor, hchildren, habove⟩ := perfectlyNested_eq_some.mp hnext
    rw [habove, perfectDepth, if_pos ⟨houterFor, by rw [hchildren]; rfl, hinnerFor⟩]
  exists_prev := by
    intro inner hinner hdepth
    obtain ⟨op, above⟩ := inner
    cases above with
    | nil => exact absurd rfl hdepth
    | cons outer above =>
        dsimp only at hdepth
        rw [perfectDepth] at hdepth
        split at hdepth
        · next hcond =>
            obtain ⟨houterFor, hsingle, hinnerFor⟩ := hcond
            have hmem := Rose.mem_children_of_mem (mem_allLoops.mp hinner).1 (Nat.zero_le _)
            obtain ⟨child, hchildren⟩ := List.length_eq_one_iff.mp hsingle
            rw [hchildren, List.mem_singleton] at hmem
            subst hmem
            exact ⟨(outer, above), perfectlyNested_eq_some.mpr
              ⟨houterFor, hinnerFor, hchildren, rfl⟩⟩
        · exact absurd rfl hdepth

end

/-! ## Splitting a nest -/

section

variable {back : Option OpId} {current loops : List LocatedOp}

/-- The last loop is known by its identity. -/
def IsBack (back : Option OpId) (loops : List LocatedOp) : Prop :=
  ∀ first loop rest, loops = first ++ loop :: rest → (back = some loop.id ↔ rest = [])

theorem IsBack.tail {loop : LocatedOp} (h : IsBack back (loop :: loops)) : IsBack back loops := by
  intro first loop' rest hsplit
  exact h (loop :: first) loop' rest (by rw [hsplit]; rfl)

theorem isBack_getLast (h : (loops.map LocatedOp.id).Nodup) :
    IsBack (loops.getLast?.map LocatedOp.id) loops := by
  intro first loop rest hsplit
  constructor
  · intro hback
    rcases List.eq_nil_or_concat rest with hnil | ⟨rest', last, hconcat⟩
    · exact hnil
    · exfalso
      rw [hconcat, List.concat_eq_append] at hsplit
      rw [hsplit, ← List.cons_append, ← List.append_assoc, List.getLast?_concat] at hback
      have heq : last.id = loop.id := Option.some.inj hback
      rw [hsplit, List.map_append, List.map_cons, List.map_append, List.map_singleton, heq] at h
      exact (List.nodup_cons.mp (List.nodup_append.mp h).2.1).1 (by simp)
  · intro hnil
    rw [hsplit, hnil, List.getLast?_concat]
    rfl

/-- Splitting loses no loop. -/
theorem flatten_splitNest (h : IsBack back loops) (hne : loops = [] → current = []) :
    (splitNest back current loops).flatten = current ++ loops := by
  induction loops generalizing current with
  | nil =>
      rw [hne rfl]
      rfl
  | cons loop loops ih =>
      rw [splitNest]
      split
      · rw [List.flatten_cons, ih h.tail fun _ => rfl, List.append_assoc]
        simp
      · next hcond =>
          rw [ih h.tail]
          · simp
          · intro hnil
            exact absurd ((h [] loop loops rfl).mpr hnil) fun hback => hcond (by simp [hback])

theorem ne_nil_of_mem_splitNest {nest : List LocatedOp}
    (hmem : nest ∈ splitNest back current loops) : nest ≠ [] := by
  induction loops generalizing current with
  | nil => cases hmem
  | cons loop loops ih =>
      rw [splitNest] at hmem
      split at hmem
      · rcases List.mem_cons.mp hmem with heq | hmem
        · rw [heq]
          simp
        · exact ih hmem
      · exact ih hmem

/-- What has to hold of neighbours for a nest not to end with a loop that is not parallel. -/
def StaysParallel (outer inner : LocatedOp) : Prop :=
  isParallelLoop outer.1 → isParallelLoop inner.1

/-- The nests that are split off have parallel loops only, apart from single loops, exactly if no
parallel loop is followed by one that is not. -/
theorem splitNest_parallel_iff (h : IsBack back loops)
    (hcurrent : ∀ loop ∈ current, isParallelLoop loop.1) :
    (∀ nest ∈ splitNest back current loops, 1 < nest.length → ∀ loop ∈ nest,
        isParallelLoop loop.1) ↔ (current ++ loops).IsChain StaysParallel := by
  have hparallel : ∀ l : List LocatedOp, (∀ loop ∈ l, isParallelLoop loop.1) →
      l.IsChain StaysParallel := by
    intro l hl
    apply List.isChain_iff_getElem.mpr
    intro i hi _
    exact hl _ (List.getElem_mem hi)
  induction loops generalizing current with
  | nil =>
      rw [List.append_nil]
      exact ⟨fun _ => hparallel current hcurrent, fun _ nest hmem => by cases hmem⟩
  | cons loop loops ih =>
      rw [splitNest]
      by_cases hpar : isParallelLoop loop.1
      · have hextended : ∀ loop' ∈ current ++ [loop], isParallelLoop loop'.1 := by
          intro loop' hmem
          rcases List.mem_append.mp hmem with hmem | hmem
          · exact hcurrent loop' hmem
          · rwa [List.mem_singleton.mp hmem]
        by_cases hback : back = some loop.id
        · -- the last loop of all
          have hnil : loops = [] := (h [] loop loops rfl).mp hback
          subst hnil
          rw [if_pos (by simp [hback])]
          refine ⟨fun _ => hparallel _ hextended, fun _ nest hmem _ => ?_⟩
          rw [List.mem_singleton.mp hmem]
          exact hextended
        · have hrest := ih h.tail hextended
          rw [← List.append_cons] at hrest
          rw [if_neg (by simp [hpar, hback])]
          exact hrest
      · have hnone := @ih [] h.tail (by simp)
        rw [List.nil_append] at hnone
        rw [if_pos (by simp [hpar]), List.forall_mem_cons, List.isChain_append]
        apply (and_congr_right' hnone).trans
        have hrest : loops.IsChain StaysParallel ↔ (loop :: loops).IsChain StaysParallel := by
          cases loops with
          | nil => simp
          | cons next loops =>
              rw [List.isChain_cons_cons]
              exact ⟨fun hchain => ⟨fun hp => absurd hp hpar, hchain⟩, fun hchain => hchain.2⟩
        rw [hrest]
        constructor
        · intro hall
          obtain ⟨hnest, hchain⟩ := hall
          refine ⟨hparallel _ hcurrent, hchain, fun x hx y hy => ?_⟩
          have hne : current ≠ [] := by
            intro hnil
            rw [hnil] at hx
            cases hx
          have hlen : 1 < (current ++ [loop]).length := by
            have := List.length_pos_of_ne_nil hne
            rw [List.length_append, List.length_singleton]
            omega
          exact absurd (hnest hlen loop (by simp)) hpar
        · intro hall
          obtain ⟨-, hchain, hjoin⟩ := hall
          refine ⟨fun hlen => ?_, hchain⟩
          exfalso
          rcases List.eq_nil_or_concat current with hnil | ⟨first, last, hconcat⟩
          · rw [hnil] at hlen
            simp at hlen
          · rw [List.concat_eq_append] at hconcat
            rw [hconcat, List.getLast?_concat] at hjoin
            refine hpar (hjoin last rfl loop rfl (hcurrent last ?_))
            rw [hconcat]
            simp

end

/-! ## The sub-nests of one loop -/

section

variable {root : Rose OpInfo}

/-- The loops that the pass looks at from a loop on. -/
abbrev nestFrom (loop : LocatedOp) : List LocatedOp :=
  Chains.chain perfectlyNested kMaxLoopNestDepth loop

theorem subNestsFrom_eq {loop : LocatedOp} (hloop : loop ∈ allLoops root) :
    subNestsFrom loop =
      splitNest ((nestFrom loop).getLast?.map LocatedOp.id) [] (nestFrom loop) := by
  rw [subNestsFrom, take_getPerfectlyNestedLoops (mem_allLoops.mp hloop).2]

/-- Loops are told apart by their identities. -/
theorem DistinctOps.id_inj (h : DistinctOps root) {a b : LocatedOp} (ha : a ∈ allLoops root)
    (hb : b ∈ allLoops root) (heq : a.id = b.id) : a = b :=
  List.inj_on_of_nodup_map h.nodup_ids ha hb heq

theorem isBack_nestFrom (h : DistinctOps root) {loop : LocatedOp} (hloop : loop ∈ allLoops root) :
    IsBack ((nestFrom loop).getLast?.map LocatedOp.id) (nestFrom loop) := by
  apply isBack_getLast
  apply List.Nodup.map_on _ ((ranked h).nodup_chain _ _)
  intro a ha b hb heq
  exact h.id_inj ((ranked h).mem_of_mem_chain hloop ha) ((ranked h).mem_of_mem_chain hloop hb) heq

theorem flatten_subNestsFrom (h : DistinctOps root) {loop : LocatedOp}
    (hloop : loop ∈ allLoops root) : (subNestsFrom loop).flatten = nestFrom loop := by
  rw [subNestsFrom_eq hloop, flatten_splitNest (isBack_nestFrom h hloop) fun _ => rfl,
    List.nil_append]

/-- Each sub-nest is a part of a chain. -/
theorem infix_of_mem_subNestsFrom (h : DistinctOps root) {loop : LocatedOp}
    (hloop : loop ∈ allLoops root) {nest : List LocatedOp} (hnest : nest ∈ subNestsFrom loop) :
    nest <:+: nestFrom loop := by
  obtain ⟨before, after, hsplit⟩ := List.append_of_mem hnest
  rw [← flatten_subNestsFrom h hloop, hsplit, List.flatten_append, List.flatten_cons]
  exact ⟨before.flatten, after.flatten, List.append_assoc ..⟩

/-! ## The whole run -/

/-- The loops that are not visited yet when it is their turn. -/
def startLoops (root : Rose OpInfo) : List LocatedOp :=
  (allLoops root).filter fun loop => perfectDepth loop.1 loop.2 % kMaxLoopNestDepth = 0

theorem mem_startLoops {loop : LocatedOp} : loop ∈ startLoops root ↔
    loop ∈ allLoops root ∧ perfectDepth loop.1 loop.2 % kMaxLoopNestDepth = 0 := by
  rw [startLoops, List.mem_filter, decide_eq_true_eq]

/-- What the loop over all loops has done after the first ones: the nests of those at a depth
divisible by the maximal one are recorded, and their loops are visited. -/
structure Visited (root : Rose OpInfo) (first : List LocatedOp)
    (state : LoopTilingInfo × List OpId) : Prop where
  info : state.1 = ((first.filter fun loop =>
    perfectDepth loop.1 loop.2 % kMaxLoopNestDepth = 0).flatMap subNestsFrom).foldl recordNest
      ⟨[], fun _ => none, fun _ => none⟩
  visited : ∀ loop ∈ allLoops root, loop.id ∈ state.2 ↔
    ∃ start ∈ first, perfectDepth start.1 start.2 % kMaxLoopNestDepth = 0 ∧ loop ∈ nestFrom start

theorem Visited.visitLoop (h : DistinctOps root) {first rest : List LocatedOp} {loop : LocatedOp}
    {state : LoopTilingInfo × List OpId} (hv : Visited root first state)
    (hloops : allLoops root = first ++ loop :: rest) :
    Visited root (first ++ [loop]) (visitLoop state loop) := by
  have hloop : loop ∈ allLoops root := by rw [hloops]; simp
  have hcovered := (hv.visited loop hloop).trans
    ((ranked h).covered_iff (show 0 < kMaxLoopNestDepth by decide) hloops)
  by_cases hstart : perfectDepth loop.1 loop.2 % kMaxLoopNestDepth = 0
  · have hnew : loop.id ∉ state.2 := fun hmem => hcovered.mp hmem hstart
    have hfilter : [loop].filter
        (fun loop => perfectDepth loop.1 loop.2 % kMaxLoopNestDepth = 0) = [loop] := by
      simp [hstart]
    rw [LoopTiling.visitLoop, if_neg hnew]
    constructor
    · rw [List.filter_append, hfilter, List.flatMap_append, List.flatMap_singleton,
        List.foldl_append, ← hv.info]
    · intro loop' hloop'
      show loop'.id ∈ state.2 ++ (subNestsFrom loop).flatten.map LocatedOp.id ↔ _
      rw [flatten_subNestsFrom h hloop, List.mem_append, hv.visited loop' hloop']
      constructor
      · intro hmem
        rcases hmem with hmem | hmem
        · obtain ⟨start, hmemStart, hrest⟩ := hmem
          exact ⟨start, List.mem_append_left _ hmemStart, hrest⟩
        · obtain ⟨inner, hinner, heq⟩ := List.mem_map.mp hmem
          have := h.id_inj ((ranked h).mem_of_mem_chain hloop hinner) hloop' heq
          exact ⟨loop, by simp, hstart, this ▸ hinner⟩
      · intro hmem
        obtain ⟨start, hmemStart, hrest⟩ := hmem
        rcases List.mem_append.mp hmemStart with hmemStart | hmemStart
        · exact Or.inl ⟨start, hmemStart, hrest⟩
        · rw [List.mem_singleton.mp hmemStart] at hrest
          exact Or.inr (List.mem_map_of_mem hrest.2)
  · rw [LoopTiling.visitLoop, if_pos (hcovered.mpr hstart)]
    constructor
    · have hfilter : [loop].filter
          (fun loop => perfectDepth loop.1 loop.2 % kMaxLoopNestDepth = 0) = [] := by
        simp [hstart]
      rw [List.filter_append, hfilter, List.append_nil]
      exact hv.info
    · intro loop' hloop'
      rw [hv.visited loop' hloop']
      constructor
      · intro hmem
        obtain ⟨start, hmemStart, hrest⟩ := hmem
        exact ⟨start, List.mem_append_left _ hmemStart, hrest⟩
      · intro hmem
        obtain ⟨start, hmemStart, hrest⟩ := hmem
        rcases List.mem_append.mp hmemStart with hmemStart | hmemStart
        · exact ⟨start, hmemStart, hrest⟩
        · rw [List.mem_singleton.mp hmemStart] at hrest
          exact absurd hrest.1 hstart

/-- The nests that are recorded, one after the other. -/
def recordedNests (root : Rose OpInfo) : List (List LocatedOp) :=
  (startLoops root).flatMap subNestsFrom

theorem computeLoopNests_eq (h : DistinctOps root) :
    computeLoopNests root =
      (recordedNests root).foldl recordNest ⟨[], fun _ => none, fun _ => none⟩ := by
  have hrun : ∀ rest first state, allLoops root = first ++ rest → Visited root first state →
      Visited root (allLoops root) (rest.foldl visitLoop state) := by
    intro rest
    induction rest with
    | nil =>
        intro first state hloops hv
        rw [List.append_nil] at hloops
        exact hloops ▸ hv
    | cons loop rest ih =>
        intro first state hloops hv
        refine ih (first ++ [loop]) _ ?_ (hv.visitLoop h hloops)
        rw [hloops]
        simp
  have hstart : Visited root [] (⟨[], fun _ => none, fun _ => none⟩, []) :=
    ⟨rfl, fun loop _ => by simp⟩
  exact (hrun _ _ _ rfl hstart).info

theorem mem_recordedNests {nest : List LocatedOp} :
    nest ∈ recordedNests root ↔ ∃ loop ∈ startLoops root, nest ∈ subNestsFrom loop :=
  List.mem_flatMap

/-- All loops are recorded, once each. -/
theorem flatten_recordedNests_perm (h : DistinctOps root) :
    (recordedNests root).flatten.Perm (allLoops root) := by
  have hflatten : (recordedNests root).flatten = (startLoops root).flatMap nestFrom := by
    rw [recordedNests, List.flatMap_def, List.flatMap_def, List.flatten_flatten, List.map_map]
    congr 1
    apply List.map_congr_left
    intro loop hloop
    exact flatten_subNestsFrom h (mem_startLoops.mp hloop).1
  rw [hflatten]
  exact (ranked h).flatMap_chain_perm (by decide)

/-- What recording nests leaves behind. -/
theorem foldl_recordNest (nests : List (List LocatedOp)) (info : LoopTilingInfo) :
    nests.foldl recordNest info =
      ⟨info.loopNests ++ nests, Writes.store info.loopToMetadata (nests.flatMap assignMetadata),
        Writes.store info.loopToNestIndex ((nests.zipIdx info.loopNests.length).flatMap fun nest =>
          nest.1.map fun loop => (loop.id, some nest.2))⟩ := by
  induction nests generalizing info with
  | nil => simp
  | cons nest nests ih =>
      rw [List.foldl_cons, ih, List.flatMap_cons, List.zipIdx_cons, List.flatMap_cons,
        Writes.store_append, Writes.store_append]
      simp only [recordNest, List.append_assoc, List.singleton_append, List.length_append,
        List.length_singleton]

theorem loopNests_computeLoopNests (h : DistinctOps root) :
    (computeLoopNests root).loopNests = recordedNests root := by
  rw [computeLoopNests_eq h, foldl_recordNest, List.nil_append]

/-- Each loop is found at the index of a nest that it is in. -/
theorem loopToNestIndex_computeLoopNests (h : DistinctOps root) {loop : LocatedOp}
    (hloop : loop ∈ allLoops root) :
    ∃ i nest, (computeLoopNests root).loopToNestIndex loop.id = some i ∧
      (recordedNests root)[i]? = some nest ∧ loop ∈ nest := by
  rw [computeLoopNests_eq h, foldl_recordNest]
  obtain ⟨nest, hnest, hmem⟩ := List.mem_flatten.mp
    ((flatten_recordedNests_perm h).mem_iff.mpr hloop)
  obtain ⟨i, hi⟩ := List.mem_iff_getElem?.mp hnest
  have hwritten : ∃ w ∈ ((recordedNests root).zipIdx 0).flatMap fun nest =>
      nest.1.map fun loop => (loop.id, some nest.2), w.1 = loop.id :=
    ⟨(loop.id, some i), List.mem_flatMap.mpr ⟨(nest, i), List.mk_mem_zipIdx_iff_getElem?.mpr hi,
      List.mem_map_of_mem hmem⟩, rfl⟩
  obtain ⟨w, hw, hkey, hstore⟩ := @Writes.exists_store_eq _ _ _ (fun _ => none) _ _ hwritten
  obtain ⟨nest', hnest', hw⟩ := List.mem_flatMap.mp hw
  obtain ⟨loop', hloop', rfl⟩ := List.mem_map.mp hw
  have hget := List.mk_mem_zipIdx_iff_getElem?.mp hnest'
  have hloop'' : loop' ∈ allLoops root := (flatten_recordedNests_perm h).mem_iff.mp
    (List.mem_flatten.mpr ⟨_, List.mem_of_getElem? hget, hloop'⟩)
  exact ⟨nest'.2, nest'.1, hstore, hget, h.id_inj hloop'' hloop hkey ▸ hloop'⟩

/-- A loop that is a candidate for tiling is in a nest of more than one loop. -/
theorem loopToMetadata_computeLoopNests (h : DistinctOps root) {loop : LocatedOp}
    (hloop : loop ∈ allLoops root) {metadata : LoopTilingMetadata}
    (hmetadata : (computeLoopNests root).loopToMetadata loop.id = some metadata)
    (htiling : metadata.strategy = .kTiling) :
    ∃ nest ∈ recordedNests root, 1 < nest.length ∧ loop ∈ nest := by
  rw [computeLoopNests_eq h, foldl_recordNest] at hmetadata
  have hmemAssigned : ∀ {nest : List LocatedOp} {loop : LocatedOp}, loop ∈ nest →
      ∃ i, (loop.id, some (metadataFor nest.length i loop)) ∈ assignMetadata nest := by
    intro nest loop hmem
    obtain ⟨i, hi⟩ := List.mem_iff_getElem?.mp hmem
    exact ⟨i, List.mem_map.mpr ⟨(loop, i), List.mk_mem_zipIdx_iff_getElem?.mpr hi, rfl⟩⟩
  obtain ⟨nest, hnest, hmem⟩ := List.mem_flatten.mp
    ((flatten_recordedNests_perm h).mem_iff.mpr hloop)
  obtain ⟨i, hi⟩ := hmemAssigned hmem
  obtain ⟨w, hw, hkey, hstore⟩ := @Writes.exists_store_eq _ _ _ (fun _ => none) _ _
    ⟨_, List.mem_flatMap.mpr ⟨nest, hnest, hi⟩, rfl⟩
  obtain ⟨nest', hnest', hw⟩ := List.mem_flatMap.mp hw
  obtain ⟨loop', hloop', rfl⟩ := List.mem_map.mp hw
  have hmem' : loop'.1 ∈ nest' := by
    obtain ⟨loop', i⟩ := loop'
    exact List.mem_of_getElem? (List.mk_mem_zipIdx_iff_getElem?.mp hloop')
  have hloop'' : loop'.1 ∈ allLoops root := (flatten_recordedNests_perm h).mem_iff.mp
    (List.mem_flatten.mpr ⟨_, hnest', hmem'⟩)
  refine ⟨nest', hnest', ?_, h.id_inj hloop'' hloop hkey ▸ hmem'⟩
  have heq : some (metadataFor nest'.length loop'.2 loop'.1) = some metadata :=
    hstore.symm.trans hmetadata
  rw [← Option.some.inj heq] at htiling
  by_contra hshort
  rw [metadataFor, if_neg hshort] at htiling
  split at htiling
  · split at htiling <;> cases htiling
  · cases htiling

/-- Nests that group the loops of an op as they are meant to. -/
structure NestsLoops (root : Rose OpInfo) (info : LoopTilingInfo) : Prop where
  /-- Every loop is in exactly one nest. -/
  once : info.loopNests.flatten.Perm (allLoops root)
  index : ∀ loop ∈ allLoops root, ∃ i nest, info.loopToNestIndex loop.id = some i ∧
    info.loopNests[i]? = some nest ∧ loop ∈ nest
  /-- A nest is a chain of perfectly nested loops, outermost first. -/
  chain : ∀ nest ∈ info.loopNests, nest ≠ [] ∧ nest.length ≤ kMaxLoopNestDepth ∧
    nest.IsChain fun outer inner => perfectlyNested outer = some inner
  parallel : ∀ nest ∈ info.loopNests, 1 < nest.length → ∀ loop ∈ nest, isParallelLoop loop.1
  tiling : ∀ loop ∈ allLoops root, ∀ metadata, info.loopToMetadata loop.id = some metadata →
    metadata.strategy = .kTiling → isParallelLoop loop.1

/-- The nests are as they are meant to exactly if no parallel loop has a loop that is not parallel as
its whole body, except where a new nest starts because the one around has the maximal depth. -/
theorem computeLoopNests_nestsLoops_iff (h : DistinctOps root) :
    NestsLoops root (computeLoopNests root) ↔
      ∀ outer ∈ allLoops root, ∀ inner, perfectlyNested outer = some inner →
        perfectDepth inner.1 inner.2 % kMaxLoopNestDepth ≠ 0 →
          isParallelLoop outer.1 → isParallelLoop inner.1 := by
  have hsplit : (∀ nest ∈ recordedNests root, 1 < nest.length → ∀ loop ∈ nest,
      isParallelLoop loop.1) ↔
      ∀ start ∈ startLoops root, (nestFrom start).IsChain StaysParallel := by
    have hone : ∀ start ∈ startLoops root, (∀ nest ∈ subNestsFrom start, 1 < nest.length →
        ∀ loop ∈ nest, isParallelLoop loop.1) ↔ (nestFrom start).IsChain StaysParallel := by
      intro start hstart
      have hloop := (mem_startLoops.mp hstart).1
      rw [subNestsFrom_eq hloop]
      exact splitNest_parallel_iff (isBack_nestFrom h hloop) (by simp)
    constructor
    · intro hall start hstart
      apply (hone start hstart).mp
      exact fun nest hnest => hall nest (mem_recordedNests.mpr ⟨start, hstart, hnest⟩)
    · intro hall nest hnest
      obtain ⟨start, hstart, hnest⟩ := mem_recordedNests.mp hnest
      exact (hone start hstart).mpr (hall start hstart) nest hnest
  have hiff := hsplit.trans ((ranked h).forall_isChain_iff (by decide))
  constructor
  · intro hnests outer houter inner hnext hdepth
    refine hiff.mp (fun nest hnest => ?_) outer houter inner hnext hdepth
    exact hnests.parallel nest (loopNests_computeLoopNests h ▸ hnest)
  · intro hall
    have hparallel := hiff.mpr hall
    constructor
    · rw [loopNests_computeLoopNests h]
      exact flatten_recordedNests_perm h
    · intro loop hloop
      rw [loopNests_computeLoopNests h]
      exact loopToNestIndex_computeLoopNests h hloop
    · intro nest hnest
      rw [loopNests_computeLoopNests h] at hnest
      obtain ⟨start, hstart, hnest⟩ := mem_recordedNests.mp hnest
      have hinfix := infix_of_mem_subNestsFrom h (mem_startLoops.mp hstart).1 hnest
      refine ⟨ne_nil_of_mem_splitNest hnest, ?_, Chains.isChain_of_infix_chain hinfix⟩
      exact hinfix.length_le.trans (Chains.length_chain_le _ _)
    · rw [loopNests_computeLoopNests h]
      exact hparallel
    · intro loop hloop metadata hmetadata htiling
      obtain ⟨nest, hnest, hlen, hmem⟩ :=
        loopToMetadata_computeLoopNests h hloop hmetadata htiling
      exact hparallel nest hnest hlen loop hmem

end

/-- A parallel loop with a reduction loop as its whole body. -/
def reductionInside : Rose OpInfo :=
  .node ⟨0, .other⟩ [.node ⟨1, .forOp (some .parallelLoop)⟩
    [.node ⟨2, .forOp (some .reductionLoop)⟩ []]]

theorem computeLoopNests_nestsLoops_iff_reductionInside :
    NestsLoops reductionInside (computeLoopNests reductionInside) ↔
      ∀ outer ∈ allLoops reductionInside, ∀ inner, perfectlyNested outer = some inner →
        perfectDepth inner.1 inner.2 % kMaxLoopNestDepth ≠ 0 →
          isParallelLoop outer.1 → isParallelLoop inner.1 :=
  computeLoopNests_nestsLoops_iff (by decide)

/-- The reduction ends up in a nest of two, as a candidate for tiling. -/
theorem not_nestsLoops_reductionInside :
    ¬ NestsLoops reductionInside (computeLoopNests reductionInside) := by
  intro h
  have hloop : (Rose.node ⟨2, .forOp (some .reductionLoop)⟩ [], [.node ⟨1, .forOp
      (some .parallelLoop)⟩ [.node ⟨2, .forOp (some .reductionLoop)⟩ []], reductionInside]) ∈
        allLoops reductionInside := List.mem_cons_of_mem _ List.mem_cons_self
  have := h.tiling _ hloop _ rfl rfl
  cases this

end LoopTiling

end DataflowScheduler
