import Mathlib.Data.List.Perm.Subperm
import DataflowScheduler.Conversion.KTIRToScheduleIR.ExtractedGroups

/-!
# Blocks whose groups are extracted

The form that the groups leave a block in, and when it reads and writes what the block did: every load
has a store of its group after it, no value of a group is read behind it, and the loads that a group
depends on stand at its beginning.
-/

namespace DataflowScheduler

namespace ComputeGroupExtraction

variable {s : Scope} {n p : Nat} {group : ComputeGroup} {groups : List ComputeGroup}

/-- The operations of a group. -/
def ComputeGroup.range (group : ComputeGroup) : List Nat :=
  List.range' group.firstLoad (group.lastStore + 1 - group.firstLoad)

theorem ComputeGroup.mem_range : n ∈ group.range ↔ group.contains n := by
  unfold ComputeGroup.range ComputeGroup.contains
  rw [List.mem_range'_1, Bool.and_eq_true, decide_eq_true_eq, decide_eq_true_eq]
  omega

theorem ComputeGroup.nodup_range : group.range.Nodup := List.nodup_range'

/-! ## Conditions on a group -/

/-- No operation behind a group reads a value of it. -/
def ReadInside (s : Scope) (group : ComputeGroup) : Prop :=
  ∀ n, group.lastStore < n → ∀ k ∈ s.sources n, group.contains k = false

/-- **The loads come first**: the memory operations that those of a group read from are the first ones
of the group, in the order in which they are found depth-first. -/
def LoadsFirst (s : Scope) (group : ComputeGroup) : Prop :=
  (needed s group.range).filter s.isMemory <+: group.range.filter s.isMemory

theorem loadsFirst_iff (hlast : group.lastStore < s.ops.length) : LoadsFirst s group ↔
    (extractedFunc s group.range).body.filter s.isMemory = group.range.filter s.isMemory := by
  have hns : ∀ n ∈ group.range, n < s.ops.length := by
    intro n hn
    have := (Bool.and_eq_true_iff.mp (ComputeGroup.mem_range.mp hn)).2
    have := of_decide_eq_true this
    omega
  rw [extractedFunc_body hns ComputeGroup.nodup_range, List.filter_append]
  constructor
  · rintro ⟨rest, hrest⟩
    have hnd : (group.range.filter s.isMemory).Nodup := ComputeGroup.nodup_range.filter _
    rw [← hrest, List.nodup_append] at hnd
    have hcomm : (group.range.filter (· ∉ needed s group.range)).filter s.isMemory =
        (group.range.filter s.isMemory).filter (· ∉ needed s group.range) := by
      rw [List.filter_filter, List.filter_filter]
      congr 1
      funext n
      exact Bool.and_comm _ _
    have hneeded : ((needed s group.range).filter s.isMemory).filter (· ∉ needed s group.range) =
        [] := by
      rw [List.filter_eq_nil_iff]
      intro n hn
      simpa using (List.mem_filter.mp hn).1
    have hnew : rest.filter (· ∉ needed s group.range) = rest := by
      rw [List.filter_eq_self]
      intro n hn
      have hmemory : n ∈ group.range.filter s.isMemory := by
        rw [← hrest]
        exact List.mem_append_right _ hn
      by_contra hmem
      have hmem : n ∈ needed s group.range := by simpa using hmem
      exact hnd.2.2 n (List.mem_filter.mpr ⟨hmem, (List.mem_filter.mp hmemory).2⟩) n hn rfl
    rw [hcomm]
    conv_lhs => rw [← hrest]
    rw [List.filter_append, hneeded, hnew, List.nil_append]
    exact hrest
  · intro h
    exact ⟨_, h⟩

/-! ## The form of a rewritten block -/

/-- The rest of a block from the operation `p` on, with a call for every group. -/
def rewriteFrom (s : Scope) : List ComputeGroup → Nat → List Item
  | [], p => (List.range' p (s.ops.length - p)).map .op
  | group :: groups, p =>
      (List.range' p (group.firstLoad - p)).map .op ++
        .call (extractedFunc s group.range) :: rewriteFrom s groups (group.lastStore + 1)

theorem splitAfter_append {items rest : List Item} (h : Item.op n ∉ items) :
    splitAfter n (items ++ .op n :: rest) = (items ++ [.op n], rest) := by
  induction items with
  | nil =>
      show (if Item.op n = .op n then _ else _) = _
      rw [if_pos rfl]
      rfl
  | cons item items ih =>
      rw [List.mem_cons, not_or] at h
      rw [List.cons_append]
      unfold splitAfter
      rw [if_neg (Ne.symm h.1), ih h.2]
      rfl

theorem op_mem_map {ns : List Nat} : Item.op n ∈ ns.map Item.op ↔ n ∈ ns := by
  simp

theorem filterMap_number (ns : List Nat) : (ns.map Item.op).filterMap Item.number? = ns := by
  rw [List.filterMap_map]
  exact List.filterMap_some

/-- The items before the operation `p`: earlier operations, and calls with arguments of the block. -/
def Before (p : Nat) (items : List Item) : Prop :=
  ∀ item ∈ items, (∃ n, n < p ∧ item = .op n) ∨
    ∃ callee, item = .call callee ∧ ∀ v ∈ callee.params, v.getDefiningOp = none

/-- The rest of a block with a call for the next group. -/
def withCall (s : Scope) (p : Nat) (group : ComputeGroup) : List Item :=
  (List.range' p (group.firstLoad - p)).map .op ++ .call (extractedFunc s group.range) ::
    (List.range' (group.lastStore + 1) (s.ops.length - (group.lastStore + 1))).map .op

section Extract

variable (hle : p ≤ group.firstLoad) (hlt : group.firstLoad < group.lastStore)
  (hlast : group.lastStore < s.ops.length)

include hle hlt hlast

theorem range'_split : List.range' p (s.ops.length - p) =
    List.range' p (group.firstLoad - p) ++
      (group.range ++ List.range' (group.lastStore + 1) (s.ops.length - (group.lastStore + 1))) := by
  unfold ComputeGroup.range
  have h₁ : group.lastStore + 1 = group.firstLoad + (group.lastStore + 1 - group.firstLoad) := by omega
  have h₂ : group.firstLoad = p + (group.firstLoad - p) := by omega
  conv_rhs => rw [h₁]
  simp only [Nat.add_sub_cancel_left]
  rw [List.range'_append_1]
  conv_rhs =>
    rw [h₂]
  simp only [Nat.add_sub_cancel_left]
  rw [List.range'_append_1]
  congr 1
  omega

/-- One group of a block whose earlier groups are extracted. -/
theorem extractComputeGroup_eq {done : List Item} (hdone : Before p done) :
    extractComputeGroup s (done ++ (List.range' p (s.ops.length - p)).map .op) group =
      if ((done ++ withCall s p group).flatMap (Item.uses s)).any fun v =>
          v.getDefiningOp.any (· ∈ group.range)
      then none
      else some (done ++ withCall s p group) := by
  have hrange : group.range = group.firstLoad ::
      List.range' (group.firstLoad + 1) (group.lastStore - group.firstLoad) := by
    unfold ComputeGroup.range
    rw [show group.lastStore + 1 - group.firstLoad = (group.lastStore - group.firstLoad) + 1 by omega]
    exact List.range'_succ
  have hrange' : group.range = List.range' group.firstLoad (group.lastStore - group.firstLoad) ++
      [group.lastStore] := by
    unfold ComputeGroup.range
    rw [show group.lastStore + 1 - group.firstLoad = (group.lastStore - group.firstLoad) + 1 by omega,
      List.range'_1_concat]
    congr 2
    omega
  have hbefore : ∀ item ∈ done ++ (List.range' p (group.firstLoad - p)).map Item.op,
      decide (item ≠ .op group.firstLoad) = true := by
    intro item hitem
    rw [decide_eq_true_eq]
    rintro rfl
    rcases List.mem_append.mp hitem with hitem | hitem
    · rcases hdone _ hitem with ⟨n, hn, heq⟩ | ⟨callee, heq, -⟩
      · cases heq
        omega
      · cases heq
    · rw [op_mem_map, List.mem_range'_1] at hitem
      omega
  have hitems : done ++ (List.range' p (s.ops.length - p)).map Item.op =
      (done ++ (List.range' p (group.firstLoad - p)).map .op) ++ (group.range.map .op ++
        (List.range' (group.lastStore + 1) (s.ops.length - (group.lastStore + 1))).map .op) := by
    rw [range'_split hle hlt hlast, List.map_append, List.map_append, List.append_assoc]
  have htake : (done ++ (List.range' p (s.ops.length - p)).map Item.op).takeWhile
      (· ≠ .op group.firstLoad) = done ++ (List.range' p (group.firstLoad - p)).map .op := by
    rw [hitems, List.takeWhile_append_of_pos hbefore, hrange, List.map_cons, List.cons_append,
      List.takeWhile_cons_of_neg (by simp), List.append_nil]
  have hdrop : (done ++ (List.range' p (s.ops.length - p)).map Item.op).dropWhile
      (· ≠ .op group.firstLoad) = group.range.map .op ++
        (List.range' (group.lastStore + 1) (s.ops.length - (group.lastStore + 1))).map .op := by
    rw [hitems, List.dropWhile_append_of_pos hbefore]
    conv_lhs => rw [hrange, List.map_cons, List.cons_append, List.dropWhile_cons_of_neg (by simp)]
    rw [hrange, List.map_cons, List.cons_append]
  have hsplit : splitAfter group.lastStore (group.range.map .op ++
        (List.range' (group.lastStore + 1) (s.ops.length - (group.lastStore + 1))).map .op) =
      (group.range.map .op,
        (List.range' (group.lastStore + 1) (s.ops.length - (group.lastStore + 1))).map .op) := by
    rw [hrange', List.map_append, List.append_assoc]
    apply splitAfter_append
    rw [op_mem_map, List.mem_range'_1]
    omega
  unfold extractComputeGroup withCall
  simp only [htake, hdrop, hsplit, filterMap_number, List.append_assoc]

omit hlt in
/-- What is erased with a group is not used any more exactly if it is read inside only. -/
theorem uses_any_eq_false {done : List Item} (hdone : Before p done) :
    ((done ++ withCall s p group).flatMap (Item.uses s)).any
      (fun v => v.getDefiningOp.any (· ∈ group.range)) = false ↔ ReadInside s group := by
  unfold withCall
  rw [List.any_eq_false]
  constructor
  · intro h n hn k hk
    by_contra hcontains
    obtain ⟨v, hv, hdef⟩ := List.mem_filterMap.mp hk
    have hlt : n < s.ops.length := by
      by_contra hge
      unfold Scope.valuesReadFromAbove at hv
      rw [List.getElem?_eq_none (Nat.not_lt.mp hge)] at hv
      cases hv
    apply h v
    · rw [List.mem_flatMap]
      refine ⟨.op n, List.mem_append_right _ (List.mem_append_right _ (List.mem_cons_of_mem _ ?_)),
        hv⟩
      rw [op_mem_map, List.mem_range'_1]
      omega
    · rw [hdef]
      simpa using ComputeGroup.mem_range.mpr (by simpa using hcontains)
  · intro h v hv hany
    obtain ⟨k, hdef, hk⟩ : ∃ k, v.getDefiningOp = some k ∧ group.contains k := by
      rcases hdef : v.getDefiningOp with _ | k
      · rw [hdef] at hany
        cases hany
      · rw [hdef] at hany
        exact ⟨k, rfl, ComputeGroup.mem_range.mp (by simpa using hany)⟩
    obtain ⟨item, hitem, hv⟩ := List.mem_flatMap.mp hv
    have hop : ∀ n, v ∈ s.valuesReadFromAbove n → n < group.firstLoad ∨ group.lastStore < n →
        False := by
      rintro n hv (hn | hn)
      · have hkn := s.lt_of_mem_sources (List.mem_filterMap.mpr ⟨v, hv, hdef⟩)
        unfold ComputeGroup.contains at hk
        rw [Bool.and_eq_true, decide_eq_true_eq] at hk
        omega
      · rw [h n hn k (List.mem_filterMap.mpr ⟨v, hv, hdef⟩)] at hk
        cases hk
    rw [List.mem_append, List.mem_append, List.mem_cons] at hitem
    rcases hitem with hitem | hitem | rfl | hitem
    · rcases hdone item hitem with ⟨n, hn, rfl⟩ | ⟨callee, rfl, hparams⟩
      · exact hop n hv (Or.inl (by omega))
      · rw [hparams v hv] at hdef
        cases hdef
    · obtain ⟨n, hn, rfl⟩ := List.mem_map.mp hitem
      rw [List.mem_range'_1] at hn
      exact hop n hv (Or.inl (by omega))
    · rw [extractedFunc_params v hv] at hdef
      cases hdef
    · obtain ⟨n, hn, rfl⟩ := List.mem_map.mp hitem
      rw [List.mem_range'_1] at hn
      exact hop n hv (Or.inr (by omega))

end Extract

theorem foldlM_extractComputeGroup (hranges : Ranges s groups)
    (hle : ∀ group ∈ groups, p ≤ group.firstLoad) {done items : List Item} (hdone : Before p done) :
    groups.foldlM (extractComputeGroup s) (done ++ (List.range' p (s.ops.length - p)).map .op) =
        some items ↔
      items = done ++ rewriteFrom s groups p ∧ ∀ group ∈ groups, ReadInside s group := by
  induction groups generalizing p done with
  | nil => exact ⟨fun h => ⟨(Option.some.inj h).symm, nofun⟩, fun h => congrArg some h.1.symm⟩
  | cons group groups ih =>
      obtain ⟨hrange, hpairwise⟩ := hranges
      rw [List.forall_mem_cons] at hrange hle
      rw [List.pairwise_cons] at hpairwise
      obtain ⟨-, hlt, hlast⟩ := hrange.1
      have huses := uses_any_eq_false hle.1 hlast hdone
      have hdone' : Before (group.lastStore + 1)
          (done ++ (List.range' p (group.firstLoad - p)).map .op ++
            [.call (extractedFunc s group.range)]) := by
        intro item hitem
        rw [List.mem_append, List.mem_append, List.mem_singleton] at hitem
        rcases hitem with (hitem | hitem) | rfl
        · rcases hdone item hitem with ⟨n, hn, rfl⟩ | hcall
          · have := hle.1
            exact Or.inl ⟨n, by omega, rfl⟩
          · exact Or.inr hcall
        · obtain ⟨n, hn, rfl⟩ := List.mem_map.mp hitem
          rw [List.mem_range'_1] at hn
          exact Or.inl ⟨n, by omega, rfl⟩
        · exact Or.inr ⟨_, rfl, extractedFunc_params⟩
      have hrest := ih ⟨hrange.2, hpairwise.2⟩ (fun later hlater => hpairwise.1 later hlater) hdone'
      rw [List.foldlM_cons, extractComputeGroup_eq hle.1 hlt hlast hdone, List.forall_mem_cons]
      split
      · next hany =>
          have hnot : ¬ ReadInside s group := fun h => by
            rw [huses.mpr h] at hany
            cases hany
          exact ⟨nofun, fun h => absurd h.2.1 hnot⟩
      · next hany =>
          have hinside := huses.mp (by simpa using hany)
          have hitems : done ++ withCall s p group =
              done ++ (List.range' p (group.firstLoad - p)).map .op ++
                [.call (extractedFunc s group.range)] ++
                (List.range' (group.lastStore + 1)
                  (s.ops.length - (group.lastStore + 1))).map .op := by
            simp only [withCall, List.append_assoc, List.singleton_append]
          show groups.foldlM (extractComputeGroup s) _ = _ ↔ _
          rw [hitems, hrest]
          simp only [hinside, true_and, rewriteFrom, List.append_assoc, List.singleton_append]

theorem extractComputeGroups_eq_some (hranges : Ranges s groups) {items : List Item} :
    extractComputeGroups s groups = some items ↔
      items = rewriteFrom s groups s.start ∧ ∀ group ∈ groups, ReadInside s group := by
  have hnil : Before s.start [] := nofun
  unfold extractComputeGroups
  rw [Scope.block_eq_range']
  exact foldlM_extractComputeGroup hranges (fun group hgroup => (hranges.range group hgroup).1) hnil

end ComputeGroupExtraction

end DataflowScheduler
