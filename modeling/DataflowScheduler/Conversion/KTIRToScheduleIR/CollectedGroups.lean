import DataflowScheduler.Conversion.KTIRToScheduleIR.ComputeGroupExtraction

/-!
# The groups of a block

What the groups collected from a block are: ranges one after the other, which hold every load and
store exactly if no load is cut off from the stores of its group.
-/

namespace DataflowScheduler

namespace ComputeGroupExtraction

variable {s : Scope} {classes : EquivalenceClasses} {t t' : Tracking} {n p : Nat}

/-- The leader of the class of the access tile that an operation loads or stores. -/
def tileLeader (s : Scope) (classes : EquivalenceClasses) (n : Nat) : Option Value :=
  match s.ops[n]? with
  | some (.load accessTile) => classes.findLeader accessTile
  | some (.store _ accessTile) => classes.findLeader accessTile
  | some (.pure _ _ _ _ _ _) => none
  | none => none

theorem Scope.block_eq_range' (s : Scope) :
    s.block = List.range' s.start (s.ops.length - s.start) := by
  unfold Scope.block
  rw [List.range_eq_range', List.drop_range', Nat.zero_add, Nat.mul_one]

@[grind =]
theorem Scope.mem_block : n ∈ s.block ↔ s.start ≤ n ∧ n < s.ops.length := by
  rw [Scope.block_eq_range', List.mem_range'_1]
  omega

theorem Scope.isMemory_eq (s : Scope) (n : Nat) : s.isMemory n = (s.isLoad n || s.isStore n) := by
  unfold Scope.isMemory Scope.isLoad Scope.isStore
  cases s.ops[n]? <;> rfl

theorem Scope.isMemory_of_isLoad (h : s.isLoad n) : s.isMemory n := by
  rw [s.isMemory_eq, h, Bool.true_or]

theorem Scope.isMemory_of_isStore (h : s.isStore n) : s.isMemory n := by
  rw [s.isMemory_eq, h, Bool.or_true]

theorem Scope.isStore_of_isLoad (h : s.isLoad n) : s.isStore n = false := by
  unfold Scope.isLoad at h
  unfold Scope.isStore
  rcases hop : s.ops[n]? with _ | op
  · rfl
  · rw [hop] at h
    cases op with
    | load accessTile => rfl
    | store data accessTile => cases h
    | pure kernel isCompute isolated operands numResults regions => rfl

/-! ## One operation -/

theorem Tracking.controlFlow_cases (t : Tracking) :
    (∃ leader first last, t.currentClassLeader = some leader ∧ t.firstLoadOp = some first ∧
      t.lastStoreOp = some last ∧ t.controlFlow = ⟨leader :: t.visitedClassLeaders, none, false, none,
        none, t.groupsToExtract ++ [⟨first, last⟩]⟩) ∨
    (t.controlFlow = t ∧ (t.currentClassLeader = none ∨ t.firstLoadOp = none ∨
      t.lastStoreOp = none)) := by
  unfold controlFlow savedGroups
  rcases hcurrent : t.currentClassLeader with _ | leader
  · exact Or.inr ⟨rfl, Or.inl rfl⟩
  rcases hfirst : t.firstLoadOp with _ | first
  · exact Or.inr ⟨rfl, Or.inr (Or.inl rfl)⟩
  rcases hlast : t.lastStoreOp with _ | last
  · exact Or.inr ⟨rfl, Or.inr (Or.inr rfl)⟩
  exact Or.inl ⟨leader, first, last, rfl, rfl, rfl, rfl⟩

theorem Tracking.load_cases {leader : Value} (h : t.load n leader = some t') :
    leader ∉ t.visitedClassLeaders ∧
    ((t.currentClassLeader = some leader ∧
        t' = { t with firstLoadOp := some (t.firstLoadOp.getD n), lastMemOpWasLoad := true }) ∨
      (∃ current, t.currentClassLeader = some current ∧ current ≠ leader ∧
        t.lastMemOpWasLoad = false ∧
        t' = ⟨current :: t.visitedClassLeaders, some leader, true, some n, none, t.savedGroups⟩) ∨
      (t.currentClassLeader = none ∧
        t' = { t with
          currentClassLeader := some leader
          firstLoadOp := some (t.firstLoadOp.getD n)
          lastMemOpWasLoad := true })) := by
  unfold load at h
  split at h
  · cases h
  · next hvisited =>
      refine ⟨hvisited, ?_⟩
      split at h
      · next current hcurrent =>
          split at h
          · next heq =>
              subst heq
              exact Or.inl ⟨hcurrent, (Option.some.inj h).symm⟩
          · next hne =>
              split at h
              · cases h
              · next hlast =>
                  exact Or.inr (Or.inl ⟨current, hcurrent, hne, by simpa using hlast,
                    (Option.some.inj h).symm⟩)
      · next hcurrent => exact Or.inr (Or.inr ⟨hcurrent, (Option.some.inj h).symm⟩)

theorem Tracking.store_eq_some {leader : Value} (h : t.store n leader = some t') :
    t.currentClassLeader = some leader ∧
      t' = { t with lastStoreOp := some n, lastMemOpWasLoad := false } := by
  unfold store at h
  split at h
  · next hcurrent => exact ⟨hcurrent, (Option.some.inj h).symm⟩
  · cases h

/-- What an operation is to the groups. -/
theorem trackOp_cases (h : trackOp s classes t n = some t') :
    (s.isLoad n = false ∧ s.isStore n = false ∧ s.hasRegions n = false ∧ t' = t) ∨
    (s.isLoad n = false ∧ s.isStore n = false ∧ s.hasRegions n ∧ t' = t.controlFlow) ∨
    (s.isLoad n ∧ s.isStore n = false ∧ s.hasRegions n = false ∧
      ∃ leader, tileLeader s classes n = some leader ∧ t.load n leader = some t') ∨
    (s.isLoad n = false ∧ s.isStore n ∧ s.hasRegions n = false ∧
      ∃ leader, tileLeader s classes n = some leader ∧ t.store n leader = some t') := by
  unfold trackOp at h
  unfold Scope.isLoad Scope.isStore Scope.hasRegions tileLeader
  rcases hop : s.ops[n]? with _ | op
  · rw [hop] at h
    exact Or.inl ⟨rfl, rfl, rfl, (Option.some.inj h).symm⟩
  rw [hop] at h
  cases op with
  | load accessTile =>
      obtain ⟨leader, hleader, h⟩ := Option.bind_eq_some_iff.mp h
      exact Or.inr (Or.inr (Or.inl ⟨rfl, rfl, rfl, leader, hleader, h⟩))
  | store data accessTile =>
      obtain ⟨leader, hleader, h⟩ := Option.bind_eq_some_iff.mp h
      exact Or.inr (Or.inr (Or.inr ⟨rfl, rfl, rfl, leader, hleader, h⟩))
  | pure kernel isCompute isolated operands numResults regions =>
      by_cases hregions :
          (Op.pure kernel isCompute isolated operands numResults regions).numRegions > 0
      · have ht : some t.controlFlow = some t' := (if_pos hregions).symm.trans h
        exact Or.inr (Or.inl ⟨rfl, rfl, decide_eq_true hregions, (Option.some.inj ht).symm⟩)
      · have ht : some t = some t' := (if_neg hregions).symm.trans h
        exact Or.inl ⟨rfl, rfl, decide_eq_false hregions, (Option.some.inj ht).symm⟩

/-! ## Runs of operations -/

/-- What holds at an operation of a block, and from one operation on to the next, holds at the end. -/
theorem foldlM_range' {σ : Type} {f : σ → Nat → Option σ} {P : Nat → σ → Prop} {count : Nat}
    {a b : σ} (h : P p a) (hstep : ∀ q a b, p ≤ q → q < p + count → P q a → f a q = some b → P (q + 1) b)
    (hrun : (List.range' p count).foldlM f a = some b) : P (p + count) b := by
  induction count generalizing p a with
  | zero =>
      cases hrun
      exact h
  | succ count ih =>
      rw [List.range'_succ, List.foldlM_cons] at hrun
      obtain ⟨a', ha', hrun⟩ := Option.bind_eq_some_iff.mp hrun
      have hnext : P (p + 1) a' := hstep p a a' (Nat.le_refl p) (by omega) h ha'
      have hend := ih hnext (fun q a b hp hq => hstep q a b (by omega) (by omega)) hrun
      rwa [Nat.add_right_comm, Nat.add_assoc] at hend

/-! ## Ranges -/

/-- Before the operation `p`: the current class has a first load but was never left, and the groups are
ranges one after the other, the current one last. -/
structure Tracked (s : Scope) (classes : EquivalenceClasses) (p : Nat) (t : Tracking) : Prop where
  closed : t.currentClassLeader = none → t.firstLoadOp = none ∧ t.lastStoreOp = none
  opened : ∀ leader, t.currentClassLeader = some leader →
    leader ∉ t.visitedClassLeaders ∧ ∃ first, t.firstLoadOp = some first ∧ s.start ≤ first ∧ first < p
  ordered : ∀ first last, t.firstLoadOp = some first → t.lastStoreOp = some last →
    first < last ∧ last < p
  loads : t.currentClassLeader.isSome → t.lastStoreOp = none → t.lastMemOpWasLoad = true
  stores : ∀ k ∈ s.block, k < p → s.isStore k → ∃ leader, tileLeader s classes k = some leader ∧
    (leader ∈ t.visitedClassLeaders ∨
      (t.currentClassLeader = some leader ∧ t.lastStoreOp.isSome))
  groups : ∀ group ∈ t.groupsToExtract, s.start ≤ group.firstLoad ∧
    group.firstLoad < group.lastStore ∧ group.lastStore < p ∧
    ∀ first, t.firstLoadOp = some first → group.lastStore < first
  pairwise : t.groupsToExtract.Pairwise fun a b => a.lastStore < b.firstLoad

namespace Tracked

theorem start_le (h : Tracked s classes p t) {first : Nat} (hfirst : t.firstLoadOp = some first) :
    s.start ≤ first := by
  rcases hcurrent : t.currentClassLeader with _ | leader
  · rw [(h.closed hcurrent).1] at hfirst
    cases hfirst
  · obtain ⟨-, f, hf, hstart, -⟩ := h.opened leader hcurrent
    rw [hfirst] at hf
    cases hf
    exact hstart

theorem start : Tracked s classes s.start Tracking.start where
  closed _ := ⟨rfl, rfl⟩
  opened _ h := nomatch h
  ordered _ _ h := nomatch h
  loads h := nomatch h
  stores _ hk hlt := absurd (Scope.mem_block.mp hk).1 (Nat.not_le_of_lt hlt)
  groups _ h := nomatch h
  pairwise := List.Pairwise.nil

theorem controlFlow (h : Tracked s classes p t) (hstore : s.isStore p = false) :
    Tracked s classes (p + 1) t.controlFlow := by
  rcases t.controlFlow_cases with ⟨leader, first, last, hcurrent, hfirst, hlast, heq⟩ | ⟨heq, -⟩
  · rw [heq]
    obtain ⟨hvisited, f, hf, hstart, hlt⟩ := h.opened leader hcurrent
    have hordered := h.ordered first last hfirst hlast
    obtain ⟨-, -, -, -, hstores, hgroups, hpairwise⟩ := h
    constructor
    all_goals grind
  · rw [heq]
    obtain ⟨h1, h2, h3, h4, h5, h6, h7⟩ := h
    constructor
    all_goals grind

theorem load (h : Tracked s classes p t) {leader : Value} (hp : s.start ≤ p)
    (hstore : s.isStore p = false) (hload : t.load p leader = some t') :
    Tracked s classes (p + 1) t' := by
  obtain ⟨hvisited, ⟨hcurrent, rfl⟩ | ⟨current, hcurrent, hne, hlast, rfl⟩ | ⟨hcurrent, rfl⟩⟩ :=
    Tracking.load_cases hload
  · obtain ⟨-, first, hfirst, hstart, hlt⟩ := h.opened leader hcurrent
    rw [hfirst]
    obtain ⟨hclosed, hopened, hordered, hloads, hstores, hgroups, hpairwise⟩ := h
    constructor
    all_goals grind
  · -- The class that is left has a store, as its last memory operation is no load.
    obtain ⟨hunvisited, first, hfirst, hstart, hlt⟩ := h.opened current hcurrent
    obtain ⟨last, hlaststore⟩ : ∃ last, t.lastStoreOp = some last := by
      rcases hlaststore : t.lastStoreOp with _ | last
      · have hpending := h.loads (by rw [hcurrent]; rfl) hlaststore
        rw [hlast] at hpending
        cases hpending
      · exact ⟨last, rfl⟩
    have hordered := h.ordered first last hfirst hlaststore
    have hsaved : t.savedGroups = t.groupsToExtract ++ [⟨first, last⟩] := by
      unfold Tracking.savedGroups
      rw [hfirst, hlaststore]
    rw [hsaved]
    obtain ⟨hclosed, hopened, -, hloads, hstores, hgroups, hpairwise⟩ := h
    constructor
    all_goals grind
  · obtain ⟨hfirst, hlaststore⟩ := h.closed hcurrent
    rw [hfirst]
    obtain ⟨hclosed, hopened, hordered, hloads, hstores, hgroups, hpairwise⟩ := h
    constructor
    all_goals grind

theorem store (h : Tracked s classes p t) {leader : Value} (htile : tileLeader s classes p = some leader)
    (hstore : t.store p leader = some t') : Tracked s classes (p + 1) t' := by
  obtain ⟨hcurrent, rfl⟩ := Tracking.store_eq_some hstore
  obtain ⟨-, first, hfirst, hstart, hlt⟩ := h.opened leader hcurrent
  obtain ⟨hclosed, hopened, hordered, hloads, hstores, hgroups, hpairwise⟩ := h
  constructor
  all_goals grind

theorem step (h : Tracked s classes p t) (hp : s.start ≤ p)
    (hstep : trackOp s classes t p = some t') : Tracked s classes (p + 1) t' := by
  rcases trackOp_cases hstep with ⟨-, hstore, -, rfl⟩ | ⟨-, hstore, -, rfl⟩ |
    ⟨-, hstore, -, leader, -, hload⟩ | ⟨-, -, -, leader, htile, hload⟩
  · obtain ⟨hclosed, hopened, hordered, hloads, hstores, hgroups, hpairwise⟩ := h
    constructor
    all_goals grind
  · exact h.controlFlow hstore
  · exact h.load hp hstore hload
  · exact h.store htile hload

/-- A load of a class that had a store before is in the range of that store. -/
theorem lastStoreOp_of_load {k : Nat} (h : Tracked s classes n t) (hk : k ∈ s.block) (hkn : k < n)
    (hstore : s.isStore k) (hload : s.isLoad n)
    (htile : tileLeader s classes k = tileLeader s classes n)
    (hstep : trackOp s classes t n = some t') : t'.lastStoreOp.isSome := by
  obtain ⟨leader, hleader, hseen⟩ := h.stores k hk hkn hstore
  rcases trackOp_cases hstep with ⟨hn, -⟩ | ⟨hn, -⟩ | ⟨-, -, -, leader', hleader', hload'⟩ | ⟨hn, -⟩
  · rw [hload] at hn
    cases hn
  · rw [hload] at hn
    cases hn
  · obtain rfl : leader = leader' :=
      Option.some.inj (hleader.symm.trans (htile.trans hleader'))
    obtain ⟨hvisited, hcases⟩ := Tracking.load_cases hload'
    obtain ⟨hcurrent, hlast⟩ := hseen.resolve_left hvisited
    rcases hcases with ⟨-, rfl⟩ | ⟨current, hcurrent', hne, -⟩ | ⟨hcurrent', -⟩
    · exact hlast
    · exact absurd (Option.some.inj (hcurrent'.symm.trans hcurrent)) hne
    · rw [hcurrent] at hcurrent'
      cases hcurrent'
  · rw [hload] at hn
    cases hn

end Tracked

/-! ## Every memory operation in a group -/

/-- A load that is in no group so far and has no store after it. -/
structure Pending (n : Nat) (t : Tracking) : Prop where
  last : t.lastMemOpWasLoad = true
  stores : ∀ last, t.lastStoreOp = some last → last < n
  groups : ∀ group ∈ t.groupsToExtract, group.contains n = false

/-- An operation that no group will hold. -/
structure Lost (n : Nat) (t : Tracking) : Prop where
  first : ∀ first, t.firstLoadOp = some first → n < first
  groups : ∀ group ∈ t.groupsToExtract, group.contains n = false

theorem Lost.step (h : Lost n t) (hn : n < p) (hstep : trackOp s classes t p = some t') :
    Lost n t' := by
  obtain ⟨hfirst, hgroups⟩ := h
  rcases trackOp_cases hstep with ⟨-, -, -, rfl⟩ | ⟨-, -, -, rfl⟩ | ⟨-, -, -, leader, -, hload⟩ |
    ⟨-, -, -, leader, -, hstore⟩
  · exact ⟨hfirst, hgroups⟩
  · rcases t.controlFlow_cases with ⟨leader, first, last, hcurrent, hfirst', hlast, heq⟩ | ⟨heq, -⟩
    · rw [heq]
      constructor
      all_goals grind [ComputeGroup.contains]
    · rw [heq]
      exact ⟨hfirst, hgroups⟩
  · have hget : n < t.firstLoadOp.getD p := by
      rcases hf : t.firstLoadOp with _ | first
      · exact hn
      · exact hfirst first hf
    obtain ⟨-, ⟨-, rfl⟩ | ⟨current, -, -, -, rfl⟩ | ⟨-, rfl⟩⟩ := Tracking.load_cases hload
    · constructor
      all_goals grind
    · constructor
      all_goals grind [Tracking.savedGroups, ComputeGroup.contains]
    · constructor
      all_goals grind
  · obtain ⟨-, rfl⟩ := Tracking.store_eq_some hstore
    exact ⟨hfirst, hgroups⟩


theorem Pending.of_load (ht : Tracked s classes n t) (hn : s.isLoad n)
    (hstep : trackOp s classes t n = some t') : Pending n t' := by
  obtain ⟨hclosed, hopened, hordered, hloads, hstores, hgroups, hpairwise⟩ := ht
  rcases trackOp_cases hstep with ⟨hload, -⟩ | ⟨hload, -⟩ | ⟨-, -, -, leader, -, hload⟩ | ⟨hload, -⟩
  · rw [hn] at hload
    cases hload
  · rw [hn] at hload
    cases hload
  · obtain ⟨-, ⟨hcurrent, rfl⟩ | ⟨current, hcurrent, -, -, rfl⟩ | ⟨hcurrent, rfl⟩⟩ :=
      Tracking.load_cases hload
    · constructor
      all_goals grind [ComputeGroup.contains]
    · constructor
      all_goals grind [Tracking.savedGroups, ComputeGroup.contains]
    · constructor
      all_goals grind [ComputeGroup.contains]
  · rw [hn] at hload
    cases hload

/-- Without a store, a load stays where it is until an operation with regions cuts it off. -/
theorem Pending.step (h : Pending n t) (hstore : s.isStore p = false)
    (hstep : trackOp s classes t p = some t') :
    (Pending n t' ∧ t'.lastStoreOp = t.lastStoreOp) ∨ Lost n t' := by
  obtain ⟨hlast, hstores, hgroups⟩ := h
  rcases trackOp_cases hstep with ⟨-, -, -, rfl⟩ | ⟨-, -, -, rfl⟩ | ⟨-, -, -, leader, -, hload⟩ |
    ⟨-, hp, -⟩
  · exact Or.inl ⟨⟨hlast, hstores, hgroups⟩, rfl⟩
  · rcases t.controlFlow_cases with ⟨leader, first, last, hcurrent, hfirst, hlast', heq⟩ | ⟨heq, -⟩
    · rw [heq]
      right
      constructor
      all_goals grind [ComputeGroup.contains]
    · rw [heq]
      exact Or.inl ⟨⟨hlast, hstores, hgroups⟩, rfl⟩
  · obtain ⟨-, ⟨-, rfl⟩ | ⟨current, -, -, hload', -⟩ | ⟨-, rfl⟩⟩ := Tracking.load_cases hload
    · exact Or.inl ⟨⟨rfl, hstores, hgroups⟩, rfl⟩
    · rw [hlast] at hload'
      cases hload'
    · exact Or.inl ⟨⟨rfl, hstores, hgroups⟩, rfl⟩
  · rw [hstore] at hp
    cases hp

theorem Pending.cut (h : Pending n t) (ht : Tracked s classes p t) (hregions : s.hasRegions p)
    (hlast : t.lastStoreOp.isSome) (hstep : trackOp s classes t p = some t') : Lost n t' := by
  obtain ⟨-, hstores, hgroups⟩ := h
  obtain ⟨hclosed, hopened, -, -, -, -, -⟩ := ht
  rcases trackOp_cases hstep with ⟨-, -, hp, -⟩ | ⟨-, -, -, rfl⟩ | ⟨-, -, hp, -⟩ | ⟨-, -, hp, -⟩
  · rw [hregions] at hp
    cases hp
  · rcases t.controlFlow_cases with ⟨leader, first, last, hcurrent, hfirst, hlast', heq⟩ | ⟨-, hnone⟩
    · rw [heq]
      constructor
      all_goals grind [ComputeGroup.contains]
    · rcases hcurrent : t.currentClassLeader with _ | leader
      · rw [(hclosed hcurrent).2] at hlast
        cases hlast
      · obtain ⟨-, first, hfirst, -⟩ := hopened leader hcurrent
        rw [hcurrent, hfirst] at hnone
        obtain ⟨last, hlast'⟩ := Option.isSome_iff_exists.mp hlast
        rw [hlast'] at hnone
        rcases hnone with hnone | hnone | hnone <;> cases hnone
  · rw [hregions] at hp
    cases hp
  · rw [hregions] at hp
    cases hp

theorem Pending.not_mem_savedGroups (h : Pending n t) :
    ∀ group ∈ t.savedGroups, group.contains n = false := by
  obtain ⟨-, hstores, hgroups⟩ := h
  grind [Tracking.savedGroups, ComputeGroup.contains]

theorem Lost.not_mem_savedGroups (h : Lost n t) :
    ∀ group ∈ t.savedGroups, group.contains n = false := by
  obtain ⟨hfirst, hgroups⟩ := h
  grind [Tracking.savedGroups, ComputeGroup.contains]

/-- Before the operation `p`: what is in the current range. -/
structure Ranged (s : Scope) (classes : EquivalenceClasses) (p : Nat) (t : Tracking) : Prop where
  current : ∀ first n, t.firstLoadOp = some first → first ≤ n → n < p → s.isMemory n →
    tileLeader s classes n = t.currentClassLeader
  last : ∀ last, t.lastStoreOp = some last → s.isStore last
  trailing : t.lastMemOpWasLoad = false → ∀ first n, t.firstLoadOp = some first → first ≤ n →
    n < p → s.isMemory n → ∃ last, t.lastStoreOp = some last ∧ n ≤ last
  pending : t.lastMemOpWasLoad = true → ∃ n, s.isLoad n ∧ n < p ∧
    (∃ first, t.firstLoadOp = some first ∧ first ≤ n) ∧ ∀ k, s.isStore k → n < k → p ≤ k

namespace Ranged

theorem start : Ranged s classes p Tracking.start where
  current _ _ h := nomatch h
  last _ h := nomatch h
  trailing _ _ _ h := nomatch h
  pending h := nomatch h

theorem step (h : Ranged s classes p t) (ht : Tracked s classes p t)
    (hstep : trackOp s classes t p = some t') : Ranged s classes (p + 1) t' := by
  obtain ⟨hcurrent, hlast, htrailing, hpending⟩ := h
  obtain ⟨hclosed, hopened, hordered, hloads, -, -, -⟩ := ht
  have hmemory := s.isMemory_eq p
  rcases trackOp_cases hstep with ⟨hload, hstore, -, rfl⟩ | ⟨hload, hstore, -, rfl⟩ |
    ⟨hload, hstore, -, leader, htile, hload'⟩ | ⟨hload, hstore, -, leader, htile, hstore'⟩
  · constructor
    all_goals grind
  · rcases t.controlFlow_cases with ⟨leader, first, last, -, -, -, heq⟩ | ⟨heq, -⟩
    · rw [heq]
      constructor
      all_goals grind
    · rw [heq]
      constructor
      all_goals grind
  · obtain ⟨-, ⟨hleader, rfl⟩ | ⟨current, -, -, -, rfl⟩ | ⟨hleader, rfl⟩⟩ := Tracking.load_cases hload'
    · obtain ⟨-, first, hfirst, -, hlt⟩ := hopened leader hleader
      rw [hfirst]
      constructor
      all_goals grind
    · constructor
      all_goals grind
    · rw [(hclosed hleader).1]
      constructor
      all_goals grind
  · obtain ⟨hleader, rfl⟩ := Tracking.store_eq_some hstore'
    constructor
    all_goals grind

end Ranged

/-- **No load is cut off**: every load has a store after it, and an operation with regions between the
two has no store of the load's class before the load. -/
structure StoresFollow (s : Scope) (classes : EquivalenceClasses) : Prop where
  last : ∀ n ∈ s.block, s.isLoad n → ∃ k ∈ s.block, n < k ∧ s.isStore k
  controlFlow : ∀ k ∈ s.block, ∀ n ∈ s.block, ∀ x ∈ s.block, s.isStore k → s.isLoad n →
    s.hasRegions x → k < n → n < x → tileLeader s classes k = tileLeader s classes n →
    ∃ l ∈ s.block, n < l ∧ l < x ∧ s.isStore l

/-- An operation that is in a group or in the current range. -/
def Kept (n : Nat) (t : Tracking) : Prop :=
  (∃ group ∈ t.groupsToExtract, group.contains n) ∨ ∃ first, t.firstLoadOp = some first ∧ first ≤ n

/-- An operation with regions after a store and a load of one range cuts off the load. -/
theorem Ranged.trailing_of_regions (hfollow : StoresFollow s classes) (hr : Ranged s classes p t)
    (ht : Tracked s classes p t) (hp : p ∈ s.block) (hregions : s.hasRegions p) {first last : Nat}
    (hfirst : t.firstLoadOp = some first) (hlast : t.lastStoreOp = some last) :
    t.lastMemOpWasLoad = false := by
  by_contra hwas
  obtain ⟨n, hn, hnp, ⟨first', hfirst', hle⟩, hnostore⟩ := hr.pending (by simpa using hwas)
  obtain rfl : first' = first := Option.some.inj (hfirst'.symm.trans hfirst)
  obtain ⟨hlt, hlastp⟩ := ht.ordered first' last hfirst hlast
  have hstore : s.isStore last := hr.last last hlast
  have hbefore : last < n := by
    rcases Nat.lt_trichotomy last n with h | h | h
    · exact h
    · subst h
      rw [Scope.isStore_of_isLoad hn] at hstore
      cases hstore
    · exact absurd (hnostore last hstore h) (Nat.not_le_of_lt hlastp)
  have hstart := ht.start_le hfirst
  have hend := (Scope.mem_block.mp hp).2
  have htile : tileLeader s classes last = tileLeader s classes n :=
    (hr.current first' last hfirst (Nat.le_of_lt hlt) hlastp (Scope.isMemory_of_isStore hstore)).trans
      (hr.current first' n hfirst hle hnp (Scope.isMemory_of_isLoad hn)).symm
  obtain ⟨l, -, hnl, hlp, hl⟩ := hfollow.controlFlow last (Scope.mem_block.mpr (by omega)) n
    (Scope.mem_block.mpr (by omega)) p hp hstore hn hregions hbefore hnp htile
  exact absurd (hnostore l hl hnl) (Nat.not_le_of_lt hlp)

theorem Tracking.mem_savedGroups {group : ComputeGroup} : group ∈ t.savedGroups ↔
    group ∈ t.groupsToExtract ∨
      ∃ first last, t.firstLoadOp = some first ∧ t.lastStoreOp = some last ∧ group = ⟨first, last⟩ := by
  unfold savedGroups
  rcases hfirst : t.firstLoadOp with _ | first
  · grind
  rcases hlast : t.lastStoreOp with _ | last
  · grind
  grind

/-- A range that is saved after a store holds all memory operations since its first load. -/
theorem Kept.saved (h : Kept n t) (hr : Ranged s classes p t) (hmemory : s.isMemory n) (hlt : n < p)
    (hwas : t.lastMemOpWasLoad = false) : ∃ group ∈ t.savedGroups, group.contains n := by
  rcases h with ⟨group, hgroup, hn⟩ | ⟨first, hfirst, hle⟩
  · exact ⟨group, Tracking.mem_savedGroups.mpr (Or.inl hgroup), hn⟩
  · obtain ⟨last, hlast, hlelast⟩ := hr.trailing hwas first n hfirst hle hlt hmemory
    refine ⟨⟨first, last⟩, Tracking.mem_savedGroups.mpr (Or.inr ⟨first, last, hfirst, hlast, rfl⟩), ?_⟩
    exact Bool.and_eq_true_iff.mpr ⟨decide_eq_true hle, decide_eq_true hlelast⟩

theorem Kept.step (hfollow : StoresFollow s classes) (ht : Tracked s classes p t)
    (hr : Ranged s classes p t) (hp : p ∈ s.block) (hmemory : s.isMemory n)
    (h : n < p → Kept n t) (hlt : n < p + 1) (hstep : trackOp s classes t p = some t') :
    Kept n t' := by
  rcases trackOp_cases hstep with ⟨hload, hstore, -, rfl⟩ | ⟨hload, hstore, hregions, rfl⟩ |
    ⟨-, -, -, leader, -, hload⟩ | ⟨-, -, -, leader, -, hstore⟩
  · have := s.isMemory_eq p
    exact h (by grind)
  · have hne : n ≠ p := by
      rintro rfl
      rw [s.isMemory_eq, hload, hstore] at hmemory
      cases hmemory
    have hnp : n < p := Nat.lt_of_le_of_ne (Nat.lt_succ_iff.mp hlt) hne
    rcases t.controlFlow_cases with ⟨leader, first, last, -, hfirst, hlast, heq⟩ | ⟨heq, -⟩
    · have hwas := hr.trailing_of_regions hfollow ht hp hregions hfirst hlast
      obtain ⟨group, hgroup, hn⟩ := (h hnp).saved hr hmemory hnp hwas
      left
      rw [heq]
      unfold Tracking.savedGroups at hgroup
      rw [hfirst, hlast] at hgroup
      exact ⟨group, hgroup, hn⟩
    · rw [heq]
      exact h hnp
  · unfold Kept at h ⊢
    obtain ⟨-, ⟨hleader, rfl⟩ | ⟨current, -, -, hwas, rfl⟩ | ⟨hleader, rfl⟩⟩ :=
      Tracking.load_cases hload
    · obtain ⟨-, first, hfirst, -, hltf⟩ := ht.opened leader hleader
      rw [hfirst]
      grind
    · rcases Nat.lt_succ_iff_lt_or_eq.mp hlt with hnp | rfl
      · exact Or.inl (Kept.saved (h hnp) hr hmemory hnp hwas)
      · exact Or.inr ⟨n, rfl, Nat.le_refl n⟩
    · rw [(ht.closed hleader).1] at h ⊢
      grind
  · unfold Kept at h ⊢
    obtain ⟨hleader, rfl⟩ := Tracking.store_eq_some hstore
    obtain ⟨-, first, hfirst, -, hltf⟩ := ht.opened leader hleader
    grind

/-! ## The groups collected -/

/-- Ranges of the block, one after the other. -/
structure Ranges (s : Scope) (groups : List ComputeGroup) : Prop where
  range : ∀ group ∈ groups, s.start ≤ group.firstLoad ∧ group.firstLoad < group.lastStore ∧
    group.lastStore < s.ops.length
  pairwise : groups.Pairwise fun a b => a.lastStore < b.firstLoad

/-- A run over the block, with what holds after each of its operations. -/
theorem processBlockForExtraction_run {groups : List ComputeGroup} {P : Nat → Tracking → Prop}
    (h : processBlockForExtraction s classes = some groups) (hstart : P s.start Tracking.start)
    (hstep : ∀ p t t', p ∈ s.block → Tracked s classes p t → Ranged s classes p t → P p t →
      trackOp s classes t p = some t' → P (p + 1) t') :
    ∃ t, groups = t.savedGroups ∧ Tracked s classes (s.start + (s.ops.length - s.start)) t ∧
      Ranged s classes (s.start + (s.ops.length - s.start)) t ∧
      P (s.start + (s.ops.length - s.start)) t := by
  unfold processBlockForExtraction at h
  obtain ⟨t, hrun, rfl⟩ := Option.map_eq_some_iff.mp h
  rw [Scope.block_eq_range'] at hrun
  refine ⟨t, rfl, ?_⟩
  apply foldlM_range' (P := fun p t => Tracked s classes p t ∧ Ranged s classes p t ∧ P p t)
    ⟨Tracked.start, Ranged.start, hstart⟩ ?_ hrun
  rintro q a b hq hlt ⟨ht, hr, hP⟩ hab
  exact ⟨ht.step hq hab, hr.step ht hab,
    hstep q a b (Scope.mem_block.mpr ⟨hq, by omega⟩) ht hr hP hab⟩

theorem processBlockForExtraction_ranges {groups : List ComputeGroup}
    (h : processBlockForExtraction s classes = some groups) : Ranges s groups := by
  obtain ⟨t, rfl, ht, -, -⟩ := processBlockForExtraction_run (P := fun _ _ => True) h trivial
    fun _ _ _ _ _ _ _ _ => trivial
  constructor
  · intro group hgroup
    rcases Tracking.mem_savedGroups.mp hgroup with hgroup | ⟨first, last, hfirst, hlast, rfl⟩
    · have := ht.groups group hgroup
      omega
    · have hordered := ht.ordered first last hfirst hlast
      have hstart := ht.start_le hfirst
      show s.start ≤ first ∧ first < last ∧ last < s.ops.length
      omega
  · unfold Tracking.savedGroups
    have hpairwise := ht.pairwise
    have hgroups := ht.groups
    split
    · next first last hfirst hlast =>
        rw [List.pairwise_append]
        refine ⟨hpairwise, List.pairwise_singleton _ _, fun a ha b hb => ?_⟩
        rw [List.mem_singleton] at hb
        subst hb
        exact (hgroups a ha).2.2.2 first hfirst
    · exact hpairwise

/-- No operation is in two ranges. -/
theorem Ranges.countP_le_one {groups : List ComputeGroup} (h : Ranges s groups) (n : Nat) :
    groups.countP (·.contains n) ≤ 1 := by
  obtain ⟨-, hpairwise⟩ := h
  induction hpairwise with
  | nil => exact Nat.zero_le 1
  | @cons group groups hlater _ ih =>
      rw [List.countP_cons]
      split
      · next hn =>
          have hnone : groups.countP (·.contains n) = 0 := by
            rw [List.countP_eq_zero]
            intro later hmem
            have := hlater later hmem
            unfold ComputeGroup.contains at hn ⊢
            grind
          omega
      · exact ih

/-- What is collected from a block with classes holds every load and store exactly if no load is cut
off. -/
theorem processBlockForExtraction_grouped_iff {groups : List ComputeGroup}
    (h : processBlockForExtraction s classes = some groups) :
    (∀ n ∈ s.block, s.isMemory n → groups.countP (·.contains n) = 1) ↔ StoresFollow s classes := by
  constructor
  · intro hgrouped
    have hfalse : ∀ n ∈ s.block, s.isLoad n → ¬ ∀ group ∈ groups, group.contains n = false := by
      intro n hn hload hnone
      have hone := hgrouped n hn (Scope.isMemory_of_isLoad hload)
      rw [List.countP_eq_zero.mpr fun group hgroup => by rw [hnone group hgroup]; exact nofun] at hone
      cases hone
    constructor
    · intro n hn hload
      by_contra hnone
      push Not at hnone
      apply hfalse n hn hload
      obtain ⟨t, rfl, -, -, hend⟩ := processBlockForExtraction_run
        (P := fun p t => n < p → Pending n t ∨ Lost n t) h
        (fun hlt => absurd hlt (Nat.not_lt_of_le (Scope.mem_block.mp hn).1)) (by
          intro p t t' hp ht hr hpending hstep hlt
          rcases Nat.lt_succ_iff_lt_or_eq.mp hlt with hnp | rfl
          · have hstore : s.isStore p = false := by
              have := hnone p hp hnp
              simpa using this
            rcases hpending hnp with hpending | hlost
            · exact (hpending.step hstore hstep).imp And.left id
            · exact Or.inr (hlost.step hnp hstep)
          · exact Or.inl (Pending.of_load ht hload hstep))
      have hlt : n < s.start + (s.ops.length - s.start) := by
        have := Scope.mem_block.mp hn
        omega
      exact (hend hlt).elim Pending.not_mem_savedGroups Lost.not_mem_savedGroups
    · intro k hk n hn x hx hstore hload hregions hkn hnx htile
      by_contra hnone
      push Not at hnone
      apply hfalse n hn hload
      obtain ⟨t, rfl, -, -, hend⟩ := processBlockForExtraction_run
        (P := fun p t => n < p → (p ≤ x ∧ Pending n t ∧ t.lastStoreOp.isSome) ∨ Lost n t) h
        (fun hlt => absurd hlt (Nat.not_lt_of_le (Scope.mem_block.mp hn).1)) (by
          intro p t t' hp ht hr hpending hstep hlt
          rcases Nat.lt_succ_iff_lt_or_eq.mp hlt with hnp | rfl
          · rcases hpending hnp with ⟨hpx, hpend, hlast⟩ | hlost
            · rcases Nat.lt_or_eq_of_le hpx with hpx | heq
              · have hstore' : s.isStore p = false := by
                  have := hnone p hp hnp hpx
                  simpa using this
                rcases hpend.step hstore' hstep with ⟨hpend, heq⟩ | hlost
                · exact Or.inl ⟨hpx, hpend, heq ▸ hlast⟩
                · exact Or.inr hlost
              · exact Or.inr (hpend.cut ht (heq ▸ hregions) hlast hstep)
            · exact Or.inr (hlost.step hnp hstep)
          · exact Or.inl ⟨hnx, Pending.of_load ht hload hstep,
              ht.lastStoreOp_of_load hk hkn hstore hload htile hstep⟩)
      have hlt : x < s.start + (s.ops.length - s.start) := by
        have := Scope.mem_block.mp hx
        omega
      rcases hend (Nat.lt_trans hnx hlt) with ⟨hle, -⟩ | hlost
      · exact absurd hlt (Nat.not_lt_of_le hle)
      · exact hlost.not_mem_savedGroups
  · intro hfollow n hn hmemory
    apply Nat.le_antisymm ((processBlockForExtraction_ranges h).countP_le_one n)
    obtain ⟨t, rfl, ht, hr, hend⟩ := processBlockForExtraction_run
      (P := fun p t => n < p → Kept n t) h
      (fun hlt => absurd hlt (Nat.not_lt_of_le (Scope.mem_block.mp hn).1))
      fun p t t' hp ht hr hkept hstep hlt => Kept.step hfollow ht hr hp hmemory hkept hlt hstep
    have hlt : n < s.start + (s.ops.length - s.start) := by
      have := Scope.mem_block.mp hn
      omega
    have hwas : t.lastMemOpWasLoad = false := by
      by_contra hwas
      obtain ⟨m, hm, hmlt, ⟨first, hfirst, hle⟩, hnostore⟩ := hr.pending (by simpa using hwas)
      have hstart := ht.start_le hfirst
      have hmem : m ∈ s.block := Scope.mem_block.mpr (by omega)
      obtain ⟨k, hk, hmk, hstore⟩ := hfollow.last m hmem hm
      have := Scope.mem_block.mp hk
      have := hnostore k hstore hmk
      omega
    obtain ⟨group, hgroup, hcontains⟩ := (hend hlt).saved hr hmemory hlt hwas
    exact List.countP_pos_iff.mpr ⟨group, hgroup, hcontains⟩

/-! ## Blocks without classes -/

theorem EquivalenceClasses.insert_ne_nil (classes : EquivalenceClasses) (v : Value) :
    classes.insert v ≠ [] := by
  unfold EquivalenceClasses.insert
  split
  · next h =>
      rintro rfl
      cases h
  · simp

theorem EquivalenceClasses.unionSets_ne_nil (classes : EquivalenceClasses) (v w : Value) :
    classes.unionSets v w ≠ [] := by
  unfold unionSets
  extract_lets all
  split
  · next first second hfirst hsecond =>
      split
      · exact EquivalenceClasses.insert_ne_nil _ w
      · next hne =>
          have hmem := List.mem_of_find?_eq_some hfirst
          apply List.ne_nil_of_mem
          exact List.mem_map.mpr ⟨first, List.mem_filter.mpr ⟨hmem, by simpa using hne⟩, rfl⟩
  · exact EquivalenceClasses.insert_ne_nil _ w

theorem walkAncestors_ne_nil {tile : Value} {fuel : Nat} {worklist visited : List Nat}
    {classes classes' : EquivalenceClasses} (h : classes ≠ [])
    (hwalk : walkAncestors s tile fuel worklist visited classes = some classes') : classes' ≠ [] := by
  induction fuel generalizing worklist visited classes with
  | zero =>
      cases hwalk
      exact h
  | succ fuel ih =>
      cases worklist with
      | nil =>
          cases hwalk
          exact h
      | cons n worklist =>
          unfold walkAncestors at hwalk
          split at hwalk
          · exact ih h hwalk
          · split at hwalk
            · split at hwalk
              · exact ih (EquivalenceClasses.unionSets_ne_nil _ _ _) hwalk
              · cases hwalk
            · exact ih h hwalk
            · exact ih h hwalk

/-- A block with a store has classes. -/
theorem not_isStore_of_buildAccessTileEqClasses (h : buildAccessTileEqClasses s = some [])
    (hn : n ∈ s.block) : s.isStore n = false := by
  unfold buildAccessTileEqClasses at h
  rw [Scope.block_eq_range'] at h
  have hend := foldlM_range' (P := fun p classes => n < p → s.isStore n → classes ≠ [])
    (fun hlt => absurd hlt (Nat.not_lt_of_le (Scope.mem_block.mp hn).1)) (by
      intro p classes classes' _ _ hbefore hstep hlt hstore
      have hne : n < p → classes ≠ [] := fun hlt => hbefore hlt hstore
      unfold addToEqClasses at hstep
      split at hstep
      · exact walkAncestors_ne_nil (EquivalenceClasses.insert_ne_nil _ _) hstep
      · next hop =>
          have hnp : n ≠ p := by
            rintro rfl
            unfold Scope.isStore at hstore
            rw [hop] at hstore
            cases hstore
          split at hstep
          · cases hstep
            exact hne (by omega)
          · cases hstep
      · next hother _ =>
          have hnp : n ≠ p := by
            rintro rfl
            unfold Scope.isStore at hstore
            rcases hop : s.ops[n]? with _ | op
            · rw [hop] at hstore
              cases hstore
            · rw [hop] at hstore
              cases op with
              | load accessTile => cases hstore
              | store data accessTile => exact hother data accessTile hop
              | pure kernel isCompute isolated operands numResults regions => cases hstore
          cases hstep
          exact hne (by omega)) h
  by_contra hstore
  refine hend ?_ (by simpa using hstore) rfl
  have := Scope.mem_block.mp hn
  omega

theorem collectComputeGroups_cases {groups : List ComputeGroup}
    (h : collectComputeGroups s = some (classes, groups)) :
    (groups = [] ∧ ∀ n ∈ s.block, s.isStore n = false) ∨
      processBlockForExtraction s classes = some groups := by
  unfold collectComputeGroups at h
  obtain ⟨classes', hclasses, h⟩ := Option.bind_eq_some_iff.mp h
  split at h
  · next hempty =>
      cases h
      rw [List.isEmpty_iff] at hempty
      subst hempty
      exact Or.inl ⟨rfl, fun n hn => not_isStore_of_buildAccessTileEqClasses hclasses hn⟩
  · obtain ⟨groups', hgroups, heq⟩ := Option.map_eq_some_iff.mp h
    cases heq
    exact Or.inr hgroups

theorem collectComputeGroups_ranges {groups : List ComputeGroup}
    (h : collectComputeGroups s = some (classes, groups)) : Ranges s groups := by
  rcases collectComputeGroups_cases h with ⟨rfl, -⟩ | h
  · exact ⟨nofun, List.Pairwise.nil⟩
  · exact processBlockForExtraction_ranges h

/-- **Every load and store is in one group** exactly if no load is cut off. -/
theorem grouped_iff {groups : List ComputeGroup}
    (h : collectComputeGroups s = some (classes, groups)) :
    (∀ n ∈ s.block, s.isMemory n → groups.countP (·.contains n) = 1) ↔ StoresFollow s classes := by
  rcases collectComputeGroups_cases h with ⟨rfl, hstores⟩ | h
  · constructor
    · intro hgrouped
      constructor
      · intro n hn hload
        exact absurd (hgrouped n hn (Scope.isMemory_of_isLoad hload)) nofun
      · intro k hk n hn x hx hstore
        rw [hstores k hk] at hstore
        cases hstore
    · intro hfollow n hn hmemory
      rw [s.isMemory_eq, hstores n hn, Bool.or_false] at hmemory
      obtain ⟨k, hk, -, hstore⟩ := hfollow.last n hn hmemory
      rw [hstores k hk] at hstore
      cases hstore
  · exact processBlockForExtraction_grouped_iff h

end ComputeGroupExtraction

end DataflowScheduler
