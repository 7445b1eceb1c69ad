import DataflowScheduler.Conversion.KTIRToScheduleIR.RewrittenBlocks

/-!
# Runs of rewritten blocks

A block whose groups are extracted, run from the state that the operations above leave, reads and writes
what the block did.
-/

namespace DataflowScheduler

namespace ComputeGroupExtraction

variable {s : Scope} {n p : Nat} {group : ComputeGroup} {groups : List ComputeGroup}

/-- **The same accesses**: on every machine, after the operations above the block, the rewritten one
performs the loads and stores of the block, in the same order, on the same tiles and with the same
data. -/
def SameAccesses (s : Scope) (items : List Item) : Prop :=
  ∀ (V M : Type) [Inhabited V] (m : Machine V M) (env : Value → V) (memory : M),
    (runItems s m items (run s m (List.range s.start) ⟨env, memory, []⟩)).trace =
      (run s m s.block (run s m (List.range s.start) ⟨env, memory, []⟩)).trace ∧
    (runItems s m items (run s m (List.range s.start) ⟨env, memory, []⟩)).memory =
      (run s m s.block (run s m (List.range s.start) ⟨env, memory, []⟩)).memory

section Simulation

variable {V M : Type} [Inhabited V] {m : Machine V M}

/-- States that differ in values nobody asks for. -/
structure Agree (gone : Value → Prop) (σ τ : State V M) : Prop where
  env : ∀ v, ¬ gone v → σ.env v = τ.env v
  memory : σ.memory = τ.memory
  trace : σ.trace = τ.trace

variable {gone : Value → Prop} {σ τ : State V M}

theorem Agree.of_runOp (h : Agree gone σ τ) (hn : ∀ v ∈ s.valuesReadFromAbove n, ¬ gone v) :
    Agree gone (runOp s m σ n) (runOp s m τ n) := by
  unfold runOp
  rcases hop : s.ops[n]? with _ | op
  · exact h
  · have hreads : ∀ v ∈ op.reads, σ.env v = τ.env v := by
      intro v hv
      apply h.env v
      apply hn
      rw [s.valuesReadFromAbove_eq hop]
      exact Op.mem_valuesReadFromAbove.mpr hv
    have houtputs := op.outputs_congr (m := m) hop σ.memory hreads
    have haccess := op.access_congr (m := m) hop σ.memory hreads
    rw [h.memory] at houtputs haccess
    constructor
    · intro v hv
      show define σ.env n _ v = define τ.env n _ v
      rw [h.memory, houtputs]
      cases v with
      | argument k => exact h.env _ hv
      | inner k => exact h.env _ hv
      | result k i =>
          show (if k = n then _ else _) = (if k = n then _ else _)
          rw [h.env _ hv]
    · show (op.access m n σ.env σ.memory).2 = (op.access m n τ.env τ.memory).2
      rw [h.memory, haccess]
    · show σ.trace ++ (op.access m n σ.env σ.memory).1 = τ.trace ++ (op.access m n τ.env τ.memory).1
      rw [h.memory, haccess, h.trace]

theorem Agree.of_run {ns : List Nat} (h : Agree gone σ τ)
    (hns : ∀ n ∈ ns, ∀ v ∈ s.valuesReadFromAbove n, ¬ gone v) :
    Agree gone (run s m ns σ) (run s m ns τ) := by
  induction ns generalizing σ τ with
  | nil => exact h
  | cons n ns ih =>
      rw [List.forall_mem_cons] at hns
      exact ih (h.of_runOp hns.1) hns.2

theorem run_range' (p count : Nat) (σ : State V M) :
    run s m (List.range' p count) (run s m (List.range p) σ) = run s m (List.range (p + count)) σ := by
  rw [← run_append, List.range_eq_range', List.range_eq_range', ← List.range'_append_1, Nat.zero_add]

/-- A call performs what its group did. -/
theorem Agree.of_call (hlt : group.firstLoad ≤ group.lastStore) (hlast : group.lastStore < s.ops.length)
    (hfirst : LoadsFirst s group) (hgone : ∀ v, gone v → v.getDefiningOp ≠ none) {init : State V M}
    (h : Agree gone σ (run s m (List.range group.firstLoad) init)) :
    Agree (fun v => gone v ∨ ∃ k, v.getDefiningOp = some k ∧ group.contains k)
      (runItem s m σ (.call (extractedFunc s group.range)))
      (run s m (List.range (group.lastStore + 1)) init) := by
  have hns : ∀ n ∈ group.range, n < s.ops.length := by
    intro n hn
    have := of_decide_eq_true (Bool.and_eq_true_iff.mp (ComputeGroup.mem_range.mp hn)).2
    omega
  have hrange : run s m group.range
      (run s m (List.range group.firstLoad) init) =
      run s m (List.range (group.lastStore + 1)) init := by
    unfold ComputeGroup.range
    rw [run_range']
    congr 2
    omega
  -- The values after the group say what its operations did.
  obtain ⟨-, hloaded, htrace, hmemory⟩ := run_spec (m := m)
    (show group.range.Pairwise (· < ·) from List.pairwise_lt_range')
    (run s m (List.range group.firstLoad) init)
  obtain ⟨hcomputed, -, -, -⟩ := run_spec (m := m)
    (show (List.range (group.lastStore + 1)).Pairwise (· < ·) from List.pairwise_lt_range) init
  rw [hrange] at hloaded htrace hmemory
  have hfilter := (loadsFirst_iff hlast).mp hfirst
  have hbody := extractedFunc_body hns ComputeGroup.nodup_range
  have hle : ∀ n ∈ (extractedFunc s group.range).body, n < group.lastStore + 1 := by
    intro n hn
    have hcontains : ∀ k ∈ group.range, k ≤ group.lastStore := fun k hk =>
      of_decide_eq_true (Bool.and_eq_true_iff.mp (ComputeGroup.mem_range.mp hk)).2
    rw [hbody] at hn
    rcases List.mem_append.mp hn with hn | hn
    · obtain ⟨k, hk, hnk⟩ := lt_of_mem_needed hns hn
      have := hcontains k hk
      omega
    · exact Nat.lt_succ_of_le (hcontains n (List.mem_filter.mp hn).1)
  have hargs : ∀ n ∈ (extractedFunc s group.range).body, ∀ v ∈ s.valuesReadFromAbove n,
      v.getDefiningOp = none →
      (if v ∈ (extractedFunc s group.range).params then σ.env v else default) =
        (run s m (List.range (group.lastStore + 1)) init).env v := by
    intro n hn v hv hdef
    rw [if_pos (mem_params hns ComputeGroup.nodup_range hn hv hdef), h.env v fun hv => hgone v hv hdef,
      ← hrange]
    exact (run_env_of_not_mem fun k _ => by rw [hdef]; exact nofun).symm
  obtain ⟨-, htrace', hmemory'⟩ := run_grows (m := m)
    (extractedFunc_body_grows hns ComputeGroup.nodup_range)
    { σ with env := fun v => if v ∈ (extractedFunc s group.range).params then σ.env v else default }
    hargs (fun n hn => hcomputed n (List.mem_range.mpr (hle n hn))) (by
      rw [← loaded_filter, hfilter, loaded_filter, h.memory]
      exact hloaded)
  have haccesses : accesses s m
      (run s m (List.range (group.lastStore + 1)) init).env
      (extractedFunc s group.range).body σ.memory =
      accesses s m (run s m (List.range (group.lastStore + 1)) init).env
        group.range (run s m (List.range group.firstLoad) init).memory := by
    rw [← accesses_filter, hfilter, accesses_filter, h.memory]
  constructor
  · intro v hv
    rw [not_or] at hv
    show σ.env v = _
    rw [h.env v hv.1, ← hrange]
    refine (run_env_of_not_mem fun k hk hdef => hv.2 ⟨k, hdef, ?_⟩).symm
    exact ComputeGroup.mem_range.mp hk
  · show (run s m _ _).memory = _
    rw [hmemory', haccesses]
    exact hmemory.symm
  · show (run s m _ _).trace = _
    rw [htrace', haccesses, h.trace]
    exact htrace.symm

/-- **The rest of a block and its rewritten form** do the same. -/
theorem Agree.of_rewriteFrom (hranges : Ranges s groups)
    (hle : ∀ group ∈ groups, p ≤ group.firstLoad) (hinside : ∀ group ∈ groups, ReadInside s group)
    (hfirst : ∀ group ∈ groups, LoadsFirst s group) (hgone : ∀ v, gone v → v.getDefiningOp ≠ none)
    (hunread : ∀ n, p ≤ n → ∀ v ∈ s.valuesReadFromAbove n, ¬ gone v) {init : State V M}
    (h : Agree gone σ (run s m (List.range p) init)) :
    ∃ gone', Agree gone' (runItems s m (rewriteFrom s groups p) σ)
      (run s m (List.range (p + (s.ops.length - p))) init) := by
  induction groups generalizing p σ gone with
  | nil =>
      refine ⟨gone, ?_⟩
      show Agree gone (runItems s m ((List.range' p (s.ops.length - p)).map .op) σ) _
      rw [runItems_op, ← run_range']
      apply h.of_run
      intro n hn
      rw [List.mem_range'_1] at hn
      exact hunread n hn.1
  | cons group groups ih =>
      obtain ⟨hrange, hpairwise⟩ := hranges
      rw [List.forall_mem_cons] at hrange hle hinside hfirst
      rw [List.pairwise_cons] at hpairwise
      obtain ⟨-, hlt, hlast⟩ := hrange.1
      have hbefore : Agree gone (run s m (List.range' p (group.firstLoad - p)) σ)
          (run s m (List.range group.firstLoad) init) := by
        have hp : group.firstLoad = p + (group.firstLoad - p) := by
          have := hle.1
          omega
        conv => right; rw [hp]
        rw [← run_range']
        apply h.of_run
        intro n hn
        rw [List.mem_range'_1] at hn
        exact hunread n hn.1
      have hcall := hbefore.of_call (Nat.le_of_lt hlt) hlast hfirst.1 hgone
      obtain ⟨gone', hend⟩ := ih ⟨hrange.2, hpairwise.2⟩ (fun later hlater => hpairwise.1 later hlater)
        hinside.2 hfirst.2 (by
          rintro v (hv | ⟨k, hdef, -⟩)
          · exact hgone v hv
          · rw [hdef]
            exact nofun) (by
          rintro n hn v hv (hv' | ⟨k, hdef, hk⟩)
          · have := hle.1
            exact hunread n (by omega) v hv hv'
          · rw [hinside.1 n hn k (List.mem_filterMap.mpr ⟨v, hv, hdef⟩)] at hk
            cases hk) hcall
      refine ⟨gone', ?_⟩
      have hlength : p + (s.ops.length - p) =
          group.lastStore + 1 + (s.ops.length - (group.lastStore + 1)) := by
        have := hle.1
        omega
      rw [hlength]
      show Agree gone' (runItems s m (_ ++ _ :: _) σ) _
      rw [runItems_append, runItems_op]
      exact hend

end Simulation

theorem sameAccesses_rewriteFrom (hranges : Ranges s groups)
    (hinside : ∀ group ∈ groups, ReadInside s group)
    (hfirst : ∀ group ∈ groups, LoadsFirst s group) :
    SameAccesses s (rewriteFrom s groups s.start) := by
  intro V M _ m env memory
  have hstart : Agree (fun _ => False) (run s m (List.range s.start) ⟨env, memory, []⟩)
      (run s m (List.range s.start) ⟨env, memory, []⟩) := ⟨fun _ _ => rfl, rfl, rfl⟩
  obtain ⟨gone, hagree⟩ := hstart.of_rewriteFrom hranges
    (fun group hgroup => (hranges.range group hgroup).1) hinside hfirst nofun (fun _ _ _ _ h => h)
  rw [← run_range', ← Scope.block_eq_range'] at hagree
  exact ⟨hagree.trace, hagree.memory⟩

/-! ## The order of the accesses -/

/-- The operations that an item runs. -/
def Item.ops : Item → List Nat
  | op n => [n]
  | call callee => callee.body

section Order

variable {V M : Type} [Inhabited V] {m : Machine V M}

theorem run_trace_op (ns : List Nat) (σ : State V M) :
    (run s m ns σ).trace.map Event.op = σ.trace.map Event.op ++ ns.filter s.isMemory := by
  induction ns generalizing σ with
  | nil => exact (List.append_nil _).symm
  | cons n ns ih =>
      have hstep : (runOp s m σ n).trace.map Event.op =
          σ.trace.map Event.op ++ if s.isMemory n then [n] else [] := by
        unfold runOp Scope.isMemory
        rcases s.ops[n]? with _ | op
        · exact (List.append_nil _).symm
        · show (σ.trace ++ (op.access m n σ.env σ.memory).1).map Event.op = _
          rw [List.map_append]
          cases op <;> rfl
      rw [run_cons, ih, hstep, List.filter_cons, List.append_assoc]
      split <;> rfl

theorem runItems_trace_op (items : List Item) (σ : State V M) :
    (runItems s m items σ).trace.map Event.op =
      σ.trace.map Event.op ++ (items.flatMap Item.ops).filter s.isMemory := by
  induction items generalizing σ with
  | nil => exact (List.append_nil _).symm
  | cons item items ih =>
      have hstep : (runItem s m σ item).trace.map Event.op =
          σ.trace.map Event.op ++ item.ops.filter s.isMemory := by
        cases item with
        | op n => exact run_trace_op [n] σ
        | call callee => exact run_trace_op callee.body _
      show (runItems s m items (runItem s m σ item)).trace.map Event.op = _
      rw [ih, hstep, List.flatMap_cons, List.filter_append, List.append_assoc]

end Order

theorem ops_flatMap_map (ns : List Nat) : (ns.map Item.op).flatMap Item.ops = ns := by
  rw [List.flatMap_map]
  exact List.flatMap_singleton' ns

/-- A function accesses at least what its group does. -/
theorem length_range_le (hlast : group.lastStore < s.ops.length) :
    (group.range.filter s.isMemory).length ≤
      ((extractedFunc s group.range).body.filter s.isMemory).length := by
  have hns : ∀ n ∈ group.range, n < s.ops.length := by
    intro n hn
    have := of_decide_eq_true (Bool.and_eq_true_iff.mp (ComputeGroup.mem_range.mp hn)).2
    omega
  apply List.Subperm.length_le
  apply List.subperm_of_subset (ComputeGroup.nodup_range.filter _)
  intro n hn
  rw [List.mem_filter] at hn ⊢
  refine ⟨?_, hn.2⟩
  rw [extractedFunc_body hns ComputeGroup.nodup_range, List.mem_append, List.mem_filter]
  by_cases hneeded : n ∈ needed s group.range
  · exact Or.inl hneeded
  · exact Or.inr ⟨hn.1, by simpa using hneeded⟩

/-- What a rewritten block runs, one group at a time. -/
theorem ops_rewriteFrom_cons (group : ComputeGroup) (groups : List ComputeGroup) (p : Nat) :
    ((rewriteFrom s (group :: groups) p).flatMap Item.ops).filter s.isMemory =
      (List.range' p (group.firstLoad - p)).filter s.isMemory ++
        ((extractedFunc s group.range).body.filter s.isMemory ++
          ((rewriteFrom s groups (group.lastStore + 1)).flatMap Item.ops).filter s.isMemory) := by
  show ((_ ++ _ :: _ : List Item).flatMap Item.ops).filter s.isMemory = _
  rw [List.flatMap_append, List.flatMap_cons, ops_flatMap_map, List.filter_append,
    List.filter_append]
  rfl

theorem length_le_rewriteFrom (hranges : Ranges s groups)
    (hle : ∀ group ∈ groups, p ≤ group.firstLoad) :
    ((List.range' p (s.ops.length - p)).filter s.isMemory).length ≤
      (((rewriteFrom s groups p).flatMap Item.ops).filter s.isMemory).length := by
  induction groups generalizing p with
  | nil =>
      exact Nat.le_of_eq (by rw [rewriteFrom, ops_flatMap_map])
  | cons group groups ih =>
      obtain ⟨hrange, hpairwise⟩ := hranges
      rw [List.forall_mem_cons] at hrange hle
      rw [List.pairwise_cons] at hpairwise
      obtain ⟨-, hlt, hlast⟩ := hrange.1
      have hle' : ∀ later ∈ groups, group.lastStore + 1 ≤ later.firstLoad :=
        fun later hlater => hpairwise.1 later hlater
      have hrest := ih ⟨hrange.2, hpairwise.2⟩ hle'
      have hgroup := length_range_le hlast
      rw [range'_split hle.1 hlt hlast, ops_rewriteFrom_cons]
      simp only [List.filter_append, List.length_append]
      omega

/-- A rewritten block that performs the accesses of the block in order has the loads of its groups
first. -/
theorem loadsFirst_of_filter_eq (hranges : Ranges s groups)
    (hle : ∀ group ∈ groups, p ≤ group.firstLoad)
    (h : ((rewriteFrom s groups p).flatMap Item.ops).filter s.isMemory =
      (List.range' p (s.ops.length - p)).filter s.isMemory) :
    ∀ group ∈ groups, LoadsFirst s group := by
  induction groups generalizing p with
  | nil => exact nofun
  | cons group groups ih =>
      obtain ⟨hrange, hpairwise⟩ := hranges
      rw [List.forall_mem_cons] at hrange hle
      rw [List.pairwise_cons] at hpairwise
      obtain ⟨-, hlt, hlast⟩ := hrange.1
      have hle' : ∀ later ∈ groups, group.lastStore + 1 ≤ later.firstLoad :=
        fun later hlater => hpairwise.1 later hlater
      have hrest := length_le_rewriteFrom ⟨hrange.2, hpairwise.2⟩ hle'
      have hgroup := length_range_le hlast
      rw [range'_split hle.1 hlt hlast, ops_rewriteFrom_cons, List.filter_append,
        List.filter_append, List.append_cancel_left_eq] at h
      have hlength := congrArg List.length h
      rw [List.length_append, List.length_append] at hlength
      obtain ⟨hbody, hends⟩ := List.append_inj h (by omega)
      exact List.forall_mem_cons.mpr ⟨(loadsFirst_iff hlast).mpr hbody,
        ih ⟨hrange.2, hpairwise.2⟩ hle' hends⟩

/-! ## What extraction keeps -/

/-- **What is asked of the extraction**: every load and store is in exactly one group, no operation that
is erased is still used, and the rewritten block performs the same accesses. -/
structure Preserved (s : Scope) (groups : List ComputeGroup) : Prop where
  grouped : ∀ n ∈ s.block, s.isMemory n → groups.countP (·.contains n) = 1
  rewritten : ∃ items, extractComputeGroups s groups = some items ∧ SameAccesses s items

/-- **Extraction preserves a block** exactly if no load is cut off from the stores of its group, no
value of a group is read behind it, and the loads that the operations of a group depend on are its first
memory operations, in the order they are found in. -/
theorem extractComputeGroups_preserved_iff (s : Scope) (classes : EquivalenceClasses)
    (groups : List ComputeGroup) (h : collectComputeGroups s = some (classes, groups)) :
    Preserved s groups ↔
      StoresFollow s classes ∧ (∀ group ∈ groups, ReadInside s group) ∧
        ∀ group ∈ groups, LoadsFirst s group := by
  have hranges := collectComputeGroups_ranges h
  constructor
  · rintro ⟨hgrouped, items, hitems, hsame⟩
    obtain ⟨rfl, hinside⟩ := (extractComputeGroups_eq_some hranges).mp hitems
    refine ⟨(grouped_iff h).mp hgrouped, hinside, ?_⟩
    apply loadsFirst_of_filter_eq hranges fun group hgroup => (hranges.range group hgroup).1
    -- The order of the accesses shows in any trace.
    obtain ⟨htrace, -⟩ := hsame Unit Unit ⟨fun _ _ => [], fun _ _ => (), fun _ _ _ => ()⟩
      (fun _ => ()) ()
    have hops := congrArg (List.map Event.op) htrace
    simp only [runItems_trace_op, run_trace_op, List.append_cancel_left_eq] at hops
    rw [Scope.block_eq_range'] at hops
    exact hops
  · rintro ⟨hfollow, hinside, hfirst⟩
    exact ⟨(grouped_iff h).mpr hfollow, _, (extractComputeGroups_eq_some hranges).mpr ⟨rfl, hinside⟩,
      sameAccesses_rewriteFrom hranges hinside hfirst⟩

section Copies

/-- Three access tiles, the first one copied to the second and the second one to the third. -/
def copies : List Op := [
  .pure 0 false false [] 1 [],
  .pure 1 false false [] 1 [],
  .pure 2 false false [] 1 [],
  .load (.result 0 0),
  .store (.result 3 0) (.result 1 0),
  .load (.result 1 0),
  .store (.result 5 0) (.result 2 0)]

theorem copies_direct (count : Nat) :
    ∀ op ∈ copies.take count, ∀ v ∈ op.operands, v.isFromAbove = true := by
  intro op hop
  have hop := List.mem_of_mem_take hop
  simp only [copies, List.mem_cons, List.not_mem_nil, or_false] at hop
  rcases hop with rfl | rfl | rfl | rfl | rfl | rfl | rfl <;> simp [Op.operands, Value.isFromAbove]

theorem copies_ssa (count : Nat) : ∀ n op, (copies.take count)[n]? = some op → ∀ k i,
    Value.result k i ∈ op.walk →
    k < n ∧ ∃ source, (copies.take count)[k]? = some source ∧ i < source.numResults := by
  intro n op h k i hk
  rw [List.getElem?_take] at h
  split at h
  · next hn =>
      have hcase : k < n ∧ ∃ source, copies[k]? = some source ∧ i < source.numResults := by
        rcases n with _ | _ | _ | _ | _ | _ | _ | n <;> cases h <;>
          simp only [Op.walk, walkAll, List.flatten_nil, List.append_nil, Bool.false_eq_true, if_false,
            List.mem_cons, List.not_mem_nil, or_false, Value.result.injEq] at hk
        · obtain ⟨rfl, rfl⟩ := hk
          exact ⟨by decide, _, rfl, by decide⟩
        · rcases hk with ⟨rfl, rfl⟩ | ⟨rfl, rfl⟩ <;> exact ⟨by decide, _, rfl, by decide⟩
        · obtain ⟨rfl, rfl⟩ := hk
          exact ⟨by decide, _, rfl, by decide⟩
        · rcases hk with ⟨rfl, rfl⟩ | ⟨rfl, rfl⟩ <;> exact ⟨by decide, _, rfl, by decide⟩
      obtain ⟨hkn, source, hsource, hi⟩ := hcase
      refine ⟨hkn, source, ?_, hi⟩
      rw [List.getElem?_take, if_pos (Nat.lt_trans hkn hn)]
      exact hsource
  · cases h

/-- The first operations of the copies. -/
def copiesScope (count : Nat) : Scope where
  ops := copies.take count
  start := 0
  direct := copies_direct count
  ssa := copies_ssa count

/-- The first copy alone. -/
theorem extractComputeGroups_preserved_iff_copy :
    collectComputeGroups (copiesScope 5) = some ([[.result 1 0, .result 0 0]], [⟨3, 4⟩]) ∧
      (Preserved (copiesScope 5) [⟨3, 4⟩] ↔
        StoresFollow (copiesScope 5) [[.result 1 0, .result 0 0]] ∧
          (∀ group ∈ [(⟨3, 4⟩ : ComputeGroup)], ReadInside (copiesScope 5) group) ∧
          ∀ group ∈ [(⟨3, 4⟩ : ComputeGroup)], LoadsFirst (copiesScope 5) group) :=
  ⟨by decide, extractComputeGroups_preserved_iff _ _ _ (by decide)⟩

/-- Extracted, both loads come before both stores, so that the second copy misses the first one. -/
theorem not_preserved_copies :
    collectComputeGroups (copiesScope 7) =
        some ([[.result 2 0, .result 1 0, .result 0 0]], [⟨3, 6⟩]) ∧
      ¬ Preserved (copiesScope 7) [⟨3, 6⟩] := by
  refine ⟨by decide, ?_⟩
  rintro ⟨-, items, hitems, hsame⟩
  obtain rfl : [.op 0, .op 1, .op 2, .call ⟨[], [0, 3, 1, 5, 2, 4, 6]⟩] = items :=
    Option.some.inj (Eq.trans (by decide) hitems)
  -- A memory that holds at every tile its number.
  obtain ⟨htrace, -⟩ := hsame Nat (Nat → Nat)
    ⟨fun kernel _ => [kernel], fun tile memory => memory tile,
      fun tile data memory a => if a = tile then data else memory a⟩ (fun _ => 0) id
  revert htrace
  decide

end Copies

end ComputeGroupExtraction

end DataflowScheduler
