import DataflowScheduler.Conversion.KTIRToScheduleIR.CollectedGroups
import DataflowScheduler.Conversion.KTIRToScheduleIR.ComputeGroupRuns

/-!
# What extracted groups keep

A function that is extracted clones what its range depends on first, so it keeps the order of the
memory accesses exactly if the loads that are depended on stand at the beginning of the range. Then a
block and its rewritten form read and write the same.
-/

namespace DataflowScheduler

namespace ComputeGroupExtraction

variable {s : Scope} {n p : Nat}

/-! ## Dependencies -/

/-- The operations an operation reads from. -/
def Scope.sources (s : Scope) (n : Nat) : List Nat :=
  (s.valuesReadFromAbove n).filterMap Value.getDefiningOp

theorem Scope.mem_sources {op : Op} (h : s.ops[n]? = some op) {k : Nat} :
    k ∈ s.sources n ↔ ∃ v ∈ op.reads, v.getDefiningOp = some k := by
  unfold Scope.sources
  rw [List.mem_filterMap, s.valuesReadFromAbove_eq h]
  simp only [Op.mem_valuesReadFromAbove]

theorem Scope.lt_of_mem_sources {k : Nat} (h : k ∈ s.sources n) : k < n := by
  rcases hop : s.ops[n]? with _ | op
  · unfold Scope.sources Scope.valuesReadFromAbove at h
    rw [hop] at h
    cases h
  · obtain ⟨v, hv, hk⟩ := (s.mem_sources hop).mp h
    exact s.lt_of_mem_reads hop hv hk

theorem Scope.rank_sources (s : Scope) : ∀ n, ∀ k ∈ s.sources n, id k < id n :=
  fun _ _ h => s.lt_of_mem_sources h

/-- What the operations of a range read from, found depth-first: each after what it reads from. -/
def needed (s : Scope) (ns : List Nat) : List Nat :=
  (ns.flatMap s.sources).foldl (DepthFirst.visit s.sources (s.ops.length + 1)) []

theorem materializeDependency_eq (fuel : Nat) (cloned : List Nat) (v : Value) :
    materializeDependency s fuel cloned v =
      match v.getDefiningOp with
      | none => cloned
      | some op => DepthFirst.visit s.sources fuel cloned op := by
  induction fuel generalizing cloned v with
  | zero =>
      unfold materializeDependency
      cases v.getDefiningOp <;> rfl
  | succ fuel ih =>
      unfold materializeDependency
      rcases v.getDefiningOp with _ | op
      · rfl
      · have hstep : materializeDependency s fuel = fun cloned v =>
            match v.getDefiningOp with
            | some op => DepthFirst.visit s.sources fuel cloned op
            | none => cloned := by
          funext cloned v
          rw [ih]
          cases v.getDefiningOp <;> rfl
        simp only [DepthFirst.visit]
        rw [hstep, Scope.sources, List.foldl_filterMap]
        congr 3
        funext cloned v
        cases v.getDefiningOp <;> rfl

theorem foldl_materializeDependency (ns : List Nat) :
    (ns.flatMap s.valuesReadFromAbove).foldl (materializeDependency s (s.ops.length + 1)) [] =
      needed s ns := by
  have hsources : ns.flatMap s.sources =
      (ns.flatMap s.valuesReadFromAbove).filterMap Value.getDefiningOp := by
    rw [List.filterMap_flatMap]
    rfl
  unfold needed
  rw [hsources, List.foldl_filterMap]
  congr 1
  funext cloned v
  rw [materializeDependency_eq]
  cases v.getDefiningOp <;> rfl

section Needed

variable {ns : List Nat} (hns : ∀ n ∈ ns, n < s.ops.length)

include hns

theorem needed_spec : DepthFirst.Grows s.sources [] (needed s ns) ∧
    (∀ n ∈ ns, ∀ k ∈ s.sources n, k ∈ needed s ns) ∧
    ∀ k ∈ needed s ns, ∃ n ∈ ns, ∃ l ∈ s.sources n, DepthFirst.Below s.sources l k := by
  have hfuel : ∀ k ∈ ns.flatMap s.sources, id k < s.ops.length + 1 := by
    intro k hk
    obtain ⟨n, hn, hk⟩ := List.mem_flatMap.mp hk
    exact Nat.lt_succ_of_lt (Nat.lt_trans (s.lt_of_mem_sources hk) (hns n hn))
  obtain ⟨hgrows, hall, hbelow⟩ := DepthFirst.visit_foldl_spec s.rank_sources hfuel []
  refine ⟨hgrows, fun n hn k hk => hall k (List.mem_flatMap.mpr ⟨n, hn, hk⟩), fun k hk => ?_⟩
  rcases hbelow k hk with hk | ⟨l, hl, hlk⟩
  · cases hk
  · obtain ⟨n, hn, hl⟩ := List.mem_flatMap.mp hl
    exact ⟨n, hn, l, hl, hlk⟩

theorem lt_of_mem_needed {k : Nat} (hk : k ∈ needed s ns) : ∃ n ∈ ns, k < n := by
  obtain ⟨n, hn, l, hl, hlk⟩ := (needed_spec hns).2.2 k hk
  exact ⟨n, hn, Nat.lt_of_le_of_lt (hlk.rank_le s.rank_sources) (s.lt_of_mem_sources hl)⟩

/-- Nothing depends on an operation without results. -/
theorem results_of_mem_needed {k : Nat} (hk : k ∈ needed s ns) :
    ∃ op, s.ops[k]? = some op ∧ 0 < op.numResults := by
  have hread : ∀ n, k ∈ s.sources n → ∃ op, s.ops[k]? = some op ∧ 0 < op.numResults := by
    intro n hkn
    rcases hop : s.ops[n]? with _ | op
    · unfold Scope.sources Scope.valuesReadFromAbove at hkn
      rw [hop] at hkn
      cases hkn
    · obtain ⟨v, hv, hdef⟩ := (s.mem_sources hop).mp hkn
      cases v with
      | argument number => cases hdef
      | result op' i =>
          cases hdef
          obtain ⟨-, source, hsource, hi⟩ := s.ssa n op hop k i (List.mem_filter.mp hv).1
          exact ⟨source, hsource, Nat.lt_of_le_of_lt (Nat.zero_le i) hi⟩
      | inner number => cases hdef
  obtain ⟨n, -, l, hl, hlk⟩ := (needed_spec hns).2.2 k hk
  rcases Relation.ReflTransGen.cases_tail hlk with rfl | ⟨l', -, hkl'⟩
  · exact hread n hl
  · exact hread l' hkl'

end Needed

/-! ## The body of an extracted function -/

theorem cloneOp_eq (cloned : List Nat) (h : n ∈ cloned → ∃ op, s.ops[n]? = some op ∧ 0 < op.numResults) :
    cloneOp s cloned n = if n ∈ cloned then cloned else cloned ++ [n] := by
  unfold cloneOp
  have hiff : ((results s n).any fun result => result.getDefiningOp.any (· ∈ cloned)) = true ↔
      n ∈ cloned := by
    rw [List.any_eq_true]
    unfold results
    constructor
    · rintro ⟨v, hv, hcloned⟩
      rcases hop : s.ops[n]? with _ | op
      · rw [hop] at hv
        cases hv
      · rw [hop] at hv
        obtain ⟨i, -, rfl⟩ := List.mem_map.mp hv
        simpa [Value.getDefiningOp] using hcloned
    · intro hn
      obtain ⟨op, hop, hresults⟩ := h hn
      rw [hop]
      exact ⟨.result n 0, List.mem_map.mpr ⟨0, List.mem_range.mpr hresults, rfl⟩,
        by simpa [Value.getDefiningOp] using hn⟩
  by_cases hn : n ∈ cloned
  · rw [if_pos hn, if_pos (hiff.mpr hn)]
  · rw [if_neg hn, if_neg (mt hiff.mp hn)]

theorem foldl_cloneOp {cloned : List Nat} {ns : List Nat} (hnd : ns.Nodup)
    (h : ∀ n ∈ ns, n ∈ cloned → ∃ op, s.ops[n]? = some op ∧ 0 < op.numResults) :
    ns.foldl (cloneOp s) cloned = cloned ++ ns.filter (· ∉ cloned) := by
  suffices hgeneral : ∀ extra : List Nat, (∀ n ∈ ns, n ∉ extra) →
      ns.foldl (cloneOp s) (cloned ++ extra) = cloned ++ extra ++ ns.filter (· ∉ cloned) by
    simpa using hgeneral [] fun _ _ => List.not_mem_nil
  induction ns with
  | nil => exact fun extra _ => (List.append_nil _).symm
  | cons n ns ih =>
      intro extra hextra
      rw [List.nodup_cons] at hnd
      rw [List.forall_mem_cons] at h hextra
      have hmem : n ∈ cloned ++ extra ↔ n ∈ cloned := by
        rw [List.mem_append]
        exact or_iff_left hextra.1
      rw [List.foldl_cons, cloneOp_eq _ fun hn => h.1 (hmem.mp hn)]
      by_cases hn : n ∈ cloned
      · rw [if_pos (hmem.mpr hn), List.filter_cons_of_neg (by simpa using hn)]
        exact ih hnd.2 h.2 extra hextra.2
      · rw [if_neg (mt hmem.mp hn), List.filter_cons_of_pos (by simpa using hn), List.append_assoc]
        rw [ih hnd.2 h.2 (extra ++ [n])]
        · simp only [List.append_assoc, List.singleton_append]
        · intro k hk hmemk
          rcases List.mem_append.mp hmemk with hmemk | hmemk
          · exact hextra.2 k hk hmemk
          · exact hnd.1 (List.mem_singleton.mp hmemk ▸ hk)

/-- The dependencies of a range, then what else is in it. -/
theorem extractedFunc_body {ns : List Nat} (hns : ∀ n ∈ ns, n < s.ops.length) (hnd : ns.Nodup) :
    (extractedFunc s ns).body = needed s ns ++ ns.filter (· ∉ needed s ns) := by
  show ns.foldl (cloneOp s) ((ns.flatMap s.valuesReadFromAbove).foldl _ []) = _
  rw [foldl_materializeDependency]
  exact foldl_cloneOp hnd fun n _ hn => results_of_mem_needed hns hn

theorem extractedFunc_body_grows {ns : List Nat} (hns : ∀ n ∈ ns, n < s.ops.length)
    (hnd : ns.Nodup) : DepthFirst.Grows s.sources [] (extractedFunc s ns).body := by
  rw [extractedFunc_body hns hnd]
  obtain ⟨hgrows, hall, -⟩ := needed_spec hns
  apply hgrows.append (hnd.filter _)
  · intro n hn
    simpa using (List.mem_filter.mp hn).2
  · intro n hn k hk
    exact hall n (List.mem_filter.mp hn).1 k hk

/-! ## The arguments of an extracted function -/

/-- One more than the operation a value comes from. -/
def Value.height (v : Value) : Nat :=
  match v.getDefiningOp with
  | some op => op + 1
  | none => 0

/-- A value that was looked at. -/
def CollectedArgs.Has (found : CollectedArgs) (v : Value) : Prop :=
  match v.getDefiningOp with
  | some op => op ∈ found.visited
  | none => v ∈ found.args

/-- What the operations below `bound` read was looked at with them. -/
def CollectedArgs.Closed (s : Scope) (bound : Nat) (found : CollectedArgs) : Prop :=
  ∀ n ∈ found.visited, n < bound → ∀ v ∈ s.valuesReadFromAbove n, found.Has v

/-- What collecting keeps and adds. -/
structure CollectedArgs.Le (height : Nat) (found found' : CollectedArgs) : Prop where
  args : found.args ⊆ found'.args
  visited : found.visited ⊆ found'.visited
  added : ∀ n ∈ found'.visited, n ∈ found.visited ∨ n < height

namespace CollectedArgs

variable {found found' found'' : CollectedArgs} {v : Value} {h : Nat}

theorem has_of_none (h : v.getDefiningOp = none) : found.Has v ↔ v ∈ found.args := by
  unfold Has
  rw [h]

theorem has_of_some {op : Nat} (h : v.getDefiningOp = some op) :
    found.Has v ↔ op ∈ found.visited := by
  unfold Has
  rw [h]

theorem Le.refl : Le h found found := ⟨List.Subset.refl _, List.Subset.refl _, fun _ hn => Or.inl hn⟩

theorem Le.trans (h₁ : Le h found found') (h₂ : Le h found' found'') : Le h found found'' where
  args := List.Subset.trans h₁.args h₂.args
  visited := List.Subset.trans h₁.visited h₂.visited
  added n hn := (h₂.added n hn).elim (h₁.added n) Or.inr

theorem Le.mono {h' : Nat} (hle : h ≤ h') (h₁ : Le h found found') : Le h' found found' where
  args := h₁.args
  visited := h₁.visited
  added n hn := (h₁.added n hn).imp id fun hlt => Nat.lt_of_lt_of_le hlt hle

theorem Has.mono (hle : Le h found found') (hv : found.Has v) : found'.Has v := by
  unfold Has at hv ⊢
  split at hv
  · exact hle.visited hv
  · exact hle.args hv

end CollectedArgs

open CollectedArgs in
theorem foldl_collectArgsUsed_spec {f : CollectedArgs → Value → CollectedArgs} {vs : List Value}
    {bound : Nat}
    (hf : ∀ v ∈ vs, ∀ found, Closed s bound found → Closed s bound (f found v) ∧ (f found v).Has v ∧
      Le bound found (f found v))
    (found : CollectedArgs) (hclosed : Closed s bound found) :
    Closed s bound (vs.foldl f found) ∧ (∀ v ∈ vs, (vs.foldl f found).Has v) ∧
      Le bound found (vs.foldl f found) := by
  induction vs generalizing found with
  | nil => exact ⟨hclosed, nofun, Le.refl⟩
  | cons v vs ih =>
      rw [List.forall_mem_cons] at hf
      obtain ⟨hclosed', hv, hle⟩ := hf.1 found hclosed
      obtain ⟨hclosed'', hvs, hle'⟩ := ih hf.2 (f found v) hclosed'
      exact ⟨hclosed'', List.forall_mem_cons.mpr ⟨hv.mono hle', hvs⟩, hle.trans hle'⟩

theorem Scope.height_le_of_mem {v : Value} (hv : v ∈ s.valuesReadFromAbove n) : v.height ≤ n := by
  unfold Value.height
  split
  · next k hk => exact s.lt_of_mem_sources (List.mem_filterMap.mpr ⟨v, hv, hk⟩)
  · exact Nat.zero_le n

open CollectedArgs in
/-- Collecting from a value looks at what it depends on. Among operations that come after the value
nothing changes. -/
theorem collectArgsUsed_spec {fuel bound : Nat} {v : Value} (hfuel : v.height < fuel)
    (hbound : v.height ≤ bound) (found : CollectedArgs) (hclosed : Closed s bound found) :
    Closed s bound (collectArgsUsed s fuel found v) ∧ (collectArgsUsed s fuel found v).Has v ∧
      Le bound found (collectArgsUsed s fuel found v) := by
  induction fuel generalizing v found bound with
  | zero => exact absurd hfuel (Nat.not_lt_zero _)
  | succ fuel ih =>
      unfold collectArgsUsed
      unfold Value.height at hfuel hbound
      split
      · next hdef =>
          split
          · next hv => exact ⟨hclosed, (has_of_none hdef).mpr hv, Le.refl⟩
          · next hv =>
              have hle : Le bound found { found with args := found.args ++ [v] } :=
                ⟨List.subset_append_left _ _, List.Subset.refl _, fun _ hn => Or.inl hn⟩
              refine ⟨fun n hn hlt w hw => (hclosed n hn hlt w hw).mono hle,
                (has_of_none hdef).mpr ?_, hle⟩
              exact List.mem_append_right _ (List.mem_singleton_self v)
      · next op hdef =>
          rw [hdef] at hfuel hbound
          have hop : op < bound := hbound
          split
          · next hv => exact ⟨hclosed, (has_of_some hdef).mpr hv, Le.refl⟩
          · next hv =>
              -- Below the operation nothing has changed yet.
              have hmarked : Closed s op { found with visited := op :: found.visited } := by
                intro n hn hlt w hw
                rcases List.mem_cons.mp hn with rfl | hn
                · exact absurd hlt (Nat.lt_irrefl n)
                · have hw' := hclosed n hn (Nat.lt_trans hlt hop) w hw
                  unfold Has at hw' ⊢
                  split at hw'
                  · exact List.mem_cons_of_mem _ hw'
                  · exact hw'
              have hread : ∀ w ∈ s.valuesReadFromAbove op, ∀ found, Closed s op found →
                  Closed s op (collectArgsUsed s fuel found w) ∧
                    (collectArgsUsed s fuel found w).Has w ∧
                    Le op found (collectArgsUsed s fuel found w) := by
                intro w hw found hfound
                have hheight := Scope.height_le_of_mem hw
                exact ih (Nat.lt_of_le_of_lt hheight (Nat.lt_of_succ_lt_succ hfuel)) hheight found hfound
              obtain ⟨hclosed', hreads, hle⟩ := foldl_collectArgsUsed_spec hread
                { found with visited := op :: found.visited } hmarked
              have hle' : Le bound found { found with visited := op :: found.visited } := by
                refine ⟨List.Subset.refl _, List.subset_cons_self _ _, fun n hn => ?_⟩
                exact (List.mem_cons.mp hn).elim (fun heq => Or.inr (heq ▸ hop)) Or.inl
              have hall := hle'.trans (hle.mono (Nat.le_of_lt hop))
              refine ⟨fun n hn hlt w hw => ?_,
                (has_of_some hdef).mpr (hle.visited List.mem_cons_self), hall⟩
              rcases Nat.lt_trichotomy n op with hlt' | rfl | hgt
              · exact hclosed' n hn hlt' w hw
              · exact hreads w hw
              · rcases hle.added n hn with hmem | hlt'
                · rcases List.mem_cons.mp hmem with rfl | hmem
                  · exact absurd hgt (Nat.lt_irrefl n)
                  · exact (hclosed n hmem hlt w hw).mono hall
                · exact absurd hgt (Nat.lt_asymm hlt')

theorem collectArgsUsed_args {fuel : Nat} {v : Value} {found : CollectedArgs}
    (h : ∀ w ∈ found.args, w.getDefiningOp = none) :
    ∀ w ∈ (collectArgsUsed s fuel found v).args, w.getDefiningOp = none := by
  induction fuel generalizing v found with
  | zero => exact h
  | succ fuel ih =>
      unfold collectArgsUsed
      split
      · next hdef =>
          split
          · exact h
          · intro w hw
            rcases List.mem_append.mp hw with hw | hw
            · exact h w hw
            · exact List.mem_singleton.mp hw ▸ hdef
      · next op hdef =>
          split
          · exact h
          · exact List.foldlRecOn _ _
              (motive := fun found : CollectedArgs => ∀ w ∈ found.args, w.getDefiningOp = none) h
              fun _ hfound _ _ => ih hfound

theorem extractedFunc_params {ns : List Nat} :
    ∀ v ∈ (extractedFunc s ns).params, v.getDefiningOp = none :=
  List.foldlRecOn _ _ (motive := fun found : CollectedArgs => ∀ w ∈ found.args, w.getDefiningOp = none)
    nofun fun _ hfound _ _ => collectArgsUsed_args hfound

/-- A function has the arguments that its body reads. -/
theorem mem_params {ns : List Nat} (hns : ∀ n ∈ ns, n < s.ops.length) (hnd : ns.Nodup) {v : Value}
    (hn : n ∈ (extractedFunc s ns).body) (hv : v ∈ s.valuesReadFromAbove n)
    (hdef : v.getDefiningOp = none) : v ∈ (extractedFunc s ns).params := by
  have hheight : ∀ w ∈ ns.flatMap s.valuesReadFromAbove, w.height < s.ops.length + 1 := by
    intro w hw
    obtain ⟨k, hk, hw⟩ := List.mem_flatMap.mp hw
    have := Scope.height_le_of_mem hw
    have := hns k hk
    omega
  obtain ⟨hclosed, hhas, hle⟩ := foldl_collectArgsUsed_spec (s := s)
    (fun w hw found hfound => collectArgsUsed_spec (hheight w hw) (Nat.le_of_lt (hheight w hw)) found
      hfound) ⟨[], []⟩ (by exact nofun)
  change v ∈ ((ns.flatMap s.valuesReadFromAbove).foldl (collectArgsUsed s (s.ops.length + 1))
    ⟨[], []⟩).args
  generalize (ns.flatMap s.valuesReadFromAbove).foldl (collectArgsUsed s (s.ops.length + 1))
    ⟨[], []⟩ = found at hclosed hhas hle ⊢
  have hvisited : ∀ k ∈ found.visited, ∀ w ∈ s.valuesReadFromAbove k, found.Has w := by
    intro k hk
    exact hclosed k hk ((hle.added k hk).resolve_left List.not_mem_nil)
  rw [extractedFunc_body hns hnd] at hn
  rcases List.mem_append.mp hn with hn | hn
  · obtain ⟨k, hk, l, hl, hln⟩ := (needed_spec hns).2.2 n hn
    have hn : n ∈ found.visited := by
      refine hln.of_closed (P := fun k => k ∈ found.visited) (fun k hk l hl => ?_) ?_
      · obtain ⟨w, hw, hwl⟩ := List.mem_filterMap.mp hl
        exact (CollectedArgs.has_of_some hwl).mp (hvisited k hk w hw)
      · obtain ⟨w, hw, hwl⟩ := List.mem_filterMap.mp hl
        exact (CollectedArgs.has_of_some hwl).mp (hhas w (List.mem_flatMap.mpr ⟨k, hk, hw⟩))
    exact (CollectedArgs.has_of_none hdef).mp (hvisited n hn v hv)
  · exact (CollectedArgs.has_of_none hdef).mp
      (hhas v (List.mem_flatMap.mpr ⟨n, (List.mem_filter.mp hn).1, hv⟩))

/-! ## Runs of an extracted function -/

section Callee

variable {V M : Type} [Inhabited V] {m : Machine V M} {env : Value → V}

/-- **A run in the order of dependencies** gets the values that are known of its operations, as long as
every load comes when it has its value. -/
theorem run_grows {ns : List Nat} (hgrows : DepthFirst.Grows s.sources [] ns) (σ : State V M)
    (hargs : ∀ n ∈ ns, ∀ v ∈ s.valuesReadFromAbove n, v.getDefiningOp = none → σ.env v = env v)
    (hcomputed : ∀ n ∈ ns, Computed s m env n) (hloaded : Loaded s m env ns σ.memory) :
    (∀ n ∈ ns, ∀ op, s.ops[n]? = some op → ∀ i, i < op.numResults →
      (run s m ns σ).env (.result n i) = env (.result n i)) ∧
    (run s m ns σ).trace = σ.trace ++ (accesses s m env ns σ.memory).1 ∧
    (run s m ns σ).memory = (accesses s m env ns σ.memory).2 := by
  induction hgrows with
  | refl => exact ⟨fun _ hn => absurd hn List.not_mem_nil, (List.append_nil _).symm, rfl⟩
  | @snoc ns n _ hnew hchildren ih =>
      obtain ⟨hloaded, hlast⟩ := loaded_append.mp hloaded
      obtain ⟨hvalues, htrace, hmemory⟩ := ih
        (fun k hk => hargs k (List.mem_append_left _ hk))
        (fun k hk => hcomputed k (List.mem_append_left _ hk)) hloaded
      have hmem : n ∈ ns ++ [n] := List.mem_append_right _ (List.mem_singleton_self n)
      rw [run_append, accesses_append]
      show (∀ k ∈ ns ++ [n], ∀ op, s.ops[k]? = some op → ∀ i, i < op.numResults →
          (runOp s m (run s m ns σ) n).env (.result k i) = env (.result k i)) ∧
        (runOp s m (run s m ns σ) n).trace = _ ∧ (runOp s m (run s m ns σ) n).memory = _
      have hbefore : ∀ k ∈ ns, ∀ op, s.ops[k]? = some op → ∀ i, i < op.numResults →
          (runOp s m (run s m ns σ) n).env (.result k i) = env (.result k i) := by
        intro k hk op hop i hi
        rw [runOp_env_of_ne]
        · exact hvalues k hk op hop i hi
        · rintro heq
          cases heq
          exact hnew hk
      rcases hop : s.ops[n]? with _ | op
      · have hrun : runOp s m (run s m ns σ) n = run s m ns σ := by
          unfold runOp
          rw [hop]
        refine ⟨fun k hk op hk' i hi => ?_, ?_, ?_⟩
        · rcases List.mem_append.mp hk with hk | hk
          · exact hbefore k hk op hk' i hi
          · rw [List.mem_singleton.mp hk, hop] at hk'
            cases hk'
        · simp only [accesses, hop, List.append_nil, hrun]
          exact htrace
        · simp only [accesses, hop, hrun]
          exact hmemory
      · have hreads : ∀ v ∈ op.reads, (run s m ns σ).env v = env v := by
          intro v hv
          have hv' : v ∈ s.valuesReadFromAbove n := by
            rw [s.valuesReadFromAbove_eq hop]
            exact Op.mem_valuesReadFromAbove.mpr hv
          rcases hdef : v.getDefiningOp with _ | k
          · have hnone : ∀ k ∈ ns, v.getDefiningOp ≠ some k := by
              intro k _ hk
              rw [hdef] at hk
              cases hk
            rw [run_env_of_not_mem hnone]
            exact hargs n hmem v hv' hdef
          · cases v with
            | argument number => cases hdef
            | inner number => cases hdef
            | result k' i =>
                cases hdef
                obtain ⟨-, source, hsource, hi⟩ := s.ssa n op hop k i (List.mem_filter.mp hv).1
                exact hvalues k (hchildren k ((s.mem_sources hop).mpr ⟨_, hv, rfl⟩)) source hsource i
                  hi
        have houtputs := op.outputs_congr (m := m) hop (run s m ns σ).memory hreads
        have haccess := op.access_congr (m := m) hop (run s m ns σ).memory hreads
        have hrun : runOp s m (run s m ns σ) n =
            { env := define (run s m ns σ).env n (op.outputs m env (run s m ns σ).memory)
              memory := (op.access m n env (run s m ns σ).memory).2
              trace := (run s m ns σ).trace ++ (op.access m n env (run s m ns σ).memory).1 } := by
          rw [← houtputs, ← haccess]
          unfold runOp
          rw [hop]
        refine ⟨fun k hk op' hk' i hi => ?_, ?_, ?_⟩
        · rcases List.mem_append.mp hk with hk | hk
          · exact hbefore k hk op' hk' i hi
          · obtain rfl := List.mem_singleton.mp hk
            rw [hop] at hk'
            cases hk'
            rw [hrun]
            show define _ _ _ (.result _ i) = _
            rw [define_result]
            cases op with
            | load accessTile =>
                simp only [Loaded, hop] at hlast
                rw [hmemory, ← hlast.1 rfl]
                obtain rfl : i = 0 := Nat.lt_one_iff.mp hi
                rfl
            | store data accessTile => exact absurd hi (Nat.not_lt_zero i)
            | pure kernel isCompute isolated operands numResults regions =>
                exact (hcomputed k hmem _ hop rfl _ i).symm
        · rw [hrun]
          simp only [accesses, hop, htrace, hmemory, List.append_assoc, List.append_nil]
        · rw [hrun]
          simp only [accesses, hop, hmemory]

end Callee

end ComputeGroupExtraction

end DataflowScheduler
