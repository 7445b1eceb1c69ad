import DataflowScheduler.Conversion.KTDFLowToDFIR.SymbolExpressions

/-!
# The steps of a runtime scalar

`collectSteps` finds the operations that compute a value over one input, operands before results. So
each of them reads the input, a constant or an earlier step.
-/

namespace SymbolicStartAddress

open StraightLine

variable {m : ModuleOp}

/-! ## Operands before results -/

/-- The value is the input, or the result of one of the steps. -/
def Has (root : Option Value) (steps : List (Fin m.ops.length)) (v : Value) : Prop :=
  root = some v ∨ ∃ k ∈ steps, v = .result k 0

/-- Each of the steps has one result and reads the input and the steps before it only. -/
def Ready (root : Option Value) : List (Fin m.ops.length) → List (Fin m.ops.length) → Prop
  | _, [] => True
  | before, k :: steps =>
    (m.op k).num_results = 1 ∧ (∀ v ∈ (m.op k).operands, Has root before v) ∧
      Ready root (before ++ [k]) steps

theorem ready_append {root : Option Value} {before steps later : List (Fin m.ops.length)} :
    Ready root before (steps ++ later) ↔
      Ready root before steps ∧ Ready root (before ++ steps) later := by
  induction steps generalizing before with
  | nil => simp [Ready]
  | cons k steps ih => simp [Ready, ih, and_assoc]

theorem Has.mono {root root' : Option Value} {steps steps' : List (Fin m.ops.length)} {v : Value}
    (h : Has root steps v) (hroot : ∀ r, root = some r → root' = some r) (hsub : steps ⊆ steps') :
    Has root' steps' v := by
  rcases h with h | ⟨k, hk, hv⟩
  · exact .inl (hroot v h)
  · exact .inr ⟨k, hsub hk, hv⟩

theorem Ready.mono {root root' : Option Value} {before steps : List (Fin m.ops.length)}
    (h : Ready root before steps) (hroot : ∀ r, root = some r → root' = some r) :
    Ready root' before steps := by
  induction steps generalizing before with
  | nil => trivial
  | cons k steps ih =>
    obtain ⟨hone, hops, hrest⟩ := h
    exact ⟨hone, fun v hv => (hops v hv).mono hroot (List.Subset.refl _), ih hrest⟩

/-- `found'` is what collecting from `found` on may come to. -/
structure Collects (found found' : Collected m) : Prop where
  ready : Ready found.root [] found.steps → Ready found'.root [] found'.steps
  steps : found.steps ⊆ found'.steps
  root : ∀ r, found.root = some r → found'.root = some r
  seen : ∀ k ∈ found'.seen, k ∈ found'.steps ∨ k ∈ found.seen
  input : (∀ r, found.root = some r → (inputSymbolIdFor m r).isSome) →
    ∀ r, found'.root = some r → (inputSymbolIdFor m r).isSome

theorem Collects.refl (found : Collected m) : Collects found found where
  ready := id
  steps := List.Subset.refl _
  root := fun _ => id
  seen := fun _ => .inr
  input := id

theorem Collects.trans {a b c : Collected m} (h : Collects a b) (h' : Collects b c) :
    Collects a c where
  ready := fun hr => h'.ready (h.ready hr)
  steps := List.Subset.trans h.steps h'.steps
  root := fun r hr => h'.root r (h.root r hr)
  seen := by
    intro k hk
    rcases h'.seen k hk with hk | hk
    · exact .inl hk
    · rcases h.seen k hk with hk | hk
      · exact .inl (h'.steps hk)
      · exact .inr hk
  input := fun hr => h'.input (h.input hr)

/-- The operations that are seen but not yet collected lie above `v`. -/
def Below (found : Collected m) (v : Value) : Prop :=
  ∀ k ∈ found.seen, k ∈ found.steps ∨ v.height ≤ k

theorem Collects.below {found found' : Collected m} (h : Collects found found') {v : Value}
    (hv : Below found v) : Below found' v := by
  intro k hk
  rcases h.seen k hk with hk | hk
  · exact .inl hk
  · rcases hv k hk with hk | hk
    · exact .inl (h.steps hk)
    · exact .inr hk

/-- Collecting operand after operand. -/
theorem foldlM_collects {f : Collected m → Value → Option (Collected m)} {vs : List Value}
    {found found' : Collected m}
    (hf : ∀ found found', ∀ v ∈ vs, Below found v → f found v = some found' →
      Collects found found' ∧ Has found'.root found'.steps v)
    (hbelow : ∀ v ∈ vs, Below found v) (h : vs.foldlM f found = some found') :
    Collects found found' ∧ ∀ v ∈ vs, Has found'.root found'.steps v := by
  induction vs generalizing found with
  | nil =>
    obtain rfl := by simpa using h
    exact ⟨.refl _, by simp⟩
  | cons v vs ih =>
    simp only [List.foldlM_cons, Option.bind_eq_bind, Option.bind_eq_some_iff] at h
    obtain ⟨found₁, hone, hrest⟩ := h
    obtain ⟨hcollects, hhas⟩ := hf found found₁ v List.mem_cons_self
      (hbelow v List.mem_cons_self) hone
    obtain ⟨hcollects', hall⟩ := ih
      (fun a b u hu => hf a b u (List.mem_cons_of_mem _ hu))
      (fun u hu => hcollects.below (hbelow u (List.mem_cons_of_mem _ hu))) hrest
    refine ⟨hcollects.trans hcollects', ?_⟩
    intro u hu
    rcases List.mem_cons.1 hu with rfl | hu
    · exact hhas.mono hcollects'.root hcollects'.steps
    · exact hall u hu

theorem collectSteps_collects {fuel : Nat} {found found' : Collected m} {v : Value}
    (hbelow : Below found v) (h : collectSteps m fuel found v = some found') :
    Collects found found' ∧ Has found'.root found'.steps v := by
  induction fuel generalizing found found' v with
  | zero => simp [collectSteps] at h
  | succ fuel ih =>
    rw [collectSteps] at h
    split at h
    next hinput =>
      split at h
      next root hroot =>
        split at h
        next => contradiction
        next heq =>
          obtain rfl := by simpa using h
          obtain rfl := not_not.1 heq
          exact ⟨.refl _, .inl hroot⟩
      next hroot =>
        obtain rfl := by simpa using h
        refine ⟨⟨fun hr => hr.mono (by simp [hroot]), List.Subset.refl _, by simp [hroot],
          fun _ => .inr, ?_⟩, .inl rfl⟩
        intro _ r hr
        obtain rfl := Option.some.inj hr
        exact hinput
    next =>
      split at h
      next => contradiction
      next k hk =>
        obtain ⟨hv, hnumber⟩ := definingOp_eq_some hk
        have hheight := height_le_of_definingOp hk
        dsimp only at h
        split at h
        next => contradiction
        next hop =>
          have hone : (m.op k).num_results = 1 := by
            by_contra hne
            exact hop (.inl hne)
          have hresult : v = .result k 0 := by
            rw [hv]
            congr 1
            omega
          split at h
          next hseen =>
            obtain rfl := by simpa using h
            refine ⟨.refl _, .inr ⟨k, ?_, hresult⟩⟩
            rcases hbelow k hseen with hmem | hle
            · exact hmem
            · omega
          next =>
            simp only [Option.bind_eq_bind, Option.bind_eq_some_iff] at h
            obtain ⟨found₁, hfold, heq⟩ := h
            obtain rfl := by simpa using heq
            have hoperands : ∀ u ∈ (m.op k).operands,
                Below { found with seen := k :: found.seen } u := by
              intro u hu j hj
              have hle := height_operand hu
              rcases List.mem_cons.1 hj with rfl | hj
              · exact .inr hle
              · exact (hbelow j hj).imp id fun hj => by omega
            obtain ⟨hcollects, hall⟩ :=
              foldlM_collects (fun a b u _ hbelow h => ih hbelow h) hoperands hfold
            refine ⟨⟨?_, ?_, hcollects.root, ?_, hcollects.input⟩, .inr ⟨k, by simp, hresult⟩⟩
            · intro hr
              show Ready found₁.root [] (found₁.steps ++ [k])
              exact ready_append.2 ⟨hcollects.ready hr, hone, hall, trivial⟩
            · exact List.Subset.trans hcollects.steps (List.subset_append_left _ _)
            · intro j hj
              rcases hcollects.seen j hj with hj | hj
              · exact .inl (List.mem_append_left _ hj)
              · rcases List.mem_cons.1 hj with rfl | hj
                · exact .inl (by simp)
                · exact .inr hj

/-- The last step is the operation of the value itself, and no constant. -/
theorem collectSteps_last {fuel : Nat} {v root : Value} {steps seen : List (Fin m.ops.length)}
    (h : collectSteps m fuel ⟨none, [], []⟩ v = some ⟨some root, steps, seen⟩) :
    (steps = [] ∧ v = root) ∨
      ∃ first k, steps = first ++ [k] ∧ (m.op k).constant = none ∧ v = .result k 0 := by
  cases fuel with
  | zero => simp [collectSteps] at h
  | succ fuel =>
    rw [collectSteps] at h
    split at h
    next =>
      left
      obtain ⟨rfl, rfl, -⟩ := by simpa using h
      exact ⟨rfl, rfl⟩
    next =>
      right
      split at h
      next => contradiction
      next k hk =>
        obtain ⟨hv, hnumber⟩ := definingOp_eq_some hk
        dsimp only at h
        split at h
        next => contradiction
        next hop =>
          have hone : (m.op k).num_results = 1 := by
            by_contra hne
            exact hop (.inl hne)
          rw [if_neg List.not_mem_nil] at h
          simp only [Option.bind_eq_bind, Option.bind_eq_some_iff] at h
          obtain ⟨⟨root', steps', seen'⟩, hfold, heq⟩ := h
          obtain ⟨rfl, rfl, rfl⟩ := by simpa using heq
          refine ⟨steps', k, rfl, ?_, ?_⟩
          · -- a constant reads no input
            by_contra hconst
            rw [ModuleOp.operands_of_constant hconst] at hfold
            simp at hfold
          · rw [hv]
            congr 1
            omega

/-! ## The addresses asked for -/

def isStep (m : ModuleOp) (k : Fin m.ops.length) : Bool := (m.op k).constant = none

theorem scalarAddresses_eq (root : Value) (steps : List (Fin m.ops.length)) :
    scalarAddresses m root steps =
      (List.range (steps.filter (isStep m)).length).map fun n =>
        ⟨root, [], [], (steps.filter (isStep m)).take (n + 1), 0, 1⟩ := rfl

theorem operandOf_of_has {root v : Value} {before : List (Fin m.ops.length)}
    (hone : ∀ k ∈ before, (m.op k).num_results = 1) (h : Has (some root) before v) :
    ∃ operand, operandOf m root [] (before.filter (isStep m)) v = some operand := by
  unfold operandOf
  by_cases hroot : v = root
  · exact ⟨_, if_pos hroot⟩
  obtain ⟨k, hk, rfl⟩ := h.resolve_left fun heq => hroot (Option.some.inj heq).symm
  have hdef : definingOp m (.result k 0) = some k := by
    simp [definingOp, hone k hk]
  rw [if_neg hroot]
  simp only [List.findIdx?_nil, hdef]
  cases hconst : (m.op k).constant with
  | some c => cases c <;> exact ⟨_, rfl⟩
  | none =>
    have hmem : k ∈ before.filter (isStep m) := List.mem_filter.2 ⟨hk, by simp [isStep, hconst]⟩
    cases hfind : (before.filter (isStep m)).findIdx? fun (step : Fin m.ops.length) =>
        Value.result k 0 = .result step 0 with
    | some j => exact ⟨_, rfl⟩
    | none =>
      rw [List.findIdx?_eq_none_iff] at hfind
      simpa using hfind k hmem

theorem mapM_isSome {α β : Type} {f : α → Option β} {l : List α} (h : ∀ a ∈ l, ∃ b, f a = some b) :
    ∃ bs, l.mapM f = some bs := by
  induction l with
  | nil => exact ⟨[], rfl⟩
  | cons a l ih =>
    obtain ⟨b, hb⟩ := h a List.mem_cons_self
    obtain ⟨bs, hbs⟩ := ih fun a ha => h a (List.mem_cons_of_mem _ ha)
    exact ⟨b :: bs, by simp [List.mapM_cons, hb, hbs]⟩

theorem wire_of_ready {root : Value} {before steps : List (Fin m.ops.length)}
    (hone : ∀ k ∈ before, (m.op k).num_results = 1) (h : Ready (some root) before steps) (n : Nat) :
    ∃ lines,
      wire m root [] (before.filter (isStep m)) ((steps.filter (isStep m)).take n) = some lines := by
  induction steps generalizing before n with
  | nil => exact ⟨[], by simp [wire]⟩
  | cons k steps ih =>
    obtain ⟨hk, hops, hrest⟩ := h
    have hone' : ∀ j ∈ before ++ [k], (m.op j).num_results = 1 := by
      intro j hj
      rcases List.mem_append.1 hj with hj | hj
      · exact hone j hj
      · rw [List.mem_singleton.1 hj]
        exact hk
    have hnext := ih hone' hrest
    rw [List.filter_append] at hnext
    by_cases hstep : isStep m k
    · rw [List.filter_cons_of_pos hstep]
      cases n with
      | zero => exact ⟨[], by simp [wire]⟩
      | succ n =>
        obtain ⟨operands, hoperands⟩ := mapM_isSome fun v hv => operandOf_of_has hone (hops v hv)
        obtain ⟨lines, hlines⟩ := hnext n
        rw [List.filter_cons_of_pos hstep, List.filter_nil] at hlines
        exact ⟨_, by rw [List.take_succ_cons, wire, hoperands, hlines]⟩
    · obtain ⟨lines, hlines⟩ := hnext n
      rw [List.filter_cons_of_neg hstep, List.filter_nil, List.append_nil] at hlines
      exact ⟨lines, by rw [List.filter_cons_of_neg hstep, hlines]⟩

theorem Ready.num_results {root : Option Value} {before steps : List (Fin m.ops.length)}
    (h : Ready root before steps) : ∀ k ∈ steps, (m.op k).num_results = 1 := by
  induction steps generalizing before with
  | nil => simp
  | cons k steps ih =>
    obtain ⟨hk, -, hrest⟩ := h
    intro j hj
    rcases List.mem_cons.1 hj with rfl | hj
    · exact hk
    · exact ih hrest j hj

/-- Whatever DAG a scalar is computed by, its steps can be told from the wiring. -/
theorem scalarAddresses_wired {fuel : Nat} {v root : Value} {steps seen : List (Fin m.ops.length)}
    (h : collectSteps m fuel ⟨none, [], []⟩ v = some ⟨some root, steps, seen⟩) :
    ∀ a ∈ scalarAddresses m root steps, a.Sound ∧ a.wiring ≠ none := by
  have hbelow : Below (⟨none, [], []⟩ : Collected m) v := by
    intro k hk
    simp at hk
  obtain ⟨hcollects, -⟩ := collectSteps_collects hbelow h
  have hready := hcollects.ready trivial
  have hinput := hcollects.input (by simp) root rfl
  intro a ha
  rw [scalarAddresses_eq] at ha
  obtain ⟨n, -, rfl⟩ := List.mem_map.1 ha
  constructor
  · refine ⟨hinput, ?_⟩
    intro k hk
    obtain ⟨hmem, hstep⟩ := List.mem_filter.1 (List.mem_of_mem_take hk)
    exact ⟨by simpa [isStep] using hstep, hready.num_results k hmem, List.not_mem_nil⟩
  · obtain ⟨lines, hlines⟩ := wire_of_ready (by simp) hready (n + 1)
    exact Option.ne_none_iff_exists'.2 ⟨lines, hlines⟩

/-- The address of the whole scalar is the one asked for last. -/
theorem scalarAddresses_last {fuel : Nat} {v root : Value} {steps seen : List (Fin m.ops.length)}
    (h : collectSteps m fuel ⟨none, [], []⟩ v = some ⟨some root, steps, seen⟩) :
    (scalarAddresses m root steps = [] ∧ v = root) ∨
      ∃ a, (scalarAddresses m root steps).getLast? = some a ∧ a.root = root ∧ a.bound = [] ∧
        a.value = v ∧ a.displacement = 0 ∧ a.word_size = 1 := by
  rw [scalarAddresses_eq]
  obtain ⟨rfl, rfl⟩ | ⟨first, k, rfl, hconst, rfl⟩ := collectSteps_last h
  · exact .inl ⟨rfl, rfl⟩
  · right
    have hstep : isStep m k := by simp [isStep, hconst]
    have hfilter : (first ++ [k]).filter (isStep m) = first.filter (isStep m) ++ [k] := by
      rw [List.filter_append, List.filter_cons_of_pos hstep, List.filter_nil]
    rw [hfilter, List.getLast?_map, List.length_append, List.length_singleton, List.range_succ]
    refine ⟨_, by rw [List.getLast?_append]; rfl, rfl, rfl, ?_, rfl, rfl⟩
    have htake : (first.filter (isStep m) ++ [k]).take ((first.filter (isStep m)).length + 1) =
        first.filter (isStep m) ++ [k] := List.take_of_length_le (by simp)
    simp [DerivedAddress.value, htake]

end SymbolicStartAddress
