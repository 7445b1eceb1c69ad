import DataflowScheduler.Conversion.KTDFLowToDFIR.SymbolSteps

/-!
# Symbol ids identify addresses

In any run of an allocator the inputs keep the ids of the constructor, and two addresses share an id
only if they are worth the same for every input. This takes a module whose inputs are numbered by
their position and addresses that their keys tell apart.
-/

namespace SymbolicStartAddress

open StraightLine Interning

variable {m : ModuleOp}

/-! ## What a run has to keep -/

/-- The value of a request as a function of its input. -/
def Request.denote (interp : Interpretation) (x : Int) : Request m → Int
  | .derived taken terms displacement word_size =>
    (taken.whole terms displacement word_size).denote interp x
  | .scalar value =>
    match collectSteps m (m.ops.length + 1) ⟨none, [], []⟩ value with
    | some ⟨some root, _, _⟩ => evaluate m interp [(root, x)] value
    | _ => 0

/-- `id` is declared for an input, or found for one. -/
def IsInputId (m : ModuleOp) (inputs : Numbering) (id : Int) : Prop :=
  ∃ v, inputSymbolIdFor m v = some id ∨ (v, id) ∈ inputs.declared

structure IdsIdentify (m : ModuleOp) (inputs : Numbering) (served : List (Served m)) : Prop where
  input_found : ∀ k q f p n id, IsKernel m k → (.argument k q, id) ∈ inputs.declared →
    PassedFrom m k q f p n → inputSymbolIdFor m (.argument f p) = some id
  input_declared : ∀ k q f p n id, IsKernel m k → (.argument k q, id) ∈ inputs.declared →
    PassedFrom m k q f p n → (.argument f p, id) ∈ declareInputsIn m f
  inputs_differ : ∀ k q k' q' id, IsKernel m k → IsKernel m k' →
    inputSymbolIdFor m (.argument k q) = some id →
    inputSymbolIdFor m (.argument k' q') = some id → k = k' ∧ q = q'
  inputs_negative : ∀ id, IsInputId m inputs id → id < 0
  derived_negative : ∀ s ∈ served, ∀ g ∈ s.granted, g.2 < 0
  disjoint : ∀ s ∈ served, ∀ g ∈ s.granted, ¬ IsInputId m inputs g.2
  same_address : ∀ s ∈ served, ∀ s' ∈ served, ∀ g ∈ s.granted, ∀ g' ∈ s'.granted, g.2 = g'.2 →
    ∀ interp x, g.1.denote interp x = g'.1.denote interp x
  same_request : ∀ s ∈ served, ∀ s' ∈ served, ∀ id, s.id = some id → s'.id = some id →
    ¬ IsInputId m inputs id →
    ∀ interp x, s.request.denote interp x = s'.request.denote interp x

/-! ## When it does -/

/-- The addresses a request asks an id for. -/
def Request.addresses (fold : Folder) : Request m → List (DerivedAddress m)
  | .derived taken terms displacement word_size =>
    (rebuild fold taken terms displacement word_size).asked ++
      if comesBack fold taken terms displacement word_size then []
      else [taken.whole terms displacement word_size]
  | .scalar value =>
    match collectSteps m (m.ops.length + 1) ⟨none, [], []⟩ value with
    | some ⟨some root, steps, _⟩ => scalarAddresses m root steps
    | _ => []

/-- The steps of every start address read earlier steps only, and addresses that agree in root,
terms, displacement, word size, operators and constant operands agree in the attributes and in what
each other operand is. -/
structure KeysTellApart (fold : Folder) (requests : List (Request m)) : Prop where
  ordered : ∀ taken terms displacement word_size,
    .derived taken terms displacement word_size ∈ requests →
    (taken.whole terms displacement word_size).wiring ≠ none
  apart : ∀ a ∈ requests.flatMap (Request.addresses fold),
    ∀ b ∈ requests.flatMap (Request.addresses fold), a.key = b.key → a.wiring = b.wiring

/-! ## The addresses of a start address -/

theorem wire_take {root : Value} {bound : List (Value × Int)}
    {before steps : List (Fin m.ops.length)} (h : wire m root bound before steps ≠ none) (n : Nat) :
    wire m root bound before (steps.take n) ≠ none := by
  induction steps generalizing before n with
  | nil => simp [wire]
  | cons k steps ih =>
    cases n with
    | zero => simp [wire]
    | succ n =>
      rw [List.take_succ_cons]
      simp only [wire] at h ⊢
      split at h
      next operands lines hoperands hlines =>
        have hrest : wire m root bound (before ++ [k]) steps ≠ none := by simp [hlines]
        obtain ⟨lines', hlines'⟩ := Option.ne_none_iff_exists'.1 (ih hrest n)
        simp [hoperands, hlines']
      next => contradiction

theorem first_sound (taken : SymbolicAddress m) (terms : List Int) (displacement word_size : Int)
    (through : Nat) : (taken.first terms displacement word_size through).Sound := by
  refine ⟨by simp [SymbolicAddress.first, taken.input_eq], ?_⟩
  intro k hk
  exact taken.steps k (List.mem_of_mem_take hk)

theorem first_wired {taken : SymbolicAddress m} {terms : List Int} {displacement word_size : Int}
    (h : (taken.whole terms displacement word_size).wiring ≠ none) (d w : Int) (through : Nat) :
    (taken.first terms d w through).wiring ≠ none := by
  have htake := wire_take h through
  rw [SymbolicAddress.whole, SymbolicAddress.first, List.take_length] at htake
  exact htake

/-- Only what comes first in the expression is asked for while it is rebuilt. -/
theorem rebuild_asked {fold : Folder} {taken : SymbolicAddress m} {terms : List Int}
    {displacement word_size : Int} :
    ∀ a ∈ (rebuild fold taken terms displacement word_size).asked,
      ∃ through, a = taken.first terms 0 1 through := by
  refine List.foldlRecOn (motive := fun built : Rebuilding m =>
    ∀ a ∈ built.asked, ∃ n, a = taken.first terms 0 1 n) _ _ ?_ ?_
  · simp
  · intro built ih step _ a ha
    simp only [rebuildStep] at ha
    split at ha
    next => exact ih a ha
    next =>
      split at ha
      · exact ih a ha
      · rcases List.mem_append.1 ha with ha | ha
        · exact ih a ha
        · exact ⟨_, List.mem_singleton.1 ha⟩

theorem addresses_wired {fold : Folder} {requests : List (Request m)}
    (h : KeysTellApart fold requests) :
    ∀ a ∈ requests.flatMap (Request.addresses fold), a.Sound ∧ a.wiring ≠ none := by
  intro a ha
  obtain ⟨request, hrequest, ha⟩ := List.mem_flatMap.1 ha
  cases request with
  | derived taken terms displacement word_size =>
    have hwhole := h.ordered taken terms displacement word_size hrequest
    rcases List.mem_append.1 ha with ha | ha
    · obtain ⟨through, rfl⟩ := rebuild_asked a ha
      exact ⟨first_sound .., first_wired hwhole 0 1 through⟩
    · split at ha
      · simp at ha
      · rw [List.mem_singleton.1 ha]
        exact ⟨first_sound .., hwhole⟩
  | scalar value =>
    simp only [Request.addresses] at ha
    split at ha
    next hcollect => exact scalarAddresses_wired hcollect a ha
    next => simp at ha

/-! ## One request -/

theorem derivedIdsFor_eq_some {symbols symbols' : SymbolAllocator}
    {addresses : List (DerivedAddress m)} {granted : List (DerivedAddress m × Int)}
    (h : symbols.derivedIdsFor addresses = some (granted, symbols')) :
    ∃ ids, symbols.derived.askAll int64_min (addresses.map DerivedAddress.key) =
        some (ids, symbols'.derived) ∧ granted = addresses.zip ids ∧
      symbols'.inputs = symbols.inputs := by
  simp only [SymbolAllocator.derivedIdsFor, Option.bind_eq_bind, Option.bind_eq_some_iff] at h
  obtain ⟨⟨ids, derived⟩, hask, heq⟩ := h
  obtain ⟨rfl, rfl⟩ := by simpa using heq
  exact ⟨ids, hask, rfl, rfl⟩

/-- What asking for some addresses does to the allocator. -/
structure Grants (symbols symbols' : SymbolAllocator) (addresses : List (DerivedAddress m))
    (granted : List (DerivedAddress m × Int)) : Prop where
  interned : ∀ start, symbols.derived.Interned start → symbols'.derived.Interned start
  subset : symbols.derived.entries ⊆ symbols'.derived.entries
  inputs : symbols'.inputs = symbols.inputs
  granted_eq : granted.map Prod.fst = addresses
  entries : ∀ g ∈ granted, (g.1.key, g.2) ∈ symbols'.derived.entries

theorem derivedIdsFor_grants {symbols symbols' : SymbolAllocator}
    {addresses : List (DerivedAddress m)} {granted : List (DerivedAddress m × Int)}
    (h : symbols.derivedIdsFor addresses = some (granted, symbols')) :
    Grants symbols symbols' addresses granted := by
  obtain ⟨ids, hask, rfl, hinputs⟩ := derivedIdsFor_eq_some h
  have hmem := Table.askAll_mem hask
  have hlen : addresses.length = ids.length := by simpa using hmem.length_eq
  refine ⟨fun start hs => hs.askAll hask, Table.askAll_subset hask, hinputs, ?_, ?_⟩
  · exact List.map_fst_zip (Nat.le_of_eq hlen)
  · intro g hg
    rw [List.forall₂_map_left_iff] at hmem
    exact List.forall₂_iff_zip.1 hmem |>.2 hg

theorem serve_grants {fold : Folder} {symbols symbols' : SymbolAllocator} {request : Request m}
    {id : Option Int} {granted : List (DerivedAddress m × Int)}
    (h : serve fold symbols request = some (id, granted, symbols')) :
    Grants symbols symbols' (request.addresses fold) granted := by
  cases request with
  | derived taken terms displacement word_size =>
    simp only [serve, declareDerived, Option.bind_eq_bind, Option.bind_eq_some_iff] at h
    obtain ⟨⟨id', granted', symbols₂⟩, ⟨⟨granted₁, symbols₁⟩, hsteps, h⟩, heq⟩ := h
    obtain ⟨-, rfl, rfl⟩ := by simpa using heq
    have hgrants := derivedIdsFor_grants hsteps
    simp only [Request.addresses]
    split at h
    next hback =>
      obtain ⟨-, rfl, rfl⟩ := by simpa using h
      rw [if_pos hback, List.append_nil]
      exact hgrants
    next hback =>
      simp only [SymbolAllocator.derivedIdFor, Option.bind_eq_bind, Option.bind_eq_some_iff] at h
      obtain ⟨⟨whole, fresh, symbols₃⟩, ⟨⟨_, _, derived⟩, hask, heq⟩, h⟩ := h
      obtain ⟨rfl, rfl, rfl⟩ := by simpa using heq
      obtain ⟨-, rfl, rfl⟩ := by simpa using h
      rw [if_neg hback]
      refine ⟨fun start hs => (hgrants.interned start hs).ask hask,
        List.Subset.trans hgrants.subset (Table.ask_subset hask), hgrants.inputs, ?_, ?_⟩
      · rw [List.map_append, hgrants.granted_eq]
        rfl
      · intro g hg
        rcases List.mem_append.1 hg with hg | hg
        · exact Table.ask_subset hask (hgrants.entries g hg)
        · rw [List.mem_singleton.1 hg]
          exact Table.ask_mem hask
  | scalar value =>
    simp only [serve, declareScalarSymbol] at h
    split at h
    next root steps seen hcollect =>
      simp only [Option.bind_eq_bind, Option.bind_eq_some_iff] at h
      obtain ⟨⟨granted₁, symbols₁⟩, hsteps, h⟩ := h
      have hgrants := derivedIdsFor_grants hsteps
      have haddresses : (Request.scalar value : Request m).addresses fold = scalarAddresses m root steps := by
        simp only [Request.addresses, hcollect]
      rw [haddresses]
      split at h
      all_goals
        obtain ⟨-, rfl, rfl⟩ := by simpa using h
        exact hgrants
    next hnone =>
      obtain ⟨-, rfl, rfl⟩ := by simpa using h
      have hnil : (Request.scalar value : Request m).addresses fold = [] := by
        simp only [Request.addresses]
      rw [hnil]
      exact ⟨fun _ h => h, List.Subset.refl _, rfl, rfl, by simp⟩

/-- The id that answers a request is the one of an input, or was asked for on the way for an address
that is worth the same. -/
def Answers (request : Request m) (granted : List (DerivedAddress m × Int)) (id : Int) : Prop :=
  (∃ v, inputSymbolIdFor m v = some id) ∨
    ∃ a, (a, id) ∈ granted ∧ ∀ interp x, a.denote interp x = request.denote interp x

theorem serve_answers {fold : Folder} {symbols symbols' : SymbolAllocator} {request : Request m}
    {id : Int} {granted : List (DerivedAddress m × Int)}
    (h : serve fold symbols request = some (some id, granted, symbols')) :
    Answers request granted id := by
  cases request with
  | derived taken terms displacement word_size =>
    simp only [serve, declareDerived, Option.bind_eq_bind, Option.bind_eq_some_iff] at h
    obtain ⟨⟨id', granted', symbols₂⟩, ⟨⟨granted₁, symbols₁⟩, hsteps, h⟩, heq⟩ := h
    obtain ⟨rfl, rfl, rfl⟩ := by simpa using heq
    split at h
    next =>
      obtain ⟨rfl, -, -⟩ := by simpa using h
      exact .inl ⟨taken.root, taken.input_eq⟩
    next =>
      obtain ⟨⟨whole, fresh, symbols₃⟩, -, h⟩ := Option.bind_eq_some_iff.1 h
      obtain ⟨rfl, rfl, -⟩ := by simpa using h
      exact .inr ⟨taken.whole terms displacement word_size, by simp, fun _ _ => rfl⟩
  | scalar value =>
    have hgranted := (serve_grants h).granted_eq
    simp only [serve, declareScalarSymbol] at h
    split at h
    next root steps seen hcollect =>
      simp only [Option.bind_eq_bind, Option.bind_eq_some_iff] at h
      obtain ⟨⟨granted₁, symbols₁⟩, -, h⟩ := h
      split at h
      next a id' hlast =>
        obtain ⟨rfl, rfl, -⟩ := by simpa using h
        right
        refine ⟨a, List.mem_of_getLast? hlast, ?_⟩
        have haddresses : (scalarAddresses m root steps).getLast? = some a := by
          simp only [Request.addresses, hcollect] at hgranted
          rw [← hgranted, List.getLast?_map, hlast]
          rfl
        rcases scalarAddresses_last hcollect with ⟨hnil, -⟩ | ⟨a', ha', hroot, hbound, hvalue, hd, hw⟩
        · simp [hnil] at haddresses
        · obtain rfl := Option.some.inj (haddresses.symm.trans ha')
          intro interp x
          simp only [Request.denote, hcollect]
          rw [DerivedAddress.denote, hroot, hbound, hvalue, hd, hw, Int.tdiv_one, Int.add_zero]
      next =>
        obtain ⟨hid, -, -⟩ := by simpa using h
        exact .inl ⟨root, hid⟩
    next => simp at h

/-! ## A run -/

/-- What holds of everything served, in the end. -/
structure Kept (fold : Folder) (requests : List (Request m)) (table : Table DerivedKey)
    (s : Served m) : Prop where
  addresses : ∀ g ∈ s.granted, g.1 ∈ requests.flatMap (Request.addresses fold)
  entries : ∀ g ∈ s.granted, (g.1.key, g.2) ∈ table.entries
  answers : ∀ id, s.id = some id → Answers s.request s.granted id

theorem serveAll_kept {fold : Folder} {requests : List (Request m)}
    {symbols symbols' : SymbolAllocator} {served : List (Served m)}
    (h : serveAll fold symbols requests = some (served, symbols')) :
    (∀ start, symbols.derived.Interned start → symbols'.derived.Interned start) ∧
    symbols.derived.entries ⊆ symbols'.derived.entries ∧ symbols'.inputs = symbols.inputs ∧
    ∀ s ∈ served, Kept fold requests symbols'.derived s := by
  induction requests generalizing symbols served with
  | nil =>
    obtain ⟨rfl, rfl⟩ := by simpa [serveAll] using h
    exact ⟨fun _ h => h, List.Subset.refl _, rfl, by simp⟩
  | cons request requests ih =>
    simp only [serveAll, Option.bind_eq_bind, Option.bind_eq_some_iff] at h
    obtain ⟨⟨id, granted, symbols₁⟩, hserve, ⟨rest, symbols₂⟩, hrest, heq⟩ := h
    obtain ⟨rfl, rfl⟩ := by simpa using heq
    have hone := serve_grants hserve
    obtain ⟨hinterned, hsubset, hinputs, hkept⟩ := ih hrest
    refine ⟨fun start hs => hinterned start (hone.interned start hs),
      List.Subset.trans hone.subset hsubset, hinputs.trans hone.inputs, ?_⟩
    intro s hs
    rcases List.mem_cons.1 hs with rfl | hs
    · refine ⟨?_, fun g hg => hsubset (hone.entries g hg), ?_⟩
      · intro g hg
        rw [List.flatMap_cons]
        apply List.mem_append_left
        rw [← hone.granted_eq]
        exact List.mem_map_of_mem hg
      · intro i hi
        obtain rfl : id = some i := hi
        exact serve_answers hserve
    · have hs' := hkept s hs
      refine ⟨?_, hs'.entries, hs'.answers⟩
      intro g hg
      rw [List.flatMap_cons]
      exact List.mem_append_right _ (hs'.addresses g hg)

/-- **The ids identify what they stand for.** -/
theorem serveAll_idsIdentify {fold : Folder} {requests : List (Request m)}
    {symbols symbols' : SymbolAllocator} {served : List (Served m)}
    (hnew : SymbolAllocator.new m = some symbols)
    (hrun : serveAll fold symbols requests = some (served, symbols'))
    (hm : InputsByPosition m) (hkeys : KeysTellApart fold requests) :
    IdsIdentify m symbols'.inputs served := by
  simp only [SymbolAllocator.new, Option.bind_eq_bind, Option.bind_eq_some_iff] at hnew
  obtain ⟨inputs, hnumber, heq⟩ := hnew
  obtain rfl := Option.some.inj heq
  obtain ⟨hinterned, -, hinputs, hkept⟩ := serveAll_kept hrun
  have htable := hinterned inputs.next_input (Table.interned_empty _)
  have hrange : ∀ id, IsInputId m inputs id → inputs.next_input < id ∧ id < 0 := by
    rintro id ⟨v, hfound | hdeclared⟩
    · exact inputSymbolIdFor_range hnumber hfound
    · exact declared_range hnumber hdeclared
  have hderived : ∀ s ∈ served, ∀ g ∈ s.granted, g.2 ≤ inputs.next_input := fun s hs g hg =>
    (htable.handed_out _ ((hkept s hs).entries g hg)).2
  have hsame : ∀ s ∈ served, ∀ s' ∈ served, ∀ g ∈ s.granted, ∀ g' ∈ s'.granted, g.2 = g'.2 →
      ∀ interp x, g.1.denote interp x = g'.1.denote interp x := by
    intro s hs s' hs' g hg g' hg' hid interp x
    have hkey : g.1.key = g'.1.key :=
      htable.one_key _ ((hkept s hs).entries g hg) _ ((hkept s' hs').entries g' hg') hid
    have hmem := (hkept s hs).addresses g hg
    have hmem' := (hkept s' hs').addresses g' hg'
    obtain ⟨hsound, hwired⟩ := addresses_wired hkeys _ hmem
    exact denote_congr hsound (addresses_wired hkeys _ hmem').1 hkey hwired
      (hkeys.apart _ hmem _ hmem' hkey) interp x
  rw [hinputs]
  constructor
  case input_found =>
    intro k q f p n id hk hdeclared hpassed
    exact inputSymbolIdFor_of_declared hm hnumber hk hdeclared hpassed
  case input_declared =>
    intro k q f p n id hk hdeclared hpassed
    exact mem_declareInputsIn (inputSymbolIdFor_of_declared hm hnumber hk hdeclared hpassed)
  case inputs_differ =>
    intro k q k' q' id hk hk' h h'
    exact inputSymbolIdFor_injective hm hk hk' h h'
  case inputs_negative => exact fun id hid => (hrange id hid).2
  case derived_negative =>
    intro s hs g hg
    have hle := hderived s hs g hg
    have hnext := numberInputs_next hnumber
    omega
  case disjoint =>
    intro s hs g hg hid
    have hle := hderived s hs g hg
    have hlt := (hrange _ hid).1
    omega
  case same_address => exact hsame
  case same_request =>
    intro s hs s' hs' id hid hid' hnot interp x
    have hasked : ∀ s ∈ served, s.id = some id →
        ∃ a, (a, id) ∈ s.granted ∧ ∀ interp x, a.denote interp x = s.request.denote interp x := by
      intro s hs hid
      rcases (hkept s hs).answers id hid with ⟨v, hv⟩ | hasked
      · exact absurd ⟨v, .inl hv⟩ hnot
      · exact hasked
    obtain ⟨a, ha, hdenote⟩ := hasked s hs hid
    obtain ⟨a', ha', hdenote'⟩ := hasked s' hs' hid'
    rw [← hdenote, ← hdenote']
    exact hsame s hs s' hs' _ ha _ ha' rfl interp x

/-! ### One program -/

/-- A kernel that hands its input to one program. -/
def oneProgram : ModuleOp where
  funcs := [⟨"kernel", true, [.index]⟩, ⟨"program", true, [.index]⟩]
  calls := [⟨"program", [.argument 0 0]⟩]
  ops := [
    ⟨"arith.constant", "5 : index", [], 1, 0, true, some (.int 5)⟩,
    ⟨"arith.addi", "index", [.argument 1 0, .result 0 0], 1, 0, true, none⟩]
  ssa := by decide
  constants := by decide

/-- The input of the program, five bytes on. -/
def fiveBytesOn : SymbolicAddress oneProgram where
  input := -1
  root := .argument 1 0
  expression := [⟨1, by decide⟩]
  per_unit_leaves := []
  input_eq := by decide
  steps := by decide

/-- As a start address in words of two bytes, and as a scalar. -/
def bothRequests : List (Request oneProgram) :=
  [.derived fiveBytesOn [] 0 2, .scalar (.result 1 0)]

theorem oneProgram_kernel {k : Nat} (h : IsKernel oneProgram k) : k = 0 := by
  obtain ⟨func, hf, -, hno⟩ := h
  match k with
  | 0 => rfl
  | 1 =>
    obtain rfl := Option.some.inj hf
    exact absurd rfl (hno _ List.mem_cons_self)
  | k + 2 => simp [oneProgram] at hf

theorem oneProgram_passed {q f p n : Nat} (h : PassedFrom oneProgram 0 q f p n) :
    (f = 0 ∧ n = 0) ∨ (f = 1 ∧ n = 1) := by
  induction h with
  | itself => exact .inl ⟨rfl, rfl⟩
  | @call f p g r n func call hf harg hcall hname hoperand houter _ ih =>
    obtain rfl := List.mem_singleton.1 hcall
    match f with
    | 0 =>
      obtain rfl := Option.some.inj hf
      exact absurd hname (by decide)
    | 1 =>
      obtain ⟨hg, -⟩ : 0 = g ∧ 0 = r := by
        match p with
        | 0 => simpa using hoperand
        | p + 1 => simp at hoperand
      omega
    | f + 2 => simp [oneProgram] at hf

theorem oneProgram_inputsByPosition : InputsByPosition oneProgram where
  first := by
    intro k q hk _ j _ hlt
    have := oneProgram_kernel hk
    omega
  followed := by
    intro k q f p n hk _ hpassed
    obtain rfl := oneProgram_kernel hk
    obtain ⟨rfl, rfl⟩ | ⟨rfl, rfl⟩ := oneProgram_passed hpassed
    all_goals
      refine ⟨by decide, ?_⟩
      intro func hf
      obtain rfl := Option.some.inj hf
      decide

theorem bothRequests_keysTellApart : KeysTellApart (fun _ _ => none) bothRequests where
  ordered := by
    intro taken terms displacement word_size hmem
    obtain ⟨rfl, rfl, rfl, rfl⟩ : taken = fiveBytesOn ∧ terms = [] ∧ displacement = 0 ∧
        word_size = 2 := by simpa [bothRequests] using hmem
    decide
  apart := by decide

/-- The two numbers get two ids, below that of the input. -/
theorem serveAll_idsIdentify_oneProgram :
    ∃ symbols served symbols', SymbolAllocator.new oneProgram = some symbols ∧
      serveAll (fun _ _ => none) symbols bothRequests = some (served, symbols') ∧
      served.map (·.id) = [some (-2), some (-3)] ∧
      IdsIdentify oneProgram symbols'.inputs served := by
  have hnew : (SymbolAllocator.new oneProgram).isSome = true := by decide
  obtain ⟨symbols, hsymbols⟩ := Option.isSome_iff_exists.1 hnew
  have hids : ((SymbolAllocator.new oneProgram).bind fun symbols =>
      (serveAll (fun _ _ => none) symbols bothRequests).map fun run => run.1.map (·.id)) =
        some [some (-2), some (-3)] := by decide
  rw [hsymbols, Option.bind_some, Option.map_eq_some_iff] at hids
  obtain ⟨⟨served, symbols'⟩, hrun, hids⟩ := hids
  exact ⟨symbols, served, symbols', hsymbols, hrun, hids,
    serveAll_idsIdentify hsymbols hrun oneProgram_inputsByPosition bothRequests_keysTellApart⟩

/-! ### Two kernels, and a step read twice -/

/-- Two kernels with an input each. -/
def twoKernels : ModuleOp where
  funcs := [⟨"first", true, [.index]⟩, ⟨"second", true, [.index]⟩]
  calls := []
  ops := []
  ssa := by decide
  constants := by decide

/-- Twice an input, to which the input is added, or to which it is added itself. -/
def readTwice : ModuleOp where
  funcs := [⟨"kernel", true, [.index]⟩]
  calls := []
  ops := [
    ⟨"arith.constant", "2 : index", [], 1, 0, true, some (.int 2)⟩,
    ⟨"arith.muli", "index", [.argument 0 0, .result 0 0], 1, 0, true, none⟩,
    ⟨"arith.addi", "index", [.result 1 0, .argument 0 0], 1, 0, true, none⟩,
    ⟨"arith.addi", "index", [.result 1 0, .result 1 0], 1, 0, true, none⟩]
  ssa := by decide
  constants := by decide

def readTwiceAddress (last : Fin readTwice.ops.length)
    (h : (readTwice.op last).constant = none ∧ (readTwice.op last).num_results = 1) :
    SymbolicAddress readTwice where
  input := -1
  root := .argument 0 0
  expression := [⟨1, by decide⟩, last]
  per_unit_leaves := []
  input_eq := by decide
  steps := by
    intro k hk
    rcases List.mem_cons.1 hk with rfl | hk
    · decide
    · rw [List.mem_singleton.1 hk]
      exact ⟨h.1, h.2, List.not_mem_nil⟩

def readTwiceRequests : List (Request readTwice) :=
  [.derived (readTwiceAddress ⟨2, by decide⟩ (by decide)) [] 0 1,
    .derived (readTwiceAddress ⟨3, by decide⟩ (by decide)) [] 0 1]

def arith : Interpretation := fun name _ _ xs =>
  if name = "arith.addi" then xs.foldr (· + ·) 0 else xs.foldr (· * ·) 1

/-- The second kernel's input is declared as `-2` and found as `-1`, and three times the input gets
the id of four times the input. -/
theorem not_idsIdentify :
    (∃ symbols, SymbolAllocator.new twoKernels = some symbols ∧
      serveAll (fun _ _ => none) symbols ([] : List (Request twoKernels)) = some ([], symbols) ∧
      ¬ IdsIdentify twoKernels symbols.inputs []) ∧
    ∃ symbols served symbols', SymbolAllocator.new readTwice = some symbols ∧
      serveAll (fun _ _ => none) symbols readTwiceRequests = some (served, symbols') ∧
      ¬ IdsIdentify readTwice symbols'.inputs served := by
  constructor
  · refine ⟨⟨⟨[(.argument 0 0, -1), (.argument 1 0, -2)], -3⟩, [], -3⟩, rfl, rfl, ?_⟩
    intro h
    have hkernel : IsKernel twoKernels 1 := ⟨_, rfl, rfl, by simp [twoKernels]⟩
    have hfound := h.input_found 1 0 1 0 0 (-2) hkernel (by simp) .itself
    exact absurd hfound (by decide)
  · let symbols : SymbolAllocator := ⟨⟨[(.argument 0 0, -1)], -2⟩, [], -2⟩
    have hids : ((serveAll (fun _ _ => none) symbols readTwiceRequests).map fun run =>
        run.1.map fun s => (s.id, s.request.denote arith 1)) =
          some [(some (-3), 3), (some (-3), 4)] := by decide
    obtain ⟨⟨served, symbols'⟩, hrun, hids⟩ := Option.map_eq_some_iff.1 hids
    refine ⟨symbols, served, symbols', rfl, hrun, ?_⟩
    intro h
    have hnumber : numberInputs readTwice = some symbols.inputs := rfl
    have hnot : ¬ IsInputId readTwice symbols'.inputs (-3) := by
      rw [(serveAll_kept hrun).2.2.1]
      rintro ⟨v, hfound | hdeclared⟩
      · exact absurd (inputSymbolIdFor_range hnumber hfound).1 (by decide)
      · exact absurd (declared_range hnumber hdeclared).1 (by decide)
    match served, hids with
    | [s, s'], hids =>
      obtain ⟨⟨hid, hthree⟩, hid', hfour⟩ := by simpa using hids
      have hsame := h.same_request s (by simp) s' (by simp) (-3) hid hid' hnot arith 1
      rw [hthree, hfour] at hsame
      exact absurd hsame (by decide)

end SymbolicStartAddress
