import DataflowScheduler.Conversion.KTDFLowToDFIR.SymbolicStartAddress

/-!
# The symbols of the inputs

The id of an input is given out twice: the constructor counts the arguments of all kernels, and
`inputSymbolIdFor` reads it off the position in one signature. The two agree where the position is
the count.
-/

namespace SymbolicStartAddress

variable {m : ModuleOp}

/-! ## What the constructor numbers -/

theorem numberArgument_eq_some {s s' : Numbering} {arg : Value × ArgumentType}
    (h : numberArgument s arg = some s') :
    s'.next_input = s.next_input - 1 ∧
    ∀ e, e ∈ s'.declared ↔ e ∈ s.declared ∨ (arg = (e.1, .index) ∧ e.2 = s.next_input) := by
  unfold numberArgument at h
  by_cases hfloor : s.next_input = int64_min
  · simp [hfloor] at h
  · obtain rfl := by simpa [hfloor] using h
    refine ⟨rfl, ?_⟩
    obtain ⟨v, type⟩ := arg
    intro ⟨v', id⟩
    cases type <;> simp [eq_comm]

theorem foldlM_numberArgument {args : List (Value × ArgumentType)} {s s' : Numbering}
    (h : args.foldlM numberArgument s = some s') :
    s'.next_input = s.next_input - args.length ∧
    ∀ e, e ∈ s'.declared ↔
      e ∈ s.declared ∨ ∃ i : Nat, args[i]? = some (e.1, .index) ∧ e.2 = s.next_input - i := by
  induction args generalizing s with
  | nil =>
    obtain rfl := by simpa using h
    simp
  | cons arg args ih =>
    simp only [List.foldlM_cons, Option.bind_eq_bind, Option.bind_eq_some_iff] at h
    obtain ⟨s₁, hone, hrest⟩ := h
    obtain ⟨hnext, hdecl⟩ := numberArgument_eq_some hone
    obtain ⟨hnext', hdecl'⟩ := ih hrest
    constructor
    · rw [hnext', hnext, List.length_cons]
      omega
    · intro e
      rw [hdecl', hdecl, or_assoc]
      apply or_congr_right
      constructor
      · rintro (⟨rfl, hid⟩ | ⟨i, hi, hid⟩)
        · exact ⟨0, rfl, by simpa using hid⟩
        · exact ⟨i + 1, hi, by rw [hid, hnext]; omega⟩
      · rintro ⟨i, hi, hid⟩
        cases i with
        | zero => exact .inl ⟨by simpa using hi, by simpa using hid⟩
        | succ i => exact .inr ⟨i, by simpa using hi, by rw [hid, hnext]; omega⟩

theorem numberInputs_next {s : Numbering} (h : numberInputs m = some s) :
    s.next_input = -1 - (kernelArguments m).length :=
  (foldlM_numberArgument h).1

/-- An argument is declared with the number of arguments before it, those of other types counted. -/
theorem mem_declared_iff {s : Numbering} (h : numberInputs m = some s) {v : Value} {id : Int} :
    (v, id) ∈ s.declared ↔
      ∃ i : Nat, (kernelArguments m)[i]? = some (v, .index) ∧ id = -1 - i := by
  rw [(foldlM_numberArgument h).2]
  simp

/-! ## The kernels -/

/-- The argument `q` of function `k` is an index. -/
def IsIndex (m : ModuleOp) (k q : Nat) : Prop :=
  (argumentsOf m k)[q]? = some (.argument k q, .index)

theorem asFunctionArgument_eq_some {v : Value} {fp : Nat × Nat}
    (h : asFunctionArgument m v = some fp) :
    v = .argument fp.1 fp.2 ∧ ∃ func, m.funcs[fp.1]? = some func ∧ func.has_body = true ∧
      fp.2 < func.arguments.length := by
  unfold asFunctionArgument at h
  split at h
  next f p =>
    split at h
    next func hfunc =>
      split at h
      next hcond =>
        obtain rfl := by simpa using h
        exact ⟨rfl, func, hfunc, hcond.1, hcond.2⟩
      next => contradiction
    next => contradiction
  all_goals contradiction

theorem mem_kernels {f : Nat} :
    f ∈ kernels m ↔
      ∃ func, m.funcs[f]? = some func ∧ func.has_body = true ∧ soleCallTo m func = none := by
  unfold kernels
  rw [List.mem_filter, List.mem_range]
  constructor
  · intro ⟨hlt, h⟩
    cases hf : m.funcs[f]? with
    | none => simp [hf] at h
    | some func =>
      simp only [hf, Bool.decide_and, Bool.and_eq_true, decide_eq_true_eq,
        Option.isNone_iff_eq_none] at h
      exact ⟨func, rfl, h.1, h.2⟩
  · intro ⟨func, hf, hbody, hsole⟩
    refine ⟨(List.getElem?_eq_some_iff.1 hf).1, ?_⟩
    simp [hf, hbody, hsole]

theorem getElem?_argumentsOf {f q : Nat} {func : FuncOp} (hf : m.funcs[f]? = some func) :
    (argumentsOf m f)[q]? = (func.arguments[q]?).map fun type => (.argument f q, type) := by
  unfold argumentsOf
  simp only [hf, List.getElem?_map, List.getElem?_zipIdx, Option.map_map]
  simp [Function.comp_def]

theorem isIndex_iff {f q : Nat} {func : FuncOp} (hf : m.funcs[f]? = some func) :
    IsIndex m f q ↔ func.arguments[q]? = some .index := by
  rw [IsIndex, getElem?_argumentsOf hf]
  cases func.arguments[q]? <;> simp

theorem argumentsOf_func {f : Nat} {v : Value} {type : ArgumentType}
    (h : (v, type) ∈ argumentsOf m f) : ∃ q, v = .argument f q := by
  unfold argumentsOf at h
  split at h
  · obtain ⟨⟨t, q⟩, -, heq⟩ := List.mem_map.1 h
    exact ⟨q, (Prod.mk.inj heq).1.symm⟩
  · simp at h

theorem length_argumentsOf_le {f : Nat} (h : f ∈ kernels m) :
    (argumentsOf m f).length ≤ (kernelArguments m).length := by
  unfold kernelArguments
  obtain ⟨l, r, hk⟩ := List.append_of_mem h
  simp only [hk, List.flatMap_append, List.flatMap_cons, List.length_append]
  omega

/-! ## Tracing an argument -/

/-- The id comes from the position in a function that the constructor has numbered as well. -/
theorem traceInput_eq_some {depth : Nat} {fp : Nat × Nat} {id : Int}
    (hfp : asFunctionArgument m (.argument fp.1 fp.2) = some fp)
    (h : traceInput m depth fp = some id) :
    ∃ g ∈ kernels m, ∃ q : Nat, IsIndex m g q ∧ id = -q - 1 := by
  induction depth generalizing fp with
  | zero => simp [traceInput] at h
  | succ depth ih =>
    obtain ⟨f, p⟩ := fp
    obtain ⟨-, func, hfunc, hbody, -⟩ := asFunctionArgument_eq_some hfp
    simp only at hfunc
    simp only [traceInput, hfunc] at h
    split at h
    next hsole =>
      split at h
      next htype =>
        obtain rfl := by simpa using h
        exact ⟨f, mem_kernels.2 ⟨func, hfunc, hbody, hsole⟩, p, (isIndex_iff hfunc).2 htype, rfl⟩
      next => contradiction
    next call hsole =>
      split at h
      next => contradiction
      next outer houter =>
        obtain ⟨v, -, hv⟩ := Option.bind_eq_some_iff.1 houter
        refine ih ?_ h
        rw [← (asFunctionArgument_eq_some hv).1]
        exact hv

theorem inputSymbolIdFor_eq_some {v : Value} {id : Int} (h : inputSymbolIdFor m v = some id) :
    ∃ g ∈ kernels m, ∃ q : Nat, IsIndex m g q ∧ id = -q - 1 := by
  unfold inputSymbolIdFor at h
  obtain ⟨fp, hfp, htrace⟩ := Option.bind_eq_some_iff.1 h
  refine traceInput_eq_some ?_ htrace
  rw [← (asFunctionArgument_eq_some hfp).1]
  exact hfp

/-- The ids of the inputs are negative, and above those left for derived addresses. -/
theorem inputSymbolIdFor_range {s : Numbering} (hs : numberInputs m = some s) {v : Value} {id : Int}
    (h : inputSymbolIdFor m v = some id) : s.next_input < id ∧ id < 0 := by
  obtain ⟨g, hg, q, hq, rfl⟩ := inputSymbolIdFor_eq_some h
  have hlt : q < (argumentsOf m g).length := (List.getElem?_eq_some_iff.1 hq).1
  have hle := length_argumentsOf_le hg
  rw [numberInputs_next hs]
  omega

theorem declared_range {s : Numbering} (hs : numberInputs m = some s) {v : Value} {id : Int}
    (h : (v, id) ∈ s.declared) : s.next_input < id ∧ id < 0 := by
  obtain ⟨i, hi, rfl⟩ := (mem_declared_iff hs).1 h
  have hlt : i < (kernelArguments m).length := (List.getElem?_eq_some_iff.1 hi).1
  rw [numberInputs_next hs]
  omega

/-! ## Where the two numberings agree -/

/-- A function that nothing calls. -/
def IsKernel (m : ModuleOp) (k : Nat) : Prop :=
  ∃ func, m.funcs[k]? = some func ∧ func.has_body = true ∧
    ∀ call ∈ m.calls, call.callee ≠ func.name

/-- An argument of a function's entry block. -/
def IsArgument (m : ModuleOp) (f p : Nat) : Prop :=
  asFunctionArgument m (.argument f p) = some (f, p)

/-- The argument `p` of function `f` is the argument `q` of `k`, passed along by `n` calls. -/
inductive PassedFrom (m : ModuleOp) (k q : Nat) : Nat → Nat → Nat → Prop
  | itself : PassedFrom m k q k q 0
  | call {f p g r n : Nat} {func : FuncOp} {call : CallOp} : m.funcs[f]? = some func →
      IsArgument m f p → call ∈ m.calls → call.callee = func.name →
      call.operands[p]? = some (.argument g r) → IsArgument m g r →
      PassedFrom m k q g r n → PassedFrom m k q f p (n + 1)

/-- The modules whose inputs are numbered the same way twice: a kernel that takes an input is numbered
after functions without arguments only, and an input is passed along by as many calls as are
followed, to functions that are called from one place. -/
structure InputsByPosition (m : ModuleOp) : Prop where
  first : ∀ k q, IsKernel m k → IsIndex m k q → ∀ j ∈ kernels m, j < k → argumentsOf m j = []
  followed : ∀ k q f p n, IsKernel m k → IsIndex m k q → PassedFrom m k q f p n →
    n ≤ kMaxCallDepth ∧ ∀ func, m.funcs[f]? = some func →
      (m.calls.filter fun call => call.callee = func.name).length ≤ 1

theorem soleCallTo_of_notCalled {func : FuncOp} (h : ∀ call ∈ m.calls, call.callee ≠ func.name) :
    soleCallTo m func = none := by
  have hnil : (m.calls.filter fun call => call.callee = func.name) = [] := by
    rw [List.filter_eq_nil_iff]
    intro call hcall
    simp [h call hcall]
  simp [soleCallTo, hnil]

theorem soleCallTo_of_called {func : FuncOp} {call : CallOp} (hcall : call ∈ m.calls)
    (hname : call.callee = func.name)
    (hlen : (m.calls.filter fun call => call.callee = func.name).length ≤ 1) :
    soleCallTo m func = some call := by
  have hin : call ∈ m.calls.filter fun call => call.callee = func.name := by
    simp [hcall, hname]
  unfold soleCallTo
  generalize (m.calls.filter fun call => call.callee = func.name) = calls at hlen hin
  match calls, hlen with
  | [], _ => simp at hin
  | [other], _ =>
    rw [List.mem_singleton] at hin
    rw [hin]

theorem IsKernel.mem_kernels {k : Nat} (hk : IsKernel m k) : k ∈ kernels m := by
  obtain ⟨func, hf, hbody, hno⟩ := hk
  exact SymbolicStartAddress.mem_kernels.2 ⟨func, hf, hbody, soleCallTo_of_notCalled hno⟩

/-- A kernel that takes an input takes the first arguments of all. -/
theorem kernelArguments_eq (hm : InputsByPosition m) {k q : Nat} (hk : IsKernel m k)
    (hq : IsIndex m k q) :
    ∃ rest, kernelArguments m = argumentsOf m k ++ rest ∧
      ∀ v type, (v, type) ∈ rest → ∀ q, v ≠ .argument k q := by
  have hsorted : (kernels m).Pairwise (· < ·) := List.pairwise_lt_range.filter _
  obtain ⟨pre, post, hsplit⟩ := List.append_of_mem hk.mem_kernels
  rw [hsplit, List.pairwise_append] at hsorted
  obtain ⟨-, hpost, hpre⟩ := hsorted
  have hempty : pre.flatMap (argumentsOf m) = [] := by
    rw [List.flatMap_eq_nil_iff]
    intro j hj
    have hjk : j ∈ kernels m := hsplit ▸ List.mem_append_left _ hj
    exact hm.first k q hk hq j hjk (hpre j hj k List.mem_cons_self)
  refine ⟨post.flatMap (argumentsOf m), ?_, ?_⟩
  · rw [kernelArguments, hsplit, List.flatMap_append, hempty, List.flatMap_cons, List.nil_append]
  · intro v type hv q' heq
    obtain ⟨j, hj, hin⟩ := List.mem_flatMap.1 hv
    obtain ⟨p, hp⟩ := argumentsOf_func hin
    obtain ⟨rfl, -⟩ := Value.argument.inj (hp.symm.trans heq)
    exact Nat.lt_irrefl _ ((List.pairwise_cons.1 hpost).1 j hj)

theorem isIndex_of_mem {k q : Nat} {func : FuncOp} (hf : m.funcs[k]? = some func)
    (h : (.argument k q, .index) ∈ argumentsOf m k) : IsIndex m k q := by
  obtain ⟨q', hq'⟩ := List.mem_iff_getElem?.1 h
  have heq := hq'
  rw [getElem?_argumentsOf hf] at heq
  obtain ⟨type, -, heq⟩ := Option.map_eq_some_iff.1 heq
  obtain ⟨-, rfl⟩ := Value.argument.inj (Prod.mk.inj heq).1
  exact hq'

/-- The count of an input is its position. -/
theorem declared_position (hm : InputsByPosition m) {s : Numbering} (hs : numberInputs m = some s)
    {k q : Nat} (hk : IsKernel m k) {id : Int} (h : (.argument k q, id) ∈ s.declared) :
    IsIndex m k q ∧ id = -q - 1 := by
  obtain ⟨i, hi, hid⟩ := (mem_declared_iff hs).1 h
  -- the argument is one of this kernel, whichever place it was counted at
  obtain ⟨j, hj, hin⟩ := List.mem_flatMap.1 (List.mem_of_getElem? hi)
  obtain ⟨p, hp⟩ := argumentsOf_func hin
  obtain ⟨rfl, rfl⟩ := Value.argument.inj hp
  have ⟨func, hf, _⟩ := hk
  have hq := isIndex_of_mem hf hin
  obtain ⟨rest, hargs, hrest⟩ := kernelArguments_eq hm hk hq
  rw [hargs] at hi
  by_cases hlt : i < (argumentsOf m k).length
  · rw [List.getElem?_append_left hlt, getElem?_argumentsOf hf] at hi
    obtain ⟨type, htype, heq⟩ := Option.map_eq_some_iff.1 hi
    obtain ⟨-, rfl⟩ := Value.argument.inj (Prod.mk.inj heq).1
    exact ⟨hq, by omega⟩
  · rw [List.getElem?_append_right (by omega)] at hi
    exact absurd rfl (hrest _ _ (List.mem_of_getElem? hi) q)

/-- Following the calls comes to the position in the kernel's signature. -/
theorem traceInput_of_passed (hm : InputsByPosition m) {k q f p n depth : Nat} (hk : IsKernel m k)
    (hq : IsIndex m k q) (hpassed : PassedFrom m k q f p n) (hdepth : n < depth) :
    traceInput m depth (f, p) = some (-(q : Int) - 1) := by
  induction hpassed generalizing depth with
  | itself =>
    obtain ⟨func, hf, hbody, hno⟩ := hk
    obtain ⟨depth, rfl⟩ : ∃ d, depth = d + 1 := ⟨depth - 1, by omega⟩
    have hsole := soleCallTo_of_notCalled hno
    have htype := (isIndex_iff hf).1 hq
    rw [traceInput]
    simp [hf, hsole, htype]
  | @call f p g r n func call hf harg hcall hname hoperand houter hrest ih =>
    obtain ⟨depth, rfl⟩ : ∃ d, depth = d + 1 := ⟨depth - 1, by omega⟩
    have hpassed := PassedFrom.call hf harg hcall hname hoperand houter hrest
    have hlen := (hm.followed k q f p (n + 1) hk hq hpassed).2 func hf
    have hsole := soleCallTo_of_called hcall hname hlen
    have hstep : call.operands[p]?.bind (asFunctionArgument m) = some (g, r) := by
      rw [hoperand]
      exact houter
    rw [traceInput]
    simp only [hf, hsole, hstep]
    exact ih (by omega)

theorem isArgument_of_isIndex {k q : Nat} (hk : IsKernel m k) (hq : IsIndex m k q) :
    IsArgument m k q := by
  obtain ⟨func, hf, hbody, -⟩ := hk
  have hlt := (List.getElem?_eq_some_iff.1 ((isIndex_iff hf).1 hq)).1
  simp [IsArgument, asFunctionArgument, hf, hbody, hlt]

/-- The id declared for an input is found again wherever the input is passed. -/
theorem inputSymbolIdFor_of_declared (hm : InputsByPosition m) {s : Numbering}
    (hs : numberInputs m = some s) {k q f p n : Nat} (hk : IsKernel m k) {id : Int}
    (h : (.argument k q, id) ∈ s.declared) (hpassed : PassedFrom m k q f p n) :
    inputSymbolIdFor m (.argument f p) = some id := by
  obtain ⟨hq, rfl⟩ := declared_position hm hs hk h
  have harg : IsArgument m f p := by
    cases hpassed with
    | itself => exact isArgument_of_isIndex hk hq
    | call _ harg => exact harg
  have hdepth := (hm.followed k q f p n hk hq hpassed).1
  rw [inputSymbolIdFor, harg]
  exact traceInput_of_passed hm hk hq hpassed (Nat.lt_succ_of_le hdepth)

theorem mem_declareInputsIn {f p : Nat} {id : Int}
    (h : inputSymbolIdFor m (.argument f p) = some id) :
    (.argument f p, id) ∈ declareInputsIn m f := by
  obtain ⟨fp, hfp, -⟩ := Option.bind_eq_some_iff.1 h
  obtain ⟨heq, func, hf, -, hlt⟩ := asFunctionArgument_eq_some hfp
  obtain ⟨rfl, rfl⟩ := Value.argument.inj heq
  have hget := getElem?_argumentsOf hf (m := m) (q := fp.2)
  rw [List.getElem?_eq_getElem hlt, Option.map_some] at hget
  exact List.mem_filterMap.2 ⟨_, List.mem_of_getElem? hget, by simp [h]⟩

theorem inputSymbolIdFor_kernel {k q : Nat} (hk : IsKernel m k) {id : Int}
    (h : inputSymbolIdFor m (.argument k q) = some id) : IsIndex m k q ∧ id = -q - 1 := by
  obtain ⟨func, hf, -, hno⟩ := hk
  obtain ⟨fp, hfp, htrace⟩ := Option.bind_eq_some_iff.1 h
  obtain ⟨rfl, rfl⟩ := Value.argument.inj (asFunctionArgument_eq_some hfp).1
  rw [kMaxCallDepth, traceInput] at htrace
  simp only [hf, soleCallTo_of_notCalled hno] at htrace
  split at htrace
  next htype => exact ⟨(isIndex_iff hf).2 htype, (Option.some.inj htrace).symm⟩
  next => contradiction

/-- Two arguments of kernels have two ids. -/
theorem inputSymbolIdFor_injective (hm : InputsByPosition m) {k q k' q' : Nat} (hk : IsKernel m k)
    (hk' : IsKernel m k') {id : Int} (h : inputSymbolIdFor m (.argument k q) = some id)
    (h' : inputSymbolIdFor m (.argument k' q') = some id) : k = k' ∧ q = q' := by
  obtain ⟨hq, rfl⟩ := inputSymbolIdFor_kernel hk h
  obtain ⟨hq', hid⟩ := inputSymbolIdFor_kernel hk' h'
  -- a kernel before the other would have no arguments
  have hnot : ∀ k q k' q', IsKernel m k → IsIndex m k q → IsKernel m k' → IsIndex m k' q' →
      ¬ k < k' := by
    intro k q k' q' hk hq hk' hq' hlt
    have hnil := hm.first k' q' hk' hq' k hk.mem_kernels hlt
    simp [IsIndex, hnil] at hq
  have hlt := hnot k q k' q' hk hq hk' hq'
  have hgt := hnot k' q' k q hk' hq' hk hq
  omega

end SymbolicStartAddress
