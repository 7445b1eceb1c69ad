import DataflowScheduler.Conversion.KTDFLowToDFIR.SymbolInputs
import DataflowScheduler.Util.StraightLine

/-!
# The expressions of derived addresses

What an address is worth for a value of its input, and what of it is not in its key: which value a
step reads where it does not read a constant, and the attributes of the operation.
-/

namespace SymbolicStartAddress

open StraightLine

variable {m : ModuleOp}

/-! ## Values -/

/-- What the operations compute: from the name, the attributes and the number of the result. -/
abbrev Interpretation := String → String → Nat → List Int → Int

def Value.number : Value → Nat
  | .result _ n => n
  | .argument _ _ | .innerArgument _ => 0

/-- The value of `v` where `bound` says what some values are worth, over expressions of depth less
than `fuel`. -/
def evaluateTo (m : ModuleOp) (interp : Interpretation) (bound : List (Value × Int)) :
    Nat → Value → Int
  | 0, _ => 0
  | fuel + 1, v =>
    match bound.lookup v with
    | some x => x
    | none =>
      match definingOp m v with
      | none => 0
      | some k =>
        match (m.op k).constant with
        | some (.int c) => c
        | some .other | none =>
          interp (m.op k).name (m.op k).attributes v.number
            ((m.op k).operands.map (evaluateTo m interp bound fuel))

def evaluate (m : ModuleOp) (interp : Interpretation) (bound : List (Value × Int)) (v : Value) :
    Int :=
  evaluateTo m interp bound (m.ops.length + 1) v

/-- The value an address is computed from, in bytes and not displaced. -/
def DerivedAddress.value (a : DerivedAddress m) : Value :=
  match a.steps.getLast? with
  | some k => .result k 0
  | none => a.root

/-- What the leaves are worth. -/
def DerivedAddress.bound (a : DerivedAddress m) : List (Value × Int) := a.leaves.zip a.terms

/-- The address as a function of its input. -/
def DerivedAddress.denote (a : DerivedAddress m) (interp : Interpretation) (x : Int) : Int :=
  (evaluate m interp ((a.root, x) :: a.bound) a.value + a.displacement).tdiv a.word_size

/-- What a step of the address is worth. -/
def DerivedAddress.stepValue (a : DerivedAddress m) (interp : Interpretation) (x : Int)
    (k : Fin m.ops.length) : Int :=
  evaluate m interp ((a.root, x) :: a.bound) (.result k 0)

theorem definingOp_eq_some {v : Value} {k : Fin m.ops.length} (h : definingOp m v = some k) :
    v = .result k v.number ∧ v.number < (m.op k).num_results := by
  cases v with
  | result i n =>
    simp only [definingOp] at h
    split at h
    next hi =>
      split at h
      next hn =>
        obtain rfl := by simpa using h
        exact ⟨rfl, hn⟩
      next => contradiction
    next => contradiction
  | argument f p => contradiction
  | innerArgument n => contradiction

theorem height_le_of_definingOp {v : Value} {k : Fin m.ops.length}
    (h : definingOp m v = some k) : v.height = k + 1 := by
  rw [(definingOp_eq_some h).1]
  rfl

/-- Operands are computed lower down. -/
theorem height_operand {k : Fin m.ops.length} {v : Value} (h : v ∈ (m.op k).operands) :
    v.height ≤ k :=
  m.ssa k v h

theorem evaluateTo_congr {interp : Interpretation} {bound : List (Value × Int)} {fuel fuel' : Nat}
    {v : Value} (h : v.height < fuel) (h' : v.height < fuel') :
    evaluateTo m interp bound fuel v = evaluateTo m interp bound fuel' v := by
  induction fuel generalizing fuel' v with
  | zero => omega
  | succ fuel ih =>
    obtain ⟨fuel', rfl⟩ : ∃ n, fuel' = n + 1 := ⟨fuel' - 1, by omega⟩
    simp only [evaluateTo]
    split
    next => rfl
    next =>
      split
      next => rfl
      next k hk =>
        split
        next => rfl
        all_goals
          congr 1
          apply List.map_congr_left
          intro u hu
          have hheight := height_le_of_definingOp hk
          have hoperand := height_operand hu
          exact ih (by omega) (by omega)

theorem evaluate_bound {interp : Interpretation} {bound : List (Value × Int)} {v : Value} {x : Int}
    (h : bound.lookup v = some x) : evaluate m interp bound v = x := by
  simp [evaluate, evaluateTo, h]

theorem evaluate_constant {interp : Interpretation} {bound : List (Value × Int)} {v : Value}
    {c : Int} (h : bound.lookup v = none) (hc : getConstantIntValue m v = some c) :
    evaluate m interp bound v = c := by
  unfold getConstantIntValue at hc
  split at hc
  next c' hbind =>
    obtain ⟨k, hk, hconst⟩ := Option.bind_eq_some_iff.1 hbind
    obtain rfl := Option.some.inj hc
    simp [evaluate, evaluateTo, h, hk, hconst]
  all_goals contradiction

/-- An operation that is neither bound nor an integer is applied to the values of its operands. -/
theorem evaluate_result {interp : Interpretation} {bound : List (Value × Int)} {v : Value}
    {k : Fin m.ops.length} (h : bound.lookup v = none) (hk : definingOp m v = some k)
    (hconst : ∀ c, (m.op k).constant ≠ some (.int c)) :
    evaluate m interp bound v = interp (m.op k).name (m.op k).attributes v.number
      ((m.op k).operands.map (evaluate m interp bound)) := by
  have hargs : (m.op k).operands.map (evaluateTo m interp bound m.ops.length) =
      (m.op k).operands.map (evaluate m interp bound) := by
    apply List.map_congr_left
    intro u hu
    have hheight := height_operand hu
    exact evaluateTo_congr (by omega) (by omega)
  rw [← hargs]
  simp only [evaluate, evaluateTo, h, hk]
  split
  next c hc => exact absurd hc (hconst c)
  all_goals rfl

/-! ## Wiring -/

/-- What a step reads that no other step computes. A constant that is no integer is told by the
operation that holds it. -/
inductive Leaf where
  | input
  | term (i : Nat)
  | constant (value : Int)
  | literal (name attributes : String) (number : Nat)
  deriving DecidableEq

/-- What the operand `v` of a step is, after the steps in `before`. -/
def operandOf (m : ModuleOp) (root : Value) (bound : List (Value × Int))
    (before : List (Fin m.ops.length)) (v : Value) : Option (Operand Leaf) :=
  if v = root then some (.given .input)
  else
    match bound.findIdx? fun leaf => leaf.1 = v with
    | some i => some (.given (.term i))
    | none =>
      match definingOp m v with
      | none => none
      | some k =>
        match (m.op k).constant with
        | some (.int c) => some (.given (.constant c))
        | some .other => some (.given (.literal (m.op k).name (m.op k).attributes v.number))
        | none =>
          match before.findIdx? fun (step : Fin m.ops.length) => v = .result step 0 with
          | some j => some (.line j)
          | none => none

/-- The steps with their attributes and with what each operand is. There are none where a step reads
something else than the input, a leaf, a constant or an earlier step. -/
def wire (m : ModuleOp) (root : Value) (bound : List (Value × Int)) :
    List (Fin m.ops.length) → List (Fin m.ops.length) → Option (List (Line (String × String) Leaf))
  | _, [] => some []
  | before, k :: steps =>
    match (m.op k).operands.mapM (operandOf m root bound before),
      wire m root bound (before ++ [k]) steps with
    | some operands, some lines => some (⟨((m.op k).name, (m.op k).attributes), operands⟩ :: lines)
    | _, _ => none

def DerivedAddress.wiring (a : DerivedAddress m) : Option (List (Line (String × String) Leaf)) :=
  wire m a.root a.bound [] a.steps

def Leaf.value (interp : Interpretation) (x : Int) (terms : List Int) : Leaf → Int
  | .input => x
  | .term i => terms.getD i 0
  | .constant c => c
  | .literal name attributes number => interp name attributes number []

/-! ### Wired steps are worth what the values are -/

theorem findIdx?_eq_some {α : Type} {p : α → Bool} {l : List α} {i : Nat}
    (h : l.findIdx? p = some i) : ∃ a, l[i]? = some a ∧ p a = true := by
  obtain ⟨hlt, hp, -⟩ := List.findIdx?_eq_some_iff_getElem.1 h
  exact ⟨l[i], List.getElem?_eq_getElem hlt, hp⟩

theorem lookup_eq_of_findIdx? {bound : List (Value × Int)} {v : Value} {i : Nat}
    (h : (bound.findIdx? fun leaf => leaf.1 = v) = some i) :
    ∃ x, bound[i]? = some (v, x) ∧ bound.lookup v = some x := by
  induction bound generalizing i with
  | nil => simp at h
  | cons leaf bound ih =>
    obtain ⟨u, x⟩ := leaf
    rw [List.findIdx?_cons] at h
    by_cases hu : u = v
    · subst hu
      simp only [decide_true, if_true, Option.some.injEq] at h
      subst h
      exact ⟨x, rfl, by simp⟩
    · simp only [hu, decide_false, Bool.false_eq_true, if_false, Option.map_eq_some_iff] at h
      obtain ⟨j, hj, rfl⟩ := h
      obtain ⟨y, hget, hlookup⟩ := ih hj
      have hne : (v == u) = false := beq_false_of_ne fun heq => hu heq.symm
      exact ⟨y, hget, by rw [List.lookup_cons, hne]; exact hlookup⟩

theorem lookup_eq_none_of_findIdx? {bound : List (Value × Int)} {v : Value}
    (h : (bound.findIdx? fun leaf => leaf.1 = v) = none) : bound.lookup v = none := by
  rw [List.findIdx?_eq_none_iff] at h
  rw [List.lookup_eq_none_iff]
  intro leaf hleaf
  have hne : leaf.1 ≠ v := by simpa using h leaf hleaf
  exact bne_iff_ne.2 fun heq => hne heq.symm

/-- The leaves of an address are worth their terms, wherever they are bound. -/
theorem getElem?_bound {a : DerivedAddress m} {i : Nat} {v : Value} {x : Int}
    (h : a.bound[i]? = some (v, x)) : a.terms.getD i 0 = x := by
  unfold DerivedAddress.bound at h
  rw [List.getElem?_zip_eq_some] at h
  simp [List.getD_eq_getElem?_getD, h.2]

theorem operandOf_value {a : DerivedAddress m} {interp : Interpretation} {x : Int}
    {before : List (Fin m.ops.length)} {v : Value} {operand : Operand Leaf}
    (h : operandOf m a.root a.bound before v = some operand) :
    operand.value (Leaf.value interp x a.terms)
        (before.map (a.stepValue interp x)) =
      evaluate m interp ((a.root, x) :: a.bound) v := by
  unfold operandOf at h
  split at h
  next hroot =>
    obtain rfl := by simpa using h
    exact (evaluate_bound (by simp [hroot, Leaf.value])).symm
  next hroot =>
    have hne : (v == a.root) = false := by simpa using hroot
    have hcons : ((a.root, x) :: a.bound).lookup v = a.bound.lookup v := by
      rw [List.lookup_cons, hne]
    split at h
    next i hi =>
      obtain rfl := by simpa using h
      obtain ⟨y, hget, hlookup⟩ := lookup_eq_of_findIdx? hi
      rw [evaluate_bound (hcons.trans hlookup)]
      exact getElem?_bound hget
    next hbound =>
      have hnone := hcons.trans (lookup_eq_none_of_findIdx? hbound)
      split at h
      next => contradiction
      next k hk =>
        split at h
        next c hc =>
          obtain rfl := by simpa using h
          exact (evaluate_constant hnone (by simp [getConstantIntValue, hk, hc, Leaf.value])).symm
        next hc =>
          obtain rfl := by simpa using h
          have hargs := ModuleOp.operands_of_constant (m := m) (k := k) (by simp [hc])
          rw [evaluate_result hnone hk (by simp [hc]), hargs]
          rfl
        next =>
          split at h
          next j hj =>
            obtain rfl := by simpa using h
            obtain ⟨step, hstep, heq⟩ := findIdx?_eq_some hj
            apply Operand.value_line
            rw [List.getElem?_map, hstep, Option.map_some, DerivedAddress.stepValue]
            simp only [decide_eq_true_eq] at heq
            rw [heq]
          next => contradiction

theorem mapM_eq_some {α β : Type} {f : α → Option β} {l : List α} {l' : List β}
    (h : l.mapM f = some l') : List.Forall₂ (fun a b => f a = some b) l l' := by
  induction l generalizing l' with
  | nil =>
    obtain rfl := by simpa using h
    exact .nil
  | cons a l ih =>
    simp only [List.mapM_cons, Option.bind_eq_bind, Option.bind_eq_some_iff] at h
    obtain ⟨b, hb, bs, hbs, heq⟩ := h
    obtain rfl := by simpa using heq
    exact .cons hb (ih hbs)

theorem operands_value {a : DerivedAddress m} {interp : Interpretation} {x : Int}
    {before : List (Fin m.ops.length)} {vs : List Value} {operands : List (Operand Leaf)}
    (h : vs.mapM (operandOf m a.root a.bound before) = some operands) :
    operands.map (Operand.value (Leaf.value interp x a.terms) (before.map (a.stepValue interp x))) =
      vs.map (evaluate m interp ((a.root, x) :: a.bound)) := by
  have hall := mapM_eq_some h
  clear h
  induction hall with
  | nil => rfl
  | cons hoperand _ ih => rw [List.map_cons, List.map_cons, ih, operandOf_value hoperand]

/-- The steps of an address are operations with one result, and none of them is a constant or worth
a term. -/
def DerivedAddress.Sound (a : DerivedAddress m) : Prop :=
  (inputSymbolIdFor m a.root).isSome ∧
  ∀ k ∈ a.steps, (m.op k).constant = none ∧ (m.op k).num_results = 1 ∧ .result k 0 ∉ a.leaves

theorem lookup_step {a : DerivedAddress m} (ha : a.Sound) {k : Fin m.ops.length} (hk : k ∈ a.steps)
    (x : Int) : ((a.root, x) :: a.bound).lookup (.result k 0) = none := by
  obtain ⟨hroot, hsteps⟩ := ha
  obtain ⟨id, hid⟩ := Option.isSome_iff_exists.1 hroot
  obtain ⟨fp, hfp, -⟩ := Option.bind_eq_some_iff.1 hid
  rw [List.lookup_eq_none_iff]
  intro leaf hleaf
  rcases List.mem_cons.1 hleaf with rfl | hleaf
  · simp [(asFunctionArgument_eq_some hfp).1]
  · have hnot := (hsteps k hk).2.2
    have hmem : leaf.1 ∈ a.leaves := (List.of_mem_zip (a := leaf.1) (b := leaf.2) hleaf).1
    refine bne_iff_ne.2 ?_
    intro heq
    exact hnot (heq ▸ hmem)

theorem wire_computes {a : DerivedAddress m} (ha : a.Sound) (interp : Interpretation) (x : Int)
    {before steps : List (Fin m.ops.length)} (hsub : steps ⊆ a.steps)
    {lines : List (Line (String × String) Leaf)}
    (h : wire m a.root a.bound before steps = some lines) :
    Computes (fun op => interp op.1 op.2 0) (Leaf.value interp x a.terms)
      (a.stepValue interp x) before steps lines := by
  induction steps generalizing before lines with
  | nil =>
    obtain rfl := by simpa [wire] using h
    exact .nil
  | cons k steps ih =>
    simp only [wire] at h
    split at h
    next operands lines' hoperands hlines =>
      obtain rfl := by simpa using h
      obtain ⟨hk, hsteps⟩ := List.cons_subset.1 hsub
      refine .cons ?_ (ih hsteps hlines)
      obtain ⟨hconst, hone, -⟩ := ha.2 k hk
      have hdef : definingOp m (.result k 0) = some k := by
        simp [definingOp, hone]
      rw [DerivedAddress.stepValue, evaluate_result (lookup_step ha hk x) hdef (by simp [hconst])]
      show _ = interp _ _ 0 (operands.map _)
      rw [operands_value hoperands]
      rfl
    next => contradiction

/-- An address is told by its wiring, its terms, its displacement and its word size. -/
theorem denote_eq_of_wiring {a : DerivedAddress m} (ha : a.Sound)
    {lines : List (Line (String × String) Leaf)} (h : a.wiring = some lines)
    (interp : Interpretation) (x : Int) :
    a.denote interp x =
      (((values (fun op => interp op.1 op.2 0) (Leaf.value interp x a.terms) [] lines).getLast?.getD
        x) + a.displacement).tdiv a.word_size := by
  have hvalues := (wire_computes ha interp x (List.Subset.refl _) h).values_eq
  simp only [List.map_nil, List.nil_append] at hvalues
  have hroot : evaluate m interp ((a.root, x) :: a.bound) a.root = x := evaluate_bound (by simp)
  rw [hvalues, List.getLast?_map, DerivedAddress.denote, DerivedAddress.value]
  cases a.steps.getLast? with
  | none => simp [hroot]
  | some k => rfl

theorem denote_congr {a b : DerivedAddress m} (ha : a.Sound) (hb : b.Sound) (hkey : a.key = b.key)
    (hsome : a.wiring ≠ none) (hwiring : a.wiring = b.wiring) (interp : Interpretation) (x : Int) :
    a.denote interp x = b.denote interp x := by
  obtain ⟨lines, hlines⟩ := Option.ne_none_iff_exists'.1 hsome
  rw [denote_eq_of_wiring ha hlines, denote_eq_of_wiring hb (hwiring ▸ hlines)]
  obtain ⟨-, hoffset, hterms, hword, -⟩ := DerivedKey.mk.inj hkey
  rw [hoffset, hterms, hword]

end SymbolicStartAddress
