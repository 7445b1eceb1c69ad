import DataflowScheduler.Dialect.KTDF.Transforms.SplitReductionInnerOuterDim

/-!
# The body of the second generic

The combiner applies the accumulating operation of the source to the running value and to the
partial result. Where a unary operation computes the contribution, it is applied to the partial
result once more.
-/

namespace SplitReductionInnerOuterDim

open StraightLine

variable {V : Type}

/-- How a result is accumulated: by an operation over the running value and a contribution, in one
order or the other. -/
structure Accumulation where
  op : String
  running_first : Bool
  contribution : Operand Nat

def Accumulation.operands (a : Accumulation) (running v : Operand Nat) : List (Operand Nat) :=
  if a.running_first then [running, v] else [v, running]

/-- The block accumulates the result `r` so, with a contribution that is an expression over the
inputs alone. -/
def Body.Accumulates (b : Body) (src_inputs r : Nat) (a : Accumulation) : Prop :=
  ∃ j, b.yields[r]? = some (.line j) ∧
    b.lines[j]? = some ⟨a.op, a.operands (.given (src_inputs + r)) a.contribution⟩ ∧
    ∀ k ∈ reads b.lines a.contribution, k < src_inputs

/-- The running value after one more contribution. -/
def Accumulation.apply (a : Accumulation) (interp : String → List V → V) (running v : V) : V :=
  if a.running_first then interp a.op [running, v] else interp a.op [v, running]

/-- What the combiner makes of a partial result. -/
def Accumulation.again (a : Accumulation) (b : Body) (interp : String → List V → V) (v : V) : V :=
  match b.through a.contribution with
  | some op => interp op [v]
  | none => v

theorem Accumulation.map_operands (a : Accumulation) (interp : String → List V → V)
    (f : Operand Nat → V) (running v : Operand Nat) :
    interp a.op ((a.operands running v).map f) = a.apply interp (f running) (f v) := by
  unfold operands apply
  cases a.running_first <;> rfl

variable [Inhabited V]

/-! ## The sides -/

theorem reads_given {lines : List (Line String Nat)} (k : Nat) : reads lines (.given k) = [k] := rfl

theorem reads_unary {b : Body} (hordered : Ordered b.lines) {side : Operand Nat} {op : String}
    {k : Nat} (h : b.definingOp side = some ⟨op, [.given k]⟩) : reads b.lines side = [k] := by
  cases side with
  | given _ => simp [Body.definingOp] at h
  | line j => exact value_line_eq hordered h

/-- An expression over the inputs is no way for the running value to come in. -/
theorem not_reaches {b : Body} (hordered : Ordered b.lines) {src_inputs r : Nat}
    {contribution : Operand Nat} (h : ∀ k ∈ reads b.lines contribution, k < src_inputs) :
    reaches b (.given (src_inputs + r)) contribution = false := by
  have hnot : src_inputs + r ∉ reads b.lines contribution := by
    intro hmem
    have := h _ hmem
    omega
  unfold reaches
  rw [Bool.or_eq_false_iff]
  constructor
  · rw [decide_eq_false_iff_not]
    rintro rfl
    exact hnot (by simp [reads_given])
  · split
    next through hthrough =>
      rw [decide_eq_false_iff_not]
      intro hoperands
      obtain ⟨op, operands⟩ := through
      simp only at hoperands
      subst hoperands
      exact hnot (by simp [reads_unary hordered hthrough])
    next => rfl

/-- What one more line is worth. -/
theorem value_snoc (interp : String → List V → V) (arguments : Nat → V)
    (lines : List (Line String Nat)) (l : Line String Nat) :
    (Operand.line lines.length).value arguments (values interp arguments [] (lines ++ [l])) =
      interp l.op (l.operands.map (Operand.value arguments (values interp arguments [] lines))) := by
  apply Operand.value_line
  rw [values_snoc, List.getElem?_append_right (by simp)]
  simp

theorem standIn_given (b : Body) (lines : List (Line String Nat)) (k : Nat)
    (argument : Operand Nat) : standIn b lines (.given k) argument = (lines, argument) := rfl

/-- The stand-in is a line of its own or the argument, and is worth what is made of that. -/
theorem standIn_spec (b : Body) (lines : List (Line String Nat)) (a : Accumulation) (k : Nat) :
    ∃ extra operand, standIn b lines a.contribution (.given k) = (lines ++ extra, operand) ∧
      operand.Within (lines ++ extra).length ∧ (Ordered lines → Ordered (lines ++ extra)) ∧
      ∀ (interp : String → List V → V) (arguments : Nat → V),
        operand.value arguments (values interp arguments [] (lines ++ extra)) =
          a.again b interp (arguments k) := by
  unfold standIn Accumulation.again
  cases b.through a.contribution with
  | some op =>
    refine ⟨[⟨op, [.given k]⟩], .line lines.length, rfl, ?_, ?_, ?_⟩
    · show lines.length < _
      simp
    · intro hlines
      exact hlines.snoc (by simp [Operand.Within])
    · intro interp arguments
      rw [value_snoc]
      rfl
  | none => exact ⟨[], .given k, by simp, trivial, by simp, fun _ _ => rfl⟩

/-! ## One result -/

/-- The operand combines the running value of the result `r` with its partial result. -/
def Combines (V : Type) [Inhabited V] (b : Body) (a : Accumulation) (results r : Nat)
    (lines : List (Line String Nat)) (operand : Operand Nat) : Prop :=
  ∀ (interp : String → List V → V) (arguments : Nat → V),
    operand.value arguments (values interp arguments [] lines) =
      a.apply interp (arguments (results + r)) (a.again b interp (arguments r))

theorem Combines.append {b : Body} {a : Accumulation} {results r : Nat}
    {lines : List (Line String Nat)} {operand : Operand Nat}
    (h : Combines V b a results r lines operand) (hin : operand.Within lines.length)
    (later : List (Line String Nat)) : Combines V b a results r (lines ++ later) operand := by
  intro interp arguments
  rw [value_append hin]
  exact h interp arguments

theorem combine_spec {b : Body} (hordered : Ordered b.lines) {src_inputs results r : Nat}
    {a : Accumulation} (hacc : b.Accumulates src_inputs r a) {new new' : Body}
    (h : combine b src_inputs results new r = some new') :
    ∃ extra operand, new'.lines = new.lines ++ extra ∧ new'.yields = new.yields ++ [operand] ∧
      operand.Within new'.lines.length ∧ (Ordered new.lines → Ordered new'.lines) ∧
      Combines V b a results r new'.lines operand := by
  obtain ⟨j, hyield, hline, hreads⟩ := hacc
  have hnot := not_reaches hordered (r := r) hreads
  have hself : reaches b (.given (src_inputs + r)) (.given (src_inputs + r)) = true := by
    simp [reaches]
  obtain ⟨extra, operand, hstand, hwithin, hextra, hvalue⟩ :=
    standIn_spec (V := V) b new.lines a r
  -- in both orders the same line is added
  have hnew : new' =
      ⟨(new.lines ++ extra) ++ [⟨a.op, a.operands (.given (results + r)) operand⟩],
        new.yields ++ [.line (new.lines ++ extra).length]⟩ := by
    unfold Accumulation.operands at hline ⊢
    cases hfirst : a.running_first with
    | true =>
      simp only [hfirst, if_true] at hline
      simp only [combine, hyield, Option.bind_some, Body.definingOp, hline, hself, hstand,
        standIn_given, not_true_eq_false, false_and, if_false, if_true, Option.some.injEq] at h
      exact h.symm
    | false =>
      simp only [hfirst, Bool.false_eq_true, if_false] at hline
      simp only [combine, hyield, Option.bind_some, Body.definingOp, hline, hself, hnot, hstand,
        standIn_given, not_true_eq_false, and_false, if_false, Bool.false_eq_true,
        Option.some.injEq] at h
      exact h.symm
  subst hnew
  refine ⟨extra ++ [⟨a.op, a.operands (.given (results + r)) operand⟩], _,
    List.append_assoc .., rfl, ?_, ?_, ?_⟩
  · show _ < _
    simp
  · intro hlines
    apply (hextra hlines).snoc
    intro u hu
    unfold Accumulation.operands at hu
    have hmem : u = .given (results + r) ∨ u = operand := by
      split at hu
      · simpa using hu
      · simpa [or_comm] using hu
    rcases hmem with rfl | rfl
    · trivial
    · exact hwithin
  · intro interp arguments
    rw [value_snoc, ← hvalue interp arguments]
    exact a.map_operands interp _ _ _

/-! ## All results -/

/-- The block has been given the first `n` results. -/
structure Built (V : Type) [Inhabited V] (b : Body) (a : Nat → Accumulation) (results n : Nat)
    (new : Body) : Prop where
  length : new.yields.length = n
  ordered : Ordered new.lines
  combines : ∀ r < n, ∃ operand, new.yields[r]? = some operand ∧
    operand.Within new.lines.length ∧ Combines V b (a r) results r new.lines operand

theorem foldlM_combine {b : Body} (hordered : Ordered b.lines) {src_inputs results : Nat}
    {a : Nat → Accumulation} {n : Nat} (hacc : ∀ r < n, b.Accumulates src_inputs r (a r))
    {new : Body}
    (h : (List.range n).foldlM (combine b src_inputs results) ⟨[], []⟩ = some new) :
    Built V b a results n new := by
  induction n generalizing new with
  | zero =>
    obtain rfl := by simpa using h
    exact ⟨rfl, by intro j l hj; simp at hj, by simp⟩
  | succ n ih =>
    rw [List.range_succ, List.foldlM_append] at h
    obtain ⟨first, hfirst, h⟩ := Option.bind_eq_some_iff.1 h
    obtain ⟨hlen, hlines, hcombines⟩ := ih (fun r hr => hacc r (by omega)) hfirst
    have hlast : combine b src_inputs results first n = some new := by simpa using h
    obtain ⟨extra, operand, hextra, hyields, hwithin, hnext, hcombine⟩ :=
      combine_spec (V := V) hordered (hacc n (by omega)) hlast
    refine ⟨by rw [hyields, List.length_append, hlen]; rfl, hnext hlines, ?_⟩
    intro r hr
    by_cases hrn : r = n
    · subst hrn
      refine ⟨operand, ?_, hwithin, hcombine⟩
      rw [hyields, List.getElem?_append_right (by omega), hlen, Nat.sub_self]
      rfl
    · obtain ⟨operand', hget, hwithin', hcombine'⟩ := hcombines r (by omega)
      refine ⟨operand', ?_, ?_, ?_⟩
      · rw [hyields, List.getElem?_append_left (by omega)]
        exact hget
      · rw [hextra]
        cases operand' with
        | given k => trivial
        | line i =>
          have hi : i < first.lines.length := hwithin'
          show i < (first.lines ++ extra).length
          rw [List.length_append]
          omega
      · rw [hextra]
        exact hcombine'.append hwithin' extra

end SplitReductionInnerOuterDim
