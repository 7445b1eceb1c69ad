import Mathlib.Tactic.Common

/-!
# Straight-line programs

A program without control flow: every line applies an operation to what is given and to the values
of earlier lines. It is run in one pass.
-/

namespace StraightLine

/-- What a line reads: something given, or the value of the line `j`. -/
inductive Operand (α : Type) where
  | given (a : α)
  | line (j : Nat)
  deriving DecidableEq

structure Line (κ α : Type) where
  op : κ
  operands : List (Operand α)
  deriving DecidableEq

variable {κ α β V : Type} [Inhabited V]

def Operand.value (leaf : α → V) (before : List V) : Operand α → V
  | .given a => leaf a
  | .line j => before.getD j default

@[simp] theorem Operand.value_given (leaf : α → V) (before : List V) (a : α) :
    (Operand.given a).value leaf before = leaf a := rfl

theorem Operand.value_line {leaf : α → V} {before : List V} {j : Nat} {x : V}
    (h : before[j]? = some x) : (Operand.line j).value leaf before = x := by
  show before.getD j default = x
  rw [List.getD_eq_getElem?_getD, h, Option.getD_some]

/-- The values of all lines, after those in `before`. -/
def values (interp : κ → List V → V) (leaf : α → V) : List V → List (Line κ α) → List V
  | before, [] => before
  | before, l :: lines =>
    values interp leaf (before ++ [interp l.op (l.operands.map (Operand.value leaf before))]) lines

/-- The lines compute `f` at the nodes one by one, with `f` known at the nodes before. -/
inductive Computes (interp : κ → List V → V) (leaf : α → V) (f : β → V) :
    List β → List β → List (Line κ α) → Prop
  | nil {before : List β} : Computes interp leaf f before [] []
  | cons {before nodes : List β} {node : β} {l : Line κ α} {lines : List (Line κ α)} :
      f node = interp l.op (l.operands.map (Operand.value leaf (before.map f))) →
      Computes interp leaf f (before ++ [node]) nodes lines →
      Computes interp leaf f before (node :: nodes) (l :: lines)

theorem Computes.values_eq {interp : κ → List V → V} {leaf : α → V} {f : β → V}
    {before nodes : List β} {lines : List (Line κ α)} (h : Computes interp leaf f before nodes lines) :
    values interp leaf (before.map f) lines = (before ++ nodes).map f := by
  induction h with
  | nil => simp [values]
  | @cons before nodes node l lines hnode _ ih =>
    rw [values, ← hnode]
    rw [List.map_append, List.map_singleton, List.append_assoc] at ih
    exact ih

/-! ## Values of a part of a program -/

theorem values_append (interp : κ → List V → V) (leaf : α → V) (before : List V)
    (lines later : List (Line κ α)) :
    values interp leaf before (lines ++ later) =
      values interp leaf (values interp leaf before lines) later := by
  induction lines generalizing before with
  | nil => rfl
  | cons l lines ih => exact ih _

theorem values_snoc (interp : κ → List V → V) (leaf : α → V) (before : List V)
    (lines : List (Line κ α)) (l : Line κ α) :
    values interp leaf before (lines ++ [l]) = values interp leaf before lines ++
      [interp l.op (l.operands.map (Operand.value leaf (values interp leaf before lines)))] := by
  rw [values_append]
  rfl

@[simp] theorem length_values (interp : κ → List V → V) (leaf : α → V) (before : List V)
    (lines : List (Line κ α)) :
    (values interp leaf before lines).length = before.length + lines.length := by
  induction lines generalizing before with
  | nil => rfl
  | cons l lines ih =>
    rw [values, ih, List.length_append, List.length_cons]
    simp only [List.length_cons, List.length_nil]
    omega

theorem prefix_values (interp : κ → List V → V) (leaf : α → V) (before : List V)
    (lines : List (Line κ α)) : before <+: values interp leaf before lines := by
  induction lines generalizing before with
  | nil => exact List.prefix_rfl
  | cons l lines ih => exact (List.prefix_append _ _).trans (ih _)

theorem getElem_of_start {γ : Type} {before values : List γ} (h : before <+: values) {j : Nat}
    (hj : j < before.length) : values[j]? = before[j]? := by
  obtain ⟨later, rfl⟩ := h
  exact List.getElem?_append_left hj

/-- An operand that refers to the first `n` lines only. -/
def Operand.Within (n : Nat) : Operand α → Prop
  | .given _ => True
  | .line j => j < n

theorem Operand.value_prefix {leaf : α → V} {before values : List V} (h : before <+: values)
    {operand : Operand α} (hin : operand.Within before.length) :
    operand.value leaf values = operand.value leaf before := by
  cases operand with
  | given a => rfl
  | line j =>
    have hj : j < before.length := hin
    apply Operand.value_line
    rw [getElem_of_start h hj]
    show before[j]? = some (before.getD j default)
    rw [List.getD_eq_getElem?_getD, List.getElem?_eq_getElem hj, Option.getD_some]

/-- Every line reads earlier lines only. -/
def Ordered (lines : List (Line κ α)) : Prop :=
  ∀ (j : Nat) (l : Line κ α), lines[j]? = some l → ∀ operand ∈ l.operands, operand.Within j

theorem Ordered.snoc {lines : List (Line κ α)} (h : Ordered lines) {l : Line κ α}
    (hl : ∀ operand ∈ l.operands, operand.Within lines.length) : Ordered (lines ++ [l]) := by
  intro j l' hj
  by_cases hlt : j < lines.length
  · rw [List.getElem?_append_left hlt] at hj
    exact h j l' hj
  · rw [List.getElem?_append_right (by omega)] at hj
    obtain ⟨hzero, rfl⟩ : j - lines.length = 0 ∧ l = l' := by
      have hone := (List.getElem?_eq_some_iff.1 hj).1
      rw [List.length_singleton] at hone
      have hzero : j - lines.length = 0 := by omega
      simpa [hzero] using hj
    obtain rfl : j = lines.length := by omega
    exact hl

theorem value_append {interp : κ → List V → V} {leaf : α → V} {lines : List (Line κ α)}
    {operand : Operand α} (h : operand.Within lines.length) (later : List (Line κ α)) :
    operand.value leaf (values interp leaf [] (lines ++ later)) =
      operand.value leaf (values interp leaf [] lines) := by
  apply Operand.value_prefix
  · rw [values_append]
    exact prefix_values ..
  · rw [length_values, List.length_nil, Nat.zero_add]
    exact h

/-- A line is worth its operation on what its operands are worth. -/
theorem value_line_eq {interp : κ → List V → V} {leaf : α → V} {lines : List (Line κ α)}
    (hlines : Ordered lines) {j : Nat} {l : Line κ α} (h : lines[j]? = some l) :
    (Operand.line j).value leaf (values interp leaf [] lines) =
      interp l.op (l.operands.map (Operand.value leaf (values interp leaf [] lines))) := by
  obtain ⟨hj, hl⟩ := List.getElem?_eq_some_iff.1 h
  have hsplit : lines = (lines.take j ++ [l]) ++ lines.drop (j + 1) := by
    rw [← hl, List.take_append_getElem, List.take_append_drop]
  have hlen : (values interp leaf [] (lines.take j)).length = j := by
    rw [length_values, List.length_take, List.length_nil]
    omega
  have hfirst : values interp leaf [] (lines.take j) <+: values interp leaf [] lines := by
    conv_rhs => rw [hsplit, List.append_assoc, values_append]
    exact prefix_values ..
  have hargs : l.operands.map (Operand.value leaf (values interp leaf [] lines)) =
      l.operands.map (Operand.value leaf (values interp leaf [] (lines.take j))) := by
    apply List.map_congr_left
    intro operand hoperand
    exact Operand.value_prefix hfirst (by rw [hlen]; exact hlines j l h operand hoperand)
  rw [hargs]
  apply Operand.value_line
  have hnext : values interp leaf [] (lines.take j ++ [l]) <+: values interp leaf [] lines := by
    conv_rhs => rw [hsplit, values_append]
    exact prefix_values ..
  rw [values_snoc] at hnext
  have hlast : j < (values interp leaf [] (lines.take j) ++
      [interp l.op (l.operands.map (Operand.value leaf (values interp leaf [] (lines.take j))))]).length := by
    rw [List.length_append, hlen, List.length_singleton]
    omega
  rw [getElem_of_start hnext hlast, List.getElem?_append_right (by omega), hlen, Nat.sub_self]
  rfl

/-! ## What an operand depends on -/

/-- The given values an operand is computed from. -/
def reads (lines : List (Line κ α)) (operand : Operand α) : List α :=
  operand.value (fun a => [a]) (values (fun _ rs => rs.flatten) (fun a => [a]) [] lines)

/-- Two passes agree where what they depend on does. -/
structure Agree (leaf leaf' : α → V) (deps : List (List α)) (before before' : List V) : Prop where
  length_eq : before.length = deps.length
  length_eq' : before'.length = deps.length
  getD_eq : ∀ j, (∀ a ∈ deps.getD j [], leaf a = leaf' a) →
    before.getD j default = before'.getD j default

theorem Agree.value_eq {leaf leaf' : α → V} {deps : List (List α)} {before before' : List V}
    (h : Agree leaf leaf' deps before before') {operand : Operand α}
    (hleaf : ∀ a ∈ operand.value (fun a => [a]) deps, leaf a = leaf' a) :
    operand.value leaf before = operand.value leaf' before' := by
  cases operand with
  | given a => exact hleaf a List.mem_cons_self
  | line j => exact h.getD_eq j hleaf

theorem Agree.values {interp : κ → List V → V} {leaf leaf' : α → V} {deps : List (List α)}
    {before before' : List V} (h : Agree leaf leaf' deps before before')
    (lines : List (Line κ α)) :
    Agree leaf leaf' (values (fun _ rs => rs.flatten) (fun a => [a]) deps lines)
      (values interp leaf before lines) (values interp leaf' before' lines) := by
  induction lines generalizing deps before before' with
  | nil => exact h
  | cons l lines ih =>
    apply ih
    obtain ⟨hlen, hlen', hget⟩ := id h
    refine ⟨by simp [hlen], by simp [hlen'], ?_⟩
    intro j hj
    simp only [List.getD_eq_getElem?_getD] at hj hget ⊢
    rcases Nat.lt_trichotomy j deps.length with hlt | rfl | hgt
    · rw [List.getElem?_append_left hlt] at hj
      rw [List.getElem?_append_left (hlen ▸ hlt), List.getElem?_append_left (hlen' ▸ hlt)]
      exact hget j hj
    · rw [List.getElem?_append_right (Nat.le_refl _), Nat.sub_self] at hj
      rw [List.getElem?_append_right (hlen ▸ Nat.le_refl _),
        List.getElem?_append_right (hlen' ▸ Nat.le_refl _), hlen, hlen', Nat.sub_self]
      simp only [List.getElem?_cons_zero, Option.getD_some] at hj ⊢
      congr 1
      apply List.map_congr_left
      intro operand hoperand
      apply h.value_eq
      intro a ha
      exact hj a (List.mem_flatten.2 ⟨_, List.mem_map_of_mem hoperand, ha⟩)
    · have hnone : ∀ {β : Type} (before : List β) (b : β), before.length = deps.length →
          (before ++ [b])[j]? = none := by
        intro β before b hb
        rw [List.getElem?_eq_none]
        simp only [List.length_append, List.length_singleton]
        omega
      rw [hnone _ _ hlen, hnone _ _ hlen']

/-- An operand is worth the same for all that gives the same to what it reads. -/
theorem value_congr_reads {interp : κ → List V → V} {leaf leaf' : α → V} {lines : List (Line κ α)}
    {operand : Operand α} (h : ∀ a ∈ reads lines operand, leaf a = leaf' a) :
    operand.value leaf (values interp leaf [] lines) =
      operand.value leaf' (values interp leaf' [] lines) := by
  have hstart : Agree leaf leaf' [] [] [] := ⟨rfl, rfl, fun _ _ => rfl⟩
  exact (hstart.values lines).value_eq h

end StraightLine
