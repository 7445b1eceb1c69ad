import Mathlib.Data.List.Nodup
import Mathlib.Logic.Function.Basic

/-!
# Lists of definitions

Ops that define one value each from values that were defined before. Some values may be undefined.
An op can be replaced by ops that define its value anew, under another name.
-/

namespace Definitions

/-- What the ops of a language read and define. The value of an op is defined by the values of its
operands, and renaming operands to what has the same values keeps it. -/
structure Language (Op V : Type) where
  result : Op → Nat
  operands : Op → List Nat
  rename : (Nat → Nat) → Op → Op
  eval : (Nat → Option V) → Op → Option V
  result_rename : ∀ f op, result (rename f op) = result op
  operands_rename : ∀ f op, operands (rename f op) = (operands op).map f
  eval_congr : ∀ env env' op, (∀ v ∈ operands op, env v = env' v) → eval env op = eval env' op
  eval_rename : ∀ env env' f op x, (∀ v ∈ operands op, ∀ y, env v = some y → env' (f v) = some y) →
    eval env op = some x → eval env' (rename f op) = some x

variable {Op V : Type} (L : Language Op V)

/-- The values after some ops. -/
def run (env : Nat → Option V) (ops : List Op) : Nat → Option V :=
  ops.foldl (fun env op => Function.update env (L.result op) (L.eval env op)) env

/-- Every op reads what is in scope and defines something new. -/
def Scoped : List Nat → List Op → Prop
  | _, [] => True
  | scope, op :: ops =>
      (∀ v ∈ L.operands op, v ∈ scope) ∧ L.result op ∉ scope ∧ Scoped (scope ++ [L.result op]) ops

variable {L} {scope scope' : List Nat} {ops later : List Op} {env env' : Nat → Option V}

theorem run_cons (op : Op) :
    run L env (op :: ops) = run L (Function.update env (L.result op) (L.eval env op)) ops := rfl

theorem run_append : run L env (ops ++ later) = run L (run L env ops) later := List.foldl_append

/-- What no op defines keeps its value. -/
theorem run_of_notMem {v : Nat} (h : v ∉ ops.map L.result) : run L env ops v = env v := by
  induction ops generalizing env with
  | nil => rfl
  | cons op ops ih =>
      rw [List.map_cons, List.mem_cons, not_or] at h
      rw [run_cons, ih h.2, Function.update_of_ne h.1]

theorem scoped_append : Scoped L scope (ops ++ later) ↔
    Scoped L scope ops ∧ Scoped L (scope ++ ops.map L.result) later := by
  induction ops generalizing scope with
  | nil => simp [Scoped]
  | cons op ops ih =>
      rw [List.cons_append, Scoped, Scoped, ih, List.map_cons, ← List.append_cons]
      tauto

theorem Scoped.notMem (h : Scoped L scope ops) {v : Nat} (hv : v ∈ scope) :
    v ∉ ops.map L.result := by
  induction ops generalizing scope with
  | nil => exact List.not_mem_nil
  | cons op ops ih =>
      obtain ⟨-, hnew, hrest⟩ := h
      rw [List.map_cons, List.mem_cons, not_or]
      exact ⟨ne_of_mem_of_not_mem hv hnew, ih hrest (List.mem_append_left _ hv)⟩

/-- The value of an op stays what it is worth on the values of its operands. -/
theorem Scoped.run_eq (h : Scoped L scope ops) {op : Op} (hop : op ∈ ops)
    (env : Nat → Option V) : run L env ops (L.result op) = L.eval (run L env ops) op := by
  obtain ⟨before, after, rfl⟩ := List.append_of_mem hop
  obtain ⟨hbefore, hoperands, hnew, hafter⟩ := scoped_append.mp h
  have hself : L.result op ∉ after.map L.result := hafter.notMem (by simp)
  rw [run_append, run_cons, run_of_notMem hself, Function.update_self]
  apply L.eval_congr
  intro v hv
  have hscope := hoperands v hv
  rw [run_of_notMem (hafter.notMem (List.mem_append_left _ hscope)),
    Function.update_of_ne (ne_of_mem_of_not_mem hscope hnew)]

/-! ## Renaming -/

section

variable {f : Nat → Nat}

/-- Renamed ops stay in scope. -/
theorem Scoped.rename (h : Scoped L scope ops) (hscope : ∀ v ∈ scope, f v ∈ scope')
    (hself : ∀ op ∈ ops, f (L.result op) = L.result op)
    (hnew : ∀ op ∈ ops, L.result op ∉ scope') : Scoped L scope' (ops.map (L.rename f)) := by
  induction ops generalizing scope scope' with
  | nil => trivial
  | cons op ops ih =>
      obtain ⟨hoperands, -, hrest⟩ := h
      refine ⟨?_, ?_, ih hrest ?_ ?_ ?_⟩
      · intro v hv
        rw [L.operands_rename] at hv
        obtain ⟨u, hu, rfl⟩ := List.mem_map.mp hv
        exact hscope u (hoperands u hu)
      · rw [L.result_rename]
        exact hnew op List.mem_cons_self
      · intro v hv
        rw [L.result_rename]
        rcases List.mem_append.mp hv with hv | hv
        · exact List.mem_append_left _ (hscope v hv)
        · rw [List.mem_singleton.mp hv, hself op List.mem_cons_self]
          exact List.mem_append_right _ (List.mem_singleton_self _)
      · exact fun op' hop' => hself op' (List.mem_cons_of_mem _ hop')
      · intro op' hop'
        rw [L.result_rename, List.mem_append, not_or]
        refine ⟨hnew op' (List.mem_cons_of_mem _ hop'), ?_⟩
        intro heq
        have := hrest.notMem (List.mem_append_right scope (List.mem_singleton_self _))
        exact this (List.mem_singleton.mp heq ▸ List.mem_map_of_mem hop')

/-- Renamed ops compute what the ops do, on names that have the same values. -/
theorem Scoped.run_rename (h : Scoped L scope ops)
    (henv : ∀ v ∈ scope, ∀ x, env v = some x → env' (f v) = some x)
    (hself : ∀ op ∈ ops, f (L.result op) = L.result op)
    (hkeep : ∀ v ∈ scope, ∀ op ∈ ops, f v ≠ L.result op) :
    ∀ v ∈ scope ++ ops.map L.result, ∀ x, run L env ops v = some x →
      run L env' (ops.map (L.rename f)) (f v) = some x := by
  induction ops generalizing scope env env' with
  | nil =>
      intro v hv
      exact henv v (by simpa using hv)
  | cons op ops ih =>
      obtain ⟨hoperands, hnew, hrest⟩ := h
      have hmem := fun op' (hop' : op' ∈ ops) => List.mem_cons_of_mem op hop'
      intro v hv x hx
      rw [List.map_cons, run_cons] at *
      refine ih hrest ?_ (fun op' hop' => hself op' (hmem op' hop')) ?_ v ?_ x hx
      · intro u hu y hy
        rw [L.result_rename]
        rcases List.mem_append.mp hu with hu | hu
        · rw [Function.update_of_ne (ne_of_mem_of_not_mem hu hnew)] at hy
          rw [Function.update_of_ne (hkeep u hu op List.mem_cons_self)]
          exact henv u hu y hy
        · rw [List.mem_singleton.mp hu] at hy ⊢
          rw [Function.update_self] at hy
          rw [hself op List.mem_cons_self, Function.update_self]
          exact L.eval_rename env env' f op y (fun w hw => henv w (hoperands w hw)) hy
      · intro u hu op' hop'
        rcases List.mem_append.mp hu with hu | hu
        · exact hkeep u hu op' (hmem op' hop')
        · rw [List.mem_singleton.mp hu, hself op List.mem_cons_self]
          intro heq
          have := hrest.notMem (List.mem_append_right scope (List.mem_singleton_self _))
          exact this (heq ▸ List.mem_map_of_mem hop')
      · rw [← List.append_cons]
        exact hv

end

/-! ## Replacing an op -/

/-- Reading another value instead of one. -/
def replace (old new v : Nat) : Nat := if v = old then new else v

@[simp] theorem replace_self (old new : Nat) : replace old new old = new := if_pos rfl

theorem replace_of_ne {old v : Nat} (h : v ≠ old) (new : Nat) : replace old new v = v := if_neg h

section

variable {before after new : List Op} {op : Op} {q next : Nat}

/-- What it takes to replace an op: the new ops are in scope where the op is, define new values, and
among them the one that is read instead. -/
structure Replaces (L : Language Op V) (scope : List Nat) (before after new : List Op) (op : Op)
    (q next : Nat) : Prop where
  inScope : Scoped L scope (before ++ op :: after)
  lt_next : ∀ v ∈ scope ++ (before ++ op :: after).map L.result, v < next
  new_inScope : Scoped L (scope ++ before.map L.result) new
  next_le : ∀ v ∈ new.map L.result, next ≤ v
  mem_new : q ∈ new.map L.result

theorem Replaces.rest (h : Replaces L scope before after new op q next) :
    Scoped L (scope ++ before.map L.result ++ [L.result op]) after :=
  (scoped_append.mp h.inScope).2.2.2

theorem Replaces.self (h : Replaces L scope before after new op q next) :
    ∀ op' ∈ after, replace (L.result op) q (L.result op') = L.result op' := by
  intro op' hop'
  apply replace_of_ne
  intro heq
  have := h.rest.notMem (List.mem_append_right _ (List.mem_singleton_self _))
  exact this (heq ▸ List.mem_map_of_mem hop')

theorem Replaces.replaced_inScope (h : Replaces L scope before after new op q next) :
    Scoped L scope (before ++ (new ++ after.map (L.rename (replace (L.result op) q)))) := by
  rw [scoped_append, scoped_append]
  refine ⟨(scoped_append.mp h.inScope).1, h.new_inScope, h.rest.rename ?_ h.self ?_⟩
  · intro v hv
    rcases List.mem_append.mp hv with hv | hv
    · have hnew : L.result op ∉ scope ++ before.map L.result := (scoped_append.mp h.inScope).2.2.1
      rw [replace_of_ne (ne_of_mem_of_not_mem hv hnew)]
      exact List.mem_append_left _ hv
    · rw [List.mem_singleton.mp hv, replace_self]
      exact List.mem_append_right _ h.mem_new
  · intro op' hop' hmem
    rcases List.mem_append.mp hmem with hmem | hmem
    · have := h.rest.notMem (List.mem_append_left _ hmem)
      exact this (List.mem_map_of_mem hop')
    · have hle := h.next_le _ hmem
      have hlt := h.lt_next (L.result op') (by simp; grind)
      omega

/-- **A replaced op changes no defined value**, if the value that is read instead is defined where
that of the op is, and the same. -/
theorem Replaces.run_eq (h : Replaces L scope before after new op q next)
    (hvalue : ∀ x, L.eval (run L env before) op = some x →
      run L (run L env before) new q = some x) :
    ∀ v ∈ scope ++ (before ++ op :: after).map L.result, ∀ x,
      run L env (before ++ op :: after) v = some x →
        run L env (before ++ (new ++ after.map (L.rename (replace (L.result op) q))))
          (replace (L.result op) q v) = some x := by
  intro v hv x hx
  rw [run_append, run_cons] at hx
  rw [run_append, run_append]
  have hnew : L.result op ∉ scope ++ before.map L.result := (scoped_append.mp h.inScope).2.2.1
  have hold : ∀ u ∈ scope ++ before.map L.result, u ∉ new.map L.result := by
    intro u hu hmem
    have hle := h.next_le u hmem
    have hlt := h.lt_next u (by
      rw [List.map_append, ← List.append_assoc]
      exact List.mem_append_left _ hu)
    omega
  refine h.rest.run_rename ?_ h.self ?_ v ?_ x hx
  · intro u hu y hy
    rcases List.mem_append.mp hu with hu | hu
    · have hne := ne_of_mem_of_not_mem hu hnew
      rw [Function.update_of_ne hne] at hy
      rw [replace_of_ne hne, run_of_notMem (hold u hu)]
      exact hy
    · rw [List.mem_singleton.mp hu] at hy ⊢
      rw [Function.update_self] at hy
      rw [replace_self]
      exact hvalue y hy
  · intro u hu op' hop' heq
    rcases List.mem_append.mp hu with hu | hu
    · rw [replace_of_ne (ne_of_mem_of_not_mem hu hnew)] at heq
      have := h.rest.notMem (List.mem_append_left _ hu)
      exact this (heq ▸ List.mem_map_of_mem hop')
    · rw [List.mem_singleton.mp hu, replace_self] at heq
      have hle := h.next_le q h.mem_new
      have hlt := h.lt_next (L.result op') (by simp; grind)
      omega
  · rw [List.map_append, List.map_cons] at hv
    simpa using hv

end

end Definitions
