import Mathlib.Data.BitVec
import Mathlib.Logic.Function.Basic

/-!
# Structured code in single-assignment form

Straight-line operations, counted loops with iteration arguments and conditionals, over 64-bit
words. A loop hands its iteration arguments from one iteration to the next and returns them as its
results. Operations are a parameter: a signature says which values they read and bind, a semantics
what they compute and how they change the state.
-/

namespace Ssa

abbrev ValueId := Nat

abbrev Word := BitVec 64

/-- The values in scope. Code that is `Scoped` never looks up one that is not. -/
abbrev Env := ValueId → Word

/-- Bind a list of values. A word that is missing reads as zero. -/
def Env.bind (env : Env) : List ValueId → List Word → Env
  | [], _ => env
  | v :: vs, ws => Env.bind (Function.update env v (ws.headD 0)) vs ws.tail

/-- The values an operation reads and the values it binds. -/
class Signature (Op : Type) where
  operands : Op → List ValueId
  results : Op → List ValueId

open Signature

/-- A loop without its body. `yields` are the operands of the body's terminator. -/
structure ForOp where
  lowerBound : ValueId
  upperBound : ValueId
  step : ValueId
  inductionVar : ValueId
  inits : List ValueId
  regionIterArgs : List ValueId
  yields : List ValueId
  results : List ValueId
  deriving Repr, DecidableEq

/-- Code as its first statement and the rest. -/
inductive Code (Op : Type) where
  | nil
  | op (o : Op) (rest : Code Op)
  | scfFor (loop : ForOp) (body rest : Code Op)
  | scfIf (condition : ValueId) (body rest : Code Op)
  deriving Repr, DecidableEq

/-- What an operation computes, and what becomes of the state when a loop ends an iteration. -/
structure Sem (Op State : Type) where
  step : Op → List Word → State → List Word × State
  iterationDone : ValueId → State → State

/-- Number of iterations, `⌈(upper - lower) / step⌉` on signed words. -/
def tripCount (lower upper step : Word) : Nat :=
  ((upper.toInt - lower.toInt + step.toInt - 1) / step.toInt).toNat

/-- Apply `f 0`, `f 1`, …, `f (n - 1)` in turn. -/
def iterate {α : Type} (f : Nat → α → α) (n : Nat) (a : α) : α :=
  (List.range n).foldl (fun a k => f k a) a

namespace ForOp

variable (loop : ForOp) (env : Env)

def count : Nat := tripCount (env loop.lowerBound) (env loop.upperBound) (env loop.step)

def inductionWord (k : Nat) : Word := env loop.lowerBound + BitVec.ofNat 64 k * env loop.step

/-- The values the header reads. -/
def operands : List ValueId := loop.lowerBound :: loop.upperBound :: loop.step :: loop.inits

/-- The values the body can read from the header. -/
def arguments : List ValueId := loop.inductionVar :: loop.regionIterArgs

/-- The environment iteration `k` starts in. -/
def enter (k : Nat) (args : List Word) : Env :=
  Env.bind env loop.arguments (loop.inductionWord env k :: args)

/-- Iteration `k` on the iteration arguments and the state, when `body` runs the body. -/
def iteration {Op σ : Type} (sem : Sem Op σ) (body : Env → σ → Env × σ) (k : Nat)
    (a : List Word × σ) : List Word × σ :=
  let b := body (loop.enter env k a.1) a.2
  (loop.yields.map b.1, sem.iterationDone loop.inductionVar b.2)

/-- All iterations: the results of the loop, and the state. -/
def run {Op σ : Type} (sem : Sem Op σ) (body : Env → σ → Env × σ) (s : σ) : List Word × σ :=
  iterate (loop.iteration env sem body) (loop.count env) (loop.inits.map env, s)

/-- As many initial values, arguments, yielded values and results. -/
structure Balanced : Prop where
  inits : loop.inits.length = loop.regionIterArgs.length
  yields : loop.yields.length = loop.regionIterArgs.length
  results : loop.results.length = loop.regionIterArgs.length

instance : Decidable loop.Balanced :=
  decidable_of_iff (loop.inits.length = loop.regionIterArgs.length ∧
    loop.yields.length = loop.regionIterArgs.length ∧
    loop.results.length = loop.regionIterArgs.length)
    ⟨fun h => ⟨h.1, h.2.1, h.2.2⟩, fun h => ⟨h.1, h.2, h.3⟩⟩

end ForOp

namespace Code

variable {Op : Type} {σ : Type}

def append : Code Op → Code Op → Code Op
  | .nil, c => c
  | .op o rest, c => .op o (rest.append c)
  | .scfFor loop body rest, c => .scfFor loop body (rest.append c)
  | .scfIf cond body rest, c => .scfIf cond body (rest.append c)

/-- The operations of the code and of the bodies in it. -/
def ops : Code Op → List Op
  | .nil => []
  | .op o rest => o :: rest.ops
  | .scfFor _ body rest => body.ops ++ rest.ops
  | .scfIf _ body rest => body.ops ++ rest.ops

/-- The loops of the code and of the bodies in it. -/
def loops : Code Op → List ForOp
  | .nil => []
  | .op _ rest => rest.loops
  | .scfFor loop body rest => loop :: (body.loops ++ rest.loops)
  | .scfIf _ body rest => body.loops ++ rest.loops

/-- Rewrite every operation in its place. -/
def mapOps (f : Op → Op) : Code Op → Code Op
  | .nil => .nil
  | .op o rest => .op (f o) (rest.mapOps f)
  | .scfFor loop body rest => .scfFor loop (body.mapOps f) (rest.mapOps f)
  | .scfIf cond body rest => .scfIf cond (body.mapOps f) (rest.mapOps f)

/-- The code without the operations that `drop` picks. -/
def erase (drop : Op → Bool) : Code Op → Code Op
  | .nil => .nil
  | .op o rest => if drop o then rest.erase drop else .op o (rest.erase drop)
  | .scfFor loop body rest => .scfFor loop (body.erase drop) (rest.erase drop)
  | .scfIf cond body rest => .scfIf cond (body.erase drop) (rest.erase drop)

variable [Signature Op]

/-- The values the code binds outside the bodies in it. -/
def defs : Code Op → List ValueId
  | .nil => []
  | .op o rest => results o ++ rest.defs
  | .scfFor loop _ rest => loop.results ++ rest.defs
  | .scfIf _ _ rest => rest.defs

/-- The values the code or a body in it binds. -/
def allDefs : Code Op → List ValueId
  | .nil => []
  | .op o rest => results o ++ rest.allDefs
  | .scfFor loop body rest => loop.arguments ++ loop.results ++ body.allDefs ++ rest.allDefs
  | .scfIf _ body rest => body.allDefs ++ rest.allDefs

/-- The values the code or a body in it reads. -/
def uses : Code Op → List ValueId
  | .nil => []
  | .op o rest => operands o ++ rest.uses
  | .scfFor loop body rest => loop.operands ++ loop.yields ++ body.uses ++ rest.uses
  | .scfIf cond body rest => cond :: (body.uses ++ rest.uses)

/-- Every value is bound before it is read and never bound again where it is visible. -/
def Scoped : List ValueId → Code Op → Prop
  | _, .nil => True
  | Γ, .op o rest =>
      (∀ v ∈ operands o, v ∈ Γ) ∧ (∀ v ∈ results o, v ∉ Γ) ∧ rest.Scoped (results o ++ Γ)
  | Γ, .scfFor loop body rest =>
      loop.Balanced ∧ (∀ v ∈ loop.operands, v ∈ Γ) ∧ (∀ v ∈ loop.arguments ++ loop.results, v ∉ Γ) ∧
        body.Scoped (loop.arguments ++ Γ) ∧
        (∀ v ∈ loop.yields, v ∈ body.defs ++ (loop.arguments ++ Γ)) ∧
        rest.Scoped (loop.results ++ Γ)
  | Γ, .scfIf cond body rest => cond ∈ Γ ∧ body.Scoped Γ ∧ rest.Scoped Γ

instance Scoped.decidable : ∀ (Γ : List ValueId) (c : Code Op), Decidable (c.Scoped Γ)
  | _, .nil => isTrue trivial
  | Γ, .op o rest =>
      have := Scoped.decidable (results o ++ Γ) rest
      inferInstanceAs (Decidable (_ ∧ _ ∧ _))
  | Γ, .scfFor loop body rest =>
      have := Scoped.decidable (loop.arguments ++ Γ) body
      have := Scoped.decidable (loop.results ++ Γ) rest
      inferInstanceAs (Decidable (_ ∧ _ ∧ _ ∧ _ ∧ _ ∧ _))
  | Γ, .scfIf _ body rest =>
      have := Scoped.decidable Γ body
      have := Scoped.decidable Γ rest
      inferInstanceAs (Decidable (_ ∧ _ ∧ _))

/-- Run the code: the environment after its last statement, and the state. -/
def exec (sem : Sem Op σ) : Code Op → Env → σ → Env × σ
  | .nil, env, s => (env, s)
  | .op o rest, env, s =>
      let r := sem.step o ((operands o).map env) s
      rest.exec sem (env.bind (results o) r.1) r.2
  | .scfFor loop body rest, env, s =>
      let r := loop.run env sem (fun env s => body.exec sem env s) s
      rest.exec sem (env.bind loop.results r.1) r.2
  | .scfIf cond body rest, env, s =>
      rest.exec sem env (if env cond ≠ 0 then (body.exec sem env s).2 else s)

end Code

/-! ## Binding -/

namespace Env

variable {env env' : Env} {vs : List ValueId} {ws : List Word} {v : ValueId}

theorem bind_of_notMem (h : v ∉ vs) : env.bind vs ws v = env v := by
  induction vs generalizing env ws with
  | nil => rfl
  | cons x vs ih =>
    have hx : v ≠ x := List.ne_of_not_mem_cons h
    show Env.bind (Function.update env x (ws.headD 0)) vs ws.tail v = env v
    rw [ih (List.not_mem_of_not_mem_cons h), Function.update_of_ne hx]

theorem bind_append (hlen : vs.length = ws.length) (us : List ValueId) (zs : List Word) :
    env.bind (vs ++ us) (ws ++ zs) = (env.bind vs ws).bind us zs := by
  induction vs generalizing env ws with
  | nil =>
    cases ws with
    | nil => rfl
    | cons w ws => simp at hlen
  | cons x vs ih =>
    cases ws with
    | nil => simp at hlen
    | cons w ws => exact ih (by simpa using hlen)

@[simp] theorem bind_nil : env.bind [] ws = env := rfl

@[simp] theorem bind_singleton (w : Word) : env.bind [v] [w] = Function.update env v w := rfl

/-- Environments that agree on `v` or bind it agree on it after binding the same words. -/
theorem bind_congr (h : v ∉ vs → env v = env' v) : env.bind vs ws v = env'.bind vs ws v := by
  induction vs generalizing env env' ws with
  | nil => exact h (by simp)
  | cons x vs ih =>
    apply ih
    intro hv
    by_cases hx : v = x
    · subst hx
      simp
    · rw [Function.update_of_ne hx, Function.update_of_ne hx]
      exact h (by simp [hx, hv])

end Env

/-- The environments agree on the values of a scope. -/
def AgreeOn (Γ : List ValueId) (env env' : Env) : Prop := ∀ v ∈ Γ, env v = env' v

namespace AgreeOn

variable {Γ Δ : List ValueId} {env env' : Env}

theorem mono (h : AgreeOn Γ env env') (hsub : ∀ v ∈ Δ, v ∈ Γ) : AgreeOn Δ env env' :=
  fun v hv => h v (hsub v hv)

theorem map_eq (h : AgreeOn Γ env env') {vs : List ValueId} (hsub : ∀ v ∈ vs, v ∈ Γ) :
    vs.map env = vs.map env' :=
  List.map_congr_left fun v hv => h v (hsub v hv)

theorem bind (h : AgreeOn Γ env env') (vs : List ValueId) (ws : List Word) :
    AgreeOn (vs ++ Γ) (env.bind vs ws) (env'.bind vs ws) := by
  intro v hv
  apply Env.bind_congr
  intro hvs
  exact h v ((List.mem_append.mp hv).resolve_left hvs)

theorem inductionWord_eq (h : AgreeOn Γ env env') {loop : ForOp}
    (hops : ∀ v ∈ loop.operands, v ∈ Γ) (k : Nat) :
    loop.inductionWord env k = loop.inductionWord env' k := by
  unfold ForOp.inductionWord
  rw [h loop.lowerBound (hops _ (by simp [ForOp.operands])),
    h loop.step (hops _ (by simp [ForOp.operands]))]

/-- The header of a loop reads the same in environments that agree on its scope. -/
theorem enter (h : AgreeOn Γ env env') {loop : ForOp} (hops : ∀ v ∈ loop.operands, v ∈ Γ)
    (k : Nat) (args : List Word) :
    AgreeOn (loop.arguments ++ Γ) (loop.enter env k args) (loop.enter env' k args) := by
  unfold ForOp.enter
  rw [← h.inductionWord_eq hops]
  exact h.bind loop.arguments _

theorem count_eq (h : AgreeOn Γ env env') {loop : ForOp} (hops : ∀ v ∈ loop.operands, v ∈ Γ) :
    loop.count env = loop.count env' := by
  unfold ForOp.count
  rw [h loop.lowerBound (hops _ (by simp [ForOp.operands])),
    h loop.upperBound (hops _ (by simp [ForOp.operands])),
    h loop.step (hops _ (by simp [ForOp.operands]))]

end AgreeOn

/-! ## Loops -/

theorem iterate_succ {α : Type} (f : Nat → α → α) (n : Nat) (a : α) :
    iterate f (n + 1) a = f n (iterate f n a) := by
  simp [iterate, List.range_succ]

/-- A relation that every iteration keeps holds after the last one. -/
theorem iterate_rel {α β : Type} {f : Nat → α → α} {g : Nat → β → β} (R : α → β → Prop)
    {a : α} {b : β} (h : R a b) (step : ∀ k a b, R a b → R (f k a) (g k b)) (n : Nat) :
    R (iterate f n a) (iterate g n b) := by
  induction n with
  | zero => exact h
  | succ n ih =>
    rw [iterate_succ, iterate_succ]
    exact step n _ _ ih

/-- A relation between two loops with as many iterations that every iteration keeps. -/
theorem ForOp.run_rel {Op : Type} {σ τ : Type} {sem : Sem Op σ} {sem' : Sem Op τ}
    {loop loop' : ForOp} {env env' : Env} {body : Env → σ → Env × σ} {body' : Env → τ → Env × τ}
    (P : List Word × σ → List Word × τ → Prop) (hcount : loop.count env = loop'.count env')
    {s : σ} {t : τ} (hinit : P (loop.inits.map env, s) (loop'.inits.map env', t))
    (step : ∀ k a b, P a b →
      P (loop.iteration env sem body k a) (loop'.iteration env' sem' body' k b)) :
    P (loop.run env sem body s) (loop'.run env' sem' body' t) := by
  unfold ForOp.run
  rw [hcount]
  exact iterate_rel P hinit step _

namespace Code

variable {Op : Type} {σ τ : Type} {c : Code Op} {sem : Sem Op σ} {env env' : Env}

/-- A relation on states is kept by the operations and loops of the code. -/
structure Keeps (sem : Sem Op σ) (sem' : Sem Op τ) (R : σ → τ → Prop) (c : Code Op) : Prop where
  step : ∀ o ∈ c.ops, ∀ ws s t, R s t →
    (sem.step o ws s).1 = (sem'.step o ws t).1 ∧ R (sem.step o ws s).2 (sem'.step o ws t).2
  iterationDone : ∀ loop ∈ c.loops, ∀ s t, R s t →
    R (sem.iterationDone loop.inductionVar s) (sem'.iterationDone loop.inductionVar t)

namespace Keeps

variable {sem' : Sem Op τ} {R : σ → τ → Prop} {loop : ForOp} {body rest : Code Op}

theorem of_op {o : Op} (h : Keeps sem sem' R (.op o rest)) : Keeps sem sem' R rest :=
  ⟨fun p hp => h.step p (List.mem_cons_of_mem _ hp), h.iterationDone⟩

theorem of_scfFor (h : Keeps sem sem' R (.scfFor loop body rest)) :
    Keeps sem sem' R body ∧ Keeps sem sem' R rest := by
  constructor
  · exact ⟨fun p hp => h.step p (List.mem_append_left _ hp),
      fun l hl => h.iterationDone l (List.mem_cons_of_mem _ (List.mem_append_left _ hl))⟩
  · exact ⟨fun p hp => h.step p (List.mem_append_right _ hp),
      fun l hl => h.iterationDone l (List.mem_cons_of_mem _ (List.mem_append_right _ hl))⟩

theorem of_scfIf {cond : ValueId} (h : Keeps sem sem' R (.scfIf cond body rest)) :
    Keeps sem sem' R body ∧ Keeps sem sem' R rest := by
  constructor
  · exact ⟨fun p hp => h.step p (List.mem_append_left _ hp),
      fun l hl => h.iterationDone l (List.mem_append_left _ hl)⟩
  · exact ⟨fun p hp => h.step p (List.mem_append_right _ hp),
      fun l hl => h.iterationDone l (List.mem_append_right _ hl)⟩

end Keeps

@[simp] theorem mapOps_eq_self {f : Op → Op} (h : ∀ o ∈ c.ops, f o = o) : c.mapOps f = c := by
  induction c with
  | nil => rfl
  | op o rest ih =>
    rw [mapOps, h o (by simp [ops]), ih fun p hp => h p (by simp [ops, hp])]
  | scfFor loop body rest ihb ih =>
    rw [mapOps, ihb fun p hp => h p (by simp [ops, hp]), ih fun p hp => h p (by simp [ops, hp])]
  | scfIf cond body rest ihb ih =>
    rw [mapOps, ihb fun p hp => h p (by simp [ops, hp]), ih fun p hp => h p (by simp [ops, hp])]

theorem mapOps_append (f : Op → Op) (c d : Code Op) :
    (c.append d).mapOps f = (c.mapOps f).append (d.mapOps f) := by
  induction c <;> simp_all [append, mapOps]

/-! ## Execution -/

variable [Signature Op]

theorem exec_append (d : Code Op) (s : σ) :
    (c.append d).exec sem env s = d.exec sem (c.exec sem env s).1 (c.exec sem env s).2 := by
  induction c generalizing env s with
  | nil => rfl
  | op o rest ih => exact ih _
  | scfFor loop body rest _ ih => exact ih _
  | scfIf cond body rest _ ih => exact ih _

theorem defs_append (c d : Code Op) : (c.append d).defs = c.defs ++ d.defs := by
  induction c <;> simp_all [append, defs]

theorem allDefs_append (c d : Code Op) : (c.append d).allDefs = c.allDefs ++ d.allDefs := by
  induction c <;> simp_all [append, allDefs]

/-- **Values the code does not bind keep their word.** -/
theorem exec_of_notMem_defs {v : ValueId} (h : v ∉ c.defs) (s : σ) :
    (c.exec sem env s).1 v = env v := by
  induction c generalizing env s with
  | nil => rfl
  | op o rest ih =>
    simp only [defs, List.mem_append, not_or] at h
    show (rest.exec sem _ _).1 v = env v
    rw [ih h.2, Env.bind_of_notMem h.1]
  | scfFor loop body rest _ ih =>
    simp only [defs, List.mem_append, not_or] at h
    show (rest.exec sem _ _).1 v = env v
    rw [ih h.2, Env.bind_of_notMem h.1]
  | scfIf cond body rest _ ih => exact ih h _

/-! ## Single assignment -/

theorem defs_mapOps {f : Op → Op} (h : ∀ o, results (f o) = results o) :
    (c.mapOps f).defs = c.defs := by
  induction c <;> simp_all [mapOps, defs]

/-- Scoped code binds nothing that is in scope. -/
theorem notMem_defs {Γ : List ValueId} (hc : c.Scoped Γ) {v : ValueId} (hv : v ∈ Γ) :
    v ∉ c.defs := by
  induction c generalizing Γ with
  | nil => simp [defs]
  | op o rest ih =>
    obtain ⟨-, hres, hrest⟩ := hc
    simp only [defs, List.mem_append, not_or]
    exact ⟨fun h => hres v h hv, ih hrest (List.mem_append_right _ hv)⟩
  | scfFor loop body rest _ ih =>
    obtain ⟨-, -, hnew, -, -, hrest⟩ := hc
    simp only [defs, List.mem_append, not_or]
    exact ⟨fun h => hnew v (List.mem_append_right _ h) hv, ih hrest (List.mem_append_right _ hv)⟩
  | scfIf cond body rest _ ih => exact ih hc.2.2 hv

theorem mem_allDefs_of_mem_defs {v : ValueId} (h : v ∈ c.defs) : v ∈ c.allDefs := by
  induction c with
  | nil => exact h
  | op o rest ih =>
    simp only [defs, allDefs, List.mem_append] at h ⊢
    exact h.imp_right ih
  | scfFor loop body rest _ ih =>
    simp only [defs, allDefs, List.mem_append] at h ⊢
    rcases h with h | h
    · exact .inl (.inl (.inr h))
    · exact .inr (ih h)
  | scfIf cond body rest _ ih =>
    simp only [defs, allDefs, List.mem_append] at h ⊢
    exact .inr (ih h)

theorem mem_allDefs_of_result {o : Op} {v : ValueId} (ho : o ∈ c.ops) (hv : v ∈ results o) :
    v ∈ c.allDefs := by
  induction c with
  | nil => cases ho
  | op p rest ih =>
    simp only [ops, List.mem_cons, allDefs, List.mem_append] at ho ⊢
    rcases ho with rfl | ho
    · exact .inl hv
    · exact .inr (ih ho)
  | scfFor loop body rest ihb ih =>
    simp only [ops, allDefs, List.mem_append] at ho ⊢
    exact ho.elim (fun h => .inl (.inr (ihb h))) fun h => .inr (ih h)
  | scfIf cond body rest ihb ih =>
    simp only [ops, allDefs, List.mem_append] at ho ⊢
    exact ho.imp ihb ih

theorem mem_allDefs_of_header {loop : ForOp} {v : ValueId} (hl : loop ∈ c.loops)
    (hv : v ∈ loop.arguments ++ loop.results) : v ∈ c.allDefs := by
  induction c with
  | nil => cases hl
  | op p rest ih =>
    simp only [allDefs, List.mem_append]
    exact .inr (ih hl)
  | scfFor l body rest ihb ih =>
    simp only [loops, allDefs, List.mem_cons, List.mem_append] at hl hv ⊢
    rcases hl with rfl | hl | hl
    · exact .inl (.inl hv)
    · exact .inl (.inr (ihb hl))
    · exact .inr (ih hl)
  | scfIf cond body rest ihb ih =>
    simp only [loops, allDefs, List.mem_append] at hl ⊢
    exact hl.imp ihb ih

/-- What an operation reads is in scope or bound by the code. -/
theorem operand_mem {Γ : List ValueId} (hc : c.Scoped Γ) {o : Op} {v : ValueId} (ho : o ∈ c.ops)
    (hv : v ∈ operands o) : v ∈ Γ ∨ v ∈ c.allDefs := by
  induction c generalizing Γ with
  | nil => cases ho
  | op p rest ih =>
    obtain ⟨hops, -, hrest⟩ := hc
    simp only [ops, List.mem_cons, allDefs, List.mem_append] at ho ⊢
    rcases ho with rfl | ho
    · exact .inl (hops v hv)
    · have := ih hrest ho
      simp only [List.mem_append] at this
      tauto
  | scfFor loop body rest ihb ih =>
    obtain ⟨-, -, -, hbody, -, hrest⟩ := hc
    simp only [ops, allDefs, List.mem_append] at ho ⊢
    rcases ho with ho | ho
    · have := ihb hbody ho
      simp only [List.mem_append] at this
      tauto
    · have := ih hrest ho
      simp only [List.mem_append] at this
      tauto
  | scfIf cond body rest ihb ih =>
    obtain ⟨-, hbody, hrest⟩ := hc
    simp only [ops, allDefs, List.mem_append] at ho ⊢
    rcases ho with ho | ho
    · exact (ihb hbody ho).imp_right .inl
    · exact (ih hrest ho).imp_right .inr

/-- Only one operation binds a value. -/
theorem op_unique (hc : c.allDefs.Nodup) {o p : Op} {v : ValueId} (ho : o ∈ c.ops) (hp : p ∈ c.ops)
    (hvo : v ∈ results o) (hvp : v ∈ results p) : o = p := by
  induction c with
  | nil => cases ho
  | op q rest ih =>
    simp only [allDefs, List.nodup_append] at hc
    simp only [ops, List.mem_cons] at ho hp
    rcases ho with rfl | ho <;> rcases hp with rfl | hp
    · rfl
    · exact absurd rfl (hc.2.2 v hvo v (mem_allDefs_of_result hp hvp))
    · exact absurd rfl (hc.2.2 v hvp v (mem_allDefs_of_result ho hvo))
    · exact ih hc.2.1 ho hp
  | scfFor loop body rest ihb ih =>
    simp only [allDefs, List.nodup_append, List.mem_append] at hc
    simp only [ops, List.mem_append] at ho hp
    rcases ho with ho | ho <;> rcases hp with hp | hp
    · exact ihb hc.1.2.1 ho hp
    · exact absurd rfl (hc.2.2 v (.inr (mem_allDefs_of_result ho hvo)) v
        (mem_allDefs_of_result hp hvp))
    · exact absurd rfl (hc.2.2 v (.inr (mem_allDefs_of_result hp hvp)) v
        (mem_allDefs_of_result ho hvo))
    · exact ih hc.2.1 ho hp
  | scfIf cond body rest ihb ih =>
    simp only [allDefs, List.nodup_append] at hc
    simp only [ops, List.mem_append] at ho hp
    rcases ho with ho | ho <;> rcases hp with hp | hp
    · exact ihb hc.1 ho hp
    · exact absurd rfl (hc.2.2 v (mem_allDefs_of_result ho hvo) v (mem_allDefs_of_result hp hvp))
    · exact absurd rfl (hc.2.2 v (mem_allDefs_of_result hp hvp) v (mem_allDefs_of_result ho hvo))
    · exact ih hc.2.1 ho hp

/-- What an operation binds, no loop header binds. -/
theorem header_ne_result (hc : c.allDefs.Nodup) {o : Op} {loop : ForOp} {v : ValueId}
    (ho : o ∈ c.ops) (hl : loop ∈ c.loops) (hvo : v ∈ results o) :
    v ∉ loop.arguments ++ loop.results := by
  induction c with
  | nil => cases ho
  | op q rest ih =>
    simp only [allDefs, List.nodup_append] at hc
    simp only [ops, List.mem_cons] at ho
    rcases ho with rfl | ho
    · intro hv
      exact hc.2.2 v hvo v (mem_allDefs_of_header hl hv) rfl
    · exact ih hc.2.1 ho hl
  | scfFor l body rest ihb ih =>
    rw [allDefs, List.nodup_append] at hc
    obtain ⟨hhead, hrest, hdisj⟩ := hc
    rw [List.nodup_append] at hhead
    simp only [ops, loops, List.mem_cons, List.mem_append] at ho hl
    intro hv
    rcases ho with ho | ho
    · have hvb := mem_allDefs_of_result ho hvo
      rcases hl with rfl | hl | hl
      · exact hhead.2.2 v hv v hvb rfl
      · exact ihb hhead.2.1 ho hl hv
      · exact hdisj v (List.mem_append_right _ hvb) v (mem_allDefs_of_header hl hv) rfl
    · have hvr := mem_allDefs_of_result ho hvo
      rcases hl with rfl | hl | hl
      · exact hdisj v (List.mem_append_left _ hv) v hvr rfl
      · exact hdisj v (List.mem_append_right _ (mem_allDefs_of_header hl hv)) v hvr rfl
      · exact ih hrest ho hl hv
  | scfIf cond body rest ihb ih =>
    simp only [allDefs, List.nodup_append] at hc
    simp only [ops, loops, List.mem_append] at ho hl
    intro hv
    rcases ho with ho | ho <;> rcases hl with hl | hl
    · exact ihb hc.1 ho hl hv
    · exact hc.2.2 v (mem_allDefs_of_result ho hvo) v (mem_allDefs_of_header hl hv) rfl
    · exact hc.2.2 v (mem_allDefs_of_header hl hv) v (mem_allDefs_of_result ho hvo) rfl
    · exact ih hc.2.1 ho hl hv

/-- Code in single-assignment form in a scope. -/
structure SingleAssignment (Γ : List ValueId) (c : Code Op) : Prop where
  inScope : c.Scoped Γ
  nodup : c.allDefs.Nodup
  disjoint : ∀ v ∈ c.allDefs, v ∉ Γ

instance (Γ : List ValueId) : Decidable (c.SingleAssignment Γ) :=
  decidable_of_iff (c.Scoped Γ ∧ c.allDefs.Nodup ∧ ∀ v ∈ c.allDefs, v ∉ Γ)
    ⟨fun h => ⟨h.1, h.2.1, h.2.2⟩, fun h => ⟨h.1, h.2, h.3⟩⟩

namespace SingleAssignment

variable {Γ : List ValueId} {body rest : Code Op}

/-- The first operation and the rest. -/
theorem of_op {o : Op} (h : SingleAssignment Γ (.op o rest)) :
    (Code.op o .nil).Scoped Γ ∧ SingleAssignment (results o ++ Γ) rest ∧
      ∀ v ∈ rest.allDefs, v ∉ Γ ∧ v ∉ (Code.op o .nil).allDefs := by
  obtain ⟨⟨hops, hres, hrest⟩, hnodup, hdisj⟩ := h
  simp only [allDefs, List.nodup_append, List.mem_append] at hnodup hdisj
  have hne : ∀ v ∈ rest.allDefs, v ∉ results o := fun v hv h => hnodup.2.2 v h v hv rfl
  refine ⟨⟨hops, hres, trivial⟩, ⟨hrest, hnodup.2.1, ?_⟩, ?_⟩
  · intro v hv
    simpa only [List.mem_append, not_or] using ⟨hne v hv, hdisj v (.inr hv)⟩
  · intro v hv
    simpa only [allDefs, List.append_nil] using ⟨hdisj v (.inr hv), hne v hv⟩

/-- The body of a first loop, the loop alone and the rest. -/
theorem of_scfFor {loop : ForOp} (h : SingleAssignment Γ (.scfFor loop body rest)) :
    SingleAssignment (loop.arguments ++ Γ) body ∧ (Code.scfFor loop body .nil).Scoped Γ ∧
      SingleAssignment (loop.results ++ Γ) rest ∧
      (∀ v ∈ rest.allDefs, v ∉ Γ ∧ v ∉ (Code.scfFor loop body .nil).allDefs) ∧
      (∀ v ∈ loop.arguments ++ body.allDefs, v ∉ loop.results ++ Γ ∧ v ∉ rest.allDefs) ∧
      ∀ v ∈ loop.arguments ++ loop.results, v ∉ body.allDefs := by
  obtain ⟨⟨hbal, hops, hnew, hbody, hyields, hrest⟩, hnodup, hdisj⟩ := h
  rw [allDefs, List.nodup_append] at hnodup
  obtain ⟨hhead, hnrest, hhr⟩ := hnodup
  rw [List.nodup_append] at hhead
  obtain ⟨hheader, hnbody, hhb⟩ := hhead
  rw [List.nodup_append] at hheader
  simp only [allDefs, List.mem_append] at hdisj hhr hhb hnew
  have hbh : ∀ v ∈ loop.arguments ++ loop.results, v ∉ body.allDefs :=
    fun v hv h => hhb v (List.mem_append.mp hv) v h rfl
  refine ⟨⟨hbody, hnbody, ?_⟩, ⟨hbal, hops, ?_, hbody, hyields, trivial⟩, ⟨hrest, hnrest, ?_⟩, ?_,
    ?_, hbh⟩
  · intro v hv
    rw [List.mem_append, not_or]
    exact ⟨fun h => hbh v (List.mem_append_left _ h) hv, hdisj v (.inl (.inr hv))⟩
  · simpa only [List.mem_append] using hnew
  · intro v hv
    rw [List.mem_append, not_or]
    exact ⟨fun h => hhr v (.inl (.inr h)) v hv rfl, hdisj v (.inr hv)⟩
  · intro v hv
    refine ⟨hdisj v (.inr hv), fun hmem => ?_⟩
    simp only [allDefs, List.mem_append, List.append_nil] at hmem
    exact hhr v hmem v hv rfl
  · intro v hv
    rw [List.mem_append, not_or]
    rcases List.mem_append.mp hv with hv | hv
    · exact ⟨⟨fun h => hheader.2.2 v hv v h rfl, hnew v (.inl hv)⟩,
        fun h => hhr v (.inl (.inl hv)) v h rfl⟩
    · exact ⟨⟨fun h => hbh v (List.mem_append_right _ h) hv, hdisj v (.inl (.inr hv))⟩,
        fun h => hhr v (.inr hv) v h rfl⟩

/-- The first conditional alone and the rest. -/
theorem of_scfIf {cond : ValueId} (h : SingleAssignment Γ (.scfIf cond body rest)) :
    (Code.scfIf cond body .nil).Scoped Γ ∧ SingleAssignment Γ rest ∧
      ∀ v ∈ rest.allDefs, v ∉ Γ ∧ v ∉ (Code.scfIf cond body .nil).allDefs := by
  obtain ⟨⟨hcond, hbody, hrest⟩, hnodup, hdisj⟩ := h
  simp only [allDefs, List.nodup_append, List.mem_append] at hnodup hdisj
  refine ⟨⟨hcond, hbody, trivial⟩, ⟨hrest, hnodup.2.1, fun v hv => hdisj v (.inr hv)⟩, ?_⟩
  intro v hv
  refine ⟨hdisj v (.inr hv), fun hmem => ?_⟩
  simp only [allDefs, List.append_nil] at hmem
  exact hnodup.2.2 v hmem v hv rfl

end SingleAssignment

theorem exec_op (o : Op) (rest : Code Op) (s : σ) :
    (Code.op o rest).exec sem env s =
      rest.exec sem (env.bind (results o) (sem.step o ((operands o).map env) s).1)
        (sem.step o ((operands o).map env) s).2 := rfl

theorem exec_scfFor (loop : ForOp) (body rest : Code Op) (s : σ) :
    (Code.scfFor loop body rest).exec sem env s =
      rest.exec sem (env.bind loop.results (loop.run env sem (body.exec sem) s).1)
        (loop.run env sem (body.exec sem) s).2 := rfl

theorem exec_scfIf (cond : ValueId) (body rest : Code Op) (s : σ) :
    (Code.scfIf cond body rest).exec sem env s =
      rest.exec sem env (if env cond ≠ 0 then (body.exec sem env s).2 else s) := rfl

/-- **Simulation.** Code whose operations and loops keep a relation on states keeps it, and run from
environments that agree on its scope it binds the same words. -/
theorem exec_rel {sem' : Sem Op τ} {R : σ → τ → Prop} {Γ : List ValueId}
    (hk : Keeps sem sem' R c) (hc : c.Scoped Γ) (he : AgreeOn Γ env env') {s : σ} {t : τ}
    (hR : R s t) :
    AgreeOn (c.defs ++ Γ) (c.exec sem env s).1 (c.exec sem' env' t).1 ∧
      R (c.exec sem env s).2 (c.exec sem' env' t).2 := by
  induction c generalizing Γ env env' s t with
  | nil => exact ⟨he, hR⟩
  | op o rest ih =>
    obtain ⟨hops, -, hrest⟩ := hc
    obtain ⟨hw, hR'⟩ := hk.step o (by simp [ops]) ((operands o).map env') s t hR
    obtain ⟨hagree, hrel⟩ := ih hk.of_op hrest (he.bind (results o) _) hR'
    rw [exec_op, exec_op, he.map_eq hops, ← hw]
    refine ⟨hagree.mono ?_, hrel⟩
    simp only [defs, List.mem_append]
    tauto
  | scfFor loop body rest ihb ih =>
    obtain ⟨hbal, hops, -, hbody, hyields, hrest⟩ := hc
    have hinits : loop.inits.map env = loop.inits.map env' :=
      he.map_eq fun v hv => hops v (by simp [ForOp.operands, hv])
    obtain ⟨hw, hR'⟩ : (loop.run env sem (body.exec sem) s).1 =
          (loop.run env' sem' (body.exec sem') t).1 ∧
        R (loop.run env sem (body.exec sem) s).2 (loop.run env' sem' (body.exec sem') t).2 := by
      refine ForOp.run_rel (fun a b => a.1 = b.1 ∧ R a.2 b.2) (he.count_eq hops) ⟨hinits, hR⟩ ?_
      rintro k a b ⟨hargs, hab⟩
      obtain ⟨hagree, hrel⟩ := ihb hk.of_scfFor.1 hbody (he.enter hops k a.1) hab
      unfold ForOp.iteration
      rw [← hargs]
      exact ⟨hagree.map_eq hyields, hk.iterationDone loop (by simp [loops]) _ _ hrel⟩
    obtain ⟨hagree, hrel⟩ := ih hk.of_scfFor.2 hrest (he.bind loop.results _) hR'
    rw [exec_scfFor, exec_scfFor, ← hw]
    refine ⟨hagree.mono ?_, hrel⟩
    simp only [defs, List.mem_append]
    tauto
  | scfIf cond body rest ihb ih =>
    obtain ⟨hcond, hbody, hrest⟩ := hc
    rw [exec_scfIf, exec_scfIf, ← he cond hcond]
    apply ih hk.of_scfIf.2 hrest he
    split
    · exact (ihb hk.of_scfIf.1 hbody he hR).2
    · exact hR

/-- Erasing operations that leave the state alone, when nothing reads what they bind, changes nothing
else. -/
theorem exec_erase (drop : Op → Bool) (D : List ValueId)
    (hpure : ∀ o ∈ c.ops, drop o = true →
      (∀ v ∈ results o, v ∈ D) ∧ ∀ ws s, (sem.step o ws s).2 = s)
    (huses : ∀ v ∈ c.uses, v ∉ D) (he : ∀ v ∉ D, env v = env' v) (s : σ) :
    (∀ v ∉ D, (c.exec sem env s).1 v = ((c.erase drop).exec sem env' s).1 v) ∧
      (c.exec sem env s).2 = ((c.erase drop).exec sem env' s).2 := by
  induction c generalizing env env' s with
  | nil => exact ⟨he, rfl⟩
  | op o rest ih =>
    have hpure' : ∀ p ∈ rest.ops, drop p = true → _ :=
      fun p hp => hpure p (List.mem_cons_of_mem _ hp)
    have huses' : ∀ v ∈ rest.uses, v ∉ D := fun v hv => huses v (List.mem_append_right _ hv)
    rw [exec_op]
    simp only [erase]
    split
    next hdrop =>
      obtain ⟨hres, hstate⟩ := hpure o (by simp [ops]) hdrop
      rw [hstate]
      apply ih hpure' huses'
      intro v hv
      rw [Env.bind_of_notMem fun h => hv (hres v h)]
      exact he v hv
    next hdrop =>
      have hmap : (operands o).map env = (operands o).map env' :=
        List.map_congr_left fun v hv => he v (huses v (List.mem_append_left _ hv))
      rw [exec_op, ← hmap]
      apply ih hpure' huses'
      intro v hv
      exact Env.bind_congr fun _ => he v hv
  | scfFor loop body rest ihb ih =>
    have hops : AgreeOn loop.operands env env' :=
      fun v hv => he v (huses v (by simp [uses, hv]))
    have hrun : loop.run env sem (body.exec sem) s =
        loop.run env' sem ((body.erase drop).exec sem) s := by
      refine ForOp.run_rel (fun a b => a = b) (hops.count_eq fun v hv => hv) ?_ ?_
      · rw [hops.map_eq fun v hv => by simp [ForOp.operands, hv]]
      · rintro k a _ rfl
        have henter : ∀ v ∉ D, loop.enter env k a.1 v = loop.enter env' k a.1 v := by
          intro v hv
          have hboth : AgreeOn (v :: loop.operands) env env' :=
            List.forall_mem_cons.mpr ⟨he v hv, hops⟩
          exact hboth.enter (fun v hv => List.mem_cons_of_mem _ hv) k a.1 v (by simp)
        have hbody := ihb (fun p hp => hpure p (List.mem_append_left _ hp))
          (fun v hv => huses v (by simp [uses, hv])) henter a.2
        apply Prod.ext _ (congrArg (sem.iterationDone loop.inductionVar) hbody.2)
        exact List.map_congr_left fun v hv => hbody.1 v (huses v (by simp [uses, hv]))
    rw [exec_scfFor, erase, exec_scfFor, ← hrun]
    apply ih (fun p hp => hpure p (List.mem_append_right _ hp))
      (fun v hv => huses v (by simp [uses, hv]))
    intro v hv
    exact Env.bind_congr fun _ => he v hv
  | scfIf cond body rest ihb ih =>
    have hcond : env cond = env' cond := he cond (huses cond (by simp [uses]))
    rw [exec_scfIf, erase, exec_scfIf, ← hcond]
    have hbody := ihb (fun p hp => hpure p (List.mem_append_left _ hp))
      (fun v hv => huses v (by simp [uses, hv])) he s
    rw [hbody.2]
    exact ih (fun p hp => hpure p (List.mem_append_right _ hp))
      (fun v hv => huses v (by simp [uses, hv])) he _

end Code

end Ssa
