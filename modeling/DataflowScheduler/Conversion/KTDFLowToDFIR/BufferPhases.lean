import DataflowScheduler.Conversion.KTDFLowToDFIR.BufferPhaseLowering
import Mathlib.Tactic.Abel

/-!
# Double buffering alternates the buffers

The lowered loops are compared with the original ones, where the select reads the view of the phase.
The start address at the additional argument of a loop follows the number of executions of the
innermost body: every loop of the chain keeps it, innermost first.
-/

namespace BufferPhaseLowering

open Ssa Signature

variable {μ : Type} {interp : Interp μ} {innermost : ValueId}

/-- The start address of execution `k`. -/
def offsetAt (offset₀ offset₁ : Word) (k : Nat) : Word := if k % 2 = 0 then offset₀ else offset₁

/-- The additional argument after `k` executions. -/
def argumentAt (mode : DoubleBufferingMode) (offset₀ offset₁ : Word) (k : Nat) : Word :=
  match mode with
  | .bufferFirst => offsetAt offset₀ offset₁ k
  | .bufferLast => offsetAt offset₀ offset₁ (k + 1)

theorem offsetAt_succ (offset₀ offset₁ : Word) (k : Nat) :
    offset₀ + offset₁ - offsetAt offset₀ offset₁ k = offsetAt offset₀ offset₁ (k + 1) := by
  unfold offsetAt
  rcases Nat.mod_two_eq_zero_or_one k with h | h
  · rw [if_pos h, if_neg (by omega)]
    abel
  · rw [if_neg (by omega), if_pos (by omega)]
    abel

/-! ## One execution of the innermost body -/

section Execution

variable {phase : BufferPhaseOp} {select : SelectMemrefOp} {view₀ view₁ : GetLogicalMemoryViewOp}
variable {offset : ValueId} {offset₀ offset₁ unit : Word}

/-- The states of the two runs in execution `k`. -/
structure InExecution (select : SelectMemrefOp) (offset₀ offset₁ : Word) (k : Nat)
    (s t : Machine μ) : Prop where
  memory : s.memory = t.memory
  executions : s.executions = k
  executions' : t.executions = k
  views : ∀ x ∈ t.views, x.1 = select.result → x.2.2 = offsetAt offset₀ offset₁ x.2.1

variable (interp innermost) in
theorem InExecution.step {k : Nat} {s t : Machine μ}
    (h : InExecution select offset₀ offset₁ k s t) {o : Op} (ho : select.result ∉ results o)
    (ws : List Word) :
    ((sem interp innermost).step o ws s).1 = ((sem interp innermost).step o ws t).1 ∧
      InExecution select offset₀ offset₁ k ((sem interp innermost).step o ws s).2
        ((sem interp innermost).step o ws t).2 := by
  obtain ⟨hm, hs, ht, hv⟩ := h
  cases o with
  | bufferPhase op =>
    refine ⟨?_, hm, hs, ht, hv⟩
    simp only [sem, Op.step, hs, ht]
  | getLogicalMemoryView op =>
    refine ⟨rfl, hm, hs, ht, ?_⟩
    intro x hx hres
    rcases List.mem_append.mp hx with hx | hx
    · exact hv x hx hres
    · obtain rfl := List.mem_singleton.mp hx
      exact absurd (by simpa [results] using hres.symm) ho
  | other name operands results =>
    refine ⟨?_, ?_, hs, ht, hv⟩
    · simp only [sem, Op.step, hm]
    · simp only [sem, Op.step, hm]
  | selectMemref op => exact ⟨rfl, hm, hs, ht, hv⟩
  | addi result lhs rhs => exact ⟨rfl, hm, hs, ht, hv⟩
  | subi result lhs rhs => exact ⟨rfl, hm, hs, ht, hv⟩
  | constantIndex result value => exact ⟨rfl, hm, hs, ht, hv⟩

/-- The end of an execution. -/
theorem InExecution.iterationDone {k : Nat} {s t : Machine μ}
    (h : InExecution select offset₀ offset₁ k s t) :
    InExecution select offset₀ offset₁ (k + 1) ((sem interp innermost).iterationDone innermost s)
      ((sem interp innermost).iterationDone innermost t) := by
  simp only [sem, if_true]
  exact ⟨h.memory, congrArg (· + 1) h.executions, congrArg (· + 1) h.executions', h.views⟩

/-- Code beside the select runs the same in both. -/
theorem keeps_inExecution {c : Code Op} (hops : ∀ o ∈ c.ops, select.result ∉ results o)
    (hloops : ∀ loop ∈ c.loops, loop.inductionVar ≠ innermost) (k : Nat) :
    Code.Keeps (sem interp innermost) (sem interp innermost)
      (InExecution select offset₀ offset₁ k) c where
  step o ho ws s t h := h.step interp innermost (hops o ho) ws
  iterationDone loop hl s t h := by
    simpa only [sem, if_neg (hloops loop hl)] using h

/-- The environments of the two runs around the select: both know the candidate views. -/
structure Around (interp : Interp μ) (view₀ view₁ : GetLogicalMemoryViewOp)
    (offset₀ offset₁ unit : Word) (Γ : List ValueId) (env env' : Env) : Prop where
  agree : AgreeOn Γ env env'
  scope : view₀.result ∈ Γ ∧ view₁.result ∈ Γ ∧ view₀.fromUnit ∈ Γ
  unit_eq : env view₀.fromUnit = unit
  first : env view₀.result = interp.view view₀.memrefType unit offset₀ view₀.layoutMap
  second : env view₁.result = interp.view view₀.memrefType unit offset₁ view₀.layoutMap

namespace Around

variable {Γ Δ : List ValueId} {env env' : Env}

theorem congr (h : Around interp view₀ view₁ offset₀ offset₁ unit Γ env env')
    (hmem : ∀ v, v ∈ Δ ↔ v ∈ Γ) {env'' : Env} (henv : AgreeOn Γ env' env'') :
    Around interp view₀ view₁ offset₀ offset₁ unit Δ env env'' where
  agree v hv := (h.agree v ((hmem v).mp hv)).trans (henv v ((hmem v).mp hv))
  scope := by simpa only [hmem] using h.scope
  unit_eq := h.unit_eq
  first := h.first
  second := h.second

/-- Environments that agree on more and keep what is in scope. -/
theorem extend (h : Around interp view₀ view₁ offset₀ offset₁ unit Γ env env')
    {next next' : Env} {vs : List ValueId} (hagree : AgreeOn (vs ++ Γ) next next')
    (hkeep : ∀ v ∈ Γ, next v = env v) :
    Around interp view₀ view₁ offset₀ offset₁ unit (vs ++ Γ) next next' := by
  obtain ⟨h₀, h₁, hu⟩ := h.scope
  refine ⟨hagree, ?_, ?_, ?_, ?_⟩
  · exact ⟨List.mem_append_right _ h₀, List.mem_append_right _ h₁, List.mem_append_right _ hu⟩
  · rw [hkeep _ hu]
    exact h.unit_eq
  · rw [hkeep _ h₀]
    exact h.first
  · rw [hkeep _ h₁]
    exact h.second

/-- Binding new values keeps the invariant. -/
theorem bind (h : Around interp view₀ view₁ offset₀ offset₁ unit Γ env env')
    (vs : List ValueId) (hvs : ∀ v ∈ vs, v ∉ Γ) (ws : List Word) :
    Around interp view₀ view₁ offset₀ offset₁ unit (vs ++ Γ) (env.bind vs ws)
      (env'.bind vs ws) :=
  h.extend (h.agree.bind vs ws) fun v hv => Env.bind_of_notMem fun hmem => hvs v hmem hv

end Around

/-- The environments in execution `k` of the innermost body: the offset is the one of the execution,
and so is the phase once its operation has run. -/
structure InBody (interp : Interp μ) (phase : BufferPhaseOp)
    (view₀ view₁ : GetLogicalMemoryViewOp) (offset : ValueId) (offset₀ offset₁ unit : Word)
    (k : Nat) (Γ : List ValueId) (env env' : Env) : Prop
    extends Around interp view₀ view₁ offset₀ offset₁ unit Γ env env' where
  offset_eq : env' offset = offsetAt offset₀ offset₁ k
  phase_eq : phase.result ∈ Γ → env phase.result = BitVec.ofNat 64 (k % 2)

namespace InBody

variable {k : Nat} {Γ Δ : List ValueId} {env env' : Env}

theorem congr (h : InBody interp phase view₀ view₁ offset offset₀ offset₁ unit k Γ env env')
    (hmem : ∀ v, v ∈ Δ ↔ v ∈ Γ) :
    InBody interp phase view₀ view₁ offset offset₀ offset₁ unit k Δ env env' where
  toAround := h.toAround.congr hmem fun _ _ => rfl
  offset_eq := h.offset_eq
  phase_eq hp := h.phase_eq ((hmem _).mp hp)

/-- Binding new values keeps the invariant, when the phase is bound to the one of the execution. -/
theorem bind (h : InBody interp phase view₀ view₁ offset offset₀ offset₁ unit k Γ env env')
    (vs : List ValueId) (hvs : ∀ v ∈ vs, v ∉ Γ) (hoff : offset ∉ vs) (ws : List Word)
    (hphase : phase.result ∈ vs → env.bind vs ws phase.result = BitVec.ofNat 64 (k % 2)) :
    InBody interp phase view₀ view₁ offset offset₀ offset₁ unit k (vs ++ Γ) (env.bind vs ws)
      (env'.bind vs ws) where
  toAround := h.toAround.bind vs hvs ws
  offset_eq := by
    rw [Env.bind_of_notMem hoff]
    exact h.offset_eq
  phase_eq := by
    intro hmem
    by_cases hp : phase.result ∈ vs
    · exact hphase hp
    · have hΓ := (List.mem_append.mp hmem).resolve_left hp
      rw [Env.bind_of_notMem hp]
      exact h.phase_eq hΓ

/-- A loop in the body starts its iterations with the invariant. -/
theorem enter (h : InBody interp phase view₀ view₁ offset offset₀ offset₁ unit k Γ env env')
    {loop : ForOp} (hops : ∀ v ∈ loop.operands, v ∈ Γ) (hargs : ∀ v ∈ loop.arguments, v ∉ Γ)
    (hoff : offset ∉ loop.arguments) (hphase : phase.result ∉ loop.arguments) (j : Nat)
    (args : List Word) :
    InBody interp phase view₀ view₁ offset offset₀ offset₁ unit k (loop.arguments ++ Γ)
      (loop.enter env j args) (loop.enter env' j args) := by
  have hword : loop.inductionWord env j = loop.inductionWord env' j :=
    h.agree.inductionWord_eq hops j
  unfold ForOp.enter
  rw [← hword]
  exact h.bind _ hargs hoff _ fun hp => absurd hp hphase

/-- The select and the view that replaces it bind the same word. -/
theorem select_eq (h : InBody interp phase view₀ view₁ offset offset₀ offset₁ unit k Γ env env')
    (hphase : phase.result ∈ Γ) :
    [env view₀.result, env view₁.result].getD (env phase.result).toNat 0 =
      interp.view view₀.memrefType (env' view₀.fromUnit) (env' offset) view₀.layoutMap := by
  rw [← h.agree _ h.scope.2.2, h.unit_eq, h.offset_eq, h.phase_eq hphase, h.first, h.second]
  unfold offsetAt
  rcases Nat.mod_two_eq_zero_or_one k with hk | hk
  · simp [hk]
  · simp [hk]

end InBody

/-- The view that takes the place of the select. -/
def phaseView (select : SelectMemrefOp) (view₀ : GetLogicalMemoryViewOp) (offset : ValueId) :
    GetLogicalMemoryViewOp :=
  { view₀ with result := select.result, startAddress := offset }

/-- Code of the innermost body: its only phase and select are the lowered ones. -/
structure BodyCode (innermost : ValueId) (phase : BufferPhaseOp) (select : SelectMemrefOp)
    (offset : ValueId) (c : Code Op) : Prop where
  phase_def : ∀ o ∈ c.ops, phase.result ∈ results o → o = .bufferPhase phase
  select_def : ∀ o ∈ c.ops, select.result ∈ results o → o = .selectMemref select
  headers : ∀ loop ∈ c.loops, loop.inductionVar ≠ innermost ∧
    phase.result ∉ loop.arguments ++ loop.results
  fresh : offset ∉ c.allDefs

namespace BodyCode

variable {body rest : Code Op}

theorem of_op {o : Op} (h : BodyCode innermost phase select offset (.op o rest)) :
    BodyCode innermost phase select offset rest where
  phase_def p hp := h.phase_def p (List.mem_cons_of_mem _ hp)
  select_def p hp := h.select_def p (List.mem_cons_of_mem _ hp)
  headers := h.headers
  fresh hf := h.fresh (List.mem_append_right _ hf)

theorem of_scfFor {loop : ForOp}
    (h : BodyCode innermost phase select offset (.scfFor loop body rest)) :
    BodyCode innermost phase select offset body ∧ BodyCode innermost phase select offset rest := by
  constructor
  · exact ⟨fun p hp => h.phase_def p (List.mem_append_left _ hp),
      fun p hp => h.select_def p (List.mem_append_left _ hp),
      fun l hl => h.headers l (List.mem_cons_of_mem _ (List.mem_append_left _ hl)),
      fun hf => h.fresh (by simp [Code.allDefs, hf])⟩
  · exact ⟨fun p hp => h.phase_def p (List.mem_append_right _ hp),
      fun p hp => h.select_def p (List.mem_append_right _ hp),
      fun l hl => h.headers l (List.mem_cons_of_mem _ (List.mem_append_right _ hl)),
      fun hf => h.fresh (by simp [Code.allDefs, hf])⟩

theorem of_scfIf {cond : ValueId}
    (h : BodyCode innermost phase select offset (.scfIf cond body rest)) :
    BodyCode innermost phase select offset body ∧ BodyCode innermost phase select offset rest := by
  constructor
  · exact ⟨fun p hp => h.phase_def p (List.mem_append_left _ hp),
      fun p hp => h.select_def p (List.mem_append_left _ hp),
      fun l hl => h.headers l (List.mem_append_left _ hl),
      fun hf => h.fresh (List.mem_append_left _ hf)⟩
  · exact ⟨fun p hp => h.phase_def p (List.mem_append_right _ hp),
      fun p hp => h.select_def p (List.mem_append_right _ hp),
      fun l hl => h.headers l (List.mem_append_right _ hl),
      fun hf => h.fresh (List.mem_append_right _ hf)⟩

end BodyCode

/-- The view taken in place of the select is recorded with the start address of the execution. -/
theorem InExecution.phaseView {k : Nat} {s t : Machine μ} {env env' : Env} {Γ : List ValueId}
    (h : InExecution select offset₀ offset₁ k s t)
    (hinv : InBody interp phase view₀ view₁ offset offset₀ offset₁ unit k Γ env env') :
    InExecution select offset₀ offset₁ k s
      { t with views := t.views ++ [(select.result, t.executions, env' offset)] } := by
  refine ⟨h.memory, h.executions, h.executions', ?_⟩
  intro x hx hres
  rcases List.mem_append.mp hx with hx | hx
  · exact h.views x hx hres
  · obtain rfl := List.mem_singleton.mp hx
    rw [hinv.offset_eq, h.executions']

/-- **The innermost body.** In execution `k` the view binds what the select binds, and everything
else runs the same. -/
theorem exec_replaceSelect (hphases : phase.numPhases = some 2)
    (hselect : select.phase = phase.result)
    (hcandidates : select.candidates = [view₀.result, view₁.result])
    (hne : select.result ≠ phase.result) {k : Nat}
    {c : Code Op} {Γ : List ValueId} {env env' : Env} {s t : Machine μ} (hc : c.Scoped Γ)
    (hbody : BodyCode innermost phase select offset c)
    (hinv : InBody interp phase view₀ view₁ offset offset₀ offset₁ unit k Γ env env')
    (hst : InExecution select offset₀ offset₁ k s t) :
    InBody interp phase view₀ view₁ offset offset₀ offset₁ unit k (c.defs ++ Γ)
        (c.exec (sem interp innermost) env s).1
        ((c.mapOps (replaceSelect select (phaseView select view₀ offset))).exec
          (sem interp innermost) env' t).1 ∧
      InExecution select offset₀ offset₁ k (c.exec (sem interp innermost) env s).2
        ((c.mapOps (replaceSelect select (phaseView select view₀ offset))).exec
          (sem interp innermost) env' t).2 := by
  induction c generalizing Γ env env' s t with
  | nil => exact ⟨hinv, hst⟩
  | op o rest ih =>
    obtain ⟨hops, hres, hrest⟩ := hc
    have hoff : offset ∉ results o := fun h => hbody.fresh (List.mem_append_left _ h)
    have hmem : ∀ v, v ∈ (Code.op o rest).defs ++ Γ ↔ v ∈ rest.defs ++ (results o ++ Γ) := by
      intro v
      simp only [Code.defs, List.mem_append]
      tauto
    rw [Code.exec_op, Code.mapOps, Code.exec_op]
    by_cases ho : o = .selectMemref select
    · subst ho
      have hp : phase.result ∈ Γ := hops _ (by simp [operands, hselect])
      have hview : replaceSelect select (phaseView select view₀ offset) (.selectMemref select) =
          .getLogicalMemoryView (phaseView select view₀ offset) := if_pos rfl
      have hfrom : (sem interp innermost).step (.selectMemref select)
          ((operands (Op.selectMemref select)).map env) s =
          ([interp.view view₀.memrefType (env' view₀.fromUnit) (env' offset) view₀.layoutMap], s) := by
        rw [← hinv.select_eq hp]
        simp [sem, Op.step, operands, hselect, hcandidates]
      have hto : (sem interp innermost).step (.getLogicalMemoryView (phaseView select view₀ offset))
          ((operands (Op.getLogicalMemoryView (phaseView select view₀ offset))).map env') t =
          ([interp.view view₀.memrefType (env' view₀.fromUnit) (env' offset) view₀.layoutMap],
            { t with views := t.views ++ [(select.result, t.executions, env' offset)] }) := rfl
      rw [hview, hfrom, hto]
      have hbind := hinv.bind [select.result] hres hoff
        [interp.view view₀.memrefType (env' view₀.fromUnit) (env' offset) view₀.layoutMap]
        fun h => absurd (List.mem_singleton.mp h).symm hne
      obtain ⟨hinv', hst'⟩ := ih hrest hbody.of_op hbind (hst.phaseView hinv)
      exact ⟨hinv'.congr hmem, hst'⟩
    · have hsel : select.result ∉ results o :=
        fun h => ho (hbody.select_def o (by simp [Code.ops]) h)
      have hkeep : replaceSelect select (phaseView select view₀ offset) o = o := if_neg ho
      obtain ⟨hword, hst'⟩ :=
        hst.step interp innermost hsel ((operands o).map env)
      have hbind := hinv.bind (results o) hres hoff
        ((sem interp innermost).step o ((operands o).map env) s).1 fun hp => by
          obtain rfl := hbody.phase_def o (by simp [Code.ops]) hp
          simp [sem, Op.step, results, hphases, hst.executions]
      obtain ⟨hinv', hst'⟩ := ih hrest hbody.of_op hbind hst'
      rw [hkeep, ← hinv.agree.map_eq hops, ← hword]
      exact ⟨hinv'.congr hmem, hst'⟩
  | scfFor loop body rest ihb ih =>
    obtain ⟨hbal, hops, hnew, hscope, hyields, hrest⟩ := hc
    obtain ⟨hiv, hphase⟩ := hbody.headers loop (by simp [Code.loops])
    have hfresh := hbody.fresh
    simp only [Code.allDefs, List.mem_append, not_or] at hnew hphase hfresh
    have hinits : loop.inits.map env = loop.inits.map env' :=
      hinv.agree.map_eq fun v hv => hops v (by simp [ForOp.operands, hv])
    have hmem : ∀ v, v ∈ (Code.scfFor loop body rest).defs ++ Γ ↔
        v ∈ rest.defs ++ (loop.results ++ Γ) := by
      intro v
      simp only [Code.defs, List.mem_append]
      tauto
    rw [Code.exec_scfFor, Code.mapOps, Code.exec_scfFor]
    obtain ⟨hw, hst'⟩ : (loop.run env (sem interp innermost)
            (body.exec (sem interp innermost)) s).1 =
          (loop.run env' (sem interp innermost)
            ((body.mapOps (replaceSelect select (phaseView select view₀ offset))).exec
              (sem interp innermost)) t).1 ∧
        InExecution select offset₀ offset₁ k (loop.run env (sem interp innermost)
            (body.exec (sem interp innermost)) s).2
          (loop.run env' (sem interp innermost)
            ((body.mapOps (replaceSelect select (phaseView select view₀ offset))).exec
              (sem interp innermost)) t).2 := by
      refine ForOp.run_rel
        (fun a b => a.1 = b.1 ∧ InExecution select offset₀ offset₁ k a.2 b.2)
        (hinv.agree.count_eq hops) ⟨hinits, hst⟩ ?_
      rintro j a b ⟨hargs, hab⟩
      have henter := hinv.enter hops (fun v hv => hnew v (.inl hv)) hfresh.1.1.1 hphase.1 j a.1
      obtain ⟨hinv', hst'⟩ := ihb hscope hbody.of_scfFor.1 henter hab
      unfold ForOp.iteration
      rw [← hargs]
      refine ⟨hinv'.agree.map_eq hyields, ?_⟩
      simpa only [sem, if_neg hiv] using hst'
    have hbind := hinv.bind loop.results (fun v hv => hnew v (.inr hv)) hfresh.1.1.2
      (loop.run env (sem interp innermost) (body.exec (sem interp innermost)) s).1
      fun hp => absurd hp hphase.2
    obtain ⟨hinv', hst'⟩ := ih hrest hbody.of_scfFor.2 hbind hst'
    rw [← hw]
    exact ⟨hinv'.congr hmem, hst'⟩
  | scfIf cond body rest ihb ih =>
    obtain ⟨hcond, hscope, hrest⟩ := hc
    rw [Code.exec_scfIf, Code.mapOps, Code.exec_scfIf, ← hinv.agree cond hcond]
    apply ih hrest hbody.of_scfIf.2 hinv
    split
    · exact (ihb hscope hbody.of_scfIf.1 hinv hst).2
    · exact hst

end Execution

/-! ## The chain of loops -/

section Chain

variable {phase : BufferPhaseOp} {select : SelectMemrefOp} {view₀ view₁ : GetLogicalMemoryViewOp}
variable {offset₀ offset₁ unit : Word} {mode : DoubleBufferingMode} {offsetSum : ValueId}

/-- The loops `ivs`, each with its body, each standing directly in the body of the one before. -/
def chainLoops : List ValueId → Code Op → Option (List (ForOp × Code Op))
  | iv :: ivs, .scfFor loop body rest =>
      if loop.inductionVar = iv then
        if ivs = [] then some [(loop, body)]
        else (chainLoops ivs body).map fun chain => (loop, body) :: chain
      else chainLoops (iv :: ivs) rest
  | iv :: ivs, .op _ rest => chainLoops (iv :: ivs) rest
  | iv :: ivs, .scfIf _ _ rest => chainLoops (iv :: ivs) rest
  | _, _ => none

/-- Every loop yields only its arguments and what its body binds. -/
def YieldsInside (chain : List (ForOp × Code Op)) : Prop :=
  ∀ x ∈ chain, ∀ v ∈ x.1.yields, v ∈ x.1.arguments ++ x.2.defs

instance (chain : List (ForOp × Code Op)) : Decidable (YieldsInside chain) :=
  inferInstanceAs (Decidable (∀ _ ∈ _, _))

/-- Code beside the loops of the chain has nothing to do with the phase. -/
def Beside (innermost : ValueId) (phase : BufferPhaseOp) (select : SelectMemrefOp) (c : Code Op) :
    Prop :=
  innermost ∉ c.allDefs ∧ phase.result ∉ c.allDefs ∧ select.result ∉ c.allDefs

/-- Where the loops of the chain and the phase stand: code beside them, one loop in the other, and
in the innermost body the phase and its select. -/
inductive ChainSite (innermost : ValueId) (phase : BufferPhaseOp) (select : SelectMemrefOp) :
    List ValueId → Code Op → Prop
  | besideOp {ivs o rest} (beside : Beside innermost phase select (.op o .nil))
      (site : ChainSite innermost phase select ivs rest) :
      ChainSite innermost phase select ivs (.op o rest)
  | besideFor {iv ivs loop body rest} (ne : loop.inductionVar ≠ iv)
      (beside : Beside innermost phase select (.scfFor loop body .nil))
      (site : ChainSite innermost phase select (iv :: ivs) rest) :
      ChainSite innermost phase select (iv :: ivs) (.scfFor loop body rest)
  | besideIf {ivs cond body rest} (beside : Beside innermost phase select (.scfIf cond body .nil))
      (site : ChainSite innermost phase select ivs rest) :
      ChainSite innermost phase select ivs (.scfIf cond body rest)
  | innermost {loop body rest} (iv : loop.inductionVar = innermost)
      (header : phase.result ∉ loop.arguments ++ loop.results)
      (phase_def : ∀ o ∈ body.ops, phase.result ∈ results o → o = .bufferPhase phase)
      (select_def : ∀ o ∈ body.ops, select.result ∈ results o → o = .selectMemref select)
      (headers : ∀ loop ∈ body.loops, loop.inductionVar ≠ innermost ∧
        phase.result ∉ loop.arguments ++ loop.results)
      (beside : Beside innermost phase select rest) :
      ChainSite innermost phase select [innermost] (.scfFor loop body rest)
  | outer {iv iv' ivs loop body rest} (iv_eq : loop.inductionVar = iv) (ne : iv ≠ innermost)
      (header : phase.result ∉ loop.arguments ++ loop.results)
      (site : ChainSite innermost phase select (iv' :: ivs) body)
      (beside : Beside innermost phase select rest) :
      ChainSite innermost phase select (iv :: iv' :: ivs) (.scfFor loop body rest)

theorem ChainSite.exists_cons {ivs : List ValueId} {c : Code Op}
    (h : ChainSite innermost phase select ivs c) : ∃ iv ivs', ivs = iv :: ivs' := by
  induction h with
  | besideOp beside site ih => exact ih
  | besideIf beside site ih => exact ih
  | besideFor | innermost | outer => exact ⟨_, _, rfl⟩

/-- The loops of a chain are bound where they stand. -/
theorem mem_allDefs_of_chainLoops {ivs : List ValueId} {c : Code Op}
    {chain : List (ForOp × Code Op)} (h : chainLoops ivs c = some chain) :
    ∀ iv ∈ ivs, iv ∈ c.allDefs := by
  induction ivs, c using chainLoops.induct generalizing chain with
  | case1 loop body rest =>
    simp [Code.allDefs, ForOp.arguments]
  | case2 ivs loop body rest hne ih =>
    simp only [chainLoops, if_true, if_neg hne, Option.map_eq_some_iff] at h
    obtain ⟨chain', h, -⟩ := h
    intro iv hiv
    rcases List.mem_cons.mp hiv with rfl | hiv
    · simp [Code.allDefs, ForOp.arguments]
    · simp [Code.allDefs, ih h iv hiv]
  | case3 iv ivs loop body rest hne ih =>
    rw [chainLoops, if_neg hne] at h
    intro v hv
    exact List.mem_append_right _ (ih h v hv)
  | case4 iv ivs o rest ih =>
    intro v hv
    exact List.mem_append_right _ (ih h v hv)
  | case5 iv ivs cond body rest ih =>
    intro v hv
    exact List.mem_append_right _ (ih h v hv)
  | case6 c ivs hfor hop hif =>
    rw [chainLoops] at h
    · cases h
    all_goals assumption

/-- Code `a` that does not see the innermost loop has no part in the phase. -/
theorem beside_of_notMem {a b : Code Op} {Γ : List ValueId} (ha : a.Scoped Γ)
    (hiv : innermost ∈ phase.ivs) (hsel : select.phase = phase.result)
    (hdisj : ∀ v ∈ b.allDefs, v ∉ Γ ∧ v ∉ a.allDefs)
    (hinner : innermost ∉ Γ ∧ innermost ∉ a.allDefs)
    (hphase : .bufferPhase phase ∈ a.ops ∨ .bufferPhase phase ∈ b.ops)
    (hselect : .selectMemref select ∈ a.ops ∨ .selectMemref select ∈ b.ops) :
    .bufferPhase phase ∈ b.ops ∧ .selectMemref select ∈ b.ops ∧
      Beside innermost phase select a := by
  have hphase : .bufferPhase phase ∈ b.ops := by
    refine hphase.resolve_left fun h => ?_
    exact (Code.operand_mem ha h hiv).elim hinner.1 hinner.2
  have hresult := hdisj _ (Code.mem_allDefs_of_result hphase (v := phase.result) (by simp [results]))
  have hselect : .selectMemref select ∈ b.ops := by
    refine hselect.resolve_left fun h => ?_
    have hread : phase.result ∈ operands (Op.selectMemref select) := by simp [operands, hsel]
    exact (Code.operand_mem ha h hread).elim hresult.1 hresult.2
  have hview := hdisj _ (Code.mem_allDefs_of_result hselect (v := select.result) (by simp [results]))
  exact ⟨hphase, hselect, hinner.2, hresult.2, hview.2⟩

/-- **The site of a phase.** In single-assignment code the phase and its select stand in the body of
the innermost loop that the phase names. -/
theorem chainSite {ivs : List ValueId} {c : Code Op} {chain : List (ForOp × Code Op)}
    {Γ : List ValueId} (hchain : chainLoops ivs c = some chain)
    (hlast : ivs.getLast? = some innermost) (hiv : innermost ∈ phase.ivs)
    (hsel : select.phase = phase.result) (hc : c.SingleAssignment Γ)
    (hphase : .bufferPhase phase ∈ c.ops) (hselect : .selectMemref select ∈ c.ops) :
    ChainSite innermost phase select ivs c := by
  induction ivs, c using chainLoops.induct generalizing Γ chain with
  | case1 loop body rest =>
    obtain rfl : loop.inductionVar = innermost := by simpa using hlast
    obtain ⟨hbody, -, hrest, -, hafter, hheader⟩ := hc.of_scfFor
    have hinner : loop.inductionVar ∈ loop.arguments := by simp [ForOp.arguments]
    -- neither stands behind the loop, which binds what they read
    obtain ⟨hp, hs, hbeside⟩ := beside_of_notMem hrest.inScope hiv hsel
      (fun v hv => hafter v (List.mem_append_right _ hv))
      (hafter _ (List.mem_append_left _ hinner)) (List.mem_append.mp hphase).symm
      (List.mem_append.mp hselect).symm
    have hresult : phase.result ∈ body.allDefs := Code.mem_allDefs_of_result hp (by simp [results])
    refine .innermost rfl (fun h => hheader _ h hresult) ?_ ?_ ?_ hbeside
    · intro o ho h
      exact Code.op_unique hbody.nodup ho hp h (by simp [results])
    · intro o ho h
      exact Code.op_unique hbody.nodup ho hs h (by simp [results])
    · intro l hl
      refine ⟨fun h => ?_, Code.header_ne_result hbody.nodup hp hl (by simp [results])⟩
      have hl' := Code.mem_allDefs_of_header hl (v := l.inductionVar) (by simp [ForOp.arguments])
      exact hheader _ (List.mem_append_left _ hinner) (h ▸ hl')
  | case2 ivs loop body rest hne ih =>
    simp only [chainLoops, if_true, if_neg hne, Option.map_eq_some_iff] at hchain
    obtain ⟨chain', hchain, -⟩ := hchain
    obtain ⟨iv', ivs, rfl⟩ := List.exists_cons_of_ne_nil hne
    rw [List.getLast?_cons_cons] at hlast
    have hinner := mem_allDefs_of_chainLoops hchain _ (List.mem_of_getLast? hlast)
    obtain ⟨hbody, -, hrest, -, hafter, hheader⟩ := hc.of_scfFor
    obtain ⟨hp, hs, hbeside⟩ := beside_of_notMem hrest.inScope hiv hsel
      (fun v hv => hafter v (List.mem_append_right _ hv))
      (hafter _ (List.mem_append_right _ hinner)) (List.mem_append.mp hphase).symm
      (List.mem_append.mp hselect).symm
    have hresult : phase.result ∈ body.allDefs := Code.mem_allDefs_of_result hp (by simp [results])
    refine .outer rfl (fun h => ?_) (fun h => hheader _ h hresult)
      (ih hchain hlast hbody hp hs) hbeside
    exact hheader loop.inductionVar (by simp [ForOp.arguments]) (h ▸ hinner)
  | case3 iv ivs loop body rest hne ih =>
    rw [chainLoops, if_neg hne] at hchain
    obtain ⟨-, hhead, hrest, hdisj, -, -⟩ := hc.of_scfFor
    have hbound := mem_allDefs_of_chainLoops hchain _ (List.mem_of_getLast? hlast)
    obtain ⟨hp, hs, hbeside⟩ := beside_of_notMem hhead hiv hsel hdisj (hdisj _ hbound)
      (by simpa [Code.ops] using hphase) (by simpa [Code.ops] using hselect)
    exact .besideFor hne hbeside (ih hchain hlast hrest hp hs)
  | case4 iv ivs o rest ih =>
    obtain ⟨hhead, hrest, hdisj⟩ := hc.of_op
    have hbound := mem_allDefs_of_chainLoops (c := rest) hchain _ (List.mem_of_getLast? hlast)
    obtain ⟨hp, hs, hbeside⟩ := beside_of_notMem hhead hiv hsel hdisj (hdisj _ hbound)
      (by simpa [Code.ops] using hphase) (by simpa [Code.ops] using hselect)
    exact .besideOp hbeside (ih hchain hlast hrest hp hs)
  | case5 iv ivs cond body rest ih =>
    obtain ⟨hhead, hrest, hdisj⟩ := hc.of_scfIf
    have hbound := mem_allDefs_of_chainLoops (c := rest) hchain _ (List.mem_of_getLast? hlast)
    obtain ⟨hp, hs, hbeside⟩ := beside_of_notMem hhead hiv hsel hdisj (hdisj _ hbound)
      (by simpa [Code.ops] using hphase) (by simpa [Code.ops] using hselect)
    exact .besideIf hbeside (ih hchain hlast hrest hp hs)
  | case6 c ivs hfor hop hif =>
    rw [chainLoops] at hchain
    · cases hchain
    all_goals assumption

theorem Beside.mapOps {c : Code Op} (h : Beside innermost phase select c)
    (view : GetLogicalMemoryViewOp) : c.mapOps (replaceSelect select view) = c := by
  apply Code.mapOps_eq_self
  intro o ho
  apply if_neg
  rintro rfl
  exact h.2.2 (Code.mem_allDefs_of_result ho (by simp [results]))

/-- Code beside the chain runs the same, in whichever execution. -/
theorem Beside.exec {c : Code Op} (h : Beside innermost phase select c) {Γ : List ValueId}
    (hc : c.Scoped Γ) {env env' : Env}
    (henv : Around interp view₀ view₁ offset₀ offset₁ unit Γ env env') {k : Nat} {s t : Machine μ}
    (hst : InExecution select offset₀ offset₁ k s t) :
    Around interp view₀ view₁ offset₀ offset₁ unit (c.defs ++ Γ)
        (c.exec (sem interp innermost) env s).1 (c.exec (sem interp innermost) env' t).1 ∧
      InExecution select offset₀ offset₁ k (c.exec (sem interp innermost) env s).2
        (c.exec (sem interp innermost) env' t).2 := by
  have hops : ∀ o ∈ c.ops, select.result ∉ results o :=
    fun o ho hr => h.2.2 (Code.mem_allDefs_of_result ho hr)
  have hloops : ∀ loop ∈ c.loops, loop.inductionVar ≠ innermost := by
    rintro loop hl rfl
    exact h.1 (Code.mem_allDefs_of_header hl (by simp [ForOp.arguments]))
  obtain ⟨hagree, hst'⟩ := Code.exec_rel (keeps_inExecution hops hloops k) hc henv.agree hst
  exact ⟨henv.extend hagree fun v hv => Code.exec_of_notMem_defs (Code.notMem_defs hc hv) s, hst'⟩

/-- The header of a clone: its argument `arg` starts at `init` and continues as `yield`. -/
def withArgument (loop : ForOp) (init arg yield result : ValueId) : ForOp :=
  { loop with
    inits := loop.inits ++ [init]
    regionIterArgs := loop.regionIterArgs ++ [arg]
    yields := loop.yields ++ [yield]
    results := loop.results ++ [result] }

/-- **One loop of the chain.** If every iteration moves the additional argument on by the executions
in it, so does the loop. -/
theorem run_withArgument {loop : ForOp} (init arg yield result : ValueId) {body body' : Code Op}
    {Γ : List ValueId} {env env' : Env} {n : Nat} {s t : Machine μ} (hbal : loop.Balanced)
    (hops : ∀ v ∈ loop.operands, v ∈ Γ) (hargs : ∀ v ∈ loop.arguments, v ∉ Γ)
    (hyields : ∀ v ∈ loop.yields, v ∈ body.defs ++ (loop.arguments ++ Γ))
    (harg : arg ∉ loop.arguments ++ Γ) (hsum : offsetSum ∉ loop.arguments ++ [arg])
    (henv : Around interp view₀ view₁ offset₀ offset₁ unit Γ env env')
    (hoffset : env' offsetSum = offset₀ + offset₁)
    (hinit : env' init = argumentAt mode offset₀ offset₁ n)
    (hst : InExecution select offset₀ offset₁ n s t)
    (iter : ∀ k e e' s t,
      Around interp view₀ view₁ offset₀ offset₁ unit (loop.arguments ++ Γ) e e' →
      e' offsetSum = offset₀ + offset₁ → e' arg = argumentAt mode offset₀ offset₁ k →
      InExecution select offset₀ offset₁ k s t →
      AgreeOn (body.defs ++ (loop.arguments ++ Γ)) (body.exec (sem interp innermost) e s).1
          (body'.exec (sem interp innermost) e' t).1 ∧
        ∃ m, (body'.exec (sem interp innermost) e' t).1 yield =
            argumentAt mode offset₀ offset₁ m ∧
          InExecution select offset₀ offset₁ m
            ((sem interp innermost).iterationDone loop.inductionVar
              (body.exec (sem interp innermost) e s).2)
            ((sem interp innermost).iterationDone loop.inductionVar
              (body'.exec (sem interp innermost) e' t).2)) :
    ∃ m, ((withArgument loop init arg yield result).run env' (sem interp innermost)
          (body'.exec (sem interp innermost)) t).1 =
        (loop.run env (sem interp innermost) (body.exec (sem interp innermost)) s).1 ++
          [argumentAt mode offset₀ offset₁ m] ∧
      (loop.run env (sem interp innermost) (body.exec (sem interp innermost)) s).1.length =
        loop.results.length ∧
      InExecution select offset₀ offset₁ m
        (loop.run env (sem interp innermost) (body.exec (sem interp innermost)) s).2
        ((withArgument loop init arg yield result).run env' (sem interp innermost)
          (body'.exec (sem interp innermost)) t).2 := by
  have hcount : loop.count env = (withArgument loop init arg yield result).count env' :=
    henv.agree.count_eq hops
  refine ForOp.run_rel (fun a b => ∃ m, b.1 = a.1 ++ [argumentAt mode offset₀ offset₁ m] ∧
    a.1.length = loop.results.length ∧ InExecution select offset₀ offset₁ m a.2 b.2) hcount
    ⟨n, ?_, ?_, hst⟩ ?_
  · show (loop.inits ++ [init]).map env' = _
    rw [List.map_append, henv.agree.map_eq fun v hv => hops v (by simp [ForOp.operands, hv])]
    simp [hinit]
  · simp [hbal.inits, hbal.results]
  · rintro k a b ⟨m, hb, hlen, hab⟩
    have hword := henv.agree.inductionWord_eq hops k
    have henter : (withArgument loop init arg yield result).enter env' k b.1 =
        Function.update (loop.enter env' k a.1) arg (argumentAt mode offset₀ offset₁ m) := by
      rw [hb]
      show Env.bind env' (loop.arguments ++ [arg])
        ((loop.inductionWord env' k :: a.1) ++ [argumentAt mode offset₀ offset₁ m]) = _
      rw [Env.bind_append (by simp [ForOp.arguments, hlen, hbal.results])]
      rfl
    have hother : ∀ v, v ≠ arg → (withArgument loop init arg yield result).enter env' k b.1 v =
        loop.enter env' k a.1 v := by
      intro v hv
      rw [henter, Function.update_of_ne hv]
    have haround : Around interp view₀ view₁ offset₀ offset₁ unit (loop.arguments ++ Γ)
        (loop.enter env k a.1) ((withArgument loop init arg yield result).enter env' k b.1) := by
      have hbind := henv.bind loop.arguments hargs (loop.inductionWord env k :: a.1)
      apply hbind.congr fun v => Iff.rfl
      intro v hv
      rw [hother v fun h => harg (h ▸ hv), hword]
      rfl
    have hsum' : (withArgument loop init arg yield result).enter env' k b.1 offsetSum =
        offset₀ + offset₁ := by
      rw [List.mem_append, not_or, List.mem_singleton] at hsum
      rw [hother _ hsum.2, ← hoffset]
      exact Env.bind_of_notMem hsum.1
    obtain ⟨hagree, m', hy, hst'⟩ := iter m _ _ a.2 b.2 haround hsum'
      (by rw [henter, Function.update_self]) hab
    refine ⟨m', ?_, ?_, hst'⟩
    · show (loop.yields ++ [yield]).map _ = _
      rw [List.map_append, ← hagree.map_eq hyields]
      exact congrArg (fun w => _ ++ [w]) hy
    · simp [ForOp.iteration, hbal.yields, hbal.results]

theorem clone_nil (next init : ValueId) (c : Code Op) :
    cloneLoopChainWithDoubleBufferingIterArgs offsetSum mode next init [] c = none := by
  cases c <;> rfl

theorem clone_op (next init : ValueId) (ivs : List ValueId) (o : Op) (rest : Code Op) :
    cloneLoopChainWithDoubleBufferingIterArgs offsetSum mode next init ivs (.op o rest) =
      (cloneLoopChainWithDoubleBufferingIterArgs offsetSum mode next init ivs rest).map (.op o) := by
  cases ivs with
  | nil => rw [clone_nil, clone_nil, Option.map_none]
  | cons iv ivs => rfl

theorem clone_scfIf (next init : ValueId) (ivs : List ValueId) (cond : ValueId)
    (body rest : Code Op) :
    cloneLoopChainWithDoubleBufferingIterArgs offsetSum mode next init ivs (.scfIf cond body rest) =
      (cloneLoopChainWithDoubleBufferingIterArgs offsetSum mode next init ivs rest).map
        (.scfIf cond body) := by
  cases ivs with
  | nil => rw [clone_nil, clone_nil, Option.map_none]
  | cons iv ivs => rfl

/-- A loop is cloned when it yields nothing from outside. -/
theorem cloneLoop_eq_some {next init yield : ValueId} {loop : ForOp} {body body' rest c : Code Op} :
    cloneLoop next init yield loop body body' rest = some c ↔
      (∀ v ∈ loop.yields, v ∈ loop.arguments ++ body.defs) ∧
        c = .op (.constantIndex next 0)
          (.scfFor (withArgument loop init (next + 1) yield (next + 2)) body' rest) := by
  unfold cloneLoop createForOpWithAdditionalIterArgs
  split
  next h =>
    rw [Option.map_some, Option.some.injEq]
    constructor
    · rintro rfl
      exact ⟨h, by simp [setBack, withArgument]⟩
    · rintro ⟨-, rfl⟩
      simp [setBack, withArgument]
  next h =>
    simp only [Option.map_none, reduceCtorEq, false_iff]
    exact fun hc => h hc.1

/-- Code `c'` runs as `c` does, moving the additional argument on from `init` to `next + 2`. -/
def Follows (interp : Interp μ) (innermost : ValueId) (phase : BufferPhaseOp)
    (select : SelectMemrefOp) (view₀ view₁ : GetLogicalMemoryViewOp) (offset₀ offset₁ unit : Word)
    (mode : DoubleBufferingMode) (offsetSum next init : ValueId) (c c' : Code Op) : Prop :=
  ∀ (Γ : List ValueId) (env env' : Env) (n : Nat) (s t : Machine μ), c.Scoped Γ →
    (∀ v ∈ Γ ++ c.allDefs, v < next) → phase.result ∉ Γ → offsetSum ∉ c.allDefs →
    init ∉ c.allDefs →
    Around interp view₀ view₁ offset₀ offset₁ unit Γ env env' →
    env' offsetSum = offset₀ + offset₁ → env' init = argumentAt mode offset₀ offset₁ n →
    InExecution select offset₀ offset₁ n s t →
    ∃ m, Around interp view₀ view₁ offset₀ offset₁ unit (c.defs ++ Γ)
        (c.exec (sem interp innermost) env s).1 (c'.exec (sem interp innermost) env' t).1 ∧
      InExecution select offset₀ offset₁ m (c.exec (sem interp innermost) env s).2
        (c'.exec (sem interp innermost) env' t).2 ∧
      (c'.exec (sem interp innermost) env' t).1 (next + 2) = argumentAt mode offset₀ offset₁ m

/-- Code beside the chain in front. -/
theorem Follows.beside {next init : ValueId} {d c c' : Code Op}
    (hd : Beside innermost phase select d)
    (hscoped : ∀ Γ, (d.append c).Scoped Γ → d.Scoped Γ ∧ c.Scoped (d.defs ++ Γ))
    (h : Follows interp innermost phase select view₀ view₁ offset₀ offset₁ unit mode offsetSum next init
      c c') (view : GetLogicalMemoryViewOp) :
    Follows interp innermost phase select view₀ view₁ offset₀ offset₁ unit mode offsetSum next init
      (d.append c) ((d.mapOps (replaceSelect select view)).append c') := by
  rw [hd.mapOps view]
  intro Γ env env' n s t hc hnext hphase hsum hinit henv hoffset harg hst
  rw [Code.allDefs_append, List.mem_append, not_or] at hsum hinit
  obtain ⟨hdΓ, hcΓ⟩ := hscoped Γ hc
  obtain ⟨henv', hst'⟩ := hd.exec hdΓ henv hst
  have hkeep : ∀ v, v ∉ d.allDefs → (d.exec (sem interp innermost) env' t).1 v = env' v :=
    fun v hv => Code.exec_of_notMem_defs (fun h => hv (Code.mem_allDefs_of_mem_defs h)) t
  have hnext' : ∀ v ∈ (d.defs ++ Γ) ++ c.allDefs, v < next := by
    intro v hv
    apply hnext v
    simp only [Code.allDefs_append, List.mem_append] at hv ⊢
    rcases hv with (hv | hv) | hv
    · exact .inr (.inl (Code.mem_allDefs_of_mem_defs hv))
    · exact .inl hv
    · exact .inr (.inr hv)
  have hphase' : phase.result ∉ d.defs ++ Γ := by
    rw [List.mem_append, not_or]
    exact ⟨fun h => hd.2.1 (Code.mem_allDefs_of_mem_defs h), hphase⟩
  obtain ⟨m, henv'', hst'', harg'⟩ := h _ _ _ n _ _ hcΓ hnext' hphase' hsum.2 hinit.2 henv'
    ((hkeep _ hsum.1).trans hoffset) ((hkeep _ hinit.1).trans harg) hst'
  rw [Code.exec_append, Code.exec_append]
  refine ⟨m, henv''.congr (fun v => ?_) fun _ _ => rfl, hst'', harg'⟩
  simp only [Code.defs_append, List.mem_append]
  tauto

/-- **A cloned loop.** When every iteration moves the argument on, the clone and the code behind it
do. -/
theorem Follows.clone {next init yield : ValueId} {loop : ForOp} {body body' rest : Code Op}
    (hinit : init < next) (hsum : offsetSum < next)
    (hheader : phase.result ∉ loop.arguments ++ loop.results)
    (hrest : Beside innermost phase select rest)
    (iter : ∀ Γ k e e' s t, body.Scoped (loop.arguments ++ Γ) →
      (∀ v ∈ Γ ++ (loop.arguments ++ loop.results ++ body.allDefs), v < next) →
      phase.result ∉ loop.arguments ++ Γ → offsetSum ∉ body.allDefs →
      Around interp view₀ view₁ offset₀ offset₁ unit (loop.arguments ++ Γ) e e' →
      e' offsetSum = offset₀ + offset₁ → e' (next + 1) = argumentAt mode offset₀ offset₁ k →
      InExecution select offset₀ offset₁ k s t →
      AgreeOn (body.defs ++ (loop.arguments ++ Γ)) (body.exec (sem interp innermost) e s).1
          (body'.exec (sem interp innermost) e' t).1 ∧
        ∃ m, (body'.exec (sem interp innermost) e' t).1 yield =
            argumentAt mode offset₀ offset₁ m ∧
          InExecution select offset₀ offset₁ m
            ((sem interp innermost).iterationDone loop.inductionVar
              (body.exec (sem interp innermost) e s).2)
            ((sem interp innermost).iterationDone loop.inductionVar
              (body'.exec (sem interp innermost) e' t).2)) :
    Follows interp innermost phase select view₀ view₁ offset₀ offset₁ unit mode offsetSum next init
      (.scfFor loop body rest)
      (.op (.constantIndex next 0)
        (.scfFor (withArgument loop init (next + 1) yield (next + 2)) body' rest)) := by
  intro Γ env env' n s t hc hnext hphase hsum' hinit' henv hoffset harg hst
  obtain ⟨hbal, hops, hnew, hbody, hyields, hrestΓ⟩ := hc
  simp only [Code.allDefs, List.mem_append, not_or] at hsum' hinit' hnew
  have hlt : ∀ v, v ∈ Γ ∨ v ∈ loop.arguments ∨ v ∈ loop.results ∨ v ∈ body.allDefs ∨
      v ∈ rest.allDefs → v < next := by
    intro v hv
    apply hnext v
    simp only [Code.allDefs, List.mem_append]
    tauto
  -- the dummy initial value binds a new name
  have hdummy : ∀ v, v < next → Function.update env' next (0 : Word) v = env' v :=
    fun v hv => Function.update_of_ne (Nat.ne_of_lt hv) _ _
  have henv' : Around interp view₀ view₁ offset₀ offset₁ unit Γ env
      (Function.update env' next 0) :=
    henv.congr (fun v => Iff.rfl) fun v hv => (hdummy v (hlt v (.inl hv))).symm
  have harg' : next + 1 ∉ loop.arguments ++ Γ := by
    intro h
    have := hlt (next + 1) ((List.mem_append.mp h).elim (fun h => .inr (.inl h)) .inl)
    exact (Nat.lt_add_right 1 this).ne rfl
  have hsum'' : offsetSum ∉ loop.arguments ++ [next + 1] := by
    rw [List.mem_append, List.mem_singleton, not_or]
    exact ⟨hsum'.1.1.1, (Nat.lt_add_right 1 hsum).ne⟩
  have hbelow : ∀ v ∈ Γ ++ (loop.arguments ++ loop.results ++ body.allDefs), v < next := by
    intro v hv
    apply hlt v
    simp only [List.mem_append] at hv
    tauto
  have hphase' : phase.result ∉ loop.arguments ++ Γ := by
    rw [List.mem_append, not_or]
    exact ⟨fun h => hheader (List.mem_append_left _ h), hphase⟩
  obtain ⟨m, hwords, hlen, hst'⟩ := run_withArgument init (next + 1) yield (next + 2) hbal hops
    (fun v hv => hnew v (.inl hv)) hyields harg' hsum'' henv' ((hdummy _ hsum).trans hoffset)
    ((hdummy _ hinit).trans harg) hst
    fun k e e' s t he => iter Γ k e e' s t hbody hbelow hphase' hsum'.1.2 he
  have hbind : Env.bind (Function.update env' next 0) (loop.results ++ [next + 2])
      ((withArgument loop init (next + 1) yield (next + 2)).run (Function.update env' next 0)
        (sem interp innermost) (body'.exec (sem interp innermost)) t).1 =
      Function.update (Env.bind (Function.update env' next 0) loop.results
          (loop.run env (sem interp innermost) (body.exec (sem interp innermost)) s).1) (next + 2)
        (argumentAt mode offset₀ offset₁ m) := by
    rw [hwords, Env.bind_append hlen.symm]
    rfl
  have hafter : Around interp view₀ view₁ offset₀ offset₁ unit (loop.results ++ Γ)
      (env.bind loop.results
        (loop.run env (sem interp innermost) (body.exec (sem interp innermost)) s).1)
      (Env.bind (Function.update env' next 0) (loop.results ++ [next + 2])
        ((withArgument loop init (next + 1) yield (next + 2)).run (Function.update env' next 0)
          (sem interp innermost) (body'.exec (sem interp innermost)) t).1) := by
    rw [hbind]
    apply (henv'.bind loop.results (fun v hv => hnew v (.inr hv)) _).congr fun v => Iff.rfl
    intro v hv
    have := hlt v ((List.mem_append.mp hv).elim (fun h => .inr (.inr (.inl h))) .inl)
    exact (Function.update_of_ne (Nat.lt_add_right 2 this).ne _ _).symm
  obtain ⟨henv'', hst''⟩ := hrest.exec hrestΓ hafter hst'
  refine ⟨m, henv''.congr (fun v => ?_) fun _ _ => rfl, hst'', ?_⟩
  · simp only [Code.defs, List.mem_append]
    tauto
  · have hnot : next + 2 ∉ rest.defs := by
      intro h
      have := hlt (next + 2) (.inr (.inr (.inr (.inr (Code.mem_allDefs_of_mem_defs h)))))
      exact (Nat.lt_add_right 2 this).ne rfl
    refine (Code.exec_of_notMem_defs hnot _).trans ?_
    exact (congrFun hbind (next + 2)).trans (Function.update_self _ _ _)

theorem offsetAt_add_two (k : Nat) : offsetAt offset₀ offset₁ (k + 2) = offsetAt offset₀ offset₁ k := by
  unfold offsetAt
  rw [Nat.add_mod_right]

theorem results_replaceSelect (o : Op) (offset : ValueId) :
    results (replaceSelect select (phaseView select view₀ offset) o) = results o := by
  unfold replaceSelect
  split
  next h =>
    subst h
    rfl
  next => rfl

/-- The name of the offset in the innermost body. -/
def offsetName (mode : DoubleBufferingMode) (next : ValueId) : ValueId :=
  match mode with
  | .bufferFirst => next + 1
  | .bufferLast => next + 3

/-- **The toggle.** One execution of the innermost body moves the argument on by one. -/
theorem exec_addToggle (hphases : phase.numPhases = some 2)
    (hselect : select.phase = phase.result)
    (hcandidates : select.candidates = [view₀.result, view₁.result])
    (hne : select.result ≠ phase.result) {next : ValueId} {body : Code Op} {Γ : List ValueId}
    {env env' : Env} {k : Nat} {s t : Machine μ}
    (phase_def : ∀ o ∈ body.ops, phase.result ∈ results o → o = .bufferPhase phase)
    (select_def : ∀ o ∈ body.ops, select.result ∈ results o → o = .selectMemref select)
    (headers : ∀ loop ∈ body.loops, loop.inductionVar ≠ innermost ∧
      phase.result ∉ loop.arguments ++ loop.results)
    (hbody : body.Scoped Γ) (hnext : ∀ v ∈ Γ ++ body.allDefs, v < next)
    (hphase : phase.result ∉ Γ) (hsum : offsetSum ∉ body.allDefs)
    (henv : Around interp view₀ view₁ offset₀ offset₁ unit Γ env env')
    (hoffset : env' offsetSum = offset₀ + offset₁)
    (harg : env' (next + 1) = argumentAt mode offset₀ offset₁ k)
    (hst : InExecution select offset₀ offset₁ k s t) :
    let body' := (addToggle mode (.subi (next + 3) offsetSum (next + 1)) body).mapOps
      (replaceSelect select (phaseView select view₀ (offsetName mode next)))
    AgreeOn (body.defs ++ Γ) (body.exec (sem interp innermost) env s).1
        (body'.exec (sem interp innermost) env' t).1 ∧
      (body'.exec (sem interp innermost) env' t).1 (next + 3) =
        argumentAt mode offset₀ offset₁ (k + 1) ∧
      InExecution select offset₀ offset₁ k (body.exec (sem interp innermost) env s).2
        (body'.exec (sem interp innermost) env' t).2 := by
  have hfresh : ∀ j, next + j ∉ body.allDefs :=
    fun j h => (Nat.lt_add_right j (hnext _ (List.mem_append_right _ h))).ne rfl
  have hΓ : ∀ j, ∀ v ∈ Γ, v ≠ next + j :=
    fun j v hv => (Nat.lt_add_right j (hnext v (List.mem_append_left _ hv))).ne
  have hcode : ∀ j, BodyCode innermost phase select (next + j) body :=
    fun j => ⟨phase_def, select_def, headers, hfresh j⟩
  cases mode with
  | bufferFirst =>
    have hin : InBody interp phase view₀ view₁ (next + 1) offset₀ offset₁ unit k Γ env env' :=
      ⟨henv, harg, fun h => absurd h hphase⟩
    obtain ⟨hin', hst'⟩ :=
      exec_replaceSelect hphases hselect hcandidates hne hbody (hcode 1) hin hst
    intro body'
    let after := (body.mapOps
      (replaceSelect select (phaseView select view₀ (next + 1)))).exec (sem interp innermost) env' t
    have hexec : body'.exec (sem interp innermost) env' t =
        (Function.update after.1 (next + 3) (after.1 offsetSum - after.1 (next + 1)), after.2) := by
      simp only [body', addToggle, Code.mapOps_append, Code.exec_append, offsetName]
      rfl
    have hdefs : (body.mapOps (replaceSelect select (phaseView select view₀ (next + 1)))).defs =
        body.defs := Code.defs_mapOps fun o => results_replaceSelect o _
    have hsum'' : after.1 offsetSum = offset₀ + offset₁ := by
      refine (Code.exec_of_notMem_defs ?_ t).trans hoffset
      rw [hdefs]
      exact fun h => hsum (Code.mem_allDefs_of_mem_defs h)
    have harg' : after.1 (next + 1) = offsetAt offset₀ offset₁ k := hin'.offset_eq
    rw [hexec]
    refine ⟨fun v hv => ?_, ?_, hst'⟩
    · have hv' : v ≠ next + 3 := by
        rcases List.mem_append.mp hv with hv | hv
        · rintro rfl
          exact hfresh 3 (Code.mem_allDefs_of_mem_defs hv)
        · exact hΓ 3 v hv
      exact (hin'.agree v hv).trans (Function.update_of_ne hv' _ _).symm
    · show Function.update after.1 (next + 3) (after.1 offsetSum - after.1 (next + 1)) (next + 3) = _
      rw [Function.update_self, hsum'', harg']
      exact offsetAt_succ offset₀ offset₁ k
  | bufferLast =>
    -- the argument is one execution ahead, and the toggle brings it back
    have htoggle : env' offsetSum - env' (next + 1) = offsetAt offset₀ offset₁ k := by
      rw [hoffset, harg]
      exact (offsetAt_succ offset₀ offset₁ (k + 1)).trans (offsetAt_add_two k)
    have henv' : Around interp view₀ view₁ offset₀ offset₁ unit Γ env
        (Function.update env' (next + 3) (offsetAt offset₀ offset₁ k)) :=
      henv.congr (fun v => Iff.rfl) fun v hv => (Function.update_of_ne (hΓ 3 v hv) _ _).symm
    have hin : InBody interp phase view₀ view₁ (next + 3) offset₀ offset₁ unit k Γ env
        (Function.update env' (next + 3) (offsetAt offset₀ offset₁ k)) :=
      ⟨henv', Function.update_self _ _ _, fun h => absurd h hphase⟩
    obtain ⟨hin', hst'⟩ :=
      exec_replaceSelect hphases hselect hcandidates hne hbody (hcode 3) hin hst
    intro body'
    have hexec : body'.exec (sem interp innermost) env' t =
        (body.mapOps (replaceSelect select (phaseView select view₀ (next + 3)))).exec
          (sem interp innermost)
          (Function.update env' (next + 3) (offsetAt offset₀ offset₁ k)) t := by
      rw [← htoggle]
      rfl
    rw [hexec]
    refine ⟨hin'.agree, ?_, hst'⟩
    exact hin'.offset_eq.trans (offsetAt_add_two k).symm

/-- **The cloned chain.** It runs as the original does, and returns the argument of its last
execution. -/
theorem follows_clone (hphases : phase.numPhases = some 2) (hselect : select.phase = phase.result)
    (hcandidates : select.candidates = [view₀.result, view₁.result])
    (hne : select.result ≠ phase.result) {ivs : List ValueId} {c c' : Code Op}
    (site : ChainSite innermost phase select ivs c) {next init offset : ValueId}
    (hclone : cloneLoopChainWithDoubleBufferingIterArgs offsetSum mode next init ivs c = some c')
    (hsum : offsetSum < next) (hinit : init < next)
    (hoff : offset = offsetName mode (next + 3 * (ivs.length - 1))) :
    Follows interp innermost phase select view₀ view₁ offset₀ offset₁ unit mode offsetSum next init c
      (c'.mapOps (replaceSelect select (phaseView select view₀ offset))) := by
  induction site generalizing c' next init with
  | besideOp beside site ih =>
    rw [clone_op, Option.map_eq_some_iff] at hclone
    obtain ⟨rest', hclone, rfl⟩ := hclone
    exact (ih hclone hsum hinit hoff).beside beside
      (fun Γ h => ⟨⟨h.1, h.2.1, trivial⟩, by simpa [Code.defs, Code.append] using h.2.2⟩) _
  | besideFor ne beside site ih =>
    rw [cloneLoopChainWithDoubleBufferingIterArgs, if_neg ne, Option.map_eq_some_iff] at hclone
    obtain ⟨rest', hclone, rfl⟩ := hclone
    refine (ih hclone hsum hinit hoff).beside beside (fun Γ h => ?_) _
    obtain ⟨hbal, hops, hnew, hbody, hyields, hrest⟩ := h
    exact ⟨⟨hbal, hops, hnew, hbody, hyields, trivial⟩, by
      simpa [Code.defs, Code.append] using hrest⟩
  | besideIf beside site ih =>
    rw [clone_scfIf, Option.map_eq_some_iff] at hclone
    obtain ⟨rest', hclone, rfl⟩ := hclone
    exact (ih hclone hsum hinit hoff).beside beside
      (fun Γ h => ⟨⟨h.1, h.2.1, trivial⟩, h.2.2⟩) _
  | @innermost loop body rest iv header phase_def select_def headers beside =>
    rw [cloneLoopChainWithDoubleBufferingIterArgs, if_pos iv, if_pos rfl,
      cloneLoop_eq_some] at hclone
    obtain ⟨-, rfl⟩ := hclone
    obtain rfl : offset = offsetName mode next := hoff
    show Follows _ _ _ _ _ _ _ _ _ _ _ _ _ _ (.op (.constantIndex next 0)
      (.scfFor _ _ (rest.mapOps (replaceSelect select (phaseView select view₀ _)))))
    rw [beside.mapOps]
    refine Follows.clone hinit hsum header beside ?_
    intro Γ k e e' s t hbody hnext hphase hsum' henv hoffset harg hst
    have hbelow : ∀ v ∈ (loop.arguments ++ Γ) ++ body.allDefs, v < next := by
      intro v hv
      apply hnext v
      simp only [List.mem_append] at hv ⊢
      tauto
    obtain ⟨hagree, hyield, hst'⟩ := exec_addToggle hphases hselect hcandidates hne phase_def
      select_def headers hbody hbelow hphase hsum' henv hoffset harg hst
    refine ⟨hagree, k + 1, hyield, ?_⟩
    rw [iv]
    exact hst'.iterationDone
  | @outer iv iv' ivs loop body rest iv_eq ne header site beside ih =>
    rw [cloneLoopChainWithDoubleBufferingIterArgs, if_pos iv_eq, if_neg (List.cons_ne_nil _ _),
      Option.bind_eq_some_iff] at hclone
    obtain ⟨body', hbody', hclone⟩ := hclone
    rw [cloneLoop_eq_some] at hclone
    obtain ⟨-, rfl⟩ := hclone
    have hoff' : offset = offsetName mode (next + 3 + 3 * ((iv' :: ivs).length - 1)) := by
      rw [hoff]
      simp only [List.length_cons, Nat.add_sub_cancel]
      congr 1
      rw [Nat.mul_succ, Nat.add_comm (3 * ivs.length), Nat.add_assoc]
    have hinner := ih hbody' (Nat.lt_add_right 3 hsum) (Nat.add_lt_add_left (by decide) next) hoff'
    show Follows _ _ _ _ _ _ _ _ _ _ _ _ _ _ (.op (.constantIndex next 0)
      (.scfFor _ _ (rest.mapOps (replaceSelect select (phaseView select view₀ _)))))
    rw [beside.mapOps]
    refine Follows.clone hinit hsum header beside ?_
    intro Γ k e e' s t hbody hnext hphase hsum' henv hoffset harg hst
    have hbelow : ∀ v ∈ (loop.arguments ++ Γ) ++ body.allDefs, v < next := by
      intro v hv
      apply hnext v
      simp only [List.mem_append] at hv ⊢
      tauto
    have harg' : next + 1 ∉ body.allDefs :=
      fun h => (Nat.lt_add_right 1 (hbelow _ (List.mem_append_right _ h))).ne rfl
    obtain ⟨m, henv', hst', harg''⟩ := hinner _ e e' k s t hbody
      (fun v hv => Nat.lt_add_right 3 (hbelow v hv)) hphase hsum' harg' henv hoffset harg hst
    refine ⟨henv'.agree, m, harg'', ?_⟩
    simpa only [sem, iv_eq, if_neg ne] using hst'

/-! ## When the chain is cloned -/

theorem findLoop_eq_none {iv : ValueId} {c : Code Op} (h : iv ∉ c.allDefs) :
    findLoop iv c = none := by
  induction c with
  | nil => rfl
  | op o rest ih =>
    simp only [Code.allDefs, List.mem_append, not_or] at h
    exact ih h.2
  | scfFor loop body rest ihb ih =>
    simp only [Code.allDefs, ForOp.arguments, List.mem_append, List.mem_cons, not_or] at h
    rw [findLoop, if_neg (Ne.symm h.1.1.1.1), ihb h.1.2, ih h.2]
    rfl
  | scfIf cond body rest ihb ih =>
    simp only [Code.allDefs, List.mem_append, not_or] at h
    rw [findLoop, ihb h.1, ih h.2]
    rfl

/-- The start address of the new view is found in the clone. -/
theorem memViewOffset_clone {ivs : List ValueId} {c c' : Code Op}
    (site : ChainSite innermost phase select ivs c) {next init : ValueId}
    (hclone : cloneLoopChainWithDoubleBufferingIterArgs offsetSum mode next init ivs c = some c') :
    ∃ loop body, findLoop innermost c' = some (loop, body) ∧
      memViewOffset mode loop body = some (offsetName mode (next + 3 * (ivs.length - 1))) := by
  induction site generalizing c' next init with
  | besideOp beside site ih =>
    rw [clone_op, Option.map_eq_some_iff] at hclone
    obtain ⟨rest', hclone, rfl⟩ := hclone
    rw [findLoop]
    exact ih hclone
  | besideFor ne beside site ih =>
    rw [cloneLoopChainWithDoubleBufferingIterArgs, if_neg ne, Option.map_eq_some_iff] at hclone
    obtain ⟨rest', hclone, rfl⟩ := hclone
    have hhead := beside.1
    simp only [Code.allDefs, ForOp.arguments, List.mem_append, List.mem_cons, not_or] at hhead
    rw [findLoop, if_neg (Ne.symm hhead.1.1.1.1), findLoop_eq_none hhead.1.2]
    exact ih hclone
  | besideIf beside site ih =>
    rw [clone_scfIf, Option.map_eq_some_iff] at hclone
    obtain ⟨rest', hclone, rfl⟩ := hclone
    have hhead := beside.1
    simp only [Code.allDefs, List.mem_append, not_or] at hhead
    rw [findLoop, findLoop_eq_none hhead.1]
    exact ih hclone
  | innermost iv header phase_def select_def headers beside =>
    rw [cloneLoopChainWithDoubleBufferingIterArgs, if_pos iv, if_pos rfl,
      cloneLoop_eq_some] at hclone
    obtain ⟨-, rfl⟩ := hclone
    refine ⟨_, _, if_pos iv, ?_⟩
    cases mode with
    | bufferFirst => exact List.getLast?_concat
    | bufferLast => rfl
  | @outer iv iv' ivs loop body rest iv_eq ne header site beside ih =>
    rw [cloneLoopChainWithDoubleBufferingIterArgs, if_pos iv_eq, if_neg (List.cons_ne_nil _ _),
      Option.bind_eq_some_iff] at hclone
    obtain ⟨body', hbody', hclone⟩ := hclone
    rw [cloneLoop_eq_some] at hclone
    obtain ⟨-, rfl⟩ := hclone
    obtain ⟨loop', body'', hfind, hoff⟩ := ih hbody'
    refine ⟨loop', body'', ?_, ?_⟩
    · rw [findLoop, findLoop, if_neg (iv_eq ▸ ne), hfind]
      rfl
    · rw [hoff]
      simp only [List.length_cons, Nat.add_sub_cancel]
      congr 2
      rw [Nat.mul_succ, Nat.add_comm (3 * ivs.length), Nat.add_assoc]

/-- Cloning binds new names only. -/
theorem mem_defs_clone {ivs : List ValueId} {c c' : Code Op}
    (site : ChainSite innermost phase select ivs c) {next init : ValueId}
    (hclone : cloneLoopChainWithDoubleBufferingIterArgs offsetSum mode next init ivs c = some c')
    {v : ValueId} (hv : v < next) : v ∈ c'.defs ↔ v ∈ c.defs := by
  have hcloned : ∀ {loop : ForOp} {yield : ValueId} {body body' rest : Code Op},
      v ∈ (Code.op (.constantIndex next 0)
        (.scfFor (withArgument loop init (next + 1) yield (next + 2)) body' rest)).defs ↔
      v ∈ (Code.scfFor loop body rest).defs := by
    intro loop yield body body' rest
    have h₀ : v ≠ next := Nat.ne_of_lt hv
    have h₂ : v ≠ next + 2 := (Nat.lt_add_right 2 hv).ne
    simp [Code.defs, results, withArgument, h₀, h₂]
  induction site generalizing c' with
  | besideOp beside site ih =>
    rw [clone_op, Option.map_eq_some_iff] at hclone
    obtain ⟨rest', hclone, rfl⟩ := hclone
    simp only [Code.defs, List.mem_append, ih hclone]
  | besideFor ne beside site ih =>
    rw [cloneLoopChainWithDoubleBufferingIterArgs, if_neg ne, Option.map_eq_some_iff] at hclone
    obtain ⟨rest', hclone, rfl⟩ := hclone
    simp only [Code.defs, List.mem_append, ih hclone]
  | besideIf beside site ih =>
    rw [clone_scfIf, Option.map_eq_some_iff] at hclone
    obtain ⟨rest', hclone, rfl⟩ := hclone
    simp only [Code.defs, ih hclone]
  | innermost iv header phase_def select_def headers beside =>
    rw [cloneLoopChainWithDoubleBufferingIterArgs, if_pos iv, if_pos rfl,
      cloneLoop_eq_some] at hclone
    obtain ⟨-, rfl⟩ := hclone
    exact hcloned
  | outer iv_eq ne header site beside ih =>
    rw [cloneLoopChainWithDoubleBufferingIterArgs, if_pos iv_eq, if_neg (List.cons_ne_nil _ _),
      Option.bind_eq_some_iff] at hclone
    obtain ⟨body', hbody', hclone⟩ := hclone
    rw [cloneLoop_eq_some] at hclone
    obtain ⟨-, rfl⟩ := hclone
    exact hcloned

/-- **When the chain is cloned.** Exactly when no loop of it yields a value from outside. -/
theorem isSome_clone_iff {ivs : List ValueId} {c : Code Op} {chain : List (ForOp × Code Op)}
    (site : ChainSite innermost phase select ivs c) (hchain : chainLoops ivs c = some chain)
    {Γ : List ValueId} (hc : c.Scoped Γ) {next init : ValueId}
    (hnext : ∀ v ∈ Γ ++ c.allDefs, v < next) :
    (cloneLoopChainWithDoubleBufferingIterArgs offsetSum mode next init ivs c).isSome ↔
      YieldsInside chain := by
  induction site generalizing Γ next init chain with
  | @besideOp ivs o rest beside site ih =>
    obtain ⟨iv, ivs, rfl⟩ := site.exists_cons
    rw [clone_op, Option.isSome_map]
    refine ih hchain hc.2.2 fun v hv => hnext v ?_
    simp only [Code.allDefs, List.mem_append] at hv ⊢
    tauto
  | besideFor ne beside site ih =>
    rw [chainLoops, if_neg ne] at hchain
    rw [cloneLoopChainWithDoubleBufferingIterArgs, if_neg ne, Option.isSome_map]
    refine ih hchain hc.2.2.2.2.2 fun v hv => hnext v ?_
    simp only [Code.allDefs, List.mem_append] at hv ⊢
    tauto
  | besideIf beside site ih =>
    obtain ⟨iv, ivs, rfl⟩ := site.exists_cons
    rw [clone_scfIf, Option.isSome_map]
    refine ih hchain hc.2.2 fun v hv => hnext v ?_
    simp only [Code.allDefs, List.mem_append] at hv ⊢
    tauto
  | @innermost loop body rest iv header phase_def select_def headers beside =>
    rw [chainLoops, if_pos iv, if_pos rfl, Option.some.injEq] at hchain
    subst hchain
    rw [cloneLoopChainWithDoubleBufferingIterArgs, if_pos iv, if_pos rfl, Option.isSome_iff_exists]
    simp only [cloneLoop_eq_some, exists_and_left, exists_eq, and_true, YieldsInside,
      List.forall_mem_singleton]
  | @outer iv iv' ivs loop body rest iv_eq ne header site beside ih =>
    rw [chainLoops, if_pos iv_eq, if_neg (List.cons_ne_nil _ _), Option.map_eq_some_iff] at hchain
    obtain ⟨chain', hchain, rfl⟩ := hchain
    obtain ⟨hbal, hops, hnew, hbody, hyields, hrest⟩ := hc
    have hbelow : ∀ v ∈ (loop.arguments ++ Γ) ++ body.allDefs, v < next := by
      intro v hv
      apply hnext v
      simp only [Code.allDefs, List.mem_append] at hv ⊢
      tauto
    have ih : (cloneLoopChainWithDoubleBufferingIterArgs offsetSum mode (next + 3) (next + 1)
        (iv' :: ivs) body).isSome ↔ YieldsInside chain' :=
      ih hchain hbody fun v hv => Nat.lt_add_right 3 (hbelow v hv)
    rw [cloneLoopChainWithDoubleBufferingIterArgs, if_pos iv_eq, if_neg (List.cons_ne_nil _ _)]
    have hsplit : YieldsInside ((loop, body) :: chain') ↔
        (∀ v ∈ loop.yields, v ∈ loop.arguments ++ body.defs) ∧ YieldsInside chain' :=
      List.forall_mem_cons
    rw [hsplit, ← ih]
    cases hbody' : cloneLoopChainWithDoubleBufferingIterArgs offsetSum mode (next + 3) (next + 1)
        (iv' :: ivs) body with
    | none => simp
    | some body' =>
      have hdefs : ∀ v ∈ loop.yields,
          (v ∈ loop.arguments ++ body'.defs ↔ v ∈ loop.arguments ++ body.defs) := by
        intro v hv
        have hlt : v < next := by
          have := hyields v hv
          rw [List.mem_append] at this
          apply hbelow v
          rw [List.mem_append]
          exact this.symm.imp_right Code.mem_allDefs_of_mem_defs
        rw [List.mem_append, List.mem_append,
          mem_defs_clone site hbody' (Nat.lt_add_right 3 hlt)]
      rw [Option.bind_some, Option.isSome_iff_exists]
      simp only [cloneLoop_eq_some, exists_and_left, exists_eq, and_true, Option.isSome_some]
      exact forall₂_congr hdefs

/-! ## The lowered unit -/

/-- The name of a view is bound to the view. -/
def ViewBound (interp : Interp μ) (env : Env) (view : GetLogicalMemoryViewOp) : Prop :=
  env view.result =
    interp.view view.memrefType (env view.fromUnit) (env view.startAddress) view.layoutMap

/-- The lowered code alternates between the views: whatever its operations mean, in execution `k` of
the innermost body the new view starts at the first offset when `k` is even and at the second when it
is odd, and everything else is as before: the values bound, the memory, the number of executions. -/
def Alternates (phase : BufferPhaseOp) (select : SelectMemrefOp)
    (view₀ view₁ : GetLogicalMemoryViewOp) (Γ : List ValueId) (nest lowered : Code Op) : Prop :=
  ∀ {μ : Type} (interp : Interp μ) (env : Env) (s : Machine μ), ViewBound interp env view₀ →
    ViewBound interp env view₁ → s.executions = 0 → (∀ x ∈ s.views, x.1 ≠ select.result) →
    let before := nest.exec (sem interp (phase.ivs.getLastD 0)) env s
    let after := lowered.exec (sem interp (phase.ivs.getLastD 0)) env s
    (∀ x ∈ after.2.views, x.1 = select.result →
        x.2.2 = offsetAt (env view₀.startAddress) (env view₁.startAddress) x.2.1) ∧
      (∀ v ∈ nest.defs ++ Γ, after.1 v = before.1 v) ∧
      after.2.memory = before.2.memory ∧ after.2.executions = before.2.executions

theorem ChainSite.result_notMem_defs {ivs : List ValueId} {c : Code Op}
    (h : ChainSite innermost phase select ivs c) : phase.result ∉ c.defs := by
  have hhead : ∀ {d c : Code Op}, Beside innermost phase select d → phase.result ∉ c.defs →
      phase.result ∉ (d.append c).defs := by
    intro d c hd hc
    rw [Code.defs_append, List.mem_append, not_or]
    exact ⟨fun h => hd.2.1 (Code.mem_allDefs_of_mem_defs h), hc⟩
  have hloop : ∀ {loop : ForOp} {body rest : Code Op},
      phase.result ∉ loop.arguments ++ loop.results → Beside innermost phase select rest →
      phase.result ∉ (Code.scfFor loop body rest).defs := by
    intro loop body rest hheader hrest
    rw [Code.defs, List.mem_append, not_or]
    exact ⟨fun h => hheader (List.mem_append_right _ h),
      fun h => hrest.2.1 (Code.mem_allDefs_of_mem_defs h)⟩
  induction h with
  | besideOp beside site ih => exact hhead beside ih
  | besideFor ne beside site ih => exact hhead beside ih
  | besideIf beside site ih => exact hhead beside ih
  | innermost iv header phase_def select_def headers beside => exact hloop header beside
  | outer iv_eq ne header site beside ih => exact hloop header beside

/-- Dropping the phase once nothing reads it changes nothing else. -/
theorem exec_replaceBufferPhase (interp : Interp μ) (innermost : ValueId) (phase : BufferPhaseOp)
    (select : SelectMemrefOp) (view : GetLogicalMemoryViewOp) (c : Code Op) (env : Env)
    (s : Machine μ) :
    (∀ v, v ≠ phase.result →
        ((replaceBufferPhaseAndSelectInClonedLoops phase select view c).exec (sem interp innermost)
            env s).1 v =
          ((c.mapOps (replaceSelect select view)).exec (sem interp innermost) env s).1 v) ∧
      ((replaceBufferPhaseAndSelectInClonedLoops phase select view c).exec (sem interp innermost)
          env s).2 =
        ((c.mapOps (replaceSelect select view)).exec (sem interp innermost) env s).2 := by
  unfold replaceBufferPhaseAndSelectInClonedLoops
  simp only
  split
  next => exact ⟨fun v hv => rfl, rfl⟩
  next huses =>
    have hpure : ∀ o ∈ (c.mapOps (replaceSelect select view)).ops, (o == .bufferPhase phase) = true →
        (∀ v ∈ results o, v ∈ [phase.result]) ∧
          ∀ ws s, ((sem interp innermost).step o ws s).2 = s := by
      intro o ho hdrop
      obtain rfl := eq_of_beq hdrop
      exact ⟨fun v hv => hv, fun ws s => rfl⟩
    have hread : ∀ v ∈ (c.mapOps (replaceSelect select view)).uses, v ∉ [phase.result] := by
      intro v hv hmem
      obtain rfl := List.mem_singleton.mp hmem
      exact huses hv
    obtain ⟨henv, hstate⟩ := Code.exec_erase (· == .bufferPhase phase) [phase.result] hpure hread
      (fun v _ => rfl) s
    exact ⟨fun v hv => (henv v (by simpa using hv)).symm, hstate.symm⟩

/-- What a phase is lowered to. -/
theorem lowerNest_eq {c : Code Op} {next : ValueId}
    (site : ChainSite innermost phase select phase.ivs c)
    (hlast : phase.ivs.getLast? = some innermost) :
    lowerNest mode phase select view₀ view₁ next c =
      (cloneLoopChainWithDoubleBufferingIterArgs next mode (next + 1)
        (if mode = .bufferFirst then view₀.startAddress else view₁.startAddress) phase.ivs c).map
        fun cloned => .op (.addi next view₀.startAddress view₁.startAddress)
          (replaceBufferPhaseAndSelectInClonedLoops phase select
            (phaseView select view₀ (offsetName mode (next + 1 + 3 * (phase.ivs.length - 1))))
            cloned) := by
  unfold lowerNest
  rw [hlast]
  cases hclone : cloneLoopChainWithDoubleBufferingIterArgs next mode (next + 1)
      (if mode = .bufferFirst then view₀.startAddress else view₁.startAddress) phase.ivs c with
  | none => simp [hclone]
  | some cloned =>
    obtain ⟨loop, body, hfind, hoff⟩ := memViewOffset_clone site hclone
    simp [hclone, hfind, hoff, phaseView]

/-- Lowered code alternates. -/
theorem alternates_of_lowerNest {c lowered : Code Op} {next : ValueId} {Γ : List ValueId}
    (hphases : phase.numPhases = some 2) (hselect : select.phase = phase.result)
    (hcandidates : select.candidates = [view₀.result, view₁.result])
    (hmatch : areMemoryViewsMatchingExceptOffset view₀ view₁ = true)
    (hviews : ∀ view ∈ [view₀, view₁],
      view.result ∈ Γ ∧ view.fromUnit ∈ Γ ∧ view.startAddress ∈ Γ)
    (hc : c.SingleAssignment Γ) (hnext : ∀ v ∈ Γ ++ c.allDefs, v < next)
    (hphase : .bufferPhase phase ∈ c.ops) (hsel : .selectMemref select ∈ c.ops)
    (site : ChainSite innermost phase select phase.ivs c)
    (hlast : phase.ivs.getLast? = some innermost)
    (hlower : lowerNest mode phase select view₀ view₁ next c = some lowered) :
    Alternates phase select view₀ view₁ Γ c lowered := by
  rw [lowerNest_eq site hlast, Option.map_eq_some_iff] at hlower
  obtain ⟨cloned, hclone, rfl⟩ := hlower
  intro μ interp env s hbound₀ hbound₁ hexec hlog before after
  obtain ⟨hr₀, hu₀, ho₀⟩ := hviews view₀ (by simp)
  obtain ⟨hr₁, hu₁, ho₁⟩ := hviews view₁ (by simp)
  have hinner : phase.ivs.getLastD 0 = innermost := by
    rw [List.getLastD_eq_getLast?, hlast]
    rfl
  have hne : select.result ≠ phase.result := by
    intro h
    have hsame : Op.selectMemref select = .bufferPhase phase :=
      Code.op_unique hc.nodup hsel hphase (v := phase.result) (by simp [results, h])
        (by simp [results])
    cases hsame
  have hΓ : ∀ v ∈ Γ, v < next := fun v hv => hnext v (List.mem_append_left _ hv)
  have hfresh : next ∉ c.allDefs := fun h => (hnext next (List.mem_append_right _ h)).ne rfl
  -- the sum binds a new name
  have hsum : ∀ v ∈ Γ, env v = Function.update env next
      (env view₀.startAddress + env view₁.startAddress) v :=
    fun v hv => (Function.update_of_ne (hΓ v hv).ne _ _).symm
  have hinit : (if mode = .bufferFirst then view₀.startAddress else view₁.startAddress) ∈ Γ := by
    split
    · exact ho₀
    · exact ho₁
  have harg : env (if mode = .bufferFirst then view₀.startAddress else view₁.startAddress) =
      argumentAt mode (env view₀.startAddress) (env view₁.startAddress) 0 := by
    cases mode <;> rfl
  have hmatch : view₀.memrefType = view₁.memrefType ∧ view₀.layoutMap = view₁.layoutMap ∧
      view₀.fromUnit = view₁.fromUnit := by
    simpa [areMemoryViewsMatchingExceptOffset, and_assoc] using hmatch
  have henv : Around interp view₀ view₁ (env view₀.startAddress) (env view₁.startAddress)
      (env view₀.fromUnit) Γ env (Function.update env next
        (env view₀.startAddress + env view₁.startAddress)) := by
    refine ⟨hsum, ⟨hr₀, hr₁, hu₀⟩, rfl, hbound₀, ?_⟩
    rw [hmatch.1, hmatch.2.1, hmatch.2.2]
    exact hbound₁
  have hst : InExecution select (env view₀.startAddress) (env view₁.startAddress) 0 s s :=
    ⟨rfl, hexec, hexec, fun x hx h => absurd h (hlog x hx)⟩
  obtain ⟨m, henv', hst', -⟩ := follows_clone hphases hselect hcandidates hne site hclone
    (Nat.lt_add_one next) (Nat.lt_add_right 1 (hΓ _ hinit)) rfl Γ env _ 0 s s hc.inScope
    (fun v hv => Nat.lt_add_right 1 (hnext v hv))
    (hc.disjoint _ (Code.mem_allDefs_of_result hphase (by simp [results]))) hfresh
    (fun h => hc.disjoint _ h hinit) henv (Function.update_self _ _ _)
    ((hsum _ hinit).symm.trans harg) hst
  obtain ⟨hkeep, hstate⟩ := exec_replaceBufferPhase interp innermost phase select
    (phaseView select view₀ (offsetName mode (next + 1 + 3 * (phase.ivs.length - 1)))) cloned
    (Function.update env next (env view₀.startAddress + env view₁.startAddress)) s
  have hafter : after = (replaceBufferPhaseAndSelectInClonedLoops phase select
      (phaseView select view₀ (offsetName mode (next + 1 + 3 * (phase.ivs.length - 1))))
      cloned).exec (sem interp innermost)
        (Function.update env next (env view₀.startAddress + env view₁.startAddress)) s := by
    rw [← hinner]
    rfl
  have hbefore : before = c.exec (sem interp innermost) env s := by
    rw [← hinner]
  rw [hafter, hbefore, hstate]
  refine ⟨hst'.views, fun v hv => ?_, hst'.memory.symm, hst'.executions'.trans hst'.executions.symm⟩
  have hv' : v ≠ phase.result := by
    rintro rfl
    rcases List.mem_append.mp hv with hv | hv
    · exact site.result_notMem_defs hv
    · exact hc.disjoint _ (Code.mem_allDefs_of_result hphase (by simp [results])) hv
  rw [hkeep v hv']
  exact (henv'.agree v hv).symm

/-- The select found is one that reads the phase. -/
theorem selectUser_eq_some {c : Code Op} (h : selectUser phase c = some select) :
    .selectMemref select ∈ c.ops ∧ phase.result ∈ select.phase :: select.candidates := by
  unfold selectUser at h
  split at h
  next found hfind =>
    cases h
    exact ⟨List.mem_of_find?_eq_some hfind, by simpa [operands] using List.find?_some hfind⟩
  next => cases h

/-- The candidates found are the views of the select. -/
theorem candidateViews_eq_ok {definingView : ValueId → Option GetLogicalMemoryViewOp}
    (h : candidateViews definingView select = .ok (view₀, view₁)) :
    ∃ c₀ c₁, select.candidates = [c₀, c₁] ∧ definingView c₀ = some view₀ ∧
      definingView c₁ = some view₁ ∧ areMemoryViewsMatchingExceptOffset view₀ view₁ = true := by
  unfold candidateViews at h
  split at h
  next c₀ c₁ hcandidates =>
    split at h
    next w₀ w₁ h₀ h₁ =>
      split at h
      next hmatch =>
        cases h
        exact ⟨c₀, c₁, hcandidates, h₀, h₁, hmatch⟩
      next => cases h
    next => cases h
  next => cases h

end Chain

/-- Two loops around a phase. The inner loop has an iteration argument and yields the value given. -/
def nestYielding (yield : ValueId) : Code Op :=
  .scfFor ⟨0, 1, 2, 10, [0], [11], [19], [12]⟩
    (.scfFor ⟨0, 1, 2, 13, [11], [14], [yield], [19]⟩
      (.op (.bufferPhase ⟨15, [10, 13], some 2⟩)
        (.op (.selectMemref ⟨16, 15, [6, 7]⟩)
          (.op (.other 0 [16, 14] [17]) .nil))) .nil) .nil

/-- The views of a unit at two start addresses. -/
def twoViews : ValueId → Option GetLogicalMemoryViewOp
  | 6 => some ⟨6, 0, 3, 4, 0⟩
  | 7 => some ⟨7, 0, 3, 5, 0⟩
  | _ => none

theorem twoViews_defined (v : ValueId) (view : GetLogicalMemoryViewOp)
    (h : twoViews v = some view) :
    view.result = v ∧ v ∈ [0, 1, 2, 3, 4, 5, 6, 7] ∧ view.fromUnit ∈ [0, 1, 2, 3, 4, 5, 6, 7] ∧
      view.startAddress ∈ [0, 1, 2, 3, 4, 5, 6, 7] := by
  unfold twoViews at h
  split at h <;> cases h <;> decide

end BufferPhaseLowering
