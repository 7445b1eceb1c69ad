import DataflowScheduler.Util.LoopNest

/-!
# Guards of back-edge signals

A back edge `store_stage → load_stage` orders the end of one iteration of the loops it depends on
before the start of the next. `insertSignals` puts one signal at the start of the load stage and one
at the end of the store stage, each under an `scf.if` on the induction variables. The signals match
up if the first guard fails in the first iteration only and the second in the last iteration only.

The store-side guard compares with `upperBound - step`, which is the last value of an induction
variable only if the step divides the range.
-/

namespace DataflowScheduler

namespace SignalInsertion

open LoopNest

/-- The loop that builds a guard: `cond` is null before the first dependent loop and `arith.ori` of
the tests after it. -/
def orCond (test : Frame → Bool) (dependentLoops : List LoopId) (env : Env) : Option Bool :=
  dependentLoops.foldl
    (fun cond loop => match cond with
      | none => some (test (env loop))
      | some cond => some (cond || test (env loop)))
    none

/-- Guard of the signal at the start of the load stage. -/
def loadGuard (dependentLoops : List LoopId) (env : Env) : Option Bool :=
  orCond Frame.notFirst dependentLoops env

/-- Guard of the signal at the end of the store stage. -/
def storeGuard (dependentLoops : List LoopId) (env : Env) : Option Bool :=
  orCond Frame.notLast dependentLoops env

/-- A guard is the disjunction of its tests, unless there are none. -/
theorem orCond_eq {test : Frame → Bool} {dependentLoops : List LoopId} (h : dependentLoops ≠ [])
    (env : Env) : orCond test dependentLoops env = some (dependentLoops.any fun i => test (env i)) := by
  cases dependentLoops with
  | nil => exact absurd rfl h
  | cons i rest =>
      unfold orCond
      rw [List.foldl_cons, List.any_cons]
      generalize test (env i) = cond
      induction rest generalizing cond with
      | nil => simp
      | cons j rest ih =>
          simp only [List.foldl_cons, List.any_cons]
          rw [ih (by simp), Bool.or_assoc]

/-- The dependent loops are those of the nest, in any order. -/
theorem orCond_eq_anyLoop {test : Frame → Bool} {dependentLoops : List LoopId}
    (hne : dependentLoops ≠ []) {loops : List ForOp}
    (hmem : ∀ i, i ∈ dependentLoops ↔ i ∈ loops.map ForOp.id) (env : Env) :
    orCond test dependentLoops env = some (anyLoop test loops env) := by
  rw [orCond_eq hne, Option.some_inj, anyLoop, Bool.eq_iff_iff, List.any_eq_true, List.any_eq_true]
  constructor
  · rintro ⟨i, hi, htest⟩
    obtain ⟨loop, hloop, rfl⟩ := List.mem_map.mp ((hmem i).mp hi)
    exact ⟨loop, hloop, htest⟩
  · rintro ⟨loop, hloop, htest⟩
    exact ⟨loop.id, (hmem loop.id).mpr (List.mem_map_of_mem hloop), htest⟩

/-- The guarded signals of a back edge match up over the iterations of a nest. -/
structure Paired (dependentLoops : List LoopId) (its : List Env) : Prop where
  /-- The load stage signals in every iteration but the first. -/
  load : ∀ n (h : n < its.length), loadGuard dependentLoops its[n] = some (decide (n ≠ 0))
  /-- The store stage signals in every iteration but the last. -/
  store : ∀ n (h : n < its.length),
    storeGuard dependentLoops its[n] = some (decide (n + 1 ≠ its.length))
  /-- There are as many signals on either side. -/
  count : its.countP (fun env => storeGuard dependentLoops env == some true) =
    its.countP (fun env => loadGuard dependentLoops env == some true)
  /-- The store-side signal of an iteration meets the load-side signal of the next. -/
  next : ∀ n (h : n < its.length), storeGuard dependentLoops its[n] = some true ↔
    ∃ h' : n + 1 < its.length, loadGuard dependentLoops its[n + 1] = some true

section Nest

variable {loops : List ForOp} {env : Env} {dependentLoops : List LoopId}

theorem loadGuard_iterations (hne : dependentLoops ≠ []) (hnd : (loops.map ForOp.id).Nodup)
    (hmem : ∀ i, i ∈ dependentLoops ↔ i ∈ loops.map ForOp.id) (hit : Iterates loops env)
    (n : Nat) (h : n < (iterations loops env).length) :
    loadGuard dependentLoops (iterations loops env)[n] = some (decide (n ≠ 0)) := by
  have hfirst := (falseFirst_anyLoop hnd hit).getElem n (by simpa using h)
  rw [List.getElem_map] at hfirst
  rw [loadGuard, orCond_eq_anyLoop hne hmem, hfirst]

theorem storeGuard_iterations (hne : dependentLoops ≠ []) (hnd : (loops.map ForOp.id).Nodup)
    (hmem : ∀ i, i ∈ dependentLoops ↔ i ∈ loops.map ForOp.id) (hit : Iterates loops env)
    (n : Nat) (h : n < (iterations loops env).length) :
    storeGuard dependentLoops (iterations loops env)[n] =
      some (decide (n + 1 ≠ (iterations loops env).length) ||
        !decide (StepsDivideAtLast loops env)) := by
  have hlast := (trueUntilLast_anyLoop hnd hit).getElem n (by simpa using h)
  simp only [List.getElem_map, List.length_map] at hlast
  rw [storeGuard, orCond_eq_anyLoop hne hmem, hlast]

/-- Where the steps divide the ranges, both sides signal once less than the nest iterates. -/
theorem countP_guards (hne : dependentLoops ≠ []) (hnd : (loops.map ForOp.id).Nodup)
    (hmem : ∀ i, i ∈ dependentLoops ↔ i ∈ loops.map ForOp.id) (hit : Iterates loops env)
    (hdiv : StepsDivideAtLast loops env) :
    (iterations loops env).countP (fun env => storeGuard dependentLoops env == some true) =
      (iterations loops env).countP (fun env => loadGuard dependentLoops env == some true) := by
  have hload := (falseFirst_anyLoop hnd hit).count
  have hlast := trueUntilLast_anyLoop hnd hit
  rw [decide_eq_true hdiv, Bool.not_true] at hlast
  have hstore := hlast.count
  have hcount : ∀ test, (iterations loops env).countP
      (fun env => orCond test dependentLoops env == some true) =
        ((iterations loops env).map (anyLoop test loops)).count true := by
    intro test
    rw [List.count, List.countP_map]
    refine List.countP_congr fun env' _ => ?_
    rw [orCond_eq_anyLoop hne hmem]
    simp
  simp only [storeGuard, loadGuard]
  rw [hcount, hcount]
  rw [List.length_map] at hload hstore
  omega

/-- **The guarded signals of a back edge match up exactly where the steps divide the ranges**: for
every nest of dependent loops that iterate, in whatever order `collectDependentLoops` found them. -/
theorem paired_iff_stepsDivide (hne : dependentLoops ≠ []) (hnd : (loops.map ForOp.id).Nodup)
    (hmem : ∀ i, i ∈ dependentLoops ↔ i ∈ loops.map ForOp.id) (hit : Iterates loops env) :
    Paired dependentLoops (iterations loops env) ↔ StepsDivideAtLast loops env := by
  have hload := loadGuard_iterations hne hnd hmem hit
  have hstore := storeGuard_iterations hne hnd hmem hit
  constructor
  · intro hp
    have hpos : 0 < (iterations loops env).length := by
      have hlen := (falseFirst_anyLoop hnd hit).count
      rw [List.length_map] at hlen
      omega
    have hlt : (iterations loops env).length - 1 < (iterations loops env).length := by omega
    have hlast := (hp.store _ hlt).symm.trans (hstore _ hlt)
    have heq : (iterations loops env).length - 1 + 1 = (iterations loops env).length := by omega
    simpa [heq] using hlast
  · intro hdiv
    have hstore' : ∀ n (h : n < (iterations loops env).length),
        storeGuard dependentLoops (iterations loops env)[n] =
          some (decide (n + 1 ≠ (iterations loops env).length)) := by
      intro n h
      rw [hstore n h, decide_eq_true hdiv, Bool.not_true, Bool.or_false]
    refine ⟨hload, hstore', countP_guards hne hnd hmem hit hdiv, ?_⟩
    intro n h
    rw [hstore' n h]
    constructor
    · intro hne
      have hlt : n + 1 < (iterations loops env).length := by
        simp only [Option.some.injEq, decide_eq_true_eq] at hne
        omega
      exact ⟨hlt, by rw [hload _ hlt]; simp⟩
    · rintro ⟨hlt, -⟩
      simp only [Option.some.injEq, decide_eq_true_eq]
      omega

end Nest

/-- No loop is entered. -/
def noFrames : Env := fun _ => ⟨0, 0, 0, 0⟩

/-- `for i = 2 to 8 step 3`, and inside it `for j = i + 1 to 12 step 2`. -/
def dividingNest : List ForOp :=
  [.const 0 2 8 3, ⟨1, fun env => (env 0).inductionVar + 1, fun _ => 12, fun _ => 2⟩]

theorem paired_iff_stepsDivide_dividing :
    Paired [1, 0] (iterations dividingNest noFrames) ↔ StepsDivideAtLast dividingNest noFrames :=
  paired_iff_stepsDivide (by decide) (by decide)
    (fun i => by simp [dividingNest, ForOp.const, or_comm]) (by decide +kernel)

/-- `for i = 0 to 3 step 2` runs twice: the store stage signals in both iterations, the load stage
in one. -/
theorem not_paired_of_remainder :
    Iterates [.const 0 0 3 2] noFrames ∧
    ¬ Paired [0] (iterations [.const 0 0 3 2] noFrames) := by
  refine ⟨by decide +kernel, fun hp => ?_⟩
  exact absurd hp.count (by decide +kernel)

end SignalInsertion

end DataflowScheduler
