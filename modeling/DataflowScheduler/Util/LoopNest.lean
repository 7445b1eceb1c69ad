import Mathlib.Logic.Function.Basic
import Mathlib.Data.List.Nodup

/-!
# Nests of counted loops

Loops over 64-bit induction variables with a lower bound, an upper bound and a step, compared as
signed integers, nested in each other. The bounds of a loop may depend on the induction variables
around it. An iteration of a nest is the environment its innermost body sees, and `iterations` lists
them in the order they are executed.
-/

namespace LoopNest

abbrev LoopId := Nat

/-- What the body of a loop sees of it in one iteration. -/
structure Frame where
  lowerBound : BitVec 64
  upperBound : BitVec 64
  step : BitVec 64
  inductionVar : BitVec 64
  deriving Repr, DecidableEq

/-- The loops around a place, by their identity. Only entered loops are ever looked up. -/
abbrev Env := LoopId → Frame

/-- A loop `for iv = lowerBound to upperBound step step`. -/
structure ForOp where
  id : LoopId
  lowerBound : Env → BitVec 64
  upperBound : Env → BitVec 64
  step : Env → BitVec 64

namespace ForOp

/-- A loop whose bounds are constants. -/
def const (id : LoopId) (lowerBound upperBound step : BitVec 64) : ForOp :=
  ⟨id, fun _ => lowerBound, fun _ => upperBound, fun _ => step⟩

variable (loop : ForOp) (env : Env)

/-- Number of iterations, `⌈(upperBound - lowerBound) / step⌉`. -/
def count : Nat :=
  (((loop.upperBound env).toInt - (loop.lowerBound env).toInt + (loop.step env).toInt - 1) /
    (loop.step env).toInt).toNat

/-- The frame of iteration `k`. -/
def frame (k : Nat) : Frame where
  lowerBound := loop.lowerBound env
  upperBound := loop.upperBound env
  step := loop.step env
  inductionVar := BitVec.ofInt 64 ((loop.lowerBound env).toInt + k * (loop.step env).toInt)

/-- The environment of iteration `k`. -/
def enter (k : Nat) : Env := Function.update env loop.id (loop.frame env k)

/-- The environments of all iterations, in order. -/
def iterations : List Env := (List.range (loop.count env)).map (loop.enter env)

/-- The loop steps upwards and has an iteration. -/
structure Iterates : Prop where
  step_pos : 0 < (loop.step env).toInt
  lower_lt_upper : (loop.lowerBound env).toInt < (loop.upperBound env).toInt

/-- The step divides the range. -/
def StepDivides : Prop :=
  (loop.step env).toInt ∣ (loop.upperBound env).toInt - (loop.lowerBound env).toInt

instance : Decidable (loop.StepDivides env) := inferInstanceAs (Decidable (_ ∣ _))

instance : Decidable (loop.Iterates env) :=
  decidable_of_iff (0 < (loop.step env).toInt ∧
    (loop.lowerBound env).toInt < (loop.upperBound env).toInt)
    ⟨fun h => ⟨h.1, h.2⟩, fun h => ⟨h.1, h.2⟩⟩

end ForOp

/-- The iterations of a nest, outermost loop first, in lexicographic order. -/
def iterations : List ForOp → Env → List Env
  | [], env => [env]
  | loop :: loops, env => (loop.iterations env).flatMap (iterations loops)

/-- Every loop of the nest has an iteration whenever it is reached. -/
def Iterates : List ForOp → Env → Prop
  | [], _ => True
  | loop :: loops, env => loop.Iterates env ∧ ∀ env' ∈ loop.iterations env, Iterates loops env'

/-- The step of every loop divides its range, in the last iteration of the loops around it. -/
def StepsDivideAtLast : List ForOp → Env → Prop
  | [], _ => True
  | loop :: loops, env =>
      loop.StepDivides env ∧ StepsDivideAtLast loops (loop.enter env (loop.count env - 1))

instance StepsDivideAtLast.decidable : ∀ (loops : List ForOp) (env : Env),
    Decidable (StepsDivideAtLast loops env)
  | [], _ => isTrue trivial
  | loop :: loops, env =>
      have := StepsDivideAtLast.decidable loops (loop.enter env (loop.count env - 1))
      inferInstanceAs (Decidable (loop.StepDivides env ∧ _))

instance Iterates.decidable : ∀ (loops : List ForOp) (env : Env), Decidable (Iterates loops env)
  | [], _ => isTrue trivial
  | loop :: loops, env =>
      have := Iterates.decidable loops
      inferInstanceAs
        (Decidable (loop.Iterates env ∧ ∀ env' ∈ loop.iterations env, Iterates loops env'))

/-! ## One loop -/

namespace ForOp

variable {loop : ForOp} {env : Env}

theorem count_pos (h : loop.Iterates env) : 0 < loop.count env := by
  have hs := h.step_pos
  have hlt := h.lower_lt_upper
  have hdiv : 1 ≤ ((loop.upperBound env).toInt - (loop.lowerBound env).toInt +
      (loop.step env).toInt - 1) / (loop.step env).toInt := by
    rw [Int.le_ediv_iff_mul_le hs]
    omega
  unfold count
  omega

/-- Iterations start below the upper bound. -/
theorem lt_upperBound (h : loop.Iterates env) {k : Nat} (hk : k < loop.count env) :
    (loop.lowerBound env).toInt + k * (loop.step env).toInt < (loop.upperBound env).toInt := by
  have hs := h.step_pos
  have hk' : (k : Int) + 1 ≤ ((loop.upperBound env).toInt - (loop.lowerBound env).toInt +
      (loop.step env).toInt - 1) / (loop.step env).toInt := by
    unfold count at hk
    omega
  rw [Int.le_ediv_iff_mul_le hs, Int.add_mul, Int.one_mul] at hk'
  omega

/-- The last iteration ends at the upper bound or beyond. -/
theorem upperBound_le (h : loop.Iterates env) :
    (loop.upperBound env).toInt ≤
      (loop.lowerBound env).toInt + loop.count env * (loop.step env).toInt := by
  have hs := h.step_pos
  have hpos := count_pos h
  have hcount : ((loop.upperBound env).toInt - (loop.lowerBound env).toInt +
      (loop.step env).toInt - 1) / (loop.step env).toInt = loop.count env := by
    unfold count at hpos ⊢
    omega
  have hlt := Int.lt_ediv_add_one_mul_self ((loop.upperBound env).toInt -
    (loop.lowerBound env).toInt + (loop.step env).toInt - 1) hs
  rw [hcount, Int.add_mul, Int.one_mul] at hlt
  omega

theorem toInt_inductionVar (h : loop.Iterates env) {k : Nat} (hk : k < loop.count env) :
    (loop.frame env k).inductionVar.toInt =
      (loop.lowerBound env).toInt + k * (loop.step env).toInt := by
  have hs := h.step_pos
  have hlt := lt_upperBound h hk
  have hlb := (loop.lowerBound env).le_toInt
  have hub := (loop.upperBound env).toInt_lt
  have hmul : 0 ≤ (k : Int) * (loop.step env).toInt :=
    Int.mul_nonneg (Int.natCast_nonneg k) (Int.le_of_lt hs)
  simp only [frame, BitVec.toInt_ofInt]
  rw [Int.bmod_eq_of_le] <;> omega

/-- The induction variable is at the lower bound in the first iteration only. -/
theorem inductionVar_ne_lowerBound (h : loop.Iterates env) {k : Nat} (hk : k < loop.count env) :
    (loop.frame env k).inductionVar ≠ (loop.frame env k).lowerBound ↔ k ≠ 0 := by
  rw [not_iff_not, ← BitVec.toInt_inj, toInt_inductionVar h hk]
  have hs := h.step_pos
  constructor
  · intro heq
    have hmul : (k : Int) * (loop.step env).toInt = 0 := by
      simp only [frame] at heq
      omega
    rcases Int.mul_eq_zero.mp hmul with hk0 | hs0
    · exact Int.natCast_eq_zero.mp hk0
    · omega
  · rintro rfl
    simp [frame]

/-- One step after iteration `k` is the upper bound only if `k` is the last and the step divides
the range. -/
theorem next_eq_upperBound (h : loop.Iterates env) {k : Nat} (hk : k < loop.count env) :
    (loop.lowerBound env).toInt + k * (loop.step env).toInt + (loop.step env).toInt =
        (loop.upperBound env).toInt ↔ k + 1 = loop.count env ∧ loop.StepDivides env := by
  have hs := h.step_pos
  constructor
  · intro heq
    refine ⟨?_, k + 1, by rw [Int.mul_add, Int.mul_one, Int.mul_comm]; omega⟩
    by_contra hne
    have hlt := lt_upperBound h (k := k + 1) (by omega)
    rw [Int.natCast_succ, Int.add_mul, Int.one_mul] at hlt
    omega
  · rintro ⟨hlast, m, hm⟩
    have hlt := lt_upperBound h hk
    have hle := upperBound_le h
    rw [← hlast, Int.natCast_succ, Int.add_mul, Int.one_mul] at hle
    have hkm : (k : Int) < m := by
      refine Int.lt_of_mul_lt_mul_left (a := (loop.step env).toInt) ?_ (Int.le_of_lt hs)
      rw [Int.mul_comm]
      omega
    have hmk : m < (k : Int) + 2 := by
      refine Int.lt_of_mul_lt_mul_left (a := (loop.step env).toInt) ?_ (Int.le_of_lt hs)
      rw [Int.mul_add, Int.mul_comm _ (k : Int)]
      omega
    have hmeq : m = k + 1 := by omega
    rw [hmeq, Int.mul_add, Int.mul_one, Int.mul_comm] at hm
    omega

/-- The induction variable is one step below the upper bound in the last iteration only, and there
only if the step divides the range. -/
theorem inductionVar_ne_last (h : loop.Iterates env) {k : Nat} (hk : k < loop.count env) :
    (loop.frame env k).inductionVar ≠
        (loop.frame env k).upperBound - (loop.frame env k).step ↔
      ¬ (k + 1 = loop.count env ∧ loop.StepDivides env) := by
  rw [not_iff_not, ← next_eq_upperBound h hk, ← BitVec.toInt_inj, toInt_inductionVar h hk]
  have hs := h.step_pos
  have hslt := (loop.step env).toInt_lt
  have hlt := lt_upperBound h hk
  have hlb := (loop.lowerBound env).le_toInt
  have hub := (loop.upperBound env).toInt_lt
  have hmul : 0 ≤ (k : Int) * (loop.step env).toInt :=
    Int.mul_nonneg (Int.natCast_nonneg k) (Int.le_of_lt hs)
  simp only [frame, BitVec.toInt_sub]
  -- The subtraction wraps, but both sides are within one period of each other.
  rw [Int.bmod_def]
  constructor
  · intro heq
    split at heq <;> omega
  · intro heq
    split <;> omega

end ForOp

/-! ## The first and the last iteration of a nest -/

/-- The induction variable is not at the lower bound. -/
def Frame.notFirst (f : Frame) : Bool := f.inductionVar != f.lowerBound

/-- The induction variable is not one step below the upper bound. -/
def Frame.notLast (f : Frame) : Bool := f.inductionVar != f.upperBound - f.step

/-- Truth values of which exactly the first is false. -/
def FalseFirst (l : List Bool) : Prop := ∃ rest, l = false :: rest ∧ ∀ b ∈ rest, b = true

/-- Truth values that are all true but the last, which is `last`. -/
def TrueUntilLast (last : Bool) (l : List Bool) : Prop :=
  ∃ rest, l = rest ++ [last] ∧ ∀ b ∈ rest, b = true

theorem FalseFirst.getElem {l : List Bool} (h : FalseFirst l) (n : Nat) (hn : n < l.length) :
    l[n] = decide (n ≠ 0) := by
  obtain ⟨rest, rfl, hrest⟩ := h
  cases n with
  | zero => rfl
  | succ n => simpa using hrest _ (List.getElem_mem (l := rest) (by simpa using hn))

theorem TrueUntilLast.getElem {last : Bool} {l : List Bool} (h : TrueUntilLast last l) (n : Nat)
    (hn : n < l.length) : l[n] = (decide (n + 1 ≠ l.length) || last) := by
  obtain ⟨rest, rfl, hrest⟩ := h
  rw [List.length_append, List.length_singleton] at hn ⊢
  by_cases hlast : n < rest.length
  · rw [List.getElem_append_left hlast, hrest _ (List.getElem_mem hlast)]
    simp [Nat.ne_of_lt hlast]
  · have hn' : n = rest.length := by omega
    subst hn'
    simp

theorem FalseFirst.count {l : List Bool} (h : FalseFirst l) : l.count true + 1 = l.length := by
  obtain ⟨rest, rfl, hrest⟩ := h
  have hall : rest.count true = rest.length := List.count_eq_length.mpr fun b hb => (hrest b hb).symm
  rw [List.count_cons_of_ne (by simp), hall, List.length_cons]

theorem TrueUntilLast.count {l : List Bool} (h : TrueUntilLast false l) :
    l.count true + 1 = l.length := by
  obtain ⟨rest, rfl, hrest⟩ := h
  have hall : rest.count true = rest.length := List.count_eq_length.mpr fun b hb => (hrest b hb).symm
  rw [List.count_append, hall, List.length_append]
  rfl

theorem FalseFirst.append {l l' : List Bool} (h : FalseFirst l) (h' : ∀ b ∈ l', b = true) :
    FalseFirst (l ++ l') := by
  obtain ⟨rest, rfl, hrest⟩ := h
  refine ⟨rest ++ l', rfl, fun b hb => ?_⟩
  rcases List.mem_append.mp hb with hb | hb
  · exact hrest b hb
  · exact h' b hb

theorem TrueUntilLast.append {last : Bool} {l l' : List Bool} (h : ∀ b ∈ l, b = true)
    (h' : TrueUntilLast last l') : TrueUntilLast last (l ++ l') := by
  obtain ⟨rest, rfl, hrest⟩ := h'
  refine ⟨l ++ rest, (List.append_assoc _ _ _).symm, fun b hb => ?_⟩
  rcases List.mem_append.mp hb with hb | hb
  · exact h b hb
  · exact hrest b hb

theorem TrueUntilLast.map_or {last : Bool} {l : List Bool} (h : TrueUntilLast last l) (t : Bool) :
    TrueUntilLast (t || last) (l.map fun b => t || b) := by
  obtain ⟨rest, rfl, hrest⟩ := h
  refine ⟨rest.map fun b => t || b, by simp, fun b hb => ?_⟩
  obtain ⟨b', hb', rfl⟩ := List.mem_map.mp hb
  rw [hrest b' hb', Bool.or_true]

/-- Whether some loop of the nest passes the test in an iteration. -/
def anyLoop (test : Frame → Bool) (loops : List ForOp) (env : Env) : Bool :=
  loops.any fun loop => test (env loop.id)

/-- The loops of a nest leave the frames of other loops alone. -/
theorem iterations_frame {loops : List ForOp} {id : LoopId} (hid : id ∉ loops.map ForOp.id)
    {env env' : Env} (h : env' ∈ iterations loops env) : env' id = env id := by
  induction loops generalizing env with
  | nil =>
      rw [List.mem_singleton.mp h]
  | cons loop loops ih =>
      rw [List.map_cons, List.mem_cons, not_or] at hid
      obtain ⟨mid, hmid, h⟩ := List.mem_flatMap.mp h
      obtain ⟨k, -, rfl⟩ := List.mem_map.mp hmid
      rw [ih hid.2 h, ForOp.enter, Function.update_of_ne hid.1]

/-- The tests of all iterations, by iteration of the outermost loop. -/
theorem map_anyLoop_cons (test : Frame → Bool) {loop : ForOp} {loops : List ForOp}
    (hnd : ((loop :: loops).map ForOp.id).Nodup) (env : Env) :
    (iterations (loop :: loops) env).map (anyLoop test (loop :: loops)) =
      (List.range (loop.count env)).flatMap fun k =>
        ((iterations loops (loop.enter env k)).map (anyLoop test loops)).map
          fun b => test (loop.frame env k) || b := by
  rw [List.map_cons, List.nodup_cons] at hnd
  rw [iterations, ForOp.iterations, List.flatMap_map, List.map_flatMap]
  refine List.flatMap_congr fun k _ => ?_
  rw [List.map_map]
  refine List.map_congr_left fun env' henv' => ?_
  rw [anyLoop, List.any_cons, iterations_frame hnd.1 henv', ForOp.enter, Function.update_self]
  rfl

/-- Blocks whose outermost loop passes the test pass it throughout. -/
theorem flatMap_or_true {α : Type} {ks : List α} {test : α → Bool} {block : α → List Bool}
    (h : ∀ k ∈ ks, test k = true) :
    ∀ b ∈ ks.flatMap (fun k => (block k).map fun b => test k || b), b = true := by
  intro b hb
  obtain ⟨k, hk, hb⟩ := List.mem_flatMap.mp hb
  obtain ⟨b', -, rfl⟩ := List.mem_map.mp hb
  rw [h k hk, Bool.true_or]

/-- Exactly the first iteration of a nest has every loop at its lower bound. -/
theorem falseFirst_anyLoop {loops : List ForOp} {env : Env} (hnd : (loops.map ForOp.id).Nodup)
    (h : Iterates loops env) :
    FalseFirst ((iterations loops env).map (anyLoop Frame.notFirst loops)) := by
  induction loops generalizing env with
  | nil => exact ⟨[], rfl, by simp⟩
  | cons loop loops ih =>
      have hpos := ForOp.count_pos h.1
      obtain ⟨c, hc⟩ : ∃ c, loop.count env = c + 1 := ⟨loop.count env - 1, by omega⟩
      have htest : ∀ k < loop.count env, (loop.frame env k).notFirst = decide (k ≠ 0) := by
        intro k hk
        rw [Frame.notFirst, Bool.eq_iff_iff, bne_iff_ne, decide_eq_true_iff]
        exact ForOp.inductionVar_ne_lowerBound h.1 hk
      have hmem : loop.enter env 0 ∈ loop.iterations env :=
        List.mem_map_of_mem (List.mem_range.mpr hpos)
      rw [map_anyLoop_cons _ hnd, hc, List.range_succ_eq_map, List.flatMap_cons]
      refine FalseFirst.append ?_ (flatMap_or_true fun k hk => ?_)
      · rw [htest 0 hpos]
        simpa only [ne_eq, not_true_eq_false, decide_false, Bool.false_or, List.map_id'] using
          ih (List.nodup_cons.mp hnd).2 (h.2 _ hmem)
      · obtain ⟨k, hmem, rfl⟩ := List.mem_map.mp hk
        have hlt := List.mem_range.mp hmem
        rw [htest _ (by omega)]
        simp

/-- Only the last iteration of a nest can have every loop one step below its upper bound, and it
does if the steps divide the ranges. -/
theorem trueUntilLast_anyLoop {loops : List ForOp} {env : Env} (hnd : (loops.map ForOp.id).Nodup)
    (h : Iterates loops env) :
    TrueUntilLast (!decide (StepsDivideAtLast loops env))
      ((iterations loops env).map (anyLoop Frame.notLast loops)) := by
  induction loops generalizing env with
  | nil => exact ⟨[], rfl, by simp⟩
  | cons loop loops ih =>
      have hpos := ForOp.count_pos h.1
      obtain ⟨c, hc⟩ : ∃ c, loop.count env = c + 1 := ⟨loop.count env - 1, by omega⟩
      have htest : ∀ k < loop.count env, (loop.frame env k).notLast =
          !decide (k + 1 = loop.count env ∧ loop.StepDivides env) := by
        intro k hk
        rw [Frame.notLast, Bool.eq_iff_iff, bne_iff_ne, Bool.not_eq_true', decide_eq_false_iff_not]
        exact ForOp.inductionVar_ne_last h.1 hk
      have hmem : loop.enter env c ∈ loop.iterations env :=
        List.mem_map_of_mem (List.mem_range.mpr (by omega))
      rw [map_anyLoop_cons _ hnd, hc, List.range_succ, List.flatMap_append, List.flatMap_singleton]
      refine TrueUntilLast.append (flatMap_or_true fun k hk => ?_) ?_
      · rw [List.mem_range] at hk
        rw [htest k (by omega), hc]
        have hne : ¬ (k + 1 = c + 1 ∧ loop.StepDivides env) := by omega
        rw [decide_eq_false hne, Bool.not_false]
      · have hlast := (ih (List.nodup_cons.mp hnd).2 (h.2 _ hmem)).map_or
          (loop.frame env c).notLast
        have heq : ((loop.frame env c).notLast || !decide (StepsDivideAtLast loops (loop.enter env c)))
            = !decide (StepsDivideAtLast (loop :: loops) env) := by
          rw [htest c (by omega), ← Bool.not_and, ← Bool.decide_and]
          simp [StepsDivideAtLast, hc]
        rwa [heq] at hlast

end LoopNest
