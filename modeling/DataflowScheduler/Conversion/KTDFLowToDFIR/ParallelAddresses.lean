import DataflowScheduler.Conversion.KTDFLowToDFIR.ParallelLowering
import DataflowScheduler.Util.Except
import Mathlib.Data.List.Induction
import Mathlib.Tactic.Ring

/-!
# The addresses after the lowering of `ktdf.parallel`

The lowered loop starts at zero with step one, and a view moves for all its accesses. So the addresses
are kept exactly where the iterations of an instance are numbered like those of the new loop, up to the
offset of the view.
-/

namespace ParallelLowering

open KTDF

/-- A program unit that is lowered. -/
structure ProgramUnit where
  corelets : List Int
  module : Op
  ids : (module.preorder.map OpInfo.id).Nodup

/-! ## What is executed -/

/-- The iterations of a loop that one instance executes. -/
structure Range where
  lower : Int
  step : Int
  first : Nat
  size : Nat

/-- The induction variable in the `k`-th of these iterations. -/
def Range.value (r : Range) (k : Nat) : Int := r.lower + (r.first + k) * r.step

/-- The lower bound, the step and the number of iterations. -/
def evalBounds (interp : Interp) (env : Env OpId) (b : Bounds) : Option (Int × Int × Nat) := do
  let lower ← evalValue interp env b.lowerBound
  let upper ← evalValue interp env b.upperBound
  let step ← evalValue interp env b.step
  pure (lower, step, tripCount lower upper step)

/-- The iterations of a loop, if the operation is one: of a `ktdf.parallel`, instance `c` executes the
`c`-th block. There is no range when a bound has no value. -/
def loopRange (interp : Interp) (c : Nat) (env : Env OpId) (op : OpInfo) : Option (Option Range) :=
  match op.kind with
  | .scfFor b => some ((evalBounds interp env b).map fun r => ⟨r.1, r.2.1, 0, r.2.2⟩)
  | .parallel ⟨[b], _, _, n⟩ =>
      some ((evalBounds interp env b).map fun r =>
        ⟨r.1, r.2.1, c * blockLength r.2.2 n.toNat, blockSize r.2.2 n.toNat c⟩)
  | _ => none

/-- An iteration of a loop, by its number among those the instance executes. -/
structure Frame where
  op : OpId
  k : Nat
  value : Int
  deriving Repr, DecidableEq

/-- The iterations with the numbers `ks` of the loops among the operations, from the outermost one on,
if the instance executes them. -/
def frames (interp : Interp) (c : Nat) : Env OpId → List OpInfo → List Nat → Option (List Frame)
  | _, [], ks => if ks = [] then some [] else none
  | env, op :: ops, ks =>
      match loopRange interp c env op with
      | none => frames interp c env ops ks
      | some range =>
          match range, ks with
          | some r, k :: ks =>
              if k < r.size then
                (frames interp c (env.bind op.id (r.value k)) ops ks).map
                  (⟨op.id, k, r.value k⟩ :: ·)
              else none
          | _, _ => none

/-- The induction variables in these iterations. -/
def envOf (fs : List Frame) (env : Env OpId) : Env OpId :=
  fs.foldl (fun env f => env.bind f.op f.value) env

/-- The address of an access to a view that starts at `start`. -/
def address (interp : Interp) (start : Int) (env : Env OpId) (v : VectorOp) : Option Int :=
  (v.coefficients.mapM fun c => (evalValue interp env c.1).map (c.2 * ·)).map fun xs =>
    start + v.constant + xs.sum

/-- The address in the iterations with the numbers `ks`. -/
def addressAt (interp : Interp) (c : Nat) (start : Int) (ops : List OpInfo) (v : VectorOp)
    (ks : List Nat) : Option Int :=
  (frames interp c (fun _ => none) ops ks).bind fun fs =>
    address interp start (envOf fs fun _ => none) v

/-- How far the offsets move a view on a corelet. -/
def coreletOffset (offsets : List (ViewId × Int)) (c : Nat) (view : ViewId) : Int :=
  if c = 1 then ((offsets.filter fun a => a.1 = view).map Prod.snd).sum else 0

/-- The operations around one, from the outermost one on. -/
def around (module : Op) (op : OpInfo) : List OpInfo := module.labelsAround fun i => i.id = op.id

/-- On every corelet the body of every operation is executed in the iterations it was executed in by
the instance, and every access has the addresses it had. -/
structure AddressesKept (unit : ProgramUnit) (state : State) : Prop where
  executed : ∀ op ∈ unit.module.preorder, ∀ op' ∈ state.module.preorder, op'.id = op.id →
    ∀ c : Nat, (c : Int) ∈ unit.corelets → ∀ interp ks,
      (frames interp c (fun _ => none) (around unit.module op ++ [op]) ks).isSome =
        (frames interp c (fun _ => none) (around state.module op ++ [op']) ks).isSome
  addresses : ∀ op ∈ unit.module.preorder, ∀ v, op.asVectorOp = some v →
    ∀ c : Nat, (c : Int) ∈ unit.corelets → ∀ interp (start : Option ViewId → Int) ks,
      addressAt interp c (start v.view) (around unit.module op) v ks =
        addressAt interp c (start v.view + v.view.elim 0 (coreletOffset state.offsets c))
          (around state.module op) v ks

/-! ## The lowered unit -/

/-- An operation after the lowering. -/
def lowered (op : OpInfo) : OpInfo :=
  match op.asParallel with
  | none => op
  | some p => (constantUpperBound op.id p).toOption.elim op fun ub =>
      { op with kind := .scfFor ⟨.const 0, .const (ub / p.numInstances), .const 1⟩ }

/-- The coefficient of the variable in an access. -/
def coefficient (v : VectorOp) (loop : OpId) : Int :=
  ((v.coefficients.find? fun c => c.1 = .inductionVar loop).map Prod.snd).getD 0

/-- The number of iterations of the new loop. -/
def iterations (op : OpId) (p : ParallelOp) : Int :=
  (constantUpperBound op p).toOption.elim 0 fun ub => ub / p.numInstances

/-- How far a parallel operation moves a view on corelet 1. -/
def offsetFor (module : Op) (view : ViewId) (op : OpId × ParallelOp) : Int :=
  ((users op.1 module).find? fun u => u.2.view = some view).elim 0 fun u =>
    coefficient u.2 op.1 * iterations op.1 op.2

/-- How far all of them move it. -/
def viewOffset (module : Op) (view : ViewId) : Int :=
  ((parallelOps module).map (offsetFor module view)).sum

variable {unit : ProgramUnit} {corelets : List Int}

@[simp] theorem id_lowered (op : OpInfo) : (lowered op).id = op.id := by
  unfold lowered
  cases op.asParallel with
  | none => rfl
  | some p =>
    simp only
    cases (constantUpperBound op.id p).toOption <;> rfl

theorem lowered_of_not_parallel {op : OpInfo} (h : op.asParallel = none) : lowered op = op := by
  unfold lowered
  rw [h]

theorem mem_parallelOps {module : Op} {x : OpId × ParallelOp} :
    x ∈ parallelOps module ↔ ∃ op ∈ module.preorder, op.id = x.1 ∧ op.asParallel = some x.2 := by
  unfold parallelOps
  rw [List.mem_filterMap]
  constructor
  · rintro ⟨op, hop, h⟩
    obtain ⟨p, hp, rfl⟩ := Option.map_eq_some_iff.mp h
    exact ⟨op, (Rose.postorder_perm module).mem_iff.mp hop, rfl, hp⟩
  · rintro ⟨op, hop, hid, hp⟩
    exact ⟨op, (Rose.postorder_perm module).mem_iff.mpr hop, by rw [hp, hid]; rfl⟩

theorem op_unique {a b : OpInfo} (ha : a ∈ unit.module.preorder) (hb : b ∈ unit.module.preorder)
    (h : a.id = b.id) : a = b := List.inj_on_of_nodup_map unit.ids ha hb h

/-! ## One step -/

/-- **What the lowering of one parallel operation does.** -/
theorem lowerParallelOp_ok {state state' : State} {x : OpId × ParallelOp}
    (h : lowerParallelOp corelets state x = .ok state') :
    ∃ ub adjusted, constantUpperBound x.1 x.2 = .ok ub ∧
      (∀ i ∈ state.module.preorder, i.usesElsewhere x.1 = false) ∧
      state'.module = state.module.map (lowerOp x.1 (ub / x.2.numInstances)) ∧
      (users x.1 state'.module).foldlM
        (updateStartAddress corelets x.1 ub x.2.numInstances) [] = .ok adjusted ∧
      state'.offsets = state.offsets ++ adjusted := by
  unfold lowerParallelOp at h
  split at h
  next => cases h
  next =>
    split at h
    next => cases h
    next =>
      split at h
      next => cases h
      next huses =>
        obtain ⟨ub, hub, h⟩ := Except.bind_eq_ok.mp h
        split at h
        next => cases h
        next =>
          obtain ⟨adjusted, hadjusted, h⟩ := Except.bind_eq_ok.mp h
          obtain rfl := Except.ok.inj h
          refine ⟨ub, adjusted, hub, ?_, rfl, hadjusted, rfl⟩
          simpa using huses

/-- **What a user records.** Its view, with its own offset, unless the view is recorded with it. -/
theorem updateStartAddress_ok {loop : OpId} {ub n : Int} {adjusted adjusted' : List (ViewId × Int)}
    {user : OpId × VectorOp}
    (h : updateStartAddress corelets loop ub n adjusted user = .ok adjusted') :
    ∃ view, user.2.view = some view ∧
      ((∃ recorded, adjusted.find? (fun a => a.1 = view) = some recorded ∧ adjusted' = adjusted) ∨
        (adjusted.find? (fun a => a.1 = view) = none ∧
          adjusted' = adjusted ++ [(view, coefficient user.2 loop * (ub / n))])) := by
  obtain ⟨coeff, hcoeff, h⟩ := Except.bind_eq_ok.mp h
  have hcoefficient : coefficient user.2 loop = coeff := by
    unfold getLayoutMapCoeff at hcoeff
    split at hcoeff
    next => cases hcoeff
    next =>
      unfold coefficient
      cases hfind : (user.2.coefficients.find? fun c => c.1 = .inductionVar loop).map Prod.snd with
      | none =>
        rw [hfind] at hcoeff
        cases hcoeff
      | some a =>
        rw [hfind] at hcoeff
        exact Except.ok.inj hcoeff
  simp only at h
  cases hview : user.2.view with
  | none =>
    rw [hview] at h
    cases h
  | some view =>
    rw [hview] at h
    simp only at h
    refine ⟨view, rfl, ?_⟩
    cases hfind : adjusted.find? fun a => a.1 = view with
    | some recorded =>
      rw [hfind] at h
      simp only at h
      split at h
      next => cases h
      next => exact Or.inl ⟨recorded, rfl, (Except.ok.inj h).symm⟩
    | none =>
      rw [hfind] at h
      simp only at h
      cases hcorelet : otherCorelet corelets with
      | some c =>
        rw [hcorelet] at h
        cases h
      | none =>
        rw [hcorelet] at h
        rw [hcoefficient]
        exact Or.inr ⟨rfl, (Except.ok.inj h).symm⟩

/-- The recorded offset of every view is that of its first user. -/
def Recorded (loop : OpId) (factor : Int) (done : List (OpId × VectorOp))
    (adjusted : List (ViewId × Int)) : Prop :=
  ∀ view, adjusted.filter (fun a => a.1 = view) =
    ((done.find? fun u => u.2.view = some view).map fun u =>
      (view, coefficient u.2 loop * factor)).toList

theorem Recorded.step {loop : OpId} {ub n : Int} {done : List (OpId × VectorOp)}
    {adjusted adjusted' : List (ViewId × Int)} {user : OpId × VectorOp}
    (hrecorded : Recorded loop (ub / n) done adjusted)
    (h : updateStartAddress corelets loop ub n adjusted user = .ok adjusted') :
    Recorded loop (ub / n) (done ++ [user]) adjusted' := by
  obtain ⟨w, hw, h⟩ := updateStartAddress_ok h
  intro view
  have hview := hrecorded view
  rw [List.find?_append]
  by_cases heq : view = w
  · subst heq
    rcases h with ⟨recorded, hfind, hadjusted⟩ | ⟨hfind, rfl⟩
    · rw [hadjusted]
      have hmem : recorded ∈ adjusted.filter fun a => a.1 = view :=
        List.mem_filter.mpr ⟨List.mem_of_find?_eq_some hfind, List.find?_some (p := fun a :
          ViewId × Int => decide (a.1 = view)) hfind⟩
      rw [hview] at hmem ⊢
      cases hdone : done.find? fun u => u.2.view = some view with
      | none =>
        rw [hdone] at hmem
        cases hmem
      | some u => rfl
    · have hnil : adjusted.filter (fun a => a.1 = view) = [] := by
        rw [List.filter_eq_nil_iff]
        exact fun a ha => by simpa using List.find?_eq_none.mp hfind a ha
      rw [hnil] at hview
      cases hdone : done.find? fun u => u.2.view = some view with
      | some u =>
        rw [hdone] at hview
        cases hview
      | none => simp [List.filter_append, hnil, hw]
  · have huser : [user].find? (fun u => u.2.view = some view) = none := by
      simp [hw, Ne.symm heq]
    rw [huser, Option.or_none, ← hview]
    rcases h with ⟨recorded, hfind, rfl⟩ | ⟨hfind, rfl⟩
    · rfl
    · simp [List.filter_append, Ne.symm heq]

theorem Recorded.fold {loop : OpId} {ub n : Int} {done l : List (OpId × VectorOp)}
    {adjusted adjusted' : List (ViewId × Int)}
    (hrecorded : Recorded loop (ub / n) done adjusted)
    (h : l.foldlM (updateStartAddress corelets loop ub n) adjusted = .ok adjusted') :
    Recorded loop (ub / n) (done ++ l) adjusted' := by
  induction l generalizing done adjusted with
  | nil =>
    obtain rfl := Except.ok.inj h
    rw [List.append_nil]
    exact hrecorded
  | cons user l ih =>
    rw [List.foldlM_cons] at h
    obtain ⟨adjusted₁, hstep, h⟩ := Except.bind_eq_ok.mp h
    have hrest := ih (hrecorded.step hstep) h
    rwa [List.append_assoc, List.singleton_append] at hrest

/-! ## All steps -/

/-- The operations of the unit while only those in `done` are lowered. -/
def loweredIn (done : List OpId) (op : OpInfo) : OpInfo := if op.id ∈ done then lowered op else op

@[simp] theorem id_loweredIn {done : List OpId} {op : OpInfo} : (loweredIn done op).id = op.id := by
  unfold loweredIn
  split
  · exact id_lowered op
  · rfl

theorem asVectorOp_lowered {op : OpInfo} : (lowered op).asVectorOp = op.asVectorOp := by
  cases op with
  | mk id kind =>
    cases kind with
    | parallel p =>
      show ((constantUpperBound id p).toOption.elim _ _ : OpInfo).asVectorOp = none
      cases (constantUpperBound id p).toOption <;> rfl
    | _ => rfl

theorem asVectorOp_loweredIn {done : List OpId} {op : OpInfo} :
    (loweredIn done op).asVectorOp = op.asVectorOp := by
  unfold loweredIn
  split
  · exact asVectorOp_lowered
  · rfl

/-- The users of a variable are not lowered. -/
theorem users_map_loweredIn (loop : OpId) (done : List OpId) (module : Op) :
    users loop (module.map (loweredIn done)) = users loop module := by
  unfold users
  rw [Rose.preorder_map, List.filterMap_map]
  congr 1
  funext op
  simp [asVectorOp_loweredIn]

/-- What the checks of one parallel operation leave. -/
structure Accepted (module : Op) (x : OpId × ParallelOp) : Prop where
  upperBound : ∃ ub, constantUpperBound x.1 x.2 = .ok ub
  uses : ∀ op ∈ module.preorder, op.asParallel = none → op.usesElsewhere x.1 = false

/-- **The lowering of some parallel operations.** -/
theorem foldlM_ok {done : List OpId} {ops : List (OpId × ParallelOp)} {state state' : State}
    (hops : ∀ x ∈ ops, x ∈ parallelOps unit.module)
    (hstate : state.module = unit.module.map (loweredIn done))
    (h : ops.foldlM (lowerParallelOp corelets) state = .ok state') :
    state'.module = unit.module.map (loweredIn (done ++ ops.map Prod.fst)) ∧
      (∀ x ∈ ops, Accepted unit.module x) ∧
      ∀ view, ((state'.offsets.filter fun a => a.1 = view).map Prod.snd).sum =
        ((state.offsets.filter fun a => a.1 = view).map Prod.snd).sum +
          (ops.map (offsetFor unit.module view)).sum := by
  induction ops generalizing done state with
  | nil =>
    obtain rfl := Except.ok.inj h
    simp [hstate]
  | cons x ops ih =>
    rw [List.foldlM_cons] at h
    obtain ⟨state₁, hstep, h⟩ := Except.bind_eq_ok.mp h
    rw [List.forall_mem_cons] at hops
    obtain ⟨ub, adjusted, hub, huses, hmodule, hadjusted, hoffsets⟩ := lowerParallelOp_ok hstep
    obtain ⟨op₀, hop₀, hid₀, hpar₀⟩ := mem_parallelOps.mp hops.1
    have hlowered : lowered op₀ = { op₀ with
        kind := .scfFor ⟨.const 0, .const (ub / x.2.numInstances), .const 1⟩ } := by
      unfold lowered
      rw [hpar₀]
      simp only
      rw [hid₀, hub]
      rfl
    have hmodule₁ : state₁.module = unit.module.map (loweredIn (done ++ [x.1])) := by
      rw [hmodule, hstate, Rose.map_map]
      apply Rose.map_congr
      intro op hop
      show lowerOp x.1 _ (loweredIn done op) = _
      unfold lowerOp
      rw [id_loweredIn]
      by_cases hid : op.id = x.1
      · have hop' : op = op₀ := op_unique hop hop₀ (hid.trans hid₀.symm)
        rw [if_pos hid, loweredIn, if_pos (by simp [hid]), hop', hlowered]
      · rw [if_neg hid]
        unfold loweredIn
        simp [hid]
    obtain ⟨hfinal, haccepted, hsum⟩ := ih hops.2 hmodule₁ h
    refine ⟨?_, ?_, ?_⟩
    · rw [hfinal, List.map_cons, List.append_assoc, List.singleton_append]
    · rw [List.forall_mem_cons]
      refine ⟨⟨⟨ub, hub⟩, ?_⟩, haccepted⟩
      intro op hop hnot
      apply huses
      rw [hstate, Rose.preorder_map, List.mem_map]
      refine ⟨op, hop, ?_⟩
      unfold loweredIn
      rw [lowered_of_not_parallel hnot, ite_self]
    · intro view
      have hempty : Recorded x.1 (ub / x.2.numInstances) [] [] := fun _ => rfl
      have hrecorded := hempty.fold hadjusted view
      rw [hmodule₁, users_map_loweredIn, List.nil_append] at hrecorded
      have hiter : iterations x.1 x.2 = ub / x.2.numInstances := by
        unfold iterations
        rw [hub]
        rfl
      rw [hsum, hoffsets, List.filter_append, List.map_append, List.sum_append, hrecorded,
        List.map_cons, List.sum_cons]
      have hoffset : ((((users x.1 unit.module).find? fun u => u.2.view = some view).map fun u =>
          (view, coefficient u.2 x.1 * (ub / x.2.numInstances))).toList.map Prod.snd).sum =
          offsetFor unit.module view x := by
        unfold offsetFor
        rw [hiter]
        cases (users x.1 unit.module).find? fun u => u.2.view = some view <;> simp
      rw [hoffset]
      omega

/-- **The lowering.** Every parallel operation is lowered, its induction variable is used by accesses
only, and the views move by the sum of the offsets. -/
theorem lowerParallelOps_ok {grid : Option (List Int)} {state : State}
    (h : lowerParallelOps grid unit.corelets unit.module = .ok state) :
    state.module = unit.module.map lowered ∧
      (∀ x ∈ parallelOps unit.module, Accepted unit.module x) ∧
      ∀ c view, coreletOffset state.offsets c view = if c = 1 then viewOffset unit.module view else 0 := by
  have hall : unit.module.map (loweredIn ((parallelOps unit.module).map Prod.fst)) =
      unit.module.map lowered := by
    apply Rose.map_congr
    intro op hop
    unfold loweredIn
    split
    next => rfl
    next hnot =>
      rw [lowered_of_not_parallel]
      cases hpar : op.asParallel with
      | none => rfl
      | some p =>
        exact absurd (List.mem_map_of_mem (f := Prod.fst)
          (mem_parallelOps.mpr ⟨op, hop, rfl, hpar⟩ : (op.id, p) ∈ _)) hnot
  have hnone : unit.module.map (loweredIn []) = unit.module :=
    Rose.map_id_of_eq (fun op => by simp [loweredIn]) _
  unfold lowerParallelOps at h
  simp only at h
  split at h
  next hempty =>
    obtain rfl := Except.ok.inj h
    rw [List.isEmpty_iff] at hempty
    rw [← hall, hempty]
    refine ⟨hnone.symm, by simp, ?_⟩
    intro c view
    simp [coreletOffset, viewOffset, hempty]
  next =>
    obtain ⟨_, -, h⟩ := Except.bind_eq_ok.mp h
    obtain ⟨hmodule, haccepted, hsum⟩ :=
      @foldlM_ok unit _ [] _ _ _ (fun x hx => hx) hnone.symm h
    rw [List.nil_append, hall] at hmodule
    refine ⟨hmodule, haccepted, ?_⟩
    intro c view
    unfold coreletOffset viewOffset
    rw [hsum]
    simp

/-! ## Iterations -/

/-- Whether the loop is a parallel operation of the module. -/
def isParallel (module : Op) (loop : OpId) : Bool :=
  decide (loop ∈ (parallelOps module).map Prod.fst)

/-- Every parallel operation among the operations has in the block of instance `c` as many iterations
as the new loop, wherever it is reached. -/
def CountsFit (interp : Interp) (c : Nat) : Env OpId → List OpInfo → Prop
  | _, [] => True
  | env, op :: ops =>
      match loopRange interp c env op with
      | none => CountsFit interp c env ops
      | some range =>
          (∀ p, op.asParallel = some p →
            range.elim 0 Range.size = (iterations op.id p).toNat) ∧
            ∀ r, range = some r → ∀ k < r.size,
              CountsFit interp c (env.bind op.id (r.value k)) ops

/-- An iteration of the new loop. -/
def lowerFrame (module : Op) (f : Frame) : Frame :=
  if isParallel module f.op then { f with value := f.k } else f

/-- The two environments agree on all variables but those of parallel operations. -/
def EnvAgree (module : Op) (env env' : Env OpId) : Prop :=
  ∀ loop, isParallel module loop = false → env loop = env' loop

variable {interp : Interp} {c : Nat} {env env' : Env OpId} {module : Op}

theorem EnvAgree.bind (h : EnvAgree module env env') (loop : OpId) {x y : Int}
    (hxy : isParallel module loop = false → x = y) :
    EnvAgree module (env.bind loop x) (env'.bind loop y) := by
  intro other hother
  unfold Env.bind
  by_cases heq : other = loop
  · rw [if_pos heq, if_pos heq, hxy (heq ▸ hother)]
  · rw [if_neg heq, if_neg heq, h other hother]

theorem evalValue_congr {v : Operand} (h : ∀ loop, mentions loop v = true → env loop = env' loop) :
    evalValue interp env v = evalValue interp env' v := by
  cases v with
  | const x => rfl
  | inductionVar loop => exact h loop (by simp [mentions])
  | result op uses =>
    show (uses.mapM env).map _ = (uses.mapM env').map _
    congr 1
    have huses : ∀ loop ∈ uses, env loop = env' loop := fun loop hloop => h loop (by simp [mentions, hloop])
    clear h
    induction uses with
    | nil => rfl
    | cons u uses ih =>
      rw [List.forall_mem_cons] at huses
      rw [List.mapM_cons, List.mapM_cons, huses.1, ih huses.2]

/-- The bounds of the other loops do not depend on the variables of parallel operations. -/
theorem evalBounds_agree (haccepted : ∀ x ∈ parallelOps module, Accepted module x) {id : OpId}
    {b : Bounds} (hop : (⟨id, .scfFor b⟩ : OpInfo) ∈ module.preorder)
    (h : EnvAgree module env env') : evalBounds interp env b = evalBounds interp env' b := by
  have hmentions : ∀ v ∈ b.operands, ∀ loop, mentions loop v = true → env loop = env' loop := by
    intro v hv loop hloop
    apply h
    rw [isParallel, decide_eq_false_iff_not]
    intro hpar
    obtain ⟨x, hx, rfl⟩ := List.mem_map.mp hpar
    have huses := (haccepted x hx).uses _ hop rfl
    have hany : b.operands.any (mentions x.1) = false := huses
    exact absurd hloop (by simpa using List.any_eq_false.mp hany v hv)
  unfold evalBounds
  rw [evalValue_congr (hmentions b.lowerBound (by simp [Bounds.operands])),
    evalValue_congr (hmentions b.upperBound (by simp [Bounds.operands])),
    evalValue_congr (hmentions b.step (by simp [Bounds.operands]))]

theorem isParallel_of_asParallel {op : OpInfo} {p : ParallelOp} (hop : op ∈ module.preorder)
    (hp : op.asParallel = some p) : isParallel module op.id = true := by
  rw [isParallel, decide_eq_true_eq]
  exact List.mem_map_of_mem (f := Prod.fst) (mem_parallelOps.mpr ⟨op, hop, rfl, hp⟩ : (op.id, p) ∈ _)

theorem not_isParallel {op : OpInfo} (hop : op ∈ unit.module.preorder) (hp : op.asParallel = none) :
    isParallel unit.module op.id = false := by
  rw [isParallel, decide_eq_false_iff_not]
  intro hmem
  obtain ⟨x, hx, hid⟩ := List.mem_map.mp hmem
  obtain ⟨op', hop', hid', hp'⟩ := mem_parallelOps.mp hx
  rw [op_unique hop hop' (hid.symm.trans hid'.symm), hp'] at hp
  cases hp

theorem tripCount_one (n : Int) : tripCount 0 n 1 = n.toNat := by
  unfold tripCount
  simp

/-- The range of the new loop. -/
theorem loopRange_lowered {op : OpInfo} {p : ParallelOp} (hp : op.asParallel = some p)
    (hub : ∃ ub, constantUpperBound op.id p = .ok ub) :
    loopRange interp c env (lowered op) = some (some ⟨0, 1, 0, (iterations op.id p).toNat⟩) := by
  obtain ⟨ub, hub⟩ := hub
  have hlowered : lowered op = { op with
      kind := .scfFor ⟨.const 0, .const (ub / p.numInstances), .const 1⟩ } := by
    unfold lowered
    rw [hp]
    simp only
    rw [hub]
    rfl
  have hiter : iterations op.id p = ub / p.numInstances := by
    unfold iterations
    rw [hub]
    rfl
  rw [hlowered, hiter]
  show some (some (Range.mk 0 1 0 (tripCount 0 (ub / p.numInstances) 1))) = _
  rw [tripCount_one]

/-- A parallel operation with a constant upper bound is a loop. -/
theorem loopRange_parallel {op : OpInfo} {p : ParallelOp} (hp : op.asParallel = some p)
    (hub : ∃ ub, constantUpperBound op.id p = .ok ub) :
    ∃ range, loopRange interp c env op = some range := by
  obtain ⟨ub, hub⟩ := hub
  cases op with
  | mk id kind =>
    cases kind with
    | parallel q =>
      obtain rfl : q = p := Option.some.inj hp
      obtain ⟨bounds, numArguments, used, n⟩ := q
      cases bounds with
      | nil => cases hub
      | cons b bounds =>
        cases bounds with
        | nil => exact ⟨_, rfl⟩
        | cons => cases hub
    | _ => cases hp

/-- An operation that is not lowered has the same range after the lowering. -/
theorem loopRange_agree (haccepted : ∀ x ∈ parallelOps module, Accepted module x) {op : OpInfo}
    (hop : op ∈ module.preorder) (hp : op.asParallel = none) (h : EnvAgree module env env') :
    loopRange interp c env' op = loopRange interp c env op := by
  cases op with
  | mk id kind =>
    cases kind with
    | scfFor b =>
      show some ((evalBounds interp env' b).map _) = some ((evalBounds interp env b).map _)
      rw [evalBounds_agree haccepted hop h]
    | parallel p => cases hp
    | _ => rfl

/-- **Simulation.** Where the counts fit, the new loops execute the iterations with the same numbers. -/
theorem frames_lowered (haccepted : ∀ x ∈ parallelOps unit.module, Accepted unit.module x)
    {ops : List OpInfo} (hops : ∀ op ∈ ops, op ∈ unit.module.preorder)
    (hagree : EnvAgree unit.module env env') (hfit : CountsFit interp c env ops) (ks : List Nat) :
    frames interp c env' (ops.map lowered) ks =
      (frames interp c env ops ks).map (List.map (lowerFrame unit.module)) := by
  induction ops generalizing env env' ks with
  | nil =>
    rw [List.map_nil, frames, frames]
    split <;> rfl
  | cons op ops ih =>
    rw [List.forall_mem_cons] at hops
    rw [List.map_cons, frames, frames]
    rw [CountsFit] at hfit
    cases hp : op.asParallel with
    | none =>
      rw [lowered_of_not_parallel hp, loopRange_agree haccepted hops.1 hp hagree]
      cases hrange : loopRange interp c env op with
      | none =>
        rw [hrange] at hfit
        exact ih hops.2 hagree hfit ks
      | some range =>
        rw [hrange] at hfit
        simp only
        split
        next r k ks =>
          split
          next hk =>
            have hbind := hagree.bind op.id (x := r.value k) (y := r.value k) fun _ => rfl
            rw [ih hops.2 hbind (hfit.2 r rfl k hk) ks, Option.map_map, Option.map_map]
            congr 1
            funext fs
            simp [lowerFrame, not_isParallel hops.1 hp]
          next => rfl
        next => rfl
    | some p =>
      have hub := (haccepted (op.id, p) (mem_parallelOps.mpr ⟨op, hops.1, rfl, hp⟩)).upperBound
      obtain ⟨range, hrange⟩ := @loopRange_parallel interp c env _ _ hp hub
      rw [hrange] at hfit
      rw [hrange, loopRange_lowered hp hub]
      simp only
      have hsize := hfit.1 p hp
      cases range with
      | none =>
        simp only [Option.elim_none] at hsize
        cases ks with
        | nil => rfl
        | cons k ks => simp [← hsize]
      | some r =>
        simp only [Option.elim_some] at hsize
        cases ks with
        | nil => rfl
        | cons k ks =>
          simp only
          rw [← hsize]
          split
          next hk =>
            have hpar := isParallel_of_asParallel hops.1 hp
            have hbind := hagree.bind op.id (x := r.value k)
              (y := (Range.mk 0 1 0 r.size).value k) fun hnot => by simp [hpar] at hnot
            rw [id_lowered, ih hops.2 hbind (hfit.2 r rfl k hk) ks, Option.map_map, Option.map_map]
            congr 1
            funext fs
            simp [lowerFrame, hpar, Range.value]
          next => rfl

/-- If the bodies of all loops are executed in the same iterations, the counts fit. -/
theorem countsFit_of_executed (haccepted : ∀ x ∈ parallelOps unit.module, Accepted unit.module x)
    {ops : List OpInfo} (hops : ∀ op ∈ ops, op ∈ unit.module.preorder)
    (hagree : EnvAgree unit.module env env')
    (h : ∀ ps, ps ≠ [] → ps <+: ops → ∀ ks, (frames interp c env ps ks).isSome =
      (frames interp c env' (ps.map lowered) ks).isSome) : CountsFit interp c env ops := by
  induction ops generalizing env env' with
  | nil => trivial
  | cons op ops ih =>
    rw [List.forall_mem_cons] at hops
    rw [CountsFit]
    cases hp : op.asParallel with
    | none =>
      have hsame : loopRange interp c env' op = loopRange interp c env op :=
        loopRange_agree haccepted hops.1 hp hagree
      cases hrange : loopRange interp c env op with
      | none =>
        apply ih hops.2 hagree
        intro ps hne hps ks
        have hop := h (op :: ps) (List.cons_ne_nil _ _) (List.cons_prefix_cons.mpr ⟨rfl, hps⟩) ks
        rw [List.map_cons, lowered_of_not_parallel hp, frames, frames, hsame, hrange] at hop
        exact hop
      | some range =>
        refine ⟨by simp, ?_⟩
        rintro r rfl k hk
        apply ih hops.2 (hagree.bind op.id (x := r.value k) (y := r.value k) fun _ => rfl)
        intro ps hne hps ks
        have hop := h (op :: ps) (List.cons_ne_nil _ _) (List.cons_prefix_cons.mpr ⟨rfl, hps⟩)
          (k :: ks)
        rw [List.map_cons, lowered_of_not_parallel hp, frames, frames, hsame, hrange] at hop
        simpa [hk] using hop
    | some p =>
      have hub := (haccepted (op.id, p) (mem_parallelOps.mpr ⟨op, hops.1, rfl, hp⟩)).upperBound
      obtain ⟨range, hrange⟩ := @loopRange_parallel interp c env _ _ hp hub
      have hnew := @loopRange_lowered interp c env' _ _ hp hub
      rw [hrange]
      have hsize : range.elim 0 Range.size = (iterations op.id p).toNat := by
        have hiff : ∀ k, k < range.elim 0 Range.size ↔ k < (iterations op.id p).toNat := by
          intro k
          have hop := h [op] (List.cons_ne_nil _ _) (List.cons_prefix_cons.mpr ⟨rfl, List.nil_prefix⟩)
            [k]
          simp only [List.map_singleton, frames, hrange, hnew] at hop
          cases range with
          | none => simpa [apply_ite] using hop
          | some r => simpa [apply_ite] using hop
        apply Nat.le_antisymm
        · exact Nat.le_of_not_lt fun hlt => Nat.lt_irrefl _ ((hiff _).mp hlt)
        · exact Nat.le_of_not_lt fun hlt => Nat.lt_irrefl _ ((hiff _).mpr hlt)
      refine ⟨fun q hq => by rw [← Option.some.inj hq]; exact hsize, ?_⟩
      rintro r rfl k hk
      have hpar := isParallel_of_asParallel hops.1 hp
      simp only [Option.elim_some] at hsize
      apply ih hops.2 (hagree.bind op.id (x := r.value k)
        (y := (Range.mk 0 1 0 r.size).value k) fun hnot => by simp [hpar] at hnot)
      intro ps hne hps ks
      have hop := h (op :: ps) (List.cons_ne_nil _ _) (List.cons_prefix_cons.mpr ⟨rfl, hps⟩)
        (k :: ks)
      rw [List.map_cons, frames, frames, hrange, hnew, ← hsize, id_lowered] at hop
      simpa [hk] using hop

/-! ## Addresses -/

/-- The induction variables are those of the innermost frame of the loop. -/
theorem envOf_eq (fs : List Frame) (loop : OpId) :
    envOf fs (fun _ => none) loop =
      (fs.reverse.find? fun f => f.op = loop).map Frame.value := by
  induction fs using List.reverseRecOn with
  | nil => rfl
  | append_singleton fs f ih =>
    unfold envOf at ih ⊢
    rw [List.foldl_append, List.reverse_append]
    show (if loop = f.op then some f.value
      else fs.foldl (fun env f => Env.bind env f.op f.value) (fun _ => none) loop) =
        (List.find? _ (f :: fs.reverse)).map _
    by_cases hloop : loop = f.op
    · rw [if_pos hloop, List.find?_cons_of_pos (by simp [hloop])]
      rfl
    · rw [if_neg hloop, List.find?_cons_of_neg (by simpa using Ne.symm hloop), ih]

theorem envOf_lowerFrame (fs : List Frame) (loop : OpId) :
    envOf (fs.map (lowerFrame module)) (fun _ => none) loop =
      (fs.reverse.find? fun f => f.op = loop).map fun f => (lowerFrame module f).value := by
  have hop : ∀ f, (lowerFrame module f).op = f.op := by
    intro f
    unfold lowerFrame
    split <;> rfl
  rw [envOf_eq, ← List.map_reverse, List.find?_map, Option.map_map]
  have hpred : (fun f : Frame => decide (f.op = loop)) ∘ lowerFrame module =
      fun f => decide (f.op = loop) := by
    funext f
    simp [hop]
  rw [hpred]
  rfl

/-- How far the value of an operand is from what it is in the new loops: for the variable of a parallel
operation the distance of its value from the number of the iteration. -/
def drift (module : Op) (fs : List Frame) : Operand → Int
  | .inductionVar loop =>
      if isParallel module loop then
        (fs.reverse.find? fun f => f.op = loop).elim 0 fun f => f.value - f.k
      else 0
  | _ => 0

/-- How far the address of an access is from what it is in the new loops. -/
def addressDrift (module : Op) (fs : List Frame) (v : VectorOp) : Int :=
  (v.coefficients.map fun a => a.2 * drift module fs a.1).sum

theorem envAgree_frames (fs : List Frame) :
    EnvAgree module (envOf fs fun _ => none) (envOf (fs.map (lowerFrame module)) fun _ => none) := by
  intro loop hloop
  rw [envOf_eq, envOf_lowerFrame]
  cases hfind : fs.reverse.find? fun f => f.op = loop with
  | none => rfl
  | some f =>
    have hf : f.op = loop := by simpa using List.find?_some hfind
    simp [lowerFrame, hf, hloop]

/-- The drift of a value. -/
theorem evalValue_drift {v : Operand}
    (hv : ∀ loop, isParallel module loop = true → mentionsInResult loop v = false) (fs : List Frame) :
    evalValue interp (envOf fs fun _ => none) v =
      (evalValue interp (envOf (fs.map (lowerFrame module)) fun _ => none) v).map
        (· + drift module fs v) := by
  cases v with
  | const x => simp [evalValue, drift]
  | inductionVar loop =>
    show envOf fs (fun _ => none) loop = (envOf (fs.map (lowerFrame module)) _ loop).map _
    rw [envOf_eq, envOf_lowerFrame, Option.map_map]
    cases hfind : fs.reverse.find? fun f => f.op = loop with
    | none => rfl
    | some f =>
      have hf : f.op = loop := by simpa using List.find?_some hfind
      cases hpar : isParallel module loop with
      | false => simp [drift, lowerFrame, hf, hpar]
      | true =>
        simp only [drift, lowerFrame, hf, hpar, hfind, if_true, Option.map_some,
          Function.comp_apply, Option.elim_some, Option.some.injEq]
        omega
  | result op uses =>
    have hsame : evalValue interp (envOf fs fun _ => none) (.result op uses) =
        evalValue interp (envOf (fs.map (lowerFrame module)) fun _ => none) (.result op uses) := by
      apply evalValue_congr
      intro loop hloop
      apply envAgree_frames fs
      cases hpar : isParallel module loop with
      | false => rfl
      | true =>
        have hnot := hv loop hpar
        simp only [mentions, mentionsInResult] at hloop hnot
        simp [hnot] at hloop
    rw [hsame]
    simp [drift]

/-- **The drift of an address.** -/
theorem address_drift {v : VectorOp}
    (hv : ∀ loop, isParallel module loop = true →
      (v.coefficients.map Prod.fst).any (mentionsInResult loop) = false)
    (start : Int) (fs : List Frame) :
    address interp start (envOf fs fun _ => none) v =
      address interp (start + addressDrift module fs v)
        (envOf (fs.map (lowerFrame module)) fun _ => none) v := by
  have hkeys : ∀ a ∈ v.coefficients, ∀ loop, isParallel module loop = true →
      mentionsInResult loop a.1 = false := by
    intro a ha loop hpar
    have hany := List.any_eq_false.mp (hv loop hpar) a.1 (List.mem_map_of_mem ha)
    simpa using hany
  have hsum : ∀ l : List (Operand × Int), (∀ a ∈ l, ∀ loop, isParallel module loop = true →
      mentionsInResult loop a.1 = false) →
      (l.mapM fun a => (evalValue interp (envOf fs fun _ => none) a.1).map (a.2 * ·)).map List.sum =
        (l.mapM fun a => (evalValue interp (envOf (fs.map (lowerFrame module)) fun _ => none)
          a.1).map (a.2 * ·)).map fun xs =>
            xs.sum + (l.map fun a => a.2 * drift module fs a.1).sum := by
    intro l hl
    induction l with
    | nil => rfl
    | cons a l ih =>
      rw [List.forall_mem_cons] at hl
      have hrest := ih hl.2
      rw [List.mapM_cons, List.mapM_cons, evalValue_drift hl.1 fs]
      cases evalValue interp (envOf (fs.map (lowerFrame module)) fun _ => none) a.1 with
      | none => rfl
      | some x =>
        cases hbefore : l.mapM fun a =>
            (evalValue interp (envOf fs fun _ => none) a.1).map (a.2 * ·) with
        | none =>
          rw [hbefore] at hrest
          cases hafter : l.mapM fun a => (evalValue interp
              (envOf (fs.map (lowerFrame module)) fun _ => none) a.1).map (a.2 * ·) with
          | none => rfl
          | some ys =>
            rw [hafter] at hrest
            cases hrest
        | some xs =>
          rw [hbefore] at hrest
          cases hafter : l.mapM fun a => (evalValue interp
              (envOf (fs.map (lowerFrame module)) fun _ => none) a.1).map (a.2 * ·) with
          | none =>
            rw [hafter] at hrest
            cases hrest
          | some ys =>
            rw [hafter] at hrest
            have hxs : xs.sum = ys.sum + (l.map fun a => a.2 * drift module fs a.1).sum :=
              Option.some.inj hrest
            simp only [Option.map_some, Option.bind_eq_bind, Option.bind_some, Option.pure_def,
              List.sum_cons, List.map_cons, hxs, Option.some.injEq]
            ring
  have hall := hsum v.coefficients hkeys
  unfold address addressDrift
  have hmap : ∀ (o : Option (List Int)), (o.map fun xs => start + v.constant + xs.sum) =
      (o.map List.sum).map (start + v.constant + ·) := by
    intro o
    cases o <;> rfl
  rw [hmap, hall, Option.map_map]
  congr 1
  funext xs
  simp only [Function.comp_apply]
  ring

/-! ## The lowering -/

/-- Every parallel operation that is reached has as many iterations in the block of an instance as the
new loop. -/
def AllCountsFit (unit : ProgramUnit) : Prop :=
  ∀ op ∈ unit.module.preorder, ∀ c : Nat, (c : Int) ∈ unit.corelets → ∀ interp,
    CountsFit interp c (fun _ => none) (around unit.module op ++ [op])

/-- Every access drifts as far as its view moves, in every iteration in which it has an address. -/
def DriftsFit (unit : ProgramUnit) : Prop :=
  ∀ op ∈ unit.module.preorder, ∀ v, op.asVectorOp = some v →
    ∀ c : Nat, (c : Int) ∈ unit.corelets → ∀ interp ks fs,
      frames interp c (fun _ => none) (around unit.module op) ks = some fs →
        (address interp 0 (envOf fs fun _ => none) v).isSome = true →
          addressDrift unit.module fs v =
            v.view.elim 0 fun view => if c = 1 then viewOffset unit.module view else 0

theorem around_mem {op : OpInfo} : ∀ i ∈ around unit.module op, i ∈ unit.module.preorder := by
  intro i hi
  unfold around Rose.labelsAround at hi
  cases hfind : (unit.module.withAncestors []).find? fun s => decide (s.1.label.id = op.id) with
  | none =>
    rw [hfind] at hi
    cases hi
  | some s =>
    rw [hfind] at hi
    obtain ⟨t, ht, rfl⟩ := List.mem_map.mp (List.mem_reverse.mp hi)
    obtain ⟨xs, ys, hsplit⟩ := List.append_of_mem ht
    obtain ⟨s, above⟩ := s
    obtain rfl : above = xs ++ t :: ys := hsplit
    have hplace := (Rose.ancestor_mem_withAncestors (List.mem_of_find?_eq_some hfind)).1
    exact Rose.label_mem_preorder_of_mem hplace

/-- The operations around a place, found by its id. -/
theorem around_eq {t : Op} {above : List Op} (h : (t, above) ∈ unit.module.withAncestors []) :
    around unit.module t.label = (above.map Rose.label).reverse := by
  obtain ⟨s, hs, hid, haround⟩ := Rose.exists_labelsAround (p := fun i => decide (i.id = t.label.id))
    (Rose.label_mem_preorder_of_mem h) (by simp)
  have hnodup := unit.ids
  rw [← Rose.map_label_withAncestors [], List.map_map] at hnodup
  have hsame : s = (t, above) := List.inj_on_of_nodup_map hnodup hs h (by simpa using hid)
  unfold around
  rw [haround, hsame]

/-- What is around an operation on the way to another one is the way to it. -/
theorem exists_of_prefix {t : Op} {above : List Op} {ps : List OpInfo}
    (h : (t, above) ∈ unit.module.withAncestors []) (hne : ps ≠ [])
    (hps : ps <+: around unit.module t.label ++ [t.label]) :
    ∃ op ∈ unit.module.preorder, ps = around unit.module op ++ [op] := by
  induction above generalizing t with
  | nil =>
    rw [around_eq h] at hps
    rcases List.prefix_cons_iff.mp hps with rfl | ⟨ps', rfl, hps'⟩
    · exact absurd rfl hne
    · obtain rfl := List.prefix_nil.mp hps'
      refine ⟨t.label, Rose.label_mem_preorder_of_mem h, ?_⟩
      rw [around_eq h]
      rfl
  | cons parent above ih =>
    have hparent := (Rose.parent_mem_withAncestors h (Nat.zero_le _)).1
    rcases List.prefix_concat_iff.mp hps with rfl | hps
    · exact ⟨t.label, Rose.label_mem_preorder_of_mem h, rfl⟩
    · apply ih hparent
      rw [around_eq h, List.map_cons, List.reverse_cons] at hps
      rw [around_eq hparent]
      exact hps

theorem around_lowered (op : OpInfo) :
    around (unit.module.map lowered) op = (around unit.module op).map lowered :=
  Rose.labelsAround_map _ (by simp) unit.module

theorem countsFit_append {ops ops' : List OpInfo} (h : CountsFit interp c env (ops ++ ops')) :
    CountsFit interp c env ops := by
  induction ops generalizing env with
  | nil => trivial
  | cons op ops ih =>
    rw [List.cons_append, CountsFit] at h
    rw [CountsFit]
    cases hrange : loopRange interp c env op with
    | none =>
      rw [hrange] at h
      exact ih h
    | some range =>
      rw [hrange] at h
      exact ⟨h.1, fun r hr k hk => ih (h.2 r hr k hk)⟩

/-- The bodies are executed in the same iterations if and only if the counts fit. -/
theorem executed_iff (haccepted : ∀ x ∈ parallelOps unit.module, Accepted unit.module x) :
    (∀ op ∈ unit.module.preorder, ∀ c : Nat, (c : Int) ∈ unit.corelets → ∀ interp ks,
      (frames interp c (fun _ => none) (around unit.module op ++ [op]) ks).isSome =
        (frames interp c (fun _ => none) ((around unit.module op ++ [op]).map lowered) ks).isSome) ↔
      AllCountsFit unit := by
  have hempty : EnvAgree unit.module (fun _ => none) fun _ => none := fun _ _ => rfl
  have hmem : ∀ op ∈ unit.module.preorder, ∀ i ∈ around unit.module op ++ [op],
      i ∈ unit.module.preorder := by
    intro op hop i hi
    rcases List.mem_append.mp hi with hi | hi
    · exact around_mem i hi
    · rw [List.mem_singleton.mp hi]
      exact hop
  constructor
  · intro h op hop c hc interp
    apply countsFit_of_executed haccepted (hmem op hop) hempty
    intro ps hne hps ks
    rw [← Rose.map_label_withAncestors []] at hop
    obtain ⟨s, hs, rfl⟩ := List.mem_map.mp hop
    obtain ⟨op', hop', rfl⟩ := exists_of_prefix hs hne hps
    exact h op' hop' c hc interp ks
  · intro h op hop c hc interp ks
    rw [frames_lowered haccepted (hmem op hop) hempty (h op hop c hc interp) ks, Option.isSome_map]

/-- Four iterations on two corelets, with an access of stride 64. -/
def stridedUnit : ProgramUnit where
  corelets := [0, 1]
  module := .node ⟨0, .other []⟩
    [.node ⟨1, .parallel ⟨[⟨.const 0, .const 4, .const 1⟩], 2, false, 2⟩⟩
      [.node ⟨2, .vectorOp ⟨some 0, [(.inductionVar 1, 64)], 0⟩⟩ []]]
  ids := by decide

/-- Two iterations on two corelets, with a step of two. -/
def steppedUnit : ProgramUnit where
  corelets := [0, 1]
  module := .node ⟨0, .other []⟩
    [.node ⟨1, .parallel ⟨[⟨.const 0, .const 4, .const 2⟩], 2, false, 2⟩⟩
      [.node ⟨2, .vectorOp ⟨some 0, [(.inductionVar 1, 64)], 0⟩⟩ []]]
  ids := by decide

end ParallelLowering
