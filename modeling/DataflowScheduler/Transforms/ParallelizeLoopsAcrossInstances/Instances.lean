import DataflowScheduler.Transforms.ParallelizeLoopsAcrossInstances.Candidates
import DataflowScheduler.Util.Lists

/-!
# No iteration is lost

A `ktdf.parallel` gives every instance a block of its iterations. The iterations of the loops around an
operation are still executed, each by one instance, when no two of these loops are distributed over the
same groups.
-/

namespace ParallelizeLoops

open KTDF KTDF.Scope

/-! ## Iterations -/

/-- The lower bound, the step and the number of iterations. -/
def Loop.range (interp : Interp) (env : Env InductionVar) (l : Loop) : Option (Int × Int × Nat) := do
  let lower ← evalValue interp env l.lowerBound
  let upper ← evalValue interp env l.upperBound
  let step ← evalValue interp env l.step
  pure (lower, step, tripCount lower upper step)

/-- The loop of an operation, its induction variable and, for a `ktdf.parallel`, its instances. -/
def asLoop (op : OpInfo) : Option (Loop × InductionVar × Option Nat) :=
  match op.kind with
  | .scfFor l => some (l, .scfFor op.id, none)
  | .parallel l n => some (l, .parallel op.id, some n)
  | _ => none

/-- The block of every `ktdf.parallel` around an operation that iterations are in; the operations
around it are given from the outermost one on, the iterations by number. There are no such iterations if
a number is too large or a bound has no value. -/
def blocks (interp : Interp) : Env InductionVar → List OpInfo → List Nat → Option (List (OpId × Nat))
  | _, [], ks => if ks = [] then some [] else none
  | env, op :: ops, ks =>
      match asLoop op with
      | none => blocks interp env ops ks
      | some (l, v, instances) =>
          match ks, Loop.range interp env l with
          | k :: ks, some (lower, step, trip) =>
              if k < trip then
                (blocks interp (env.bind v (lower + k * step)) ops ks).map
                  (instances.elim [] (fun n => [(op.id, blockOf trip n k)]) ++ ·)
              else none
          | _, _ => none

/-- An instance of the hardware: its number among the groups of every class. -/
structure Instance where
  number : Finset GroupId → Nat
  number_lt : ∀ groups, 0 < groups.card → number groups < groups.card

/-- The groups a loop is distributed over. -/
def groupsOf (cs : List Candidate) (loop : OpId) : Finset GroupId :=
  (cs.find? fun c => c.loop = loop).elim ∅ Candidate.applicableGroups

/-- An instance executes the iterations whose blocks are all its own. -/
def Executes (interp : Interp) (groups : OpId → Finset GroupId) (i : Instance) (ops : List OpInfo)
    (ks : List Nat) : Prop :=
  ∃ bs, blocks interp (fun _ => none) ops ks = some bs ∧ ∀ b ∈ bs, i.number (groups b.1) = b.2

/-- The operations around one, from the outermost one on. -/
def enclosingOps (module : Op) (id : OpId) : List OpInfo :=
  module.labelsAround fun op => op.id = id

/-- The loops that are distributed. -/
def parallelLoops (ops : List OpInfo) : List OpId :=
  ops.filterMap fun op => (asLoop op).bind fun l => l.2.2.map fun _ => op.id

/-- What is executed around an operation before is executed after, by exactly one instance: instances
are told apart by their numbers among the groups of the distributed loops around the operation. -/
structure ExecutedOnce (groups : OpId → Finset GroupId) (ops ops' : List OpInfo) : Prop where
  executed : ∀ interp ks,
    (blocks interp (fun _ => none) ops ks).isSome = true ↔
      ∃ i, Executes interp groups i ops' ks
  once : ∀ interp ks i j, Executes interp groups i ops' ks →
    (Executes interp groups j ops' ks ↔
      ∀ loop ∈ parallelLoops ops', j.number (groups loop) = i.number (groups loop))

/-- The rewritten loops are different, none is in another one over the same groups, and the iterations
around every operation are executed once. -/
structure NothingLost (module : Op) (cs : List Candidate) (module' : Op) : Prop where
  distinct : (cs.map Candidate.loop).Nodup
  notNested : ∀ c ∈ cs, ∀ d ∈ cs, Module.Encloses module c.loop d.loop →
    c.applicableGroups ≠ d.applicableGroups
  executedOnce : ∀ op ∈ module.preorder,
    ExecutedOnce (groupsOf cs) (enclosingOps module op.id) (enclosingOps module' op.id)

/-! ## The rewritten module -/

/-- The induction variables after all rewrites. -/
def renameVar (cs : List Candidate) : InductionVar → InductionVar
  | .scfFor loop => if loop ∈ cs.map Candidate.loop then .parallel loop else .scfFor loop
  | .parallel loop => .parallel loop

def renameValue (cs : List Candidate) : Value InductionVar → Value InductionVar
  | .const c => .const c
  | .inductionVar v => .inductionVar (renameVar cs v)
  | .result op uses => .result op (uses.map (renameVar cs))

def renameLoop (cs : List Candidate) (l : Loop) : Loop :=
  { l with
    lowerBound := renameValue cs l.lowerBound
    upperBound := renameValue cs l.upperBound
    step := renameValue cs l.step }

/-- An operation after all rewrites. -/
def rewritten (cs : List Candidate) (op : OpInfo) : OpInfo :=
  match op.kind with
  | .scfFor l =>
      match cs.find? fun c => c.loop = op.id with
      | some c => { op with kind := .parallel (renameLoop cs l) c.applicableGroups.card }
      | none => { op with kind := .scfFor (renameLoop cs l) }
  | .parallel l n => { op with kind := .parallel (renameLoop cs l) n }
  | _ => op

variable {cs : List Candidate} {c : Candidate} {op : OpInfo}

theorem renameVar_replaceVar (v : InductionVar) :
    renameVar cs (replaceVar c.loop v) = renameVar (c :: cs) v := by
  cases v with
  | parallel loop => rfl
  | scfFor loop =>
    unfold replaceVar renameVar
    by_cases hloop : loop = c.loop
    · simp [hloop]
    · simp [hloop]

theorem renameValue_replaceUses (v : Value InductionVar) :
    renameValue cs (replaceUses c.loop v) = renameValue (c :: cs) v := by
  cases v with
  | const x => rfl
  | inductionVar v => exact congrArg Value.inductionVar (renameVar_replaceVar v)
  | result op uses =>
    show Value.result op ((uses.map _).map _) = Value.result op (uses.map _)
    rw [List.map_map]
    congr 1
    exact List.map_congr_left fun v _ => renameVar_replaceVar v

theorem renameLoop_replaceLoop (l : Loop) :
    renameLoop cs (replaceLoop c.loop l) = renameLoop (c :: cs) l := by
  simp only [renameLoop, replaceLoop, renameValue_replaceUses]

theorem rewritten_rewriteOp :
    rewritten cs (rewriteOp c.loop c.applicableGroups.card op) = rewritten (c :: cs) op := by
  cases op with
  | mk id kind =>
    cases kind with
    | scfFor l =>
      unfold rewriteOp
      by_cases hid : id = c.loop
      · simp [rewritten, hid, renameLoop_replaceLoop]
      · have hfind : (c :: cs).find? (fun d => d.loop = id) = cs.find? fun d => d.loop = id := by
          rw [List.find?_cons_of_neg]
          simpa using Ne.symm hid
        simp only [hid, if_false, rewritten, hfind, renameLoop_replaceLoop]
    | parallel l n => simp only [rewriteOp, rewritten, renameLoop_replaceLoop]
    | _ => rfl

theorem rewritten_nil : rewritten [] op = op := by
  have hvalue : ∀ v, renameValue [] v = v := by
    intro v
    have hvar : ∀ v, renameVar [] v = v := by
      intro v
      cases v <;> rfl
    cases v with
    | const x => rfl
    | inductionVar v => exact congrArg Value.inductionVar (hvar v)
    | result op uses =>
      show Value.result op (uses.map _) = Value.result op uses
      rw [List.map_congr_left fun v _ => hvar v, List.map_id']
  cases op with
  | mk id kind =>
    cases kind <;> simp only [rewritten, renameLoop, hvalue, List.find?_nil]

/-- **The rewritten module.** -/
theorem rewriteAll_eq {erased : List OpId} {module module' : Op}
    (h : rewriteAll erased cs module = some module') : module' = module.map (rewritten cs) := by
  induction cs generalizing erased module with
  | nil =>
    obtain rfl := Option.some.inj h
    exact (Rose.map_id_of_eq (fun _ => rewritten_nil) module).symm
  | cons c cs ih =>
    rw [rewriteAll] at h
    split at h
    next => cases h
    next =>
      rw [ih h, Rose.map_map]
      congr 1
      funext op
      exact rewritten_rewriteOp

/-- The rewrites succeed if no loop is rewritten twice and no upper bound is the induction variable of
a loop rewritten before. -/
theorem rewriteAll_isSome {erased : List OpId} {module : Op} :
    (rewriteAll erased cs module).isSome = true ↔
      (∀ c ∈ cs, c.loop ∉ erased ∧ ∀ loop ∈ erased, c.upperBound ≠ .inductionVar (.scfFor loop)) ∧
        cs.Pairwise fun c d => d.loop ≠ c.loop ∧ d.upperBound ≠ .inductionVar (.scfFor c.loop) := by
  induction cs generalizing erased module with
  | nil => simp [rewriteAll]
  | cons c cs ih =>
    rw [rewriteAll, List.pairwise_cons, List.forall_mem_cons]
    split
    next h =>
      simp only [Option.isSome_none, Bool.false_eq_true, false_iff]
      rintro ⟨⟨⟨hloop, hbound⟩, -⟩, -⟩
      rcases h with h | ⟨loop, hmem, h⟩
      · exact hloop h
      · exact hbound loop hmem h
    next h =>
      rw [ih]
      simp only [not_or, not_exists, not_and] at h
      simp only [List.mem_cons, not_or, forall_eq_or_imp]
      constructor
      · rintro ⟨hall, hpair⟩
        refine ⟨⟨⟨h.1, h.2⟩, fun d hd => ⟨(hall d hd).1.2, (hall d hd).2.2⟩⟩, ?_, hpair⟩
        exact fun d hd => ⟨(hall d hd).1.1, (hall d hd).2.1⟩
      · rintro ⟨⟨-, hall⟩, hfirst, hpair⟩
        refine ⟨fun d hd => ⟨⟨(hfirst d hd).1, (hall d hd).1⟩, (hfirst d hd).2, (hall d hd).2⟩, hpair⟩

/-! ## The iterations after the rewrites -/

/-- After renaming, the induction variables have the values they had. -/
def Renamed (cs : List Candidate) (env env' : Env InductionVar) : Prop :=
  ∀ loop, env' (renameVar cs (.scfFor loop)) = env (.scfFor loop)

variable {interp : Interp} {env env' : Env InductionVar}

theorem eval_renameVar (h : Renamed cs env env') {v : InductionVar} (hv : v.isFor = true) :
    env' (renameVar cs v) = env v := by
  cases v with
  | scfFor loop => exact h loop
  | parallel loop => cases hv

theorem evalValue_rename (h : Renamed cs env env') {v : Value InductionVar}
    (hv : valueParallelFree v = true) :
    evalValue interp env' (renameValue cs v) = evalValue interp env v := by
  cases v with
  | const x => rfl
  | inductionVar v => exact eval_renameVar h hv
  | result op uses =>
    show ((uses.map _).mapM env').map _ = (uses.mapM env).map _
    congr 1
    have hall := List.all_eq_true.mp hv
    clear hv
    induction uses with
    | nil => rfl
    | cons u uses ih =>
      rw [List.forall_mem_cons] at hall
      rw [List.map_cons, List.mapM_cons, List.mapM_cons, eval_renameVar h hall.1, ih hall.2]

theorem range_rename (h : Renamed cs env env') {id : OpId} {l : Loop}
    (hl : (OpInfo.mk id (.scfFor l)).parallelFree = true) :
    Loop.range interp env' (renameLoop cs l) = Loop.range interp env l := by
  simp only [OpInfo.parallelFree, Bool.and_eq_true] at hl
  show (do
    let lower ← evalValue interp env' (renameValue cs l.lowerBound)
    let upper ← evalValue interp env' (renameValue cs l.upperBound)
    let step ← evalValue interp env' (renameValue cs l.step)
    pure (lower, step, tripCount lower upper step)) = _
  rw [evalValue_rename h hl.1.1, evalValue_rename h hl.1.2, evalValue_rename h hl.2]
  rfl

theorem renameVar_injective {a b : OpId} (h : renameVar cs (.scfFor a) = renameVar cs (.scfFor b)) :
    a = b := by
  unfold renameVar at h
  simp only at h
  split at h <;> split at h <;> simp_all

theorem Renamed.bind (h : Renamed cs env env') (loop : OpId) (x : Int) :
    Renamed cs (env.bind (.scfFor loop) x) (env'.bind (renameVar cs (.scfFor loop)) x) := by
  intro other
  unfold Env.bind
  by_cases hother : other = loop
  · rw [hother, if_pos rfl, if_pos rfl]
  · rw [if_neg fun heq => hother (renameVar_injective heq), if_neg (by simpa using hother), h]

theorem asLoop_rewritten (id : OpId) (l : Loop) :
    asLoop (rewritten cs ⟨id, .scfFor l⟩) = some (renameLoop cs l, renameVar cs (.scfFor id),
      (cs.find? fun c => c.loop = id).map fun c => c.applicableGroups.card) := by
  cases hfind : cs.find? fun c => c.loop = id with
  | none =>
    have hid : id ∉ cs.map Candidate.loop := by
      intro hid
      obtain ⟨c, hc, hloop⟩ := List.mem_map.mp hid
      simpa [hloop] using List.find?_eq_none.mp hfind c hc
    simp only [rewritten, hfind, asLoop, renameVar, if_neg hid, Option.map_none]
  | some c =>
    have hid : id ∈ cs.map Candidate.loop := by
      have hloop := List.find?_some hfind
      rw [decide_eq_true_eq] at hloop
      rw [← hloop]
      exact List.mem_map_of_mem (List.mem_of_find?_eq_some hfind)
    simp only [rewritten, hfind, asLoop, renameVar, if_pos hid, Option.map_some]

@[simp] theorem id_rewritten : (rewritten cs op).id = op.id := by
  cases op with
  | mk id kind =>
    cases kind with
    | scfFor l =>
      unfold rewritten
      simp only
      split <;> rfl
    | _ => rfl

/-- An operation that is no loop stays one. -/
theorem asLoop_other (hop : op.parallelFree = true) (hfor : op.asFor = none) :
    asLoop op = none ∧ asLoop (rewritten cs op) = none := by
  cases op with
  | mk id kind =>
    cases kind with
    | scfFor l => cases hfor
    | parallel l n => cases hop
    | _ => exact ⟨rfl, rfl⟩

/-- **Simulation.** The rewritten loops have the iterations they had. In addition there is a block for
every distributed loop. -/
theorem blocks_rewritten (hcs : ∀ c ∈ cs, 0 < c.applicableGroups.card) {ops : List OpInfo}
    (hops : ∀ op ∈ ops, op.parallelFree = true) (henv : Renamed cs env env') (ks : List Nat) :
    (blocks interp env ops ks = none → blocks interp env' (ops.map (rewritten cs)) ks = none) ∧
      ((blocks interp env ops ks).isSome = true →
        ∃ bs, blocks interp env' (ops.map (rewritten cs)) ks = some bs ∧
          bs.map Prod.fst = parallelLoops (ops.map (rewritten cs)) ∧
            ∀ b ∈ bs, b.2 < (groupsOf cs b.1).card) := by
  induction ops generalizing env env' ks with
  | nil =>
    rw [List.map_nil]
    refine ⟨fun h => h, fun h => ?_⟩
    by_cases hks : ks = []
    · exact ⟨[], by rw [blocks, if_pos hks], rfl, by simp⟩
    · rw [blocks, if_neg hks] at h
      cases h
  | cons op ops ih =>
    rw [List.forall_mem_cons] at hops
    cases hfor : op.asFor with
    | none =>
      obtain ⟨hother, hother'⟩ := @asLoop_other cs _ hops.1 hfor
      have hloops : parallelLoops ((op :: ops).map (rewritten cs)) =
          parallelLoops (ops.map (rewritten cs)) := by
        unfold parallelLoops
        rw [List.map_cons, List.filterMap_cons, hother']
        rfl
      rw [hloops, List.map_cons, blocks, blocks, hother, hother']
      exact ih hops.2 henv ks
    | some forOp =>
      obtain ⟨id, l, rfl⟩ : ∃ id l, op = ⟨id, .scfFor l⟩ := by
        cases op with
        | mk id kind =>
          cases kind with
          | scfFor l => exact ⟨id, l, rfl⟩
          | _ => cases hfor
      have hrange := @range_rename _ interp _ _ henv _ _ hops.1
      have hloop := @asLoop_rewritten cs id l
      have hold : asLoop ⟨id, .scfFor l⟩ = some (l, .scfFor id, none) := rfl
      rw [List.map_cons, blocks, blocks, hold, hloop]
      simp only
      rw [hrange]
      cases ks with
      | nil => simp
      | cons k ks =>
        cases hr : Loop.range interp env l with
        | none => simp
        | some r =>
          obtain ⟨lower, step, trip⟩ := r
          simp only
          split
          next hk =>
            obtain ⟨hnone, hsome⟩ := ih hops.2 (henv.bind id (lower + k * step)) ks
            simp only [Option.map_eq_none_iff, Option.isSome_map]
            refine ⟨hnone, fun h => ?_⟩
            obtain ⟨bs, hbs, hids, hlt⟩ := hsome h
            rw [hbs]
            refine ⟨_, rfl, ?_, ?_⟩
            · unfold parallelLoops at hids ⊢
              rw [List.filterMap_cons, hloop, List.map_append, hids]
              cases cs.find? fun c => c.loop = id <;> simp
            · cases hfind : cs.find? fun c => c.loop = id with
              | none => simpa using hlt
              | some c =>
                have hgroups : groupsOf cs id = c.applicableGroups := by
                  unfold groupsOf
                  rw [hfind]
                  rfl
                simp only [Option.map_some, Option.elim_some, List.singleton_append,
                  List.forall_mem_cons, id_rewritten]
                refine ⟨?_, hlt⟩
                rw [hgroups]
                exact blockOf_lt hk (hcs c (List.mem_of_find?_eq_some hfind))
          next => simp

/-- **Executed once.** Where no two distributed loops around an operation have the same groups, its
iterations are executed by exactly one instance. -/
theorem executedOnce_rewritten (hcs : ∀ c ∈ cs, 0 < c.applicableGroups.card) {ops : List OpInfo}
    (hops : ∀ op ∈ ops, op.parallelFree = true)
    (hgroups : ((parallelLoops (ops.map (rewritten cs))).map (groupsOf cs)).Nodup) :
    ExecutedOnce (groupsOf cs) ops (ops.map (rewritten cs)) := by
  have hempty : Renamed cs (fun _ => none) fun _ => none := fun _ => rfl
  constructor
  · intro interp ks
    obtain ⟨hnone, hsome⟩ := @blocks_rewritten _ interp _ _ hcs _ hops hempty ks
    constructor
    · intro h
      obtain ⟨bs, hbs, hids, hlt⟩ := hsome h
      let number : Finset GroupId → Nat := fun groups =>
        (bs.find? fun b => groupsOf cs b.1 == groups).elim 0 Prod.snd
      have hnumber : ∀ groups, 0 < groups.card → number groups < groups.card := by
        intro groups hcard
        show (bs.find? fun b => groupsOf cs b.1 == groups).elim 0 Prod.snd < groups.card
        cases hfind : bs.find? fun b => groupsOf cs b.1 == groups with
        | none => exact hcard
        | some b =>
          have hb := List.find?_some hfind
          rw [beq_iff_eq] at hb
          rw [← hb]
          exact hlt b (List.mem_of_find?_eq_some hfind)
      refine ⟨⟨number, hnumber⟩, bs, hbs, ?_⟩
      intro b hb
      have hnodup : (bs.map fun b => groupsOf cs b.1).Nodup := by
        rw [← hids, List.map_map] at hgroups
        exact hgroups
      show (bs.find? fun c => groupsOf cs c.1 == groupsOf cs b.1).elim 0 Prod.snd = b.2
      rw [KeyedList.find?_of_nodup hnodup hb]
      rfl
    · rintro ⟨i, bs, hbs, -⟩
      cases hold : blocks interp (fun _ => none) ops ks with
      | none =>
        rw [hnone hold] at hbs
        cases hbs
      | some _ => rfl
  · rintro interp ks i j ⟨bs, hbs, hi⟩
    obtain ⟨hnone, hsome⟩ := @blocks_rewritten _ interp _ _ hcs _ hops hempty ks
    have hids : bs.map Prod.fst = parallelLoops (ops.map (rewritten cs)) := by
      have hold : (blocks interp (fun _ => none) ops ks).isSome = true := by
        cases hold : blocks interp (fun _ => none) ops ks with
        | none =>
          rw [hnone hold] at hbs
          cases hbs
        | some _ => rfl
      obtain ⟨bs', hbs', hids, -⟩ := hsome hold
      rw [hbs] at hbs'
      rw [Option.some.inj hbs', hids]
    rw [← hids]
    constructor
    · rintro ⟨bs', hbs', hj⟩ loop hloop
      rw [hbs] at hbs'
      obtain rfl := Option.some.inj hbs'
      obtain ⟨b, hb, rfl⟩ := List.mem_map.mp hloop
      rw [hi b hb, hj b hb]
    · intro h
      refine ⟨bs, hbs, fun b hb => ?_⟩
      rw [h b.1 (List.mem_map_of_mem hb), hi b hb]

/-! ## The operations around one -/

theorem enclosingOps_map (module : Op) (id : OpId) :
    enclosingOps (module.map (rewritten cs)) id = (enclosingOps module id).map (rewritten cs) :=
  Rose.labelsAround_map _ (by simp) module

variable {module : Module}

theorem enclosingOps_eq (op : OpInfo) (hop : op ∈ module.op.preorder) :
    ∃ place ∈ module.places, enclosingOps module.op op.id = (place.2.map Rose.label).reverse := by
  obtain ⟨place, hplace, -, haround⟩ :=
    Rose.exists_labelsAround (p := fun i => decide (i.id = op.id)) hop (by simp)
  exact ⟨place, hplace, haround⟩

/-- The operations around a place are around each other. -/
theorem pairwise_encloses {t : Op} {around : List Op} (hp : (t, around) ∈ module.places) :
    around.Pairwise fun inner outer =>
      Module.Encloses module.op outer.label.id inner.label.id := by
  induction around generalizing t with
  | nil => exact List.Pairwise.nil
  | cons parent around ih =>
    obtain ⟨hparent, -⟩ := Rose.parent_mem_withAncestors hp (Nat.zero_le _)
    refine List.Pairwise.cons ?_ (ih hparent)
    intro outer houter
    exact ⟨_, hparent, rfl, List.mem_map_of_mem (f := fun op : Op => op.label.id) houter⟩

theorem parallelFree_of_place {t : Op} {around : List Op} (hp : (t, around) ∈ module.places) :
    ∀ op ∈ around.map Rose.label, op.parallelFree = true := by
  intro op hop
  obtain ⟨s, hs, rfl⟩ := List.mem_map.mp hop
  obtain ⟨xs, ys, hsplit⟩ := List.append_of_mem hs
  have hplace := Module.ancestor_place hp hsplit
  exact module.parallelFree _ (Rose.label_mem_preorder_of_mem hplace)

/-- A distributed loop is the loop of a candidate. -/
theorem parallelLoop_of_rewritten {id : OpId} (hop : op.parallelFree = true)
    (h : ((asLoop (rewritten cs op)).bind fun l => l.2.2.map fun _ => (rewritten cs op).id) =
      some id) : id = op.id ∧ ∃ c ∈ cs, c.loop = id ∧ groupsOf cs id = c.applicableGroups := by
  cases hfor : op.asFor with
  | none =>
    rw [(asLoop_other hop hfor).2] at h
    cases h
  | some forOp =>
    obtain ⟨opId, l, rfl⟩ : ∃ id l, op = ⟨id, .scfFor l⟩ := by
      cases op with
      | mk opId kind =>
        cases kind with
        | scfFor l => exact ⟨opId, l, rfl⟩
        | _ => cases hfor
    rw [asLoop_rewritten, id_rewritten] at h
    cases hfind : cs.find? fun c => c.loop = opId with
    | none => simp [hfind] at h
    | some c =>
      obtain rfl : opId = id := by simpa [hfind] using h
      refine ⟨rfl, c, List.mem_of_find?_eq_some hfind, by simpa using List.find?_some hfind, ?_⟩
      unfold groupsOf
      rw [hfind]
      rfl

/-- The distributed loops around an operation have different groups if no rewritten loop is in another
one over the same groups. -/
theorem groups_nodup {t : Op} {around : List Op} (hp : (t, around) ∈ module.places)
    (hnot : ∀ c ∈ cs, ∀ d ∈ cs, Module.Encloses module.op c.loop d.loop →
      c.applicableGroups ≠ d.applicableGroups) :
    ((parallelLoops (((around.map Rose.label).reverse).map (rewritten cs))).map
      (groupsOf cs)).Nodup := by
  have hfree := parallelFree_of_place hp
  unfold parallelLoops
  rw [List.Nodup, List.pairwise_map, List.filterMap_map, List.pairwise_filterMap,
    List.pairwise_reverse, List.pairwise_map]
  apply (pairwise_encloses hp).imp_of_mem
  intro inner outer hinner houter hencloses a ha b hb
  obtain ⟨rfl, c, hc, hloop, hgroups⟩ :=
    parallelLoop_of_rewritten (hfree _ (List.mem_map_of_mem houter)) ha
  obtain ⟨rfl, d, hd, hloop', hgroups'⟩ :=
    parallelLoop_of_rewritten (hfree _ (List.mem_map_of_mem hinner)) hb
  rw [hgroups, hgroups']
  exact hnot c hc d hd (by rw [hloop, hloop']; exact hencloses)

/-! ## The pass -/

variable {device : Device} {getStaticTripCount : StaticTripCount}

/-- No pipeline is in another one with both distributed over the same groups. -/
def NoNestedDistribution (device : Device) (getStaticTripCount : StaticTripCount) (module : Op) :
    Prop :=
  ∀ p ∈ pipelines module, ∀ q ∈ pipelines module, Module.Inside p q → ∀ groups,
    Distributed device getStaticTripCount p groups → ¬Distributed device getStaticTripCount q groups

/-- No loop to distribute has as its upper bound the induction variable of the loop to distribute for a
pipeline before. -/
def BoundsSurvive (device : Device) (getStaticTripCount : StaticTripCount) (module : Op) : Prop :=
  (pipelines module).Pairwise fun p q => ∀ groups forOp groups' forOp',
    Takes device getStaticTripCount p groups forOp →
      Takes device getStaticTripCount q groups' forOp' →
        forOp'.loop.upperBound ≠ .inductionVar (.scfFor forOp.id)

theorem mem_pipelines {p : Place} (hp : p ∈ pipelines module.op) :
    p ∈ module.places ∧ p.1.label.isPipeline = true := List.mem_filter.mp hp

theorem pipelines_nodup : (pipelines module.op).Nodup := by
  apply List.Nodup.filter
  have hnodup := module.ids
  rw [← Module.ids_places] at hnodup
  exact hnodup.of_map _

/-- **Distinct loops.** Different pipelines have different loops. -/
theorem loops_pairwise :
    ((pipelines module.op).filterMap (candidateOf device getStaticTripCount)).Pairwise fun c d =>
      d.loop ≠ c.loop := by
  rw [List.pairwise_filterMap]
  apply pipelines_nodup.imp_of_mem
  intro p q hp hq hne c hc d hd hloop
  obtain ⟨hp, hpp⟩ := mem_pipelines hp
  obtain ⟨hq, hqp⟩ := mem_pipelines hq
  obtain ⟨forOp, ⟨-, htakes⟩, hid, -⟩ := candidateOf_some hc
  obtain ⟨forOp', ⟨-, htakes'⟩, hid', -⟩ := candidateOf_some hd
  apply hne
  exact Module.eq_of_same_loop hp hq hpp hqp (selectLoop_mem htakes) (selectLoop_mem htakes')
    (by rw [← hid, ← hid', hloop])

/-- The rewrites succeed if and only if the upper bounds survive. -/
theorem rewriteAll_isSome_iff :
    (rewriteAll [] ((pipelines module.op).filterMap (candidateOf device getStaticTripCount))
      module.op).isSome = true ↔ BoundsSurvive device getStaticTripCount module.op := by
  rw [rewriteAll_isSome, List.pairwise_and_iff]
  have hloops := @loops_pairwise module device getStaticTripCount
  have hbounds : ((pipelines module.op).filterMap (candidateOf device getStaticTripCount)).Pairwise
      (fun c d => d.upperBound ≠ .inductionVar (.scfFor c.loop)) ↔
      BoundsSurvive device getStaticTripCount module.op := by
    rw [List.pairwise_filterMap]
    apply List.Pairwise.iff
    intro p q
    constructor
    · intro h groups forOp groups' forOp' htakes htakes'
      obtain ⟨c, hc, -, hid, -⟩ := candidateOf_of_takes htakes
      obtain ⟨d, hd, -, -, hbound⟩ := candidateOf_of_takes htakes'
      rw [← hbound, ← hid]
      exact h c hc d hd
    · intro h c hc d hd
      obtain ⟨forOp, htakes, hid, -⟩ := candidateOf_some hc
      obtain ⟨forOp', htakes', -, hbound⟩ := candidateOf_some hd
      rw [hbound, hid]
      exact h _ forOp _ forOp' htakes htakes'
  simp [hloops, hbounds]

/-- **Nested loops.** No rewritten loop is in another one over the same groups if and only if no two
nested pipelines are distributed over the same groups. -/
theorem notNested_iff {cs : List Candidate}
    (hcs : cs = (pipelines module.op).filterMap (candidateOf device getStaticTripCount)) :
    (∀ c ∈ cs, ∀ d ∈ cs, Module.Encloses module.op c.loop d.loop →
      c.applicableGroups ≠ d.applicableGroups) ↔
      NoNestedDistribution device getStaticTripCount module.op := by
  subst hcs
  constructor
  · intro h p hp q hq hinside groups hdp hdq
    obtain ⟨forOp, htakes⟩ := distributed_iff.mp hdp
    obtain ⟨forOp', htakes'⟩ := distributed_iff.mp hdq
    obtain ⟨c, hc, hgroups, hid, -⟩ := candidateOf_of_takes htakes
    obtain ⟨d, hd, hgroups', hid', -⟩ := candidateOf_of_takes htakes'
    apply h c (List.mem_filterMap.mpr ⟨p, hp, hc⟩) d (List.mem_filterMap.mpr ⟨q, hq, hd⟩)
    · rw [hid, hid']
      exact Module.encloses_of_inside (mem_pipelines hp).1 (mem_pipelines hq).1
        (mem_pipelines hp).2 (selectLoop_mem htakes.2) (selectLoop_mem htakes'.2) hinside
    · rw [hgroups, hgroups']
  · intro h c hc d hd hencloses hgroups
    obtain ⟨p, hp, hc⟩ := List.mem_filterMap.mp hc
    obtain ⟨q, hq, hd⟩ := List.mem_filterMap.mp hd
    obtain ⟨forOp, htakes, hid, -⟩ := candidateOf_some hc
    obtain ⟨forOp', htakes', hid', -⟩ := candidateOf_some hd
    rw [hid, hid'] at hencloses
    rcases Module.inside_of_encloses (mem_pipelines hp).1 (mem_pipelines hq).1 (mem_pipelines hq).2
      (selectLoop_mem htakes.2) (selectLoop_mem htakes'.2) hencloses with rfl | hinside
    · rw [hc] at hd
      obtain rfl := Option.some.inj hd
      rw [← hid, ← hid'] at hencloses
      exact Module.not_encloses_self _ hencloses
    · apply h p hp q hq hinside c.applicableGroups (distributed_iff.mpr ⟨forOp, htakes⟩)
      rw [hgroups]
      exact distributed_iff.mpr ⟨forOp', htakes'⟩

/-- **The pass.** On a module whose units are known it succeeds and loses nothing if and only if no two
nested pipelines are distributed over the same groups and the upper bounds survive. -/
theorem parallelize_nothingLost_iff {cs : List Candidate}
    (h : collectCandidates device getStaticTripCount module.op = .ok cs) :
    (∃ module', rewriteAll [] cs module.op = some module' ∧ NothingLost module.op cs module') ↔
      NoNestedDistribution device getStaticTripCount module.op ∧
        BoundsSurvive device getStaticTripCount module.op := by
  have hcs := collectCandidates_eq h
  have hnested := notNested_iff hcs
  have hsome := @rewriteAll_isSome_iff module device getStaticTripCount
  rw [← hcs] at hsome
  constructor
  · rintro ⟨module', hrewrite, hnothing⟩
    exact ⟨hnested.mp hnothing.notNested, hsome.mp (by rw [hrewrite]; rfl)⟩
  · rintro ⟨hnest, hbounds⟩
    obtain ⟨module', hrewrite⟩ := Option.isSome_iff_exists.mp (hsome.mpr hbounds)
    have hnot := hnested.mpr hnest
    refine ⟨module', hrewrite, ?_, hnot, ?_⟩
    · have hpair := @loops_pairwise module device getStaticTripCount
      rw [← hcs] at hpair
      rw [List.Nodup, List.pairwise_map]
      exact hpair.imp Ne.symm
    · intro op hop
      obtain ⟨⟨t, around⟩, hplace, hops⟩ := enclosingOps_eq op hop
      rw [rewriteAll_eq hrewrite, enclosingOps_map, hops]
      apply executedOnce_rewritten
      · intro c hc
        rw [hcs] at hc
        obtain ⟨p, -, hc⟩ := List.mem_filterMap.mp hc
        obtain ⟨forOp, ⟨⟨_, _, -, -, -, hcard⟩, -⟩, -⟩ := candidateOf_some hc
        omega
      · intro op hop
        exact parallelFree_of_place hplace op (List.mem_reverse.mp hop)
      · exact groups_nodup hplace hnot

/-! ## Two modules -/

/-- Two groups of one kind in one block, each around a resource; all units are in the first. -/
def twoGroups : Device where
  getInstance _ := some 0
  groupOf _ := some 0
  enclosing _ := []
  endpoints _ := []
  kind _ := 0
  block _ := [0, 1]

/-- The trip count of a loop with constant bounds. -/
def constantTripCount : StaticTripCount := fun l =>
  match l.lowerBound, l.upperBound, l.step with
  | .const lower, .const upper, .const step => some (tripCount lower upper step)
  | _, _, _ => none

/-- A parallel loop with four iterations. -/
def fourTimes : Loop := ⟨.const 0, .const 4, .const 1, true⟩

def singlePipeline : Module where
  op := .node ⟨0, .other⟩ [.node ⟨1, .scfFor fourTimes⟩
    [.node ⟨2, .pipeline⟩ [.node ⟨3, .stage (some [some 0])⟩ []]]]
  ids := by decide
  parallelFree := by decide

theorem parallelize_nothingLost_single :
    (∃ module', rewriteAll [] [⟨2, 1, .const 4, some 4, .balanced, {0, 1}⟩] singlePipeline.op =
        some module' ∧
      NothingLost singlePipeline.op [⟨2, 1, .const 4, some 4, .balanced, {0, 1}⟩] module') ↔
      NoNestedDistribution twoGroups constantTripCount singlePipeline.op ∧
        BoundsSurvive twoGroups constantTripCount singlePipeline.op :=
  parallelize_nothingLost_iff (by rfl)

/-- A pipeline and a loop with a pipeline in its stage, under a loop. -/
def nestedPipelines : Module where
  op := .node ⟨0, .other⟩ [.node ⟨1, .scfFor fourTimes⟩
    [.node ⟨2, .pipeline⟩ [.node ⟨3, .stage (some [some 0])⟩ [.node ⟨4, .scfFor fourTimes⟩
      [.node ⟨5, .pipeline⟩ [.node ⟨6, .stage (some [some 0])⟩ []]]]]]]
  ids := by decide
  parallelFree := by decide

/-- Both loops are distributed over the same two groups. -/
theorem not_nothingLost_nestedPipelines :
    ∃ cs, collectCandidates twoGroups constantTripCount nestedPipelines.op = .ok cs ∧
      ¬∃ module', rewriteAll [] cs nestedPipelines.op = some module' ∧
        NothingLost nestedPipelines.op cs module' := by
  refine ⟨[⟨2, 1, .const 4, some 4, .balanced, {0, 1}⟩, ⟨5, 4, .const 4, some 4, .balanced, {0, 1}⟩],
    rfl, ?_⟩
  rintro ⟨module', -, hnothing⟩
  apply hnothing.notNested _ List.mem_cons_self _ (List.mem_cons_of_mem _ List.mem_cons_self)
  · unfold Module.Encloses
    decide
  · rfl

end ParallelizeLoops
