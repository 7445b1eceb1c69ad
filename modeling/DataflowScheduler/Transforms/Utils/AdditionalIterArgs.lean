import DataflowScheduler.Util.RegionCode
import DataflowScheduler.Util.Except

/-!
# Loops with additional iteration arguments

`createForOpWithAdditionalIterArgs` clones a loop into one that hands more values from iteration to
iteration. The new ones start with a constant and are passed through.
-/

namespace DataflowScheduler

namespace AdditionalIterArgs

open RegionCode

/-- An `scf.for`. `yields` are the operands of the body's terminator. -/
structure ForOp (N : Type) where
  lowerBound : ValueId
  upperBound : ValueId
  step : ValueId
  inductionVar : ValueId
  inits : List ValueId
  regionIterArgs : List ValueId
  body : Code N
  yields : List ValueId
  results : List ValueId
  /-- The attributes by name. -/
  attributes : List (String × Nat)

/-- What is left behind. -/
structure Created (N : Type) where
  /-- New `arith.constant 0`s, in front of the loop. -/
  constants : List ValueId
  newLoop : ForOp N
  /-- `ForOp::create` has ended the body with a yield of its own. -/
  defaultYield : Bool
  irMap : IRMapping
  /-- The code around the loops. -/
  around : Code N
  oldLoop : Option (ForOp N)

section Model

variable {N : Type}

/-- The values that take the places of the results. -/
def replacement (results newResults : List ValueId) : ValueId → ValueId :=
  IRMapping.lookupOrDefault (IRMapping.mapAll (fun _ => none) results newResults)

/-- `createForOpWithAdditionalIterArgs`. `none` is a failed lookup of a yielded value. Names from
`next` on are free. -/
def createForOpWithAdditionalIterArgs (loop : ForOp N) (nValues : Nat) (irMap : IRMapping)
    (deleteOp : Bool) (around : Code N) (next : ValueId) : Option (Created N) := do
  let numArgs := loop.inits.length + nValues
  let constants := List.range' next nValues
  let inductionVar := next + nValues
  let regionIterArgs := List.range' (next + nValues + 1) numArgs
  let results := List.range' (next + nValues + 1 + numArgs) numArgs
  let irMap := (irMap.map loop.inductionVar inductionVar).mapAll loop.regionIterArgs regionIterArgs
  let cloned := loop.body.clone irMap (next + nValues + 1 + numArgs + numArgs)
  let yields ← loop.yields.mapM cloned.2.1
  some
    { constants
      newLoop :=
        { lowerBound := loop.lowerBound
          upperBound := loop.upperBound
          step := loop.step
          inductionVar
          inits := loop.inits ++ constants
          regionIterArgs
          body := cloned.1
          yields := yields ++ regionIterArgs.drop loop.regionIterArgs.length
          results
          attributes := loop.attributes.filter fun attr => attr.1 ≠ "operandSegmentSizes" }
      defaultYield := (loop.inits ++ constants).isEmpty
      irMap := cloned.2.1
      around := around.mapUses (replacement loop.results results)
      oldLoop := if deleteOp then none else some loop }

end Model

/-! ## Meaning -/

section Meaning

variable {N α σ : Type} [Inhabited α]

/-- The iterations of a loop: the values of the induction variable, for the bounds and the step. -/
abbrev Iterations (α : Type) := α → α → α → List α

namespace ForOp

variable (loop : ForOp N)

/-- The values the header reads. -/
def operands : List ValueId := loop.lowerBound :: loop.upperBound :: loop.step :: loop.inits

/-- What the body can read from the header. -/
def arguments : List ValueId := loop.inductionVar :: loop.regionIterArgs

/-- One iteration, on the iteration arguments and the state. -/
def iteration (sem : Sem N α σ) (env : Env α) (a : List α × σ) (i : α) : List α × σ :=
  let b := loop.body.exec sem (env.bind loop.arguments (i :: a.1)) a.2
  (loop.yields.map b.1, b.2)

/-- All iterations: what the results are bound to, and the state. -/
def run (sem : Sem N α σ) (iterations : Iterations α) (env : Env α) (s : σ) : List α × σ :=
  (iterations (env loop.lowerBound) (env loop.upperBound) (env loop.step)).foldl
    (loop.iteration sem env) (loop.inits.map env, s)

/-- A loop among values in scope. -/
structure Scoped (Γ : List ValueId) : Prop where
  operands : ∀ v ∈ loop.operands, v ∈ Γ
  arguments : ∀ v ∈ loop.arguments, v ∉ Γ
  body : loop.body.Scoped (loop.arguments ++ Γ)
  yields : ∀ v ∈ loop.yields, v ∈ loop.body.defs ++ (loop.arguments ++ Γ)
  inits_length : loop.inits.length = loop.regionIterArgs.length
  yields_length : loop.yields.length = loop.regionIterArgs.length
  results_length : loop.results.length = loop.regionIterArgs.length

end ForOp

/-- The use is not one of an old result, or it is one of the new result in its place. -/
def Refers (results newResults : List ValueId) (used newUsed : ValueId) : Prop :=
  used ∉ results ∧ newUsed = used ∨
    ∃ i : Nat, results[i]? = some used ∧ newResults[i]? = some newUsed

/-- What `createForOpWithAdditionalIterArgs` is to do: the new loop has one terminator; wherever the
mapping of the caller exchanges equal values only, its results are those of the old one and the
initial values; and all uses of old results are uses of new ones. -/
def Creates (sem : Sem N α σ) (iterations : Iterations α) (zero : α) (loop : ForOp N)
    (nValues : Nat) (irMap : IRMapping) (around : Code N) (result : Option (Created N)) : Prop :=
  ∃ created, result = some created ∧ created.defaultYield = false ∧
    (∀ env s, (∀ v w, irMap v = some w → env w = env v) →
      created.newLoop.run sem iterations
          (env.bind created.constants (List.replicate nValues zero)) s =
        ((loop.run sem iterations env s).1 ++ List.replicate nValues zero,
          (loop.run sem iterations env s).2)) ∧
    created.newLoop.results.length = loop.results.length + nValues ∧
    List.Forall₂ (Refers loop.results created.newLoop.results) around.uses created.around.uses

end Meaning

/-! ## Uses of the results -/

theorem refers_replacement {results newResults : List ValueId} (hnodup : results.Nodup)
    (hlen : results.length ≤ newResults.length) (v : ValueId) :
    Refers results newResults v (replacement results newResults v) := by
  by_cases hv : v ∈ results
  · refine Or.inr ?_
    obtain ⟨i, hi, rfl⟩ := List.getElem_of_mem hv
    refine ⟨i, List.getElem?_eq_getElem hi, ?_⟩
    rw [replacement, IRMapping.lookupOrDefault, IRMapping.mapAll_getElem hnodup hi (by omega)]
    exact List.getElem?_eq_getElem (by omega)
  · refine Or.inl ⟨hv, ?_⟩
    rw [replacement, IRMapping.lookupOrDefault, IRMapping.mapAll_of_notMem hv]
    rfl

/-! ## The new loop -/

section NewLoop

variable {N α σ : Type} [Inhabited α] {sem : Sem N α σ} {iterations : Iterations α}
  {loop : ForOp N} {Γ : List ValueId} {irMap : IRMapping} {next : ValueId}

/-- The mapping that the body is cloned through is one of the loop's arguments. -/
theorem mapAll_arguments (numArgs nValues inductionVar : Nat)
    (hargs : numArgs = loop.regionIterArgs.length) :
    (irMap.map loop.inductionVar inductionVar).mapAll loop.regionIterArgs
        (List.range' (inductionVar + 1) (numArgs + nValues)) =
      irMap.mapAll loop.arguments (List.range' inductionVar loop.arguments.length) := by
  rw [← List.range'_append_1, IRMapping.mapAll_append (by simp [hargs])]
  show irMap.mapAll (loop.inductionVar :: loop.regionIterArgs)
    (inductionVar :: List.range' (inductionVar + 1) numArgs) = _
  rw [hargs]
  rfl

/-- What is mapped after the body has been cloned. -/
theorem isSome_cloned_iff (hloop : loop.Scoped Γ) (first second : ValueId) {v : ValueId}
    (hv : v ∈ loop.yields) :
    ((loop.body.clone (irMap.mapAll loop.arguments
        (List.range' first loop.arguments.length)) second).2.1 v).isSome = true ↔
      v ∈ loop.arguments ++ loop.body.defs ∨ (irMap v).isSome = true := by
  constructor
  · intro h
    by_cases hbound : v ∈ loop.arguments ++ loop.body.defs
    · exact Or.inl hbound
    · refine Or.inr ?_
      rw [List.mem_append, not_or] at hbound
      have hscope := hloop.yields v hv
      simp only [List.mem_append] at hscope
      have hΓ : v ∈ Γ := (hscope.resolve_left hbound.2).resolve_left hbound.1
      rwa [Code.clone_of_notMem _ _ _
        (Code.notMem_allDefs loop.body hloop.body (List.mem_append_right _ hΓ)),
        IRMapping.mapAll_of_notMem hbound.1] at h
  · rintro (hbound | hmapped)
    · rcases List.mem_append.mp hbound with harg | hdef
      · exact Code.clone_isSome_of_isSome _ _ _ (IRMapping.isSome_mapAll harg (by simp))
      · exact Code.clone_isSome_of_mem _ _ _ hdef
    · apply Code.clone_isSome_of_isSome
      by_cases harg : v ∈ loop.arguments
      · exact IRMapping.isSome_mapAll harg (by simp)
      · rwa [IRMapping.mapAll_of_notMem harg]

/-- An iteration of the new loop does what one of the old loop does, and passes the rest through. -/
theorem iteration_eq (hloop : loop.Scoped Γ) {newLoop : ForOp N} {first second : ValueId}
    {nValues : Nat}
    {env env' : Env α} (hreads : Reads Γ irMap env env') (hbelow : Below Γ irMap first)
    (hsecond : first + loop.arguments.length + nValues ≤ second)
    (harguments : newLoop.arguments = List.range' first loop.arguments.length ++
      List.range' (first + loop.arguments.length) nValues)
    (hbody : newLoop.body = (loop.body.clone (irMap.mapAll loop.arguments
      (List.range' first loop.arguments.length)) second).1)
    (hyields : newLoop.yields = loop.yields.map (loop.body.clone (irMap.mapAll loop.arguments
      (List.range' first loop.arguments.length)) second).2.1.lookupOrDefault ++
      List.range' (first + loop.arguments.length) nValues)
    {words zeros : List α} (hwords : words.length = loop.regionIterArgs.length)
    (hzeros : zeros.length = nValues) (i : α) (s : σ) :
    newLoop.iteration sem env' (words ++ zeros, s) i =
      ((loop.iteration sem env (words, s) i).1 ++ zeros, (loop.iteration sem env (words, s) i).2) := by
  have henter : env'.bind newLoop.arguments (i :: (words ++ zeros)) =
      (env'.bind (List.range' first loop.arguments.length) (i :: words)).bind
        (List.range' (first + loop.arguments.length) nValues) zeros := by
    rw [harguments, ← List.cons_append]
    apply Env.bind_append
    simp [ForOp.arguments, hwords]
  obtain ⟨hreads', hbelow'⟩ := hreads.bind hbelow loop.arguments (i :: words)
  have hnew : ∀ u ∈ List.range' (first + loop.arguments.length) nValues,
      first + loop.arguments.length ≤ u := fun u hu => (List.mem_range'_1.mp hu).1
  have hreads'' := hreads'.bind_new hbelow' hnew zeros
  obtain ⟨hstate, hresult⟩ := Code.clone_exec loop.body hloop.body hreads''
    (hbelow'.le ((Nat.le_add_right _ _).trans hsecond)) s
  rw [ForOp.iteration, henter, hbody, hyields, List.map_append, hresult.map_eq hloop.yields, hstate]
  -- the added arguments are not bound in the body
  have hpassed : (List.range' (first + loop.arguments.length) nValues).map
      ((loop.body.clone (irMap.mapAll loop.arguments
        (List.range' first loop.arguments.length)) second).1.exec sem
        ((env'.bind (List.range' first loop.arguments.length) (i :: words)).bind
          (List.range' (first + loop.arguments.length) nValues) zeros) s).1 = zeros := by
    have hbound : (List.range' (first + loop.arguments.length) nValues).map
        ((env'.bind (List.range' first loop.arguments.length) (i :: words)).bind
          (List.range' (first + loop.arguments.length) nValues) zeros) = zeros :=
      Env.map_bind List.nodup_range' (by simp [hzeros])
    rw [← List.map_congr_left ?_] at hbound
    exact hbound
    intro v hv
    apply Code.exec_of_notMem_defs
    intro hmem
    have hle := Code.le_of_mem_clone_defs _ _ _ hmem
    have hlt := (List.mem_range'_1.mp hv).2
    exact Nat.lt_irrefl _ (Nat.lt_of_lt_of_le hlt (hsecond.trans hle))
  rw [hpassed]
  rfl

/-- All iterations of the new loop: each one starts from the words of the old loop and the zeros. -/
theorem foldl_iteration (hloop : loop.Scoped Γ) {newLoop : ForOp N} {first second : ValueId}
    {nValues : Nat}
    {env env' : Env α} (hreads : Reads Γ irMap env env') (hbelow : Below Γ irMap first)
    (hsecond : first + loop.arguments.length + nValues ≤ second)
    (harguments : newLoop.arguments = List.range' first loop.arguments.length ++
      List.range' (first + loop.arguments.length) nValues)
    (hbody : newLoop.body = (loop.body.clone (irMap.mapAll loop.arguments
      (List.range' first loop.arguments.length)) second).1)
    (hyields : newLoop.yields = loop.yields.map (loop.body.clone (irMap.mapAll loop.arguments
      (List.range' first loop.arguments.length)) second).2.1.lookupOrDefault ++
      List.range' (first + loop.arguments.length) nValues)
    {zeros : List α} (hzeros : zeros.length = nValues) (is : List α) {words : List α}
    (hwords : words.length = loop.regionIterArgs.length) (s : σ) :
    is.foldl (newLoop.iteration sem env') (words ++ zeros, s) =
      ((is.foldl (loop.iteration sem env) (words, s)).1 ++ zeros,
        (is.foldl (loop.iteration sem env) (words, s)).2) := by
  induction is generalizing words s with
  | nil => rfl
  | cons i is ih =>
    rw [List.foldl_cons, List.foldl_cons,
      iteration_eq hloop hreads hbelow hsecond harguments hbody hyields hwords hzeros]
    apply ih
    show (loop.yields.map _).length = _
    rw [List.length_map, hloop.yields_length]

/-- The loop that is created when all lookups succeed. -/
theorem createForOpWithAdditionalIterArgs_eq (hloop : loop.Scoped Γ) (nValues : Nat)
    (deleteOp : Bool) (around : Code N)
    (hyields : ∀ v ∈ loop.yields, v ∈ loop.arguments ++ loop.body.defs ∨ (irMap v).isSome = true) :
    ∃ created, createForOpWithAdditionalIterArgs loop nValues irMap deleteOp around next =
        some created ∧
      created.constants = List.range' next nValues ∧
      created.newLoop.operands = loop.operands ++ created.constants ∧
      created.newLoop.arguments = List.range' (next + nValues) loop.arguments.length ++
        List.range' (next + nValues + loop.arguments.length) nValues ∧
      created.newLoop.body = (loop.body.clone (irMap.mapAll loop.arguments
        (List.range' (next + nValues) loop.arguments.length))
        (next + nValues + 1 + (loop.inits.length + nValues) + (loop.inits.length + nValues))).1 ∧
      created.newLoop.yields = loop.yields.map (loop.body.clone (irMap.mapAll loop.arguments
        (List.range' (next + nValues) loop.arguments.length))
        (next + nValues + 1 + (loop.inits.length + nValues) +
          (loop.inits.length + nValues))).2.1.lookupOrDefault ++
        List.range' (next + nValues + loop.arguments.length) nValues ∧
      created.newLoop.results.length = loop.inits.length + nValues ∧
      created.around = around.mapUses (replacement loop.results created.newLoop.results) ∧
      created.defaultYield = (loop.inits ++ List.range' next nValues).isEmpty := by
  have hargs := hloop.inits_length
  have hlookup := IRMapping.mapM_eq_some fun v hv =>
    (@isSome_cloned_iff _ _ _ irMap hloop (next + nValues)
      (next + nValues + 1 + (loop.inits.length + nValues) + (loop.inits.length + nValues)) v hv).mpr
        (hyields v hv)
  have hlength : loop.arguments.length = loop.inits.length + 1 := by
    simp [ForOp.arguments, hargs]
  have hdrop : (List.range' (next + nValues + 1) (loop.inits.length + nValues)).drop
      loop.regionIterArgs.length =
      List.range' (next + nValues + loop.arguments.length) nValues := by
    rw [← hargs, List.drop_range', hlength]
    congr 1 <;> omega
  have hsplit : (next + nValues) :: List.range' (next + nValues + 1) (loop.inits.length + nValues) =
      List.range' (next + nValues) loop.arguments.length ++
        List.range' (next + nValues + loop.arguments.length) nValues := by
    have hcount : loop.inits.length + 1 + nValues = loop.inits.length + nValues + 1 := by omega
    rw [List.range'_append_1, hlength, hcount]
    rfl
  rw [createForOpWithAdditionalIterArgs]
  simp only [mapAll_arguments loop.inits.length nValues (next + nValues) hargs, hlookup, hdrop]
  refine ⟨_, rfl, rfl, rfl, hsplit, rfl, rfl, ?_, rfl, rfl⟩
  simp

/-- No lookup succeeds for a value that is not mapped. -/
theorem yields_of_creates (hloop : loop.Scoped Γ) {nValues : Nat} {deleteOp : Bool}
    {around : Code N} {created : Created N}
    (h : createForOpWithAdditionalIterArgs loop nValues irMap deleteOp around next = some created) :
    (∀ v ∈ loop.yields, v ∈ loop.arguments ++ loop.body.defs ∨ (irMap v).isSome = true) ∧
      created.defaultYield = (loop.inits ++ List.range' next nValues).isEmpty := by
  rw [createForOpWithAdditionalIterArgs] at h
  simp only [mapAll_arguments loop.inits.length nValues (next + nValues) hloop.inits_length] at h
  obtain ⟨yields, hyields, h⟩ := Option.bind_eq_some_iff.mp h
  cases h
  refine ⟨?_, rfl⟩
  intro v hv
  exact (isSome_cloned_iff hloop _ _ hv).mp (IRMapping.isSome_of_mapM hyields v hv)

/-- The mapping of the caller exchanges equal values, and the constants are new. -/
theorem reads_bind_constants {env : Env α} (hnext : ∀ v ∈ Γ, v < next)
    (hmapped : ∀ v w, irMap v = some w → w < next)
    (henv : ∀ v w, irMap v = some w → env w = env v) (nValues : Nat) (zeros : List α) :
    Reads Γ irMap env (env.bind (List.range' next nValues) zeros) ∧ Below Γ irMap next := by
  have hbelow : Below Γ irMap next := by
    intro v hv
    rw [IRMapping.lookupOrDefault]
    cases hw : irMap v with
    | none => exact hnext v hv
    | some w => exact hmapped v w hw
  refine ⟨?_, hbelow⟩
  have hreads : Reads Γ irMap env env := by
    intro v hv
    rw [IRMapping.lookupOrDefault]
    cases hw : irMap v with
    | none => rfl
    | some w => exact henv v w hw
  exact hreads.bind_new hbelow (fun u hu => (List.mem_range'_1.mp hu).1) zeros

end NewLoop

section Creates

variable {N α σ : Type} [Inhabited α]

/-- The loop is created as it is to be if and only if it gets an iteration argument and what the body
yields is bound by the loop or mapped by the caller. -/
theorem createForOpWithAdditionalIterArgs_creates_iff (sem : Sem N α σ)
    (iterations : Iterations α) (zero : α) (loop : ForOp N) (Γ : List ValueId) (nValues : Nat)
    (irMap : IRMapping) (deleteOp : Bool) (around : Code N) (next : ValueId)
    (hloop : loop.Scoped Γ) (hnodup : loop.results.Nodup) (hnext : ∀ v ∈ Γ, v < next)
    (hmapped : ∀ v w, irMap v = some w → w < next) :
    Creates sem iterations zero loop nValues irMap around
        (createForOpWithAdditionalIterArgs loop nValues irMap deleteOp around next) ↔
      0 < loop.inits.length + nValues ∧
        ∀ v ∈ loop.yields, v ∈ loop.arguments ++ loop.body.defs ∨ (irMap v).isSome = true := by
  constructor
  · rintro ⟨created, hcreated, hterminator, -⟩
    obtain ⟨hyields, hdefault⟩ := yields_of_creates hloop hcreated
    refine ⟨?_, hyields⟩
    by_contra hzero
    have hempty : loop.inits ++ List.range' next nValues = [] := by
      apply List.eq_nil_of_length_eq_zero
      rw [List.length_append, List.length_range']
      omega
    rw [hdefault, hempty] at hterminator
    cases hterminator
  · rintro ⟨hpos, hyields⟩
    obtain ⟨created, hcreated, hconstants, hoperands, harguments, hbody, hyielded, hresults,
      haround, hdefault⟩ :=
      @createForOpWithAdditionalIterArgs_eq _ _ _ _ next hloop nValues deleteOp around hyields
    refine ⟨created, hcreated, ?_, ?_, ?_, ?_⟩
    · rw [hdefault, ← Bool.not_eq_true, List.isEmpty_iff]
      intro hempty
      have hlen := congrArg List.length hempty
      rw [List.length_append, List.length_range'] at hlen
      exact Nat.ne_of_gt hpos hlen
    · intro env s henv
      have hzeros : (List.replicate nValues zero).length = nValues := List.length_replicate ..
      obtain ⟨hreads, hbelow⟩ :=
        reads_bind_constants hnext hmapped henv nValues (List.replicate nValues zero)
      -- the header reads what it has read before
      have hheader : ∀ v ∈ loop.operands,
          env.bind (List.range' next nValues) (List.replicate nValues zero) v = env v := by
        intro v hv
        apply Env.bind_of_notMem
        intro hmem
        exact Nat.lt_irrefl _ (Nat.lt_of_lt_of_le (hnext v (hloop.operands v hv))
          (List.mem_range'_1.mp hmem).1)
      have hinits : (loop.inits ++ List.range' next nValues).map
          (env.bind (List.range' next nValues) (List.replicate nValues zero)) =
          loop.inits.map env ++ List.replicate nValues zero := by
        rw [List.map_append, Env.map_bind List.nodup_range' (by simp)]
        congr 1
        apply List.map_congr_left
        intro v hv
        apply hheader
        simp [ForOp.operands, hv]
      rw [ForOp.operands, ForOp.operands, List.cons_append, List.cons_append, List.cons_append]
        at hoperands
      obtain ⟨hlower, hoperands⟩ := List.cons_eq_cons.mp hoperands
      obtain ⟨hupper, hoperands⟩ := List.cons_eq_cons.mp hoperands
      obtain ⟨hstep, hnewInits⟩ := List.cons_eq_cons.mp hoperands
      rw [ForOp.run, hlower, hupper, hstep, hnewInits, hconstants, hinits,
        hheader loop.lowerBound (by simp [ForOp.operands]),
        hheader loop.upperBound (by simp [ForOp.operands]),
        hheader loop.step (by simp [ForOp.operands])]
      -- names behind those of the header are left for the body
      have hsecond : next + nValues + loop.arguments.length + nValues ≤
          next + nValues + 1 + (loop.inits.length + nValues) + (loop.inits.length + nValues) := by
        have hlength : loop.arguments.length = loop.inits.length + 1 := by
          simp [ForOp.arguments, hloop.inits_length]
        have hbound (first args : Nat) : first + (args + 1) + nValues ≤
            first + 1 + (args + nValues) + (args + nValues) := by omega
        rw [hlength]
        exact hbound _ _
      apply foldl_iteration hloop hreads (hbelow.le (Nat.le_add_right _ _)) hsecond harguments hbody
        hyielded hzeros
      rw [List.length_map, hloop.inits_length]
    · rw [hresults, hloop.results_length, hloop.inits_length]
    · rw [haround, Code.uses_mapUses, List.forall₂_map_right_iff, List.forall₂_same]
      intro v _
      apply refers_replacement hnodup
      rw [hresults, hloop.results_length, hloop.inits_length]
      exact Nat.le_add_right _ _

/-- A loop that counts, hands its first argument on to the second one and yields a third value. -/
def countingLoop (third : ValueId) : ForOp String where
  lowerBound := 0
  upperBound := 1
  step := 2
  inductionVar := 3
  inits := [0, 1, 2]
  regionIterArgs := [4, 5, 6]
  body := .op "arith.addi" [4, 2] [7] .nil .nil
  yields := [7, 4, third]
  results := [8, 9, 10]
  attributes := [("operandSegmentSizes", 0), ("loop_type", 1)]

/-- Operations on numbers: all of them add. -/
def addSem : Sem String Nat Unit := fun _ words _ s => ([words.foldl (· + ·) 0], s)

def upTo : Iterations Nat := fun lower upper step =>
  List.range' lower ((upper - lower) / step) step

/-- The induction variable is bound by the loop. -/
theorem countingLoop_creates :
    Creates addSem upTo 0 (countingLoop 3) 1 (fun _ => none) (.op "store" [8, 10] [] .nil .nil)
      (createForOpWithAdditionalIterArgs (countingLoop 3) 1 (fun _ => none) true
        (.op "store" [8, 10] [] .nil .nil) 11) := by
  have hloop : (countingLoop 3).Scoped [0, 1, 2] :=
    { operands := by simp [countingLoop, ForOp.operands]
      arguments := by simp [countingLoop, ForOp.arguments]
      body := by simp [countingLoop, ForOp.arguments, Code.Scoped, Regions.Scoped]
      yields := by simp [countingLoop, ForOp.arguments, Code.defs]
      inits_length := rfl
      yields_length := rfl
      results_length := rfl }
  have hbound : ∀ v ∈ (countingLoop 3).yields,
      v ∈ (countingLoop 3).arguments ++ (countingLoop 3).body.defs ∨
        ((fun _ => none : IRMapping) v).isSome = true := by
    simp [countingLoop, ForOp.arguments, Code.defs]
  exact (createForOpWithAdditionalIterArgs_creates_iff addSem upTo 0 (countingLoop 3) [0, 1, 2] 1
    (fun _ => none) true (.op "store" [8, 10] [] .nil .nil) 11 hloop
    (by simp [countingLoop]) (by simp) (by simp)).mpr ⟨by simp, hbound⟩

/-- The lower bound is a value from outside. -/
theorem countingLoop_not_creates :
    createForOpWithAdditionalIterArgs (countingLoop 0) 1 (fun _ => none) true
        (.op "store" [8, 10] [] .nil .nil) 11 = none ∧
      ¬ Creates addSem upTo 0 (countingLoop 0) 1 (fun _ => none)
        (.op "store" [8, 10] [] .nil .nil)
        (createForOpWithAdditionalIterArgs (countingLoop 0) 1 (fun _ => none) true
          (.op "store" [8, 10] [] .nil .nil) 11) := by
  have hnone : createForOpWithAdditionalIterArgs (countingLoop 0) 1 (fun _ => none) true
      (.op "store" [8, 10] [] .nil .nil) 11 = none := rfl
  refine ⟨hnone, ?_⟩
  rintro ⟨created, hcreated, -⟩
  rw [hnone] at hcreated
  cases hcreated

end Creates

end AdditionalIterArgs

end DataflowScheduler
