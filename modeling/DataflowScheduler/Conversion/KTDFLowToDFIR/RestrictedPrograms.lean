import DataflowScheduler.Conversion.KTDFLowToDFIR.ProgramUnitBuilder

/-!
# Every unit gets its own program

The body of a program unit is the original program restricted to the type of the unit: an op is there
when every `execute_on` around it lists a unit of the type, and a signal when it lists one itself. The
order of the ops and what is around each stay. No op is edited after it is gone, since inner ops come
before outer ones in a walk.
-/

namespace DataflowScheduler

namespace ProgramUnitBuilder

open Rose (Edit editList postorderList contextsList)

variable {R : Type} [DecidableEq R]

/-- An op together with the ops around it, innermost first. -/
abbrev Context := OpInfo × List OpInfo

/-- An op lists a unit of the type. -/
def OpInfo.Lists (definition : ValueId → Definition R) (target : R) (op : OpInfo) : Prop :=
  ∃ u ∈ op.operands, unitTypeOf definition u = some target

instance (definition : ValueId → Definition R) (target : R) (op : OpInfo) :
    Decidable (op.Lists definition target) :=
  inferInstanceAs (Decidable (∃ u ∈ op.operands, _))

/-- The ops of the program of a type. -/
def InProgram (definition : ValueId → Definition R) (target : R) (c : Context) : Prop :=
  c.1.kind ≠ .executeOn ∧ (c.1.kind = .signal → c.1.Lists definition target) ∧
    ∀ outer ∈ c.2, outer.kind = .executeOn → outer.Lists definition target

instance (definition : ValueId → Definition R) (target : R) (c : Context) :
    Decidable (InProgram definition target c) :=
  inferInstanceAs (Decidable (_ ∧ _ ∧ _))

/-- The original program restricted to a type: its ops in order, and around each what is left of the
ops around it. -/
def restrictedProgram (func : Func R) (target : R) : List Context :=
  ((contextsList [] func.workOps).filter fun c => InProgram func.definition target c).map fun c =>
    (c.1, c.2.filter fun outer => outer.kind ≠ .executeOn)

/-- What the IR and the partition into prelude and work provide: ops are distinct, nothing is inside a
signal or a compute tile id, and compute tile ids of the entry block are in the prelude. -/
structure Func.WellFormed (func : Func R) : Prop where
  nodup : ((postorderList func.workOps).map OpInfo.id).Nodup
  no_regions : ∀ c ∈ contextsList [] func.workOps, ∀ outer ∈ c.2,
    outer.kind ≠ .signal ∧ outer.kind ≠ .getComputeTileId
  no_tileId : ∀ op ∈ func.workOps, op.label.kind ≠ .getComputeTileId
  no_query : ∀ op ∈ postorderList func.workOps, .coreId ∉ op.operands

/-- The ops of a program. -/
def opsOf (program : List Context) : List OpInfo := program.map Prod.fst

/-- The compute tile ids that the program of a type could read. -/
def tileIdsOf (func : Func R) (target : R) : List ValueId :=
  tileIdValues (func.preludeOps ++ opsOf (restrictedProgram func target))

/-- The restricted program, with the core in place of the compute tile id. -/
def redirectedProgram (func : Func R) (target : R) : List Context :=
  (restrictedProgram func target).map fun c =>
    (c.1.redirect (tileIdsOf func target), c.2.map (OpInfo.redirect (tileIdsOf func target)))

/-- A program unit that has the program of its type: the restricted one, without the compute tile ids
that nothing in it reads any more. -/
structure IsProgramOf (func : Func R) (component : R × List ValueId) (unit : ProgramUnit) :
    Prop where
  units : unit.units = component.2
  program : contextsList [] unit.body =
    (redirectedProgram func component.1).filter fun c =>
      !c.1.isDeadTileId (opsOf (redirectedProgram func component.1))
  nodup : ((postorderList unit.body).map OpInfo.id).Nodup
  no_tileId : ∀ op ∈ postorderList unit.body, ∀ v ∈ tileIdsOf func component.1, op.reads v = false
  cores : ∀ op ∈ postorderList unit.body, .coreId ∈ op.operands →
    ∃ entries, unit.coreMap = some entries ∧ ∀ u ∈ unit.units, ∃ getUnit core,
      func.definition u = .getUnit getUnit ∧ getUnit.core = some core ∧
        entries.lookup u = some core

/-! ## Walks -/

theorem bind_eq_gone {α β : Type} {x : Except BuildError α} {f : α → Except BuildError β} :
    (x >>= f) = .error .gone ↔ x = .error .gone ∨ ∃ a, x = .ok a ∧ f a = .error .gone := by
  cases x with
  | error e => simp [bind, Except.bind]
  | ok a => simp [bind, Except.bind]

theorem anyOperandHasType_eq_ok {definition : ValueId → Definition R} {target : R} {op : OpInfo}
    {applies : Bool} (h : anyOperandHasType definition target op.id op.operands = .ok applies) :
    applies = decide (op.Lists definition target) := by
  have haux : ∀ operands : List Operand,
      anyOperandHasType definition target op.id operands = .ok applies →
      applies = decide (∃ u ∈ operands, unitTypeOf definition u = some target) := by
    intro operands
    induction operands with
    | nil =>
        intro h
        cases h
        simp
    | cons u operands ih =>
        intro h
        rw [anyOperandHasType] at h
        split at h
        · cases h
        · next rt hrt =>
            split at h
            · next heq =>
                cases h
                simp [hrt, heq]
            · next hne =>
                rw [ih h]
                simp [hrt, hne]
  exact haux op.operands h

theorem anyOperandHasType_ne_gone {definition : ValueId → Definition R} {target : R} {op : OpId}
    (operands : List Operand) :
    anyOperandHasType definition target op operands ≠ .error .gone := by
  induction operands with
  | nil => simp [anyOperandHasType]
  | cons u operands ih =>
      rw [anyOperandHasType]
      split
      · simp
      · split
        · simp
        · exact ih

/-- A walk edits nothing. -/
theorem classify_ne_gone {definition : ValueId → Definition R} {target : R} {kind : OpKind}
    (ops : List OpInfo) : classify definition target kind ops ≠ .error .gone := by
  induction ops with
  | nil => simp [classify]
  | cons op ops ih =>
      rw [classify]
      split
      · intro h
        rcases bind_eq_gone.mp h with h | ⟨applies, -, h⟩
        · exact anyOperandHasType_ne_gone _ h
        · rcases bind_eq_gone.mp h with h | ⟨⟨_, _⟩, -, h⟩
          · exact ih h
          · dsimp only at h
            split at h <;> cases h
      · exact ih

/-- A walk sorts the ops of its kind by whether they list a unit of the type. -/
theorem classify_eq_ok {definition : ValueId → Definition R} {target : R} {kind : OpKind}
    {ops : List OpInfo} {applicable nonApplicable : List OpId}
    (h : classify definition target kind ops = .ok (applicable, nonApplicable)) :
    applicable = (ops.filter fun op => op.kind = kind ∧ op.Lists definition target).map OpInfo.id ∧
      nonApplicable =
        (ops.filter fun op => op.kind = kind ∧ ¬ op.Lists definition target).map OpInfo.id := by
  induction ops generalizing applicable nonApplicable with
  | nil =>
      cases h
      exact ⟨rfl, rfl⟩
  | cons op ops ih =>
      rw [classify] at h
      split at h
      · next hkind =>
          obtain ⟨applies, happlies, h⟩ := Except.bind_eq_ok.mp h
          obtain ⟨⟨apps, nons⟩, hrest, h⟩ := Except.bind_eq_ok.mp h
          obtain ⟨rfl, rfl⟩ := ih hrest
          have := anyOperandHasType_eq_ok happlies
          by_cases hlists : op.Lists definition target
          · simp only [hlists, decide_true] at this
            subst this
            cases h
            simp [hkind, hlists]
          · simp only [hlists, decide_false] at this
            subst this
            cases h
            simp [hkind, hlists]
      · next hkind =>
          obtain ⟨rfl, rfl⟩ := ih h
          simp [hkind]

/-! ## Filtering -/

/-- Ops of a walk are there when they are edited. -/
theorem editOps_eq_ok {body : List Op} (edit : Edit) (p : OpInfo → Bool)
    (hnodup : ((postorderList body).map OpInfo.id).Nodup) :
    editOps edit body (((postorderList body).filter p).map OpInfo.id) =
      .ok (editList (fun op => if p op then edit else .keep) body) := by
  rw [editOps, Rose.foldlM_editNode_filter OpInfo.id edit p hnodup]

theorem nodup_editList {body : List Op} (act : OpInfo → Edit)
    (hnodup : ((postorderList body).map OpInfo.id).Nodup) :
    ((postorderList (editList act body)).map OpInfo.id).Nodup :=
  hnodup.sublist ((Rose.postorderList_editList_sublist act body).map OpInfo.id)

/-- What happens to an op in the unit of a type. -/
def filterAct (definition : ValueId → Definition R) (target : R) (op : OpInfo) : Edit :=
  match op.kind with
  | .executeOn => if op.Lists definition target then .unwrap else .erase
  | .signal => if op.Lists definition target then .keep else .erase
  | _ => .keep

/-- The three sweeps come to one, and none misses an op. -/
theorem filterAndUnwrap_spec {definition : ValueId → Definition R} {target : R} {body : List Op}
    (hnodup : ((postorderList body).map OpInfo.id).Nodup) :
    filterAndUnwrapKTDFLoweringOps definition target body ≠ .error .gone ∧
      ∀ result, filterAndUnwrapKTDFLoweringOps definition target body = .ok result →
        result = editList (filterAct definition target) body := by
  -- the bodies after the first and the second sweep
  let unwrapAct : OpInfo → Edit := fun op =>
    if op.kind = .executeOn ∧ op.Lists definition target then .unwrap else .keep
  let eraseAct : OpInfo → Edit := fun op =>
    if op.kind = .executeOn ∧ ¬ op.Lists definition target then .erase else .keep
  have hunwrapped := nodup_editList unwrapAct hnodup
  have herased := nodup_editList eraseAct hunwrapped
  have hpost : postorderList (editList unwrapAct body) =
      (postorderList body).filter fun op => unwrapAct op = .keep :=
    Rose.postorderList_editList (fun op => by dsimp only [unwrapAct]; split <;> simp) body
  have hsweeps : ∀ applicable nonApplicable,
      classify definition target .executeOn (postorderList body) =
        .ok (applicable, nonApplicable) →
      editOps .unwrap body applicable = .ok (editList unwrapAct body) ∧
        editOps .erase (editList unwrapAct body) nonApplicable =
          .ok (editList eraseAct (editList unwrapAct body)) := by
    intro applicable nonApplicable h
    obtain ⟨rfl, rfl⟩ := classify_eq_ok h
    constructor
    · rw [editOps_eq_ok .unwrap _ hnodup]
      simp only [unwrapAct, decide_eq_true_eq]
    · have hsame : (postorderList body).filter
            (fun op => op.kind = .executeOn ∧ ¬ op.Lists definition target) =
          (postorderList (editList unwrapAct body)).filter
            (fun op => op.kind = .executeOn ∧ ¬ op.Lists definition target) := by
        rw [hpost, List.filter_filter]
        refine List.filter_congr fun op _ => ?_
        dsimp only [unwrapAct]
        grind
      rw [hsame, editOps_eq_ok .erase _ hunwrapped]
      simp only [eraseAct, decide_eq_true_eq]
  let signalAct : OpInfo → Edit := fun op =>
    if op.kind = .signal ∧ ¬ op.Lists definition target then .erase else .keep
  have hsignals : ∀ applicable nonApplicable,
      classify definition target .signal
          (postorderList (editList eraseAct (editList unwrapAct body))) =
        .ok (applicable, nonApplicable) →
      editOps .erase (editList eraseAct (editList unwrapAct body)) nonApplicable =
        .ok (editList signalAct (editList eraseAct (editList unwrapAct body))) := by
    intro applicable nonApplicable h
    obtain ⟨-, rfl⟩ := classify_eq_ok h
    rw [editOps_eq_ok .erase _ herased]
    simp only [signalAct, decide_eq_true_eq]
  have hcompose : editList signalAct (editList eraseAct (editList unwrapAct body)) =
      editList (filterAct definition target) body := by
    rw [Rose.editList_editList, Rose.editList_editList]
    refine Rose.editList_congr fun op _ => ?_
    dsimp only [unwrapAct, eraseAct, signalAct, filterAct]
    by_cases hlists : op.Lists definition target <;> cases op.kind <;> simp [hlists, Edit.andThen]
  constructor
  · intro h
    rcases bind_eq_gone.mp h with h | ⟨⟨applicable, nonApplicable⟩, hexecs, h⟩
    · exact classify_ne_gone _ h
    · obtain ⟨hfirst, hsecond⟩ := hsweeps applicable nonApplicable hexecs
      dsimp only at h
      rcases bind_eq_gone.mp h with h | ⟨_, hok, h⟩
      · cases hfirst.symm.trans h
      · cases hfirst.symm.trans hok
        rcases bind_eq_gone.mp h with h | ⟨_, hok, h⟩
        · cases hsecond.symm.trans h
        · cases hsecond.symm.trans hok
          rcases bind_eq_gone.mp h with h | ⟨⟨signals, signalsToErase⟩, hclassify, h⟩
          · exact classify_ne_gone _ h
          · cases (hsignals signals signalsToErase hclassify).symm.trans h
  · intro result h
    obtain ⟨⟨applicable, nonApplicable⟩, hexecs, h⟩ := Except.bind_eq_ok.mp h
    obtain ⟨hfirst, hsecond⟩ := hsweeps applicable nonApplicable hexecs
    obtain ⟨_, hok, h⟩ := Except.bind_eq_ok.mp h
    cases hfirst.symm.trans hok
    obtain ⟨_, hok, h⟩ := Except.bind_eq_ok.mp h
    cases hsecond.symm.trans hok
    obtain ⟨⟨signals, signalsToErase⟩, hclassify, h⟩ := Except.bind_eq_ok.mp h
    cases (hsignals signals signalsToErase hclassify).symm.trans h
    exact hcompose

theorem filterAct_eq_keep {definition : ValueId → Definition R} {target : R} {op : OpInfo} :
    filterAct definition target op = .keep ↔
      op.kind ≠ .executeOn ∧ (op.kind = .signal → op.Lists definition target) := by
  unfold filterAct
  by_cases hlists : op.Lists definition target <;> cases op.kind <;> simp [hlists]

theorem filterAct_ne_erase {definition : ValueId → Definition R} {target : R} {op : OpInfo}
    (h : op.kind ≠ .signal) :
    filterAct definition target op ≠ .erase ↔
      (op.kind = .executeOn → op.Lists definition target) := by
  unfold filterAct
  by_cases hlists : op.Lists definition target <;> cases hkind : op.kind <;> simp_all

/-- What is left of the function in the unit of a type is the restricted program. -/
theorem contextsList_filterAct {func : Func R} (h : func.WellFormed) (target : R) :
    contextsList [] (editList (filterAct func.definition target) func.workOps) =
      restrictedProgram func target := by
  have hleft := @Rose.contextsList_editList _ (filterAct func.definition target) []
    (fun _ h => nomatch h) func.workOps
  rw [List.filter_nil] at hleft
  rw [hleft, restrictedProgram]
  -- op by op, with nothing inside a signal
  have haux : ∀ cs : List Context, (∀ c ∈ cs, ∀ outer ∈ c.2, outer.kind ≠ .signal) →
      cs.filterMap (Rose.leftOf (filterAct func.definition target)) =
        (cs.filter fun c => InProgram func.definition target c).map fun c =>
          (c.1, c.2.filter fun outer => outer.kind ≠ .executeOn) := by
    intro cs
    induction cs with
    | nil => exact fun _ => rfl
    | cons c cs ih =>
        intro hregions
        obtain ⟨hc, hcs⟩ := List.forall_mem_cons.mp hregions
        have hin : (filterAct func.definition target c.1 = .keep ∧
            ∀ b ∈ c.2, filterAct func.definition target b ≠ .erase) ↔
            InProgram func.definition target c := by
          rw [filterAct_eq_keep, InProgram, and_assoc]
          refine and_congr_right fun _ => and_congr_right fun _ => ?_
          exact forall₂_congr fun b hb => filterAct_ne_erase (hc b hb)
        have haround : (c.2.filter fun b => filterAct func.definition target b = .keep) =
            c.2.filter fun outer => outer.kind ≠ .executeOn := by
          refine List.filter_congr fun b hb => ?_
          rw [decide_eq_decide, filterAct_eq_keep]
          exact ⟨And.left, fun hkind => ⟨hkind, fun hsignal => absurd hsignal (hc b hb)⟩⟩
        rw [List.filterMap_cons, ih hcs, Rose.leftOf]
        by_cases hc : InProgram func.definition target c
        · rw [if_pos (hin.mpr hc), List.filter_cons_of_pos (by simpa using hc), List.map_cons, haround]
        · rw [if_neg (hin.not.mpr hc), List.filter_cons_of_neg (by simpa using hc)]
  exact haux _ fun c hc outer houter => (h.no_regions c hc outer houter).1

/-! ## Core queries -/

theorem reads_redirect {tileIds : List ValueId} {op : OpInfo} {v : ValueId} :
    (op.redirect tileIds).reads v = (op.reads v && !decide (v ∈ tileIds)) := by
  rw [Bool.eq_iff_iff]
  simp only [OpInfo.reads, OpInfo.redirect, List.contains_iff_mem, List.mem_map, Bool.and_eq_true,
    Bool.not_eq_true', decide_eq_false_iff_not]
  constructor
  · rintro ⟨operand, hmem, h⟩
    cases operand with
    | value w =>
        dsimp only at h
        split at h
        · cases h
        · next hnot =>
            cases h
            exact ⟨hmem, hnot⟩
    | coreId => cases h
  · rintro ⟨hmem, hnot⟩
    exact ⟨.value v, hmem, by simp [hnot]⟩

/-- Only what the op reads matters. -/
theorem redirect_congr {tileIds tileIds' : List ValueId} {op : OpInfo}
    (h : ∀ v, op.reads v = true → (v ∈ tileIds ↔ v ∈ tileIds')) :
    op.redirect tileIds = op.redirect tileIds' := by
  unfold OpInfo.redirect
  congr 1
  refine List.map_congr_left fun operand hmem => ?_
  cases operand with
  | value v => simp only [h v (by simpa [OpInfo.reads] using hmem)]
  | coreId => rfl

theorem redirect_nil (op : OpInfo) : op.redirect [] = op := by
  cases op with
  | mk id kind operands results =>
      unfold OpInfo.redirect
      congr 1
      conv_rhs => rw [← List.map_id operands]
      refine List.map_congr_left fun operand _ => ?_
      cases operand with
      | value v => simp
      | coreId => rfl

omit [DecidableEq R] in
theorem coreEntries_eq_ok {definition : ValueId → Definition R} {units : List ValueId}
    {entries : List (ValueId × Int)} (h : coreEntries definition units = .ok entries) :
    ∀ u ∈ units, ∃ getUnit core, definition u = .getUnit getUnit ∧ getUnit.core = some core ∧
      entries.lookup u = some core := by
  induction units generalizing entries with
  | nil => nofun
  | cons puOp units ih =>
      rw [coreEntries] at h
      split at h
      · next unit hunit =>
          split at h
          · next core hcore =>
              obtain ⟨rest, hrest, h⟩ := Except.bind_eq_ok.mp h
              cases h
              intro u hu
              by_cases heq : u = puOp
              · subst heq
                exact ⟨unit, core, hunit, hcore, by simp⟩
              · obtain ⟨getUnit, core', hdef, hcore', hlookup⟩ :=
                  ih hrest u ((List.mem_cons.mp hu).resolve_left heq)
                refine ⟨getUnit, core', hdef, hcore', ?_⟩
                rw [List.lookup_cons, beq_eq_false_iff_ne.mpr heq]
                exact hlookup
          · cases h
      · cases h

omit [DecidableEq R] in
theorem coreEntries_ne_gone {definition : ValueId → Definition R} (units : List ValueId) :
    coreEntries definition units ≠ .error .gone := by
  induction units with
  | nil => simp [coreEntries]
  | cons puOp units ih =>
      rw [coreEntries]
      split
      · split
        · intro h
          rcases bind_eq_gone.mp h with h | ⟨_, -, h⟩
          · exact ih h
          · cases h
        · simp
      · simp

theorem mem_tileIdValues {ops : List OpInfo} {v : ValueId} :
    v ∈ tileIdValues ops ↔ ∃ op ∈ ops, op.kind = .getComputeTileId ∧ op.results = [v] := by
  rw [tileIdValues, List.mem_filterMap]
  refine exists_congr fun op => and_congr_right fun _ => ?_
  constructor
  · intro h
    split at h
    · next w hkind hresults =>
        cases h
        exact ⟨hkind, hresults⟩
    · cases h
  · rintro ⟨hkind, hresults⟩
    simp [hkind, hresults]

/-- The program of a type in post-order has the same ops. -/
theorem mem_opsOf_restrictedProgram {func : Func R} (h : func.WellFormed) {target : R}
    {op : OpInfo} :
    op ∈ opsOf (restrictedProgram func target) ↔
      op ∈ postorderList (editList (filterAct func.definition target) func.workOps) := by
  rw [Rose.mem_postorderList_iff, contextsList_filterAct h target, opsOf, List.mem_map]

theorem mem_tileIdsOf {func : Func R} (h : func.WellFormed) {target : R} {v : ValueId} :
    v ∈ tileIdsOf func target ↔ v ∈ tileIdValues (func.preludeOps ++
      postorderList (editList (filterAct func.definition target) func.workOps)) := by
  rw [tileIdsOf, mem_tileIdValues, mem_tileIdValues]
  refine exists_congr fun op => and_congr_left fun _ => ?_
  rw [List.mem_append, List.mem_append, mem_opsOf_restrictedProgram h]

/-- One round builds the redirected program and the core map it reads. -/
theorem buildProgramUnit_spec {func : Func R} (h : func.WellFormed)
    (component : R × List ValueId) :
    buildProgramUnit func component ≠ .error .gone ∧
      ∀ unit, buildProgramUnit func component = .ok unit →
        unit.units = component.2 ∧
        unit.body = Rose.mapList (OpInfo.redirect (tileIdsOf func component.1))
          (editList (filterAct func.definition component.1) func.workOps) ∧
        ∀ op ∈ postorderList unit.body, .coreId ∈ op.operands →
          ∃ entries, unit.coreMap = some entries ∧ ∀ u ∈ unit.units, ∃ getUnit core,
            func.definition u = .getUnit getUnit ∧ getUnit.core = some core ∧
              entries.lookup u = some core := by
  obtain ⟨hgone, hfilter⟩ := @filterAndUnwrap_spec R _ func.definition component.1
    func.workOps h.nodup
  constructor
  · intro hbuild
    rcases bind_eq_gone.mp hbuild with hbuild | ⟨body, -, hbuild⟩
    · exact hgone hbuild
    · unfold replaceComputeTileIdWithCoreQuery at hbuild
      dsimp only at hbuild
      split at hbuild
      · cases hbuild
      · rcases bind_eq_gone.mp hbuild with hbuild | ⟨_, -, hbuild⟩
        · exact coreEntries_ne_gone _ hbuild
        · cases hbuild
  · intro unit hbuild
    obtain ⟨body, hbody, hbuild⟩ := Except.bind_eq_ok.mp hbuild
    obtain rfl := hfilter body hbody
    have hmem := @mem_tileIdsOf R _ func h component.1
    unfold replaceComputeTileIdWithCoreQuery at hbuild
    dsimp only at hbuild
    generalize hbody' : editList (filterAct func.definition component.1) func.workOps = body at *
    -- whether a tile id is read at all does not matter for the ops that are redirected
    have hredirect : ∀ op ∈ postorderList body,
        op.redirect ((tileIdValues (func.preludeOps ++ postorderList body)).filter fun v =>
          (postorderList body).any fun op => op.reads v) =
        op.redirect (tileIdsOf func component.1) := by
      intro op hop
      refine redirect_congr fun v hreads => ?_
      rw [List.mem_filter, hmem]
      exact and_iff_left (List.any_eq_true.mpr ⟨op, hop, hreads⟩)
    split at hbuild
    · next hempty =>
        cases hbuild
        rw [List.isEmpty_iff.mp hempty] at hredirect
        have hid : Rose.mapList (OpInfo.redirect (tileIdsOf func component.1)) body = body :=
          Rose.mapList_id fun op hop => by rw [← hredirect op hop, redirect_nil]
        refine ⟨rfl, hid.symm, fun op hop hcore => ?_⟩
        subst hbody'
        exact absurd hcore (h.no_query op
          ((Rose.postorderList_editList_sublist _ _).subset hop))
    · obtain ⟨entries, hentries, hbuild⟩ := Except.bind_eq_ok.mp hbuild
      cases hbuild
      exact ⟨rfl, Rose.mapList_congr hredirect, fun op _ _ =>
        ⟨entries, rfl, coreEntries_eq_ok hentries⟩⟩

/-! ## Dead tile ids -/

theorem isDeadTileId_congr {readers readers' : List OpInfo} (h : ∀ op, op ∈ readers ↔ op ∈ readers')
    (op : OpInfo) : op.isDeadTileId readers = op.isDeadTileId readers' := by
  rw [Bool.eq_iff_iff]
  simp only [OpInfo.isDeadTileId, Bool.and_eq_true, List.all_eq_true, h]

/-- Nothing is inside a dead tile id, so erasing them takes nothing else away. -/
theorem contextsList_eraseDead {body : List Op} {dead : OpInfo → Bool}
    (h : ∀ c ∈ contextsList [] body, ∀ outer ∈ c.2, dead outer = false) :
    contextsList [] (editList (fun op => if dead op then .erase else .keep) body) =
      (contextsList [] body).filter fun c => !dead c.1 := by
  have hleft := @Rose.contextsList_editList _ (fun op => if dead op then .erase else .keep) []
    (fun _ h => nomatch h) body
  rw [List.filter_nil] at hleft
  rw [hleft]
  have haux : ∀ cs : List Context, (∀ c ∈ cs, ∀ outer ∈ c.2, dead outer = false) →
      cs.filterMap (Rose.leftOf fun op => if dead op then .erase else .keep) =
        cs.filter fun c => !dead c.1 := by
    intro cs
    induction cs with
    | nil => exact fun _ => rfl
    | cons c cs ih =>
        intro hdead
        obtain ⟨hc, hcs⟩ := List.forall_mem_cons.mp hdead
        have haround : (c.2.filter fun b => (if dead b then Edit.erase else .keep) = .keep) = c.2 :=
          List.filter_eq_self.mpr fun b hb => by simp [hc b hb]
        have hnone : ∀ b ∈ c.2, (if dead b then Edit.erase else .keep) ≠ .erase := fun b hb => by
          simp [hc b hb]
        rw [List.filterMap_cons, ih hcs, Rose.leftOf]
        cases hself : dead c.1 with
        | true => simp [hself]
        | false =>
            rw [if_pos ⟨by simp, hnone⟩, haround, List.filter_cons_of_pos (by simp [hself])]
  exact haux _ h

theorem eraseDeadTileIds_eq_ok {body : List Op}
    (hnodup : ((postorderList body).map OpInfo.id).Nodup) :
    eraseDeadTileIds body = .ok (editList
      (fun op => if op.isDeadTileId (postorderList body) then .erase else .keep) body) :=
  editOps_eq_ok .erase _ hnodup

/-- After the dead tile ids are erased, the unit has the program of its type. -/
theorem isProgramOf_of_buildProgramUnit {func : Func R} (h : func.WellFormed)
    {component : R × List ValueId} {unit : ProgramUnit}
    (hbuild : buildProgramUnit func component = .ok unit) :
    ∃ body, eraseDeadTileIds unit.body = .ok body ∧
      IsProgramOf func component { unit with body := body } := by
  obtain ⟨hunits, hbody, hcores⟩ := (buildProgramUnit_spec h component).2 unit hbuild
  have hpost : postorderList unit.body =
      (postorderList (editList (filterAct func.definition component.1) func.workOps)).map
        (OpInfo.redirect (tileIdsOf func component.1)) := by
    rw [hbody, Rose.postorderList_map]
  have hnodup : ((postorderList unit.body).map OpInfo.id).Nodup := by
    rw [hpost, List.map_map]
    exact nodup_editList _ h.nodup
  have hprogram : contextsList [] unit.body = redirectedProgram func component.1 := by
    have hmap := Rose.contextsList_map (OpInfo.redirect (tileIdsOf func component.1)) []
      (editList (filterAct func.definition component.1) func.workOps)
    rw [List.map_nil] at hmap
    rw [hbody, hmap, contextsList_filterAct h, redirectedProgram]
  have hdead : ∀ c ∈ contextsList [] unit.body, ∀ outer ∈ c.2,
      outer.isDeadTileId (postorderList unit.body) = false := by
    intro c hc outer houter
    rw [hprogram, redirectedProgram, restrictedProgram, List.map_map] at hc
    obtain ⟨c₀, hc₀, rfl⟩ := List.mem_map.mp hc
    obtain ⟨outer₀, houter₀, rfl⟩ := List.mem_map.mp houter
    have hkind := (h.no_regions c₀ (List.mem_of_mem_filter hc₀) outer₀
      (List.mem_of_mem_filter houter₀)).2
    simp [OpInfo.isDeadTileId, OpInfo.redirect, hkind]
  have hsub := Rose.postorderList_editList_sublist
    (fun op => if op.isDeadTileId (postorderList unit.body) then Edit.erase else .keep) unit.body
  refine ⟨_, eraseDeadTileIds_eq_ok hnodup, hunits, ?_, nodup_editList _ hnodup,
    fun op hop v hv => ?_, fun op hop => hcores op (hsub.subset hop)⟩
  · show contextsList [] (editList _ unit.body) = _
    rw [contextsList_eraseDead hdead, hprogram]
    have hreaders : ∀ op, op ∈ postorderList unit.body ↔
        op ∈ opsOf (redirectedProgram func component.1) := fun op => by
      rw [Rose.mem_postorderList_iff, hprogram, opsOf, List.mem_map]
    exact List.filter_congr fun c _ => by rw [isDeadTileId_congr hreaders]
  · have hop := hsub.subset hop
    rw [hpost] at hop
    obtain ⟨op₀, -, rfl⟩ := List.mem_map.mp hop
    simp [reads_redirect, hv]

/-! ## The builder -/

theorem mapM_ne_gone {α β : Type} {f : α → Except BuildError β} {l : List α}
    (h : ∀ a ∈ l, f a ≠ .error .gone) : l.mapM f ≠ .error .gone := by
  induction l with
  | nil => simp [pure, Except.pure]
  | cons a l ih =>
      obtain ⟨ha, hl⟩ := List.forall_mem_cons.mp h
      rw [List.mapM_cons]
      intro hmap
      rcases bind_eq_gone.mp hmap with hmap | ⟨_, -, hmap⟩
      · exact ha hmap
      · rcases bind_eq_gone.mp hmap with hmap | ⟨_, -, hmap⟩
        · exact ih hl hmap
        · cases hmap

theorem eraseWorkOps_eq_ok {left workOps : List Op}
    (h : ∀ op ∈ workOps, op.label.id ∈ left.map fun op => op.label.id) :
    eraseWorkOps left workOps = .ok () := by
  induction workOps with
  | nil => rfl
  | cons op workOps ih =>
      obtain ⟨hop, hworkOps⟩ := List.forall_mem_cons.mp h
      rw [eraseWorkOps, ih hworkOps]
      show (if _ then Except.ok () else Except.error BuildError.gone) = _
      rw [if_pos (by simpa using hop)]

theorem eraseDead_units {func : Func R} (h : func.WellFormed) {components : List (R × List ValueId)}
    {units : List ProgramUnit}
    (hbuild : List.Forall₂ (fun component unit => buildProgramUnit func component = .ok unit)
      components units) :
    ∃ erased, (units.mapM fun unit => do
        let body ← eraseDeadTileIds unit.body
        .ok { unit with body := body }) = .ok erased ∧
      List.Forall₂ (IsProgramOf func) components erased := by
  induction hbuild with
  | nil => exact ⟨[], rfl, .nil⟩
  | cons hunit _ ih =>
      obtain ⟨body, hbody, hprogram⟩ := isProgramOf_of_buildProgramUnit h hunit
      obtain ⟨erased, herased, hprograms⟩ := ih
      refine ⟨_ :: erased, ?_, .cons hprogram hprograms⟩
      rw [List.mapM_cons, hbody, herased]
      rfl

/-- **Every unit gets its own program.** No op is erased twice, and when the builder succeeds each
program unit has the program of its type and nothing is left of the original work. -/
theorem buildProgramUnits_isProgramOf {func : Func R} (h : func.WellFormed)
    (components : List (R × List ValueId)) :
    buildProgramUnits func components ≠ .error .gone ∧
      ∀ result, buildProgramUnits func components = .ok result → components ≠ [] →
        result.workOps = [] ∧ ∃ units, result.programUnits = func.programUnits ++ units ∧
          List.Forall₂ (IsProgramOf func) components units := by
  have hwork := eraseDeadTileIds_eq_ok h.nodup
  have hroots : eraseWorkOps (editList
      (fun op => if op.isDeadTileId (postorderList func.workOps) then .erase else .keep)
      func.workOps) func.workOps = .ok () := by
    refine eraseWorkOps_eq_ok fun op hop => ?_
    have hlabels := @Rose.map_label_editList _
      (fun op => if op.isDeadTileId (postorderList func.workOps) then Edit.erase else .keep)
      func.workOps fun op hop => by simp [OpInfo.isDeadTileId, h.no_tileId op hop]
    have hmap := congrArg (List.map OpInfo.id) hlabels
    rw [List.map_map, List.map_map] at hmap
    show op.label.id ∈ List.map (OpInfo.id ∘ Rose.label) _
    rw [hmap]
    exact List.mem_map_of_mem (f := OpInfo.id ∘ Rose.label) hop
  unfold buildProgramUnits
  split
  · next hempty =>
      refine ⟨nofun, fun result _ hne => ?_⟩
      exact absurd (List.isEmpty_iff.mp hempty) hne
  · constructor
    · intro hbuild
      rcases bind_eq_gone.mp hbuild with hbuild | ⟨units, hunits, hbuild⟩
      · exact mapM_ne_gone (fun component _ => (buildProgramUnit_spec h component).1) hbuild
      · obtain ⟨erased, herased, -⟩ := eraseDead_units h (Except.mapM_eq_ok hunits)
        rw [hwork, herased] at hbuild
        dsimp only [bind, Except.bind] at hbuild
        rw [hroots] at hbuild
        cases hbuild
    · intro result hbuild _
      obtain ⟨units, hunits, hbuild⟩ := Except.bind_eq_ok.mp hbuild
      obtain ⟨erased, herased, hprograms⟩ := eraseDead_units h (Except.mapM_eq_ok hunits)
      rw [hwork, herased] at hbuild
      dsimp only [bind, Except.bind] at hbuild
      rw [hroots] at hbuild
      cases hbuild
      exact ⟨rfl, erased, rfl, hprograms⟩

/-- Units 0 and 1 are of type 70 and 80. In a loop, unit 0 works on its compute tile and both units
signal. -/
def twoTypes : Func Nat where
  definition := fun v =>
    if v = 0 then .getUnit ⟨70, some 3, 0⟩ else if v = 1 then .getUnit ⟨80, some 3, 0⟩ else .other
  preludeOps := [⟨0, .other, [], [0]⟩, ⟨1, .other, [], [1]⟩]
  workOps := [.node ⟨2, .other, [], []⟩ [
    .node ⟨3, .executeOn, [.value 0], []⟩ [
      .node ⟨4, .getComputeTileId, [], [9]⟩ [],
      .node ⟨5, .other, [.value 9], []⟩ []],
    .node ⟨6, .signal, [.value 0, .value 1], []⟩ []]]
  programUnits := []

theorem wellFormed_twoTypes : twoTypes.WellFormed where
  nodup := by decide
  no_regions := by decide
  no_tileId := by decide
  no_query := by decide

theorem buildProgramUnits_isProgramOf_twoTypes :
    ∃ result, buildProgramUnits twoTypes [(70, [0]), (80, [1])] = .ok result ∧
      result.workOps = [] ∧
      List.Forall₂ (IsProgramOf twoTypes) [(70, [0]), (80, [1])] result.programUnits := by
  have heval : ((buildProgramUnits twoTypes [(70, [0]), (80, [1])]).toOption.map fun result =>
      result.programUnits.map fun unit => (contextsList [] unit.body).map fun c =>
        (c.1.id, c.1.operands, c.2.map OpInfo.id)) =
      some [[(2, [], []), (5, [.coreId], [2]), (6, [.value 0, .value 1], [2])],
        [(2, [], []), (6, [.value 0, .value 1], [2])]] := by decide +kernel
  obtain ⟨result, hresult, -⟩ := Except.eq_ok_of_map_toOption heval
  obtain ⟨hwork, units, hunits, hprograms⟩ :=
    (buildProgramUnits_isProgramOf wellFormed_twoTypes [(70, [0]), (80, [1])]).2 result hresult
      (by simp)
  refine ⟨result, hresult, hwork, ?_⟩
  rw [hunits]
  exact hprograms

/-- A compute tile id inside an `execute_on` is not kept in the unit it is for. -/
theorem not_all_present_twoTypes : ¬ ∀ (func : Func Nat) (components : List (Nat × List ValueId))
    (result : Func Nat), func.WellFormed → buildProgramUnits func components = .ok result →
    components ≠ [] → ∃ units, result.programUnits = func.programUnits ++ units ∧
      List.Forall₂ (fun component unit => ∀ op ∈ opsOf (restrictedProgram func component.1),
        op.id ∈ (postorderList unit.body).map OpInfo.id) components units := by
  intro hall
  have heval : ((buildProgramUnits twoTypes [(70, [0])]).toOption.map fun result =>
      result.programUnits.map fun unit => (postorderList unit.body).map OpInfo.id) =
      some [[5, 6, 2]] := by decide +kernel
  obtain ⟨result, hresult, hids⟩ := Except.eq_ok_of_map_toOption heval
  obtain ⟨units, hunits, hpresent⟩ :=
    hall twoTypes [(70, [0])] result wellFormed_twoTypes hresult (by simp)
  cases hpresent with
  | @cons _ unit _ _ hunit hrest =>
      cases hrest
      rw [hunits] at hids
      have hids' : (postorderList unit.body).map OpInfo.id = [5, 6, 2] := (List.cons.inj hids).1
      rw [hids'] at hunit
      exact absurd hunit (by decide)

end ProgramUnitBuilder

end DataflowScheduler
