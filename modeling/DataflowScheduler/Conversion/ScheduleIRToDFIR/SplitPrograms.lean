import Mathlib.Data.List.Nodup
import DataflowScheduler.Conversion.ScheduleIRToDFIR.WrapProgramDFIR

/-!
# What splitting a program keeps

The ops a declaration needs are those behind it in the block; a needed op is shared when something
that is not needed reads it. The split erases the needed ops that are not shared, whatever a shared
op reads. So it is sound exactly when shared ops rest on shared ops alone: on no argument and on no op
that only declarations need.
-/

namespace DataflowScheduler

namespace WrapProgramDFIR

variable {N : Type} [DecidableEq N]

/-! ## What declarations need -/

/-- The declarations of the block and the ops behind them. -/
inductive Needed (b : Body N) : Op N → Prop
  | declaration {op : Op N} (h : op ∈ b.ops) (hid : op.isCreateId = true) : Needed b op
  | operand {op d : Op N} {v : Nat} (h : Needed b op) (hv : v ∈ op.operands) (hd : d ∈ b.ops)
      (hvd : v ∈ d.results) : Needed b d

omit [DecidableEq N] in
theorem Needed.mem {b : Body N} {op : Op N} (h : Needed b op) : op ∈ b.ops := by
  cases h with
  | declaration h => exact h
  | operand _ _ hd => exact hd

/-- Something that no declaration needs reads the value. -/
def ReadOutside (b : Body N) (v : Nat) : Prop :=
  ∃ u ∈ b.ops, (¬ Needed b u ∧ v ∈ u.operands) ∨ v ∈ u.captured

/-- A declaration needs the op, and so does something else. -/
def Shared (b : Body N) (op : Op N) : Prop := Needed b op ∧ ∃ v ∈ op.results, ReadOutside b v

/-- Whatever a shared op reads is the result of a shared op. -/
def RestsOnShared (b : Body N) : Prop :=
  ∀ op, Shared b op → ∀ v ∈ op.operands, ∃ d, Shared b d ∧ v ∈ d.results

/-- The program is one to split: all declarations are in the entry block, the arguments serve the
declarations alone and the name of the body is free. -/
structure Splits (m : Module N) (b : Body N) : Prop where
  inEntry : ∀ op ∈ b.ops, op.declares = false
  argsOurs : ∀ a ∈ b.args, ¬ ReadOutside b a
  nameFree : m.bodyNameTaken = false

/-- A verified body whose declarations are over arguments and arithmetic. Nothing reads a declaration
but declarations. -/
structure Valid (b : Body N) : Prop where
  inScope : Block.Scoped b.args b.ops
  ids_nodup : (b.ops.map (·.id)).Nodup
  args_nodup : b.args.Nodup
  noRegions : ∀ op, Needed b op → op.captured = []
  readByDeclarations : ∀ op ∈ b.ops, op.isCreateId = true → ∀ v ∈ op.results, ∀ u ∈ b.ops,
    (v ∈ u.operands → u.isCreateId = true) ∧ v ∉ u.captured

/-! ## Meaning -/

/-- What the ops do. `F` are the meanings of symbols. -/
structure Meaning (N F V W : Type) where
  run : OpName N → List F → List V → List V → W → List V × W

/-- The op is a function of its operands. -/
def Meaning.IsPure {F V W : Type} (S : Meaning N F V W) (name : OpName N) : Prop :=
  ∃ f : List V → List V → List V, ∀ symbols operands captured w,
    S.run name symbols operands captured w = (f operands captured, w)

/-- An op as it runs. -/
structure Event (N V : Type) where
  id : Nat
  name : OpName N
  operands : List V
  captured : List V
  results : List V

/-- The ops of a block when the symbols mean `den`. -/
def machine {F V W : Type} (S : Meaning N F V W) (den : String → F) :
    Block.Machine (Op N) V W (Event N V) where
  step op env w :=
    let r := S.run op.name (op.symbols.map den) (op.operands.map env) (op.captured.map env) w
    ⟨r.1, r.2, ⟨op.id, op.name, op.operands.map env, op.captured.map env, r.1⟩⟩
  step_congr op env env' w h := by
    have hoperands : op.operands.map env = op.operands.map env' :=
      List.map_congr_left fun v hv => h v (List.mem_append_left _ hv)
    have hcaptured : op.captured.map env = op.captured.map env' :=
      List.map_congr_left fun v hv => h v (List.mem_append_right _ hv)
    simp only [hoperands, hcaptured]

/-- Which symbol is declared, and over which values. -/
def Event.declaration? {V : Type} (e : Event N V) : Option (Int × List V) :=
  match e.name with
  | .createId symbolId => some (symbolId, e.operands)
  | _ => none

/-- The declarations among what is run. -/
def declarations {V : Type} (events : List (Event N V)) : List (Int × List V) :=
  events.filterMap Event.declaration?

/-! ## Soundness -/

/-- The symbols of the program before the split, when `den` are those after it. -/
def symbolsBefore {F : Type} (m : Module N) (den : String → F) (s : String) : F :=
  den (if s = m.symName then m.bodyName else s)

/-- `b'` and `c` are what the body `b` of a program is split into. -/
structure IsSplit (m : Module N) (b b' c : Body N) : Prop where
  /-- What is left uses nothing that is erased. -/
  closed : ∀ op ∈ b'.ops, ∀ v ∈ op.operands ++ op.captured, ∃ d ∈ b'.ops, v ∈ d.results
  noArgs : b'.args = []
  noDeclaration : ∀ op ∈ b'.ops, op.isCreateId = false ∧ op.declares = false
  /-- What no declaration needs is left. -/
  keeps : ∀ op ∈ b.ops, ¬ Needed b op → op.renameSymbol m.symName m.bodyName ∈ b'.ops
  /-- What is left does what it did, whatever the arguments were. -/
  computes : ∀ {F V W : Type} [Inhabited V] (S : Meaning N F V W) (den : String → F)
    (env env' : Block.Env V) (w : W), (∀ op, Needed b op → S.IsPure op.name) →
    (machine S den).run b'.ops env' w =
      (((machine S (symbolsBefore m den)).run b.ops env w).1.filter (·.id ∈ b'.ops.map (·.id)),
        ((machine S (symbolsBefore m den)).run b.ops env w).2)
  /-- The caller declares the same symbols over the same functions of the arguments. -/
  arity : c.args.length = b.args.length
  declares : ∀ {F V W : Type} [Inhabited V] (S : Meaning N F V W) (den den' : String → F)
    (env env' : Block.Env V) (w w' : W), (∀ op, Needed b op → S.IsPure op.name) →
    c.args.map env' = b.args.map env →
    declarations ((machine S den).run c.ops env' w').1 =
      declarations ((machine S den').run b.ops env w).1

/-- `wrap` leaves the module alone or splits its program `f` with the body `b`. -/
structure SplitsSoundly (m : Module N) (f : Func N) (b : Body N) : Prop where
  stays : (∃ e, b.symbolOpsOf = .error e) ∨ b.symbolOpsOf = .ok none ∨ m.bodyNameTaken = true →
    wrap m = .success m ∨ ∃ e, wrap m = .failure e m
  splits : ∀ sets, b.symbolOpsOf = .ok (some sets) → m.bodyNameTaken = false →
    ∃ (caller : Func N) (b' c : Body N),
      wrap m = .success
        { m with items := [.func m.declaration, .func caller, .module none (m.contents b')] } ∧
      caller.symName = m.symName ∧ caller.type = f.type ∧ caller.body = some c ∧ IsSplit m b b' c

/-! ## `symbolOpsOf` finds what is needed -/

section Sets

variable {b : Body N}

omit [DecidableEq N] in
theorem Valid.definingOp?_eq_some (hb : Valid b) {v : Nat} {op : Op N} :
    b.definingOp? v = some op ↔ op ∈ b.ops ∧ v ∈ op.results := by
  constructor
  · intro h
    exact ⟨List.mem_of_find?_eq_some h, by simpa using List.find?_some h⟩
  · rintro ⟨hop, hv⟩
    cases h : b.definingOp? v with
    | none => exact absurd hv (by simpa using List.find?_eq_none.1 h op hop)
    | some d =>
      have hd : v ∈ d.results := by simpa using List.find?_some h
      rw [hb.inScope.def_unique (List.mem_of_find?_eq_some h) hop hd hv]

omit [DecidableEq N] in
theorem Valid.source_eq_some (hb : Valid b) {v : Nat} {op : Op N} :
    b.source v = .ok (some op) ↔ op ∈ b.ops ∧ v ∈ op.results := by
  rw [← hb.definingOp?_eq_some]
  unfold Body.source
  cases b.definingOp? v with
  | some d => simp
  | none =>
    simp only [reduceCtorEq, iff_false]
    split <;> [skip; split] <;> simp

omit [DecidableEq N] in
/-- An op of the entry block reads no argument of an inner one. -/
theorem Valid.source_ne_error (hb : Valid b) {op : Op N} (hop : op ∈ b.ops) {v : Nat}
    (hv : v ∈ op.operands) (e : String) : b.source v ≠ .error e := by
  rcases hb.inScope.reads_bound hop (List.mem_append_left _ hv) with harg | ⟨d, hd, hvd⟩
  · unfold Body.source
    split
    · simp
    · rw [if_pos harg]
      simp
  · rw [hb.source_eq_some.2 ⟨hd, hvd⟩]
    simp

omit [DecidableEq N] in
theorem Valid.leadsInto (hb : Valid b) {op : Op N} (hop : op ∈ b.ops) {v : Nat}
    (hv : v ∈ op.operands) : Worklist.LeadsInto b.source b.ops v := by
  cases hsource : b.source v with
  | error e => exact absurd hsource (hb.source_ne_error hop hv e)
  | ok o =>
    refine ⟨o, hsource, fun d hd => ?_⟩
    cases hd
    exact (hb.source_eq_some.1 hsource).1

theorem Valid.wanted_eq (hb : Valid b) :
    ∃ wanted, b.wanted = .ok wanted ∧ ∀ op, op ∈ wanted ↔ Needed b op := by
  set decls := b.ops.filter (·.isCreateId) with hdecls
  have hmem : ∀ v ∈ (decls.flatMap Op.operands).reverse, ∃ op ∈ decls, v ∈ op.operands := by
    intro v hv
    exact List.mem_flatMap.1 (List.mem_reverse.1 hv)
  have hfuel : Worklist.remaining Op.operands b.ops decls.reverse +
      (decls.flatMap Op.operands).reverse.length ≤
        (b.ops.map fun op => op.operands.length).sum := by
    have hrest : b.ops.filter (· ∉ decls.reverse) = b.ops.filter fun op => !op.isCreateId := by
      apply List.filter_congr
      intro op hop
      simp [hdecls, hop]
    rw [Worklist.remaining, hrest, List.length_reverse, List.length_flatMap, Nat.add_comm, hdecls]
    exact Nat.le_of_eq (Worklist.sum_filter_add_sum_filter _ _ _)
  obtain ⟨all, hall, hiff⟩ := @Worklist.drain_ok _ _ _ _ b.source Op.operands b.ops
    (fun op hop v hv => hb.leadsInto hop hv) _ _ _ hfuel
    (by
      intro v hv
      obtain ⟨op, hop, hvop⟩ := hmem v hv
      exact hb.leadsInto (List.mem_of_mem_filter hop) hvop)
    (by
      intro op hop v hv d _
      left
      exact List.mem_reverse.2 (List.mem_flatMap.2 ⟨op, List.mem_reverse.1 hop, hv⟩))
  refine ⟨all, hall, fun op => (hiff op).trans ⟨fun h => ?_, fun h => ?_⟩⟩
  · induction h with
    | found h =>
      obtain ⟨hop, hid⟩ := List.mem_filter.1 (List.mem_reverse.1 h)
      exact .declaration hop hid
    | pending hv hsource =>
      obtain ⟨d, hd, hvd⟩ := hmem _ hv
      obtain ⟨hd, hid⟩ := List.mem_filter.1 hd
      obtain ⟨hop, hvop⟩ := hb.source_eq_some.1 hsource
      exact .operand (.declaration hd hid) hvd hop hvop
    | step _ hv hsource ih =>
      obtain ⟨hop, hvop⟩ := hb.source_eq_some.1 hsource
      exact .operand ih hv hop hvop
  · induction h with
    | declaration h hid => exact .found (List.mem_reverse.2 (List.mem_filter.2 ⟨h, hid⟩))
    | operand _ hv hd hvd ih => exact .step ih hv (hb.source_eq_some.2 ⟨hd, hvd⟩)

theorem isComputedWith_iff {wanted : List (Op N)} (hw : ∀ op, op ∈ wanted ↔ Needed b op) {a : Nat} :
    b.isComputedWith wanted a = true ↔ ReadOutside b a := by
  simp only [Body.isComputedWith, List.any_eq_true, Bool.or_eq_true, Bool.and_eq_true,
    decide_eq_true_eq, hw, ReadOutside]
  exact exists_congr fun u => and_congr_right fun _ => or_congr_left and_comm

theorem onlyOurs_iff {wanted : List (Op N)} (hw : ∀ op, op ∈ wanted ↔ Needed b op) {op : Op N} :
    b.onlyOurs wanted op = true ↔ ∀ v ∈ op.results, ¬ ReadOutside b v := by
  simp only [Body.onlyOurs, List.all_eq_true, Bool.and_eq_true, Bool.or_eq_true,
    decide_eq_true_eq, hw, ReadOutside]
  grind

/-- What `symbolOpsOf` says of a valid body: the ops that are needed, and those nothing shares. -/
theorem Valid.symbolOpsOf_eq (hb : Valid b) :
    (∃ e, (∃ op ∈ b.ops, op.declares = true) ∧ b.symbolOpsOf = .error e) ∨
    ((∃ a ∈ b.args, ReadOutside b a) ∧ b.symbolOpsOf = .ok none) ∨
    ∃ wanted erasable : List (Op N), (∀ op ∈ b.ops, op.declares = false) ∧
      (∀ a ∈ b.args, ¬ ReadOutside b a) ∧
      b.symbolOpsOf = .ok (some (b.ops.filter (· ∈ wanted), erasable)) ∧
      (∀ op, op ∈ wanted ↔ Needed b op) ∧ erasable.Sublist b.ops ∧
      ∀ op, op ∈ erasable ↔ Needed b op ∧ ¬ Shared b op := by
  obtain ⟨wanted, hwanted, hw⟩ := hb.wanted_eq
  unfold Body.symbolOpsOf
  rw [hwanted]
  by_cases hdeclares : b.ops.any (·.declares) = true
  · rw [if_pos hdeclares]
    exact Or.inl ⟨_, List.any_eq_true.1 hdeclares, rfl⟩
  rw [if_neg hdeclares]
  by_cases hargs : b.args.any (b.isComputedWith wanted) = true
  · simp only [if_pos hargs]
    obtain ⟨a, ha, hread⟩ := List.any_eq_true.1 hargs
    exact Or.inr (Or.inl ⟨⟨a, ha, (isComputedWith_iff hw).1 hread⟩, trivial⟩)
  simp only [if_neg hargs]
  have hordered : ∀ op, op ∈ b.ops.filter (· ∈ wanted) ↔ Needed b op := by
    intro op
    simp only [List.mem_filter, decide_eq_true_eq, hw]
    exact and_iff_right_of_imp Needed.mem
  refine Or.inr (Or.inr ⟨wanted,
    (b.ops.filter (· ∈ wanted)).filter (b.onlyOurs wanted), ?_, ?_, rfl, hw,
    List.filter_sublist.trans List.filter_sublist, ?_⟩)
  · simpa using hdeclares
  · intro a ha hread
    exact hargs (List.any_eq_true.2 ⟨a, ha, (isComputedWith_iff hw).2 hread⟩)
  · intro op
    rw [List.mem_filter, hordered, onlyOurs_iff hw]
    unfold Shared
    grind

end Sets

/-! ## Erasing -/

section Erase

omit [DecidableEq N]

theorem isReadBy_iff {op u : Op N} :
    op.isReadBy u = true ↔ ∃ v ∈ op.results, v ∈ u.operands ++ u.captured := by
  simp [Op.isReadBy]

theorem eraseOp_eq_some {block block' : List (Op N)} {op : Op N} :
    eraseOp block op = some block' ↔
      (∀ u ∈ block, op.isReadBy u = false) ∧ block' = block.filter (·.id ≠ op.id) := by
  unfold eraseOp
  split
  · rename_i h
    obtain ⟨u, hu, hread⟩ := List.any_eq_true.1 h
    simp only [reduceCtorEq, false_iff, not_and]
    exact fun hall => absurd (hall u hu) (by simp [hread])
  · rename_i h
    have hall : ∀ u ∈ block, op.isReadBy u = false := by simpa using h
    constructor
    · intro heq
      exact ⟨hall, (Option.some.inj heq).symm⟩
    · rintro ⟨-, rfl⟩
      rfl

theorem filter_filter_ids (block : List (Op N)) (op : Op N) (ops : List (Op N)) :
    (block.filter (·.id ≠ op.id)).filter (·.id ∉ ops.map (·.id)) =
      block.filter (·.id ∉ (op :: ops).map (·.id)) := by
  rw [List.filter_filter]
  apply List.filter_congr
  intro u _
  simp only [List.map_cons, List.mem_cons, not_or, Bool.decide_and, ne_eq, Bool.and_comm]

/-- Ops can be erased one after another when whatever reads one is erased before it. -/
theorem foldlM_eraseOp {ops block : List (Op N)}
    (h : ∀ before op after, ops = before ++ op :: after → ∀ u ∈ block, op.isReadBy u = true →
      u.id ∈ before.map (·.id)) :
    ops.foldlM eraseOp block = some (block.filter (·.id ∉ ops.map (·.id))) := by
  induction ops generalizing block with
  | nil => simp
  | cons op ops ih =>
    have hfirst : eraseOp block op = some (block.filter (·.id ≠ op.id)) := by
      refine eraseOp_eq_some.2 ⟨fun u hu => ?_, rfl⟩
      by_contra hread
      rw [Bool.not_eq_false] at hread
      exact absurd (h [] op ops rfl u hu hread) List.not_mem_nil
    rw [List.foldlM_cons, hfirst, Option.bind_eq_bind, Option.bind_some, ih, filter_filter_ids]
    rintro before d after rfl u hu hread
    obtain ⟨hu, hne⟩ := List.mem_filter.1 hu
    have hbefore := h (op :: before) d after rfl u hu hread
    rw [List.map_cons, List.mem_cons] at hbefore
    exact hbefore.resolve_left (by simpa using hne)

/-- What is left after erasing reads nothing that is erased. -/
theorem foldlM_eraseOp_eq_some {ops block block' : List (Op N)}
    (h : ops.foldlM eraseOp block = some block') :
    block' = block.filter (·.id ∉ ops.map (·.id)) ∧
      ∀ op ∈ ops, ∀ u ∈ block', op.isReadBy u = false := by
  induction ops generalizing block with
  | nil =>
    obtain rfl : block = block' := by simpa using h
    exact ⟨by simp, fun op hop => absurd hop List.not_mem_nil⟩
  | cons op ops ih =>
    rw [List.foldlM_cons, Option.bind_eq_bind, Option.bind_eq_some_iff] at h
    obtain ⟨block₁, hfirst, hrest⟩ := h
    obtain ⟨hunread, rfl⟩ := eraseOp_eq_some.1 hfirst
    obtain ⟨rfl, hlater⟩ := ih hrest
    rw [filter_filter_ids] at hlater ⊢
    refine ⟨rfl, List.forall_mem_cons.2 ⟨fun u hu => ?_, hlater⟩⟩
    exact hunread u (List.mem_of_mem_filter hu)

/-! What ops refer to plays no part. -/

@[simp] theorem renameSymbol_id (old new : String) (op : Op N) :
    (op.renameSymbol old new).id = op.id := rfl

@[simp] theorem renameSymbol_operands (old new : String) (op : Op N) :
    (op.renameSymbol old new).operands = op.operands := rfl

@[simp] theorem renameSymbol_captured (old new : String) (op : Op N) :
    (op.renameSymbol old new).captured = op.captured := rfl

@[simp] theorem renameSymbol_results (old new : String) (op : Op N) :
    (op.renameSymbol old new).results = op.results := rfl

@[simp] theorem renameSymbol_declares (old new : String) (op : Op N) :
    (op.renameSymbol old new).declares = op.declares := rfl

@[simp] theorem renameSymbol_isCreateId (old new : String) (op : Op N) :
    (op.renameSymbol old new).isCreateId = op.isCreateId := rfl

/-- The body with its references renamed. -/
def Body.renameSymbol (old new : String) (b : Body N) : Body N :=
  { b with ops := b.ops.map (Op.renameSymbol old new) }

variable (old new : String)

theorem eraseOp_rename (block : List (Op N)) (op : Op N) :
    eraseOp (block.map (Op.renameSymbol old new)) (op.renameSymbol old new) =
      (eraseOp block op).map (List.map (Op.renameSymbol old new)) := by
  have hany : (block.map (Op.renameSymbol old new)).any (op.renameSymbol old new).isReadBy =
      block.any op.isReadBy := by
    rw [List.any_map]
    rfl
  unfold eraseOp
  rw [hany]
  split
  · rfl
  · rw [Option.map_some, List.filter_map]
    rfl

theorem foldlM_eraseOp_rename (ops block : List (Op N)) :
    (ops.map (Op.renameSymbol old new)).foldlM eraseOp (block.map (Op.renameSymbol old new)) =
      (ops.foldlM eraseOp block).map (List.map (Op.renameSymbol old new)) := by
  induction ops generalizing block with
  | nil => rfl
  | cons op ops ih =>
    rw [List.map_cons, List.foldlM_cons, List.foldlM_cons, eraseOp_rename]
    cases eraseOp block op with
    | none => rfl
    | some block₁ => exact ih block₁

theorem eraseArguments_rename (b : Body N) :
    eraseArguments (b.renameSymbol old new) =
      (eraseArguments b).map (Body.renameSymbol old new) := by
  have hany : ∀ a, (b.renameSymbol old new).ops.any (fun u => a ∈ u.operands ++ u.captured) =
      b.ops.any fun u => a ∈ u.operands ++ u.captured := by
    intro a
    show (b.ops.map _).any _ = _
    rw [List.any_map]
    rfl
  unfold eraseArguments
  simp only [hany]
  show (if b.args.any _ then none else some _) = _
  split <;> rfl

theorem stripBody_rename (b : Body N) (erasable : List (Op N)) :
    stripBody (b.renameSymbol old new) (erasable.map (Op.renameSymbol old new)) =
      (stripBody b erasable).map (Body.renameSymbol old new) := by
  unfold stripBody
  rw [← List.map_reverse]
  show ((erasable.reverse.map _).foldlM eraseOp (b.ops.map _)).bind _ = _
  rw [foldlM_eraseOp_rename]
  cases erasable.reverse.foldlM eraseOp b.ops with
  | none => rfl
  | some ops => exact eraseArguments_rename old new { b with ops := ops }

/-- The op is left in the body. -/
def Kept (b : Body N) (op : Op N) : Prop := op ∈ b.ops ∧ (Needed b op → Shared b op)

variable {b : Body N} {erasable : List (Op N)}

/-- Two ops of a valid body with one identity are one. -/
theorem Valid.eq_of_id_eq (hb : Valid b) {op op' : Op N} (h : op ∈ b.ops) (h' : op' ∈ b.ops)
    (hid : op.id = op'.id) : op = op' := List.inj_on_of_nodup_map hb.ids_nodup h h' hid

theorem Valid.kept_iff (hb : Valid b) (herasable : ∀ op, op ∈ erasable ↔ Needed b op ∧ ¬ Shared b op)
    {op : Op N} : op ∈ b.ops.filter (·.id ∉ erasable.map (·.id)) ↔ Kept b op := by
  rw [List.mem_filter, decide_eq_true_eq]
  refine and_congr_right fun hop => ?_
  have hmem : op.id ∈ erasable.map (·.id) ↔ op ∈ erasable := by
    constructor
    · intro h
      obtain ⟨d, hd, hid⟩ := List.mem_map.1 h
      rwa [← hb.eq_of_id_eq ((herasable d).1 hd).1.mem hop hid]
    · exact List.mem_map_of_mem
  rw [hmem, herasable]
  tauto

/-- Where shared ops rest on shared ones, so does everything that is left. -/
theorem Valid.kept_reads (hb : Valid b) (hargs : ∀ a ∈ b.args, ¬ ReadOutside b a)
    (hrests : RestsOnShared b) {op : Op N} (hop : Kept b op) {v : Nat}
    (hv : v ∈ op.operands ++ op.captured) : ∃ d, Kept b d ∧ v ∈ d.results := by
  by_cases hneeded : Needed b op
  · rw [hb.noRegions op hneeded, List.append_nil] at hv
    obtain ⟨d, hd, hvd⟩ := hrests op (hop.2 hneeded) v hv
    exact ⟨d, ⟨hd.1.mem, fun _ => hd⟩, hvd⟩
  -- something that no declaration needs reads the value, so it is no argument
  have hout : ReadOutside b v := by
    refine ⟨op, hop.1, ?_⟩
    rcases List.mem_append.1 hv with hv | hv
    · exact Or.inl ⟨hneeded, hv⟩
    · exact Or.inr hv
  rcases hb.inScope.reads_bound hop.1 hv with harg | ⟨d, hd, hvd⟩
  · exact absurd hout (hargs v harg)
  · exact ⟨d, ⟨hd, fun hd => ⟨hd, v, hvd, hout⟩⟩, hvd⟩

/-- What is left of the body when the erasable ops and the arguments are gone. -/
def stripped (b : Body N) (erasable : List (Op N)) : Body N :=
  { b with args := [], ops := b.ops.filter (·.id ∉ erasable.map (·.id)) }

theorem Valid.stripBody_eq (hb : Valid b) (hargs : ∀ a ∈ b.args, ¬ ReadOutside b a)
    (hsub : erasable.Sublist b.ops) (herasable : ∀ op, op ∈ erasable ↔ Needed b op ∧ ¬ Shared b op)
    (hrests : RestsOnShared b) : stripBody b erasable = some (stripped b erasable) := by
  have hops : erasable.reverse.foldlM eraseOp b.ops =
      some (b.ops.filter (·.id ∉ erasable.map (·.id))) := by
    rw [foldlM_eraseOp, List.map_reverse]
    · simp only [List.mem_reverse]
    intro before op after heq u hu hread
    obtain ⟨v, hv, hvu⟩ := isReadBy_iff.1 hread
    obtain ⟨hneeded, hnot⟩ := (herasable op).1 (by
      rw [← List.mem_reverse, heq]
      simp)
    -- the reader is erased as well: otherwise it would be left, on an op that is not
    have hgone : u ∈ erasable := by
      by_contra hkeep
      have hkept : Kept b u := by
        refine ⟨hu, fun hn => ?_⟩
        by_contra hs
        exact hkeep ((herasable u).2 ⟨hn, hs⟩)
      obtain ⟨d, hd, hvd⟩ := hb.kept_reads hargs hrests hkept hvu
      obtain rfl := hb.inScope.def_unique hd.1 hneeded.mem hvd hv
      exact hnot (hd.2 hneeded)
    -- and it comes later in the block, so it is erased before
    have hpair := (hb.inScope.pairwise.sublist hsub)
    rw [← List.pairwise_reverse, heq, List.pairwise_append] at hpair
    obtain ⟨-, hafter, -⟩ := hpair
    have hmem : u ∈ before ++ op :: after := by
      rw [← heq, List.mem_reverse]
      exact hgone
    rcases List.mem_append.1 hmem with hmem | hmem
    · exact List.mem_map_of_mem hmem
    rcases List.mem_cons.1 hmem with rfl | hmem
    · exact absurd hv (hb.inScope.notMem_self hu hvu)
    · exact absurd hv ((List.pairwise_cons.1 hafter).1 u hmem v hvu)
  unfold stripBody
  rw [hops, Option.bind_some]
  unfold eraseArguments
  rw [if_neg]
  · rfl
  simp only [List.any_eq_true, decide_eq_true_eq, not_exists, not_and]
  intro a ha u hu hread
  have hkept := (hb.kept_iff herasable).1 hu
  obtain ⟨d, hd, hvd⟩ := hb.kept_reads hargs hrests hkept hread
  exact hb.inScope.def_notMem hd.1 hvd ha

/-- Erasing goes through only where shared ops rest on shared ones. -/
theorem Valid.restsOnShared_of_stripBody (hb : Valid b)
    (herasable : ∀ op, op ∈ erasable ↔ Needed b op ∧ ¬ Shared b op) {b' : Body N}
    (h : stripBody b erasable = some b') : RestsOnShared b := by
  obtain ⟨ops, hops, hargs⟩ := Option.bind_eq_some_iff.1 h
  obtain ⟨heq, hunread⟩ := foldlM_eraseOp_eq_some hops
  unfold eraseArguments at hargs
  split at hargs
  · cases hargs
  rename_i hnone
  simp only [List.any_eq_true, decide_eq_true_eq, not_exists, not_and] at hnone
  intro op hop v hv
  have hleft : op ∈ ops := by
    rw [heq, List.map_reverse]
    simp only [List.mem_reverse]
    exact (hb.kept_iff herasable).2 ⟨hop.1.mem, fun _ => hop⟩
  rcases hb.inScope.reads_bound hop.1.mem (List.mem_append_left _ hv) with harg | ⟨d, hd, hvd⟩
  · exact absurd (List.mem_append_left _ hv) (hnone v harg op hleft)
  · have hneeded : Needed b d := .operand hop.1 hv hd hvd
    refine ⟨d, ?_, hvd⟩
    by_contra hs
    have hread := hunread d (List.mem_reverse.2 ((herasable d).2 ⟨hneeded, hs⟩)) op hleft
    rw [isReadBy_iff.2 ⟨v, hvd, List.mem_append_left _ hv⟩] at hread
    cases hread

end Erase

/-! ## Running what is left -/

section Run

variable {F V W : Type} [Inhabited V] {S : Meaning N F V W}

omit [DecidableEq N]

/-- Ops whose references are renamed do what they did when the symbols mean what they did. -/
theorem run_rename (m : Module N) (den : String → F) (ops : List (Op N)) (env : Block.Env V) (w : W) :
    (machine S den).run (ops.map (Op.renameSymbol m.symName m.bodyName)) env w =
      (machine S (symbolsBefore m den)).run ops env w := by
  induction ops generalizing env w with
  | nil => rfl
  | cons op ops ih =>
    have hstep : (machine S den).step (op.renameSymbol m.symName m.bodyName) env w =
        (machine S (symbolsBefore m den)).step op env w := by
      have hsymbols : ((op.renameSymbol m.symName m.bodyName).symbols.map den) =
          op.symbols.map (symbolsBefore m den) := List.map_map
      show Block.Outcome.mk _ _ _ = Block.Outcome.mk _ _ _
      rw [hsymbols]
      rfl
    rw [List.map_cons, Block.Machine.run_cons, Block.Machine.run_cons, hstep, ih]
    rfl

variable {b : Body N} {erasable : List (Op N)} {den : String → F}

theorem Valid.run_stripped (hb : Valid b) (hargs : ∀ a ∈ b.args, ¬ ReadOutside b a)
    (herasable : ∀ op, op ∈ erasable ↔ Needed b op ∧ ¬ Shared b op) (hrests : RestsOnShared b)
    (hpure : ∀ op, Needed b op → S.IsPure op.name) (env env' : Block.Env V) (w : W) :
    (machine S den).run (stripped b erasable).ops env' w =
      (((machine S den).run b.ops env w).1.filter
          (·.id ∈ (stripped b erasable).ops.map (·.id)),
        ((machine S den).run b.ops env w).2) := by
  have hmem : ∀ op ∈ b.ops, (op.id ∈ (stripped b erasable).ops.map (·.id) ↔
      op.id ∉ erasable.map (·.id)) := by
    intro op hop
    constructor
    · intro h
      obtain ⟨d, hd, hid⟩ := List.mem_map.1 h
      have hleft := (List.mem_filter.1 hd).2
      rw [decide_eq_true_eq] at hleft
      rwa [← hid]
    · intro h
      exact List.mem_map_of_mem (List.mem_filter.2 ⟨hop, by simpa using h⟩)
  -- an op that goes is needed, so it is pure
  have hgone : ∀ op ∈ b.ops, decide (op.id ∉ erasable.map (·.id)) = false → ¬ Kept b op := by
    intro op hop hout hkept
    have hin := ((hb.kept_iff herasable).2 hkept)
    rw [List.mem_filter, hout] at hin
    exact absurd hin.2 (by simp)
  have hneeded : ∀ op ∈ b.ops, ¬ Kept b op → Needed b op := by
    intro op hop hout
    by_contra hn
    exact hout ⟨hop, fun h => absurd h hn⟩
  refine Block.Machine.run_filter ?_ ?_ hb.inScope (List.nil_subset _) ?_ ?_ w
  · intro op hop env w
    exact decide_eq_decide.2 (hmem op hop)
  · intro op hop hout env w
    obtain ⟨f, hf⟩ := hpure op (hneeded op hop (hgone op hop hout))
    show (S.run _ _ _ _ w).2 = w
    rw [hf]
  · intro op hop hin v hv
    obtain ⟨d, hd, hvd⟩ := hb.kept_reads hargs hrests
      ((hb.kept_iff herasable).1 (List.mem_filter.2 ⟨hop, hin⟩)) hv
    obtain ⟨hd, hin⟩ := List.mem_filter.1 ((hb.kept_iff herasable).2 hd)
    exact Or.inr ⟨d, hd, hin, hvd⟩
  · exact fun v hv => absurd hv List.not_mem_nil

/-! The caller runs the clones of what is needed. -/

omit [Inhabited V] in
theorem declarations_cons (e : Event N V) (events : List (Event N V)) :
    declarations (e :: events) = e.declaration?.toList ++ declarations events := by
  unfold declarations
  rw [List.filterMap_cons]
  cases e.declaration? <;> rfl

omit [Inhabited V] in
theorem declarations_append (events later : List (Event N V)) :
    declarations (events ++ later) = declarations events ++ declarations later :=
  List.filterMap_append

omit [Inhabited V] in
theorem declaration?_eq_none {op : Op N} (h : op.isCreateId = false) (env : Block.Env V) (w : W) :
    ((machine S den).step op env w).event.declaration? = none := by
  unfold Op.isCreateId at h
  show (match op.name with
    | .createId symbolId => some (symbolId, op.operands.map env)
    | _ => none) = none
  split
  · rename_i heq
    simp [heq] at h
  · rfl

omit [Inhabited V] in
theorem idxOf_range' {n k i : Nat} (h : i < k) : (List.range' n k).idxOf (n + i) = i := by
  have hlen : i < (List.range' n k).length := by rwa [List.length_range']
  have hget : (List.range' n k)[i] = n + i := by rw [List.getElem_range', Nat.one_mul]
  rw [← hget]
  exact List.Nodup.idxOf_getElem (List.nodup_range' ..) i hlen

/-- Clones bind their results to what the cloned op binds its own. -/
theorem bind_mapResults {env env' : Block.Env V} {K results : List Nat} {mapping : Mapping}
    {next : Nat} (ys : List V) (hmap : ∀ v ∈ K, mapping v < next)
    (henv : ∀ v ∈ K, env' (mapping v) = env v) {v : Nat} (hv : v ∈ results ++ K) :
    mapping.mapResults next results v < next + results.length ∧
      env'.bind (List.range' next results.length) ys (mapping.mapResults next results v) =
        env.bind results ys v := by
  by_cases hin : v ∈ results
  · have hlt := List.idxOf_lt_length_of_mem hin
    have hnew : mapping.mapResults next results v = next + results.idxOf v := if_pos hin
    rw [hnew, Block.Env.bind_of_mem hin, Block.Env.bind_of_mem, idxOf_range' hlt]
    · exact ⟨by omega, rfl⟩
    · rw [List.mem_range'_1]
      omega
  · have hold : mapping.mapResults next results v = mapping v := if_neg hin
    have hK := (List.mem_append.1 hv).resolve_left hin
    have hlt := hmap v hK
    rw [hold, Block.Env.bind_of_notMem hin, Block.Env.bind_of_notMem, henv v hK]
    · exact ⟨by omega, rfl⟩
    · rw [List.mem_range'_1]
      omega

/-- Clones of the ops that `keep` picks declare what the block does. -/
theorem declarations_cloneOps {den' : String → F} {keep : Op N → Bool} {Γ K : List Nat}
    {ops : List (Op N)} {mapping : Mapping} {next : Nat} {env env' : Block.Env V}
    (hscope : Block.Scoped Γ ops) (hK : K ⊆ Γ) (hreads : Block.ReadsKept keep K ops)
    (hpure : ∀ op ∈ ops, keep op = true → S.IsPure op.name ∧ op.captured = [])
    (hkeep : ∀ op ∈ ops, op.isCreateId = true → keep op = true)
    (hmap : ∀ v ∈ K, mapping v < next) (henv : ∀ v ∈ K, env' (mapping v) = env v) (w w' : W) :
    declarations ((machine S den).run (cloneOps mapping next (ops.filter keep)) env' w').1 =
      declarations ((machine S den').run ops env w).1 := by
  induction ops generalizing Γ K mapping next env env' w w' with
  | nil => rfl
  | cons op ops ih =>
    rw [List.forall_mem_cons] at hpure hkeep
    obtain ⟨-, hnew, -, hrest⟩ := id hscope
    rw [Block.Machine.run_cons op, declarations_cons]
    cases hop : keep op with
    | true =>
      obtain ⟨⟨f, hf⟩, hcaptured⟩ := hpure.1 hop
      have hvalues : (op.operands.map mapping).map env' = op.operands.map env := by
        rw [List.map_map]
        apply List.map_congr_left
        intro v hv
        exact henv v (hreads.head hscope hop v (List.mem_append_left _ hv))
      rw [List.filter_cons_of_pos hop, cloneOps, Block.Machine.run_cons, declarations_cons]
      have hK' : op.results ++ K ⊆ op.results ++ Γ := List.append_subset.2
        ⟨List.subset_append_left _ _, fun v hv => List.mem_append_right _ (hK hv)⟩
      congr 1
      · show Option.toList (Event.declaration?
            ⟨op.id, op.name, (op.operands.map mapping).map env', _, _⟩) =
          Option.toList (Event.declaration? ⟨op.id, op.name, op.operands.map env, _, _⟩)
        rw [hvalues]
        rfl
      · have hys : ∀ symbols captured w, captured = [] →
            (S.run op.name symbols (op.operands.map env) captured w).1 =
              f (op.operands.map env) [] := by
          rintro symbols _ w rfl
          rw [hf]
        refine ih hrest hK' hreads.tail_of_keep hpure.2 hkeep.2
          (fun v hv => (bind_mapResults [] hmap henv hv).1) (fun v hv => ?_) _ _
        have hbind := (bind_mapResults (f (op.operands.map env) []) hmap henv hv).2
        show Block.Env.bind env' _ (S.run op.name _ ((op.operands.map mapping).map env') _ _).1 _ =
          Block.Env.bind env _ (S.run op.name _ (op.operands.map env) _ _).1 _
        rw [hvalues, hys _ _ _ (by simp [hcaptured]), hys _ _ _ (by simp [hcaptured])]
        exact hbind
    | false =>
      have hno : op.isCreateId = false := by
        by_contra h
        rw [hkeep.1 (by simpa using h)] at hop
        cases hop
      rw [List.filter_cons_of_neg (by simp [hop]), declaration?_eq_none hno]
      refine ih hrest (fun v hv => List.mem_append_right _ (hK hv)) (hreads.tail_of_drop hop)
        hpure.2 hkeep.2 hmap (fun v hv => ?_) _ _
      rw [Block.Env.bind_of_notMem fun hmem => hnew v hmem (hK hv)]
      exact henv v hv

end Run

/-! ## The split -/

omit [DecidableEq N] in
theorem cloneOps_rename (old new : String) (mapping : Mapping) (next : Nat) (ops : List (Op N)) :
    cloneOps mapping next (ops.map (Op.renameSymbol old new)) =
      (cloneOps mapping next ops).map (Op.renameSymbol old new) := by
  induction ops generalizing mapping next with
  | nil => rfl
  | cons op ops ih =>
    rw [List.map_cons, cloneOps, cloneOps, List.map_cons, renameSymbol_results, ih]
    rfl

section Split

variable {m : Module N} {b : Body N} {wanted erasable : List (Op N)}

/-- The caller declares what the program did. -/
theorem Valid.declarations_callerBody (hb : Valid b) (hw : ∀ op, op ∈ wanted ↔ Needed b op)
    {F V W : Type} [Inhabited V] {S : Meaning N F V W} {den den' : String → F}
    {env env' : Block.Env V} {w w' : W} (hpure : ∀ op, Needed b op → S.IsPure op.name)
    (henv : (List.range b.args.length).map env' = b.args.map env) :
    declarations ((machine S den).run (m.callerBody b.args
        ((b.ops.filter (· ∈ wanted)).map (Op.renameSymbol m.symName m.bodyName))).ops env' w').1 =
      declarations ((machine S den').run b.ops env w).1 := by
  unfold Module.callerBody
  rw [cloneOps_rename]
  obtain ⟨env₂, happend⟩ := (machine S den).exists_run_append
    ((cloneOps (fun v => if v ∈ b.args then b.args.idxOf v else v) b.args.length
      (b.ops.filter (· ∈ wanted))).map (Op.renameSymbol m.symName m.bodyName))
    [⟨0, .call, [], [], [], false, [m.bodyName]⟩, ⟨0, .ret, [], [], [], false, []⟩] env' w'
  rw [happend, declarations_append, run_rename]
  have hargs : ∀ v ∈ b.args, env' (b.args.idxOf v) = env v := by
    intro v hv
    have hlt := List.idxOf_lt_length_of_mem hv
    have hget := congrArg (·[b.args.idxOf v]?) henv
    simpa [List.getElem?_map, List.getElem?_range hlt, hlt] using hget
  refine (congrArg₂ (· ++ ·) (declarations_cloneOps hb.inScope (List.Subset.refl _)
    ?_ ?_ ?_ ?_ ?_ _ _) ?_).trans (List.append_nil _)
  · intro op hop hneeded v hv
    have hn : Needed b op := (hw op).1 (of_decide_eq_true hneeded)
    rcases hb.inScope.reads_bound hop hv with harg | ⟨d, hd, hvd⟩
    · exact Or.inl harg
    · refine Or.inr ⟨d, hd, decide_eq_true ((hw d).2 ?_), hvd⟩
      have hoperand : v ∈ op.operands := by
        have hv' : v ∈ op.operands ++ op.captured := hv
        rwa [hb.noRegions op hn, List.append_nil] at hv'
      exact .operand hn hoperand hd hvd
  · intro op hop hneeded
    have hn : Needed b op := (hw op).1 (of_decide_eq_true hneeded)
    exact ⟨hpure op hn, hb.noRegions op hn⟩
  · exact fun op hop hid => decide_eq_true ((hw op).2 (.declaration hop hid))
  · intro v hv
    rw [if_pos hv]
    exact List.idxOf_lt_length_of_mem hv
  · intro v hv
    rw [if_pos hv]
    exact hargs v hv
  · rw [Block.Machine.run_cons, Block.Machine.run_cons, declarations_cons, declarations_cons,
      declaration?_eq_none rfl, declaration?_eq_none rfl]
    rfl

theorem Valid.isSplit (hb : Valid b) (hdeclares : ∀ op ∈ b.ops, op.declares = false)
    (hargs : ∀ a ∈ b.args, ¬ ReadOutside b a) (hw : ∀ op, op ∈ wanted ↔ Needed b op)
    (herasable : ∀ op, op ∈ erasable ↔ Needed b op ∧ ¬ Shared b op) (hrests : RestsOnShared b) :
    IsSplit m b ((stripped b erasable).renameSymbol m.symName m.bodyName)
      (m.callerBody b.args
        ((b.ops.filter (· ∈ wanted)).map (Op.renameSymbol m.symName m.bodyName))) := by
  have hmem : ∀ op ∈ ((stripped b erasable).renameSymbol m.symName m.bodyName).ops,
      ∃ d, Kept b d ∧ d.renameSymbol m.symName m.bodyName = op := by
    intro op hop
    obtain ⟨d, hd, rfl⟩ := List.mem_map.1 hop
    exact ⟨d, (hb.kept_iff herasable).1 hd, rfl⟩
  have hleft : ∀ d, Kept b d → d.renameSymbol m.symName m.bodyName ∈
      ((stripped b erasable).renameSymbol m.symName m.bodyName).ops := by
    intro d hd
    exact List.mem_map_of_mem ((hb.kept_iff herasable).2 hd)
  constructor
  · intro op hop v hv
    obtain ⟨u, hu, rfl⟩ := hmem op hop
    obtain ⟨d, hd, hvd⟩ := hb.kept_reads hargs hrests hu hv
    exact ⟨_, hleft d hd, hvd⟩
  · rfl
  · intro op hop
    obtain ⟨u, hu, rfl⟩ := hmem op hop
    refine ⟨?_, hdeclares u hu.1⟩
    -- a declaration that is left would be shared
    by_contra hid
    rw [renameSymbol_isCreateId, Bool.not_eq_false] at hid
    obtain ⟨-, v, hv, r, hr, hread⟩ := hu.2 (.declaration hu.1 hid)
    obtain ⟨hoperand, hcaptured⟩ := hb.readByDeclarations u hu.1 hid v hv r hr
    rcases hread with ⟨hn, hread⟩ | hread
    · exact hn (.declaration hr (hoperand hread))
    · exact hcaptured hread
  · intro op hop hn
    exact hleft op ⟨hop, fun h => absurd h hn⟩
  · intro F V W _ S den env env' w hpure
    have hids : (((stripped b erasable).renameSymbol m.symName m.bodyName).ops.map (·.id)) =
        (stripped b erasable).ops.map (·.id) := by
      show List.map _ (List.map _ _) = _
      rw [List.map_map]
      rfl
    rw [hids, ← hb.run_stripped hargs herasable hrests hpure env env' w]
    exact run_rename m den _ env' w
  · exact List.length_range
  · intro F V W _ S den den' env env' w w' hpure henv
    exact hb.declarations_callerBody hw hpure henv

section Wrap

variable {f : Func N} (hf : m.program? = some f) (hbody : f.body = some b)

include hf hbody

theorem wrap_of_error {e : String} (h : b.symbolOpsOf = .error e) : wrap m = .failure e m := by
  simp only [wrap, hf, hbody, h]

theorem wrap_of_none (h : b.symbolOpsOf = .ok none) : wrap m = .success m := by
  simp only [wrap, hf, hbody, h]

theorem wrap_of_taken {sets : List (Op N) × List (Op N)} (h : b.symbolOpsOf = .ok (some sets))
    (htaken : m.bodyNameTaken = true) : ∃ e, wrap m = .failure e m := by
  simp only [wrap, hf, hbody, h, htaken, if_true]
  exact ⟨_, rfl⟩

theorem wrap_of_strip {ordered : List (Op N)} (h : b.symbolOpsOf = .ok (some (ordered, erasable)))
    (hfree : m.bodyNameTaken = false) : wrap m =
      match (stripBody b erasable).map (Body.renameSymbol m.symName m.bodyName) with
      | none => .crash
      | some body =>
        .success
          { m with
            items := [.func m.declaration,
              .func (m.caller f.type b.args (ordered.map (Op.renameSymbol m.symName m.bodyName))),
              .module none (m.contents body)] } := by
  rw [← stripBody_rename]
  simp only [wrap, hf, hbody, h, hfree, Bool.false_eq_true, if_false]
  rfl

end Wrap

/-- Splitting a program is sound exactly when shared ops rest on shared ops alone, where it is one to
split at all. -/
theorem wrap_splitsSoundly_iff {f : Func N} (hf : m.program? = some f) (hbody : f.body = some b)
    (hb : Valid b) : SplitsSoundly m f b ↔ (Splits m b → RestsOnShared b) := by
  rcases hb.symbolOpsOf_eq with ⟨e, ⟨op, hop, hdeclares⟩, herr⟩ | ⟨⟨a, ha, hread⟩, hnone⟩ |
    ⟨wanted, erasable, hdeclares, hargs, hsets, hw, hsub, herasable⟩
  · refine iff_of_true ⟨?_, ?_⟩ fun h => ?_
    · exact fun _ => Or.inr ⟨e, wrap_of_error hf hbody herr⟩
    · intro sets hsets
      rw [herr] at hsets
      cases hsets
    · rw [h.inEntry op hop] at hdeclares
      cases hdeclares
  · refine iff_of_true ⟨?_, ?_⟩ fun h => absurd hread (h.argsOurs a ha)
    · exact fun _ => Or.inl (wrap_of_none hf hbody hnone)
    · intro sets hsets
      rw [hnone] at hsets
      cases hsets
  cases htaken : m.bodyNameTaken with
  | true =>
    refine iff_of_true ⟨?_, ?_⟩ fun h => ?_
    · exact fun _ => Or.inr (wrap_of_taken hf hbody hsets htaken)
    · intro sets _ hfree
      rw [htaken] at hfree
      cases hfree
    · have hfree := h.nameFree
      rw [htaken] at hfree
      cases hfree
  | false =>
    have hwrap := wrap_of_strip hf hbody hsets htaken
    constructor
    · -- a split that goes through has erased nothing that a shared op reads
      rintro h -
      obtain ⟨caller, b', c, hsuccess, -⟩ := h.splits _ hsets htaken
      cases hstrip : stripBody b erasable with
      | some left => exact hb.restsOnShared_of_stripBody herasable hstrip
      | none =>
        rw [hwrap, hstrip] at hsuccess
        cases hsuccess
    · intro h
      have hrests := h ⟨hdeclares, hargs, htaken⟩
      rw [hb.stripBody_eq hargs hsub herasable hrests] at hwrap
      refine ⟨?_, ?_⟩
      · rintro (⟨e, herr⟩ | hnone | htrue)
        · rw [hsets] at herr
          cases herr
        · rw [hsets] at hnone
          cases hnone
        · rw [htaken] at htrue
          cases htrue
      · rintro sets hsets' -
        exact ⟨_, _, _, hwrap, rfl, rfl, rfl, hb.isSplit hdeclares hargs hw herasable hrests⟩

end Split

/-! ## A program of each kind

A symbol stands for a sum of the argument and a constant, and a transfer of the body strides by the
constant, or by the sum. -/

section Programs

/-- `stride` is the value the transfer reads: the constant is 1, the sum is 2. -/
def strideBody (stride : Nat) : Body String :=
  { args := [0]
    innerArgs := []
    ops :=
      [⟨0, .other "arith.constant", [], [], [1], false, []⟩,
        ⟨1, .other "arith.addi", [0, 1], [], [2], false, []⟩,
        ⟨2, .createId (-1), [2], [], [], false, []⟩,
        ⟨3, .other "dataflow.program_unit", [], [stride], [], false, []⟩,
        ⟨4, .ret, [], [], [], false, []⟩] }

def strideFunc (stride : Nat) : Func String :=
  ⟨"prog", .pub, ⟨["index"], []⟩, some (strideBody stride)⟩

def strideProgram (stride : Nat) : Module String := ⟨"prog", [.func (strideFunc stride)]⟩

theorem strideProgram_program? (stride : Nat) :
    (strideProgram stride).program? = some (strideFunc stride) := by
  show List.find? (fun f : Func String => decide (f.symName = "prog")) [strideFunc stride] = _
  exact List.find?_cons_of_pos rfl

theorem strideBody_needed {stride : Nat} {op : Op String} (h : Needed (strideBody stride) op) :
    op.captured = [] := by
  have key : op ∈ (strideBody stride).ops ∧ op.id ≠ 3 := by
    refine ⟨h.mem, ?_⟩
    cases h with
    | declaration hop hid =>
      simp only [strideBody, List.mem_cons, List.not_mem_nil, or_false] at hop
      rcases hop with rfl | rfl | rfl | rfl | rfl <;> simp [Op.isCreateId] at hid ⊢
    | operand _ _ hop hv =>
      simp only [strideBody, List.mem_cons, List.not_mem_nil, or_false] at hop
      rcases hop with rfl | rfl | rfl | rfl | rfl <;> simp at hv ⊢
  obtain ⟨hop, hid⟩ := key
  simp only [strideBody, List.mem_cons, List.not_mem_nil, or_false] at hop
  rcases hop with rfl | rfl | rfl | rfl | rfl <;> simp at hid ⊢

theorem strideBody_valid {stride : Nat} (h : stride = 1 ∨ stride = 2) : Valid (strideBody stride) := by
  constructor
  · rcases h with rfl | rfl <;> decide
  · rcases h with rfl | rfl <;> decide
  · exact List.nodup_singleton 0
  · exact fun op hop => strideBody_needed hop
  · intro op hop hid v hv
    simp only [strideBody, List.mem_cons, List.not_mem_nil, or_false] at hop
    rcases hop with rfl | rfl | rfl | rfl | rfl <;> simp [Op.isCreateId] at hid hv

/-- The constant may stay beside the declarations. -/
theorem wrap_splitsSoundly_constant :
    SplitsSoundly (strideProgram 1) (strideFunc 1) (strideBody 1) := by
  refine (wrap_splitsSoundly_iff (strideProgram_program? 1) rfl (strideBody_valid (Or.inl rfl))).2
    fun _ => ?_
  -- only the constant is shared, and it reads nothing
  rintro op ⟨hneeded, v, hv, u, hu, hread⟩ x hx
  have hsum : v ≠ 2 := by
    rintro rfl
    rcases hread with ⟨hn, hread⟩ | hread <;>
      simp only [strideBody, List.mem_cons, List.not_mem_nil, or_false] at hu <;>
      rcases hu with rfl | rfl | rfl | rfl | rfl <;> simp at hread
    exact hn (.declaration (by decide) rfl)
  have hop := hneeded.mem
  simp only [strideBody, List.mem_cons, List.not_mem_nil, or_false] at hop
  rcases hop with rfl | rfl | rfl | rfl | rfl <;> simp at hv hx
  exact absurd hv hsum

/-- The sum may not: it reads the argument, and the constant that is erased. -/
theorem not_splitsSoundly_sum :
    (strideProgram 2).program? = some (strideFunc 2) ∧ Valid (strideBody 2) ∧
      wrap (strideProgram 2) = .crash ∧
      ¬ SplitsSoundly (strideProgram 2) (strideFunc 2) (strideBody 2) := by
  have hcrash : wrap (strideProgram 2) = .crash := rfl
  refine ⟨strideProgram_program? 2, strideBody_valid (Or.inr rfl), hcrash, fun h => ?_⟩
  obtain ⟨caller, b', c, hsuccess, -⟩ := h.splits
    ((strideBody 2).ops.take 3, [⟨0, .other "arith.constant", [], [], [1], false, []⟩,
      ⟨2, .createId (-1), [2], [], [], false, []⟩]) rfl rfl
  rw [hcrash] at hsuccess
  cases hsuccess

end Programs

end WrapProgramDFIR

end DataflowScheduler
