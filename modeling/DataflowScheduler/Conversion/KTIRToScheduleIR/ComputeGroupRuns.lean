import DataflowScheduler.Conversion.KTIRToScheduleIR.ComputeGroupExtraction

/-!
# Runs of blocks and extracted functions

What a list of operations does to a memory, and in which order. As every value is defined once, the
values at the end of a run say what every operation of it read and wrote.
-/

namespace DataflowScheduler

namespace ComputeGroupExtraction

/-- What the operations without effects compute, and what it is to read and to write a tile. -/
structure Machine (V M : Type) where
  kernel : Nat → List V → List V
  read : V → M → V
  write : V → V → M → M

/-- An operation that reads or writes data at a tile. -/
inductive Event (V : Type) where
  | read (op : Nat) (tile data : V)
  | write (op : Nat) (tile data : V)
  deriving DecidableEq

def Event.op {V : Type} : Event V → Nat
  | read n _ _ => n
  | write n _ _ => n

structure State (V M : Type) where
  env : Value → V
  memory : M
  trace : List (Event V)

/-- The operands from above an operation, in order. -/
def Op.reads (op : Op) : List Value := op.walk.filter Value.isFromAbove

section Runs

variable {V M : Type} [Inhabited V] (s : Scope) (m : Machine V M)

/-- Define the results of an operation. -/
def define (env : Value → V) (n : Nat) (outputs : List V) : Value → V
  | .argument k => env (.argument k)
  | .result op i => if op = n then outputs.getD i default else env (.result op i)
  | .inner k => env (.inner k)

omit [Inhabited V] in
def Op.outputs (env : Value → V) (memory : M) : Op → List V
  | load accessTile => [m.read (env accessTile) memory]
  | store _ _ => []
  | pure kernel isCompute isolated operands numResults regions =>
      m.kernel kernel ((pure kernel isCompute isolated operands numResults regions).reads.map env)

omit [Inhabited V] in
/-- What operation `n` reads or writes, and the memory after it. -/
def Op.access (n : Nat) (env : Value → V) (memory : M) : Op → List (Event V) × M
  | load accessTile => ([.read n (env accessTile) (m.read (env accessTile) memory)], memory)
  | store data accessTile =>
      ([.write n (env accessTile) (env data)], m.write (env accessTile) (env data) memory)
  | pure _ _ _ _ _ _ => ([], memory)

def runOp (σ : State V M) (n : Nat) : State V M :=
  match s.ops[n]? with
  | some op =>
      { env := define σ.env n (op.outputs m σ.env σ.memory)
        memory := (op.access m n σ.env σ.memory).2
        trace := σ.trace ++ (op.access m n σ.env σ.memory).1 }
  | none => σ

def run (ns : List Nat) (σ : State V M) : State V M := ns.foldl (runOp s m) σ

/-- A function knows its parameters only. -/
def runItem (σ : State V M) : Item → State V M
  | .op n => runOp s m σ n
  | .call callee =>
      let inside := run s m callee.body
        { σ with env := fun v => if v ∈ callee.params then σ.env v else default }
      { σ with memory := inside.memory, trace := inside.trace }

def runItems (items : List Item) (σ : State V M) : State V M := items.foldl (runItem s m) σ

@[simp] theorem run_nil (σ : State V M) : run s m [] σ = σ := rfl

@[simp] theorem run_cons (n : Nat) (ns : List Nat) (σ : State V M) :
    run s m (n :: ns) σ = run s m ns (runOp s m σ n) := rfl

theorem run_append (ns ns' : List Nat) (σ : State V M) :
    run s m (ns ++ ns') σ = run s m ns' (run s m ns σ) := List.foldl_append

theorem runItems_append (items items' : List Item) (σ : State V M) :
    runItems s m (items ++ items') σ = runItems s m items' (runItems s m items σ) :=
  List.foldl_append

theorem runItems_op (ns : List Nat) (σ : State V M) :
    runItems s m (ns.map .op) σ = run s m ns σ := by
  unfold runItems run
  rw [List.foldl_map]
  rfl

/-! ## What the values say -/

omit [Inhabited V] in
/-- What operations read and write where their values are known, and the memory after them. -/
def accesses (env : Value → V) : List Nat → M → List (Event V) × M
  | [], memory => ([], memory)
  | n :: ns, memory =>
      match s.ops[n]? with
      | some op =>
          ((op.access m n env memory).1 ++ (accesses env ns (op.access m n env memory).2).1,
            (accesses env ns (op.access m n env memory).2).2)
      | none => accesses env ns memory

omit [Inhabited V] in
/-- Every load has the value that its tile has when it is its turn. -/
def Loaded (env : Value → V) : List Nat → M → Prop
  | [], _ => True
  | n :: ns, memory =>
      match s.ops[n]? with
      | some op =>
          (op.isLoad → [env (.result n 0)] = op.outputs m env memory) ∧
            Loaded env ns (op.access m n env memory).2
      | none => Loaded env ns memory

/-- The results of an operation without effects are what it computes. -/
def Computed (env : Value → V) (n : Nat) : Prop :=
  ∀ op, s.ops[n]? = some op → op.isMemory = false → ∀ memory : M, ∀ i,
    env (.result n i) = (op.outputs m env memory).getD i default

end Runs

section Values

variable {V M : Type} [Inhabited V] {s : Scope} {m : Machine V M} {env env' : Value → V}
  {n : Nat} {op : Op}

theorem Op.mem_valuesReadFromAbove {v : Value} : v ∈ op.valuesReadFromAbove ↔ v ∈ op.reads := by
  unfold valuesReadFromAbove reads
  rw [List.mem_eraseDups]

theorem Op.operands_subset_walk (op : Op) : op.operands ⊆ op.walk := by
  cases op with
  | load accessTile => exact List.Subset.refl _
  | store data accessTile => exact List.Subset.refl _
  | pure kernel isCompute isolated operands numResults regions =>
      exact List.subset_append_left _ _

theorem Scope.mem_reads (h : s.ops[n]? = some op) {v : Value} (hv : v ∈ op.operands) :
    v ∈ op.reads :=
  List.mem_filter.mpr ⟨op.operands_subset_walk hv, s.direct op (List.mem_of_getElem? h) v hv⟩

theorem Scope.valuesReadFromAbove_eq (h : s.ops[n]? = some op) :
    s.valuesReadFromAbove n = op.valuesReadFromAbove := by
  unfold Scope.valuesReadFromAbove
  rw [h]

/-- What an operation reads is defined before it, as far as it is defined by an operation. -/
theorem Scope.lt_of_mem_reads (h : s.ops[n]? = some op) {v : Value} (hv : v ∈ op.reads) {k : Nat}
    (hk : v.getDefiningOp = some k) : k < n := by
  cases v with
  | argument number => cases hk
  | result op' i =>
      cases hk
      exact (s.ssa n op h k i (List.mem_filter.mp hv).1).1
  | inner number => cases hk

omit [Inhabited V] in
theorem Op.outputs_congr (h : s.ops[n]? = some op) (memory : M)
    (henv : ∀ v ∈ op.reads, env v = env' v) :
    op.outputs m env memory = op.outputs m env' memory := by
  cases op with
  | load accessTile =>
      show [m.read (env accessTile) memory] = [m.read (env' accessTile) memory]
      rw [henv accessTile (Scope.mem_reads h List.mem_cons_self)]
  | store data accessTile => rfl
  | pure kernel isCompute isolated operands numResults regions =>
      show m.kernel kernel (List.map env _) = m.kernel kernel (List.map env' _)
      rw [List.map_congr_left henv]

omit [Inhabited V] in
theorem Op.access_congr (h : s.ops[n]? = some op) (memory : M)
    (henv : ∀ v ∈ op.reads, env v = env' v) :
    op.access m n env memory = op.access m n env' memory := by
  cases op with
  | load accessTile =>
      show ([Event.read n (env accessTile) (m.read (env accessTile) memory)], memory) = _
      rw [henv accessTile (Scope.mem_reads h List.mem_cons_self)]
      rfl
  | store data accessTile =>
      show ([Event.write n (env accessTile) (env data)],
        m.write (env accessTile) (env data) memory) = _
      rw [henv accessTile (Scope.mem_reads h (List.mem_cons_of_mem _ List.mem_cons_self)),
        henv data (Scope.mem_reads h List.mem_cons_self)]
      rfl
  | pure kernel isCompute isolated operands numResults regions => rfl

omit [Inhabited V] in
theorem Op.access_of_not_isMemory (h : op.isMemory = false) (memory : M) :
    op.access m n env memory = ([], memory) := by
  cases op with
  | load accessTile => cases h
  | store data accessTile => cases h
  | pure kernel isCompute isolated operands numResults regions => rfl

omit [Inhabited V] in
theorem accesses_append (ns ns' : List Nat) (memory : M) :
    accesses s m env (ns ++ ns') memory =
      ((accesses s m env ns memory).1 ++ (accesses s m env ns' (accesses s m env ns memory).2).1,
        (accesses s m env ns' (accesses s m env ns memory).2).2) := by
  induction ns generalizing memory with
  | nil => rfl
  | cons n ns ih =>
      simp only [List.cons_append, accesses]
      rcases s.ops[n]? with _ | op
      · exact ih memory
      · simp only [ih, List.append_assoc]

omit [Inhabited V] in
theorem accesses_filter (ns : List Nat) (memory : M) :
    accesses s m env (ns.filter s.isMemory) memory = accesses s m env ns memory := by
  induction ns generalizing memory with
  | nil => rfl
  | cons n ns ih =>
      rw [List.filter_cons]
      rcases hop : s.ops[n]? with _ | op
      · have hn : s.isMemory n = false := by
          unfold Scope.isMemory
          rw [hop]
          rfl
        rw [hn]
        show accesses s m env (ns.filter s.isMemory) memory = _
        simp only [accesses, hop]
        exact ih memory
      · have hn : s.isMemory n = op.isMemory := by
          unfold Scope.isMemory
          rw [hop]
          rfl
        rcases hmemory : op.isMemory with _ | _
        · rw [hn, hmemory]
          simp only [accesses, hop, Op.access_of_not_isMemory hmemory, List.nil_append]
          exact ih memory
        · rw [hn, hmemory]
          simp only [if_true, accesses, hop, ih]

omit [Inhabited V] in
theorem loaded_append {ns ns' : List Nat} {memory : M} :
    Loaded s m env (ns ++ ns') memory ↔
      Loaded s m env ns memory ∧ Loaded s m env ns' (accesses s m env ns memory).2 := by
  induction ns generalizing memory with
  | nil => exact ⟨fun h => ⟨trivial, h⟩, And.right⟩
  | cons n ns ih =>
      simp only [List.cons_append, Loaded, accesses]
      rcases s.ops[n]? with _ | op
      · exact ih
      · simp only [ih, and_assoc]

omit [Inhabited V] in
theorem loaded_filter {ns : List Nat} {memory : M} :
    Loaded s m env (ns.filter s.isMemory) memory ↔ Loaded s m env ns memory := by
  induction ns generalizing memory with
  | nil => exact Iff.rfl
  | cons n ns ih =>
      rw [List.filter_cons]
      rcases hop : s.ops[n]? with _ | op
      · have hn : s.isMemory n = false := by
          unfold Scope.isMemory
          rw [hop]
          rfl
        rw [hn]
        simp only [Loaded, hop]
        exact ih
      · have hn : s.isMemory n = op.isMemory := by
          unfold Scope.isMemory
          rw [hop]
          rfl
        rcases hmemory : op.isMemory with _ | _
        · have hload : op.isLoad = false := (Bool.or_eq_false_iff.mp hmemory).1
          rw [hn, hmemory]
          simp only [Loaded, hop, Op.access_of_not_isMemory hmemory, hload, Bool.false_eq_true,
            if_false, false_implies, true_and]
          exact ih
        · rw [hn, hmemory]
          simp only [if_true, Loaded, hop, ih]

/-! ## Runs -/

theorem define_of_ne {n : Nat} {outputs : List V} {v : Value} (h : v.getDefiningOp ≠ some n) :
    define env n outputs v = env v := by
  cases v with
  | argument k => rfl
  | result op i => exact if_neg fun heq => h (congrArg some heq)
  | inner k => rfl

theorem define_result (n : Nat) (outputs : List V) (i : Nat) :
    define env n outputs (.result n i) = outputs.getD i default := if_pos rfl

theorem runOp_env_of_ne {σ : State V M} {v : Value} (h : v.getDefiningOp ≠ some n) :
    (runOp s m σ n).env v = σ.env v := by
  unfold runOp
  split
  · exact define_of_ne h
  · rfl

theorem run_env_of_not_mem {ns : List Nat} {σ : State V M} {v : Value}
    (h : ∀ n ∈ ns, v.getDefiningOp ≠ some n) : (run s m ns σ).env v = σ.env v := by
  induction ns generalizing σ with
  | nil => rfl
  | cons n ns ih =>
      rw [List.forall_mem_cons] at h
      rw [run_cons, ih h.2, runOp_env_of_ne h.1]

/-- **A run in order**: the values at its end say what every operation computed, loaded and
accessed. -/
theorem run_spec {ns : List Nat} (hns : ns.Pairwise (· < ·)) (σ : State V M) :
    (∀ n ∈ ns, Computed s m (run s m ns σ).env n) ∧
      Loaded s m (run s m ns σ).env ns σ.memory ∧
      (run s m ns σ).trace = σ.trace ++ (accesses s m (run s m ns σ).env ns σ.memory).1 ∧
      (run s m ns σ).memory = (accesses s m (run s m ns σ).env ns σ.memory).2 := by
  induction ns generalizing σ with
  | nil => exact ⟨nofun, trivial, (List.append_nil _).symm, rfl⟩
  | cons n ns ih =>
      rw [List.pairwise_cons] at hns
      obtain ⟨hcomputed, hloaded, htrace, hmemory⟩ := ih hns.2 (runOp s m σ n)
      rw [run_cons]
      rcases hop : s.ops[n]? with _ | op
      · have hrun : runOp s m σ n = σ := by
          unfold runOp
          rw [hop]
        rw [hrun] at hcomputed hloaded htrace hmemory ⊢
        refine ⟨List.forall_mem_cons.mpr ⟨fun op h => ?_, hcomputed⟩, ?_, ?_, ?_⟩
        · rw [hop] at h
          cases h
        · simp only [Loaded, hop]
          exact hloaded
        · simp only [accesses, hop]
          exact htrace
        · simp only [accesses, hop]
          exact hmemory
      · have hrun : runOp s m σ n = { env := define σ.env n (op.outputs m σ.env σ.memory)
                                      memory := (op.access m n σ.env σ.memory).2
                                      trace := σ.trace ++ (op.access m n σ.env σ.memory).1 } := by
          unfold runOp
          rw [hop]
        -- What the operation reads, and what it defines, is not defined again.
        have hreads : ∀ v ∈ op.reads, σ.env v = (run s m ns (runOp s m σ n)).env v := by
          intro v hv
          rw [run_env_of_not_mem, runOp_env_of_ne]
          · intro hk
            exact Nat.lt_irrefl n (s.lt_of_mem_reads hop hv hk)
          · intro k hk heq
            exact Nat.lt_asymm (hns.1 k hk) (s.lt_of_mem_reads hop hv heq)
        have hresults : ∀ i, (run s m ns (runOp s m σ n)).env (.result n i) =
            (op.outputs m (run s m ns (runOp s m σ n)).env σ.memory).getD i default := by
          intro i
          rw [run_env_of_not_mem, ← op.outputs_congr hop σ.memory hreads, hrun]
          · exact define_result n _ i
          · intro k hk heq
            cases heq
            exact Nat.lt_irrefl n (hns.1 n hk)
        have haccess := op.access_congr (m := m) hop σ.memory hreads
        have hstate : (runOp s m σ n).memory =
              (op.access m n (run s m ns (runOp s m σ n)).env σ.memory).2 ∧
            (runOp s m σ n).trace =
              σ.trace ++ (op.access m n (run s m ns (runOp s m σ n)).env σ.memory).1 := by
          rw [← haccess, hrun]
          exact ⟨rfl, rfl⟩
        rw [hstate.1] at hloaded htrace hmemory
        rw [hstate.2] at htrace
        refine ⟨List.forall_mem_cons.mpr ⟨fun op' h hpure memory i => ?_, hcomputed⟩, ?_, ?_, ?_⟩
        · rw [hop] at h
          cases h
          rw [hresults i]
          cases op with
          | load accessTile => cases hpure
          | store data accessTile => cases hpure
          | pure kernel isCompute isolated operands numResults regions => rfl
        · simp only [Loaded, hop]
          refine ⟨fun hload => ?_, hloaded⟩
          rw [hresults 0]
          cases op with
          | load accessTile => rfl
          | store data accessTile => cases hload
          | pure kernel isCompute isolated operands numResults regions => cases hload
        · simp only [accesses, hop]
          rw [htrace, List.append_assoc]
        · simp only [accesses, hop]
          exact hmemory

end Values

end ComputeGroupExtraction

end DataflowScheduler
