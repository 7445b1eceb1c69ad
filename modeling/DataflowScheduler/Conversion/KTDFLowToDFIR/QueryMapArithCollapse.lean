import DataflowScheduler.Util.Definitions
import DataflowScheduler.Util.Lists
import Mathlib.Tactic.Common

/-!
# Collapsing arithmetic over queries of mappings

`QueryMapArithCollapse.cpp` turns an `arith` op on queries of constant mappings into one query of a
mapping of the results.
-/

namespace DataflowScheduler

namespace QueryMapArithCollapse

open Definitions

/-- An `mlir::Value`. -/
abbrev ValueId := Nat

/-- The `arith` ops that are collapsed. -/
inductive BinOp where
  | addi
  | subi
  | muli
  | divui
  | divsi
  | remui
  deriving DecidableEq

/-- An op on values of index type. Everything else that defines a value, such as a key, is `other`. -/
inductive Op where
  | constant (result : ValueId) (value : BitVec 64)
  | binop (kind : BinOp) (result lhs rhs : ValueId)
  | defImmutableMapping (result : ValueId) (entries : List (ValueId × ValueId))
  | queryMap (result map key : ValueId)
  | other (result : ValueId) (name : Nat) (operands : List ValueId)
  deriving DecidableEq

/-- A value at run time. -/
inductive Val where
  | index (word : BitVec 64)
  | mapping (entries : List (BitVec 64 × BitVec 64))
  deriving DecidableEq

/-- What is relied on of the `uniform` dialect: a lookup of a key of a mapping by its value in the
IR, and the query of a mapping at run time. A mapping that gives a key two values is none, and its
query is not defined. -/
structure UniformDialect where
  getValue : List (ValueId × ValueId) → ValueId → Option ValueId
  queryMap : List (BitVec 64 × BitVec 64) → BitVec 64 → Option (BitVec 64)
  getValue_mem : ∀ entries key v, getValue entries key = some v → (key, v) ∈ entries
  queryMap_eq_some : ∀ entries key v, queryMap entries key = some v ↔
    (∃ e ∈ entries, e.1 = key) ∧ ∀ e ∈ entries, e.1 = key → e.2 = v

namespace Op

def result : Op → ValueId
  | constant r _ => r
  | binop _ r _ _ => r
  | defImmutableMapping r _ => r
  | queryMap r _ _ => r
  | other r _ _ => r

def operands : Op → List ValueId
  | constant _ _ => []
  | binop _ _ lhs rhs => [lhs, rhs]
  | defImmutableMapping _ entries => entries.flatMap fun e => [e.1, e.2]
  | queryMap _ map key => [map, key]
  | other _ _ operands => operands

def rename (f : ValueId → ValueId) : Op → Op
  | constant r c => constant r c
  | binop kind r lhs rhs => binop kind r (f lhs) (f rhs)
  | defImmutableMapping r entries => defImmutableMapping r (entries.map fun e => (f e.1, f e.2))
  | queryMap r map key => queryMap r (f map) (f key)
  | other r name operands => other r name (operands.map f)

theorem result_rename (f : ValueId → ValueId) (op : Op) : (op.rename f).result = op.result := by
  cases op <;> rfl

theorem operands_rename (f : ValueId → ValueId) (op : Op) :
    (op.rename f).operands = op.operands.map f := by
  cases op with
  | constant => rfl
  | binop => rfl
  | defImmutableMapping r entries =>
      show (entries.map fun e => (f e.1, f e.2)).flatMap _ = (entries.flatMap _).map f
      rw [List.flatMap_map, List.map_flatMap]
      rfl
  | queryMap => rfl
  | other => rfl

def isBinop : Op → Bool
  | binop .. => true
  | _ => false

end Op

/-! ## What ops compute -/

/-- The result of an `arith` op. Sums, differences and products wrap around; a division by zero and
a signed division that overflows are not defined. -/
def evalArith (kind : BinOp) (lhs rhs : BitVec 64) : Option (BitVec 64) :=
  match kind with
  | .addi => some (lhs + rhs)
  | .subi => some (lhs - rhs)
  | .muli => some (lhs * rhs)
  | .divui => if rhs = 0 then none else some (lhs / rhs)
  | .divsi =>
      if rhs = 0 ∨ (lhs = BitVec.intMin 64 ∧ rhs = -1) then none else some (lhs.sdiv rhs)
  | .remui => if rhs = 0 then none else some (lhs % rhs)

def Val.index? : Val → Option (BitVec 64)
  | .index w => some w
  | .mapping _ => none

def Val.mapping? : Val → Option (List (BitVec 64 × BitVec 64))
  | .index _ => none
  | .mapping entries => some entries

section

variable (uniform : UniformDialect) (interp : Nat → List Val → Option Val)

/-- The value of an op, if it is defined. -/
def Op.eval (env : ValueId → Option Val) : Op → Option Val
  | .constant _ c => some (.index c)
  | .binop kind _ lhs rhs => do
      let a ← (env lhs).bind Val.index?
      let b ← (env rhs).bind Val.index?
      (evalArith kind a b).map Val.index
  | .defImmutableMapping _ entries => do
      let entries ← entries.mapM fun e => do
        let key ← (env e.1).bind Val.index?
        let value ← (env e.2).bind Val.index?
        some (key, value)
      some (.mapping entries)
  | .queryMap _ map key => do
      let entries ← (env map).bind Val.mapping?
      let key ← (env key).bind Val.index?
      (uniform.queryMap entries key).map Val.index
  | .other _ name operands => (operands.mapM env).bind (interp name)

theorem Op.eval_rename (env env' : ValueId → Option Val) (f : ValueId → ValueId) (op : Op) (x : Val)
    (h : ∀ v ∈ op.operands, ∀ y, env v = some y → env' (f v) = some y)
    (hx : op.eval uniform interp env = some x) :
    (op.rename f).eval uniform interp env' = some x := by
  have hread : ∀ {γ : Type} (p : Val → Option γ) (v : ValueId), v ∈ op.operands → ∀ w : γ,
      (env v).bind p = some w → (env' (f v)).bind p = some w := by
    intro γ p v hv w hw
    obtain ⟨y, hy, hyw⟩ := Option.bind_eq_some_iff.mp hw
    rw [h v hv y hy]
    exact hyw
  cases op with
  | constant r c => exact hx
  | binop kind r lhs rhs =>
      obtain ⟨a, ha, hx⟩ := Option.bind_eq_some_iff.mp hx
      obtain ⟨b, hb, hx⟩ := Option.bind_eq_some_iff.mp hx
      rw [rename, eval, hread _ lhs (by simp [operands]) a ha, hread _ rhs (by simp [operands]) b hb]
      exact hx
  | defImmutableMapping r entries =>
      obtain ⟨words, hwords, hx⟩ := Option.bind_eq_some_iff.mp hx
      rw [rename, eval, List.mapM_rename (fun e he w hw => ?_) hwords]
      · exact hx
      · have hmem : e.1 ∈ (defImmutableMapping r entries).operands ∧
            e.2 ∈ (defImmutableMapping r entries).operands :=
          ⟨List.mem_flatMap.mpr ⟨e, he, by simp⟩, List.mem_flatMap.mpr ⟨e, he, by simp⟩⟩
        obtain ⟨key, hkey, hw⟩ := Option.bind_eq_some_iff.mp hw
        obtain ⟨value, hvalue, hw⟩ := Option.bind_eq_some_iff.mp hw
        show ((env' (f e.1)).bind Val.index?).bind _ = some w
        rw [hread _ e.1 hmem.1 key hkey]
        show ((env' (f e.2)).bind Val.index?).bind _ = some w
        rw [hread _ e.2 hmem.2 value hvalue]
        exact hw
  | queryMap r map key =>
      obtain ⟨entries, hentries, hx⟩ := Option.bind_eq_some_iff.mp hx
      obtain ⟨w, hw, hx⟩ := Option.bind_eq_some_iff.mp hx
      rw [rename, eval, hread _ map (by simp [operands]) entries hentries,
        hread _ key (by simp [operands]) w hw]
      exact hx
  | other r name operands =>
      obtain ⟨values, hvalues, hx⟩ := Option.bind_eq_some_iff.mp hx
      have hargs : (operands.map f).mapM env' = some values := List.mapM_rename h hvalues
      rw [rename, eval, hargs]
      exact hx

theorem Op.eval_congr (env env' : ValueId → Option Val) (op : Op)
    (h : ∀ v ∈ op.operands, env v = env' v) :
    op.eval uniform interp env = op.eval uniform interp env' := by
  have hid : op.rename (fun v => v) = op := by
    cases op with
    | constant => rfl
    | binop => rfl
    | defImmutableMapping r entries => simp [rename]
    | queryMap => rfl
    | other r name operands => simp [rename]
  ext x
  constructor
  · intro hx
    have := op.eval_rename uniform interp env env' (fun v => v) x
      (fun v hv y hy => h v hv ▸ hy) hx
    rwa [hid] at this
  · intro hx
    have := op.eval_rename uniform interp env' env (fun v => v) x
      (fun v hv y hy => (h v hv).symm ▸ hy) hx
    rwa [hid] at this

/-- Ops as definitions of values. -/
def language : Language Op Val where
  result := Op.result
  operands := Op.operands
  rename := Op.rename
  eval := Op.eval uniform interp
  result_rename := Op.result_rename
  operands_rename := Op.operands_rename
  eval_congr := Op.eval_congr uniform interp
  eval_rename := Op.eval_rename uniform interp

end

/-! ## The rewrites -/

/-- `evalBinop`. What is not defined is folded to zero. -/
def evalBinop (kind : BinOp) (lhs rhs : BitVec 64) : BitVec 64 :=
  match kind with
  | .addi => lhs + rhs
  | .subi => lhs - rhs
  | .muli => lhs * rhs
  | .divui => if rhs = 0 then 0 else lhs / rhs
  | .divsi => if rhs = 0 ∨ (lhs = BitVec.intMin 64 ∧ rhs = -1) then 0 else lhs.sdiv rhs
  | .remui => if rhs = 0 then 0 else lhs % rhs

/-- The op that defines a value. -/
def getDefiningOp (ops : List Op) (v : ValueId) : Option Op := ops.find? fun op => op.result = v

/-- `getConstantIntValue`. -/
def getConstantIntValue (ops : List Op) (v : ValueId) : Option (BitVec 64) :=
  match getDefiningOp ops v with
  | some (.constant _ c) => some c
  | _ => none

/-- The map and the key of a value that a `query_map` defines. -/
def getQueryMap (ops : List Op) (v : ValueId) : Option (ValueId × ValueId) :=
  match getDefiningOp ops v with
  | some (.queryMap _ map key) => some (map, key)
  | _ => none

/-- The entries of a value that a `def_immutable_mapping` defines. -/
def getMapping (ops : List Op) (v : ValueId) : Option (List (ValueId × ValueId)) :=
  match getDefiningOp ops v with
  | some (.defImmutableMapping _ entries) => some entries
  | _ => none

/-- `allConstantValues`. -/
def allConstantValues (ops : List Op) (entries : List (ValueId × ValueId)) :
    Option (List (BitVec 64)) :=
  entries.mapM fun e => getConstantIntValue ops e.2

/-- What a folded query is built from: the entries of its mapping, and its key. -/
structure Folded where
  entries : List (ValueId × BitVec 64)
  key : ValueId

/-- The query operand of an op, whether it is the left one, and the constant on the other side. -/
def queryAndConstant (ops : List Op) (lhs rhs : ValueId) :
    Option ((ValueId × ValueId) × Bool × BitVec 64) :=
  match getQueryMap ops lhs with
  -- a query on the left is taken even if there is one on the right too
  | some q => (getConstantIntValue ops rhs).map fun cst => (q, true, cst)
  | none => (getQueryMap ops rhs).bind fun q =>
      (getConstantIntValue ops lhs).map fun cst => (q, false, cst)

/-- The match of `FoldConstIntoQuery`. -/
def foldConstIntoQuery (ops : List Op) (kind : BinOp) (lhs rhs : ValueId) : Option Folded := do
  let (q, queryIsLhs, cst) ← queryAndConstant ops lhs rhs
  let map ← getMapping ops q.1
  let vals ← allConstantValues ops map
  let folded := vals.map fun v =>
    if queryIsLhs then evalBinop kind v cst else evalBinop kind cst v
  some ⟨(map.map Prod.fst).zip folded, q.2⟩

/-- The match of `MergeQueriesSameKey`. -/
def mergeQueriesSameKey (uniform : UniformDialect) (ops : List Op) (kind : BinOp)
    (lhs rhs : ValueId) : Option Folded := do
  let qa ← getQueryMap ops lhs
  let qb ← getQueryMap ops rhs
  if qa.2 ≠ qb.2 then none
  else do
    let mapA ← getMapping ops qa.1
    let mapB ← getMapping ops qb.1
    let valsA ← allConstantValues ops mapA
    let folded ← ((mapA.map Prod.fst).zip valsA).mapM fun a => do
      let bval ← uniform.getValue mapB a.1
      let bc ← getConstantIntValue ops bval
      some (evalBinop kind a.2 bc)
    some ⟨(mapA.map Prod.fst).zip folded, qa.2⟩

/-- The constants of `buildFoldedQuery`, with results numbered from `next` on. -/
def foldedConstants : ValueId → List (ValueId × BitVec 64) → List Op
  | _, [] => []
  | next, e :: entries => .constant next e.2 :: foldedConstants (next + 1) entries

/-- The entries of its mapping. -/
def foldedEntries : ValueId → List (ValueId × BitVec 64) → List (ValueId × ValueId)
  | _, [] => []
  | next, e :: entries => (e.1, next) :: foldedEntries (next + 1) entries

/-- `buildFoldedQuery`: the constants, the mapping, and the query of it. -/
def buildFoldedQuery (next : ValueId) (folded : Folded) : List Op :=
  foldedConstants next folded.entries ++
    [.defImmutableMapping (next + folded.entries.length) (foldedEntries next folded.entries),
      .queryMap (next + folded.entries.length + 1) (next + folded.entries.length) folded.key]

/-- The ops of a function, the next free value, and the value of the expression. -/
structure Program where
  ops : List Op
  next : ValueId
  root : ValueId

/-- One rewrite: either pattern may match an `arith` op anywhere. -/
inductive Rewrite (uniform : UniformDialect) : Program → Program → Prop
  | mk (before after : List Op) (kind : BinOp) (r lhs rhs next root : ValueId) (folded : Folded)
      (h : foldConstIntoQuery (before ++ .binop kind r lhs rhs :: after) kind lhs rhs = some folded ∨
        mergeQueriesSameKey uniform (before ++ .binop kind r lhs rhs :: after) kind lhs rhs =
          some folded) :
      Rewrite uniform ⟨before ++ .binop kind r lhs rhs :: after, next, root⟩
        ⟨before ++ (buildFoldedQuery next folded ++
            after.map (Op.rename (replace r (next + folded.entries.length + 1)))),
          next + folded.entries.length + 2,
          replace r (next + folded.entries.length + 1) root⟩

/-- So many rewrites, in any order. -/
inductive Rewrites (uniform : UniformDialect) : Nat → Program → Program → Prop
  | refl (program : Program) : Rewrites uniform 0 program program
  | step {n : Nat} {program program' program'' : Program} :
      Rewrite uniform program program' → Rewrites uniform n program' program'' →
        Rewrites uniform (n + 1) program program''

/-- The value of the expression on given values of what is defined outside. -/
def Program.eval (uniform : UniformDialect) (interp : Nat → List Val → Option Val)
    (env : ValueId → Option Val) (program : Program) : Option Val :=
  run (language uniform interp) env program.ops program.root

/-- The `arith` ops that are left. -/
def Program.binops (program : Program) : Nat := program.ops.countP Op.isBinop

end QueryMapArithCollapse

end DataflowScheduler
