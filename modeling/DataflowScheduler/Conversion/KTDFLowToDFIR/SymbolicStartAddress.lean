import DataflowScheduler.Util.Interning

/-!
# Symbolic start addresses

An address that the run hands in is a symbol. `SymbolAllocator` numbers the symbols: first the
arguments of the kernels, then the addresses derived from them, in the order they are asked for.
-/

namespace SymbolicStartAddress

/-! ## The module -/

/-- A value of the IR: an argument of a function's entry block, a result of an operation, or an
argument of some inner block. -/
inductive Value where
  | argument (func position : Nat)
  | result (op number : Nat)
  | innerArgument (number : Nat)
  deriving DecidableEq

/-- One more than the operation a value comes from. -/
def Value.height : Value → Nat
  | .result k _ => k + 1
  | .argument _ _ | .innerArgument _ => 0

/-- What a `ConstantLike` operation holds: an integer or something else. -/
inductive Constant where
  | int (value : Int)
  | other
  deriving DecidableEq

/-- An operation. `attributes` stands for its attribute dictionary and its types. -/
structure Operation where
  name : String
  attributes : String
  operands : List Value
  num_results : Nat
  num_regions : Nat
  effect_free : Bool
  constant : Option Constant

inductive ArgumentType where
  | index
  | other
  deriving DecidableEq

structure FuncOp where
  name : String
  has_body : Bool
  arguments : List ArgumentType

structure CallOp where
  callee : String
  operands : List Value

/-- All functions, calls and other operations of a module, each in the order of a walk. An operation
comes after those it reads, and a constant reads none. -/
structure ModuleOp where
  funcs : List FuncOp
  calls : List CallOp
  ops : List Operation
  ssa : ∀ k : Fin ops.length, ∀ v ∈ (ops.get k).operands, v.height ≤ k.val
  constants : ∀ k : Fin ops.length, (ops.get k).constant ≠ none → (ops.get k).operands = []

def ModuleOp.op (m : ModuleOp) (k : Fin m.ops.length) : Operation := m.ops.get k

theorem ModuleOp.operands_of_constant {m : ModuleOp} {k : Fin m.ops.length}
    (h : (m.op k).constant ≠ none) : (m.op k).operands = [] :=
  m.constants k h

/-- The one call to `func`, if there is one call and only one. -/
def soleCallTo (m : ModuleOp) (func : FuncOp) : Option CallOp :=
  match m.calls.filter fun call => call.callee = func.name with
  | [call] => some call
  | _ => none

/-- `value` as an argument of its function's entry block. -/
def asFunctionArgument (m : ModuleOp) : Value → Option (Nat × Nat)
  | .argument f p =>
    match m.funcs[f]? with
    | some func => if func.has_body ∧ p < func.arguments.length then some (f, p) else none
    | none => none
  | .result _ _ | .innerArgument _ => none

/-- The operation that defines `value`. -/
def definingOp (m : ModuleOp) : Value → Option (Fin m.ops.length)
  | .result k n =>
    if h : k < m.ops.length then if n < (m.op ⟨k, h⟩).num_results then some ⟨k, h⟩ else none else none
  | .argument _ _ | .innerArgument _ => none

def getConstantIntValue (m : ModuleOp) (value : Value) : Option Int :=
  match (definingOp m value).bind fun k => (m.op k).constant with
  | some (.int c) => some c
  | some .other | none => none

/-! ## Numbering the inputs -/

def kMaxCallDepth : Nat := 8

def int64_min : Int := -9223372036854775808

/-- Walks up the calls that pass an argument along, until a function without a sole call. -/
def traceInput (m : ModuleOp) : Nat → Nat × Nat → Option Int
  | 0, _ => none
  | depth + 1, (f, p) =>
    match m.funcs[f]? with
    | none => none
    | some func =>
      match soleCallTo m func with
      | none => if func.arguments[p]? = some .index then some (-(p : Int) - 1) else none
      | some call =>
        match call.operands[p]?.bind (asFunctionArgument m) with
        | none => none
        | some outer => traceInput m depth outer

def inputSymbolIdFor (m : ModuleOp) (address : Value) : Option Int :=
  (asFunctionArgument m address).bind (traceInput m (kMaxCallDepth + 1))

/-- The functions with bodies that have no sole call, by their place in the module. -/
def kernels (m : ModuleOp) : List Nat :=
  (List.range m.funcs.length).filter fun f =>
    match m.funcs[f]? with
    | some func => func.has_body ∧ (soleCallTo m func).isNone
    | none => false

/-- The arguments of function `f`, with their types. -/
def argumentsOf (m : ModuleOp) (f : Nat) : List (Value × ArgumentType) :=
  match m.funcs[f]? with
  | some func => func.arguments.zipIdx.map fun (type, p) => (.argument f p, type)
  | none => []

/-- The ids declared so far, and the id of the next input. -/
structure Numbering where
  declared : List (Value × Int)
  next_input : Int

/-- One argument of a kernel. It is counted whatever its type, but only an index is declared. There
is no next id after the least number of 64 bits. -/
def numberArgument (s : Numbering) (arg : Value × ArgumentType) : Option Numbering :=
  let declared :=
    if arg.2 = .index then s.declared ++ [(arg.1, s.next_input)] else s.declared
  if s.next_input = int64_min then none else some ⟨declared, s.next_input - 1⟩

/-- The arguments of all kernels, in the order they are numbered in. -/
def kernelArguments (m : ModuleOp) : List (Value × ArgumentType) :=
  (kernels m).flatMap (argumentsOf m)

/-- What the constructor declares and counts. -/
def numberInputs (m : ModuleOp) : Option Numbering :=
  (kernelArguments m).foldlM numberArgument ⟨[], -1⟩

/-- What `declareInputsIn` declares in function `f`. -/
def declareInputsIn (m : ModuleOp) (f : Nat) : List (Value × Int) :=
  (argumentsOf m f).filterMap fun (arg, _) =>
    match inputSymbolIdFor m arg with
    | some input => some (arg, input)
    | none => none

/-! ## Keys -/

/-- One step of an expression: which operation it is, and which of its operands are constants. -/
structure ExpressionStep where
  op : String
  operands : List (Option Int)
  deriving DecidableEq

structure DerivedKey where
  root : Value
  offset : Int
  terms : List Int
  word_size : Int
  expression : List ExpressionStep
  deriving DecidableEq

def stepOf (m : ModuleOp) (k : Fin m.ops.length) : ExpressionStep where
  op := (m.op k).name
  operands := (m.op k).operands.map (getConstantIntValue m)

/-- The allocator: the numbered inputs, and the table of the derived ids. -/
structure SymbolAllocator where
  inputs : Numbering
  derived : Interning.Table DerivedKey

def SymbolAllocator.new (m : ModuleOp) : Option SymbolAllocator := do
  let inputs ← numberInputs m
  some ⟨inputs, [], inputs.next_input⟩

def SymbolAllocator.derivedIdFor (symbols : SymbolAllocator) (key : DerivedKey) :
    Option (Int × Bool × SymbolAllocator) := do
  let (id, fresh, derived) ← symbols.derived.ask int64_min key
  some (id, fresh, { symbols with derived := derived })

/-! ## The addresses that ids are asked for -/

variable {m : ModuleOp}

/-- A start address taken apart. The steps of its expression have one result each, and are neither
constants nor leaves. -/
structure SymbolicAddress (m : ModuleOp) where
  input : Int
  root : Value
  expression : List (Fin m.ops.length)
  per_unit_leaves : List Value
  input_eq : inputSymbolIdFor m root = some input
  steps : ∀ k ∈ expression,
    (m.op k).constant = none ∧ (m.op k).num_results = 1 ∧ .result k 0 ∉ per_unit_leaves

/-- An address over the input `root`: the value of the last of `steps`, where each leaf is worth its
term, plus the displacement, divided by the word size. -/
structure DerivedAddress (m : ModuleOp) where
  root : Value
  leaves : List Value
  terms : List Int
  steps : List (Fin m.ops.length)
  displacement : Int
  word_size : Int

def DerivedAddress.key (a : DerivedAddress m) : DerivedKey where
  root := a.root
  offset := a.displacement
  terms := a.terms
  word_size := a.word_size
  expression := a.steps.map (stepOf m)

/-- What the key of the first `through` steps of an address is made from. -/
def SymbolicAddress.first (taken : SymbolicAddress m) (terms : List Int)
    (displacement word_size : Int) (through : Nat) : DerivedAddress m where
  root := taken.root
  leaves := taken.per_unit_leaves
  terms := terms
  steps := taken.expression.take through
  displacement := displacement
  word_size := word_size

def keyFor (taken : SymbolicAddress m) (terms : List Int) (displacement word_size : Int)
    (through : Nat) : DerivedKey :=
  (taken.first terms displacement word_size through).key

/-- The ids of several addresses, asked for in order, each with its address. -/
def SymbolAllocator.derivedIdsFor (symbols : SymbolAllocator) (addresses : List (DerivedAddress m)) :
    Option (List (DerivedAddress m × Int) × SymbolAllocator) := do
  let (ids, derived) ← symbols.derived.askAll int64_min (addresses.map DerivedAddress.key)
  some (addresses.zip ids, { symbols with derived := derived })

/-! ## Start addresses -/

/-- What a value of the expression is in the rebuilt one. -/
inductive Rebuilt where
  | original (value : Value)
  | constant (value : Int)
  | clone (step : Nat)
  deriving DecidableEq

/-- The rebuilding of an expression so far: what its values have become, the value it comes to, and
the addresses an id was asked for. -/
structure Rebuilding (m : ModuleOp) where
  mapping : List (Value × Rebuilt)
  result : Rebuilt
  asked : List (DerivedAddress m)

/-- `tryFold`: what an operation over rebuilt operands folds to. -/
abbrev Folder := Operation → List Rebuilt → Option Rebuilt

def isAddOrSub (op : Operation) : Bool :=
  op.name = "arith.addi" ∨ op.name = "arith.subi"

/-- Rebuilds one step. A step that does not fold needs an id of its own, unless it is the last one
and what follows reads it as part of a single definition. -/
def rebuildStep (fold : Folder) (taken : SymbolicAddress m) (terms : List Int)
    (displacement word_size : Int) (built : Rebuilding m) (step : Fin m.ops.length × Nat) :
    Rebuilding m :=
  let (k, index) := step
  let op := m.op k
  let operands := op.operands.map fun v => (built.mapping.lookup v).getD (.original v)
  match fold op operands with
  | some folded =>
    { built with mapping := (.result k 0, folded) :: built.mapping, result := folded }
  | none =>
    let last := index + 1 = taken.expression.length
    let read_by_what_follows := displacement = 0 ∧ (word_size = 1 ∨ isAddOrSub op)
    { mapping := (.result k 0, .clone index) :: built.mapping
      result := .clone index
      asked :=
        if last ∧ read_by_what_follows then built.asked
        else built.asked ++ [taken.first terms 0 1 (index + 1)] }

def rebuild (fold : Folder) (taken : SymbolicAddress m) (terms : List Int)
    (displacement word_size : Int) : Rebuilding m :=
  taken.expression.zipIdx.foldl (rebuildStep fold taken terms displacement word_size)
    { mapping := taken.per_unit_leaves.zip (terms.map .constant)
      result := .original taken.root
      asked := [] }

/-- The address of a whole request. -/
def SymbolicAddress.whole (taken : SymbolicAddress m) (terms : List Int)
    (displacement word_size : Int) : DerivedAddress m :=
  taken.first terms displacement word_size taken.expression.length

/-- Whether the address has come back to the input itself. -/
def comesBack (fold : Folder) (taken : SymbolicAddress m) (terms : List Int)
    (displacement word_size : Int) : Bool :=
  word_size = 1 ∧ displacement = 0 ∧
    (rebuild fold taken terms displacement word_size).result = .original taken.root

/-- The id of an address, and the ids asked for on the way. -/
def declareDerived (fold : Folder) (taken : SymbolicAddress m) (terms : List Int)
    (displacement word_size : Int) (symbols : SymbolAllocator) :
    Option (Int × List (DerivedAddress m × Int) × SymbolAllocator) := do
  let built := rebuild fold taken terms displacement word_size
  let (granted, symbols) ← symbols.derivedIdsFor built.asked
  if comesBack fold taken terms displacement word_size then
    some (taken.input, granted, symbols)
  else
    let (id, _, symbols) ←
      symbols.derivedIdFor (keyFor taken terms displacement word_size taken.expression.length)
    some (id, granted ++ [(taken.whole terms displacement word_size, id)], symbols)

/-! ## Runtime scalars -/

/-- The root found, the steps with operands before results, and the operations seen. -/
structure Collected (m : ModuleOp) where
  root : Option Value
  steps : List (Fin m.ops.length)
  seen : List (Fin m.ops.length)

/-- The steps that compute `value`. There are no more operations one below the other than `fuel`,
see `collectSteps_succ`. -/
def collectSteps (m : ModuleOp) : Nat → Collected m → Value → Option (Collected m)
  | 0, _, _ => none
  | fuel + 1, found, value =>
    if (inputSymbolIdFor m value).isSome then
      match found.root with
      | some root => if root ≠ value then none else some found
      | none => some { found with root := some value }
    else
      match definingOp m value with
      | none => none
      | some k =>
        let op := m.op k
        if op.num_results ≠ 1 ∨ op.num_regions ≠ 0 ∨ ¬ op.effect_free then none
        else if k ∈ found.seen then some found
        else do
          let found ← op.operands.foldlM (collectSteps m fuel) { found with seen := k :: found.seen }
          some { found with steps := found.steps ++ [k] }

/-- The addresses an id is asked for: the key grows by every step that is no constant. -/
def scalarAddresses (m : ModuleOp) (root : Value) (steps : List (Fin m.ops.length)) :
    List (DerivedAddress m) :=
  let key := steps.filter fun k => (m.op k).constant = none
  (List.range key.length).map fun n =>
    { root := root, leaves := [], terms := [], steps := key.take (n + 1), displacement := 0,
      word_size := 1 }

/-- The id of a runtime scalar, and the ids asked for on the way. There is no id where the value is
not an expression over one input. -/
def declareScalarSymbol (m : ModuleOp) (value : Value) (symbols : SymbolAllocator) :
    Option (Option Int × List (DerivedAddress m × Int) × SymbolAllocator) :=
  match collectSteps m (m.ops.length + 1) ⟨none, [], []⟩ value with
  | some ⟨some root, steps, _⟩ => do
    let (granted, symbols) ← symbols.derivedIdsFor (scalarAddresses m root steps)
    match granted.getLast? with
    | some (_, id) => some (some id, granted, symbols)
    | none => some (inputSymbolIdFor m root, granted, symbols)
  | _ => some (none, [], symbols)

/-! ## Runs -/

inductive Request (m : ModuleOp) where
  | derived (taken : SymbolicAddress m) (terms : List Int) (displacement word_size : Int)
  | scalar (value : Value)

def serve (fold : Folder) (symbols : SymbolAllocator) :
    Request m → Option (Option Int × List (DerivedAddress m × Int) × SymbolAllocator)
  | .derived taken terms displacement word_size => do
    let (id, granted, symbols) ← declareDerived fold taken terms displacement word_size symbols
    some (some id, granted, symbols)
  | .scalar value => declareScalarSymbol m value symbols

/-- A request that was served: the id it got, and the ids asked for on the way. -/
structure Served (m : ModuleOp) where
  request : Request m
  id : Option Int
  granted : List (DerivedAddress m × Int)

/-- Serves the requests in order. There is no result where the ids are used up. -/
def serveAll (fold : Folder) : SymbolAllocator → List (Request m) →
    Option (List (Served m) × SymbolAllocator)
  | symbols, [] => some ([], symbols)
  | symbols, request :: requests => do
    let (id, granted, symbols) ← serve fold symbols request
    let (rest, symbols) ← serveAll fold symbols requests
    some (⟨request, id, granted⟩ :: rest, symbols)

end SymbolicStartAddress
