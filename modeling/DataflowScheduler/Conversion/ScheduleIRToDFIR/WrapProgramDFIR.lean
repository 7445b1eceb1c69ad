import DataflowScheduler.Util.Block
import DataflowScheduler.Util.Worklist

/-!
# Splitting a program into caller and body

`wrap` gives a program two levels: a caller of the program's name that holds the symbol
declarations, and an inner module whose function holds the DataflowIR and takes no arguments. The
ops the declarations are built from are rebuilt in the caller; those that `erasable` picks are then
erased from the body, and after them the arguments.

An op of the entry block carries what the ops in its regions read. Erasing an op or an argument that
still has a reader is a crash.
-/

namespace DataflowScheduler

namespace WrapProgramDFIR

/-- What an op is. `N` are the names and attributes of all other ops. -/
inductive OpName (N : Type) where
  | createId (symbolId : Int)
  | call
  | ret
  | other (name : N)
  deriving DecidableEq

/-- An op of the entry block. `captured` are the values of the block that ops in its regions read,
`declares` says that a `symbol.create_id` is among these. `symbols` are the symbols it refers to. -/
structure Op (N : Type) where
  id : Nat
  name : OpName N
  operands : List Nat
  captured : List Nat
  results : List Nat
  declares : Bool
  symbols : List String
  deriving DecidableEq

/-- `innerArgs` are the arguments of the blocks in the regions of the ops. -/
structure Body (N : Type) where
  args : List Nat
  innerArgs : List Nat
  ops : List (Op N)
  deriving DecidableEq

inductive Visibility where
  | pub
  | priv
  deriving DecidableEq

structure FunctionType where
  inputs : List String
  results : List String
  deriving DecidableEq

structure Func (N : Type) where
  symName : String
  visibility : Visibility
  type : FunctionType
  body : Option (Body N)
  deriving DecidableEq

/-- What a module holds. -/
inductive Item (N : Type) where
  | func (f : Func N)
  | module (symName : Option String) (items : List (Item N))
  | other (symName : Option String) (symbols : List String)

structure Module (N : Type) where
  symName : String
  items : List (Item N)

variable {N : Type} [DecidableEq N]

instance : Block.Shape (Op N) where
  reads op := op.operands ++ op.captured
  defs op := op.results

namespace Op

def isCreateId (op : Op N) : Bool :=
  match op.name with
  | .createId _ => true
  | _ => false

/-- `u` or an op in its regions reads a result of `op`. -/
def isReadBy (op u : Op N) : Bool := op.results.any fun v => v ∈ u.operands ++ u.captured

def renameSymbol (old new : String) (op : Op N) : Op N :=
  { op with symbols := op.symbols.map fun s => if s = old then new else s }

end Op

/-! ## `symbolOpsOf` -/

def passName : String := "wrap-program-dfir"

namespace Body

variable (b : Body N)

/-- `Value::getDefiningOp`, for the ops of the entry block. -/
def definingOp? (v : Nat) : Option (Op N) := b.ops.find? (v ∈ ·.results)

/-- The op of the entry block behind a pending value. The arguments of the program have none, and
neither has a value of another block; an argument of an inner block is refused. -/
def source (v : Nat) : Except String (Option (Op N)) :=
  match b.definingOp? v with
  | some op => .ok (some op)
  | none =>
    if v ∈ b.args then .ok none
    else if v ∈ b.innerArgs then
      .error (passName ++ ": a symbol is said over a value that exists only inside the " ++
        "program's body, so it cannot be declared beside the program")
    else .ok none

/-- The ops a declaration depends on, walked backwards from each. -/
def wanted : Except String (List (Op N)) :=
  let declarations := b.ops.filter (·.isCreateId)
  Worklist.drain b.source Op.operands ((b.ops.map fun op => op.operands.length).sum)
    declarations.reverse (declarations.flatMap Op.operands).reverse

/-- Some op that is not wanted reads the argument. What is in a region is never wanted. -/
def isComputedWith (wanted : List (Op N)) (arg : Nat) : Bool :=
  b.ops.any fun user => (arg ∈ user.operands && user ∉ wanted) || arg ∈ user.captured

/-- All readers of the op are wanted. -/
def onlyOurs (wanted : List (Op N)) (op : Op N) : Bool :=
  op.results.all fun v =>
    b.ops.all fun user => (v ∉ user.operands || user ∈ wanted) && v ∉ user.captured

/-- The ops the declarations are built from, in the order of the block, and those of them that may
be erased. `none` when the program stays one level. -/
def symbolOpsOf : Except String (Option (List (Op N) × List (Op N))) :=
  if b.ops.any (·.declares) then
    .error (passName ++ ": a symbol is declared outside the program's entry block, so " ++
      "what it is could not be moved out of the DataflowIR")
  else
    match b.wanted with
    | .error e => .error e
    | .ok wanted =>
      if b.args.any (b.isComputedWith wanted) then .ok none
      else
        let ordered := b.ops.filter (· ∈ wanted)
        .ok (some (ordered, ordered.filter (b.onlyOurs wanted)))

end Body

/-! ## `wrap` -/

/-- `Operation::erase`, which must not be done to an op that is still read. -/
def eraseOp (block : List (Op N)) (op : Op N) : Option (List (Op N)) :=
  if block.any op.isReadBy then none else some (block.filter (·.id ≠ op.id))

/-- `Block::eraseArguments` of all arguments. -/
def eraseArguments (b : Body N) : Option (Body N) :=
  if b.args.any fun a => b.ops.any fun u => a ∈ u.operands ++ u.captured then none
  else some { b with args := [] }

/-- `IRMapping`, with `lookupOrDefault`. -/
abbrev Mapping := Nat → Nat

def Mapping.mapResults (mapping : Mapping) (next : Nat) (vs : List Nat) : Mapping :=
  fun v => if v ∈ vs then next + vs.idxOf v else mapping v

/-- `rewriter.clone` of each op in turn. The values from `next` on are new. -/
def cloneOps : Mapping → Nat → List (Op N) → List (Op N)
  | _, _, [] => []
  | mapping, next, op :: ops =>
    { op with
      operands := op.operands.map mapping
      captured := op.captured.map mapping
      results := List.range' next op.results.length } ::
      cloneOps (mapping.mapResults next op.results) (next + op.results.length) ops

def kBodySuffix : String := "_body"

def Func.renameSymbol (old new : String) (f : Func N) : Func N :=
  { f with
    symName := if f.symName = old then new else f.symName
    body := f.body.map fun b => { b with ops := b.ops.map (Op.renameSymbol old new) } }

/-- `SymbolTable::rename`. A module has a symbol table of its own, which the uses in it go to. -/
def Item.renameSymbol (old new : String) : Item N → Item N
  | .func f => .func (f.renameSymbol old new)
  | .module symName items => .module symName items
  | .other symName symbols => .other symName (symbols.map fun s => if s = old then new else s)

def Item.symName? : Item N → Option String
  | .func f => some f.symName
  | .module symName _ => symName
  | .other symName _ => symName

namespace Module

variable (m : Module N)

/-- `module.getOps<func::FuncOp>()`. -/
def funcs : List (Func N) :=
  m.items.filterMap fun
    | .func f => some f
    | _ => none

/-- The function of the module's own name. The last one counts. -/
def program? : Option (Func N) := m.funcs.reverse.find? (·.symName = m.symName)

def bodyName : String := m.symName ++ kBodySuffix

/-- `SymbolTable::lookup` finds the name of the body. -/
def bodyNameTaken : Bool := m.items.any (·.symName? = some m.bodyName)

/-- What the module holds, moved into the inner module: every use of the program's name is now one of
the body's, and `body` is what the program is left with. -/
def contents (body : Body N) : List (Item N) :=
  m.items.map fun item =>
    match item.renameSymbol m.symName m.bodyName with
    | .func f =>
      if f.symName = m.bodyName then
        .func { f with visibility := .pub, type := ⟨[], []⟩, body := some body }
      else .func f
    | item => item

def declaration : Func N := ⟨m.bodyName, .priv, ⟨[], []⟩, none⟩

/-- What the caller does: the declarations over its own arguments, then the call. -/
def callerBody (args : List Nat) (ordered : List (Op N)) : Body N :=
  { args := List.range args.length
    innerArgs := []
    ops := cloneOps (fun v => if v ∈ args then args.idxOf v else v) args.length ordered ++
      [⟨0, .call, [], [], [], false, [m.bodyName]⟩, ⟨0, .ret, [], [], [], false, []⟩] }

/-- The function that is called by the program's name. -/
def caller (type : FunctionType) (args : List Nat) (ordered : List (Op N)) : Func N :=
  ⟨m.symName, .pub, type, some (m.callerBody args ordered)⟩

end Module

inductive Outcome (N : Type) where
  | success (m : Module N)
  | failure (message : String) (m : Module N)
  | crash

/-- Erases the ops in reverse, so that an operand goes after the last op reading it, and then the
arguments. -/
def stripBody (b : Body N) (erasable : List (Op N)) : Option (Body N) :=
  (erasable.reverse.foldlM eraseOp b.ops).bind fun ops => eraseArguments { b with ops := ops }

def wrap (m : Module N) : Outcome N :=
  match m.program? with
  | none =>
    .failure (passName ++ ": program '" ++ m.symName ++
      "' holds no function of its own name to compile from") m
  | some program =>
    match program.body with
    | none => .crash
    | some b =>
      match b.symbolOpsOf with
      | .error e => .failure e m
      | .ok none => .success m
      | .ok (some (ordered, erasable)) =>
        if m.bodyNameTaken then
          .failure (passName ++ ": '" ++ m.symName ++ "' already holds a '" ++ m.bodyName ++
            "', which is the name the DataflowIR it is compiled from has to take") m
        else
          -- the ops keep their identity under the new name, so the sets still name them
          let renamed := { b with ops := b.ops.map (Op.renameSymbol m.symName m.bodyName) }
          let ordered := ordered.map (Op.renameSymbol m.symName m.bodyName)
          let erasable := erasable.map (Op.renameSymbol m.symName m.bodyName)
          match stripBody renamed erasable with
          | none => .crash
          | some body =>
            .success
              { m with
                items := [.func m.declaration, .func (m.caller program.type b.args ordered),
                  .module none (m.contents body)] }

end WrapProgramDFIR

end DataflowScheduler
