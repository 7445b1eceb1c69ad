import DataflowScheduler.Util.DepthFirst

/-!
# Extracting compute groups

The `compute-group-extraction` pass. The loads and stores of a block are grouped by classes of access
tiles, and what lies between the first load and the last store of a group is moved to a function of
its own, with a clone of everything it depends on.

Operations are known by their numbers. A clone keeps the number of its original and a parameter the
name of the argument it stands for: the scope of an extracted function is its own.
-/

namespace DataflowScheduler

namespace ComputeGroupExtraction

/-! ## Operations -/

/-- A value: an argument of the block or of one around it, a result of an operation, or what only the
regions of an operation know. -/
inductive Value where
  | argument (number : Nat)
  | result (op number : Nat)
  | inner (number : Nat)
  deriving Repr, DecidableEq

/-- The operation that defines a value. -/
def Value.getDefiningOp : Value → Option Nat
  | argument _ => none
  | result op _ => some op
  | inner _ => none

/-- Inside an operation, a value from outside of it. -/
def Value.isFromAbove : Value → Bool
  | argument _ => true
  | result _ _ => true
  | inner _ => false

/-- An operation in a region. `isCompute` says that its dialect is `linalg`, `math` or `arith`. -/
inductive Nested where
  | mk (isCompute isIsolatedFromAbove : Bool) (operands : List Value) (children : List Nested)

mutual

/-- The operands an operation and those in its regions have, in preorder. Nothing is looked for inside
an operation isolated from above. -/
def Nested.walk : Nested → List Value
  | .mk _ isolated operands children => operands ++ if isolated then [] else walkAll children

def walkAll : List Nested → List Value
  | [] => []
  | op :: ops => op.walk ++ walkAll ops

end

mutual

/-- Whether a value is an operand of a compute operation in a region. -/
def Nested.isComputeUser (v : Value) : Nested → Bool
  | .mk isCompute _ operands children =>
      (isCompute && operands.contains v) || anyComputeUser v children

def anyComputeUser (v : Value) : List Nested → Bool
  | [] => false
  | op :: ops => op.isComputeUser v || anyComputeUser v ops

end

/-- An operation: a load or a store of an access tile, or one without effects, which computes some
`kernel`. -/
inductive Op where
  | load (accessTile : Value)
  | store (data accessTile : Value)
  | pure (kernel : Nat) (isCompute isIsolatedFromAbove : Bool) (operands : List Value)
      (numResults : Nat) (regions : List (List Nested))

namespace Op

def operands : Op → List Value
  | load accessTile => [accessTile]
  | store data accessTile => [data, accessTile]
  | pure _ _ _ operands _ _ => operands

def numResults : Op → Nat
  | load _ => 1
  | store _ _ => 0
  | pure _ _ _ _ n _ => n

def numRegions : Op → Nat
  | load _ => 0
  | store _ _ => 0
  | pure _ _ _ _ _ regions => regions.length

def isLoad : Op → Bool
  | load _ => true
  | store _ _ => false
  | pure _ _ _ _ _ _ => false

def isStore : Op → Bool
  | load _ => false
  | store _ _ => true
  | pure _ _ _ _ _ _ => false

def isMemory (op : Op) : Bool := op.isLoad || op.isStore

def isCompute : Op → Bool
  | load _ => false
  | store _ _ => false
  | pure _ isCompute _ _ _ _ => isCompute

/-- All operands of the operation and in its regions. -/
def walk : Op → List Value
  | load accessTile => [accessTile]
  | store data accessTile => [data, accessTile]
  | pure _ _ isolated operands _ regions =>
      operands ++ if isolated then [] else walkAll regions.flatten

/-- The values an operation reads and does not define, in the order they are found in. -/
def valuesReadFromAbove (op : Op) : List Value := (op.walk.filter Value.isFromAbove).eraseDups

/-- Whether a value is an operand of the operation, if it is one of compute, or of one in it. -/
def isComputeUser (v : Value) : Op → Bool
  | load _ => false
  | store _ _ => false
  | pure _ isCompute _ operands _ regions =>
      (isCompute && operands.contains v) || anyComputeUser v regions.flatten

end Op

/-- What a block sees: the operations above it, in the blocks around it, and its own from `start` on.
Each comes after those it reads, and its own operands are from above. -/
structure Scope where
  ops : List Op
  start : Nat
  direct : ∀ op ∈ ops, ∀ v ∈ op.operands, v.isFromAbove = true
  ssa : ∀ n op, ops[n]? = some op → ∀ k i, Value.result k i ∈ op.walk →
    k < n ∧ ∃ source, ops[k]? = some source ∧ i < source.numResults

namespace Scope

variable (s : Scope)

/-- The numbers of the block's operations. -/
def block : List Nat := (List.range s.ops.length).drop s.start

def valuesReadFromAbove (n : Nat) : List Value :=
  match s.ops[n]? with
  | some op => op.valuesReadFromAbove
  | none => []

def isLoad (n : Nat) : Bool := (s.ops[n]?).any Op.isLoad

def isStore (n : Nat) : Bool := (s.ops[n]?).any Op.isStore

def isMemory (n : Nat) : Bool := (s.ops[n]?).any Op.isMemory

def hasRegions (n : Nat) : Bool := (s.ops[n]?).any fun op => op.numRegions > 0

end Scope

/-! ## Classes of access tiles -/

/-- `llvm::EquivalenceClasses`: disjoint lists of members, each behind its leader. -/
abbrev EquivalenceClasses := List (List Value)

namespace EquivalenceClasses

def findClass (classes : EquivalenceClasses) (v : Value) : Option (List Value) :=
  classes.find? fun members => members.contains v

def insert (classes : EquivalenceClasses) (v : Value) : EquivalenceClasses :=
  if (classes.findClass v).isSome then classes else classes ++ [[v]]

/-- The leader of a member's class. -/
def findLeader (classes : EquivalenceClasses) (v : Value) : Option Value :=
  (classes.findClass v).bind List.head?

/-- The members of the second class join the first. -/
def unionSets (classes : EquivalenceClasses) (v w : Value) : EquivalenceClasses :=
  let classes := (classes.insert v).insert w
  match classes.findClass v, classes.findClass w with
  | some first, some second =>
      if first = second then classes
      else
        (classes.filter (· ≠ second)).map fun members =>
          if members = first then first ++ second else members
  | _, _ => classes

end EquivalenceClasses

/-- The classes after a walk over the ancestors in the worklist, which is listed from its back. All
loads have to be in the block. -/
def walkAncestors (s : Scope) (storeAccessTile : Value) :
    Nat → List Nat → List Nat → EquivalenceClasses → Option EquivalenceClasses
  | 0, _, _, classes => some classes
  | _ + 1, [], _, classes => some classes
  | fuel + 1, currentOp :: worklist, visited, classes =>
      if currentOp ∈ visited then walkAncestors s storeAccessTile fuel worklist visited classes
      else
        match s.ops[currentOp]? with
        | some (.load loadAccessTile) =>
            if s.start ≤ currentOp then
              walkAncestors s storeAccessTile fuel worklist (currentOp :: visited)
                (classes.unionSets storeAccessTile loadAccessTile)
            else none
        | some op =>
            walkAncestors s storeAccessTile fuel
              ((op.operands.filterMap Value.getDefiningOp).reverse ++ worklist)
              (currentOp :: visited) classes
        | none => walkAncestors s storeAccessTile fuel worklist (currentOp :: visited) classes

/-- Every operation puts its operands on the worklist once. -/
def unionAccessTilesFromAncestors (s : Scope) (storeOp : Nat) (storeAccessTile : Value)
    (classes : EquivalenceClasses) : Option EquivalenceClasses :=
  walkAncestors s storeAccessTile ((s.ops.flatMap Op.operands).length + 2) [storeOp] [] classes

def results (s : Scope) (n : Nat) : List Value :=
  match s.ops[n]? with
  | some op => (List.range op.numResults).map (.result n)
  | none => []

def isStoreUser (v : Value) : Op → Bool
  | .store data accessTile => v = data ∨ v = accessTile
  | .load _ => false
  | .pure _ _ _ _ _ _ => false

/-- A compute operation is not used both by a store and by another one of compute. -/
def verifyComputeOpUses (s : Scope) (n : Nat) : Bool :=
  !((results s n).any fun v => s.ops.any (isStoreUser v)) ||
    !((results s n).any fun v => s.ops.any (Op.isComputeUser v))

/-- The classes with those of one more operation of the block, if it is used as expected. -/
def addToEqClasses (s : Scope) (classes : EquivalenceClasses) (n : Nat) :
    Option EquivalenceClasses :=
  match s.ops[n]? with
  | some (.store _ accessTile) =>
      unionAccessTilesFromAncestors s n accessTile (classes.insert accessTile)
  | some (.pure _ true _ _ _ _) => if verifyComputeOpUses s n then some classes else none
  | _ => some classes

def buildAccessTileEqClasses (s : Scope) : Option EquivalenceClasses :=
  s.block.foldlM (addToEqClasses s) []

/-! ## Collecting groups -/

structure ComputeGroup where
  firstLoad : Nat
  lastStore : Nat
  deriving Repr, DecidableEq

/-- Whether an operation lies in the range of a group. -/
def ComputeGroup.contains (group : ComputeGroup) (n : Nat) : Bool :=
  group.firstLoad ≤ n && n ≤ group.lastStore

/-- How far a block has been looked through. -/
structure Tracking where
  visitedClassLeaders : List Value
  currentClassLeader : Option Value
  lastMemOpWasLoad : Bool
  firstLoadOp : Option Nat
  lastStoreOp : Option Nat
  groupsToExtract : List ComputeGroup

namespace Tracking

def start : Tracking := ⟨[], none, false, none, none, []⟩

/-- The groups with the current one, if it has a load and a store. -/
def savedGroups (t : Tracking) : List ComputeGroup :=
  match t.firstLoadOp, t.lastStoreOp with
  | some first, some last => t.groupsToExtract ++ [⟨first, last⟩]
  | _, _ => t.groupsToExtract

/-- An operation with regions ends a group that is complete. -/
def controlFlow (t : Tracking) : Tracking :=
  match t.currentClassLeader, t.firstLoadOp, t.lastStoreOp with
  | some leader, some _, some _ =>
      ⟨leader :: t.visitedClassLeaders, none, false, none, none, t.savedGroups⟩
  | _, _, _ => t

def load (t : Tracking) (n : Nat) (loadClassLeader : Value) : Option Tracking :=
  if loadClassLeader ∈ t.visitedClassLeaders then none
  else
    match t.currentClassLeader with
    | some current =>
        if current = loadClassLeader then
          some { t with
            firstLoadOp := some (t.firstLoadOp.getD n)
            lastMemOpWasLoad := true }
        else if t.lastMemOpWasLoad then none
        else some ⟨current :: t.visitedClassLeaders, some loadClassLeader, true, some n, none,
          t.savedGroups⟩
    | none =>
        some { t with
          currentClassLeader := some loadClassLeader
          firstLoadOp := some (t.firstLoadOp.getD n)
          lastMemOpWasLoad := true }

def store (t : Tracking) (n : Nat) (storeClassLeader : Value) : Option Tracking :=
  if t.currentClassLeader = some storeClassLeader then
    some { t with
      lastStoreOp := some n
      lastMemOpWasLoad := false }
  else none

end Tracking

/-- One operation of a block. There is no result where an assertion fails. -/
def trackOp (s : Scope) (classes : EquivalenceClasses) (t : Tracking) (n : Nat) : Option Tracking :=
  match s.ops[n]? with
  | some op =>
      if op.numRegions > 0 then some t.controlFlow
      else
        match op with
        | .load accessTile => (classes.findLeader accessTile).bind (t.load n)
        | .store _ accessTile => (classes.findLeader accessTile).bind (t.store n)
        | .pure _ _ _ _ _ _ => some t
  | none => some t

def processBlockForExtraction (s : Scope) (classes : EquivalenceClasses) :
    Option (List ComputeGroup) :=
  (s.block.foldlM (trackOp s classes) Tracking.start).map Tracking.savedGroups

/-- The classes and the groups of a block, if all assertions hold. Without classes there is nothing to
look for. -/
def collectComputeGroups (s : Scope) : Option (EquivalenceClasses × List ComputeGroup) := do
  let classes ← buildAccessTileEqClasses s
  if classes.isEmpty then some (classes, [])
  else (processBlockForExtraction s classes).map fun groups => (classes, groups)

/-! ## Extracting a group -/

/-- An extracted function. -/
structure FuncOp where
  params : List Value
  body : List Nat
  deriving Repr, DecidableEq

/-- What stands in a rewritten block. -/
inductive Item where
  | op (number : Nat)
  | call (callee : FuncOp)
  deriving Repr, DecidableEq

def Item.number? : Item → Option Nat
  | op n => some n
  | call _ => none

/-- The values an item uses. A call passes the arguments its parameters stand for. -/
def Item.uses (s : Scope) : Item → List Value
  | op n => s.valuesReadFromAbove n
  | call callee => callee.params

/-- The items up to an operation, and those after it. -/
def splitAfter (n : Nat) : List Item → List Item × List Item
  | [] => ([], [])
  | item :: items =>
      if item = .op n then ([item], items)
      else ((item :: (splitAfter n items).1), (splitAfter n items).2)

/-- The arguments found so far, and the operations looked at. -/
structure CollectedArgs where
  args : List Value
  visited : List Nat

/-- The block arguments that a value depends on. No chain of operations is longer than `fuel`. -/
def collectArgsUsed (s : Scope) : Nat → CollectedArgs → Value → CollectedArgs
  | 0, found, _ => found
  | fuel + 1, found, v =>
      match v.getDefiningOp with
      | none => if v ∈ found.args then found else { found with args := found.args ++ [v] }
      | some op =>
          if op ∈ found.visited then found
          else
            (s.valuesReadFromAbove op).foldl (collectArgsUsed s fuel)
              { found with visited := op :: found.visited }

/-- The operations cloned once a value is there. -/
def materializeDependency (s : Scope) : Nat → List Nat → Value → List Nat
  | 0, cloned, _ => cloned
  | fuel + 1, cloned, v =>
      match v.getDefiningOp with
      | none => cloned
      | some op =>
          if op ∈ cloned then cloned
          else (s.valuesReadFromAbove op).foldl (materializeDependency s fuel) cloned ++ [op]

/-- Clones an operation of the range unless one of its results is mapped to one of a clone. -/
def cloneOp (s : Scope) (cloned : List Nat) (n : Nat) : List Nat :=
  if (results s n).any fun result => result.getDefiningOp.any (· ∈ cloned) then cloned
  else cloned ++ [n]

/-- The function that a range of operations becomes. -/
def extractedFunc (s : Scope) (opsToMove : List Nat) : FuncOp :=
  let used := opsToMove.flatMap s.valuesReadFromAbove
  let fuel := s.ops.length + 1
  { params := (used.foldl (collectArgsUsed s fuel) ⟨[], []⟩).args
    body := opsToMove.foldl (cloneOp s) (used.foldl (materializeDependency s fuel) []) }

/-- The block with a call in the place of a group. There is none where an operation that is erased
has uses left. -/
def extractComputeGroup (s : Scope) (items : List Item) (group : ComputeGroup) :
    Option (List Item) :=
  let before := items.takeWhile (· ≠ .op group.firstLoad)
  let (range, after) := splitAfter group.lastStore (items.dropWhile (· ≠ .op group.firstLoad))
  let opsToMove := range.filterMap Item.number?
  let rewritten := before ++ .call (extractedFunc s opsToMove) :: after
  if (rewritten.flatMap (Item.uses s)).any fun v => v.getDefiningOp.any (· ∈ opsToMove) then none
  else some rewritten

def extractComputeGroups (s : Scope) (groups : List ComputeGroup) : Option (List Item) :=
  groups.foldlM (extractComputeGroup s) (s.block.map .op)

end ComputeGroupExtraction

end DataflowScheduler
