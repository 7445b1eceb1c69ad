import Mathlib.Data.List.Dedup
import DataflowScheduler.Analysis.TrackerRuns

/-!
# Address assignment

The `address-assignment` pass: every allocation that names a memory space is replaced by an address
the memory tracker hands out. A module is walked scope by scope, the outer module first and then
each program module inside it; at the start of a scope the memories its allocations name start over,
except global memory.

MLIR's part is data here: the bounds `computeConstantBound` finds for the dynamic sizes of an
allocation, and the strides and offset its layout reports, are fields of the allocation.
-/

namespace DataflowScheduler

namespace AddressAssignment

/-! ## Types and allocations -/

/-- The types whose size the scheduler knows. -/
inductive ElementType where
  | integer (width : BitVec 32)
  | float (width : BitVec 32)
  /-- `none` is a dynamic dimension. -/
  | vector (shape : List (Option Nat)) (elementTypeBitWidth : BitVec 32)
  | other
  deriving Repr, DecidableEq

/-- `tryGetSizeInBits`. The result is an `unsigned`. -/
def tryGetSizeInBits : ElementType → Option (BitVec 32)
  | .integer width => some width
  | .float width => some width
  | .vector shape elementTypeBitWidth =>
      match shape.allSome with
      | none => none
      | some dims => some (BitVec.ofNat 32 (dims.prod * elementTypeBitWidth.toNat))
  | .other => none

/-- `tryGetSizeInBytes`. -/
def tryGetSizeInBytes (type : ElementType) : Option (BitVec 32) :=
  (tryGetSizeInBits type).map fun bits => (bits + 7) / 8

/-- The memory space attribute of a memref type: a resource, or some other attribute. -/
inductive MemorySpace (R : Type) where
  | resource (r : R)
  | other
  deriving Repr, DecidableEq

/-- A memref type. `none` in the shape is a dynamic dimension. -/
structure MemRefType (R : Type) where
  shape : List (Option Int)
  elementType : ElementType
  /-- `getStridesAndOffset` of the layout, at a static shape. -/
  getStridesAndOffset : List Int → Option (List Int × Int)
  memorySpace : Option (MemorySpace R)

/-- `llvm::Align`: a power of two below `2 ^ 64`. -/
structure Align where
  shiftValue : Fin 64
  deriving Repr, DecidableEq

def Align.value (a : Align) : SizeT := BitVec.ofNat 64 (2 ^ a.shiftValue.val)

/-- A `memref.alloc` or `memref.alloca`. -/
structure AllocOp (R : Type) where
  type : MemRefType R
  /-- For each dynamic size, the constant upper bound that was found for it. -/
  dynamicSizes : List (Option Int)
  alignment : Option Align

/-- `getUpperBound`. -/
def getUpperBound : List (Option Int) → List (Option Int) → Option (List Int)
  | [], _ => some []
  | some dim :: shape, sizes => (getUpperBound shape sizes).map (dim :: ·)
  | none :: shape, some bound :: sizes => (getUpperBound shape sizes).map (bound :: ·)
  | none :: _, none :: _ => none
  -- The verifier has one size for each dynamic dimension.
  | none :: _, [] => none

/-- `__builtin_mul_overflow` and `__builtin_add_overflow` into a `size_t`: the exact result, if it
is one. -/
def checkedSizeT (exact : Int) : Option SizeT :=
  if 0 ≤ exact ∧ exact < 2 ^ 64 then some (BitVec.ofInt 64 exact) else none

namespace AllocOp

variable {R : Type}

/-- `AllocOp::getUpperShapeBound`. -/
def getUpperShapeBound (alloc : AllocOp R) : Option (List Int) :=
  match alloc.type.shape.allSome with
  | some shape => some shape
  | none => getUpperBound alloc.type.shape alloc.dynamicSizes

/-- The loop of `getUpperOffsetBound`. -/
def addOffsets : SizeT → List (Int × Int) → Option SizeT
  | result, [] => some result
  | result, (sz, stride) :: dims => do
      let temp ← checkedSizeT ((sz - 1) * stride)
      let result ← checkedSizeT (result.toNat + temp.toNat)
      addOffsets result dims

/-- `AllocOp::getUpperOffsetBound`. -/
def getUpperOffsetBound (alloc : AllocOp R) : Option SizeT := do
  let shape ← alloc.getUpperShapeBound
  let (strides, offset) ← alloc.type.getStridesAndOffset shape
  if offset < 0 || strides.any (· < 0) then none
  else addOffsets (BitVec.ofInt 64 offset) (shape.zip strides)

/-- `AllocOp::getSize`. -/
def getSize (alloc : AllocOp R) : Option SizeT := do
  let offset ← alloc.getUpperOffsetBound
  let size ← tryGetSizeInBytes alloc.type.elementType
  checkedSizeT ((offset + 1).toNat * size.toNat)

/-- The alignment asked for, `1` where none is. -/
def alignmentOrOne (alloc : AllocOp R) : SizeT :=
  match alloc.alignment with
  | some align => align.value
  | none => 1

end AllocOp

/-! ## Modules -/

/-- Operations, as far as the pass tells them apart. The bodies of an operation's regions are
listed in the order a walk visits them. -/
inductive Op (R : Type) where
  | module (body : List (Op R))
  | alloc (op : AllocOp R)
  | other (body : List (Op R))

variable {R : Type}

mutual

/-- The callback of `collectAllocations` on one operation and, unless it skips, on its regions. -/
def collectFrom : Op R → List (AllocOp R)
  | .module _ => []
  | .alloc op => if op.type.memorySpace.isSome then [op] else []
  | .other body => collectAllocations body

/-- `collectAllocations`, of a scope with this body. -/
def collectAllocations : List (Op R) → List (AllocOp R)
  | [] => []
  | op :: body => collectFrom op ++ collectAllocations body

end

mutual

def hasAllocationsFrom : Op R → Bool
  | .module body => hasAllocationsWithMemorySpace body
  | .alloc op => op.type.memorySpace.isSome
  | .other body => hasAllocationsWithMemorySpace body

/-- `hasAllocationsWithMemorySpace`, of a module with this body. -/
def hasAllocationsWithMemorySpace : List (Op R) → Bool
  | [] => false
  | op :: body => hasAllocationsFrom op || hasAllocationsWithMemorySpace body

end

/-- The outer module and the program modules directly inside it. -/
def scopes (module : List (Op R)) : List (List (Op R)) :=
  module :: module.filterMap fun
    | .module body => some body
    | _ => none

/-! ## The pass -/

/-- What stops the pass: a failed assertion or cast, or a division by zero. -/
inductive Abort where
  /-- The memory space is not a resource. -/
  | badMemorySpace
  /-- "allocation must be element-aligned" -/
  | notElementAligned
  | divisionByZero
  deriving Repr, DecidableEq

/-- Why one allocation gets no address. These are counted, and fail the pass in the end. -/
inductive AllocFailure (R : Type) where
  | unknownSize
  /-- "Failed to allocate %s memory: %s" -/
  | failedToAllocate (memorySpace : R) (error : AllocateError R)
  deriving Repr, DecidableEq

/-- An allocation that was replaced by an address. -/
structure Assigned (R : Type) where
  alloc : AllocOp R
  memorySpace : R
  size : SizeT
  elementBytes : SizeT
  alignment : SizeT
  /-- What the tracker returned. -/
  byteAddress : SizeT
  /-- What the address constant in the IR is, in elements. -/
  assignedAddress : SizeT

variable [DecidableEq R]

/-- `llvm::cast<ResourceType>` of the memory space. -/
def castMemorySpace (alloc : AllocOp R) : Except Abort R :=
  match alloc.type.memorySpace with
  | some (.resource r) => .ok r
  | _ => .error .badMemorySpace

/-- `std::lcm(alloc.getAlignment().valueOrOne().value(), element_bytes)`. -/
def elementAlignment (alloc : AllocOp R) (elementBytes : SizeT) : SizeT :=
  BitVec.ofNat 64 (Nat.lcm alloc.alignmentOrOne.toNat elementBytes.toNat)

/-- Element size of an allocation whose size is known. -/
def elementBytes (alloc : AllocOp R) : SizeT :=
  match tryGetSizeInBytes alloc.type.elementType with
  | some bytes => bytes.setWidth 64
  | none => 0

/-- `AddressAssignmentPass::processAllocation`. -/
def processAllocation (tracker : MemoryTracker R) (alloc : AllocOp R) :
    Except Abort (Except (AllocFailure R) (Assigned R) × MemoryTracker R) :=
  match alloc.getSize with
  | none => .ok (.error .unknownSize, tracker)
  | some size => do
      let memorySpace ← castMemorySpace alloc
      let elementBytes := elementBytes alloc
      let alignment := elementAlignment alloc elementBytes
      match tracker.allocate memorySpace size alignment with
      | (.error e, tracker) => .ok (.error (.failedToAllocate memorySpace e), tracker)
      | (.ok byteAddress, tracker) =>
          if elementBytes = 0 then .error .divisionByZero
          else if byteAddress % elementBytes ≠ 0 then .error .notElementAligned
          else .ok (.ok ⟨alloc, memorySpace, size, elementBytes, alignment, byteAddress,
            byteAddress / elementBytes⟩, tracker)

/-- The loop over the allocations of a scope. -/
def processAllocations (tracker : MemoryTracker R) : List (AllocOp R) →
    Except Abort (List (Except (AllocFailure R) (Assigned R)) × MemoryTracker R)
  | [] => .ok ([], tracker)
  | alloc :: allocs => do
      let (result, tracker) ← processAllocation tracker alloc
      let (results, tracker) ← processAllocations tracker allocs
      .ok (result :: results, tracker)

/-- The memories a scope starts over. The source collects them in a hash set; the order in which
they are reset does not matter. -/
def reusable (tree : MemoryTree R) (spaces : List R) : List R :=
  (spaces.filter fun space => !tree.isGlobalMemory space).dedup

/-- One round of the loop over the scopes. -/
def processScope (tree : MemoryTree R) (tracker : MemoryTracker R) (scope : List (Op R)) :
    Except Abort (List (Except (AllocFailure R) (Assigned R)) × MemoryTracker R) := do
  let allocs := collectAllocations scope
  let spaces ← allocs.mapM castMemorySpace
  processAllocations (tracker.reset (reusable tree spaces)) allocs

def processScopes (tree : MemoryTree R) (tracker : MemoryTracker R) : List (List (Op R)) →
    Except Abort (List (List (Except (AllocFailure R) (Assigned R))) × MemoryTracker R)
  | [] => .ok ([], tracker)
  | scope :: scopes => do
      let (results, tracker) ← processScope tree tracker scope
      let (rest, tracker) ← processScopes tree tracker scopes
      .ok (results :: rest, tracker)

/-- What the pass leaves behind: for each scope what became of its allocations, in order. -/
structure Outcome (R : Type) where
  results : List (List (Except (AllocFailure R) (Assigned R)))
  tracker : MemoryTracker R

/-- The allocations of a scope that got an address. -/
def assignedOf (results : List (Except (AllocFailure R) (Assigned R))) : List (Assigned R) :=
  results.filterMap Except.toOption

namespace Outcome

omit [DecidableEq R]

def numProcessed (o : Outcome R) : Nat := o.results.flatten.length

def numFailed (o : Outcome R) : Nat :=
  o.results.flatten.countP fun result => !result.isOk

/-- `signalPassFailure` is not called. -/
def succeeded (o : Outcome R) : Prop := o.numFailed = 0

/-- The assigned allocations of each scope. -/
def assigned (o : Outcome R) : List (List (Assigned R)) := o.results.map assignedOf

end Outcome

/-- `AddressAssignmentPass::runOnOperation`. -/
def runOnOperation (tree : MemoryTree R) (tracker : MemoryTracker R) (module : List (Op R)) :
    Except Abort (Outcome R) :=
  if hasAllocationsWithMemorySpace module then do
    let (results, tracker) ← processScopes tree tracker (scopes module)
    .ok ⟨results, tracker⟩
  else .ok ⟨(scopes module).map fun _ => [], tracker⟩

end AddressAssignment

end DataflowScheduler
