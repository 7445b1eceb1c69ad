import Mathlib.Logic.Function.Basic
import DataflowScheduler.Util.ByteRange
import DataflowScheduler.Analysis.MemoryTree

/-!
# The memory tracker

`MemoryTracker` hands out addresses in each memory of a device, bottom up, and checks that an
allocation fits the capacity. All of its arithmetic is `size_t` arithmetic, the check included, so
it wraps; the second half of the file says what one call does to the `next_address_` map when it
does not.
-/

namespace DataflowScheduler

open ByteRange (roundUp)

/-- Why an allocation is refused. The first is an assertion of the source, the others are the two
errors it returns, with the values their texts print. -/
inductive AllocateError (R : Type) where
  /-- "Memory resource not found in capacity map" -/
  | resourceNotFound (resource : R)
  /-- "Memory resource %s does not have capacity information" -/
  | noCapacity (resource : R)
  /-- "Allocation of %zu bytes (aligned to %zu) exceeds %s capacity (%zu bytes of capacity, %zu
  bytes already allocated)" -/
  | exceedsCapacity (sizeInBytes alignment : SizeT) (resource : R) (capacity allocated : SizeT)
  deriving Repr, DecidableEq

/-- `MemoryTracker`: total, reserved and next available bytes of each memory. -/
structure MemoryTracker (R : Type) where
  capacities : R → Option SizeT
  reserved : R → Option SizeT
  nextAddress : R → Option SizeT

namespace MemoryTracker

variable {R : Type} [DecidableEq R]

/-- A tracker that knows no memory. -/
def empty : MemoryTracker R where
  capacities := fun _ => none
  reserved := fun _ => none
  nextAddress := fun _ => none

/-- Record a node that has a capacity. -/
def addNode (t : MemoryTracker R) (node : MemoryNode R) : MemoryTracker R :=
  match node.capacityInBytes with
  | none => t
  | some capacity =>
      let reserved := node.reservedInBytes.getD 0
      { capacities := Function.update t.capacities node.memoryResource (some capacity)
        reserved := Function.update t.reserved node.memoryResource (some reserved)
        nextAddress := Function.update t.nextAddress node.memoryResource (some reserved) }

/-- One step of the constructor's loop. -/
def addNodeOf (tree : MemoryTree R) (t : MemoryTracker R) (id : MemoryTree.NodeId) :
    MemoryTracker R :=
  match tree.getNode id with
  | some node => t.addNode node
  | none => t

/-- `MemoryTracker::MemoryTracker`. -/
def ofTree (tree : MemoryTree R) : MemoryTracker R :=
  tree.getAllNodeIds.foldl (addNodeOf tree) empty

/-- `MemoryTracker::alignAddress`. -/
def alignAddress (address alignment : SizeT) : SizeT :=
  if alignment ≤ 1 then address
  else
    let remainder := address % alignment
    if remainder = 0 then address
    else address + (alignment - remainder)

/-- `MemoryTracker::allocate`. -/
def allocate (t : MemoryTracker R) (memoryResource : R) (sizeInBytes alignment : SizeT) :
    Except (AllocateError R) SizeT × MemoryTracker R :=
  match t.nextAddress memoryResource with
  | none => (.error (.resourceNotFound memoryResource), t)
  | some currentAddress =>
      let alignedAddress := alignAddress currentAddress alignment
      let newNextAddress := alignedAddress + sizeInBytes
      match t.capacities memoryResource with
      | none => (.error (.noCapacity memoryResource), t)
      | some capacity =>
          if newNextAddress > capacity then
            (.error (.exceedsCapacity sizeInBytes alignment memoryResource capacity
              (currentAddress - (t.reserved memoryResource).getD 0)), t)
          else
            (.ok alignedAddress,
              { t with nextAddress := Function.update t.nextAddress memoryResource (some newNextAddress) })

/-- `MemoryTracker::getNextAvailableAddress`. -/
def getNextAvailableAddress (t : MemoryTracker R) (memoryResource : R) : Option SizeT :=
  t.nextAddress memoryResource

/-- `MemoryTracker::getTotalAllocated`. -/
def getTotalAllocated (t : MemoryTracker R) (memoryResource : R) : Option SizeT := do
  let reserved ← t.reserved memoryResource
  let next ← t.getNextAvailableAddress memoryResource
  return next - reserved

/-- One step of the loop of `MemoryTracker::reset`. -/
def resetOne (t : MemoryTracker R) (resource : R) : MemoryTracker R :=
  match t.nextAddress resource with
  | none => t
  | some _ =>
      { t with
        nextAddress := Function.update t.nextAddress resource (some ((t.reserved resource).getD 0)) }

/-- `MemoryTracker::reset`. -/
def reset (t : MemoryTracker R) (memoryResources : List R) : MemoryTracker R :=
  memoryResources.foldl resetOne t

end MemoryTracker

end DataflowScheduler
