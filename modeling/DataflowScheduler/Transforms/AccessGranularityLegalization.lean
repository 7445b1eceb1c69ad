import DataflowScheduler.Util.RowMajor

/-!
# Access granularity legalization

A unit loads from a memory in granules of words. The pass widens the innermost dimension of a load to
the smallest granule that holds its elements, and with it the innermost dimension of the destination and
the slot or buffer behind it. Units, memories and the list of granules are parameters.
-/

namespace DataflowScheduler

namespace AccessGranularityLegalization

/-! ## Granules -/

/-- `feature::Load` of a unit: for a memory space, what `fitAccess` of its granularities finds for a
number of words, and the bytes of a word. -/
structure LoadFeature (M : Type) where
  getAccessGranularity : M → Option (Nat → Option Nat)
  getWordSize : M → Nat

/-- `ResourceKinds`. -/
structure ResourceKinds (U M : Type) where
  getLoadFeature : U → Option (LoadFeature M)

/-- How elements of a type are loaded. -/
structure Access where
  fitAccess : Nat → Option Nat
  wordSize : Nat
  elemBytes : Nat
  wordSize_pos : 0 < wordSize
  elemBytes_pos : 0 < elemBytes

/-- The words that hold some elements. -/
def Access.wordsRequested (access : Access) (elements : Nat) : Nat :=
  (elements * access.elemBytes + access.wordSize - 1) / access.wordSize

/-- The elements that some words hold. -/
def Access.granuleElements (access : Access) (words : Nat) : Nat :=
  words * access.wordSize / access.elemBytes

variable {U M : Type}

/-- What is to be known for a load to be widened. -/
def findAccess (resourceKinds : ResourceKinds U M) (unitKind : Option U) (memorySpace : Option M)
    (elemBits : Nat) : Option Access := do
  let unit ← unitKind
  let space ← memorySpace
  let loadFeature ← resourceKinds.getLoadFeature unit
  let fitAccess ← loadFeature.getAccessGranularity space
  if hword : 0 < loadFeature.getWordSize space then
    if helem : 0 < (elemBits + 7) / 8 then
      some ⟨fitAccess, loadFeature.getWordSize space, (elemBits + 7) / 8, hword, helem⟩
    else none
  else none

/-- `computeRequiredLoadElements`. -/
def computeRequiredLoadElements (access : Option Access) (srcElements : Nat) : Nat :=
  match access with
  | none => srcElements
  | some access =>
      match access.fitAccess (access.wordsRequested srcElements) with
      | none => srcElements
      | some sizeInWords => max (access.granuleElements sizeInWords) srcElements

/-! ## Transfers -/

/-- A size, if it is static. -/
abbrev Dim := Option Nat

/-- The sizes of an allocation, its dynamic ones given by operands. -/
def allocSizes : List Dim → List Nat → Option (List Nat)
  | [], [] => some []
  | some size :: shape, dynamicSizes => (allocSizes shape dynamicSizes).map (size :: ·)
  | none :: shape, size :: dynamicSizes => (allocSizes shape dynamicSizes).map (size :: ·)
  | _, _ => none

/-- Where a transfer writes to: a slot, or a buffer at an offset. -/
inductive Destination
  | fifo (numElements : Nat)
  | memref (shape : List Dim) (dynamicSizes : List Nat) (offset : List Nat)
  deriving DecidableEq

/-- A transfer in one execution. The destination may be a result of `ktdf.private`, of an allocation of
its own. -/
structure DataTransfer (U M : Type) where
  unitKind : Option U
  memorySpace : Option M
  elemBits : Nat
  isSourceMemRef : Bool
  sourceOffset : List Nat
  staticSourceSizes : Option (List Nat)
  staticDestSizes : Option (List Nat)
  destination : Destination
  isPrivateAllocation : Bool

def DataTransfer.access (resourceKinds : ResourceKinds U M) (t : DataTransfer U M) : Option Access :=
  findAccess resourceKinds t.unitKind t.memorySpace t.elemBits

/-- `sizes.back() = size`. -/
def setBack {α : Type} (sizes : List α) (size : α) : List α := sizes.dropLast ++ [size]

/-- `setInnermostStaticSourceSize`. -/
def setInnermostStaticSourceSize (t : DataTransfer U M) (size : Nat) : DataTransfer U M :=
  match t.staticSourceSizes with
  | none => t
  | some sizes => if sizes = [] then t else { t with staticSourceSizes := some (setBack sizes size) }

/-- `resizePrivateFifoSlot` and `resizePrivateBuffer`. A buffer of another shape is allocated anew,
without operands. -/
def resizePrivate (isPrivateAllocation : Bool) (destination : Destination) (requiredElements : Nat) :
    Except String Destination :=
  match destination with
  | .fifo _ =>
      if isPrivateAllocation then .ok (.fifo requiredElements)
      else .error "access-granularity-legalization: cannot resize FIFO slot"
  | .memref shape dynamicSizes offset =>
      let newShape := setBack shape (some requiredElements)
      if !isPrivateAllocation then
        .error "access-granularity-legalization: cannot resize destination buffer"
      else if shape = newShape then .ok (.memref shape dynamicSizes offset)
      else .ok (.memref newShape [] offset)

/-- `widenTransfer`. -/
def widenTransfer (t : DataTransfer U M) (requiredElements : Nat) :
    Except String (DataTransfer U M) :=
  let t := setInnermostStaticSourceSize t requiredElements
  let destSizes := t.staticDestSizes.map (setBack · requiredElements)
  (resizePrivate t.isPrivateAllocation t.destination requiredElements).map fun destination =>
    { t with staticDestSizes := destSizes, destination := destination }

/-- `legalizeTransfer`. -/
def legalizeTransfer (resourceKinds : ResourceKinds U M) (t : DataTransfer U M) :
    Except String (DataTransfer U M) :=
  if !t.isSourceMemRef then .ok t
  else
    match t.staticSourceSizes with
    | none => .ok t
    | some sizes =>
        if sizes = [] then .ok t
        else
          let requiredElements :=
            computeRequiredLoadElements (t.access resourceKinds) sizes.prod
          if requiredElements ≤ sizes.prod then .ok t else widenTransfer t requiredElements

/-! ## What a transfer does -/

/-- A box at an offset is inside of another one. -/
def InBox : List Nat → List Nat → List Nat → Prop
  | [], [], [] => True
  | offset :: offsets, size :: sizes, bound :: bounds =>
      offset + size ≤ bound ∧ InBox offsets sizes bounds
  | _, _, _ => False

/-- The indices of an element of a box at an offset. -/
def coordinates (offset sizes : List Nat) (k : Nat) : List Nat :=
  List.zipWith (· + ·) offset ((RowMajor.points sizes).getD k [])

/-- Where the `k`th element goes to: a position in the slot, or the indices in the buffer. -/
def Destination.target (destination : Destination) (sizes : List Nat) (k : Nat) : List Nat :=
  match destination with
  | .fifo _ => [k]
  | .memref _ _ offset => coordinates offset sizes k

/-- The `k`th move of a transfer. The elements of a splat are repeated. -/
def DataTransfer.move (t : DataTransfer U M) (sourceSizes destSizes : List Nat) (k : Nat) :
    List Nat × List Nat :=
  (coordinates t.sourceOffset sourceSizes (k % sourceSizes.prod), t.destination.target destSizes k)

/-- The slot has exactly as many elements, or the buffer holds the box. -/
def Destination.Holds (destination : Destination) (sizes : List Nat) : Prop :=
  match destination with
  | .fifo numElements => numElements = sizes.prod
  | .memref shape dynamicSizes offset =>
      ∃ bounds, allocSizes shape dynamicSizes = some bounds ∧ InBox offset sizes bounds

/-- A load with static sizes. What is written to a buffer is inside of it. -/
structure WellFormed (t : DataTransfer U M) (sourceSizes destSizes : List Nat) : Prop where
  isSourceMemRef : t.isSourceMemRef = true
  staticSourceSizes : t.staticSourceSizes = some sourceSizes
  staticDestSizes : t.staticDestSizes = some destSizes
  source_ne_nil : sourceSizes ≠ []
  dest_ne_nil : destSizes ≠ []
  source_pos : ∀ size ∈ sourceSizes, 0 < size
  dest_pos : ∀ size ∈ destSizes, 0 < size
  source_length : t.sourceOffset.length = sourceSizes.length
  repeats : sourceSizes.prod ∣ destSizes.prod
  dest_inside : ∀ shape dynamicSizes offset, t.destination = .memref shape dynamicSizes offset →
    t.destination.Holds destSizes

/-- The transfer is legal, moves what was moved before, and stays as it is. -/
structure Legalized (resourceKinds : ResourceKinds U M) (t : DataTransfer U M)
    (sourceSizes destSizes : List Nat) (t' : DataTransfer U M) (sourceSizes' destSizes' : List Nat) :
    Prop where
  staticSourceSizes : t'.staticSourceSizes = some sourceSizes'
  staticDestSizes : t'.staticDestSizes = some destSizes'
  agree : sourceSizes'.prod = destSizes'.prod
  enough : sourceSizes.prod ≤ sourceSizes'.prod
  issued : ∃ access words, t.access resourceKinds = some access ∧
    access.fitAccess words = some (access.wordsRequested sourceSizes'.prod)
  holds : t'.destination.Holds destSizes'
  moved : ∀ k < destSizes.prod, ∃ k' < destSizes'.prod,
    t'.move sourceSizes' destSizes' k' = t.move sourceSizes destSizes k
  again : legalizeTransfer resourceKinds t' = .ok t'

/-! ## When a transfer can be legalized -/

/-- The elements are what a granule holds. -/
def Access.IsGranule (access : Access) (elements : Nat) : Prop :=
  access.fitAccess (access.wordsRequested elements) = some (access.wordsRequested elements) ∧
    access.granuleElements (access.wordsRequested elements) ≤ elements

/-- A slot has the right size already. -/
def Destination.Fits (destination : Destination) (elements : Nat) : Prop :=
  match destination with
  | .fifo numElements => numElements = elements
  | .memref _ _ _ => True

/-- The destination can take rows of the required size: one row for a slot, and for a buffer any number
of rows that begin at its innermost index 0, and none of whose other sizes is dynamic. -/
def Destination.TakesRows (destination : Destination) (rows requiredElements : Nat) : Prop :=
  match destination with
  | .fifo _ => rows = 1
  | .memref shape _ offset => offset.getLast? = some 0 ∧
      (shape.getLast? = some (some requiredElements) ∨ ∀ dim ∈ shape.dropLast, dim.isSome)

/-- The granules are known, one holds the elements, and either the transfer is as large as it already, or
its rows, widened, are a granule that the destination can take. -/
def Legalizable (resourceKinds : ResourceKinds U M) (t : DataTransfer U M)
    (sourceSizes destSizes : List Nat) : Prop :=
  sourceSizes.prod = destSizes.prod ∧ ∃ access words, t.access resourceKinds = some access ∧
    access.fitAccess (access.wordsRequested sourceSizes.prod) = some words ∧
    if access.granuleElements words ≤ sourceSizes.prod then
      access.wordsRequested sourceSizes.prod = words ∧ t.destination.Fits sourceSizes.prod
    else
      sourceSizes.dropLast.prod = destSizes.dropLast.prod ∧
      access.IsGranule (sourceSizes.dropLast.prod * access.granuleElements words) ∧
      t.destination.TakesRows sourceSizes.dropLast.prod (access.granuleElements words)

/-- `fitAccess` finds a granule of at least the words asked for, and a granule for itself. -/
def FitsAccess (resourceKinds : ResourceKinds U M) : Prop :=
  ∀ unit space loadFeature fitAccess, resourceKinds.getLoadFeature unit = some loadFeature →
    loadFeature.getAccessGranularity space = some fitAccess → ∀ words size,
      fitAccess words = some size → words ≤ size ∧ fitAccess size = some size

end AccessGranularityLegalization

end DataflowScheduler
