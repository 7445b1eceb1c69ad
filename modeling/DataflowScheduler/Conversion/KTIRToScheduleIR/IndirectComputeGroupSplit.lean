import DataflowScheduler.Transforms.AddressAssignment
import DataflowScheduler.Util.Affine
import DataflowScheduler.Util.Strides

/-!
# Splitting indirect compute groups

The `indirect-compute-group-split` pass: a function that accesses memory through an index memref is
split into one that resolves the indices to addresses and stores them in an address buffer, and the
rest, which reads the buffer.

A value is the expression that computes it, so an operation without effects is where it is used,
cloning one rebuilds the expression and a dead one is not there. The body of a function is the list
of its other operations in the order of a walk.
-/

namespace DataflowScheduler

namespace IndirectComputeGroupSplit

/-! ## Values -/

/-- Argument `number` of a block. Block 0 is the entry block of the function. -/
structure BlockArgument where
  block : Nat
  number : Nat
  deriving Repr, DecidableEq

/-- What an operation without effects does: the arithmetic the pass emits, or anything else, known
by its name, attributes and result. -/
inductive Operation where
  | muli
  | divsi
  | other (id : Nat)
  deriving Repr, DecidableEq

/-- A value. The operands of an operation are those of its own and what its regions capture. -/
inductive Value where
  | blockArgument (arg : BlockArgument)
  | constant (value : Int)
  | result (op : Operation) (operands : List Value)

def getConstantIntValue : Value → Option Int
  | .constant v => some v
  | .blockArgument _ => none
  | .result _ _ => none

/-- An `OpFoldResult`: an integer attribute or a value. -/
inductive OpFoldResult where
  | attr (value : Int)
  | value (v : Value)

def OpFoldResult.getConstantIntValue : OpFoldResult → Option Int
  | .attr c => some c
  | .value v => IndirectComputeGroupSplit.getConstantIntValue v

mutual

/-- The block arguments `walkDependency` reaches, in its order. -/
def walkDependency : Value → List BlockArgument
  | .blockArgument arg => [arg]
  | .constant _ => []
  | .result _ operands => walkDependencies operands

def walkDependencies : List Value → List BlockArgument
  | [] => []
  | v :: vs => walkDependency v ++ walkDependencies vs

end

mutual

/-- Clone a value into a function whose argument `i` stands for `mapper[i]`. -/
def materializeDependency (mapper : List BlockArgument) : Value → Value
  | .blockArgument arg => .blockArgument ⟨0, mapper.idxOf arg⟩
  | .constant c => .constant c
  | .result op operands => .result op (materializeDependencies mapper operands)

def materializeDependencies (mapper : List BlockArgument) : List Value → List Value
  | [] => []
  | v :: vs => materializeDependency mapper v :: materializeDependencies mapper vs

end

/-! ## Types and memory views -/

inductive Signedness where
  | signless
  | signed
  | unsigned
  deriving Repr, DecidableEq

inductive ElementType where
  | integer (signedness : Signedness) (width : BitVec 32)
  | other (type : AddressAssignment.ElementType)
  deriving Repr, DecidableEq

def tryGetSizeInBytes : ElementType → Option (BitVec 32)
  | .integer _ width => AddressAssignment.tryGetSizeInBytes (.integer width)
  | .other type => AddressAssignment.tryGetSizeInBytes type

inductive MemorySpaceKind where
  | global
  | other (id : Nat)
  deriving Repr, DecidableEq

/-- A memory space attribute: one of ktdp, or a resource. -/
inductive MemorySpace (R : Type) where
  | ktdp (kind : MemorySpaceKind) (ctId : Int)
  | resource (r : R)
  deriving Repr, DecidableEq

/-- `none` is a dynamic dimension. -/
structure MemRefType where
  shape : List (Option Nat)
  elementType : ElementType
  deriving Repr, DecidableEq

/-- The shape, where it is static. -/
def MemRefType.getShape (type : MemRefType) : List Nat := type.shape.map (·.getD 0)

def MemRefType.getNumElements (type : MemRefType) : Nat := type.getShape.prod

/-- `ktdp.construct_memory_view` and its sibling of ktdp_lowering. In the static sizes and strides,
`none` is `ShapedType::kDynamic`. -/
structure ConstructMemoryViewOp (R : Type) where
  type : MemRefType
  offset : Value
  sizes : List Value
  strides : List Value
  staticSizes : List (Option Int)
  staticStrides : List (Option Int)
  memorySpace : MemorySpace R
  coordinateSet : List Int → Bool

def ConstructMemoryViewOp.getOperands {R : Type} (view : ConstructMemoryViewOp R) : List Value :=
  view.offset :: (view.sizes ++ view.strides)

/-- The strides, where they are static. -/
def ConstructMemoryViewOp.getStrides {R : Type} (view : ConstructMemoryViewOp R) : List Int :=
  view.staticStrides.map (·.getD 0)

/-- `getMixedValues`. -/
def getMixedValues : List (Option Int) → List Value → List OpFoldResult
  | [], _ => []
  | some c :: statics, dynamics => .attr c :: getMixedValues statics dynamics
  | none :: statics, v :: dynamics => .value v :: getMixedValues statics dynamics
  -- The verifier has one value for each dynamic entry.
  | none :: _, [] => []

/-- What a memref operand is defined by. -/
inductive MemRef (R : Type) where
  | constructMemoryView (view : ConstructMemoryViewOp R)
  | other (type : MemRefType)

def MemRef.getType {R : Type} : MemRef R → MemRefType
  | .constructMemoryView view => view.type
  | .other type => type

def MemRef.getDefiningOp {R : Type} : MemRef R → Option (ConstructMemoryViewOp R)
  | .constructMemoryView view => some view
  | .other _ => none

/-! ## Operations, functions and modules -/

/-- A user of an access tile. -/
inductive TileUser where
  | load
  | store
  | other
  deriving Repr, DecidableEq

/-- `ktdp.construct_indirect_access_tile`, and who uses its result. -/
structure ConstructIndirectAccessTilesOp (R : Type) where
  base : MemRef R
  indirectMemrefs : List (MemRef R)
  perDimSubscriptKinds : List Bool
  perDimSubscriptMaps : List Affine.Map
  capturedVariables : List Value
  numIntermediateVariables : Nat
  variablesSpaceOrder : Affine.Map
  variablesSpaceSet : List Int → Bool
  type : List Nat
  users : List TileUser

/-- `ktdp_lowering.construct_indirect_access_tile`. -/
structure ConstructIndirectAccessTileOp (R : Type) where
  base : ConstructMemoryViewOp R
  indAddrBufMemref : ConstructMemoryViewOp R
  indAddrBufDimPositions : List Nat
  perDimSubscriptMaps : List Affine.Map
  capturedVariables : List Value
  numIntermediateVariables : Nat
  variablesSpaceOrder : Affine.Map
  variablesSpaceSet : List Int → Bool
  type : List Nat

/-- An operation with effects, or one the pass asks for. -/
inductive Op (R : Type) where
  | constructIndirectAccessTiles (op : ConstructIndirectAccessTilesOp R)
  | constructIndirectAccessTile (op : ConstructIndirectAccessTileOp R)
  /-- Load the whole of `source`, take `base + index * stride` of each element and store that over
  the whole of `target`. -/
  | idx32ToAddr (source target : ConstructMemoryViewOp R) (base stride : Value)
  /-- Load the whole of `source` and store it over the whole of `target`. -/
  | copy (source target : ConstructMemoryViewOp R)
  /-- A call. Those of the input are numbered. -/
  | call (site : Option Nat) (callee : String) (operands : List Value)
  | other (id : Nat)

/-- A function. A forward declaration has no body. -/
structure FuncOp (R : Type) where
  name : String
  numArguments : Nat
  grid : Option Nat
  body : Option (List (Op R))

/-- A child module of the top-level one. `id` tells modules apart; the orchestrator has no name. -/
structure ModuleOp (R : Type) where
  id : Nat
  symName : Option String
  funcs : List (FuncOp R)

variable {R : Type}

def FuncOp.ops (f : FuncOp R) : List (Op R) := f.body.getD []

def ModuleOp.ops (m : ModuleOp R) : List (Op R) := m.funcs.flatMap FuncOp.ops

def isOrchestratorModule (child : ModuleOp R) : Bool := child.symName.isNone

/-! ## Errors -/

/-- Why the pass fails. -/
inductive SplitError (R : Type) where
  /-- "more than one indirect tensor in function '%s' is not supported" -/
  | multipleIndirectOps (func : String)
  /-- "unable to import device specification; cannot resolve IAB entry type" -/
  | noDevice
  /-- "no IAB (indirect_address_buffer) resource found in device description" -/
  | noIAB
  /-- "IAB resource has no entry_type" -/
  | noEntryType
  /-- "IAB entry_type is not an integer type" -/
  | entryTypeNotInteger
  /-- "the orchestrator calls '%s' more than once" -/
  | calledTwice (callee : String)
  /-- "indirect access tile has no indirect memref" -/
  | noIndirectMemref
  /-- "indirect access tile has %d indirect memrefs but only exactly one ... is supported" -/
  | manyIndirectMemrefs (number : Nat)
  /-- "indirect memref element type (%s) does not match IAB entry type (%s)" -/
  | elementTypeMismatch (type entryType : ElementType)
  /-- "indirect memref operand is not defined by a ktdp.construct_memory_view" -/
  | indexNotView
  /-- "indirect memref has dynamic sizes" -/
  | dynamicSizes
  /-- "indirect memref has dynamic strides" -/
  | dynamicStrides
  /-- "no indirect dimension found in per_dim_subscript_kinds" -/
  | noIndirectDimension
  /-- "$base operand of indirect access tile is not defined by a ktdp.construct_memory_view" -/
  | baseNotView
  /-- "cannot determine the byte size of the $base view's element type" -/
  | unknownElementSize
  /-- "indirect access tile is neither loaded nor stored" -/
  | neitherLoadedNorStored
  /-- "no %s unit co-located with the IAB" -/
  | noUnit (what : String)
  /-- "the IAB's load and store units address %s in different word sizes (%d and %d bytes)" -/
  | differentWordSizes (memorySpace : MemorySpace R) (first second : Nat)
  /-- "%s of the indirect access (%d elements, %d bytes) is not a multiple of the %d-byte word" -/
  | notWholeWords (what : String) (elems bytes : Int) (wordSize : Nat)
  /-- "result %d of per_dim_subscript_maps[%d] cannot be used as an address-buffer subscript" -/
  | subscript (result dim : Nat)
  /-- "failed to allocate address buffer in global memory: %s" -/
  | allocation (reason : AllocateError R)
  /-- An assertion, or something the verifier rules out. -/
  | assertion
  deriving Repr, DecidableEq

/-! ## The device -/

/-- A load or a store feature: the bytes of a word of each memory space. -/
structure LoadStoreAttr (R : Type) where
  getWordSize : MemorySpace R → Nat
  getWordSize_pos : ∀ space, 0 < getWordSize space

/-- A kind of resources: what the exemplar can do and what groups it stands in. -/
structure Kind (R : Type) where
  load : Option (LoadStoreAttr R)
  store : Option (LoadStoreAttr R)
  parentKinds : List Nat

/-- What the device says about resources. `entryType` is that of the indirect address buffer
feature, for the resources that have one. -/
structure Device (R : Type) where
  kinds : List (Kind R)
  parentKinds : R → List Nat
  indirectAddressBuffer : R → Option (Option ElementType)
  memSpaceMapping : MemorySpace R → Option (MemorySpace R)

/-- `AddressBufferInfo`. -/
structure AddressBufferInfo (R : Type) where
  entryType : ElementType
  computeType : ElementType
  globalResource : R
  iabMemSpace : R
  iabBase : SizeT
  loadUnit : Option (Kind R)
  storeUnit : Option (Kind R)
  memSpaceMap : MemorySpace R → Option (MemorySpace R)

/-- `MemoryTree::getRootOf`, in at most as many steps as given. -/
def getRootOf (tree : MemoryTree R) : Nat → MemoryNode R → Option (MemoryNode R)
  | 0, _ => none
  | steps + 1, node =>
      match node.parent with
      | none => some node
      | some parent => (tree.getNode parent).bind (getRootOf tree steps)

/-- `llvm::divideCeil`. -/
def divideCeil (numerator denominator : Nat) : Nat := (numerator + denominator - 1) / denominator

/-- `find_colocated`. -/
def findColocated (device : Device R) (iab : R) (hasFeature : Kind R → Bool) : Option (Kind R) :=
  device.kinds.find? fun kind =>
    hasFeature kind && kind.parentKinds.any fun parent => (device.parentKinds iab).contains parent

/-- Look the indirect address buffer up in the device. -/
def resolveAddressBufferInfo (device : Option (Device R)) (tree : MemoryTree R) :
    Except (SplitError R) (AddressBufferInfo R) :=
  match device with
  | none => .error .noDevice
  | some device =>
      match tree.nodes.find? fun node => (device.indirectAddressBuffer node.memoryResource).isSome with
      | none => .error .noIAB
      | some node =>
          match (device.indirectAddressBuffer node.memoryResource).join with
          | none => .error .noEntryType
          | some (.other _) => .error .entryTypeNotInteger
          | some (.integer signedness width) =>
              let computeType := ElementType.integer .signless width
              match tryGetSizeInBytes computeType, getRootOf tree tree.nodes.length node with
              | some entryBytes, some root =>
                  if entryBytes = 0 then .error .assertion
                  else .ok {
                    entryType := .integer signedness width
                    computeType := computeType
                    globalResource := root.memoryResource
                    iabMemSpace := node.memoryResource
                    iabBase := BitVec.ofNat 64
                      (divideCeil (node.reservedInBytes.getD 0).toNat entryBytes.toNat)
                    loadUnit := findColocated device node.memoryResource (·.load.isSome)
                    storeUnit := findColocated device node.memoryResource (·.store.isSome)
                    memSpaceMap := device.memSpaceMapping }
              | _, _ => .error .assertion

/-! ## Candidates -/

/-- A candidate operation: the function it is in, and that function's module. -/
structure CandidateOp (R : Type) where
  module : Nat
  func : FuncOp R
  op : ConstructIndirectAccessTilesOp R

def Op.asIndirectAccessTiles : Op R → Option (ConstructIndirectAccessTilesOp R)
  | .constructIndirectAccessTiles op => some op
  | _ => none

/-- The candidates of the functions of one module. -/
def collectFromFuncs (module : Nat) : List (FuncOp R) → Except (SplitError R) (List (CandidateOp R))
  | [] => .ok []
  | func :: funcs =>
      match func.ops.filterMap Op.asIndirectAccessTiles with
      | [] => collectFromFuncs module funcs
      | [op] => (collectFromFuncs module funcs).map (⟨module, func, op⟩ :: ·)
      | _ :: _ :: _ => .error (.multipleIndirectOps func.name)

/-- `collectCandidateOps`. -/
def collectCandidateOps : List (ModuleOp R) → Except (SplitError R) (List (CandidateOp R))
  | [] => .ok []
  | child :: top =>
      if isOrchestratorModule child then collectCandidateOps top
      else do
        let here ← collectFromFuncs child.id child.funcs
        let there ← collectCandidateOps top
        return here ++ there

/-- `OrchestratorInfo`: the module, its calls, and the names its symbol table holds at first. -/
structure OrchestratorInfo where
  module : Option Nat
  callSites : List (Nat × String × List Value)

def OrchestratorInfo.getCallSite (orchestrator : OrchestratorInfo) (callee : String) :
    Option (Nat × String × List Value) :=
  orchestrator.callSites.find? fun call => call.2.1 == callee

/-- A call of the input. -/
def Op.asCallSite : Op R → Option (Nat × String × List Value)
  | .call (some site) callee operands => some (site, callee, operands)
  | _ => none

/-- The first callee that is called again. -/
def firstCalledTwice : List String → List String → Option String
  | _, [] => none
  | seen, callee :: callees =>
      if callee ∈ seen then some callee else firstCalledTwice (callee :: seen) callees

/-- `resolveOrchestrator`. -/
def resolveOrchestrator (top : List (ModuleOp R)) : Except (SplitError R) OrchestratorInfo :=
  match top.find? isOrchestratorModule with
  | none => .ok ⟨none, []⟩
  | some module =>
      let calls := module.ops.filterMap Op.asCallSite
      match firstCalledTwice [] (calls.map fun call => call.2.1) with
      | some callee => .error (.calledTwice callee)
      | none => .ok ⟨some module.id, calls⟩

/-- `SplitCandidate`. -/
structure SplitCandidate (R : Type) where
  module : Nat
  func : FuncOp R
  indirectOp : ConstructIndirectAccessTilesOp R
  idxView : ConstructMemoryViewOp R
  idxType : MemRefType
  indirDim : Nat
  baseView : ConstructMemoryViewOp R
  stride : OpFoldResult
  elemBytes : Nat
  wordSize : Nat
  callSite : Option (Nat × String × List Value)
  indAddrBufDimPositions : List Nat
  forwardedArgs : List BlockArgument

/-- `candidate.base_addr`. -/
def SplitCandidate.baseAddr (candidate : SplitCandidate R) : Value := candidate.baseView.offset

/-- `resolveSubscriptPosition`. -/
def resolveSubscriptPosition (builder : Affine.Builder) (subscript : Affine.Expr)
    (zeroCaptured : List Affine.Expr) : Option Nat :=
  match subscript.replaceDims builder zeroCaptured with
  | .dim position => some position
  | .constant 0 => (List.range zeroCaptured.length).find? fun p => subscript.isFunctionOfDim p
  | _ => none

/-- The substitution of zero for the captured variables that are literal zeros. -/
def zeroCaptured (capturedVars : List Value) : List Affine.Expr :=
  capturedVars.mapIdx fun p v =>
    if getConstantIntValue v = some 0 then .constant 0 else .dim p

/-- The loop of `deriveIndAddrBufDimPositions` over the results from number `r` on. -/
def resolvePositions (builder : Affine.Builder) (zeros : List Affine.Expr) (dim : Nat) :
    Nat → List Affine.Expr → Except (SplitError R) (List Nat)
  | _, [] => .ok []
  | r, subscript :: subscripts =>
      match resolveSubscriptPosition builder subscript zeros with
      | none => .error (.subscript r dim)
      | some position =>
          (resolvePositions builder zeros dim (r + 1) subscripts).map (position :: ·)

/-- `deriveIndAddrBufDimPositions`. -/
def deriveIndAddrBufDimPositions (builder : Affine.Builder)
    (indirectOp : ConstructIndirectAccessTilesOp R) (indirDim : Nat) :
    Except (SplitError R) (List Nat) :=
  match indirectOp.perDimSubscriptMaps[indirDim]? with
  | none => .error .assertion
  | some indirMap =>
      resolvePositions builder (zeroCaptured indirectOp.capturedVariables) indirDim 0
        indirMap.results

/-- `resolveWordSize`. -/
def resolveWordSize (indirectOp : ConstructIndirectAccessTilesOp R) (memorySpace : MemorySpace R)
    (layout : AddressBufferInfo R) : Except (SplitError R) Nat :=
  let isLoad := indirectOp.users.contains .load
  let isStore := indirectOp.users.contains .store
  let space := (layout.memSpaceMap memorySpace).getD memorySpace
  let load := layout.loadUnit.bind Kind.load
  let store := layout.storeUnit.bind Kind.store
  match isLoad, isStore, load, store with
  | false, false, _, _ => .error .neitherLoadedNorStored
  | true, _, none, _ => .error (.noUnit "load")
  | true, false, some load, _ => .ok (load.getWordSize space)
  | true, true, some _, none => .error (.noUnit "store")
  | true, true, some load, some store =>
      if load.getWordSize space = store.getWordSize space then .ok (load.getWordSize space)
      else .error (.differentWordSizes space (load.getWordSize space) (store.getWordSize space))
  | false, true, _, none => .error (.noUnit "store")
  | false, true, _, some store => .ok (store.getWordSize space)

/-- A constant has to be a whole number of words. -/
def checkWholeWords (elemBytes wordSize : Nat) (value : Option Int) (what : String) :
    Except (SplitError R) Unit :=
  match value with
  | none => .ok ()
  | some elems =>
      if (elems * elemBytes).tmod wordSize ≠ 0 then
        .error (.notWholeWords what elems (elems * elemBytes) wordSize)
      else .ok ()

/-- `collectForwardedArgs`. -/
def collectForwardedArgs (idxView : ConstructMemoryViewOp R) (baseAddr : Value)
    (stride : OpFoldResult) : List BlockArgument :=
  let strideArgs := match stride with
    | .attr _ => []
    | .value v => walkDependency v
  (walkDependency baseAddr ++ strideArgs ++ walkDependencies idxView.getOperands).eraseDups

/-- The part of `analyzeCandidate` about the index memref. -/
def analyzeIndexMemref (op : ConstructIndirectAccessTilesOp R) (layout : AddressBufferInfo R) :
    Except (SplitError R) (ConstructMemoryViewOp R × MemRefType) :=
  match op.indirectMemrefs with
  | [] => .error .noIndirectMemref
  | _ :: _ :: _ => .error (.manyIndirectMemrefs op.indirectMemrefs.length)
  | [memref] =>
      let type := memref.getType
      if type.elementType ≠ layout.entryType then
        .error (.elementTypeMismatch type.elementType layout.entryType)
      else match memref.getDefiningOp with
        | none => .error .indexNotView
        | some view =>
            if ¬ type.shape.all Option.isSome ∨ view.sizes ≠ [] ∨
                ¬ view.staticSizes.all Option.isSome then .error .dynamicSizes
            else if view.strides ≠ [] ∨ ¬ view.staticStrides.all Option.isSome then
              .error .dynamicStrides
            else .ok (view, type)

/-- A value that is missing is an error. -/
def require {α : Type} (value : Option α) (e : SplitError R) : Except (SplitError R) α :=
  match value with
  | none => .error e
  | some a => .ok a

/-- `analyzeCandidate`. It reads the operation and what was resolved before the first candidate. -/
def analyzeCandidate (builder : Affine.Builder) (layout : AddressBufferInfo R)
    (orchestrator : OrchestratorInfo) (candidate : CandidateOp R) :
    Except (SplitError R) (SplitCandidate R) := do
  let op := candidate.op
  let idx ← analyzeIndexMemref op layout
  let indirDim ← require (op.perDimSubscriptKinds.findIdx? id) .noIndirectDimension
  let baseView ← require op.base.getDefiningOp .baseNotView
  let stride ← require (getMixedValues baseView.staticStrides baseView.strides)[indirDim]? .assertion
  let elemBytes ← require (tryGetSizeInBytes baseView.type.elementType) .unknownElementSize
  let wordSize ← resolveWordSize op baseView.memorySpace layout
  checkWholeWords elemBytes.toNat wordSize (getConstantIntValue baseView.offset) "base address"
  checkWholeWords elemBytes.toNat wordSize stride.getConstantIntValue "stride"
  let positions ← deriveIndAddrBufDimPositions builder op indirDim
  return {
    module := candidate.module
    func := candidate.func
    indirectOp := op
    idxView := idx.1
    idxType := idx.2
    indirDim := indirDim
    baseView := baseView
    stride := stride
    elemBytes := elemBytes.toNat
    wordSize := wordSize
    callSite := orchestrator.getCallSite candidate.func.name
    indAddrBufDimPositions := positions
    forwardedArgs := collectForwardedArgs idx.1 baseView.offset stride }

/-! ## Step 1: the function that resolves the indices -/

/-- `convertElementsToWords`. -/
def convertElementsToWords (elems : Value) (elemBytes wordSize : Nat) : Value :=
  let gcd := Nat.gcd elemBytes wordSize
  let mul := elemBytes / gcd
  let div := wordSize / gcd
  if mul = 1 ∧ div = 1 then elems
  else match getConstantIntValue elems with
    | some value => .constant ((value * mul).tdiv div)
    | none =>
        let words := if mul ≠ 1 then .result .muli [elems, .constant mul] else elems
        if div ≠ 1 then .result .divsi [words, .constant div] else words

def globalMemSpace : MemorySpace R := .ktdp .global (-1)

/-- `createAddressBufferView`. -/
def createAddressBufferView (idxView : ConstructMemoryViewOp R) (baseOffset : Value)
    (elementType : ElementType) : ConstructMemoryViewOp R where
  type := ⟨idxView.type.shape, elementType⟩
  offset := baseOffset
  sizes := []
  strides := []
  staticSizes := idxView.staticSizes
  staticStrides := idxView.staticStrides
  memorySpace := globalMemSpace
  coordinateSet := idxView.coordinateSet

/-- The stride as a value: a constant is materialized. -/
def SplitCandidate.strideValue (candidate : SplitCandidate R) : Value :=
  match candidate.stride with
  | .attr c => .constant c
  | .value v => v

/-- The clone of the index view. -/
def cloneView (mapper : List BlockArgument) (view : ConstructMemoryViewOp R) :
    ConstructMemoryViewOp R :=
  { view with
    offset := materializeDependency mapper view.offset
    sizes := materializeDependencies mapper view.sizes
    strides := materializeDependencies mapper view.strides }

/-- `buildIdxToAddrModule`, without inserting the module. -/
def buildIdxToAddrModule (id : Nat) (name : String) (candidate : SplitCandidate R)
    (addrBufBase : SizeT) (computeType : ElementType) : ModuleOp R :=
  let mapper := candidate.forwardedArgs
  let elemBase := materializeDependency mapper candidate.baseAddr
  let elemStride := materializeDependency mapper candidate.strideValue
  let argBase := convertElementsToWords elemBase candidate.elemBytes candidate.wordSize
  let argStride := convertElementsToWords elemStride candidate.elemBytes candidate.wordSize
  let idxViewClone := cloneView mapper candidate.idxView
  let addrBufView :=
    createAddressBufferView idxViewClone (.constant addrBufBase.toInt) computeType
  { id := id
    symName := some name
    funcs := [{
      name := name
      numArguments := mapper.length
      grid := candidate.func.grid
      body := some [.idx32ToAddr idxViewClone addrBufView argBase argStride] }] }

/-! ## Step 2: the gather or scatter -/

/-- What `rewriteGatherScatterModule` puts in place of the indirect access tile. -/
def gatherScatterOps (candidate : SplitCandidate R) (addrBufBase : SizeT)
    (info : AddressBufferInfo R) : List (Op R) :=
  let op := candidate.indirectOp
  let idxView := candidate.idxView
  let iabView : ConstructMemoryViewOp R := {
    type := ⟨idxView.type.shape, info.computeType⟩
    offset := .constant info.iabBase.toInt
    sizes := []
    strides := []
    staticSizes := idxView.staticSizes
    staticStrides := idxView.staticStrides
    memorySpace := .resource info.iabMemSpace
    coordinateSet := idxView.coordinateSet }
  let addrBufView :=
    createAddressBufferView idxView (.constant addrBufBase.toInt) info.computeType
  let zeroOffsetBaseView := { candidate.baseView with offset := .constant 0 }
  let unifiedDims := op.capturedVariables.length + op.numIntermediateVariables
  let zeroMap : Affine.Map := ⟨unifiedDims, 0, [.constant 0]⟩
  [ .copy addrBufView iabView,
    .constructIndirectAccessTile {
      base := zeroOffsetBaseView
      indAddrBufMemref := iabView
      indAddrBufDimPositions := candidate.indAddrBufDimPositions
      perDimSubscriptMaps := op.perDimSubscriptMaps.set candidate.indirDim zeroMap
      capturedVariables := op.capturedVariables
      numIntermediateVariables := op.numIntermediateVariables
      variablesSpaceOrder := op.variablesSpaceOrder
      variablesSpaceSet := op.variablesSpaceSet
      type := op.type } ]

/-- Rewrite the operations of a function. -/
def FuncOp.mapOps (f : Op R → List (Op R)) (func : FuncOp R) : FuncOp R :=
  { func with body := func.body.map (·.flatMap f) }

def replaceIndirectOp (inserted : List (Op R)) : Op R → List (Op R)
  | .constructIndirectAccessTiles _ => inserted
  | op => [op]

/-- `rewriteGatherScatterModule`. -/
def rewriteGatherScatterModule (candidate : SplitCandidate R) (inserted : List (Op R))
    (module : ModuleOp R) : ModuleOp R :=
  if module.id = candidate.module then
    { module with
      funcs := module.funcs.map fun func =>
        if func.name = candidate.func.name then func.mapOps (replaceIndirectOp inserted) else func }
  else module

/-! ## Step 3: the orchestrator -/

/-- Put a call before the call of the input that is numbered `target`. -/
def insertCall (target : Nat) (callee : String) (operands : List Value) : Op R → List (Op R)
  | .call (some site) callee' operands' =>
      if site = target then [.call none callee operands, .call (some site) callee' operands']
      else [.call (some site) callee' operands']
  | op => [op]

/-- The operands of the new call. A forwarded argument is the operand of the same number. -/
def newOperands (candidate : SplitCandidate R) (callArgs : List Value) : List Value :=
  candidate.forwardedArgs.map fun arg => callArgs.getD arg.number (.constant 0)

/-- `updateOrchestrator`. -/
def updateOrchestrator (orchestrator : OrchestratorInfo) (candidate : SplitCandidate R)
    (idxToAddrFuncName : String) (module : ModuleOp R) : ModuleOp R :=
  match candidate.callSite with
  | none => module
  | some (target, _, callArgs) =>
      if orchestrator.module = some module.id then
        let funcs := module.funcs.map
          (FuncOp.mapOps (insertCall target idxToAddrFuncName (newOperands candidate callArgs)))
        { module with
          funcs :=
            if module.funcs.any fun func => func.name == idxToAddrFuncName then funcs
            else funcs ++ [⟨idxToAddrFuncName, candidate.forwardedArgs.length, none, none⟩] }
      else module

/-! ## The driver -/

/-- The top-level module and the memory tracker. -/
structure State (R : Type) where
  modules : List (ModuleOp R)
  tracker : MemoryTracker R

/-- What one candidate became: its address buffer and the operations of the two halves. -/
structure Split (R : Type) where
  candidate : SplitCandidate R
  allocation : Allocation R
  idxToAddr : ModuleOp R
  inserted : List (Op R)

def freshId (modules : List (ModuleOp R)) : Nat :=
  (modules.map ModuleOp.id).foldr max 0 + 1

/-- Insert a module before the one with the given id. -/
def insertBefore (id : Nat) (new : ModuleOp R) : List (ModuleOp R) → List (ModuleOp R)
  | [] => []
  | m :: modules => if m.id = id then new :: m :: modules else m :: insertBefore id new modules

/-- The three steps, on the top-level module. -/
def rewriteModules (orchestrator : OrchestratorInfo) (candidate : SplitCandidate R) (name : String)
    (idxToAddr : ModuleOp R) (inserted : List (Op R)) (modules : List (ModuleOp R)) :
    List (ModuleOp R) :=
  ((insertBefore candidate.module idxToAddr modules).map
    (rewriteGatherScatterModule candidate inserted)).map
      (updateOrchestrator orchestrator candidate name)

variable [DecidableEq R]

/-- `splitCandidate`. `uniqued` is the name the symbol table of the top-level module gives: of the
names it holds and the one that is asked for. -/
def splitCandidate (uniqued : List String → String → String) (info : AddressBufferInfo R)
    (orchestrator : OrchestratorInfo) (candidate : SplitCandidate R) (s : State R) :
    Except (SplitError R) (Split R) × State R :=
  match tryGetSizeInBytes info.computeType with
  | none => (.error .assertion, s)
  | some bytes =>
      let entryBytes : SizeT := bytes.setWidth 64
      let sizeBytes : SizeT := BitVec.ofNat 64 candidate.idxType.getNumElements * entryBytes
      match s.tracker.allocate info.globalResource sizeBytes entryBytes with
      | (.error reason, tracker) => (.error (.allocation reason), { s with tracker := tracker })
      | (.ok addrBufBase, tracker) =>
          if addrBufBase % entryBytes ≠ 0 then (.error .assertion, { s with tracker := tracker })
          else
            let addrBufOffset := addrBufBase / entryBytes
            let name := uniqued (s.modules.filterMap ModuleOp.symName)
              (candidate.func.name ++ "_idx_to_addr")
            let idxToAddr :=
              buildIdxToAddrModule (freshId s.modules) name candidate addrBufOffset info.computeType
            let inserted := gatherScatterOps candidate addrBufOffset info
            (.ok ⟨candidate, ⟨info.globalResource, sizeBytes, entryBytes, addrBufBase⟩, idxToAddr,
                inserted⟩,
              ⟨rewriteModules orchestrator candidate name idxToAddr inserted s.modules, tracker⟩)

/-- A candidate the pass fails at, and the state it found. -/
structure Failure (R : Type) where
  candidate : CandidateOp R
  error : SplitError R
  found : State R

/-- A run over the candidates: those that were split, the one it failed at, and the final state. -/
structure Run (R : Type) where
  splits : List (Split R)
  failure : Option (Failure R)
  state : State R

/-- The loop of `runOnOperation`. -/
def splitAll (uniqued : List String → String → String) (builder : Affine.Builder)
    (info : AddressBufferInfo R) (orchestrator : OrchestratorInfo) :
    List (CandidateOp R) → State R → Run R
  | [], s => ⟨[], none, s⟩
  | op :: ops, s =>
      match analyzeCandidate builder info orchestrator op with
      | .error e => ⟨[], some ⟨op, e, s⟩, s⟩
      | .ok candidate =>
          match splitCandidate uniqued info orchestrator candidate s with
          | (.error e, s') => ⟨[], some ⟨op, e, s⟩, s'⟩
          | (.ok split, s') =>
              let run := splitAll uniqued builder info orchestrator ops s'
              { run with splits := split :: run.splits }

/-- `runOnOperation`. The pass can also fail before it looks at a candidate. -/
def runOnOperation (uniqued : List String → String → String) (builder : Affine.Builder)
    (device : Option (Device R)) (tree : MemoryTree R) (s : State R) :
    Except (SplitError R) (Run R) := do
  let ops ← collectCandidateOps s.modules
  if ops.isEmpty then return ⟨[], none, s⟩
  else do
    let info ← resolveAddressBufferInfo device tree
    let orchestrator ← resolveOrchestrator s.modules
    return splitAll uniqued builder info orchestrator ops s

end IndirectComputeGroupSplit

end DataflowScheduler
