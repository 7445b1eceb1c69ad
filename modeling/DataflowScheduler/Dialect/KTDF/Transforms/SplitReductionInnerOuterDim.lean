import DataflowScheduler.Util.IndexSpaces
import DataflowScheduler.Util.StraightLine

/-!
# Splitting a reduction into an outer and an inner one

A `linalg.generic` that reduces several dimensions becomes two: the first reduces all of them but
the rightmost, the second that one. Tensors have static shapes, and an affine map is the list of the
loop dimensions it returns.
-/

namespace SplitReductionInnerOuterDim

open RowMajor StraightLine

/-! ## Generics -/

inductive IteratorType where
  | parallel
  | reduction
  deriving DecidableEq

/-- The block of a generic: its operations, by name with attributes, over the block arguments, and
what it yields. The arguments are the elements of the inputs, then those of the outputs. -/
structure Body where
  lines : List (Line String Nat)
  yields : List (Operand Nat)

/-- A `linalg.generic` on tensors. The shapes of its operands are told by the sizes of its loops. -/
structure GenericOp where
  iterator_types : List IteratorType
  sizes : List Nat
  input_maps : List (List Nat)
  output_maps : List (List Nat)
  body : Body

/-- The generics that `linalg` accepts, with maps that are projected permutations. -/
structure GenericOp.WellFormed (g : GenericOp) : Prop where
  sizes_length : g.sizes.length = g.iterator_types.length
  has_output : g.output_maps ≠ []
  map_lt : ∀ map ∈ g.input_maps ++ g.output_maps, ∀ d ∈ map, d < g.sizes.length
  map_nodup : ∀ map ∈ g.input_maps ++ g.output_maps, map.Nodup
  covered : ∀ d < g.sizes.length, ∃ map ∈ g.input_maps ++ g.output_maps, d ∈ map
  parallel : ∀ d, g.iterator_types[d]? = some .parallel → ∀ map ∈ g.output_maps, d ∈ map
  reduction : ∀ d, g.iterator_types[d]? = some .reduction → ∀ map ∈ g.output_maps, d ∉ map
  yields_length : g.body.yields.length = g.output_maps.length
  ordered : Ordered g.body.lines

/-! ### What a generic computes -/

/-- A tensor, by its elements. -/
abbrev Tensor (V : Type) := List Nat → V

variable {V : Type} [Inhabited V]

/-- What the block arguments are worth at the point `i` of the loops. -/
def GenericOp.arguments (g : GenericOp) (inputs outputs : Nat → Tensor V) (i : List Nat) (k : Nat) :
    V :=
  if k < g.input_maps.length then inputs k (select (g.input_maps.getD k []) i)
  else
    let r := k - g.input_maps.length
    outputs r (select (g.output_maps.getD r []) i)

/-- What the block yields for the result `r`. -/
def Body.yielded (b : Body) (interp : String → List V → V) (arguments : Nat → V) (r : Nat) : V :=
  match b.yields[r]? with
  | some operand => operand.value arguments (values interp arguments [] b.lines)
  | none => default

/-- One point of the loops: every output takes what is yielded for it. -/
def GenericOp.step (g : GenericOp) (interp : String → List V → V) (inputs outputs : Nat → Tensor V)
    (i : List Nat) : Nat → Tensor V := fun r o =>
  if o = select (g.output_maps.getD r []) i then
    g.body.yielded interp (g.arguments inputs outputs i) r
  else outputs r o

/-- The results, from the given contents of the outputs on. -/
def GenericOp.run (g : GenericOp) (interp : String → List V → V) (inputs outputs : Nat → Tensor V) :
    Nat → Tensor V :=
  (points g.sizes).foldl (g.step interp inputs) outputs

/-! ## The candidates -/

/-- The reduction dimensions by their place in the first input. -/
def collectReductionDims (g : GenericOp) : List Nat :=
  (g.input_maps.headD []).filter fun d => g.iterator_types[d]? = some .reduction

def isEligible (isaContractionOpInterface : GenericOp → Bool) (g : GenericOp) : Bool :=
  decide (2 ≤ (g.iterator_types.filter (· = .reduction)).length) &&
    match (g.input_maps.headD []).getLast? with
    | some d => !isaContractionOpInterface g && decide (g.iterator_types[d]? = some .reduction)
    | none => false

structure CandidateInfo where
  inner_dim : Nat
  outer_dims : List Nat

/-- The rightmost reduction dimension is the inner one, the others are the outer ones. The inner one
is asserted to be as long as a vector. -/
def partitionReductionDims (g : GenericOp) (vector_length : Nat) : Option CandidateInfo :=
  match (collectReductionDims g).getLast? with
  | some inner =>
    if g.sizes.getD inner 0 = vector_length then
      some ⟨inner, (collectReductionDims g).dropLast⟩
    else none
  | none => none

/-! ## The body of the second generic -/

/-- The operation that defines a value of the block. -/
def Body.definingOp (b : Body) : Operand Nat → Option (Line String Nat)
  | .given _ => none
  | .line j => b.lines[j]?

/-- Whether the running value is `side` or reaches it through one operation. -/
def reaches (b : Body) (running side : Operand Nat) : Bool :=
  decide (side = running) ||
    match b.definingOp side with
    | some through => decide (through.operands = [running])
    | none => false

/-- The unary operation that computes a side, if one does. -/
def Body.through (b : Body) (side : Operand Nat) : Option String :=
  match b.definingOp side with
  | some ⟨op, [_]⟩ => some op
  | _ => none

/-- What stands in for a side: the unary operation that computes it rebuilt over `argument` where
there is one, else `argument` itself. -/
def standIn (b : Body) (lines : List (Line String Nat)) (side argument : Operand Nat) :
    List (Line String Nat) × Operand Nat :=
  match b.through side with
  | some op => (lines ++ [⟨op, [argument]⟩], .line lines.length)
  | none => (lines, argument)

/-- Accumulates the result `r` in the new block: the operation that accumulated it, over the partial
result and the running one. -/
def combine (b : Body) (src_inputs results : Nat) (new : Body) (r : Nat) : Option Body :=
  match (b.yields[r]?).bind b.definingOp with
  | some ⟨op, [first, second]⟩ =>
    let running : Operand Nat := .given (src_inputs + r)
    let partialResult : Operand Nat := .given r
    let carried : Operand Nat := .given (results + r)
    let running_first := reaches b running first
    if ¬ running_first ∧ ¬ reaches b running second then none
    else
      let (lines, left) := standIn b new.lines first (if running_first then carried else partialResult)
      let (lines, right) := standIn b lines second (if running_first then partialResult else carried)
      some ⟨lines ++ [⟨op, [left, right]⟩], new.yields ++ [.line lines.length]⟩
  | _ => none

def buildCombinerBody (g : GenericOp) : Option Body :=
  (List.range g.output_maps.length).foldlM
    (combine g.body g.input_maps.length g.output_maps.length) ⟨[], []⟩

/-! ## The split -/

/-- The first generic loops over the dimensions of the first input, in its order. It keeps the inner
dimension, and reduces the outer ones. -/
def firstGeneric (g : GenericOp) (info : CandidateInfo) : GenericOp :=
  let input_map := g.input_maps.headD []
  let g1_in_map := List.range input_map.length
  let g1_out_map := (input_map.filter (· ∉ info.outer_dims)).map (input_map.idxOf ·)
  { iterator_types := input_map.map fun d =>
      if d ∈ info.outer_dims then .reduction
      else if d = info.inner_dim then .parallel
      else g.iterator_types.getD d .parallel
    sizes := select input_map g.sizes
    input_maps := List.replicate g.input_maps.length g1_in_map
    output_maps := List.replicate g.output_maps.length g1_out_map
    body := g.body }

/-- The dimensions the second generic loops over. -/
def keptDims (g : GenericOp) (info : CandidateInfo) : List Nat :=
  (List.range g.iterator_types.length).filter (· ∉ info.outer_dims)

/-- The second generic loops over all dimensions but the outer ones, and reduces the inner one. All
its outputs have the map of the last output. -/
def secondGeneric (g : GenericOp) (info : CandidateInfo) (body : Body) : GenericOp :=
  let input_map := g.input_maps.headD []
  let output_map := g.output_maps.getLastD []
  let kept := keptDims g info
  let g2_in_map := (input_map.filter (· ∉ info.outer_dims)).map (kept.idxOf ·)
  let g2_out_map := output_map.map (kept.idxOf ·)
  { iterator_types := kept.map fun d => if d = info.inner_dim then .reduction else .parallel
    sizes := select kept g.sizes
    input_maps := List.replicate g.output_maps.length g2_in_map
    output_maps := List.replicate g.output_maps.length g2_out_map
    body := body }

/-- The two generics. The inputs of the second are the results of the first. -/
def splitDim (g : GenericOp) (info : CandidateInfo) : Option (GenericOp × GenericOp) := do
  let body ← buildCombinerBody g
  some (firstGeneric g info, secondGeneric g info body)

/-- The pass at one generic. -/
def splitReduction (isaContractionOpInterface : GenericOp → Bool) (g : GenericOp)
    (vector_length : Nat) : Option (GenericOp × GenericOp) :=
  if isEligible isaContractionOpInterface g then
    (partitionReductionDims g vector_length).bind (splitDim g)
  else none

end SplitReductionInnerOuterDim
