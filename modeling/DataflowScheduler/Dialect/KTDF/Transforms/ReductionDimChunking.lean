import DataflowScheduler.Dialect.KTDF.Analysis.ReductionChunkAnalysis

/-!
# Chunking of reduction dimensions

The pass cuts the input of a reduction into chunks, with a loop for each reduction dimension that has
more than one. Each iteration sends one chunk, whose shape is that of the input with the chunk sizes of
the loops in place of the sizes. The buffer of the input has a dimension for slots in front of the
dimensions of the input.
-/

namespace DataflowScheduler

namespace ReductionDimChunking

/-- What `rewriteComputeStage` is called with. -/
structure ChunkPlan where
  reductionDims : List Nat
  chunkSizes : List Dim
  perDimNumChunks : List Nat

/-- What becomes of a pipeline. -/
inductive Outcome
  | skipped
  | failed (error : String)
  | chunked (plan : ChunkPlan)

/-- The reduction dimensions to chunk automatically: not the innermost loop. -/
def chunkableDims (g : GenericOp) : List Nat :=
  if g.getReductionDims.getLast? = some (g.numLoops - 1) then g.getReductionDims.dropLast
  else g.getReductionDims

/-- The number of chunks of a dimension. A dynamic one has no loop. -/
def dimNumChunks (dimSize chunkSize : Dim) : Nat :=
  match dimSize, chunkSize with
  | some size, some chunk => size / chunk
  | _, _ => 1

/-- One chunk on every dimension leaves the reduction as it is. -/
def finishPlan (plan : ChunkPlan) : Outcome :=
  if plan.perDimNumChunks.all (· == 1) then .skipped else .chunked plan

/-- The counts of chunks inferred from the threshold. -/
def autoPlan (g : GenericOp) (chunkSizeThreshold : Int) : Outcome :=
  if chunkableDims g = [] then .skipped
  else
    match analyzeReductionChunks g chunkSizeThreshold with
    | none =>
        .failed "reduction-dim-chunking: ReductionChunkAnalysis could not infer chunk count"
    | some result =>
        match computeChunkDims (result.redDimSizes.map some) result.numChunks with
        | none => .failed ("reduction-dim-chunking: chunk count could not be fully distributed " ++
            "across the chunkable reduction dimensions")
        | some chunkDims => finishPlan
            { reductionDims := chunkableDims g
              chunkSizes := chunkDims
              perDimNumChunks := (List.zipWith dimNumChunks (result.redDimSizes.map some)
                chunkDims).take (chunkableDims g).length }

/-- The chunk size of a dimension for a given number of chunks. -/
def explicitChunkSize (dimSize : Dim) (nchunk : Nat) : Option Nat :=
  dimSize.bind fun size => if nchunk = 0 ∨ size % nchunk ≠ 0 then none else some (size / nchunk)

/-- The counts of chunks given by the user. -/
def explicitPlan (g : GenericOp) (numChunks : List Nat) : Outcome :=
  let reductionDims := g.getReductionDims
  if reductionDims = [] then .failed "reduction-dim-chunking: could not find reduction dimension"
  else if numChunks.length ≠ reductionDims.length then
    .failed ("reduction-dim-chunking: numChunks has " ++ toString numChunks.length ++
      " entries but there are " ++ toString reductionDims.length ++ " reduction dims")
  else
    match (reductionDims.zip numChunks).mapM fun (dim, nchunk) =>
        explicitChunkSize (g.loopRanges.getD dim none) nchunk with
    | none => .skipped
    | some chunkSizes => finishPlan ⟨reductionDims, chunkSizes.map some, numChunks⟩

/-- `transformPipeline`. -/
def transformPipeline (g : GenericOp) (numChunks : List Nat) (chunkSizeThreshold : Int) : Outcome :=
  if g.isContraction then .skipped
  else if numChunks = [] then autoPlan g chunkSizeThreshold
  else explicitPlan g numChunks

/-! ## The chunks -/

/-- `chunk_input_shape`. A reduction dimension is taken for one of the input. -/
def ChunkPlan.chunkInputShape (plan : ChunkPlan) (inputShape : List Dim) : Option (List Dim) :=
  (plan.reductionDims.zip plan.chunkSizes).foldlM
    (fun shape (dim, chunk) => if dim < shape.length then some (shape.set dim chunk) else none)
    inputShape

/-- The chunk size of the `j`th dimension. -/
def ChunkPlan.chunkSize (plan : ChunkPlan) (j : Nat) : Nat := (plan.chunkSizes.getD j none).getD 0

/-- The induction variables of an iteration, 0 for a dimension without a loop. -/
def ChunkPlan.Iteration (plan : ChunkPlan) (ivs : List Nat) : Prop :=
  ivs.length = plan.reductionDims.length ∧
    ∀ j < plan.reductionDims.length, ivs.getD j 0 < plan.perDimNumChunks.getD j 0

/-- Where the window of an iteration begins in a dimension of the input, and its size. -/
def ChunkPlan.window (plan : ChunkPlan) (ivs : List Nat) (i dimSize : Nat) : Nat × Nat :=
  if i ∈ plan.reductionDims then
    let j := plan.reductionDims.idxOf i
    (ivs.getD j 0 * plan.chunkSize j, plan.chunkSize j)
  else (0, dimSize)

/-- An element is sent by an iteration. -/
def ChunkPlan.Sends (plan : ChunkPlan) (sizes ivs x : List Nat) : Prop :=
  ∀ i < sizes.length, (plan.window ivs i (sizes.getD i 0)).1 ≤ x.getD i 0 ∧
    x.getD i 0 < (plan.window ivs i (sizes.getD i 0)).1 + (plan.window ivs i (sizes.getD i 0)).2

/-- The windows stay in the input, and each of its elements is in the one of exactly one iteration. -/
structure ChunkPlan.CoversOnce (plan : ChunkPlan) (sizes : List Nat) : Prop where
  inside : ∀ ivs, plan.Iteration ivs → ∀ i < sizes.length,
    (plan.window ivs i (sizes.getD i 0)).1 + (plan.window ivs i (sizes.getD i 0)).2 ≤ sizes.getD i 0
  once : ∀ x : List Nat, (∀ i < sizes.length, x.getD i 0 < sizes.getD i 0) →
    ∃! ivs, plan.Iteration ivs ∧ plan.Sends sizes ivs x

/-- The innermost loop is not chunked, the chunk of an iteration fits the threshold, and the chunks are
the input. -/
structure ChunksInput (type : TensorType) (bitWidth : Nat) (sizes : List Nat) (g : GenericOp)
    (threshold : Int) (plan : ChunkPlan) : Prop where
  innermost : g.numLoops - 1 ∉ plan.reductionDims
  fits : ∃ shape chunk, plan.chunkInputShape type.shape = some shape ∧
    staticSizes shape = some chunk ∧ ((chunk.prod * bitWidth : Nat) : Int) ≤ 8 * threshold
  covers : plan.CoversOnce sizes

/-! ## When the chunks fit -/

/-- The product of the sizes of the dimensions that may have loops. -/
def chunkableSize (g : GenericOp) : Nat :=
  ((chunkableDims g).map fun dim => (g.loopRanges.getD dim none).getD 0).prod

/-- The smallest number of chunks of at most as many bytes as the threshold. -/
def smallestCount (totalBytes : Nat) (threshold : Int) : Nat := totalBytes / (threshold.toNat + 1) + 1

/-- The dimensions with loops are dimensions of the input of the same sizes. -/
def DimsOfInput (g : GenericOp) (inputShape : List Dim) : Prop :=
  ∀ dim ∈ chunkableDims g, inputShape[dim]? = some (g.loopRanges.getD dim none)

/-- The smallest number of chunks divides the product of the sizes of the dimensions with loops. If
elements are no whole bytes, or the number has more than 32 bits, what these dimensions take of it is
enough. -/
def CountFits (g : GenericOp) (bitWidth elements : Nat) (threshold : Int) : Prop :=
  if bitWidth % 8 = 0 ∧ smallestCount (bitWidth / 8 * elements) threshold < 2 ^ 32 then
    smallestCount (bitWidth / 8 * elements) threshold ∣ chunkableSize g
  else
    elements * bitWidth ≤ 8 * threshold.toNat *
      Nat.gcd (smallestCount (bitWidth / 8 * elements) threshold % 2 ^ 32) (chunkableSize g)

end ReductionDimChunking

end DataflowScheduler
