import DataflowScheduler.Util.Components
import DataflowScheduler.Util.SetVector

/-!
# Simplification of pipelines: tokens

The dependencies between the stages of a pipeline are tokens: a stage outputs some and awaits some.
`normalizeTokens` gives every stage with a consumer one token of its own, and `reduceDependencies`
also drops the edges that a path through another strongly connected component implies. A pipeline is
the list of its stages with their tokens; what else uses a token is only known to exist.
-/

namespace DataflowScheduler

namespace SimplifyPipeline

abbrev StageId := Nat
abbrev Token := Nat

/-- A pipeline, the users of tokens outside of its stages, and the next token to create. -/
structure Pipeline where
  stages : List StageId
  dependsIn : StageId → List Token
  dependsOut : StageId → List Token
  usedElsewhere : Token → Bool
  nextToken : Token

/-- What `ConsumerEdgeIterator` enumerates for a stage: its output tokens with the stages that await
them, in some order. -/
abbrev ConsumerEdges := StageId → List (Token × StageId)

def isLocalToken (p : Pipeline) (token : Token) : Bool := !p.usedElsewhere token

def isUniqueTo (p : Pipeline) (token : Token) (producer : StageId) : Bool :=
  p.stages.all fun stage => stage == producer || !(p.dependsOut stage).contains token

def mergeTokens (p : Pipeline) (current target : List Token) : List Token :=
  SetVector.insertAll
    (SetVector.ofList (current.filter fun token => !isLocalToken p token || target.contains token))
    target

/-! ## Rewriting the tokens -/

/-- The edges to keep, as pairs of a producer and a consumer. -/
def keptEdges (p : Pipeline) (edges : ConsumerEdges) (keep : StageId → StageId → Bool) :
    List (StageId × StageId) :=
  p.stages.flatMap fun stage =>
    ((edges stage).filter fun edge => isLocalToken p edge.1 && keep stage edge.2).map fun edge =>
      (stage, edge.2)

/-- The keys of `producers`. -/
def consumersOf (kept : List (StageId × StageId)) : List StageId :=
  SetVector.ofList (kept.map Prod.snd)

/-- The entry of a consumer in `producers`. -/
def producersOf (kept : List (StageId × StageId)) (consumer : StageId) : List StageId :=
  SetVector.ofList ((kept.filter fun edge => edge.2 == consumer).map Prod.fst)

/-- `unique_out`, and the next token to create. -/
structure UniqueOut where
  tokenOf : StageId → Option Token
  nextToken : Token

/-- A token of the producer that is local and unique to it. -/
def findUniqueToken (p : Pipeline) (producer : StageId) : Option Token :=
  (p.dependsOut producer).find? fun token => isLocalToken p token && isUniqueTo p token producer

/-- The producer gets a token. -/
def UniqueOut.assign (unique : UniqueOut) (producer : StageId) (token nextToken : Token) : UniqueOut :=
  ⟨Function.update unique.tokenOf producer (some token), nextToken⟩

/-- Reuse a token unique to the producer, or create one. -/
def UniqueOut.add (p : Pipeline) (unique : UniqueOut) (producer : StageId) : UniqueOut :=
  if (unique.tokenOf producer).isSome then unique
  else
    match findUniqueToken p producer with
    | some token => unique.assign producer token unique.nextToken
    | none => unique.assign producer unique.nextToken (unique.nextToken + 1)

/-- The tokens of all producers, consumer by consumer. -/
def uniqueOut (p : Pipeline) (kept : List (StageId × StageId)) : UniqueOut :=
  ((consumersOf kept).flatMap (producersOf kept)).foldl (UniqueOut.add p) ⟨fun _ => none, p.nextToken⟩

/-- The tokens a stage is to await. Every producer has one. -/
def inTarget (kept : List (StageId × StageId)) (unique : UniqueOut) (stage : StageId) : List Token :=
  (producersOf kept stage).filterMap unique.tokenOf

/-- The tokens a stage awaits and outputs after the rewrite. -/
def rewrittenTokens (p : Pipeline) (kept : List (StageId × StageId)) (stage : StageId) :
    List Token × List Token :=
  let unique := uniqueOut p kept
  (mergeTokens p (p.dependsIn stage) (inTarget kept unique stage),
    mergeTokens p (p.dependsOut stage) (unique.tokenOf stage).toList)

/-- `rewriteTokens`: the pipeline, and whether it was modified. Unused tokens are dropped in the end,
which no stage sees. -/
def rewriteTokens (p : Pipeline) (edges : ConsumerEdges) (keep : StageId → StageId → Bool) :
    Pipeline × Bool :=
  let kept := keptEdges p edges keep
  ({ p with
      dependsIn := fun stage =>
        if stage ∈ p.stages then (rewrittenTokens p kept stage).1 else p.dependsIn stage
      dependsOut := fun stage =>
        if stage ∈ p.stages then (rewrittenTokens p kept stage).2 else p.dependsOut stage
      nextToken := (uniqueOut p kept).nextToken },
    p.stages.any fun stage =>
      rewrittenTokens p kept stage != (p.dependsIn stage, p.dependsOut stage))

/-- `normalizeTokens`. -/
def normalizeTokens (p : Pipeline) (edges : ConsumerEdges) : Pipeline × Bool :=
  rewriteTokens p edges fun _ _ => true

/-! ## Reducing the dependencies -/

/-- The consumers of a stage in `LocalStageGraph`, one entry an edge. -/
def localConsumers (p : Pipeline) (edges : ConsumerEdges) (stage : StageId) : List StageId :=
  ((edges stage).filter fun edge => isLocalToken p edge.1).map Prod.snd

/-- `scc_of`. Every stage is numbered in the end. -/
def sccOf (p : Pipeline) (sccs : StageId → List (List StageId)) (stage : StageId) : Nat :=
  ((ComponentNumbers.ofRoots sccs p.stages).numberOf stage).getD 0

/-- `successors`. -/
def successors (p : Pipeline) (edges : ConsumerEdges) (sccs : StageId → List (List StageId))
    (source target : Nat) : Bool :=
  p.stages.any fun stage => (localConsumers p edges stage).any fun consumer =>
    sccOf p sccs stage == source && sccOf p sccs consumer == target && source != target

/-- `reduceDependencies`. `sccs` is what `scc_iterator` emits from each root in `LocalStageGraph`. -/
def reduceDependencies (p : Pipeline) (edges : ConsumerEdges) (sccs : StageId → List (List StageId)) :
    Pipeline × Bool :=
  let numSccs := (ComponentNumbers.ofRoots sccs p.stages).count
  let closure := NumberReachability.compute numSccs (successors p edges sccs)
  rewriteTokens p edges fun producer consumer =>
    sccOf p sccs producer == sccOf p sccs consumer ||
      !closure.implied (sccOf p sccs producer) (sccOf p sccs consumer)

end SimplifyPipeline

end DataflowScheduler
