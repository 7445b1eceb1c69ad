import DataflowScheduler.Util.Components
import DataflowScheduler.Util.Moves

/-!
# Simplification of pipelines: the order of the stages

`orderStages` moves the private op of a pipeline to the top, and then the stages of one strongly
connected component after the other in front of their earliest consumer. A component may have stages
of other pipelines, and what the search emits is a parameter.
-/

namespace DataflowScheduler

namespace OrderStages

abbrev StageId := Nat

/-- An op in the body of a pipeline. -/
inductive BodyOp
  | privateOp
  | stage (stage : StageId)
  | other (op : Nat)
  deriving DecidableEq

def BodyOp.stage? : BodyOp → Option StageId
  | stage s => some s
  | _ => none

/-- A pipeline in the graph of all stages, and the components that `scc_iterator` emits from a stage. -/
structure Pipeline where
  body : List BodyOp
  consumers : StageId → List StageId
  sccs : StageId → List (List StageId)

/-- `getStages`. -/
def stagesOf (body : List BodyOp) : List StageId := body.filterMap BodyOp.stage?

/-! ## Moving a component -/

/-- The earlier one of the earliest consumer so far and another consumer. -/
def earlierConsumer (body : List BodyOp) (scc : List StageId) (earliest : Option StageId)
    (consumer : StageId) : Option StageId :=
  if BodyOp.stage consumer ∉ body ∨ consumer ∈ scc then earliest
  else
    match earliest with
    | none => some consumer
    | some e =>
        if body.idxOf (.stage consumer) < body.idxOf (.stage e) then some consumer else some e

def findEarliestConsumer (body : List BodyOp) (consumers : StageId → List StageId)
    (scc : List StageId) : Option StageId :=
  (scc.flatMap consumers).foldl (earlierConsumer body scc) none

/-- A stage of the component. -/
def inScc (scc : List StageId) : BodyOp → Bool
  | .stage s => scc.contains s
  | _ => false

/-- The body, and whether any stage was moved. -/
def moveInFrontOfConsumers (body : List BodyOp) (consumers : StageId → List StageId)
    (scc : List StageId) : List BodyOp × Bool :=
  match findEarliestConsumer body consumers scc with
  | none => (body, false)
  | some earliest =>
      let front := body.takeWhile (· != .stage earliest)
      let behind := (body.dropWhile (· != .stage earliest)).tail
      (List.movedInFront (inScc scc) front (.stage earliest) behind, behind.any (inScc scc))

/-! ## The loop over the stages -/

structure OrderState where
  body : List BodyOp
  worklist : List StageId
  changed : Bool

/-- Move a component, unless its first stage is no longer in the worklist. -/
def visitScc (p : Pipeline) (s : OrderState) (scc : List StageId) : OrderState :=
  match scc with
  | [] => s
  | front :: rest =>
      if front ∉ s.worklist then s
      else
        let moved := moveInFrontOfConsumers s.body p.consumers (front :: rest)
        ⟨moved.1, s.worklist.filter fun stage => !(front :: rest).contains stage,
          s.changed || moved.2⟩

/-- Search from the first stage of the worklist until none is left. -/
def orderLoop (p : Pipeline) : Nat → OrderState → Option OrderState
  | 0, _ => none
  | fuel + 1, s =>
      match s.worklist with
      | [] => some s
      | root :: _ => orderLoop p fuel ((p.sccs root).foldl (visitScc p) s)

/-- The private op first. -/
def movePrivateOp (body : List BodyOp) : List BodyOp × Bool :=
  if .privateOp ∈ body ∧ body.head? ≠ some .privateOp then
    (.privateOp :: body.erase .privateOp, true)
  else (body, false)

/-- The state in which the search begins. -/
def startState (body : List BodyOp) : OrderState :=
  ⟨(movePrivateOp body).1, stagesOf body, (movePrivateOp body).2⟩

/-- `orderStages`: the body and whether it was modified, if the loop ends within the fuel. -/
def orderStages (p : Pipeline) (fuel : Nat) : Option (List BodyOp × Bool) :=
  (orderLoop p fuel (startState p.body)).map fun s => (s.body, s.changed)

/-! ## What is meant by ordered -/

/-- A token leads from one stage to the other. -/
def Pipeline.Edge (p : Pipeline) (a b : StageId) : Prop := b ∈ p.consumers a

def Pipeline.stages (p : Pipeline) : List StageId := stagesOf p.body

/-- Every op is there once, and components come in reverse topological order. -/
structure Pipeline.Valid (p : Pipeline) : Prop where
  nodup : p.body.Nodup
  emits : ∀ root ∈ p.stages, EmitsComponents p.Edge root (p.sccs root)

/-- The private op comes first, producers come before their consumers outside of their component,
components stay in order, and a change is reported if there is one. -/
structure Ordered (p : Pipeline) (result : List BodyOp × Bool) : Prop where
  perm : result.1.Perm p.body
  privateFirst : .privateOp ∈ p.body → result.1.head? = some .privateOp
  edges : ∀ a ∈ p.stages, ∀ b ∈ p.stages, p.Edge a b → ¬SameComponent p.Edge a b →
    Precedes result.1 (.stage a) (.stage b)
  components : ∀ a b, SameComponent p.Edge a b →
    (Precedes result.1 (.stage a) (.stage b) ↔ Precedes p.body (.stage a) (.stage b))
  changed : result.2 = true ↔ result.1 ≠ p.body

/-- The loop ends. -/
def Pipeline.TerminatesWith (p : Pipeline) (result : List BodyOp × Bool) : Prop :=
  ∃ fuel, orderStages p fuel = some result

/-- A component with stages of the pipeline is emitted with one of them in front, by the first stage of
the pipeline that reaches it. -/
def Pipeline.FrontsInPipeline (p : Pipeline) : Prop :=
  ∀ root ∈ p.stages, ∀ scc ∈ p.sccs root, (∃ a ∈ scc, a ∈ p.stages) →
    (∀ b, Precedes p.stages b root → ∀ a ∈ scc, ¬Relation.ReflTransGen p.Edge b a) →
    ∀ front ∈ scc.head?, front ∈ p.stages

end OrderStages

end DataflowScheduler
