import DataflowScheduler.Util.ControlEdits

/-!
# The self-synchronization of indirect transfers

An indirect transfer reads its addresses from an address buffer that a data transfer of the same unit
fills. Both are asynchronous, so the lowering of the indirect transfer emits a synchronization of the
unit with itself: in front of the indirect transfer, hoisted out of loops, or behind the fill where
that is guarded.
-/

namespace DataflowScheduler

namespace SelfSync

open ControlFlow ControlFlow.Body

/-- A memref, a FIFO slot or a memory unit. -/
abbrev Value := Nat

/-- The ops of the source, and the synchronization emitted for one of them. -/
inductive OpId where
  | source (n : Nat)
  | sync (transfer : OpId)
  deriving DecidableEq

/-- The plain ops in the body of a program unit. `loweredTransfer` stands for what a data transfer is
lowered to. -/
inductive Op where
  | dataTransfer (destination : Value)
  | indDataTransfer (iab : Value)
  | loweredTransfer (destination : Value)
  | compositeIndirectLoadAndStore (iab : Value)
  | syncSend
  | other
  deriving DecidableEq

/-- A program unit: its body, the users of a value in the order of its use list, the memory unit a
value is a view of and the views of a unit in the order of its use list. -/
structure ProgramUnit where
  body : Body OpId Op
  users : Value → List OpId
  fromUnit : Value → Option Value
  views : Value → List Value

/-! ### The fill of an address buffer -/

/-- The first user of a view that is a transfer to it. -/
def findFillOf (p : ProgramUnit) (body : Body OpId Op) (view : Value) : Option OpId :=
  (p.users view).find? fun user => decide (body.op? user = some (.dataTransfer view))

/-- The transfer that fills an address buffer: to the view itself, or to another view of its unit. -/
def findIabFill (p : ProgramUnit) (body : Body OpId Op) (iab : Value) : Option OpId :=
  match findFillOf p body iab with
  | some fill => some fill
  | none =>
    match p.fromUnit iab with
    | none => none
    | some unit => (p.views unit).findSome? fun other =>
      if other = iab then none else findFillOf p body other

/-! ### The synchronization -/

/-- The blocks that hold an op around the fill. -/
def fillAncestorBlocks (body : Body OpId Op) (fill : OpId) : List (Place OpId) :=
  (body.around .top fill).map (·.place)

/-- Go out from the transfer, in front of each loop, up to one that stands in such a block. -/
def hoist (blocks : List (Place OpId)) : OpId → List (Ancestor OpId) → OpId
  | insertionOp, [] => insertionOp
  | insertionOp, cursor :: outer =>
    if cursor.isLoop then
      if cursor.place ∈ blocks then insertionOp else hoist blocks cursor.id outer
    else hoist blocks insertionOp outer

/-- The place of the synchronization: the end of the block of a fill in a guard that is not around the
transfer, otherwise in front of the op reached by hoisting. -/
def insertionPoint (body : Body OpId Op) (transfer fill : OpId) : Event OpId :=
  let hoisted := .enter (hoist (fillAncestorBlocks body fill) transfer
    (body.around .top transfer).reverse)
  match body.place .top fill with
  | some (.inArm guardIf side) =>
    if guardIf ∈ (body.around .top transfer).map (·.id) then hoisted else .leave guardIf side
  | _ => hoisted

def emitSelfSyncIndirect (body : Body OpId Op) (transfer fill : OpId) : Body OpId Op :=
  body.insertBefore (insertionPoint body transfer fill) (.sync transfer) .syncSend

/-! ### The lowering of all transfers -/

/-- The patterns for data transfers and indirect transfers. -/
def matchAndRewrite (p : ProgramUnit) (body : Body OpId Op) (op : OpId) : Body OpId Op :=
  match body.op? op with
  | some (.dataTransfer destination) => body.setOp op (.loweredTransfer destination)
  | some (.indDataTransfer iab) =>
    let synced := match findIabFill p body iab with
      | some fill => emitSelfSyncIndirect body op fill
      | none => body
    synced.setOp op (.compositeIndirectLoadAndStore iab)
  | _ => body

/-- The greedy driver fills its worklist in postorder and takes the ops from its end: what stands
further down in the text is lowered first. -/
def runOperationLowerings (p : ProgramUnit) : Body OpId Op :=
  p.body.leaves.reverse.foldl (matchAndRewrite p) p.body

/-! ### Hazards -/

/-- Two values are views of one buffer. -/
def sameBuffer (p : ProgramUnit) (v w : Value) : Bool :=
  decide (v = w) || (decide (p.fromUnit v = p.fromUnit w) && (p.fromUnit v).isSome)

/-- A data transfer fills the address buffer of an indirect transfer. -/
def fills (p : ProgramUnit) (transfer fill : OpId) : Bool :=
  match p.body.op? transfer, p.body.op? fill with
  | some (.indDataTransfer iab), some (.dataTransfer destination) => sameBuffer p iab destination
  | _, _ => false

/-- **No hazard**: on every path of the lowered body the synchronization of an indirect transfer
stands between a fill of its buffer and the transfer, and is executed after a fill only. -/
structure Synchronized (p : ProgramUnit) : Prop where
  between : ∀ t, (runOperationLowerings p).Path t → ∀ before mid after transfer fill,
    fills p transfer fill = true →
    t = before ++ .enter fill :: (mid ++ .enter transfer :: after) → .enter (.sync transfer) ∈ mid
  afterFill : ∀ t, (runOperationLowerings p).Path t → ∀ before after transfer,
    t = before ++ .enter (.sync transfer) :: after → ∃ fill, fills p transfer fill = true ∧
      .enter fill ∈ before

/-- The body, the use lists and the views of a program unit fit together, and nothing is lowered. -/
structure WellFormed (p : ProgramUnit) : Prop where
  nodup : p.body.ids.Nodup
  source : ∀ op ∈ p.body.ids, ∃ n, op = .source n
  users_source : ∀ v, ∀ op ∈ p.users v, ∃ n, op = .source n
  mem_users : ∀ op v, p.body.op? op = some (.dataTransfer v) → op ∈ p.users v
  mem_views : ∀ v unit, v ∈ p.views unit ↔ p.fromUnit v = some unit

/-! ### When there is none -/

/-- The ops in front of another in the text. -/
def inFront (p : ProgramUnit) (op : OpId) : List OpId := p.body.leaves.takeWhile (· ≠ op)

/-- The users of the views of a buffer in the order in which they are looked at. -/
def candidates (p : ProgramUnit) (iab : Value) : List (OpId × Value) :=
  (p.users iab).map (·, iab) ++ match p.fromUnit iab with
    | none => []
    | some unit => ((p.views unit).filter (· ≠ iab)).flatMap fun other =>
      (p.users other).map (·, other)

/-- The first fill among those in front of the transfer. -/
def fillInFront (p : ProgramUnit) (transfer : OpId) (iab : Value) : Option OpId :=
  ((candidates p iab).find? fun c => decide (c.1 ∈ inFront p transfer) &&
    decide (p.body.op? c.1 = some (.dataTransfer c.2))).map (·.1)

/-- The loops around the transfer, from inside out, up to the first that stands in a block with an op
around the fill. -/
def loopsPassed (p : ProgramUnit) (transfer fill : OpId) : List (Ancestor OpId) :=
  ((p.body.around .top transfer).reverse.filter (·.isLoop)).takeWhile
    (·.place ∉ fillAncestorBlocks p.body fill)

/-- No fill stands in these loops, and one is executed before the transfer on every path. -/
def filledBefore (p : ProgramUnit) (transfer fill : OpId) : Bool :=
  (loopsPassed p transfer fill).all (fun k => (p.body.under (.op k.id)).all fun op =>
    !fills p transfer op) && p.body.mustPrecede (fills p transfer) transfer

/-- What the fill that is found has to be like. -/
def served (p : ProgramUnit) (transfer : OpId) (iab : Value) : Bool :=
  match fillInFront p transfer iab with
  | none => p.body.leaves.all fun op => !(fills p transfer op && p.body.mayPrecede op transfer)
  | some fill =>
    match p.body.place .top fill with
    | some (.inArm guardIf side) =>
      if guardIf ∈ (p.body.around .top transfer).map (·.id) then filledBefore p transfer fill
      else p.body.leaves.all fun op => !(fills p transfer op && p.body.mayPrecede op transfer) ||
        decide (op ∈ p.body.under (.arm guardIf side))
    | _ => filledBefore p transfer fill

end SelfSync

end DataflowScheduler
