import Mathlib.Data.List.Sort
import DataflowScheduler.Util.Lists
import DataflowScheduler.Util.Moves

/-!
# FIFO slots in the order of their use

A FIFO delivers its slots in the order they are written. `orderFifo` sorts the slots that one block
writes and another reads by where their values are consumed, and gathers the writes and the reads in
that order, each where the earliest of them stood.
-/

namespace DataflowScheduler

namespace OrderFifoSlotsByUse

abbrev Value := Nat

/-- A use of what a read takes: the op of the block it is in, by its place in the block, and its place
in the body where that op is a `linalg.generic`. `none` is a use outside the block. -/
abbrev Use := Option (Nat × Nat)

structure Op where
  id : Nat
  operands : List Value
  results : List Value
  isMemoryEffectFree : Bool
  isDataTransfer : Bool
  uses : List Use
  deriving Repr, DecidableEq

def Op.touchesMemory (op : Op) : Bool := !op.isMemoryEffectFree

/-- A FIFO slot with the one op writing it and the one op reading it. -/
structure SlotAccess where
  slot : Value
  writer : Op
  reader : Op
  deriving Repr, DecidableEq

/-- Keys are compared as pairs are. -/
def less (lhs rhs : Nat × Nat) : Bool := lhs.1 < rhs.1 || lhs.1 == rhs.1 && lhs.2 < rhs.2

def smaller (key : Option (Nat × Nat)) (candidate : Nat × Nat) : Option (Nat × Nat) :=
  match key with
  | some key => some (if less candidate key then candidate else key)
  | none => some candidate

/-- `getConsumptionKey`. -/
def getConsumptionKey (block : List Op) (reader : Op) : Option (Nat × Nat) :=
  if reader.isDataTransfer then some (block.idxOf reader, 0)
  else (reader.uses.foldlM (fun key (use : Use) => use.map (smaller key)) none).join

/-- `moveIntoOrder`. `none` is `false`, with the block unchanged. -/
def moveIntoOrder (block ops : List Op) (keepMemoryOrder : Bool) : Option (List Op) := do
  let first ← block.find? (· ∈ ops)
  let last ← (block.filter (· ∈ ops)).getLast?
  let behind := block.dropWhile (· != first)
  if keepMemoryOrder && !(behind.takeWhile (· != last)).all fun op =>
      op ∈ ops || op.isMemoryEffectFree then none
  -- an operand that is defined behind the first does not dominate it
  else if ops.any fun op => op.operands.any fun v => behind.any fun d => v ∈ d.results then none
  else some (block.gather first ops)

/-- `in_order`. -/
def inOrder (block ops : List Op) : Bool :=
  ops.IsChain fun previous op => ¬block.idxOf op < block.idxOf previous

/-- Ops that already follow the order are left alone. -/
def reorder (block ops : List Op) (keepMemoryOrder : Bool) : Option (List Op) :=
  if inOrder block ops then some block else moveIntoOrder block ops keepMemoryOrder

/-- The order the consumer takes the slots in. -/
def sortByKey (keyed : List ((Nat × Nat) × SlotAccess)) : List SlotAccess :=
  (keyed.mergeSort fun lhs rhs => !less rhs.1 lhs.1).map Prod.snd

/-- `orderFifo`, on the blocks of the writes and of the reads. -/
def orderFifo (accesses : List SlotAccess) (writerBlock readerBlock : List Op) :
    List Op × List Op :=
  match accesses.mapM fun access =>
      (getConsumptionKey readerBlock access.reader).map (·, access) with
  | none => (writerBlock, readerBlock)
  | some keyed =>
      let writers := (sortByKey keyed).map SlotAccess.writer
      let readers := (sortByKey keyed).map SlotAccess.reader
      if inOrder writerBlock writers && inOrder readerBlock readers then (writerBlock, readerBlock)
      else
        -- The writes go first, as they are the side that can fail.
        match reorder writerBlock writers true with
        | none => (writerBlock, readerBlock)
        | some writerBlock => (writerBlock, (reorder readerBlock readers false).getD readerBlock)

/-! ## What stays -/

/-- No op uses what is defined behind it. -/
def Defined (block : List Op) : Prop :=
  block.Pairwise fun op later => ∀ v ∈ op.operands, v ∉ later.results

/-- The ops that touch memory, with the moved ones not told apart. -/
def memoryOrder (ops block : List Op) : List (Option Op) :=
  (block.filter Op.touchesMemory).map fun op => if op ∈ ops then none else some op

/-- What moving some ops of a block keeps. -/
structure Kept (ops block block' : List Op) : Prop where
  moved : block'.filter (· ∈ ops) = ops
  others : block'.filter (· ∉ ops) = block.filter (· ∉ ops)
  defined : Defined block → Defined block'

variable {block ops : List Op}

theorem memoryOrder_append (l l' : List Op) :
    memoryOrder ops (l ++ l') = memoryOrder ops l ++ memoryOrder ops l' := by simp [memoryOrder]

theorem memoryOrder_eq_replicate {l : List Op} (h : ∀ op ∈ l, op.touchesMemory → op ∈ ops) :
    memoryOrder ops l = List.replicate (l.filter Op.touchesMemory).length none := by
  rw [memoryOrder, List.map_eq_replicate_iff]
  exact fun op hop => if_pos (by grind)

/-- Where all that touches memory up to the last of the ops is moved, the order of memory stays. -/
theorem memoryOrder_gather {upTo rear : List Op} (hnodup : (upTo ++ rear).Nodup) (hops : ops.Nodup)
    (hmem : ops ⊆ upTo ++ rear) (hmoved : ∀ op ∈ upTo, op.touchesMemory → op ∈ ops)
    (hrear : ∀ op ∈ rear, op ∉ ops) :
    memoryOrder ops (ops ++ (upTo ++ rear).filter fun op => !decide (op ∈ ops)) =
      memoryOrder ops (upTo ++ rear) := by
  have hcount : (ops.filter Op.touchesMemory).length = (upTo.filter Op.touchesMemory).length :=
    ((List.perm_ext_iff_of_nodup (by grind) (by grind)).mpr fun op => by grind).length_eq
  have hkept : memoryOrder ops (upTo.filter fun op => !decide (op ∈ ops)) = [] :=
    List.map_eq_nil_iff.mpr (List.filter_eq_nil_iff.mpr fun op hop => by grind)
  have hrest : rear.filter (fun op => !decide (op ∈ ops)) = rear := by simpa using hrear
  rw [List.filter_append, hrest]
  simp only [memoryOrder_append, hkept]
  rw [memoryOrder_eq_replicate fun op hop _ => hop, memoryOrder_eq_replicate hmoved, hcount]
  rfl

/-- Where some ops of a block lie: from the first of them to the last. -/
theorem exists_split {first last : Op} (hfirst : block.find? (· ∈ ops) = some first)
    (hlast : (block.filter (· ∈ ops)).getLast? = some last) (hnodup : block.Nodup) :
    ∃ front behind between rear, block = front ++ first :: behind ∧ first ∉ front ∧
      (∀ op ∈ front, op ∉ ops) ∧ first :: behind = between ++ last :: rear ∧ last ∉ between ∧
      ∀ op ∈ rear, op ∉ ops := by
  obtain ⟨hf, front, behind, hblock, hfront⟩ := List.find?_eq_some_iff_append.mp hfirst
  have hmem : last ∈ block ∧ last ∈ ops := by simpa using List.mem_of_getLast? hlast
  have hmem : last ∈ first :: behind := by grind
  obtain ⟨between, rear, hsplit⟩ := List.append_of_mem hmem
  refine ⟨front, behind, between, rear, hblock, by grind, by grind, hsplit, by grind, ?_⟩
  -- behind the last there is none
  have hrear : rear.filter (· ∈ ops) = [] := by
    by_contra hne
    rw [hblock, hsplit, ← List.append_assoc, List.filter_append, List.filter_cons_of_pos (by grind),
      List.getLast?_append_of_ne_nil _ (by simp), List.getLast?_cons_of_ne_nil hne] at hlast
    have := List.mem_of_getLast? hlast
    grind
  intro op hop
  simpa using List.filter_eq_nil_iff.mp hrear op hop

/-- The ops are moved together, in order, or nothing is: and then other ops that touch memory keep
their places among them if they are to. -/
theorem moveIntoOrder_eq_some (hblock : block.Nodup) (hops : ops.Nodup) (hmem : ops ⊆ block)
    {keepMemoryOrder : Bool} {block' : List Op}
    (h : moveIntoOrder block ops keepMemoryOrder = some block') :
    Kept ops block block' ∧
      (keepMemoryOrder → memoryOrder ops block' = memoryOrder ops block) := by
  unfold moveIntoOrder at h
  obtain ⟨first, hfirst, h⟩ := Option.bind_eq_some_iff.mp h
  obtain ⟨last, hlast, h⟩ := Option.bind_eq_some_iff.mp h
  obtain ⟨front, behind, between, rear, rfl, hfresh, hfront, hsplit, hbetween, hrear⟩ :=
    exists_split hfirst hlast hblock
  have hin : first ∈ ops := by simpa using List.find?_some hfirst
  dsimp only at h
  rw [(List.takeWhile_append_cons_self hfresh).2] at h
  have hsub : ops ⊆ first :: behind := fun op hop => by
    have := hmem hop
    grind
  split at h
  · cases h
  · next hmemory =>
    split at h
    · cases h
    · next hoperands =>
      rw [List.gather_eq hblock hsub hin hops, Option.some.injEq] at h
      subst h
      have hperm : ((first :: behind).filter (· ∈ ops)).Perm ops :=
        (List.perm_ext_iff_of_nodup (by grind) hops).mpr fun op => by grind
      have hall := (hperm.append_right _).symm.trans (List.filter_append_perm (· ∈ ops) _)
      rw [List.append_assoc]
      refine ⟨⟨?_, ?_, fun hdef => ?_⟩, fun hkeep => ?_⟩ <;> simp only [decide_not]
      · have : front.filter (· ∈ ops) = [] := by simpa using hfront
        rw [List.filter_append, List.filter_append, this, List.filter_filter]
        simp
      · have : ops.filter (fun op => !decide (op ∈ ops)) = [] := by simp
        rw [List.filter_append, List.filter_append, List.filter_append, this, List.filter_filter]
        simp
      · -- what is moved reads nothing that is defined from the first on
        have hreads : ∀ op ∈ ops, ∀ d ∈ first :: behind, ∀ v ∈ op.operands, v ∉ d.results :=
          fun op hop d hd v hv hres => hoperands <| List.any_eq_true.mpr ⟨op, hop,
            List.any_eq_true.mpr ⟨v, hv, List.any_eq_true.mpr ⟨d, hd, decide_eq_true hres⟩⟩⟩
        obtain ⟨hd, hd', hcross⟩ := List.pairwise_append.mp hdef
        refine List.pairwise_append.mpr ⟨hd, List.pairwise_append.mpr ⟨?_,
          hd'.sublist List.filter_sublist, fun op hop d hd => ?_⟩, fun op hop d hd => ?_⟩
        · exact List.pairwise_of_forall_mem_list fun op hop d hd => hreads op hop d (hsub hd)
        · exact hreads op hop d (List.mem_of_mem_filter hd)
        · exact hcross op hop d (hall.mem_iff.mp hd)
      · -- what touches memory up to the last is moved
        rw [hkeep, hsplit, (List.takeWhile_append_cons_self hbetween).1] at hmemory
        have hlast : last ∈ ops := by grind
        have hcons : first :: behind = (between ++ [last]) ++ rear := by simp [hsplit]
        rw [memoryOrder_append, memoryOrder_append front, hcons]
        exact congrArg _ <| memoryOrder_gather (hcons ▸ (List.nodup_append.mp hblock).2.1) hops
          (hcons ▸ hsub) (by grind [Op.touchesMemory]) hrear

theorem filter_of_inOrder (hblock : block.Nodup) (hops : ops.Nodup) (hmem : ops ⊆ block)
    (h : inOrder block ops) : block.filter (· ∈ ops) = ops := by
  have hsorted : block.Pairwise fun a b => block.idxOf a ≤ block.idxOf b :=
    List.pairwise_iff_getElem.mpr fun i j hi hj hij => by
      rw [hblock.idxOf_getElem, hblock.idxOf_getElem]
      exact hij.le
  have hchain : ops.IsChain fun a b => block.idxOf a ≤ block.idxOf b := by
    simpa [inOrder] using h
  have hperm : (block.filter (· ∈ ops)).Perm ops :=
    (List.perm_ext_iff_of_nodup (hblock.filter _) hops).mpr fun op => by grind
  refine hperm.eq_of_pairwise (fun a b ha hb hle hle' => ?_) (hsorted.sublist List.filter_sublist)
    (@List.IsChain.pairwise _ _ _ ⟨fun hab hbc => Nat.le_trans hab hbc⟩ hchain)
  exact (List.idxOf_inj (hmem (hperm.subset ha))).mp (Nat.le_antisymm hle hle')

theorem reorder_eq_some (hblock : block.Nodup) (hops : ops.Nodup) (hmem : ops ⊆ block)
    {keepMemoryOrder : Bool} {block' : List Op}
    (h : reorder block ops keepMemoryOrder = some block') :
    Kept ops block block' ∧
      (keepMemoryOrder → memoryOrder ops block' = memoryOrder ops block) := by
  unfold reorder at h
  split at h
  · next hin =>
    cases h
    exact ⟨⟨filter_of_inOrder hblock hops hmem hin, rfl, id⟩, fun _ => rfl⟩
  · exact moveIntoOrder_eq_some hblock hops hmem h

/-- Reads always move. -/
theorem exists_reorder (hmem : ops ⊆ block)
    (hreads : ∀ op ∈ ops, ∀ v ∈ op.operands, ∀ d ∈ block, v ∉ d.results) :
    ∃ block', reorder block ops false = some block' := by
  unfold reorder
  split
  · exact ⟨_, rfl⟩
  · next hin =>
    obtain ⟨op, hop⟩ := List.exists_mem_of_ne_nil ops fun hnil => hin (by rw [hnil]; rfl)
    have hsome : (block.find? (· ∈ ops)).isSome ∧ ((block.filter (· ∈ ops)).getLast?).isSome := by
      have := hmem hop
      grind
    obtain ⟨first, hfirst⟩ := Option.isSome_iff_exists.mp hsome.1
    obtain ⟨last, hlast⟩ := Option.isSome_iff_exists.mp hsome.2
    refine ⟨block.gather first ops, ?_⟩
    rw [moveIntoOrder, hfirst, hlast]
    simpa using fun op hop v hv d hd =>
      hreads op hop v hv d ((List.dropWhile_sublist _).subset hd)

/-- What is known of the accesses of a FIFO: each has its own write in the one block and its own read
in the other, and reads take only their slot, which no op of their block defines. -/
structure Known (accesses : List SlotAccess) (writerBlock readerBlock : List Op) : Prop where
  nodup_writerBlock : writerBlock.Nodup
  nodup_readerBlock : readerBlock.Nodup
  nodup_writers : (accesses.map SlotAccess.writer).Nodup
  nodup_readers : (accesses.map SlotAccess.reader).Nodup
  writers : accesses.map SlotAccess.writer ⊆ writerBlock
  readers : accesses.map SlotAccess.reader ⊆ readerBlock
  reads : ∀ access ∈ accesses, ∀ v ∈ access.reader.operands, ∀ op ∈ readerBlock, v ∉ op.results

/-- An order in which the values the reads take are consumed. -/
structure ByConsumption (block : List Op) (accesses order : List SlotAccess) : Prop where
  perm : order.Perm accesses
  sorted : order.Pairwise fun a b => ∃ key ∈ getConsumptionKey block a.reader,
    ∃ key' ∈ getConsumptionKey block b.reader, ¬less key' key

variable {accesses order : List SlotAccess} {writerBlock readerBlock writes reads : List Op}

theorem byConsumption_sortByKey {keyed : List ((Nat × Nat) × SlotAccess)}
    (h : accesses.mapM (fun access => (getConsumptionKey block access.reader).map (·, access)) =
      some keyed) : ByConsumption block accesses (sortByKey keyed) := by
  have hkeyed := (List.forall₂_of_mapM h).imp (S := fun access entry => access = entry.2 ∧
      getConsumptionKey block entry.2.reader = some entry.1) fun access entry h => by
    obtain ⟨key, hkey, rfl⟩ := Option.map_eq_some_iff.mp h
    exact ⟨rfl, hkey⟩
  have hsnd : accesses = keyed.map Prod.snd :=
    List.forall₂_eq_eq_eq ▸ List.forall₂_map_right_iff.mpr (hkeyed.imp fun _ _ h => h.1)
  have hkey {entry} (hentry : entry ∈ keyed.mergeSort fun lhs rhs => !less rhs.1 lhs.1) :
      entry.1 ∈ getConsumptionKey block entry.2.reader := by
    obtain ⟨_, -, -, hkey⟩ := hkeyed.exists_of_mem_right (List.mem_mergeSort.mp hentry)
    exact hkey
  refine ⟨hsnd ▸ (List.mergeSort_perm ..).map Prod.snd, List.pairwise_map.mpr ?_⟩
  refine (List.pairwise_mergeSort (fun a b c => ?_) (fun a b => ?_) keyed).imp_of_mem
    fun ha hb hab => ⟨_, hkey ha, _, hkey hb, by simpa using hab⟩
  all_goals grind [less]

/-- Both blocks take the slots in the order they are consumed in, and the rest is kept. -/
structure TakenInOrder (accesses : List SlotAccess) (writerBlock readerBlock : List Op)
    (order : List SlotAccess) (writes reads : List Op) : Prop where
  consumed : ByConsumption readerBlock accesses order
  keptWrites : Kept (order.map SlotAccess.writer) writerBlock writes
  keptReads : Kept (order.map SlotAccess.reader) readerBlock reads
  memory : memoryOrder (order.map SlotAccess.writer) writes =
    memoryOrder (order.map SlotAccess.writer) writerBlock

theorem Known.takenInOrder (h : Known accesses writerBlock readerBlock)
    (horder : ByConsumption readerBlock accesses order)
    (hwrites : reorder writerBlock (order.map SlotAccess.writer) true = some writes)
    (hreads : reorder readerBlock (order.map SlotAccess.reader) false = some reads) :
    TakenInOrder accesses writerBlock readerBlock order writes reads := by
  have hperm := horder.perm
  obtain ⟨hkept, hmemory⟩ := reorder_eq_some h.nodup_writerBlock
    ((hperm.map _).nodup_iff.mpr h.nodup_writers)
    (fun _ hop => h.writers ((hperm.map _).subset hop)) hwrites
  exact ⟨horder, hkept, (reorder_eq_some h.nodup_readerBlock
    ((hperm.map _).nodup_iff.mpr h.nodup_readers)
    (fun _ hop => h.readers ((hperm.map _).subset hop)) hreads).1, hmemory rfl⟩

/-- The slots are taken in order, or neither block is changed: a value is consumed outside its block,
or the writes cannot be moved. -/
def InStep (accesses : List SlotAccess) (writerBlock readerBlock : List Op)
    (result : List Op × List Op) : Prop :=
  (∃ order, TakenInOrder accesses writerBlock readerBlock order result.1 result.2) ∨
    result = (writerBlock, readerBlock) ∧
      ((∃ access ∈ accesses, getConsumptionKey readerBlock access.reader = none) ∨
        ∃ order, ByConsumption readerBlock accesses order ∧
          moveIntoOrder writerBlock (order.map SlotAccess.writer) true = none)

/-- Slot 1 is written first, and slot 0 is consumed first. -/
def twoSlots : List SlotAccess :=
  [⟨0, ⟨1, [0], [], false, false, []⟩, ⟨3, [0], [10], true, false, [some (2, 0)]⟩⟩,
    ⟨1, ⟨0, [1], [], false, false, []⟩, ⟨2, [1], [11], true, false, [some (2, 1)]⟩⟩]

def slotWrites : List Op := twoSlots.reverse.map SlotAccess.writer

def slotReads : List Op := twoSlots.reverse.map SlotAccess.reader ++ [⟨4, [10, 11], [], true, false, []⟩]

end OrderFifoSlotsByUse

end DataflowScheduler
