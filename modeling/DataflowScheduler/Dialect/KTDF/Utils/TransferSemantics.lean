import DataflowScheduler.Dialect.KTDF.Utils.DataTransfers
import DataflowScheduler.Util.Writes

/-!
# The meaning of a block of transfers

What the operations of a block do to a memory and to FIFOs. The data of a tensor is the list of its
elements in row-major order, which reshapes keep. What is read from a FIFO depends on all that was read
from it and written to it before, in any way.
-/

namespace DataflowScheduler

namespace DataTransfers

open Affine Operands RowMajor

variable {A V : Type}

/-! ## States -/

/-- What happened to a FIFO. -/
inductive Event (V : Type) where
  | read
  | wrote (data : List V)
  deriving Repr, DecidableEq

/-- What a block runs on: its index values, what an entry of an address buffer says, what a FIFO gives
after its history, and what the other operations compute. -/
structure Machine (V : Type) where
  arguments : Nat → Int
  entry : V → Int
  fifo : FifoSlot → List (Event V) → List V
  compute : Nat → List (List V) → List V

structure State (A V : Type) where
  memory : A → V
  fifos : FifoSlot → List (Event V)
  values : TensorValue → List V

namespace State

variable (σ : State A V)

def define (v : TensorValue) (data : List V) : State A V :=
  { σ with values := Function.update σ.values v data }

def push (slot : FifoSlot) (event : Event V) : State A V :=
  { σ with fifos := Function.update σ.fifos slot (σ.fifos slot ++ [event]) }

def write [DecidableEq A] (locations : List A) (data : List V) : State A V :=
  { σ with memory := Writes.store σ.memory (locations.zip data) }

theorem define_values_self (v : TensorValue) (data : List V) :
    (σ.define v data).values v = data := Function.update_self _ _ _

@[simp] theorem push_fifos (slot : FifoSlot) (event : Event V) :
    (σ.push slot event).fifos = Function.update σ.fifos slot (σ.fifos slot ++ [event]) := rfl

end State

/-! ## Running a block -/

namespace Machine

variable (m : Machine V)

def sizes (sizes : List OpFoldResult) : List Nat :=
  sizes.map fun size => (size.eval m.arguments).toNat

/-- The indices of a slice. -/
def indices (slice : List Range) : List (List Int) :=
  box (slice.map fun range => range.offset.eval m.arguments) (m.sizes (slice.map Range.size))
    (slice.map fun range => range.stride.eval m.arguments)

/-- Where a transfer starts. -/
def start (access : TransferAccess) : List Int :=
  access.map.eval (fun k => (access.indices.map (Value.eval m.arguments)).getD k 0) fun _ => 0

/-- A contiguous access. -/
def accessIndices (access : TransferAccess) : List (List Int) :=
  box (m.start access) (m.sizes access.sizes) (access.sizes.map fun _ => 1)

/-- The indices of the source elements in the order of the destination: one by one, or repeated along
the source dimensions of size one. -/
def transferIndices (mode : TransferMode) (source : TransferAccess) (dest : List OpFoldResult) :
    List (List Int) :=
  match mode with
  | .copy => m.accessIndices source
  | .splat => (points (m.sizes dest)).map fun index =>
      boxAt (m.start source) (source.sizes.map fun _ => 1)
        (List.zipWith (fun i size => if size = 1 then 0 else i) index (m.sizes source.sizes))

/-- Where an indirect access is: as far away as the entry says. -/
def locateIndirect (memory : A → V) (indAddrBuf : Ref A) (index : Value) (base : Ref A) :
    List Int → A :=
  base.locate (m.entry (memory (indAddrBuf.locate 0 [index.eval m.arguments])))

/-- The elements of a tensor of a shape at some of its indices. -/
def extract [Inhabited V] (shape : List Nat) (data : List V) (indices : List (List Int)) : List V :=
  indices.map fun index =>
    ((((points shape).map fun p => p.map Int.ofNat).zip data).lookup index).getD default

end Machine

def Side.sizes : Side A → List OpFoldResult
  | .memory _ access => access.sizes
  | .fifo _ sizes => sizes

section Run

variable [DecidableEq A] [Inhabited V] (m : Machine V)

/-- Put transferred data to the destination. -/
def Side.put (σ : State A V) (data : List V) : Side A → State A V
  | .memory ref access => σ.write ((m.accessIndices access).map (ref.locate 0)) data
  | .fifo slot _ => σ.push slot (.wrote data)

/-- What an operation does. -/
def Op.run (σ : State A V) : Op A → State A V
  | load r source slice =>
      σ.define r ((m.indices slice).map fun i => σ.memory (source.locate 0 i))
  | store v dest slice => σ.write ((m.indices slice).map (dest.locate 0)) (σ.values v)
  | indLoad r _ indAddrBuf index base slice =>
      σ.define r ((m.indices slice).map fun i =>
        σ.memory (m.locateIndirect σ.memory indAddrBuf index base i))
  | indStore v _ indAddrBuf index base slice =>
      σ.write ((m.indices slice).map (m.locateIndirect σ.memory indAddrBuf index base)) (σ.values v)
  | reshape r v _ => σ.define r (σ.values v)
  | extractSlice r v sourceSizes slice =>
      σ.define r (Machine.extract (m.sizes sourceSizes) (σ.values v) (m.indices slice))
  | readFromFifo r slot _ => (σ.push slot .read).define r (m.fifo slot (σ.fifos slot))
  | writeToFifo v slot => σ.push slot (.wrote (σ.values v))
  | compute r kernel vs => σ.define r (m.compute kernel (vs.map σ.values))
  | dataTransfer (.memory source access) dest mode =>
      dest.put m σ ((m.transferIndices mode access dest.sizes).map fun i =>
        σ.memory (source.locate 0 i))
  | dataTransfer (.fifo slot _) dest _ =>
      dest.put m (σ.push slot .read) (m.fifo slot (σ.fifos slot))
  | gather indAddrBuf index base access slot _ =>
      σ.push slot (.wrote ((m.accessIndices access).map fun i =>
        σ.memory (m.locateIndirect σ.memory indAddrBuf index base i)))
  | scatter slot _ indAddrBuf index base access =>
      (σ.push slot .read).write
        ((m.accessIndices access).map (m.locateIndirect σ.memory indAddrBuf index base))
        (m.fifo slot (σ.fifos slot))

def run (block : Block A) (σ : State A V) : State A V := block.foldl (Op.run m) σ

@[simp] theorem run_nil (σ : State A V) : run m [] σ = σ := rfl

@[simp] theorem run_cons (op : Op A) (ops : Block A) (σ : State A V) :
    run m (op :: ops) σ = run m ops (op.run m σ) := rfl

theorem run_append (ops ops' : Block A) (σ : State A V) :
    run m (ops ++ ops') σ = run m ops' (run m ops σ) := List.foldl_append

end Run

/-! ## What operations touch -/

section Touch

variable (m : Machine V)

/-- The memory an operation reads. -/
def Op.reads (σ : State A V) : Op A → List A
  | load _ source slice => (m.indices slice).map (source.locate 0)
  | indLoad _ _ indAddrBuf index base slice =>
      indAddrBuf.locate 0 [index.eval m.arguments] ::
        (m.indices slice).map (m.locateIndirect σ.memory indAddrBuf index base)
  | indStore _ _ indAddrBuf index _ _ => [indAddrBuf.locate 0 [index.eval m.arguments]]
  | dataTransfer (.memory source access) dest mode =>
      (m.transferIndices mode access dest.sizes).map (source.locate 0)
  | gather indAddrBuf index base access _ _ =>
      indAddrBuf.locate 0 [index.eval m.arguments] ::
        (m.accessIndices access).map (m.locateIndirect σ.memory indAddrBuf index base)
  | scatter _ _ indAddrBuf index _ _ => [indAddrBuf.locate 0 [index.eval m.arguments]]
  | _ => []

/-- The memory an operation writes. -/
def Op.writes (σ : State A V) : Op A → List A
  | store _ dest slice => (m.indices slice).map (dest.locate 0)
  | indStore _ _ indAddrBuf index base slice =>
      (m.indices slice).map (m.locateIndirect σ.memory indAddrBuf index base)
  | dataTransfer _ (.memory dest access) _ => (m.accessIndices access).map (dest.locate 0)
  | scatter _ _ indAddrBuf index base access =>
      (m.accessIndices access).map (m.locateIndirect σ.memory indAddrBuf index base)
  | _ => []

/-- The FIFOs an operation reads. -/
def Op.fifosRead : Op A → List FifoSlot
  | readFromFifo _ slot _ => [slot]
  | dataTransfer (.fifo slot _) _ _ => [slot]
  | scatter slot _ _ _ _ _ => [slot]
  | _ => []

/-- The FIFOs an operation reads or writes. -/
def Op.fifos : Op A → List FifoSlot
  | readFromFifo _ slot _ => [slot]
  | writeToFifo _ slot => [slot]
  | dataTransfer (.fifo slot _) (.fifo slot' _) _ => [slot, slot']
  | dataTransfer (.fifo slot _) (.memory _ _) _ => [slot]
  | dataTransfer (.memory _ _) (.fifo slot _) _ => [slot]
  | gather _ _ _ _ slot _ => [slot]
  | scatter slot _ _ _ _ _ => [slot]
  | _ => []

/-- The memory a block writes. -/
def writtenBy [DecidableEq A] [Inhabited V] : Block A → State A V → List A
  | [], _ => []
  | op :: ops, σ => op.writes m σ ++ writtenBy ops (op.run m σ)

end Touch

/-! ## Frames -/

section Frames

variable [DecidableEq A] [Inhabited V] {m : Machine V} {σ : State A V}

omit [Inhabited V] in
theorem store_zip_of_not_mem {memory : A → V} {locations : List A} {data : List V} {a : A}
    (h : a ∉ locations) : Writes.store memory (locations.zip data) a = memory a := by
  apply Writes.store_of_not_mem
  rintro ⟨b, v⟩ hb rfl
  exact h (List.of_mem_zip hb).1

theorem Op.run_memory {op : Op A} {a : A} (h : a ∉ op.writes m σ) :
    (op.run m σ).memory a = σ.memory a := by
  cases op with
  | store v dest slice => exact store_zip_of_not_mem h
  | indStore v type indAddrBuf index base slice => exact store_zip_of_not_mem h
  | scatter slot sizes indAddrBuf index base access => exact store_zip_of_not_mem h
  | dataTransfer source dest mode =>
      cases source with
      | memory ref access =>
          cases dest with
          | memory ref' access' => exact store_zip_of_not_mem h
          | fifo slot sizes => rfl
      | fifo slot sizes =>
          cases dest with
          | memory ref' access' => exact store_zip_of_not_mem h
          | fifo slot' sizes' => rfl
  | load r source slice => rfl
  | indLoad r type indAddrBuf index base slice => rfl
  | reshape r v type => rfl
  | extractSlice r v sizes slice => rfl
  | readFromFifo r slot type => rfl
  | writeToFifo v slot => rfl
  | compute r kernel vs => rfl
  | gather indAddrBuf index base access slot sizes => rfl

theorem run_memory {ops : Block A} {a : A} (h : a ∉ writtenBy m ops σ) :
    (run m ops σ).memory a = σ.memory a := by
  induction ops generalizing σ with
  | nil => rfl
  | cons op ops ih =>
      rw [writtenBy, List.mem_append, not_or] at h
      rw [run_cons, ih h.2, Op.run_memory h.1]

theorem Op.run_values {op : Op A} {v : TensorValue} (h : op.result? ≠ some v) :
    (op.run m σ).values v = σ.values v := by
  have hdefine : ∀ (r : TensorValue) (τ : State A V) (data : List V), some r ≠ some v →
      (τ.define r data).values v = τ.values v := by
    intro r τ data hr
    exact Function.update_of_ne (fun hv => hr (congrArg some hv.symm)) _ _
  cases op with
  | load r source slice => exact hdefine r _ _ h
  | indLoad r type indAddrBuf index base slice => exact hdefine r _ _ h
  | reshape r v type => exact hdefine r _ _ h
  | extractSlice r v sizes slice => exact hdefine r _ _ h
  | readFromFifo r slot type => exact hdefine r _ _ h
  | compute r kernel vs => exact hdefine r _ _ h
  | dataTransfer source dest mode => cases source <;> cases dest <;> rfl
  | store v dest slice => rfl
  | indStore v type indAddrBuf index base slice => rfl
  | writeToFifo v slot => rfl
  | gather indAddrBuf index base access slot sizes => rfl
  | scatter slot sizes indAddrBuf index base access => rfl

theorem run_values {ops : Block A} {v : TensorValue} (h : ∀ op ∈ ops, op.result? ≠ some v) :
    (run m ops σ).values v = σ.values v := by
  induction ops generalizing σ with
  | nil => rfl
  | cons op ops ih =>
      rw [List.forall_mem_cons] at h
      rw [run_cons, ih h.2, Op.run_values h.1]

theorem Op.run_fifos {op : Op A} {slot : FifoSlot} (h : slot ∉ op.fifos) :
    (op.run m σ).fifos slot = σ.fifos slot := by
  have hpush : ∀ (s : FifoSlot) (τ : State A V) (event : Event V), slot ≠ s →
      (τ.push s event).fifos slot = τ.fifos slot := by
    intro s τ event hs
    exact Function.update_of_ne hs _ _
  cases op with
  | readFromFifo r s type => exact hpush s _ _ (List.ne_of_not_mem_cons h)
  | writeToFifo v s => exact hpush s _ _ (List.ne_of_not_mem_cons h)
  | gather indAddrBuf index base access s sizes => exact hpush s _ _ (List.ne_of_not_mem_cons h)
  | scatter s sizes indAddrBuf index base access => exact hpush s _ _ (List.ne_of_not_mem_cons h)
  | dataTransfer source dest mode =>
      cases source with
      | memory ref access =>
          cases dest with
          | memory ref' access' => rfl
          | fifo s sizes => exact hpush s _ _ (List.ne_of_not_mem_cons h)
      | fifo s sizes =>
          cases dest with
          | memory ref' access' => exact hpush s _ _ (List.ne_of_not_mem_cons h)
          | fifo s' sizes' =>
              have hs := List.ne_of_not_mem_cons h
              have hs' := List.ne_of_not_mem_cons (List.not_mem_of_not_mem_cons h)
              exact (hpush s' _ _ hs').trans (hpush s _ _ hs)
  | load r source slice => rfl
  | store v dest slice => rfl
  | indLoad r type indAddrBuf index base slice => rfl
  | indStore v type indAddrBuf index base slice => rfl
  | reshape r v type => rfl
  | extractSlice r v sizes slice => rfl
  | compute r kernel vs => rfl

theorem run_fifos {ops : Block A} {slot : FifoSlot} (h : ∀ op ∈ ops, slot ∉ op.fifos) :
    (run m ops σ).fifos slot = σ.fifos slot := by
  induction ops generalizing σ with
  | nil => rfl
  | cons op ops ih =>
      rw [List.forall_mem_cons] at h
      rw [run_cons, ih h.2, Op.run_fifos h.1]

/-- States that agree except for some values and FIFOs. -/
structure AgreeOff (vs : List TensorValue) (slots : List FifoSlot) (σ τ : State A V) : Prop where
  memory : σ.memory = τ.memory
  fifos : ∀ slot ∉ slots, σ.fifos slot = τ.fifos slot
  values : ∀ v ∉ vs, σ.values v = τ.values v

variable {τ : State A V} {vs : List TensorValue} {slots : List FifoSlot}

omit [DecidableEq A] [Inhabited V] in
theorem AgreeOff.define (h : AgreeOff vs slots σ τ) (r : TensorValue) {data data' : List V}
    (hdata : data = data') : AgreeOff vs slots (σ.define r data) (τ.define r data') := by
  refine ⟨h.memory, h.fifos, fun v hv => ?_⟩
  subst hdata
  show Function.update σ.values r data v = Function.update τ.values r data v
  by_cases hr : v = r
  · subst hr
    rw [Function.update_self, Function.update_self]
  · rw [Function.update_of_ne hr, Function.update_of_ne hr, h.values v hv]

omit [DecidableEq A] [Inhabited V] in
theorem AgreeOff.push (h : AgreeOff vs slots σ τ) (slot : FifoSlot) {event event' : Event V}
    (hevent : event = event') : AgreeOff vs slots (σ.push slot event) (τ.push slot event') := by
  refine ⟨h.memory, fun s hs => ?_, h.values⟩
  subst hevent
  show Function.update σ.fifos slot _ s = Function.update τ.fifos slot _ s
  by_cases heq : s = slot
  · subst heq
    rw [Function.update_self, Function.update_self, h.fifos s hs]
  · rw [Function.update_of_ne heq, Function.update_of_ne heq, h.fifos s hs]

omit [Inhabited V] in
theorem AgreeOff.write (h : AgreeOff vs slots σ τ) (locations : List A) {data data' : List V}
    (hdata : data = data') : AgreeOff vs slots (σ.write locations data) (τ.write locations data') := by
  refine ⟨?_, h.fifos, h.values⟩
  subst hdata
  show Writes.store σ.memory _ = Writes.store τ.memory _
  rw [h.memory]

/-- An operation that uses none of these values and FIFOs does the same. -/
theorem AgreeOff.opRun (h : AgreeOff vs slots σ τ) {op : Op A} (hvs : ∀ v ∈ op.operands, v ∉ vs)
    (hslots : ∀ slot ∈ op.fifos, slot ∉ slots) :
    AgreeOff vs slots (op.run m σ) (op.run m τ) := by
  have hput : ∀ (side : Side A) {σ τ : State A V} {data : List V}, AgreeOff vs slots σ τ →
      AgreeOff vs slots (side.put m σ data) (side.put m τ data) := by
    intro side σ τ data h
    cases side with
    | memory ref access => exact h.write _ rfl
    | fifo slot sizes => exact h.push _ rfl
  cases op with
  | load r source slice => exact h.define _ (by rw [h.memory])
  | store v dest slice => exact h.write _ (h.values v (hvs v List.mem_cons_self))
  | indLoad r type indAddrBuf index base slice => exact h.define _ (by rw [h.memory])
  | indStore v type indAddrBuf index base slice =>
      show AgreeOff vs slots (σ.write _ _) (τ.write _ _)
      rw [h.memory]
      exact h.write _ (h.values v (hvs v List.mem_cons_self))
  | reshape r v type => exact h.define _ (h.values v (hvs v List.mem_cons_self))
  | extractSlice r v sizes slice =>
      exact h.define _ (by rw [h.values v (hvs v List.mem_cons_self)])
  | readFromFifo r slot type =>
      exact (h.push slot rfl).define _ (by rw [h.fifos slot (hslots slot List.mem_cons_self)])
  | writeToFifo v slot => exact h.push slot (by rw [h.values v (hvs v List.mem_cons_self)])
  | compute r kernel operands =>
      have hmap : operands.map σ.values = operands.map τ.values :=
        List.map_congr_left fun v hv => h.values v (hvs v hv)
      exact h.define _ (by rw [hmap])
  | dataTransfer source dest mode =>
      cases source with
      | memory ref access =>
          show AgreeOff vs slots (dest.put m σ _) (dest.put m τ _)
          rw [h.memory]
          exact hput dest h
      | fifo slot sizes =>
          have hslot : slot ∈ (Op.dataTransfer (.fifo slot sizes) dest mode).fifos := by
            cases dest <;> exact List.mem_cons_self
          show AgreeOff vs slots (dest.put m (σ.push slot .read) _) (dest.put m (τ.push slot .read) _)
          rw [h.fifos slot (hslots slot hslot)]
          exact hput dest (h.push slot rfl)
  | gather indAddrBuf index base access slot sizes => exact h.push slot (by rw [h.memory])
  | scatter slot sizes indAddrBuf index base access =>
      show AgreeOff vs slots ((σ.push slot .read).write _ _) ((τ.push slot .read).write _ _)
      rw [h.memory, h.fifos slot (hslots slot List.mem_cons_self)]
      exact (h.push slot rfl).write _ rfl

theorem AgreeOff.run (h : AgreeOff vs slots σ τ) {ops : Block A}
    (hvs : ∀ op ∈ ops, ∀ v ∈ op.operands, v ∉ vs)
    (hslots : ∀ op ∈ ops, ∀ slot ∈ op.fifos, slot ∉ slots) :
    AgreeOff vs slots (run m ops σ) (run m ops τ) := by
  induction ops generalizing σ τ with
  | nil => exact h
  | cons op ops ih =>
      rw [List.forall_mem_cons] at hvs hslots
      exact ih (h.opRun hvs.1 hslots.1) hvs.2 hslots.2

end Frames

end DataTransfers

end DataflowScheduler
