import DataflowScheduler.Util.RoseEdit
import DataflowScheduler.Util.Worklist

/-!
# Write sets of regions

Whether an operation in a region writes through a memref or through a view of it. Views are followed
forward from the memref only, and of the operations that write memory only some kinds are known.
-/

namespace DataflowScheduler

namespace WriteSetScan

abbrev Value := Nat

abbrev OpId := Nat

/-- One side of a transfer: a memref at some indices, or a FIFO slot. -/
structure TransferSide where
  value : Value
  isFifo : Bool
  indices : List Value
  deriving Repr, DecidableEq

/-- Operations, by how they treat memory. -/
inductive OpKind where
  /-- `ktdf.data_transfer` -/
  | dataTransfer (source dest : TransferSide)
  /-- `ktdf.ind_data_transfer` -/
  | indDataTransfer (source dest : TransferSide)
  /-- `memref.store` -/
  | store (memref : Value)
  /-- An operation of `linalg`, with its outputs. -/
  | linalg (inits : List Value)
  /-- `memref.cast`, `memref.view`, `memref.subview`, `memref.reinterpret_cast` or
  `memref.memory_space_cast` -/
  | view
  /-- `ktdf.stage` -/
  | stage
  | other
  deriving Repr, DecidableEq

structure OpInfo where
  id : OpId
  kind : OpKind
  operands : List Value
  results : List Value
  deriving Repr, DecidableEq

/-- Operations with the operations in their regions. -/
abbrev Region := List (Rose OpInfo)

/-! ## Aliases -/

/-- The results of views, once for each use of a value in a view. -/
def viewsOf (ops : List OpInfo) (v : Value) : List Value :=
  ops.flatMap fun op => (op.operands.filter (· = v)).flatMap fun _ => match op.kind with
    | .view => op.results
    | _ => []

/-- `buildAliasSet`, in a function with these operations. -/
def buildAliasSet (ops : List OpInfo) (seed : Value) : List Value :=
  let values := seed :: ops.flatMap OpInfo.results
  Worklist.closure (viewsOf ops) ((values.map fun v => (viewsOf ops v).length).sum + 1) [seed]

/-- `opIsWriter` -/
def opIsWriter (op : OpInfo) (aliases : List Value) : Bool :=
  match op.kind with
  | .dataTransfer _ dest => !dest.isFifo && decide (dest.value ∈ aliases)
  | .store memref => decide (memref ∈ aliases)
  | .linalg inits => inits.any (· ∈ aliases)
  | .indDataTransfer .. | .view | .stage | .other => false

/-- `regionWritesTo` -/
def regionWritesTo (ops : List OpInfo) (region : Region) (memref : Value)
    (ignore : Option OpId) : Bool :=
  let aliases := buildAliasSet ops memref
  (Rose.postorderList region).any fun op => some op.id != ignore && opIsWriter op aliases

/-! ## What the scan finds -/

/-- A view is taken of `v`, and `w` is its result. -/
def IsViewOf (ops : List OpInfo) (v w : Value) : Prop :=
  ∃ op ∈ ops, op.kind = .view ∧ v ∈ op.operands ∧ w ∈ op.results

theorem mem_viewsOf {ops : List OpInfo} {v w : Value} : w ∈ viewsOf ops v ↔ IsViewOf ops v w := by
  rw [viewsOf, List.mem_flatMap]
  refine exists_congr fun op => and_congr_right fun _ => ?_
  rw [List.mem_flatMap]
  constructor
  · rintro ⟨u, hu, hw⟩
    obtain ⟨hmem, huv⟩ := List.mem_filter.mp hu
    obtain rfl : u = v := by simpa using huv
    split at hw
    · next hkind => exact ⟨hkind, hmem, hw⟩
    · cases hw
  · rintro ⟨hkind, hv, hw⟩
    refine ⟨v, by simpa using hv, ?_⟩
    rw [hkind]
    exact hw

/-- The aliases of a memref are the views of it, views of views among them. -/
theorem mem_buildAliasSet {ops : List OpInfo} {seed w : Value} :
    w ∈ buildAliasSet ops seed ↔ Relation.ReflTransGen (IsViewOf ops) seed w := by
  have hviews : (fun x y => y ∈ viewsOf ops x) = IsViewOf ops := by
    funext v w
    exact propext mem_viewsOf
  have hclosure := @Worklist.mem_closure_iff _ _ (viewsOf ops) (seed :: ops.flatMap OpInfo.results)
    (fun v _ w hw => by
      obtain ⟨op, hop, -, -, hresult⟩ := mem_viewsOf.mp hw
      exact List.mem_cons_of_mem _ (List.mem_flatMap.mpr ⟨op, hop, hresult⟩))
    _ [seed] (fun v hv => by
      rw [List.mem_singleton.mp hv]
      exact List.mem_cons_self) (Nat.le_refl _) w
  rw [hviews] at hclosure
  refine hclosure.trans ⟨?_, fun hpath => ⟨seed, List.mem_cons_self, hpath⟩⟩
  rintro ⟨start, hstart, hpath⟩
  rwa [List.mem_singleton.mp hstart] at hpath

/-- The memrefs that an operation is known to write through. -/
def OpKind.written : OpKind → List Value
  | .dataTransfer _ dest => if dest.isFifo then [] else [dest.value]
  | .store memref => [memref]
  | .linalg inits => inits
  | .indDataTransfer .. | .view | .stage | .other => []

theorem opIsWriter_iff {op : OpInfo} {aliases : List Value} :
    opIsWriter op aliases = true ↔ ∃ w ∈ op.kind.written, w ∈ aliases := by
  unfold opIsWriter OpKind.written
  cases op.kind with
  | dataTransfer source dest => cases dest.isFifo <;> simp
  | store memref => simp
  | linalg inits => simp
  | indDataTransfer source dest => simp
  | view => simp
  | stage => simp
  | other => simp

/-- The scan finds the known writers whose memref is a view of the given one. -/
theorem regionWritesTo_iff {ops : List OpInfo} {region : Region} {memref : Value} :
    regionWritesTo ops region memref none = true ↔ ∃ op ∈ Rose.postorderList region,
      ∃ w ∈ op.kind.written, Relation.ReflTransGen (IsViewOf ops) memref w := by
  unfold regionWritesTo
  simp only [List.any_eq_true, Bool.and_eq_true, opIsWriter_iff, mem_buildAliasSet]
  refine exists_congr fun op => and_congr_right fun _ => ?_
  simp

end WriteSetScan

end DataflowScheduler
