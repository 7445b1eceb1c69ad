import DataflowScheduler.Conversion.KTIRToScheduleIR.SplitRuns

/-!
# Where the address buffers lie

Each split candidate gets an address buffer from the memory tracker, as many entries as its index
view has elements, and both halves look at it through a view with the strides of the index view. So
the buffer holds the whole view exactly where these strides keep the view inside as many entries as
it has elements. Everything else the pass promises about the buffers holds for every input.
-/

namespace DataflowScheduler

namespace IndirectComputeGroupSplit

open ByteRange (Grant)
open RowMajor Strides

variable {R : Type}

/-! ## What the pass promises -/

/-- The number of the entry at an index of a view with static offset and strides. -/
def ConstructMemoryViewOp.entry (view : ConstructMemoryViewOp R) (index : List Nat) : Option Int :=
  (getConstantIntValue view.offset).map (· + dot index view.getStrides)

/-- The views of the indirect address buffer an operation has. -/
def Op.iabViews : Op R → List (ConstructMemoryViewOp R)
  | .copy _ target => [target]
  | .constructIndirectAccessTile op => [op.indAddrBufMemref]
  | _ => []

/-- The operations of both halves. -/
def Split.ops (split : Split R) : List (Op R) := split.idxToAddr.ops ++ split.inserted

def iabNode (device : Option (Device R)) (tree : MemoryTree R) : Option (MemoryNode R) :=
  device.bind fun device =>
    tree.nodes.find? fun node => (device.indirectAddressBuffer node.memoryResource).isSome

/-- The bytes of an entry, as the device has it. -/
def entryBytes (device : Option (Device R)) (tree : MemoryTree R) : Nat :=
  match (iabNode device tree).bind fun node =>
      (device.bind fun device => device.indirectAddressBuffer node.memoryResource).join with
  | some type => ((tryGetSizeInBytes type).getD 0).toNat
  | none => 0

/-- The bytes at the start of the indirect address buffer that are reserved. -/
def reservedBytes (device : Option (Device R)) (tree : MemoryTree R) : Nat :=
  match iabNode device tree with
  | some node => (node.reservedInBytes.getD 0).toNat
  | none => 0

/-- What a run from the top-level module `top` promises about the buffers. -/
structure BuffersFit (entry reserved : Nat) (top : List (ModuleOp R)) (run : Run R) : Prop where
  /-- Every entry of an address buffer view lies in the bytes that were allocated for it. -/
  inside : ∀ split ∈ run.splits, ∀ op ∈ split.ops, ∀ view ∈ op.addrBufViews,
    ∀ index ∈ points view.type.getShape, ∃ e, view.entry index = some e ∧
      (split.allocation.grant.address : Int) ≤ e * entry ∧
      (e + 1) * entry ≤ split.allocation.grant.endAddress
  disjoint : run.splits.Pairwise fun a b =>
    Disjoint a.allocation.grant.bytes b.allocation.grant.bytes
  /-- Every entry of an indirect address buffer view lies behind the reserved bytes. -/
  unreserved : ∀ split ∈ run.splits, ∀ op ∈ split.ops, ∀ view ∈ op.iabViews,
    ∀ index ∈ points view.type.getShape, ∃ e, view.entry index = some e ∧
      (reserved : Int) ≤ e * entry
  /-- A candidate the pass fails at leaves the modules as it found them; its function, the rest of
  its module and the calls are even as they were at first. -/
  failed : ∀ failure, run.failure = some failure →
    run.state.modules = failure.found.modules ∧
    (∃ m ∈ top, ∃ m' ∈ run.state.modules, m.id = failure.candidate.module ∧
      failure.candidate.func ∈ m.funcs ∧ failure.candidate.func ∈ m'.funcs ∧
      KeptModule run.splits m m') ∧
    callSites run.state.modules = callSites top

/-- Nothing is counted beyond what a machine integer holds: the tracker's calls do not wrap, memories
have less than `2 ^ 63` bytes, and an address buffer less than `2 ^ 64`. -/
structure NothingWraps [DecidableEq R] (entry : Nat) (tree : MemoryTree R) (earlier : List (TrackerCall R))
    (run : Run R) : Prop where
  calls : NoWrapAlong (History.start (MemoryTracker.ofTree tree))
    (earlier ++ run.splits.map Split.call)
  capacity : ∀ node ∈ tree.nodes, ∀ capacity ∈ node.capacityInBytes, capacity.toNat < 2 ^ 63
  reserved : ∀ node ∈ tree.nodes, (node.reservedInBytes.getD 0).toNat < 2 ^ 63
  elements : ∀ split ∈ run.splits, split.candidate.idxType.getNumElements * entry < 2 ^ 64

/-! ## The views of a split -/

/-- The views of the two halves: each looks at the address buffer once, with the shape and strides of
the index view and from the entry the allocation starts at. -/
theorem addrBufViews_of_split {candidate : SplitCandidate R} {offset : SizeT} {name : String}
    {info : AddressBufferInfo R} {id : Nat} {op : Op R} {view : ConstructMemoryViewOp R}
    (hop : op ∈ (buildIdxToAddrModule id name candidate offset info.computeType).ops ++
      gatherScatterOps candidate offset info) (hview : view ∈ op.addrBufViews) (index : List Nat) :
    view.type.getShape = candidate.idxView.type.getShape ∧
      view.entry index = some (offset.toInt + dot index candidate.idxView.getStrides) := by
  simp only [buildIdxToAddrModule, ModuleOp.ops, FuncOp.ops, List.flatMap_cons, List.flatMap_nil,
    Option.getD_some, List.append_nil, gatherScatterOps, List.cons_append, List.nil_append,
    List.mem_cons, List.not_mem_nil, or_false] at hop
  rcases hop with rfl | rfl | rfl
  · obtain rfl := List.mem_singleton.mp hview
    exact ⟨rfl, rfl⟩
  · obtain rfl := List.mem_singleton.mp hview
    exact ⟨rfl, rfl⟩
  · cases hview

/-- The views of the indirect address buffer start at its first entry that is not reserved. -/
theorem iabViews_of_split {candidate : SplitCandidate R} {offset : SizeT} {name : String}
    {info : AddressBufferInfo R} {id : Nat} {op : Op R} {view : ConstructMemoryViewOp R}
    (hop : op ∈ (buildIdxToAddrModule id name candidate offset info.computeType).ops ++
      gatherScatterOps candidate offset info) (hview : view ∈ op.iabViews) (index : List Nat) :
    view.type.getShape = candidate.idxView.type.getShape ∧
      view.entry index = some (info.iabBase.toInt + dot index candidate.idxView.getStrides) := by
  simp only [buildIdxToAddrModule, ModuleOp.ops, FuncOp.ops, List.flatMap_cons, List.flatMap_nil,
    Option.getD_some, List.append_nil, gatherScatterOps, List.cons_append, List.nil_append,
    List.mem_cons, List.not_mem_nil, or_false] at hop
  rcases hop with rfl | rfl | rfl
  · cases hview
  · obtain rfl := List.mem_singleton.mp hview
    exact ⟨rfl, rfl⟩
  · obtain rfl := List.mem_singleton.mp hview
    exact ⟨rfl, rfl⟩

/-! ## The device -/

/-- What is resolved of the indirect address buffer. -/
theorem resolveAddressBufferInfo_ok {device : Option (Device R)} {tree : MemoryTree R}
    {info : AddressBufferInfo R} (h : resolveAddressBufferInfo device tree = .ok info) :
    ∃ node ∈ tree.nodes, ∃ bytes, tryGetSizeInBytes info.computeType = some bytes ∧ bytes ≠ 0 ∧
      entryBytes device tree = bytes.toNat ∧
      reservedBytes device tree = (node.reservedInBytes.getD 0).toNat ∧
      info.iabBase = BitVec.ofNat 64
        (divideCeil (node.reservedInBytes.getD 0).toNat bytes.toNat) := by
  unfold resolveAddressBufferInfo at h
  cases device with
  | none => cases h
  | some device =>
      dsimp only at h
      cases hnode : tree.nodes.find? fun node =>
          (device.indirectAddressBuffer node.memoryResource).isSome with
      | none =>
          rw [hnode] at h
          cases h
      | some node =>
          rw [hnode] at h
          dsimp only at h
          have hiab : iabNode (some device) tree = some node := hnode
          split at h
          · cases h
          · cases h
          · next signedness width htype =>
              split at h
              · next bytes root hbytes _ =>
                  split at h
                  · cases h
                  · next hpos =>
                      cases h
                      refine ⟨node, List.mem_of_find?_eq_some hnode, bytes, hbytes, hpos, ?_, ?_, rfl⟩
                      · have hentry : tryGetSizeInBytes (.integer signedness width) = some bytes := hbytes
                        simp [entryBytes, hiab, htype, hentry]
                      · simp [reservedBytes, hiab]
              · cases h

/-! ## Entries and bytes -/

/-- In entries from an aligned address on, a window of entries lies in a range of entries exactly where
it does in bytes. -/
theorem entry_inside_iff {b q N : Nat} {d : Int} (hb : 0 < b) :
    (((b * q : Nat) : Int) ≤ ((q : Int) + d) * b ∧
        ((q : Int) + d + 1) * b ≤ ((b * q + N * b : Nat) : Int)) ↔ 0 ≤ d ∧ d < N := by
  have hb' : (0 : Int) < b := by exact_mod_cast hb
  push_cast
  have hlow : (b : Int) * q ≤ ((q : Int) + d) * b ↔ 0 ≤ d * b := by
    constructor <;> intro h <;> linarith [Int.add_mul (q : Int) d b, Int.mul_comm (b : Int) q]
  have hhigh : ((q : Int) + d + 1) * b ≤ b * q + N * b ↔ (d + 1) * b ≤ N * b := by
    have hexpand : ((q : Int) + d + 1) * b = b * q + (d + 1) * b := by ring
    rw [hexpand]
    omega
  rw [hlow, hhigh, Int.mul_nonneg_iff_of_pos_right hb']
  refine and_congr Iff.rfl ⟨fun h => ?_, fun h => Int.mul_le_mul_of_nonneg_right h (le_of_lt hb')⟩
  exact le_of_mul_le_mul_right h hb'

theorem toInt_of_lt {x : SizeT} (h : x.toNat < 2 ^ 63) : x.toInt = x.toNat := by
  rw [BitVec.toInt_eq_toNat_cond, if_pos (by omega)]

theorem divideCeil_le (n : Nat) {d : Nat} (hd : 0 < d) : divideCeil n d ≤ n := by
  unfold divideCeil
  rw [Nat.div_le_iff_le_mul_add_pred hd]
  have hmul : n ≤ d * n := Nat.le_mul_of_pos_left n hd
  omega

theorem le_divideCeil_mul (n : Nat) {d : Nat} (hd : 0 < d) : n ≤ divideCeil n d * d := by
  unfold divideCeil
  have hdiv := Nat.div_add_mod (n + d - 1) d
  have hlt := Nat.mod_lt (n + d - 1) hd
  rw [Nat.mul_comm] at hdiv
  omega

section Bytes

variable {info : AddressBufferInfo R} {split : Split R} {bytes : BitVec 32} {address : SizeT}
  {id : Nat} {name : String}

/-- The number of bytes of an entry, as the tracker gets it. -/
theorem toNat_setWidth_bytes (bytes : BitVec 32) : (bytes.setWidth 64).toNat = bytes.toNat := by
  rw [BitVec.toNat_setWidth, Nat.mod_eq_of_lt]
  have hlt := bytes.isLt
  omega

/-- The bytes of a split's allocation. -/
theorem Split.Over.grant (h : split.Over info bytes address id name)
    (hsize : split.candidate.idxType.getNumElements * bytes.toNat < 2 ^ 64) :
    split.allocation.grant =
      ⟨address.toNat, split.candidate.idxType.getNumElements * bytes.toNat⟩ := by
  have hmul : (BitVec.ofNat 64 split.candidate.idxType.getNumElements * bytes.setWidth 64).toNat =
      split.candidate.idxType.getNumElements * bytes.toNat := by
    rw [BitVec.toNat_mul, toNat_setWidth_bytes, BitVec.toNat_ofNat, Nat.mod_mul_mod,
      Nat.mod_eq_of_lt hsize]
  rw [h.allocation, Allocation.grant, hmul]

/-- **The views of an address buffer stay inside its allocation** exactly where the strides of the
index view keep within as many entries as it has elements. -/
theorem Split.Over.inside_iff (h : split.Over info bytes address id name)
    (htype : split.candidate.idxType = split.candidate.idxView.type) (hbytes : bytes ≠ 0)
    (haddress : address.toNat < 2 ^ 63)
    (hsize : split.candidate.idxType.getNumElements * bytes.toNat < 2 ^ 64) :
    (∀ op ∈ split.ops, ∀ view ∈ op.addrBufViews, ∀ index ∈ points view.type.getShape,
      ∃ e, view.entry index = some e ∧
        (split.allocation.grant.address : Int) ≤ e * bytes.toNat ∧
        (e + 1) * bytes.toNat ≤ split.allocation.grant.endAddress) ↔
      Within split.candidate.idxType.getShape split.candidate.idxView.getStrides
        split.candidate.idxType.getNumElements := by
  have hb : 0 < bytes.toNat := by
    rw [Nat.pos_iff_ne_zero]
    intro h0
    exact hbytes (BitVec.eq_of_toNat_eq (by simpa using h0))
  -- The offset is the address in entries.
  have hoffset : (address / bytes.setWidth 64).toNat = address.toNat / bytes.toNat := by
    rw [BitVec.toNat_udiv, toNat_setWidth_bytes]
  have hexact : address.toNat = bytes.toNat * (address.toNat / bytes.toNat) := by
    have hmod := congrArg BitVec.toNat h.aligned
    rw [BitVec.toNat_umod, toNat_setWidth_bytes] at hmod
    exact (Nat.mul_div_cancel' (Nat.dvd_of_mod_eq_zero hmod)).symm
  have hint : (address / bytes.setWidth 64).toInt = ((address.toNat / bytes.toNat : Nat) : Int) := by
    rw [toInt_of_lt, hoffset]
    rw [hoffset]
    exact lt_of_le_of_lt (Nat.div_le_self _ _) haddress
  have hops : split.ops = (buildIdxToAddrModule id name split.candidate
      (address / bytes.setWidth 64) info.computeType).ops ++
        gatherScatterOps split.candidate (address / bytes.setWidth 64) info := by
    rw [Split.ops, h.idxToAddr, h.inserted]
  rw [← forall_dot_iff, hops, h.grant hsize, htype]
  dsimp only [Grant.endAddress]
  rw [hexact]
  constructor
  · intro hinside index hindex
    have hmem := List.mem_append_left
      (gatherScatterOps split.candidate (address / bytes.setWidth 64) info)
      (show _ ∈ (buildIdxToAddrModule id name split.candidate (address / bytes.setWidth 64)
        info.computeType).ops from List.mem_singleton_self _)
    obtain ⟨e, he, hlow, hhigh⟩ := hinside _ hmem _ (List.mem_singleton_self _) index hindex
    obtain rfl := Option.some.inj (he.symm.trans (addrBufViews_of_split hmem
      (List.mem_singleton_self _) index).2)
    rw [hint] at hlow hhigh
    exact (entry_inside_iff hb).1 ⟨hlow, hhigh⟩
  · intro hwithin op hop view hview index hindex
    obtain ⟨hshape, hentry⟩ := addrBufViews_of_split hop hview index
    refine ⟨_, hentry, ?_⟩
    rw [hint]
    rw [hshape] at hindex
    exact (entry_inside_iff hb).2 (hwithin index hindex)

/-- Walked forward, the indirect address buffer lies behind the reserved bytes. -/
theorem Split.Over.unreserved (h : split.Over info bytes address id name) {reserved : Nat}
    (htype : split.candidate.idxType = split.candidate.idxView.type) (hbytes : bytes ≠ 0)
    (hreserved : reserved < 2 ^ 63)
    (hbase : info.iabBase = BitVec.ofNat 64 (divideCeil reserved bytes.toNat))
    (hwithin : Within split.candidate.idxType.getShape split.candidate.idxView.getStrides
      split.candidate.idxType.getNumElements) :
    ∀ op ∈ split.ops, ∀ view ∈ op.iabViews, ∀ index ∈ points view.type.getShape,
      ∃ e, view.entry index = some e ∧ (reserved : Int) ≤ e * bytes.toNat := by
  have hb : 0 < bytes.toNat := by
    rw [Nat.pos_iff_ne_zero]
    intro h0
    exact hbytes (BitVec.eq_of_toNat_eq (by simpa using h0))
  have hlt : divideCeil reserved bytes.toNat < 2 ^ 63 :=
    lt_of_le_of_lt (divideCeil_le reserved hb) hreserved
  have hnat : info.iabBase.toNat = divideCeil reserved bytes.toNat := by
    rw [hbase, BitVec.toNat_ofNat, Nat.mod_eq_of_lt (by omega)]
  have hint : info.iabBase.toInt = (divideCeil reserved bytes.toNat : Int) := by
    rw [toInt_of_lt (hnat ▸ hlt), hnat]
  have hops : split.ops = (buildIdxToAddrModule id name split.candidate
      (address / bytes.setWidth 64) info.computeType).ops ++
        gatherScatterOps split.candidate (address / bytes.setWidth 64) info := by
    rw [Split.ops, h.idxToAddr, h.inserted]
  rw [hops]
  rw [← forall_dot_iff, htype] at hwithin
  intro op hop view hview index hindex
  obtain ⟨hshape, hentry⟩ := iabViews_of_split hop hview index
  rw [hshape] at hindex
  refine ⟨_, hentry, ?_⟩
  rw [hint]
  have hdot := (hwithin index hindex).1
  calc (reserved : Int) ≤ (divideCeil reserved bytes.toNat : Int) * bytes.toNat := by
        exact_mod_cast le_divideCeil_mul reserved hb
    _ ≤ ((divideCeil reserved bytes.toNat : Int) + dot index split.candidate.idxView.getStrides) *
        bytes.toNat := by
        apply Int.mul_le_mul_of_nonneg_right
        · omega
        · omega

end Bytes

/-! ## The whole pass -/

section Pass

variable [DecidableEq R]

theorem ofTree_capacities {tree : MemoryTree R} {r : R} {capacity : SizeT}
    (h : (MemoryTracker.ofTree tree).capacities r = some capacity) :
    ∃ node ∈ tree.nodes, node.capacityInBytes = some capacity := by
  refine MemoryTracker.ofTree_induction tree
    (fun t => ∀ r capacity, t.capacities r = some capacity →
      ∃ node ∈ tree.nodes, node.capacityInBytes = some capacity) (fun _ _ hr => by cases hr) ?_ r
    capacity h
  intro t ht node hnode r capacity hr
  unfold MemoryTracker.addNode at hr
  cases hcap : node.capacityInBytes with
  | none =>
      rw [hcap] at hr
      exact ht r capacity hr
  | some c =>
      rw [hcap] at hr
      by_cases hres : r = node.memoryResource
      · subst hres
        simp only [Function.update_self] at hr
        exact ⟨node, hnode, hcap.trans hr⟩
      · simp only [Function.update_of_ne hres] at hr
        exact ht r capacity hr

variable {uniqued : List String → String → String} {builder : Affine.Builder}
  {info : AddressBufferInfo R} {orchestrator : OrchestratorInfo} {tree : MemoryTree R}
  {earlier : List (TrackerCall R)}

/-- The allocations of a run are disjoint, and lie in memories of the device. -/
theorem splitAll_allocations (ops : List (CandidateOp R)) {s : State R} {entry : Nat}
    (hs : s.tracker = ((History.start (MemoryTracker.ofTree tree)).run earlier).tracker)
    (hwraps : NothingWraps entry tree earlier (splitAll uniqued builder info orchestrator ops s)) :
    ((splitAll uniqued builder info orchestrator ops s).splits.Pairwise fun a b =>
      Disjoint a.allocation.grant.bytes b.allocation.grant.bytes) ∧
    ∀ split ∈ (splitAll uniqued builder info orchestrator ops s).splits,
      split.allocation.address.toNat < 2 ^ 63 := by
  have hsplits : (splitAll uniqued builder info orchestrator ops s).splits =
      (splitAll uniqued builder info orchestrator ops s).splits := rfl
  obtain ⟨hgranted, hlive⟩ := splitAll_history ops hs.symm hsplits
  have hstart := History.start_simulates (MemoryTracker.ofTree_wellFormed tree)
  have hsim := History.run_simulates hstart hwraps.calls
  have hhonoured := History.run_allHonoured hstart (fun a ha => by cases ha) hwraps.calls
  rw [History.run_append] at hsim hhonoured
  constructor
  · have hdisjoint := hsim.disjoint info.globalResource
    rw [hlive, List.pairwise_append] at hdisjoint
    have hreverse := hdisjoint.1
    rw [List.pairwise_reverse, List.pairwise_map] at hreverse
    exact hreverse.imp fun h => h.symm
  · intro split hmem
    have hin : split.allocation ∈ (((History.start (MemoryTracker.ofTree tree)).run earlier).run
        ((splitAll uniqued builder info orchestrator ops s).splits.map Split.call)).granted := by
      rw [hgranted]
      exact List.mem_append_left _ (List.mem_reverse.mpr (List.mem_map_of_mem hmem))
    obtain ⟨capacity, hcapacity, hle⟩ := (hhonoured _ hin).within_capacity
    rw [History.run_capacities, History.run_capacities] at hcapacity
    obtain ⟨node, hnode, hcap⟩ := ofTree_capacities hcapacity
    have hlt := hwraps.capacity node hnode capacity hcap
    omega

/-- A run promises what it does where it fails. -/
theorem splitAll_untouched {ops : List (CandidateOp R)} {s : State R} (hwf : WellFormed s.modules)
    (hops : collectCandidateOps s.modules = .ok ops)
    (horch : resolveOrchestrator s.modules = .ok orchestrator) {failure : Failure R}
    (h : (splitAll uniqued builder info orchestrator ops s).failure = some failure) :
    (splitAll uniqued builder info orchestrator ops s).state.modules = failure.found.modules ∧
    (∃ m ∈ s.modules, ∃ m' ∈ (splitAll uniqued builder info orchestrator ops s).state.modules,
      m.id = failure.candidate.module ∧ failure.candidate.func ∈ m.funcs ∧
      failure.candidate.func ∈ m'.funcs ∧
      KeptModule (splitAll uniqued builder info orchestrator ops s).splits m m') ∧
    callSites (splitAll uniqued builder info orchestrator ops s).state.modules =
      callSites s.modules := by
  obtain ⟨hkeys, hmem⟩ := collectCandidateOps_ok hops
  obtain ⟨hin, hsame, hother⟩ := splitAll_failed ops (hwf.nodup_keys.sublist hkeys) h
  obtain ⟨m, hm, hid, hname, hfunc⟩ := hmem _ hin
  obtain ⟨m', hm', hkept⟩ : ∃ m' ∈ (splitAll uniqued builder info orchestrator ops s).state.modules,
      KeptModule (splitAll uniqued builder info orchestrator ops s).splits m m' :=
    splitAll_keeps ops hm (resolveOrchestrator_ok hwf horch hm hname)
  refine ⟨hsame, ⟨m, hm, m', hm', hid, hfunc, ?_, hkept⟩, splitAll_callSites ops s⟩
  apply hkept.2.2 _ hfunc
  rintro split hsplit ⟨hmodule, hname'⟩
  apply hother split hsplit
  rw [CandidateOp.key, hmodule, hname', hid]

/-- **The address buffers are as promised exactly where strides keep to element counts**: of a run of
the pass in which no machine integer wraps, every view of an address buffer lies in its allocation,
allocations are disjoint, the indirect address buffer is used behind its reserved bytes and a failing
candidate is left alone if and only if the index view of every candidate that was split is walked
forward and reaches no further than it has elements. -/
theorem runOnOperation_buffersFit_iff (uniqued : List String → String → String)
    (builder : Affine.Builder) (device : Option (Device R)) (tree : MemoryTree R)
    (earlier : List (TrackerCall R)) (top : List (ModuleOp R)) (run : Run R)
    (hwf : WellFormed top)
    (hrun : runOnOperation uniqued builder device tree
      ⟨top, ((History.start (MemoryTracker.ofTree tree)).run earlier).tracker⟩ = .ok run)
    (hwraps : NothingWraps (entryBytes device tree) tree earlier run) :
    BuffersFit (entryBytes device tree) (reservedBytes device tree) top run ↔
      ∀ split ∈ run.splits, Within split.candidate.idxType.getShape
        split.candidate.idxView.getStrides split.candidate.idxType.getNumElements := by
  unfold runOnOperation at hrun
  obtain ⟨ops, hops, hrun⟩ := Except.bind_eq_ok.mp hrun
  split at hrun
  · cases hrun
    -- There is nothing to split.
    have hnone : ∀ split : Split R, split ∉ [] := fun split => List.not_mem_nil
    refine ⟨fun _ split hmem => absurd hmem (hnone split), fun _ => ⟨?_, .nil, ?_, ?_⟩⟩
    · exact fun split hmem => absurd hmem (hnone split)
    · exact fun split hmem => absurd hmem (hnone split)
    · intro failure h
      cases h
  · obtain ⟨info, hinfo, hrun⟩ := Except.bind_eq_ok.mp hrun
    obtain ⟨orchestrator, horch, hrun⟩ := Except.bind_eq_ok.mp hrun
    cases hrun
    obtain ⟨node, hnode, bytes, hsize, hpos, hentry, hreserved, hbase⟩ :=
      resolveAddressBufferInfo_ok hinfo
    obtain ⟨hdisjoint, haddress⟩ := splitAll_allocations ops rfl hwraps
    have helements := hwraps.elements
    rw [hentry] at helements ⊢
    rw [hreserved]
    -- Every split is over entries of the size the device has.
    have hover : ∀ split ∈ (splitAll uniqued builder info orchestrator ops
        ⟨top, ((History.start (MemoryTracker.ofTree tree)).run earlier).tracker⟩).splits,
        split.candidate.idxType = split.candidate.idxView.type ∧
          ∃ address id name, split.Over info bytes address id name ∧ address.toNat < 2 ^ 63 := by
      intro split hmem
      obtain ⟨⟨op, -, hok⟩, bytes', address, id, name, hover⟩ := splitAll_splits ops _ split hmem
      obtain rfl := Option.some.inj (hsize.symm.trans hover.entry)
      refine ⟨(analyzeCandidate_ok hok).2.2, address, id, name, hover, ?_⟩
      have hlt := haddress split hmem
      rw [hover.allocation] at hlt
      exact hlt
    constructor
    · intro hfit split hmem
      obtain ⟨htype, address, id, name, hsplit, hlt⟩ := hover split hmem
      exact (hsplit.inside_iff htype hpos hlt (helements split hmem)).1 (hfit.inside split hmem)
    · intro hwithin
      refine ⟨?_, hdisjoint, ?_, fun failure h => splitAll_untouched hwf hops horch h⟩
      · intro split hmem
        obtain ⟨htype, address, id, name, hsplit, hlt⟩ := hover split hmem
        exact (hsplit.inside_iff htype hpos hlt (helements split hmem)).2 (hwithin split hmem)
      · intro split hmem
        obtain ⟨htype, address, id, name, hsplit, hlt⟩ := hover split hmem
        exact hsplit.unreserved htype hpos (hwraps.reserved node hnode) hbase (hwithin split hmem)

end Pass

/-! ## Rows with and without padding -/

/-- A device with a global memory, resource `false`, and an indirect address buffer in it. -/
def gatherTree : MemoryTree Bool where
  nodes := [⟨0, false, none, none, [1], some 4096, none⟩, ⟨1, true, none, some 0, [], some 1024, some 6⟩]
  resourceToNode := fun r => some (if r then 1 else 0)
  aliasToNode := fun _ => none
  nodup_ids := by decide
  isSome_resourceToNode := by simp
  resource_of_resourceToNode := by
    intro r id h
    cases r <;> simp_all

/-- Words of two bytes. -/
def halfWordUnit : LoadStoreAttr Bool := ⟨fun _ => 2, fun _ => by decide⟩

def gatherDevice : Device Bool where
  kinds := [⟨some halfWordUnit, some halfWordUnit, [0]⟩]
  parentKinds := fun _ => [0]
  indirectAddressBuffer := fun r => if r then some (some (.integer .signed 32)) else none
  memSpaceMapping := fun _ => none

/-- An index view of four rows of 32 indices, a row `rowStride` entries after the other. -/
def rowsView (rowStride : Int) : ConstructMemoryViewOp Bool where
  type := ⟨[some 4, some 32], .integer .signed 32⟩
  offset := .blockArgument ⟨0, 0⟩
  sizes := []
  strides := []
  staticSizes := [some 4, some 32]
  staticStrides := [some rowStride, some 1]
  memorySpace := globalMemSpace
  coordinateSet := fun _ => true

/-- The rows of 64 half words that the indices select from. -/
def tableView : ConstructMemoryViewOp Bool where
  type := ⟨[some 128, some 64], .other (.float 16)⟩
  offset := .constant 0
  sizes := []
  strides := []
  staticSizes := [some 128, some 64]
  staticStrides := [some 64, some 1]
  memorySpace := globalMemSpace
  coordinateSet := fun _ => true

/-- A gather of one row for each index. -/
def gatherTile (rowStride : Int) : ConstructIndirectAccessTilesOp Bool where
  base := .constructMemoryView tableView
  indirectMemrefs := [.constructMemoryView (rowsView rowStride)]
  perDimSubscriptKinds := [true, false]
  perDimSubscriptMaps := [⟨3, 0, [.dim 0, .dim 1]⟩, ⟨3, 0, [.dim 2]⟩]
  capturedVariables := []
  numIntermediateVariables := 3
  variablesSpaceOrder := .identity 3
  variablesSpaceSet := fun _ => true
  type := [4, 32, 64]
  users := [.load]

def gatherModules (rowStride : Int) : List (ModuleOp Bool) :=
  [⟨0, some "local_schedule_0",
    [⟨"gather", 1, none, some [.constructIndirectAccessTiles (gatherTile rowStride)]⟩]⟩]

/-- The pass on that gather. -/
def gatherPass (rowStride : Int) : Except (SplitError Bool) (Run Bool) :=
  runOnOperation (fun _ name => name) .plain (some gatherDevice) gatherTree
    ⟨gatherModules rowStride,
      ((History.start (MemoryTracker.ofTree gatherTree)).run []).tracker⟩

def gatherRun (rowStride : Int) : Run Bool :=
  (gatherPass rowStride).toOption.getD ⟨[], none, ⟨[], .empty⟩⟩

theorem gatherModules_wellFormed (rowStride : Int) : WellFormed (gatherModules rowStride) where
  ids := List.nodup_singleton _
  names := by
    intro m hm
    obtain rfl := List.mem_singleton.mp hm
    exact List.nodup_singleton _

theorem runOnOperation_buffersFit_iff_rows :
    BuffersFit (entryBytes (some gatherDevice) gatherTree)
      (reservedBytes (some gatherDevice) gatherTree) (gatherModules 32) (gatherRun 32) ↔
      ∀ split ∈ (gatherRun 32).splits, Within split.candidate.idxType.getShape
        split.candidate.idxView.getStrides split.candidate.idxType.getNumElements := by
  refine runOnOperation_buffersFit_iff (fun _ name => name) .plain (some gatherDevice) gatherTree []
    (gatherModules 32) (gatherRun 32) (gatherModules_wellFormed 32)
    (Except.eq_ok_getD _ (by decide +kernel)) ⟨by decide +kernel, ?_, ?_, by decide +kernel⟩
  · simp [gatherTree]
  · simp [gatherTree]

/-- With rows of 32 indices in rows of 64 entries, 512 bytes are allocated, and the last entry of the
view is entry 223. -/
theorem not_buffersFit_paddedRows :
    gatherPass 64 = .ok (gatherRun 64) ∧
    ¬ BuffersFit (entryBytes (some gatherDevice) gatherTree)
      (reservedBytes (some gatherDevice) gatherTree) (gatherModules 64) (gatherRun 64) := by
  refine ⟨Except.eq_ok_getD _ (by decide +kernel), fun hfit => ?_⟩
  have hout : ((gatherRun 64).splits.any fun split => split.ops.any fun op =>
      op.addrBufViews.any fun view => decide (view.type.getShape = [4, 32]) &&
        decide (view.entry [3, 31] = some 223) &&
        decide (split.allocation.grant.endAddress = 512)) = true := by
    decide +kernel
  obtain ⟨split, hsplit, hout⟩ := List.any_eq_true.mp hout
  obtain ⟨op, hop, hout⟩ := List.any_eq_true.mp hout
  obtain ⟨view, hview, hout⟩ := List.any_eq_true.mp hout
  simp only [Bool.and_eq_true, decide_eq_true_eq] at hout
  obtain ⟨⟨hshape, hentry⟩, hend⟩ := hout
  have hindex : [3, 31] ∈ points view.type.getShape := by
    rw [hshape]
    simp
  obtain ⟨e, he, -, hhigh⟩ := hfit.inside split hsplit op hop view hview [3, 31] hindex
  obtain rfl := Option.some.inj (hentry.symm.trans he)
  have hbytes : entryBytes (some gatherDevice) gatherTree = 4 := by decide +kernel
  rw [hend, hbytes] at hhigh
  exact absurd hhigh (by decide)

end IndirectComputeGroupSplit

end DataflowScheduler
