import DataflowScheduler.Conversion.KTDFLowToDFIR.DataTransferElements
import DataflowScheduler.Conversion.KTDFLowToDFIR.IndDataTransferLowering
import Mathlib.Algebra.BigOperators.Group.List.Lemmas

/-!
# The elements a lowered indirect transfer moves

The time dimensions of an indirect transfer are those of its source. The theorem says exactly when
the lanes of all steps are the elements of the transfer, once each and under its entry: whole vectors
fill the rows of both memrefs along the same time dimensions, and the address buffer does not move.
-/

namespace IndDataTransferLowering

open RowMajor DataTransferLowering

variable {t : IndDataTransfer} {op : CompositeIndirectLoadAndStore}

/-! ## When the steps are exact -/

/-- Only the innermost size is no unit. -/
def IsRow (sizes : List Nat) : Prop :=
  ∀ s ∈ sizes.dropLast, s = 1

instance (sizes : List Nat) : Decidable (IsRow sizes) :=
  inferInstanceAs (Decidable (∀ s ∈ sizes.dropLast, s = 1))

def IndDataTransfer.totalsAgree (t : IndDataTransfer) : Prop :=
  t.dir_src.elements.length = t.dir_dst.elements.length

/-- Whole vectors fill the rows of the source, and those of a memref destination in the same steps. -/
def FillsRows (throttle : Nat) (src : TransferBox) (dst : Endpoint) : Prop :=
  throttle ∣ src.sizes.getLastD 0 ∧ ∀ box, dst = .memref box →
    throttle ∣ box.sizes.getLastD 0 ∧
      (describeTransferTimeDims src.sizes throttle).extents =
        (describeTransferTimeDims box.sizes throttle).extents

/-- One vector holds the source, and both memrefs are one row. -/
def FitsRow (throttle : Nat) (src : TransferBox) (dst : Endpoint) : Prop :=
  totalElements src.sizes ≤ throttle ∧ IsRow src.sizes ∧ ∀ box, dst = .memref box → IsRow box.sizes

/-- The entry stays the same: the address buffer has no time dimension, or there is one step. -/
def KeepsEntry (throttle : Nat) (src : TransferBox) (iab : AddressBuffer) : Prop :=
  iab.timeDims.dims = [] ∨ (describeTransferTimeDims src.sizes throttle).extents = []

instance (throttle : Nat) (src : TransferBox) (iab : AddressBuffer) :
    Decidable (KeepsEntry throttle src iab) :=
  inferInstanceAs (Decidable (_ ∨ _))

/-- The condition on a transfer under which its steps are exact. -/
def StepsExact (t : IndDataTransfer) : Prop :=
  ∃ box throttle, t.dir_src = .memref box ∧ t.throttle = some throttle ∧ t.totalsAgree ∧
    (FillsRows throttle.toNat box t.dir_dst ∨ FitsRow throttle.toNat box t.dir_dst) ∧
    KeepsEntry throttle.toNat box t.iab

/-! ## Steps and lanes -/

/-- The steps of a source, and the lanes of each. -/
def stepsOf (sizes : List Nat) (throttle : Nat) : List (List Nat × Nat) :=
  points (timeExtents (describeTransferTimeDims sizes throttle).extents) ×ˢ
    List.range (min (totalElements sizes) throttle)

theorem mem_stepsOf {sizes : List Nat} {throttle : Nat} {x : List Nat × Nat} :
    x ∈ stepsOf sizes throttle ↔
      x.1 ∈ points (timeExtents (describeTransferTimeDims sizes throttle).extents) ∧
        x.2 < min (totalElements sizes) throttle := by
  obtain ⟨time, lane⟩ := x
  rw [stepsOf, SProd.sprod, List.instSProd, List.pair_mem_product, List.mem_range]

/-- A lane of a direct memref, with enough time dimensions. -/
theorem directAccess_element (box : TransferBox) {throttle lanes l : Nat} {time : List Nat}
    (hsizes : box.sizes ≠ []) (hl : l < lanes)
    (htime : (walkedDims throttle 0 box.sizes).length ≤ time.length) :
    (directAccess box lanes (describeTransferTimeDims box.sizes throttle)).element 0 time l =
      some (box.walkElement throttle (time, l)) := by
  have hpoint : (points (vectorSizes box.sizes lanes))[l]? =
      some (List.replicate (box.sizes.length - 1) 0 ++ [l]) := by
    rw [vectorSizes, points_row]
    simp [hl]
  simp only [SideAccess.element, directAccess, hpoint, Option.map_some, List.map_map, shift_shift,
    offsets_add_lane l hsizes htime, TransferBox.walkElement, Function.comp_def, IndexOperand.eval,
    List.map_id']

/-- Further time dimensions do not matter to an index of the walk. -/
theorem walkIndex_take {throttle l : Nat} {sizes time : List Nat} (hsizes : sizes ≠ [])
    (htime : (walkedDims throttle 0 sizes).length ≤ time.length) :
    walkIndex throttle sizes (time.take (walkedDims throttle 0 sizes).length) l =
      walkIndex throttle sizes time l := by
  rw [← offsets_add_lane l hsizes htime, ← offsets_add_lane l hsizes (by simp [htime])]
  congr 1
  exact TransferTimeDims.offsets_take _ time

/-- Whole vectors that fill the rows of a box number its points by steps and lanes. -/
theorem points_eq_steps {throttle : Nat} {sizes extents : List Nat} (hsizes : sizes ≠ [])
    (hthrottle : 0 < throttle) (hlast : 0 < sizes.getLast hsizes)
    (hdvd : throttle ∣ sizes.getLast hsizes)
    (hext : (describeTransferTimeDims sizes throttle).extents = extents) :
    points sizes = (points (timeExtents extents) ×ˢ List.range throttle).map fun x =>
      walkIndex throttle sizes x.1 x.2 := by
  have hwalk := points_eq_walk 0 hsizes hthrottle hlast hdvd
  rw [show (walkedDims throttle 0 sizes).map (·.extent) = extents from hext,
    ← map_take_points_timeExtents extents] at hwalk
  rw [hwalk]
  simp only [SProd.sprod, List.product, List.map_flatMap, List.flatMap_map, List.map_map]
  apply List.flatMap_congr
  intro time htime
  apply List.map_congr_left
  intro l _
  have hlen : (walkedDims throttle 0 sizes).length = extents.length := by
    rw [← hext, length_extents]
  have hle : (walkedDims throttle 0 sizes).length ≤ time.length := by
    rw [hlen, ← length_take_of_mem htime]
    rw [List.length_take]
    exact Nat.min_le_right _ _
  rw [← hlen, walkIndex_take hsizes hle]
  rfl

/-! ### Rows -/

theorem eq_replicate_of_isRow {sizes : List Nat} (hsizes : sizes ≠ []) (h : IsRow sizes) :
    sizes = List.replicate (sizes.length - 1) 1 ++ [sizes.getLast hsizes] := by
  conv_lhs => rw [← List.dropLast_concat_getLast hsizes]
  congr 1
  exact List.eq_replicate_iff.2 ⟨List.length_dropLast, h⟩

theorem totalElements_of_isRow {sizes : List Nat} (hsizes : sizes ≠ []) (h : IsRow sizes) :
    totalElements sizes = sizes.getLast hsizes := by
  conv_lhs => rw [eq_replicate_of_isRow hsizes h]
  simp [totalElements]

theorem walkedDims_one_cons {throttle pos : Nat} {rest : List Nat} (h : rest ≠ []) :
    walkedDims throttle pos (1 :: rest) = walkedDims throttle (pos + 1) rest := by
  obtain ⟨r, rest, rfl⟩ := List.exists_cons_of_ne_nil h
  rw [walkedDims, if_neg (by simp), List.nil_append]

theorem walkedDims_row (throttle pos n k : Nat) :
    walkedDims throttle pos (List.replicate n 1 ++ [k]) = walkedDims throttle (pos + n) [k] := by
  induction n generalizing pos with
  | zero => rfl
  | succ n ih =>
    rw [List.replicate_succ, List.cons_append, walkedDims_one_cons (by simp), ih, Nat.add_assoc,
      Nat.add_comm 1 n]

/-- One row that fits a vector is not walked. -/
theorem walkedDims_eq_nil {throttle : Nat} {sizes : List Nat} (hsizes : sizes ≠ [])
    (h : IsRow sizes) (hle : totalElements sizes ≤ throttle) : walkedDims throttle 0 sizes = [] := by
  rw [eq_replicate_of_isRow hsizes h, walkedDims_row, walkedDims]
  rw [totalElements_of_isRow hsizes h] at hle
  apply if_neg
  have := Nat.div_le_of_le_mul (show sizes.getLast hsizes ≤ throttle * 1 by omega)
  omega

/-- The lanes of one vector are the points of a row that fits it. -/
theorem points_eq_row {throttle : Nat} {sizes : List Nat} (hsizes : sizes ≠ [])
    (h : IsRow sizes) (hle : totalElements sizes ≤ throttle) :
    points sizes = (points (timeExtents []) ×ˢ List.range (totalElements sizes)).map fun x =>
      walkIndex throttle sizes x.1 x.2 := by
  have hdims := walkedDims_eq_nil hsizes h hle
  have hpoints : points sizes = (List.range (totalElements sizes)).map fun l =>
      List.replicate (sizes.length - 1) 0 ++ [l] := by
    conv_lhs => rw [eq_replicate_of_isRow hsizes h]
    rw [points_row, totalElements_of_isRow hsizes h]
  have hindex : ∀ l, walkIndex throttle sizes [0] l =
      List.replicate (sizes.length - 1) 0 ++ [l] := by
    intro l
    have hlen : (List.replicate (sizes.length - 1) 0 ++ [l]).length = sizes.length := by
      have := List.length_pos_iff.2 hsizes
      simp
      omega
    rw [← offsets_add_lane l hsizes (by simp [hdims])]
    show List.zipWith _ (((walkedDims throttle 0 sizes).zip [0]).foldl _ _) _ = _
    have hzeros := zipWith_add_zeros (List.replicate (sizes.length - 1) 0 ++ [l])
    rw [hlen] at hzeros
    rw [hdims, List.zip_nil_left, List.foldl_nil, describeTransferTimeDims_rank,
      List.zipWith_comm_of_comm Nat.add_comm]
    exact hzeros
  rw [hpoints]
  show _ = (([[0]] : List (List Nat)) ×ˢ List.range (totalElements sizes)).map _
  simp [SProd.sprod, List.product, hindex, Function.comp_def]

/-! ### The steps of a source -/

theorem getLastD_eq {sizes : List Nat} (hsizes : sizes ≠ []) :
    sizes.getLastD 0 = sizes.getLast hsizes := by
  rw [List.getLastD_eq_getLast?, List.getLast?_eq_some_getLast hsizes, Option.getD_some]

/-- A box that whole vectors fill holds at least one vector. -/
theorem le_totalElements {throttle : Nat} {sizes : List Nat} (hsizes : sizes ≠ [])
    (hpos : 0 < totalElements sizes) (hdvd : throttle ∣ sizes.getLastD 0) :
    throttle ≤ totalElements sizes := by
  rw [getLastD_eq hsizes] at hdvd
  have hrow : sizes.getLast hsizes ∣ totalElements sizes := List.dvd_prod (List.getLast_mem hsizes)
  exact Nat.le_of_dvd hpos (hdvd.trans hrow)

theorem points_eq_stepsOf_of_fills {throttle : Nat} {sizes src : List Nat} (hsizes : sizes ≠ [])
    (hthrottle : 0 < throttle) (hpos : 0 < totalElements sizes)
    (hdvd : throttle ∣ sizes.getLastD 0) (hsrc : throttle ≤ totalElements src)
    (hext : (describeTransferTimeDims sizes throttle).extents =
      (describeTransferTimeDims src throttle).extents) :
    points sizes = (stepsOf src throttle).map fun x => walkIndex throttle sizes x.1 x.2 := by
  rw [getLastD_eq hsizes] at hdvd
  rw [stepsOf, Nat.min_eq_right hsrc]
  exact points_eq_steps hsizes hthrottle (getLast_pos hsizes hpos) hdvd hext

theorem points_eq_stepsOf_of_row {throttle : Nat} {sizes src : List Nat} (hsizes : sizes ≠ [])
    (hsrc_sizes : src ≠ []) (h : IsRow sizes) (hsrc : IsRow src)
    (htotal : totalElements sizes = totalElements src) (hle : totalElements src ≤ throttle) :
    points sizes = (stepsOf src throttle).map fun x => walkIndex throttle sizes x.1 x.2 := by
  have hext : (describeTransferTimeDims src throttle).extents = [] := by
    rw [TransferTimeDims.extents, describeTransferTimeDims_dims,
      walkedDims_eq_nil hsrc_sizes hsrc hle, List.map_nil]
  rw [stepsOf, Nat.min_eq_left hle, hext, ← htotal]
  exact points_eq_row hsizes h (htotal ▸ hle)

/-! ## Lowered transfers -/

/-- What an accepted transfer is, and what becomes of it. -/
structure Lowers (t : IndDataTransfer) (box : TransferBox) (throttle : Nat)
    (op : CompositeIndirectLoadAndStore) : Prop where
  src : t.dir_src = .memref box
  throttle_eq : t.throttle = some (throttle : Int)
  throttle_pos : 0 < throttle
  total_pos : 0 < totalElements box.sizes
  src_sizes : box.sizes ≠ []
  is_gather : op.is_gather = t.is_gather
  load : op.load = directAccess box (min (totalElements box.sizes) throttle)
    (describeTransferTimeDims box.sizes throttle)
  iab_map : op.iab_map = t.iab.map
  iab_index : op.iab_index = t.iab.index
  iab_time_addr : op.iab_time_addr = t.iab.timeDims
  iab_dims : t.iab.timeDims.dims.length ≤
    (timeExtents (describeTransferTimeDims box.sizes throttle).extents).length
  time_set : op.time_set = timeExtents (describeTransferTimeDims box.sizes throttle).extents
  lanes : op.lanes = min (totalElements box.sizes) throttle
  store : (∃ dst, t.dir_dst = .memref dst ∧ dst.sizes ≠ [] ∧
      (walkedDims throttle 0 dst.sizes).length ≤
        (timeExtents (describeTransferTimeDims box.sizes throttle).extents).length ∧
      op.store = .memref (directAccess dst (min (totalElements box.sizes) throttle)
        (describeTransferTimeDims dst.sizes throttle))) ∨
    ∃ sizes, t.dir_dst = .fifo sizes ∧ op.store = .send

theorem timeAddrMap_ok {n : Nat} {d e : TransferTimeDims} (h : timeAddrMap n d = .ok e) :
    d.dims.length ≤ n ∧ e = d := by
  unfold timeAddrMap at h
  split at h
  · next hle =>
    cases h
    exact ⟨hle, rfl⟩
  · cases h

theorem lowerDestination_ok {dir_dst : Endpoint} {unit : Bool} {throttle lanes n : Nat}
    {sizes : List Nat} {store : StoreAccess} (hstatic : dir_dst.staticSizes = some sizes)
    (h : lowerDestination dir_dst unit throttle lanes n = .ok store) :
    (∃ dst, dir_dst = .memref dst ∧ dst.sizes ≠ [] ∧
      (walkedDims throttle 0 dst.sizes).length ≤ n ∧
      store = .memref (directAccess dst lanes (describeTransferTimeDims dst.sizes throttle))) ∨
    ∃ sizes, dir_dst = .fifo sizes ∧ store = .send := by
  unfold lowerDestination at h
  cases dir_dst with
  | memref dst =>
    simp only at h
    split at h
    · cases h
    · next hsizes =>
      cases hmap : timeAddrMap n (describeTransferTimeDims dst.sizes throttle) with
      | error e =>
        rw [hmap] at h
        cases h
      | ok d =>
        obtain ⟨hle, rfl⟩ := timeAddrMap_ok hmap
        rw [hmap] at h
        cases h
        exact .inl ⟨dst, rfl, hsizes, hle, rfl⟩
  | fifo sizes =>
    simp only at h
    split at h
    · cases h
      exact .inr ⟨sizes, rfl, rfl⟩
    · cases h
  | dynamicMemRef => cases hstatic
  | dynamicFifo => cases hstatic

theorem lowerFrom_ok {box : TransferBox} {throttle : Nat} {sizes : List Nat}
    (hsrc : t.dir_src = .memref box) (hthrottle : t.throttle = some (throttle : Int))
    (hpos : 0 < throttle) (htotal : 0 < totalElements box.sizes) (hsizes : box.sizes ≠ [])
    (hstatic : t.dir_dst.staticSizes = some sizes) (h : lowerFrom t box throttle = .ok op) :
    Lowers t box throttle op := by
  unfold lowerFrom at h
  cases hiab : timeAddrMap (timeExtents (describeTransferTimeDims box.sizes throttle).extents).length
      t.iab.timeDims with
  | error e =>
    simp only [hiab] at h
    cases h
  | ok d =>
    obtain ⟨hle, rfl⟩ := timeAddrMap_ok hiab
    cases hstore : lowerDestination t.dir_dst t.fifo_dest_unit throttle
        (min (totalElements box.sizes) throttle)
        (timeExtents (describeTransferTimeDims box.sizes throttle).extents).length with
    | error e =>
      simp only [hiab, hstore] at h
      cases h
    | ok store =>
      simp only [hiab, hstore] at h
      cases h
      exact ⟨hsrc, hthrottle, hpos, htotal, hsizes, rfl, rfl, rfl, rfl, rfl, hle, rfl, rfl,
        lowerDestination_ok hstatic hstore⟩

theorem lowers_of_lowerIndDataTransfer (h : lowerIndDataTransfer t = .ok op) :
    ∃ box throttle, Lowers t box throttle op := by
  unfold lowerIndDataTransfer at h
  split at h
  · cases h
  · split at h
    · cases h
    · split at h
      · next box sizes throttle hsrc hdst hthrottle =>
        split at h
        · cases h
        · next hlanes =>
          rw [not_or, not_le] at hlanes
          split at h
          · cases h
          · next hsizes =>
            obtain ⟨n, rfl⟩ := Int.eq_ofNat_of_zero_le hlanes.1.le
            exact ⟨box, n, lowerFrom_ok hsrc hthrottle (by omega) (Nat.pos_of_ne_zero hlanes.2)
              hsizes hdst h⟩
      · cases h
      · cases h

/-! ## The accesses of a lowered transfer -/

/-- The destination element of a step and a lane, which are number `k` in order. -/
def IndDataTransfer.dstElement (t : IndDataTransfer) (throttle : Nat) (x : List Nat × Nat) (k : Nat) :
    Element :=
  match t.dir_dst with
  | .memref dst => .memref (dst.walkElement throttle x)
  | _ => .fifo k

theorem time_length {box : TransferBox} {throttle : Nat} {time : List Nat}
    (h : time ∈ points (timeExtents (describeTransferTimeDims box.sizes throttle).extents)) :
    (walkedDims throttle 0 box.sizes).length ≤ time.length := by
  have hlen := length_take_of_mem h
  rw [length_extents, List.length_take] at hlen
  omega

section Lowered

variable {box : TransferBox} {throttle : Nat} (hl : Lowers t box throttle op)

include hl

theorem accesses_eq :
    op.accesses = (stepsOf box.sizes throttle).zipIdx.map fun y =>
      access t.is_gather (some (.memref (box.walkElement throttle y.1))) (op.entry y.1.1)
        (some (t.dstElement throttle y.1 y.2)) := by
  have hsteps : op.steps = stepsOf box.sizes throttle := by
    rw [CompositeIndirectLoadAndStore.steps, hl.time_set, hl.lanes, stepsOf]
  rw [CompositeIndirectLoadAndStore.accesses, hsteps]
  apply List.map_congr_left
  rintro ⟨⟨time, l⟩, k⟩ hy
  obtain ⟨htime, hlane⟩ := mem_stepsOf.1 (List.fst_mem_of_mem_zipIdx hy)
  have hload := directAccess_element box hl.src_sizes hlane (time_length htime)
  have hstore : op.store.element time l k = some (t.dstElement throttle (time, l) k) := by
    rcases hl.store with ⟨dst, hdst, hsizes, hdims, hstore⟩ | ⟨sizes, hdst, hstore⟩
    · have hlen : (walkedDims throttle 0 dst.sizes).length ≤ time.length := by
        rw [length_of_mem_points htime]
        exact hdims
      simp only [hstore, StoreAccess.element, directAccess_element dst hsizes hlane hlen,
        IndDataTransfer.dstElement, hdst, Option.map_some]
    · simp only [hstore, StoreAccess.element, IndDataTransfer.dstElement, hdst]
  simp only [CompositeIndirectLoadAndStore.laneAccess, hl.is_gather, hl.load, hload, hstore,
    Option.map_some]

/-- At a time step all of whose numbers are zero, the entry is that of the transfer. -/
theorem entry_of_zeros {time : List Nat} (h : ∀ x ∈ time, x = 0) :
    op.entry time = t.iab.entry := by
  have hzero : ∀ (dims : List TransferTimeDim) (n : Nat),
      (dims.zip time).foldl TransferTimeDims.place (List.replicate n 0) = List.replicate n 0 := by
    intro dims n
    have hplace : ∀ x ∈ dims.zip time,
        TransferTimeDims.place (List.replicate n 0) x = List.replicate n 0 := by
      intro x hx
      rw [TransferTimeDims.place, h _ (List.of_mem_zip hx).2, Nat.mul_zero]
      exact List.set_replicate_self
    clear h
    revert hplace
    induction dims.zip time with
    | nil => exact fun _ => rfl
    | cons x xs ih =>
      intro hplace
      rw [List.foldl_cons, hplace x (by simp)]
      exact ih fun y hy => hplace y (List.mem_cons_of_mem _ hy)
  rw [CompositeIndirectLoadAndStore.entry, hl.iab_map, hl.iab_index, hl.iab_time_addr,
    TransferTimeDims.offsets, hzero]
  apply shift_zeros
  rw [t.iab.rank]
  simp [AddressBuffer.timeDims, AddressBuffer.sizes]

theorem entry_eq (hkeeps : KeepsEntry throttle box t.iab) {time : List Nat}
    (h : time ∈ points (timeExtents (describeTransferTimeDims box.sizes throttle).extents)) :
    op.entry time = t.iab.entry := by
  rcases hkeeps with hnone | hone
  · have hnil : op.entry [] = t.iab.entry := entry_of_zeros hl (by simp)
    rw [← hnil]
    rw [CompositeIndirectLoadAndStore.entry, CompositeIndirectLoadAndStore.entry, hl.iab_time_addr,
      TransferTimeDims.offsets, TransferTimeDims.offsets, hnone]
    simp
  · rw [hone] at h
    apply entry_of_zeros hl
    have : time = [0] := List.mem_singleton.1 h
    simp [this]

/-! ### Exact steps -/

theorem src_elements_eq (h : FillsRows throttle box t.dir_dst ∨ FitsRow throttle box t.dir_dst) :
    box.elements = (stepsOf box.sizes throttle).map (box.walkElement throttle) := by
  have hpoints : points box.sizes = (stepsOf box.sizes throttle).map fun x =>
      walkIndex throttle box.sizes x.1 x.2 := by
    rcases h with ⟨hdvd, -⟩ | ⟨hle, hrow, -⟩
    · exact points_eq_stepsOf_of_fills hl.src_sizes hl.throttle_pos hl.total_pos hdvd
        (le_totalElements hl.src_sizes hl.total_pos hdvd) rfl
    · exact points_eq_stepsOf_of_row hl.src_sizes hl.src_sizes hrow hrow rfl hle
  rw [TransferBox.elements, hpoints, List.map_map]
  rfl

theorem dst_elements_eq {dst : TransferBox} (hdst : t.dir_dst = .memref dst) (hsizes : dst.sizes ≠ [])
    (htotal : totalElements dst.sizes = totalElements box.sizes)
    (h : FillsRows throttle box t.dir_dst ∨ FitsRow throttle box t.dir_dst) :
    dst.elements = (stepsOf box.sizes throttle).map (dst.walkElement throttle) := by
  have hpoints : points dst.sizes = (stepsOf box.sizes throttle).map fun x =>
      walkIndex throttle dst.sizes x.1 x.2 := by
    rcases h with ⟨hdvd, hfill⟩ | ⟨hle, hrow, hdrow⟩
    · obtain ⟨hdvd', hext⟩ := hfill dst hdst
      exact points_eq_stepsOf_of_fills hsizes hl.throttle_pos (htotal ▸ hl.total_pos) hdvd'
        (le_totalElements hl.src_sizes hl.total_pos hdvd) hext.symm
    · exact points_eq_stepsOf_of_row hsizes hl.src_sizes (hdrow dst hdst) hrow htotal hle
  rw [TransferBox.elements, hpoints, List.map_map]
  rfl

/-- The elements of the destination, numbered by the steps. -/
theorem dir_dst_elements_eq (htotals : t.totalsAgree)
    (h : FillsRows throttle box t.dir_dst ∨ FitsRow throttle box t.dir_dst) :
    t.dir_dst.elements =
      (stepsOf box.sizes throttle).zipIdx.map fun y => t.dstElement throttle y.1 y.2 := by
  have hlen : t.dir_dst.elements.length = (stepsOf box.sizes throttle).length := by
    rw [← htotals, hl.src, Endpoint.elements, List.length_map, src_elements_eq hl h, List.length_map]
  rcases hl.store with ⟨dst, hdst, hsizes, -, -⟩ | ⟨sizes, hdst, -⟩
  · have htotal : totalElements dst.sizes = totalElements box.sizes := by
      have := htotals
      rw [IndDataTransfer.totalsAgree, hl.src, hdst] at this
      simpa [Endpoint.elements, TransferBox.length_elements] using this.symm
    have hfst : (stepsOf box.sizes throttle).zipIdx.map Prod.fst = stepsOf box.sizes throttle :=
      List.zipIdx_map_fst 0 _
    have helement : (fun y : (List Nat × Nat) × Nat => t.dstElement throttle y.1 y.2) =
        (Element.memref ∘ dst.walkElement throttle) ∘ Prod.fst := by
      funext y
      simp [IndDataTransfer.dstElement, hdst]
    rw [helement, ← List.map_map, hfst, hdst, Endpoint.elements,
      dst_elements_eq hl hdst hsizes htotal h, List.map_map]
  · have hsnd : (stepsOf box.sizes throttle).zipIdx.map Prod.snd =
        List.range (stepsOf box.sizes throttle).length := by
      rw [List.zipIdx_map_snd, List.range_eq_range']
    have helement : (fun y : (List Nat × Nat) × Nat => t.dstElement throttle y.1 y.2) =
        Element.fifo ∘ Prod.snd := by
      funext y
      simp [IndDataTransfer.dstElement, hdst]
    rw [helement, ← List.map_map, hsnd, ← hlen, hdst]
    simp [Endpoint.elements]

theorem accesses_eq_of_exact (htotals : t.totalsAgree)
    (h : FillsRows throttle box t.dir_dst ∨ FitsRow throttle box t.dir_dst)
    (hkeeps : KeepsEntry throttle box t.iab) : op.accesses = t.accesses := by
  have hsrc : t.dir_src.elements = (stepsOf box.sizes throttle).zipIdx.map fun y =>
      Element.memref (box.walkElement throttle y.1) := by
    have hfst : (stepsOf box.sizes throttle).zipIdx.map Prod.fst = stepsOf box.sizes throttle :=
      List.zipIdx_map_fst 0 _
    rw [hl.src, Endpoint.elements, src_elements_eq hl h]
    conv_lhs => rw [← hfst]
    rw [List.map_map, List.map_map]
    rfl
  rw [accesses_eq hl, IndDataTransfer.accesses, hsrc, dir_dst_elements_eq hl htotals h, List.zip_map',
    List.map_map]
  apply List.map_congr_left
  rintro ⟨⟨time, l⟩, k⟩ hy
  have hstep := (mem_stepsOf.1 (List.fst_mem_of_mem_zipIdx hy)).1
  show access _ _ (op.entry time) _ = _
  rw [entry_eq hl hkeeps hstep]
  rfl

end Lowered

/-! ## The two operands of an access -/

/-- The element of the source operand. -/
def Access.src (is_gather : Bool) (a : Access) : Option Element :=
  if is_gather then a.indirect else a.direct

def Access.dst (is_gather : Bool) (a : Access) : Option Element :=
  if is_gather then a.direct else a.indirect

@[simp] theorem src_access (g : Bool) (s : Option Element) (e : List Int) (d : Option Element) :
    (access g s e d).src g = s := by
  cases g <;> rfl

@[simp] theorem dst_access (g : Bool) (s : Option Element) (e : List Int) (d : Option Element) :
    (access g s e d).dst g = d := by
  cases g <;> rfl

@[simp] theorem entry_access (g : Bool) (s : Option Element) (e : List Int) (d : Option Element) :
    (access g s e d).entry = e := by
  cases g <;> rfl

theorem MovesSame.src (h : MovesSame t op) {e : Element} (he : e ∈ t.dir_src.elements) :
    ∃ a ∈ op.accesses, a.src t.is_gather = some e := by
  cases hg : t.is_gather with
  | true => exact h.indirect e (by simpa [hg] using he)
  | false => exact h.direct e (by simpa [hg] using he)

theorem MovesSame.dst (h : MovesSame t op) {e : Element} (he : e ∈ t.dir_dst.elements) :
    ∃ a ∈ op.accesses, a.dst t.is_gather = some e := by
  cases hg : t.is_gather with
  | true => exact h.direct e (by simpa [hg] using he)
  | false => exact h.indirect e (by simpa [hg] using he)

/-- With equally many elements in both operands, none of them is left out of the pairs. -/
theorem mem_accesses_of_totalsAgree (h : t.totalsAgree) :
    (∀ e ∈ t.dir_src.elements, ∃ a ∈ t.accesses, a.src t.is_gather = some e) ∧
      ∀ e ∈ t.dir_dst.elements, ∃ a ∈ t.accesses, a.dst t.is_gather = some e := by
  constructor
  · intro e he
    rw [← List.map_fst_zip h.le] at he
    obtain ⟨x, hx, rfl⟩ := List.mem_map.1 he
    exact ⟨_, List.mem_map_of_mem hx, by simp⟩
  · intro e he
    rw [← List.map_snd_zip h.ge] at he
    obtain ⟨x, hx, rfl⟩ := List.mem_map.1 he
    exact ⟨_, List.mem_map_of_mem hx, by simp⟩

theorem movesSame_of_accesses_eq (htotals : t.totalsAgree) (h : op.accesses = t.accesses) :
    MovesSame t op := by
  obtain ⟨hsrc, hdst⟩ := mem_accesses_of_totalsAgree htotals
  refine ⟨h ▸ List.Perm.refl _, ?_, ?_⟩
  · rw [h]
    intro e he
    cases hg : t.is_gather with
    | true =>
      obtain ⟨a, ha, hae⟩ := hdst e (by simpa [hg] using he)
      exact ⟨a, ha, by simpa [Access.dst, hg] using hae⟩
    | false =>
      obtain ⟨a, ha, hae⟩ := hsrc e (by simpa [hg] using he)
      exact ⟨a, ha, by simpa [Access.src, hg] using hae⟩
  · rw [h]
    intro e he
    cases hg : t.is_gather with
    | true =>
      obtain ⟨a, ha, hae⟩ := hsrc e (by simpa [hg] using he)
      exact ⟨a, ha, by simpa [Access.src, hg] using hae⟩
    | false =>
      obtain ⟨a, ha, hae⟩ := hdst e (by simpa [hg] using he)
      exact ⟨a, ha, by simpa [Access.dst, hg] using hae⟩

/-! ## What exactness needs -/

theorem nodup_elements (e : Endpoint) : e.elements.Nodup := by
  cases e with
  | memref box => exact box.nodup_elements.map fun _ _ h => Element.memref.inj h
  | fifo sizes => exact List.nodup_range.map fun _ _ h => Element.fifo.inj h
  | dynamicMemRef => exact List.nodup_nil
  | dynamicFifo => exact List.nodup_nil

theorem totalsAgree_of_movesSame (h : MovesSame t op) : t.totalsAgree := by
  apply Nat.le_antisymm
  · have hsub : t.dir_src.elements ⊆ (t.dir_src.elements.zip t.dir_dst.elements).map Prod.fst := by
      intro e he
      obtain ⟨a, ha, hae⟩ := h.src he
      obtain ⟨x, hx, rfl⟩ := List.mem_map.1 (h.accesses.mem_iff.1 ha)
      rw [src_access] at hae
      exact List.mem_map.2 ⟨x, hx, Option.some.inj hae⟩
    have := (List.subperm_of_subset (nodup_elements _) hsub).length_le
    simp only [List.length_map, List.length_zip] at this
    omega
  · have hsub : t.dir_dst.elements ⊆ (t.dir_src.elements.zip t.dir_dst.elements).map Prod.snd := by
      intro e he
      obtain ⟨a, ha, hae⟩ := h.dst he
      obtain ⟨x, hx, rfl⟩ := List.mem_map.1 (h.accesses.mem_iff.1 ha)
      rw [dst_access] at hae
      exact List.mem_map.2 ⟨x, hx, Option.some.inj hae⟩
    have := (List.subperm_of_subset (nodup_elements _) hsub).length_le
    simp only [List.length_map, List.length_zip] at this
    omega

end IndDataTransferLowering
