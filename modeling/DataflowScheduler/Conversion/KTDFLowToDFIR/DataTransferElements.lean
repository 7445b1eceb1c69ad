import DataflowScheduler.Conversion.KTDFLowToDFIR.DataTransferLowering

/-!
# The elements a lowered transfer moves

Both sides of the emitted operation number their elements by a time step and a lane. A side that is
filled with whole vectors numbers them in row-major order, so the two numberings join the `k`-th
element of one side with the `k`-th of the other.
-/

namespace DataTransferLowering

open RowMajor

variable {t : DataTransfer} {op : CompositeLoadAndStore}

/-! ## Shifts -/

theorem shift_shift (b : List Int) (o p : List Nat) :
    shift (shift b o) p = shift b (List.zipWith (· + ·) o p) := by
  induction b generalizing o p with
  | nil => simp [shift]
  | cons x b ih =>
    cases o <;> cases p <;> simp_all [shift, Int.add_assoc]

theorem shift_zeros (b : List Int) {n : Nat} (h : b.length = n) : shift b (List.replicate n 0) = b := by
  subst h
  induction b with
  | nil => rfl
  | cons x b ih => simpa [shift, List.replicate_succ] using ih

/-- What is added at one index can be added before or with the offset. -/
theorem shift_modify (b : List Int) (o : List Nat) (m v : Nat) (h : o[m]? = some 0) :
    shift (b.modify m (· + (v : Int))) o = shift b (o.set m v) := by
  induction b generalizing o m with
  | nil => simp [shift]
  | cons x b ih =>
    cases o with
    | nil => simp at h
    | cons y o =>
      cases m with
      | zero =>
        have hy : y = 0 := by simpa using h
        simp [shift, hy]
      | succ m => simpa [shift] using ih o m (by simpa using h)

theorem shift_injOn {b : List Int} {p q : List Nat} (hp : p.length = b.length)
    (hq : q.length = b.length) (h : shift b p = shift b q) : p = q := by
  induction b generalizing p q with
  | nil => simp_all
  | cons x b ih =>
    cases p with
    | nil => simp at hp
    | cons y p =>
      cases q with
      | nil => simp at hq
      | cons z q =>
        simp only [shift, List.zipWith_cons_cons, List.cons.injEq] at h
        have hyz : y = z := by omega
        rw [hyz, ih (by simpa using hp) (by simpa using hq) h.2]

theorem TransferBox.length_elements (side : TransferBox) :
    side.elements.length = totalElements side.sizes := by
  rw [elements, List.length_map, length_points, totalElements]

/-- Different elements of a side have different subscripts. -/
theorem TransferBox.nodup_elements (side : TransferBox) : side.elements.Nodup := by
  apply List.Nodup.map_on _ (nodup_points side.sizes)
  intro p hp q hq h
  apply shift_injOn _ _ h
  · rw [side.rank, length_of_mem_points hp]
  · rw [side.rank, length_of_mem_points hq]

/-! ## Walked sides -/

/-- The time steps and lanes that `sizes` is walked in. -/
def walk (sizes : List Nat) (lanes : Nat) : List (List Nat × Nat) :=
  points (describeTransferTimeDims sizes lanes).extents ×ˢ List.range lanes

/-- The element of a side at a time step and a lane. -/
def TransferBox.walkElement (side : TransferBox) (lanes : Nat) (x : List Nat × Nat) : List Int :=
  shift (side.map.apply side.indices) (walkIndex lanes side.sizes x.1 x.2)

theorem mem_walk {sizes : List Nat} {lanes : Nat} {x : List Nat × Nat} :
    x ∈ walk sizes lanes ↔
      x.1 ∈ points (describeTransferTimeDims sizes lanes).extents ∧ x.2 < lanes := by
  obtain ⟨time, lane⟩ := x
  rw [walk, SProd.sprod, List.instSProd, List.pair_mem_product, List.mem_range]

theorem TransferBox.elements_eq_walk (side : TransferBox) {lanes : Nat} (hsizes : side.sizes ≠ [])
    (hlanes : 0 < lanes) (hlast : 0 < side.sizes.getLast hsizes)
    (hdvd : lanes ∣ side.sizes.getLast hsizes) :
    side.elements = (walk side.sizes lanes).map (side.walkElement lanes) := by
  rw [elements, points_eq_walk 0 hsizes hlanes hlast hdvd]
  simp only [walk, SProd.sprod, List.product, List.map_flatMap, List.map_map]
  rfl

/-- A lane of a walked side, without a loop. -/
theorem element_emitSide_none (side : TransferBox) {lanes l : Nat} {time : List Nat} (iv : Nat)
    (hsizes : side.sizes ≠ []) (hl : l < lanes)
    (htime : (walkedDims lanes 0 side.sizes).length ≤ time.length) :
    (emitSide side (vectorSizes side.sizes lanes) (describeTransferTimeDims side.sizes lanes)
      none).element iv time l = some (side.walkElement lanes (time, l)) := by
  have hpoint : (points (vectorSizes side.sizes lanes))[l]? =
      some (List.replicate (side.sizes.length - 1) 0 ++ [l]) := by
    rw [vectorSizes, points_row]
    simp [hl]
  simp only [SideAccess.element, emitSide, hpoint, Option.map_some, List.map_map, shift_shift,
    offsets_add_lane l hsizes htime, TransferBox.walkElement, Function.comp_def, IndexOperand.eval,
    List.map_id']

/-- The subscripts of a side whose step is folded in, in an iteration of the loop. -/
theorem foldStepIntoSubscripts_apply (side : TransferBox) (step : TransferTimeDim) (iv : Nat)
    (hsymbols : side.map.numSymbols = 0) :
    (foldStepIntoSubscripts side.map step).apply
        ((side.indices.map IndexOperand.value ++ [IndexOperand.inductionVar]).map
          (IndexOperand.eval iv)) =
      (side.map.apply side.indices).modify step.memref_dim
        (· + ((step.index_step * iv : Nat) : Int)) := by
  have hdims : side.indices.length = side.map.numDims := by
    have := side.operands
    omega
  have heval : (side.indices.map IndexOperand.value ++ [IndexOperand.inductionVar]).map
      (IndexOperand.eval iv) = side.indices ++ [(iv : Int)] := by
    simp [IndexOperand.eval, Function.comp_def]
  rw [heval]
  have hall : (side.indices ++ [(iv : Int)]).take (side.map.numDims + 1) =
      side.indices ++ [(iv : Int)] := by
    apply List.take_of_length_le
    simp [hdims]
  have hown : (side.indices ++ [(iv : Int)]).take side.map.numDims = side.indices := by
    rw [← hdims, List.take_left]
  simp only [AffineMap.apply, foldStepIntoSubscripts, hall, hown]
  simp [← hdims]

/-- A lane of a walked side in an iteration of the loop that drives time dimension `i`. -/
theorem element_emitSide_some (side : TransferBox) {lanes l i : Nat} {time : List Nat} (iv : Nat)
    (hsizes : side.sizes ≠ []) (hl : l < lanes) (hi : i < (walkedDims lanes 0 side.sizes).length)
    (htime : time.length + 1 = (walkedDims lanes 0 side.sizes).length)
    (hsymbols : side.map.numSymbols = 0) :
    (emitSide side (vectorSizes side.sizes lanes) (describeTransferTimeDims side.sizes lanes)
      (some i)).element iv time l = some (side.walkElement lanes (time.insertIdx i iv, l)) := by
  have hpoint : (points (vectorSizes side.sizes lanes))[l]? =
      some (List.replicate (side.sizes.length - 1) 0 ++ [l]) := by
    rw [vectorSizes, points_row]
    simp [hl]
  have hstep : (walkedDims lanes 0 side.sizes).getD i ⟨0, 0, 0⟩ =
      (walkedDims lanes 0 side.sizes)[i] := by
    simp [hi]
  have hinsert : (walkedDims lanes 0 side.sizes).length ≤ (time.insertIdx i iv).length := by
    rw [List.length_insertIdx_of_le_length (by omega)]
    omega
  simp only [SideAccess.element, emitSide, hpoint, Option.map_some, describeTransferTimeDims_dims,
    hstep, foldStepIntoSubscripts_apply side _ iv hsymbols]
  rw [shift_modify _ _ _ _ (eraseDim_offsets_getElem? time hi), ← offsets_insertIdx iv hi htime,
    shift_shift, offsets_add_lane l hsizes hinsert]
  rfl

/-! ## The accesses of a split transfer -/

theorem mem_accesses {access : Option (List Int) × Option (List Int)} :
    access ∈ op.accesses ↔ ∃ iv ∈ op.iterations, ∃ time ∈ points op.time_set, ∃ l < op.lanes,
      access = (op.load.element iv time l, op.store.element iv time l) := by
  simp [CompositeLoadAndStore.accesses, eq_comm]

/-- Without the pinned step, the time set is that of the walked dimensions. -/
theorem map_take_points_timeExtents (extents : List Nat) :
    (points (timeExtents extents)).map (·.take extents.length) = points extents := by
  cases extents with
  | nil => rfl
  | cons e extents =>
    rw [timeExtents, if_neg (by simp)]
    have hid : ∀ p ∈ points (e :: extents), p.take (e :: extents).length = p := by
      intro p hp
      rw [← length_of_mem_points hp, List.take_length]
    rw [List.map_congr_left hid, List.map_id']

/-- A time step counts only as far as a side has time dimensions. -/
theorem element_emitSide_take (side : TransferBox) (set : List Nat) (d : TransferTimeDims)
    (loop : Option Nat) (iv l : Nat) (time : List Nat) :
    (emitSide side set d loop).element iv
        (time.take (emitSide side set d loop).time_addr.dims.length) l =
      (emitSide side set d loop).element iv time l := by
  rw [SideAccess.element, SideAccess.element, TransferTimeDims.offsets_take]

/-- What `splitIntoVectors` accepts, and what it makes of it. -/
structure Splits (t : DataTransfer) (lanes : Nat) (v : VectorTransfer) : Prop where
  lanes_pos : 0 < lanes
  src_sizes : t.source.sizes ≠ []
  dst_sizes : t.dest.sizes ≠ []
  src_dvd : lanes ∣ t.source.sizes.getLast src_sizes
  dst_dvd : lanes ∣ t.dest.sizes.getLast dst_sizes
  extents : (describeTransferTimeDims t.source.sizes lanes).extents =
    (describeTransferTimeDims t.dest.sizes lanes).extents
  eq : v = walkedVectors t lanes v.loop_time_dim
  loop : ∀ i, v.loop_time_dim = some i → i ∈ t.divergent lanes

theorem splitAcrossTime_loop {v : VectorTransfer} {lanes : Nat}
    (h : splitAcrossTime t lanes = .ok v) :
    (describeTransferTimeDims t.source.sizes lanes).extents =
        (describeTransferTimeDims t.dest.sizes lanes).extents ∧
      v = walkedVectors t lanes v.loop_time_dim ∧
      ∀ i, v.loop_time_dim = some i → i ∈ t.divergent lanes := by
  unfold splitAcrossTime at h
  split at h
  · cases h
  · next hext =>
    refine ⟨not_not.1 hext, ?_⟩
    split at h
    · cases h
      exact ⟨rfl, fun i hi => nomatch hi⟩
    · next i hi =>
      cases h
      refine ⟨rfl, ?_⟩
      intro j hj
      cases hj
      rw [hi]
      exact List.mem_singleton_self i
    · cases h

/-- A size that the throttle divides is a number of whole vectors. -/
theorem toNat_dvd {n : Nat} {throttle : Int} (hpos : 0 < throttle) (h : (n : Int) % throttle = 0) :
    throttle.toNat ∣ n := by
  obtain ⟨k, rfl⟩ := Int.eq_ofNat_of_zero_le hpos.le
  exact Int.natCast_dvd_natCast.1 (Int.dvd_of_emod_eq_zero h)

theorem splits_of_splitIntoVectors {v : VectorTransfer} {throttle : Int}
    (h : splitIntoVectors t throttle = .ok v) : Splits t throttle.toNat v := by
  unfold splitIntoVectors at h
  split at h
  · next src_last dst_last hs hd =>
    have hsrc : t.source.sizes ≠ [] := by
      intro hnil
      simp [hnil] at hs
    have hdst : t.dest.sizes ≠ [] := by
      intro hnil
      simp [hnil] at hd
    split at h
    · cases h
    · next hpos =>
      split at h
      · cases h
      · next hmod =>
        have hthrottle : 0 < throttle := not_le.1 hpos
        obtain ⟨hext, heq, hloop⟩ := splitAcrossTime_loop h
        rw [not_or, not_not, not_not] at hmod
        refine ⟨?_, hsrc, hdst, ?_, ?_, hext, heq, hloop⟩
        · omega
        · rw [(List.getLast_eq_iff_getLast?_eq_some hsrc).2 hs]
          exact toNat_dvd hthrottle hmod.1
        · rw [(List.getLast_eq_iff_getLast?_eq_some hdst).2 hd]
          exact toNat_dvd hthrottle hmod.2
  · cases h

/-- A divergent dimension is one of the walked dimensions. -/
theorem lt_of_mem_divergentDims {s d : TransferTimeDims} {i : Nat} (h : i ∈ divergentDims t s d) :
    i < s.dims.length ∧ i < d.dims.length := by
  unfold divergentDims at h
  split at h
  · obtain ⟨x, hx, rfl⟩ := List.mem_map.1 h
    have hlt := List.snd_lt_of_mem_zipIdx (List.mem_filter.1 hx).1
    simp only [List.length_zip] at hlt
    omega
  · simp at h

/-! ## Joining the two sides -/

/-- The same numbering of the elements of both sides, all of it accessed, moves the same. -/
theorem movesSame_of_numbering {α : Type} (xs : List α) (f g : α → List Int)
    (hsource : t.source.elements = xs.map f) (hdest : t.dest.elements = xs.map g)
    (haccesses : ∀ access, access ∈ op.accesses ↔ ∃ x ∈ xs, access = (some (f x), some (g x))) :
    MovesSame t op where
  addresses := by
    intro pair
    rw [hsource, hdest, List.zip_map', List.map_map, List.mem_map, List.mem_map]
    constructor
    · rintro ⟨access, hmem, rfl⟩
      obtain ⟨x, hx, rfl⟩ := (haccesses access).1 hmem
      exact ⟨x, hx, rfl⟩
    · rintro ⟨x, hx, rfl⟩
      exact ⟨_, (haccesses _).2 ⟨x, hx, rfl⟩, rfl⟩
  inside := by
    intro access hmem
    obtain ⟨x, hx, rfl⟩ := (haccesses access).1 hmem
    rw [hsource, hdest]
    exact ⟨⟨f x, List.mem_map_of_mem hx, rfl⟩, g x, List.mem_map_of_mem hx, rfl⟩
  allRead := by
    intro p hp
    rw [hsource] at hp
    obtain ⟨x, hx, rfl⟩ := List.mem_map.1 hp
    exact ⟨_, (haccesses _).2 ⟨x, hx, rfl⟩, rfl⟩
  allWritten := by
    intro p hp
    rw [hdest] at hp
    obtain ⟨x, hx, rfl⟩ := List.mem_map.1 hp
    exact ⟨_, (haccesses _).2 ⟨x, hx, rfl⟩, rfl⟩

/-! ### At most one vector -/

theorem element_emitSide_whole (side : TransferBox) (iv l : Nat) (time : List Nat) :
    (emitSide side side.sizes ⟨[], side.sizes.length⟩ none).element iv time l =
      side.elements[l]? := by
  have hbase : ((side.indices.map IndexOperand.value).map (·.eval iv)) = side.indices := by
    simp [IndexOperand.eval, Function.comp_def]
  simp only [SideAccess.element, emitSide, TransferBox.elements, List.getElem?_map, hbase,
    TransferTimeDims.offsets, List.zip_nil_left, List.foldl_nil, shift_zeros _ side.rank]

theorem mem_accesses_whole {access : Option (List Int) × Option (List Int)} :
    access ∈ (emit t (wholeVector t)).accesses ↔ ∃ l < totalElements t.dest.sizes,
      access = (t.source.elements[l]?, t.dest.elements[l]?) := by
  have hload : ∀ iv time l, (emit t (wholeVector t)).load.element iv time l =
      t.source.elements[l]? := fun iv time l => element_emitSide_whole t.source.toTransferBox iv l time
  have hstore : ∀ iv time l, (emit t (wholeVector t)).store.element iv time l =
      t.dest.elements[l]? := fun iv time l => element_emitSide_whole t.dest.toTransferBox iv l time
  rw [mem_accesses]
  simp only [hload, hstore]
  constructor
  · rintro ⟨_, _, _, _, l, hl, h⟩
    exact ⟨l, hl, h⟩
  · rintro ⟨l, hl, h⟩
    exact ⟨0, List.mem_singleton_self 0, [0], List.mem_singleton_self [0], l, hl, h⟩

/-! ### More than one vector -/

theorem exists_points_timeExtents {extents : List Nat} {P : List Nat → Prop} :
    (∃ time ∈ points (timeExtents extents), P (time.take extents.length)) ↔
      ∃ time ∈ points extents, P time := by
  rw [← map_take_points_timeExtents extents]
  simp

theorem length_take_of_mem {extents time : List Nat} (h : time ∈ points (timeExtents extents)) :
    (time.take extents.length).length = extents.length := by
  apply length_of_mem_points
  rw [← map_take_points_timeExtents]
  exact List.mem_map_of_mem h

@[simp] theorem length_extents (sizes : List Nat) (lanes : Nat) :
    (describeTransferTimeDims sizes lanes).extents.length = (walkedDims lanes 0 sizes).length := by
  simp [TransferTimeDims.extents]

/-- A lane of a side whose dimensions are all on the time axis. -/
theorem element_of_time {side : TransferBox} {lanes l : Nat} {extents time : List Nat} (iv : Nat)
    (hsizes : side.sizes ≠ []) (hl : l < lanes)
    (hext : (describeTransferTimeDims side.sizes lanes).extents = extents)
    (htime : time ∈ points (timeExtents extents)) :
    (emitSide side (vectorSizes side.sizes lanes) (describeTransferTimeDims side.sizes lanes)
        none).element iv time l =
      some (side.walkElement lanes (time.take extents.length, l)) := by
  subst hext
  have hlength := length_take_of_mem htime
  rw [← element_emitSide_take]
  show (emitSide side _ _ none).element iv (time.take (walkedDims lanes 0 side.sizes).length) l = _
  rw [length_extents] at hlength ⊢
  exact element_emitSide_none side iv hsizes hl hlength.ge

/-- A lane of a side one of whose dimensions is driven by the loop. -/
theorem element_of_loop {side : TransferBox} {lanes l i : Nat} {extents time : List Nat} (iv : Nat)
    (hsizes : side.sizes ≠ []) (hl : l < lanes)
    (hext : (describeTransferTimeDims side.sizes lanes).extents = extents) (hi : i < extents.length)
    (htime : time ∈ points (timeExtents (extents.eraseIdx i))) (hsymbols : side.map.numSymbols = 0) :
    (emitSide side (vectorSizes side.sizes lanes) (describeTransferTimeDims side.sizes lanes)
        (some i)).element iv time l =
      some (side.walkElement lanes
        ((time.take (extents.eraseIdx i).length).insertIdx i iv, l)) := by
  subst hext
  have hlength := length_take_of_mem htime
  rw [length_extents] at hi
  have herase : ((describeTransferTimeDims side.sizes lanes).extents.eraseIdx i).length =
      ((walkedDims lanes 0 side.sizes).eraseIdx i).length := by
    simp [List.length_eraseIdx]
  rw [← element_emitSide_take]
  show (emitSide side _ _ (some i)).element iv
    (time.take ((walkedDims lanes 0 side.sizes).eraseIdx i).length) l = _
  rw [herase] at hlength ⊢
  apply element_emitSide_some side iv hsizes hl hi _ hsymbols
  rw [hlength, List.length_eraseIdx_of_lt hi]
  omega

/-- The elements that the walk joins at a time step and a lane. -/
def DataTransfer.joined (t : DataTransfer) (lanes : Nat) (x : List Nat × Nat) :
    Option (List Int) × Option (List Int) :=
  (some (t.source.walkElement lanes x), some (t.dest.walkElement lanes x))

section Walked

variable {lanes : Nat} {extents : List Nat} (hsrc_sizes : t.source.sizes ≠ [])
  (hdst_sizes : t.dest.sizes ≠ [])
  (hsrc : (describeTransferTimeDims t.source.sizes lanes).extents = extents)
  (hdst : (describeTransferTimeDims t.dest.sizes lanes).extents = extents)
  {access : Option (List Int) × Option (List Int)}

include hsrc_sizes hdst_sizes hsrc hdst

theorem mem_accesses_time :
    access ∈ (emit t (walkedVectors t lanes none)).accesses ↔
      ∃ time ∈ points extents, ∃ l < lanes, access = t.joined lanes (time, l) := by
  have hset : (emit t (walkedVectors t lanes none)).time_set = timeExtents extents :=
    congrArg timeExtents hsrc
  have hstep : ∀ iv, ∀ time ∈ points (timeExtents extents), ∀ l < lanes,
      ((emit t (walkedVectors t lanes none)).load.element iv time l,
        (emit t (walkedVectors t lanes none)).store.element iv time l) =
      t.joined lanes (time.take extents.length, l) := by
    intro iv time htime l hl
    exact congrArg₂ Prod.mk (element_of_time iv hsrc_sizes hl hsrc htime)
      (element_of_time iv hdst_sizes hl hdst htime)
  rw [mem_accesses, hset, ← exists_points_timeExtents]
  constructor
  · rintro ⟨iv, -, time, htime, l, hl, rfl⟩
    exact ⟨time, htime, l, hl, hstep iv time htime l hl⟩
  · rintro ⟨time, htime, l, hl, rfl⟩
    exact ⟨0, List.mem_singleton_self 0, time, htime, l, hl, (hstep 0 time htime l hl).symm⟩

theorem mem_accesses_loop {i : Nat} (hi : i < extents.length)
    (hsymbols : t.source.map.numSymbols = 0 ∧ t.dest.map.numSymbols = 0) :
    access ∈ (emit t (walkedVectors t lanes (some i))).accesses ↔
      ∃ time ∈ points extents, ∃ l < lanes, access = t.joined lanes (time, l) := by
  have hiterations : (emit t (walkedVectors t lanes (some i))).iterations =
      List.range extents[i] := by
    show List.range ((describeTransferTimeDims t.source.sizes lanes).extents.getD i 0) = _
    rw [hsrc, List.getD_eq_getElem?_getD, List.getElem?_eq_getElem hi, Option.getD_some]
  have hset : (emit t (walkedVectors t lanes (some i))).time_set =
      timeExtents (extents.eraseIdx i) := by
    subst hsrc
    exact congrArg timeExtents (List.eraseIdx_map _ _ i).symm
  have hstep : ∀ iv, ∀ time ∈ points (timeExtents (extents.eraseIdx i)), ∀ l < lanes,
      ((emit t (walkedVectors t lanes (some i))).load.element iv time l,
        (emit t (walkedVectors t lanes (some i))).store.element iv time l) =
      t.joined lanes ((time.take (extents.eraseIdx i).length).insertIdx i iv, l) := by
    intro iv time htime l hl
    exact congrArg₂ Prod.mk (element_of_loop iv hsrc_sizes hl hsrc hi htime hsymbols.1)
      (element_of_loop iv hdst_sizes hl hdst hi htime hsymbols.2)
  rw [mem_accesses, hset, hiterations]
  simp only [mem_points_iff_insertIdx hi]
  constructor
  · rintro ⟨iv, hiv, time, htime, l, hl, rfl⟩
    have hbox : time.take (extents.eraseIdx i).length ∈ points (extents.eraseIdx i) := by
      rw [← map_take_points_timeExtents (extents.eraseIdx i)]
      exact List.mem_map_of_mem htime
    exact ⟨_, ⟨iv, List.mem_range.1 hiv, _, hbox, rfl⟩, l, hl, hstep iv time htime l hl⟩
  · rintro ⟨_, ⟨iv, hiv, time, htime, rfl⟩, l, hl, rfl⟩
    rw [← map_take_points_timeExtents (extents.eraseIdx i)] at htime
    obtain ⟨full, hfull, rfl⟩ := List.mem_map.1 htime
    exact ⟨iv, List.mem_range.2 hiv, full, hfull, l, hl, (hstep iv full hfull l hl).symm⟩

end Walked

/-- The lanes of all time steps and iterations are those of the walk, each side at its own element
of it. -/
theorem mem_accesses_split {v : VectorTransfer} {lanes : Nat} (hs : Splits t lanes v)
    (hsymbols : v.loop_time_dim ≠ none → t.source.map.numSymbols = 0 ∧ t.dest.map.numSymbols = 0)
    {access : Option (List Int) × Option (List Int)} :
    access ∈ (emit t v).accesses ↔ ∃ x ∈ walk t.source.sizes lanes, access = t.joined lanes x := by
  have hwalk : (∃ x ∈ walk t.source.sizes lanes, access = t.joined lanes x) ↔
      ∃ time ∈ points (describeTransferTimeDims t.source.sizes lanes).extents, ∃ l < lanes,
        access = t.joined lanes (time, l) := by
    simp only [Prod.exists, mem_walk, and_assoc, exists_and_left]
  rw [hwalk, hs.eq]
  cases hloop : v.loop_time_dim with
  | none => exact mem_accesses_time hs.src_sizes hs.dst_sizes rfl hs.extents.symm
  | some i =>
    have hi := (lt_of_mem_divergentDims (hs.loop i hloop)).1
    apply mem_accesses_loop hs.src_sizes hs.dst_sizes rfl hs.extents.symm _ (hsymbols (by simp [hloop]))
    simpa using hi

/-! ## The lowering -/

theorem totalElements_eq_walk {sizes : List Nat} {lanes : Nat} (hsizes : sizes ≠ [])
    (hlanes : 0 < lanes) (hlast : 0 < sizes.getLast hsizes) (hdvd : lanes ∣ sizes.getLast hsizes) :
    totalElements sizes = (walk sizes lanes).length := by
  rw [totalElements, ← length_points, points_eq_walk 0 hsizes hlanes hlast hdvd]
  simp [walk, SProd.sprod, List.product, List.length_flatMap, TransferTimeDims.extents]

theorem getLast_pos {sizes : List Nat} (hsizes : sizes ≠ []) (h : 0 < totalElements sizes) :
    0 < sizes.getLast hsizes := by
  have hne : points sizes ≠ [] := by
    rw [← List.length_pos_iff, length_points]
    exact h
  exact points_ne_nil.1 hne _ (List.getLast_mem hsizes)

/-- A split transfer of equal totals moves the same. -/
theorem movesSame_of_splits {v : VectorTransfer} {lanes : Nat} (hs : Splits t lanes v)
    (hpos : 0 < totalElements t.dest.sizes)
    (htotal : totalElements t.source.sizes = totalElements t.dest.sizes)
    (hsymbols : v.loop_time_dim ≠ none →
      t.source.map.numSymbols = 0 ∧ t.dest.map.numSymbols = 0) : MovesSame t (emit t v) := by
  apply movesSame_of_numbering (walk t.source.sizes lanes) _ _ _ _ fun _ =>
    mem_accesses_split hs hsymbols
  · exact t.source.elements_eq_walk hs.src_sizes hs.lanes_pos
      (getLast_pos hs.src_sizes (htotal ▸ hpos)) hs.src_dvd
  · have hwalk : walk t.source.sizes lanes = walk t.dest.sizes lanes := by
      rw [walk, walk, hs.extents]
    rw [hwalk]
    exact t.dest.elements_eq_walk hs.dst_sizes hs.lanes_pos (getLast_pos hs.dst_sizes hpos)
      hs.dst_dvd

/-- A transfer of at most one vector and equal totals moves the same. -/
theorem movesSame_of_whole (htotal : totalElements t.source.sizes = totalElements t.dest.sizes) :
    MovesSame t (emit t (wholeVector t)) := by
  have helements : ∀ side : TransferBox, totalElements side.sizes = totalElements t.dest.sizes →
      side.elements = (List.range (totalElements t.dest.sizes)).map fun l => side.elements.getD l [] := by
    intro side hside
    apply List.ext_getElem
    · simp [side.length_elements, hside]
    · intro l hl _
      simp [hl]
  apply movesSame_of_numbering (List.range (totalElements t.dest.sizes)) _ _
    (helements t.source.toTransferBox htotal) (helements t.dest.toTransferBox rfl)
  intro access
  rw [mem_accesses_whole]
  constructor
  · rintro ⟨l, hl, rfl⟩
    refine ⟨l, List.mem_range.2 hl, ?_⟩
    have hsrc : l < t.source.elements.length := by rw [t.source.length_elements, htotal]; exact hl
    have hdst : l < t.dest.elements.length := by rw [t.dest.length_elements]; exact hl
    simp [hsrc, hdst]
  · rintro ⟨l, hl, rfl⟩
    have hl' := List.mem_range.1 hl
    refine ⟨l, hl', ?_⟩
    have hsrc : l < t.source.elements.length := by rw [t.source.length_elements, htotal]; exact hl'
    have hdst : l < t.dest.elements.length := by rw [t.dest.length_elements]; exact hl'
    simp [hsrc, hdst]

/-! ### Totals that differ -/

theorem totalElements_eq_of_whole (h : MovesSame t (emit t (wholeVector t))) :
    totalElements t.source.sizes = totalElements t.dest.sizes := by
  rw [← t.source.length_elements]
  apply Nat.le_antisymm
  · -- The element after the last lane would be read by no lane.
    by_contra hlt
    rw [not_le] at hlt
    obtain ⟨access, hmem, hread⟩ := h.allRead _ (List.getElem_mem hlt)
    obtain ⟨l, hl, rfl⟩ := mem_accesses_whole.1 hmem
    obtain ⟨hl', heq⟩ := List.getElem?_eq_some_iff.1 hread
    have := t.source.nodup_elements.getElem_inj_iff.1 heq
    omega
  · -- The last lane reads an element.
    by_contra hlt
    rw [not_le] at hlt
    obtain ⟨⟨p, -, hp⟩, -⟩ := h.inside _ (mem_accesses_whole.2 ⟨_, hlt, rfl⟩)
    obtain ⟨hl, -⟩ := List.getElem?_eq_some_iff.1 hp
    omega

theorem totalElements_eq_of_splits {v : VectorTransfer} {lanes : Nat} (hs : Splits t lanes v)
    (hpos : 0 < totalElements t.dest.sizes) (h : MovesSame t (emit t v)) :
    totalElements t.source.sizes = totalElements t.dest.sizes := by
  have hsource : 0 < totalElements t.source.sizes := by
    rw [← t.dest.length_elements] at hpos
    obtain ⟨p, hp⟩ := List.exists_mem_of_length_pos hpos
    obtain ⟨access, hmem, -⟩ := h.allWritten p hp
    obtain ⟨⟨q, hq, -⟩, -⟩ := h.inside access hmem
    rw [← t.source.length_elements]
    exact List.length_pos_of_mem hq
  rw [totalElements_eq_walk hs.src_sizes hs.lanes_pos (getLast_pos hs.src_sizes hsource) hs.src_dvd,
    totalElements_eq_walk hs.dst_sizes hs.lanes_pos (getLast_pos hs.dst_sizes hpos) hs.dst_dvd,
    walk, walk, hs.extents]

/-- What `lowerAsLoadAndStore` accepts is one vector, or is split. -/
theorem lowerAsLoadAndStore_cases (h : lowerAsLoadAndStore t = .ok op) :
    0 < totalElements t.dest.sizes ∧ (op = emit t (wholeVector t) ∨
      ∃ throttle v, t.throttle = some throttle ∧ (totalElements t.dest.sizes : Int) > throttle ∧
        Splits t throttle.toNat v ∧ op = emit t v) := by
  unfold lowerAsLoadAndStore at h
  split at h
  · cases h
  · next hpos =>
    refine ⟨Nat.pos_of_ne_zero hpos, ?_⟩
    split at h
    · cases h
    · next throttle hthrottle =>
      split at h
      · next hwide =>
        cases hv : splitIntoVectors t throttle with
        | error e =>
          rw [hv] at h
          cases h
        | ok v =>
          rw [hv] at h
          cases h
          exact .inr ⟨throttle, v, hthrottle, hwide, splits_of_splitIntoVectors hv, rfl⟩
      · cases h
        exact .inl rfl

/-- The transfer is wider than the throttle, and some walked dimension has to leave the time axis. -/
def DataTransfer.NeedsLoop (t : DataTransfer) : Prop :=
  ∃ throttle : Int, t.throttle = some throttle ∧ (totalElements t.dest.sizes : Int) > throttle ∧
    t.divergent throttle.toNat ≠ []

/-- **An accepted transfer moves the same elements** if both sides have as many elements and no map
with symbols is given one more dimension; with different totals it never does. -/
theorem lowerAsLoadAndStore_movesSame (t : DataTransfer) (op : CompositeLoadAndStore)
    (h : lowerAsLoadAndStore t = .ok op) :
    (totalElements t.source.sizes = totalElements t.dest.sizes ∧
        (t.NeedsLoop → t.source.map.numSymbols = 0 ∧ t.dest.map.numSymbols = 0) →
      MovesSame t op) ∧
    (MovesSame t op → totalElements t.source.sizes = totalElements t.dest.sizes) := by
  obtain ⟨hpos, rfl | ⟨throttle, v, hthrottle, hwide, hs, rfl⟩⟩ := lowerAsLoadAndStore_cases h
  · exact ⟨fun hcond => movesSame_of_whole hcond.1, totalElements_eq_of_whole⟩
  · refine ⟨?_, totalElements_eq_of_splits hs hpos⟩
    rintro ⟨htotal, hsymbols⟩
    apply movesSame_of_splits hs hpos htotal
    intro hloop
    apply hsymbols
    obtain ⟨i, hi⟩ := Option.ne_none_iff_exists'.1 hloop
    exact ⟨throttle, hthrottle, hwide, List.ne_nil_of_mem (hs.loop i hi)⟩

/-! ## Two transfers -/

/-- The whole of a two-dimensional memref whose rows are `stride` elements apart. -/
def wholeRows (rows columns : Nat) (stride : Int) : TransferSide where
  layout := .type (some [some stride, some 1])
  address := fun subscripts => stride * subscripts.getD 0 0 + subscripts.getD 1 0
  map := ⟨2, 0, fun dims _ => [dims.getD 0 0, dims.getD 1 0]⟩
  indices := [0, 0]
  sizes := [rows, columns]
  operands := rfl
  rank := rfl

/-- Four rows of 64 elements into a buffer with padded rows: the rows are walked by a loop. -/
theorem lowerAsLoadAndStore_movesSame_paddedRows :
    MovesSame ⟨wholeRows 4 64 64, wholeRows 4 64 128, some 64⟩
      (emit ⟨wholeRows 4 64 64, wholeRows 4 64 128, some 64⟩
        (walkedVectors ⟨wholeRows 4 64 64, wholeRows 4 64 128, some 64⟩ 64 (some 0))) :=
  (lowerAsLoadAndStore_movesSame _ _ rfl).1 ⟨rfl, fun _ => ⟨rfl, rfl⟩⟩

/-- Two rows of two elements, from column 5 on, which is a symbol of the map. -/
def fromSymbol : TransferSide where
  layout := .type (some [some 8, some 1])
  address := fun subscripts => 8 * subscripts.getD 0 0 + subscripts.getD 1 0
  map := ⟨0, 1, fun _ symbols => [0, symbols.getD 0 0]⟩
  indices := [5]
  sizes := [2, 2]
  operands := rfl
  rank := rfl

-- The induction variable becomes the symbol, and the symbol the new dimension: row 5, column 0.
example : ∃ op, lowerAsLoadAndStore ⟨fromSymbol, wholeRows 2 2 2, some 2⟩ = .ok op ∧
    (some [5, 0], some [0, 0]) ∈ op.accesses :=
  ⟨_, rfl, by decide⟩

/-- Half of the source is dropped when 128 elements go into 64. -/
theorem not_movesSame_wideSource :
    ∃ op, lowerAsLoadAndStore ⟨wholeRows 1 128 128, wholeRows 1 64 64, some 64⟩ = .ok op ∧
      ¬ MovesSame ⟨wholeRows 1 128 128, wholeRows 1 64 64, some 64⟩ op := by
  refine ⟨_, rfl, ?_⟩
  intro h
  exact absurd (totalElements_eq_of_whole h) (by decide)

end DataTransferLowering
