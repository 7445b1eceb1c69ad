import DataflowScheduler.Conversion.KTDFLowToDFIR.IndDataTransferElements

/-!
# When the steps of an indirect transfer are exact

A walk whose vectors are the points of a box, once each, is the walk that `describeTransferTimeDims`
makes of the box. With it, the condition of `StepsExact` is also necessary.
-/

namespace IndDataTransferLowering

open RowMajor DataTransferLowering

/-! ## Walks that count right -/

theorem eq_nil_of_prod {extents : List Nat} (hne : ∀ e ∈ extents, e ≠ 1) (h : extents.prod = 1) :
    extents = [] := by
  cases extents with
  | nil => rfl
  | cons e extents =>
    rw [List.prod_cons] at h
    exact absurd (Nat.eq_one_of_mul_eq_one_right h) (hne e (by simp))

theorem extents_ne_one {throttle pos : Nat} {sizes : List Nat} :
    ∀ e ∈ (walkedDims throttle pos sizes).map (·.extent), e ≠ 1 := by
  intro e he
  obtain ⟨d, hd, rfl⟩ := List.mem_map.1 he
  exact extent_ne_one hd

/-- A box whose outer dimensions are not walked is a row. -/
theorem isRow_of_walkedDims_eq_nil {throttle pos : Nat} {sizes : List Nat}
    (h : walkedDims throttle pos sizes = []) : IsRow sizes := by
  induction pos, sizes using walkedDims.induct throttle with
  | case1 => simp [IsRow]
  | case2 pos last hvec => simp [IsRow]
  | case3 pos last hvec => simp [IsRow]
  | case4 pos s r rest ih =>
    by_cases hs : s = 1
    · rw [hs, walkedDims_one_cons (by simp)] at h
      have hrest := ih h
      intro x hx
      rw [List.dropLast_cons_of_ne_nil (by simp), List.mem_cons] at hx
      exact hx.elim (fun hx => hx.trans hs) (hrest x)
    · rw [walkedDims, if_pos hs] at h
      cases h

/-- As many vectors as it takes to fill a box, if they make up its walk, fill its rows. -/
theorem dvd_of_prod_extents {throttle pos : Nat} {sizes : List Nat} (hsizes : sizes ≠ [])
    (hpos : 0 < sizes.prod)
    (h : ((walkedDims throttle pos sizes).map (·.extent)).prod * throttle = sizes.prod) :
    throttle ∣ sizes.getLast hsizes := by
  induction pos, sizes using walkedDims.induct throttle with
  | case1 => exact absurd rfl hsizes
  | case2 pos last hvec =>
    have hlast : last / throttle * throttle = last := by simpa [walkedDims, hvec] using h
    exact Dvd.intro_left _ hlast
  | case3 pos last hvec =>
    have hlast : throttle = last := by simpa [walkedDims, hvec] using h
    simp [hlast]
  | case4 pos s r rest ih =>
    rw [List.prod_cons] at hpos h
    have hs_pos : 0 < s := Nat.pos_of_mul_pos_right hpos
    have hrest_pos : 0 < (r :: rest).prod := Nat.pos_of_mul_pos_left hpos
    rw [List.getLast_cons (by simp)]
    apply ih (by simp) hrest_pos
    by_cases hs : s = 1
    · rw [hs, walkedDims_one_cons (by simp), Nat.one_mul] at h
      exact h
    · rw [walkedDims, if_pos hs] at h
      simp only [List.singleton_append, List.map_cons, List.prod_cons, Nat.mul_assoc] at h
      exact Nat.eq_of_mul_eq_mul_left hs_pos h

/-- Every time dimension of an address buffer advances by one. -/
theorem index_step_one {pos : Nat} {sizes : List Nat} {d : TransferTimeDim}
    (h : d ∈ walkedDims 1 pos sizes) : d.index_step = 1 := by
  induction pos, sizes using walkedDims.induct 1 with
  | case1 => simp [walkedDims] at h
  | case2 pos last hvec => grind [walkedDims]
  | case3 pos last hvec => grind [walkedDims]
  | case4 pos s r rest ih => grind [walkedDims]

/-- The slowest time dimension moves its index. -/
theorem offsets_head {sizes ts : List Nat} {d : TransferTimeDim} {ds : List TransferTimeDim}
    {x : Nat} (hdims : walkedDims 1 0 sizes = d :: ds) :
    ((describeTransferTimeDims sizes 1).offsets (x :: ts))[d.memref_dim]? = some x := by
  have hd : d ∈ walkedDims 1 0 sizes := by simp [hdims]
  have hbound := (memref_dim_bounds hd).2
  have hnodup := memref_dim_nodup 1 0 sizes
  rw [hdims, List.map_cons, List.nodup_cons] at hnodup
  have hother : ∀ y ∈ ds.zip ts, y.1.memref_dim ≠ d.memref_dim := by
    intro y hy heq
    exact hnodup.1 (List.mem_map.2 ⟨y.1, (List.of_mem_zip hy).1, heq⟩)
  show (((walkedDims 1 0 sizes).zip (x :: ts)).foldl TransferTimeDims.place
    (List.replicate sizes.length 0))[d.memref_dim]? = some x
  rw [hdims, List.zip_cons_cons, List.foldl_cons, TransferTimeDims.foldl_place_getElem? _ hother,
    TransferTimeDims.place, index_step_one hd, Nat.one_mul, List.getElem?_set_self]
  simpa using hbound

/-- Subscripts that a shift leaves as they are are shifted by zero. -/
theorem eq_zero_of_shift_eq {b : List Int} {o : List Nat} {m x : Nat} (h : shift b o = b)
    (hx : o[m]? = some x) (hm : m < b.length) : x = 0 := by
  have hat := congrArg (·[m]?) h
  simp only [shift, List.getElem?_zipWith, hx, List.getElem?_eq_getElem hm, Option.some.injEq] at hat
  omega

/-! ## Walks that go right -/

theorem length_walkIndex {throttle l : Nat} {sizes time : List Nat} :
    (walkIndex throttle sizes time l).length = sizes.length := by
  induction sizes generalizing time with
  | nil => rfl
  | cons s rest ih =>
    cases rest with
    | nil =>
      rw [walkIndex]
      split <;> rfl
    | cons r rest =>
      rw [walkIndex]
      split
      · simp only [List.length_cons, ih]
      · simp only [List.length_cons, ih]

/-- One step at time zero reaches the points of a row only. -/
theorem isRow_of_points_subset {throttle : Nat} {sizes : List Nat} (hpos : ∀ s ∈ sizes, 0 < s)
    (h : ∀ p ∈ points sizes, ∃ l, walkIndex throttle sizes [0] l = p) : IsRow sizes := by
  induction sizes with
  | nil => simp [IsRow]
  | cons s rest ih =>
    cases rest with
    | nil => simp [IsRow]
    | cons r rest =>
      have hrest : ∀ x ∈ r :: rest, 0 < x := fun x hx => hpos x (List.mem_cons_of_mem s hx)
      obtain ⟨q, hq⟩ := List.exists_mem_of_ne_nil _ (points_ne_nil.2 hrest)
      have hs : s = 1 := by
        by_contra hs
        have hs_pos := hpos s (by simp)
        have hone : 1 :: q ∈ points (s :: r :: rest) :=
          mem_points.2 (.cons (by omega) (mem_points.1 hq))
        obtain ⟨l, hl⟩ := h _ hone
        rw [walkIndex, if_pos hs] at hl
        exact absurd (List.cons.inj hl).1 (by simp)
      have hrow : IsRow (r :: rest) := by
        apply ih hrest
        intro p hp
        obtain ⟨l, hl⟩ := h (0 :: p) (mem_points.2 (.cons (by omega) (mem_points.1 hp)))
        rw [walkIndex, if_neg (not_not_intro hs)] at hl
        exact ⟨l, (List.cons.inj hl).2⟩
      intro x hx
      rw [List.dropLast_cons_of_ne_nil (by simp), List.mem_cons] at hx
      exact hx.elim (fun hx => hx.trans hs) (hrow x)

/-- Two ranges with the same numbers are as long. -/
theorem eq_of_lt_iff {m n : Nat} (h : ∀ x, x < m ↔ x < n) : m = n := by
  have hm := h m
  have hn := h n
  omega

/-- **The walk is unique**: if the vectors of some time extents are the points of a box, and count as
many, then these extents are those that `describeTransferTimeDims` gives the box, and whole vectors
fill its rows. -/
theorem extents_eq_of_walk {throttle pos : Nat} {sizes extents : List Nat} (hsizes : sizes ≠ [])
    (hthrottle : 0 < throttle) (hne : ∀ e ∈ extents, e ≠ 1) (hpos : ∀ e ∈ extents, 0 < e)
    (hwalk : ∀ p, p ∈ points sizes ↔
      ∃ time ∈ points extents, ∃ l < throttle, walkIndex throttle sizes time l = p)
    (hprod : sizes.prod = extents.prod * throttle) :
    (walkedDims throttle pos sizes).map (·.extent) = extents ∧
      throttle ∣ sizes.getLast hsizes := by
  obtain ⟨time₀, htime₀⟩ := List.exists_mem_of_ne_nil _ (points_ne_nil.2 hpos)
  induction pos, sizes using walkedDims.induct throttle generalizing extents time₀ with
  | case1 => exact absurd rfl hsizes
  | case2 pos last hvec =>
    have htwo : throttle < last := by
      have := (Nat.le_div_iff_mul_le hthrottle).1 hvec
      omega
    have hindex : ∀ p, p ∈ points [last] ↔
        ∃ time ∈ points extents, ∃ l < throttle, [throttle * time.headD 0 + l] = p := by
      intro p
      rw [hwalk p]
      simp only [walkIndex, if_pos hvec]
    cases extents with
    | nil =>
      -- One vector does not reach the second one.
      have hmem : [throttle] ∈ points [last] := by
        rw [points_singleton]
        exact List.mem_map_of_mem (List.mem_range.2 htwo)
      obtain ⟨time, htime, l, hl, heq⟩ := (hindex _).1 hmem
      rw [points_nil, List.mem_singleton] at htime
      subst htime
      simp at heq
      omega
    | cons e extents =>
      have hlast : last = e * throttle := by
        apply eq_of_lt_iff
        intro x
        have hx := hindex [x]
        rw [points_singleton] at hx
        constructor
        · intro hlt
          obtain ⟨time, htime, l, hl, heq⟩ := hx.1 (List.mem_map_of_mem (List.mem_range.2 hlt))
          cases mem_points.1 htime with
          | @cons t _ _ _ ht _ =>
            have hle : throttle * (t + 1) ≤ throttle * e := Nat.mul_le_mul_left _ ht
            simp only [List.headD_cons, List.cons.injEq, and_true] at heq
            rw [Nat.mul_succ] at hle
            rw [Nat.mul_comm e throttle]
            omega
        · intro hlt
          cases mem_points.1 htime₀ with
          | @cons t _ ts _ ht hts =>
            have hdiv : x / throttle < e := Nat.div_lt_of_lt_mul (by rwa [Nat.mul_comm])
            have hmem := hx.2 ⟨x / throttle :: ts, mem_points.2 (.cons hdiv hts), x % throttle,
              Nat.mod_lt x hthrottle, by simp [Nat.div_add_mod]⟩
            obtain ⟨y, hy, heq⟩ := List.mem_map.1 hmem
            cases heq
            exact List.mem_range.1 hy
      have he : 0 < e := hpos e (by simp)
      have hnil : extents = [] := by
        apply eq_nil_of_prod fun a ha => hne a (List.mem_cons_of_mem e ha)
        have hfill : 0 < e * throttle := Nat.mul_pos he hthrottle
        rw [List.prod_singleton, hlast, List.prod_cons, Nat.mul_assoc, Nat.mul_comm extents.prod,
          ← Nat.mul_assoc] at hprod
        exact (Nat.eq_of_mul_eq_mul_left hfill (by simpa using hprod)).symm
      have hdiv : last / throttle = e := by
        rw [hlast]
        exact Nat.mul_div_cancel e hthrottle
      rw [walkedDims, if_pos hvec, hdiv, hnil, List.getLast_singleton, hlast]
      exact ⟨rfl, Nat.dvd_mul_left throttle e⟩
  | case3 pos last hvec =>
    have hlast : last = throttle := by
      apply eq_of_lt_iff
      intro x
      have hx := hwalk [x]
      simp only [walkIndex, if_neg hvec, points_singleton] at hx
      constructor
      · intro hlt
        obtain ⟨time, -, l, hl, heq⟩ := hx.1 (List.mem_map_of_mem (List.mem_range.2 hlt))
        cases heq
        exact hl
      · intro hlt
        obtain ⟨y, hy, heq⟩ := List.mem_map.1 (hx.2 ⟨time₀, htime₀, x, hlt, rfl⟩)
        cases heq
        exact List.mem_range.1 hy
    have hnil : extents = [] := by
      apply eq_nil_of_prod hne
      rw [List.prod_singleton, hlast] at hprod
      exact (Nat.eq_of_mul_eq_mul_right hthrottle (by simpa using hprod.symm))
    rw [walkedDims, if_neg hvec, hnil, List.getLast_singleton, hlast]
    exact ⟨rfl, Nat.dvd_refl throttle⟩
  | case4 pos s r rest ih =>
    rw [List.prod_cons] at hprod
    by_cases hs : s = 1
    · subst hs
      rw [walkedDims_one_cons (by simp), List.getLast_cons (by simp)]
      apply ih (by simp) hne hpos _ (by simpa using hprod) time₀ htime₀
      intro p
      have hp := hwalk (0 :: p)
      simp only [walkIndex, if_neg (not_not_intro rfl), List.cons.injEq, true_and] at hp
      rw [← hp, cons_mem_points]
      simp
    · have htotal : 0 < extents.prod * throttle := by
        apply Nat.mul_pos _ hthrottle
        rw [← length_points]
        exact List.length_pos_of_mem htime₀
      rw [← hprod] at htotal
      have hs_pos : 0 < s := Nat.pos_of_mul_pos_right htotal
      obtain ⟨q, hq⟩ : ∃ q, q ∈ points (r :: rest) := by
        apply List.exists_mem_of_length_pos
        rw [length_points]
        exact Nat.pos_of_mul_pos_left htotal
      have hindex : ∀ i p, i < s ∧ p ∈ points (r :: rest) ↔ ∃ time ∈ points extents,
          ∃ l < throttle, time.headD 0 = i ∧ walkIndex throttle (r :: rest) time.tail l = p := by
        intro i p
        rw [← cons_mem_points, hwalk (i :: p)]
        simp only [walkIndex, if_pos hs, List.cons.injEq]
      cases extents with
      | nil =>
        -- Without a time dimension the index stays at zero.
        obtain ⟨time, htime, l, -, hone, -⟩ := (hindex 1 q).1 ⟨by omega, hq⟩
        rw [points_nil, List.mem_singleton] at htime
        simp [htime] at hone
      | cons e extents =>
        have he : 0 < e := hpos e (by simp)
        obtain ⟨t, ts, -, hts, rfl⟩ : ∃ t ts, t < e ∧ ts ∈ points extents ∧ time₀ = t :: ts := by
          cases mem_points.1 htime₀ with
          | cons ht hts => exact ⟨_, _, ht, mem_points.2 hts, rfl⟩
        have hse : s = e := by
          apply eq_of_lt_iff
          intro x
          constructor
          · intro hlt
            obtain ⟨time, htime, l, -, rfl, -⟩ := (hindex x q).1 ⟨hlt, hq⟩
            cases mem_points.1 htime with
            | cons ht _ => exact ht
          · intro hlt
            exact ((hindex x _).2 ⟨x :: ts, cons_mem_points.2 ⟨hlt, hts⟩, 0, hthrottle, rfl, rfl⟩).1
        have hrest := ih (by simp) (fun a ha => hne a (List.mem_cons_of_mem e ha))
          (fun a ha => hpos a (List.mem_cons_of_mem e ha)) ?_ ?_ ts hts
        · rw [walkedDims, if_pos hs, List.getLast_cons (by simp)]
          refine ⟨?_, hrest.2⟩
          rw [List.singleton_append, List.map_cons, hrest.1, hse]
        · intro p
          have hp := hindex 0 p
          constructor
          · intro hmem
            obtain ⟨time, htime, l, hl, -, heq⟩ := hp.1 ⟨hs_pos, hmem⟩
            cases mem_points.1 htime with
            | cons _ htail => exact ⟨_, mem_points.2 htail, l, hl, heq⟩
          · rintro ⟨time, htime, l, hl, heq⟩
            exact (hp.2 ⟨0 :: time, cons_mem_points.2 ⟨he, htime⟩, l, hl, rfl, heq⟩).2
        · rw [show (e :: extents).prod = e * extents.prod from List.prod_cons, Nat.mul_assoc,
            hse] at hprod
          exact Nat.eq_of_mul_eq_mul_left he hprod

/-! ## What exact steps need -/

section Necessary

variable {t : IndDataTransfer} {op : CompositeIndirectLoadAndStore} {box : TransferBox}
  {throttle : Nat} (hl : Lowers t box throttle op) (h : MovesSame t op)

include hl h

theorem length_stepsOf : (stepsOf box.sizes throttle).length = totalElements box.sizes := by
  have hlen := h.accesses.length_eq
  have htotals : t.dir_src.elements.length = t.dir_dst.elements.length := totalsAgree_of_movesSame h
  rw [accesses_eq hl, IndDataTransfer.accesses, List.length_map, List.length_zipIdx,
    List.length_map, List.length_zip, ← htotals, Nat.min_self, hl.src, Endpoint.elements,
    List.length_map, TransferBox.length_elements] at hlen
  exact hlen

theorem prod_extents : (describeTransferTimeDims box.sizes throttle).extents.prod *
    min (totalElements box.sizes) throttle = totalElements box.sizes := by
  have hpadded : ∀ extents : List Nat, (timeExtents extents).prod = extents.prod := by
    intro extents
    cases extents <;> rfl
  conv_rhs => rw [← length_stepsOf hl h]
  rw [stepsOf, List.length_product, length_points, hpadded, List.length_range]

/-- The points of a destination box are what the steps reach. -/
theorem mem_points_dst {dst : TransferBox} (hdst : t.dir_dst = .memref dst) {p : List Nat} :
    p ∈ points dst.sizes ↔
      ∃ x ∈ stepsOf box.sizes throttle, walkIndex throttle dst.sizes x.1 x.2 = p := by
  have hinj : ∀ {p q : List Nat}, p.length = dst.sizes.length → q.length = dst.sizes.length →
      shift (dst.map.apply dst.indices) p = shift (dst.map.apply dst.indices) q → p = q := by
    intro p q hp hq
    exact shift_injOn (hp.trans dst.rank.symm) (hq.trans dst.rank.symm)
  constructor
  · intro hp
    have helement : Element.memref (shift (dst.map.apply dst.indices) p) ∈ t.dir_dst.elements := by
      rw [hdst]
      exact List.mem_map_of_mem (List.mem_map_of_mem hp)
    obtain ⟨a, ha, hae⟩ := h.dst helement
    rw [accesses_eq hl] at ha
    obtain ⟨y, hy, rfl⟩ := List.mem_map.1 ha
    simp only [dst_access, IndDataTransfer.dstElement, hdst, Option.some.injEq,
      Element.memref.injEq] at hae
    exact ⟨y.1, List.fst_mem_of_mem_zipIdx hy,
      hinj length_walkIndex (length_of_mem_points hp) hae⟩
  · rintro ⟨x, hx, rfl⟩
    obtain ⟨k, hk, hxk⟩ := List.getElem_of_mem hx
    have hmem : (x, k) ∈ (stepsOf box.sizes throttle).zipIdx := by
      rw [List.mk_mem_zipIdx_iff_getElem?]
      exact List.getElem?_eq_some_iff.2 ⟨hk, hxk⟩
    have ha := List.mem_map_of_mem (f := fun y : (List Nat × Nat) × Nat =>
      access t.is_gather (some (.memref (box.walkElement throttle y.1))) (op.entry y.1.1)
        (some (t.dstElement throttle y.1 y.2))) hmem
    rw [← accesses_eq hl] at ha
    obtain ⟨z, hz, heq⟩ := List.mem_map.1 (h.accesses.mem_iff.1 ha)
    have hdst_eq := congrArg (Access.dst t.is_gather) heq
    simp only [dst_access, IndDataTransfer.dstElement, hdst, Option.some.injEq] at hdst_eq
    have hz2 := (List.of_mem_zip hz).2
    rw [hdst_eq, hdst] at hz2
    obtain ⟨q, hq, heq⟩ := List.mem_map.1 hz2
    obtain ⟨p, hp, rfl⟩ := List.mem_map.1 hq
    rw [← hinj (length_of_mem_points hp) length_walkIndex (Element.memref.inj heq)]
    exact hp

/-- A source that fits one vector is one row, and so is a destination box. -/
theorem fitsRow_of_le (hle : totalElements box.sizes ≤ throttle) :
    FitsRow throttle box t.dir_dst ∧ (describeTransferTimeDims box.sizes throttle).extents = [] := by
  have hprod := prod_extents hl h
  rw [Nat.min_eq_left hle] at hprod
  have hnil : (describeTransferTimeDims box.sizes throttle).extents = [] := by
    have hone : (describeTransferTimeDims box.sizes throttle).extents.prod = 1 :=
      Nat.eq_of_mul_eq_mul_right hl.total_pos (by simpa using hprod)
    exact eq_nil_of_prod extents_ne_one hone
  have hdims : walkedDims throttle 0 box.sizes = [] := List.map_eq_nil_iff.1 hnil
  refine ⟨⟨hle, isRow_of_walkedDims_eq_nil hdims, ?_⟩, hnil⟩
  intro dst hdst
  have hpoints : points dst.sizes ≠ [] := by
    rw [← List.length_pos_iff, length_points, ← totalElements, ← dst.length_elements]
    have htotals : t.dir_src.elements.length = t.dir_dst.elements.length := totalsAgree_of_movesSame h
    rw [hl.src, hdst, Endpoint.elements, Endpoint.elements, List.length_map, List.length_map,
      TransferBox.length_elements] at htotals
    rw [← htotals]
    exact hl.total_pos
  apply isRow_of_points_subset (points_ne_nil.1 hpoints)
  intro p hp
  obtain ⟨⟨time, l⟩, hx, heq⟩ := (mem_points_dst hl h hdst).1 hp
  have htime := (mem_stepsOf.1 hx).1
  rw [hnil] at htime
  have hzero : time = [0] := List.mem_singleton.1 htime
  exact ⟨l, hzero ▸ heq⟩

/-- Whole vectors fill the rows of a source that takes more than one, and those of a destination
box. -/
theorem fillsRows_of_lt (hlt : throttle < totalElements box.sizes) :
    FillsRows throttle box t.dir_dst := by
  have hprod := prod_extents hl h
  rw [Nat.min_eq_right hlt.le] at hprod
  have hne : (describeTransferTimeDims box.sizes throttle).extents ≠ [] := by
    intro hnil
    rw [hnil, List.prod_nil] at hprod
    omega
  constructor
  · rw [getLastD_eq hl.src_sizes]
    exact dvd_of_prod_extents hl.src_sizes hl.total_pos hprod
  · intro dst hdst
    have hsizes : dst.sizes ≠ [] := by
      rcases hl.store with ⟨dst', hdst', hsizes, -, -⟩ | ⟨sizes, hfifo, -⟩
      · rw [hdst] at hdst'
        cases hdst'
        exact hsizes
      · rw [hdst] at hfifo
        cases hfifo
    have hpos : ∀ e ∈ (describeTransferTimeDims box.sizes throttle).extents, 0 < e := by
      apply points_ne_nil.1
      rw [← List.length_pos_iff, length_points]
      apply Nat.pos_of_mul_pos_right (b := throttle)
      rw [hprod]
      exact hl.total_pos
    have hwalk : ∀ p, p ∈ points dst.sizes ↔
        ∃ time ∈ points (describeTransferTimeDims box.sizes throttle).extents, ∃ l < throttle,
          walkIndex throttle dst.sizes time l = p := by
      intro p
      rw [mem_points_dst hl h hdst]
      simp only [Prod.exists, mem_stepsOf, Nat.min_eq_right hlt.le, timeExtents,
        List.isEmpty_iff, if_neg hne]
      constructor
      · rintro ⟨time, l, ⟨htime, hlane⟩, heq⟩
        exact ⟨time, htime, l, hlane, heq⟩
      · rintro ⟨time, htime, l, hlane, heq⟩
        exact ⟨time, l, ⟨htime, hlane⟩, heq⟩
    have htotals : t.dir_src.elements.length = t.dir_dst.elements.length := totalsAgree_of_movesSame h
    rw [hl.src, hdst, Endpoint.elements, Endpoint.elements, List.length_map, List.length_map,
      TransferBox.length_elements, TransferBox.length_elements] at htotals
    obtain ⟨hext, hdvd⟩ := @extents_eq_of_walk throttle 0 dst.sizes _ hsizes hl.throttle_pos
      extents_ne_one hpos hwalk (htotals.symm.trans hprod.symm)
    rw [getLastD_eq hsizes]
    exact ⟨hdvd, hext.symm⟩

/-- The entry that a step uses is that of the transfer. -/
theorem entry_eq_of_step {x : List Nat × Nat} (hx : x ∈ stepsOf box.sizes throttle) :
    op.entry x.1 = t.iab.entry := by
  obtain ⟨k, hk, hxk⟩ := List.getElem_of_mem hx
  have hmem : (x, k) ∈ (stepsOf box.sizes throttle).zipIdx := by
    rw [List.mk_mem_zipIdx_iff_getElem?]
    exact List.getElem?_eq_some_iff.2 ⟨hk, hxk⟩
  have ha := List.mem_map_of_mem (f := fun y : (List Nat × Nat) × Nat =>
    access t.is_gather (some (.memref (box.walkElement throttle y.1))) (op.entry y.1.1)
      (some (t.dstElement throttle y.1 y.2))) hmem
  rw [← accesses_eq hl] at ha
  obtain ⟨z, hz, heq⟩ := List.mem_map.1 (h.accesses.mem_iff.1 ha)
  have hentry := congrArg Access.entry heq
  simpa using hentry.symm

/-- With more than one step, the address buffer has no time dimension. -/
theorem keepsEntry_of_movesSame : KeepsEntry throttle box t.iab := by
  by_contra hnot
  rw [KeepsEntry, not_or] at hnot
  obtain ⟨hiab, hext⟩ := hnot
  obtain ⟨d, ds, hdims⟩ := List.exists_cons_of_ne_nil hiab
  obtain ⟨e, extents, hextents⟩ := List.exists_cons_of_ne_nil hext
  have hprod := prod_extents hl h
  -- At the step after the first one of the slowest dimension the entry has moved on by one.
  have hpos : ∀ a ∈ e :: extents, 0 < a := by
    apply points_ne_nil.1
    rw [← List.length_pos_iff, length_points, ← hextents]
    apply Nat.pos_of_mul_pos_right (b := min (totalElements box.sizes) throttle)
    rw [hprod]
    exact hl.total_pos
  have he : 1 < e := by
    have hne : e ≠ 1 := @extents_ne_one throttle 0 box.sizes e (by
      show e ∈ (describeTransferTimeDims box.sizes throttle).extents
      simp [hextents])
    have := hpos e (by simp)
    omega
  obtain ⟨ts, hts⟩ : ∃ ts, ts ∈ points extents :=
    List.exists_mem_of_ne_nil _ (points_ne_nil.2 fun a ha => hpos a (List.mem_cons_of_mem e ha))
  have hstep : (1 :: ts, 0) ∈ stepsOf box.sizes throttle := by
    rw [mem_stepsOf, hextents]
    exact ⟨cons_mem_points.2 ⟨he, hts⟩, Nat.lt_min.2 ⟨hl.total_pos, hl.throttle_pos⟩⟩
  have hentry := entry_eq_of_step hl h hstep
  rw [CompositeIndirectLoadAndStore.entry, hl.iab_map, hl.iab_index, hl.iab_time_addr] at hentry
  have hd : d ∈ walkedDims 1 0 t.iab.sizes := by
    show d ∈ t.iab.timeDims.dims
    simp [hdims]
  have hbound : d.memref_dim < (t.iab.map.apply [t.iab.index]).length := by
    have := (memref_dim_bounds hd).2
    rw [t.iab.rank]
    simpa [AddressBuffer.sizes] using this
  exact absurd (eq_zero_of_shift_eq hentry (offsets_head hdims) hbound) Nat.one_ne_zero

end Necessary

/-! ## The lowering -/

/-- **The steps of an accepted transfer are exact** if and only if whole vectors fill the rows of
both memrefs along the same time dimensions, or one vector holds the one row of each, and the entry
does not move: its address buffer has no time dimension, or there is one step. -/
theorem lowerIndDataTransfer_movesSame_iff (t : IndDataTransfer)
    (op : CompositeIndirectLoadAndStore) (h : lowerIndDataTransfer t = .ok op) :
    MovesSame t op ↔ StepsExact t := by
  obtain ⟨box, throttle, hl⟩ := lowers_of_lowerIndDataTransfer h
  constructor
  · intro hmoves
    refine ⟨box, throttle, hl.src, hl.throttle_eq, totalsAgree_of_movesSame hmoves, ?_,
      keepsEntry_of_movesSame hl hmoves⟩
    rcases Nat.lt_or_ge throttle (totalElements box.sizes) with hlt | hle
    · exact .inl (fillsRows_of_lt hl hmoves hlt)
    · exact .inr (fitsRow_of_le hl hmoves hle).1
  · rintro ⟨box', throttle', hsrc, hthrottle, htotals, hrows, hkeeps⟩
    rw [hl.src, Endpoint.memref.injEq] at hsrc
    rw [hl.throttle_eq, Option.some.injEq] at hthrottle
    subst hsrc hthrottle
    exact movesSame_of_accesses_eq htotals (accesses_eq_of_exact hl htotals hrows hkeeps)

/-! ## Two gathers -/

/-- Entry `index` of an address buffer of 32 entries. -/
def entryOf (index : Int) : AddressBuffer where
  shape := [some 32]
  map := ⟨1, 0, fun dims _ => [dims.getD 0 0]⟩
  index := index
  rank := rfl

/-- The gather of a tile through one entry into a FIFO. -/
def gatherTile (rows columns : Nat) : IndDataTransfer where
  is_gather := true
  dir_src := .memref (wholeRows rows columns columns).toTransferBox
  dir_dst := .fifo [rows * columns]
  iab := entryOf 1
  throttle := some 64
  fifo_dest_unit := true

/-- One row of 64 elements is gathered through its entry. -/
theorem lowerIndDataTransfer_movesSame_oneRow :
    ∃ op, lowerIndDataTransfer (gatherTile 1 64) = .ok op ∧ MovesSame (gatherTile 1 64) op := by
  refine ⟨_, rfl, ?_⟩
  apply (lowerIndDataTransfer_movesSame_iff _ _ rfl).2
  refine ⟨(wholeRows 1 64 64).toTransferBox, 64, rfl, rfl, by rfl, .inr ⟨by decide, by decide, ?_⟩, .inr (by decide)⟩
  intro box hbox
  cases hbox

/-- The second row of a tile of two rows is gathered through the next entry. -/
theorem not_movesSame_twoRows :
    ∃ op, lowerIndDataTransfer (gatherTile 2 64) = .ok op ∧ ¬ MovesSame (gatherTile 2 64) op := by
  obtain ⟨op, hop⟩ : ∃ op, lowerIndDataTransfer (gatherTile 2 64) = .ok op := ⟨_, rfl⟩
  refine ⟨op, hop, ?_⟩
  intro h
  obtain ⟨box, throttle, hl⟩ := lowers_of_lowerIndDataTransfer hop
  have hsrc : (wholeRows 2 64 64).toTransferBox = box := Endpoint.memref.inj hl.src
  have hthrottle : (64 : Int) = throttle := Option.some.inj hl.throttle_eq
  have hsixty : throttle = 64 := by omega
  subst hsrc hsixty
  have hkeeps := keepsEntry_of_movesSame hl h
  revert hkeeps
  decide

end IndDataTransferLowering
