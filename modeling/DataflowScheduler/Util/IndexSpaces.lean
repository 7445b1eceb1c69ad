import DataflowScheduler.Util.RowMajor

/-!
# Parts of an index

Selecting some dimensions of an index, and indices put together from such parts. An index space is
swept once where some dimensions are swept outside and the others inside.
-/

namespace RowMajor

/-- The entries of `i` at the dimensions `dims`. -/
def select (dims i : List Nat) : List Nat := dims.map fun d => i.getD d 0

@[simp] theorem length_select (dims i : List Nat) : (select dims i).length = dims.length :=
  List.length_map _

theorem getD_select {dims i : List Nat} {n : Nat} (h : n < dims.length) :
    (select dims i).getD n 0 = i.getD dims[n] 0 := by
  simp [select, List.getD_eq_getElem?_getD, h]

theorem select_eq_select_iff {dims i i' : List Nat} :
    select dims i = select dims i' ↔ ∀ d ∈ dims, i.getD d 0 = i'.getD d 0 :=
  List.map_inj_left

/-- Selecting from a selection. -/
theorem select_idxOf {dims from_dims i : List Nat} (h : dims ⊆ from_dims) :
    select (dims.map (from_dims.idxOf ·)) (select from_dims i) = select dims i := by
  unfold select
  rw [List.map_map]
  apply List.map_congr_left
  intro d hd
  have hlt := List.idxOf_lt_length_of_mem (h hd)
  show (select from_dims i).getD (from_dims.idxOf d) 0 = _
  rw [getD_select hlt, List.getElem_idxOf]

/-! ## Indices by their entries -/

theorem mem_points_iff_getD {i sizes : List Nat} :
    i ∈ points sizes ↔
      i.length = sizes.length ∧ ∀ d < sizes.length, i.getD d 0 < sizes.getD d 0 := by
  rw [mem_points, List.forall₂_iff_get]
  apply and_congr_right
  intro hlen
  constructor
  · intro h d hd
    simpa [List.getD_eq_getElem?_getD, hlen ▸ hd, hd] using h d (hlen ▸ hd) hd
  · intro h d hd hd'
    simpa [List.getD_eq_getElem?_getD, hd, hd'] using h d hd'

theorem ext_getD {i i' : List Nat} (hlen : i.length = i'.length)
    (h : ∀ d < i.length, i.getD d 0 = i'.getD d 0) : i = i' := by
  apply List.ext_getElem hlen
  intro d hd hd'
  simpa [List.getD_eq_getElem?_getD, hd, hd'] using h d hd

/-- The index with the entries `f`. -/
def assemble (n : Nat) (f : Nat → Nat) : List Nat := (List.range n).map f

@[simp] theorem length_assemble (n : Nat) (f : Nat → Nat) : (assemble n f).length = n := by
  simp [assemble]

theorem getD_assemble {n d : Nat} (f : Nat → Nat) (h : d < n) : (assemble n f).getD d 0 = f d := by
  simp [assemble, List.getD_eq_getElem?_getD, h]

theorem assemble_mem_points {sizes : List Nat} {f : Nat → Nat}
    (h : ∀ d < sizes.length, f d < sizes.getD d 0) : assemble sizes.length f ∈ points sizes := by
  rw [mem_points_iff_getD]
  refine ⟨length_assemble _ _, ?_⟩
  intro d hd
  rw [getD_assemble f hd]
  exact h d hd

theorem select_mem_points {dims i sizes : List Nat} (hi : i ∈ points sizes)
    (hdims : ∀ d ∈ dims, d < sizes.length) : select dims i ∈ points (select dims sizes) := by
  rw [mem_points_iff_getD]
  refine ⟨by simp, ?_⟩
  intro n hn
  rw [length_select] at hn
  rw [getD_select hn, getD_select hn]
  exact (mem_points_iff_getD.1 hi).2 _ (hdims _ (List.getElem_mem hn))

theorem getD_lt_of_select {dims w sizes : List Nat} (hw : w ∈ points (select dims sizes)) {d : Nat}
    (hd : d ∈ dims) : w.getD (dims.idxOf d) 0 < sizes.getD d 0 := by
  have hlt := List.idxOf_lt_length_of_mem hd
  have := (mem_points_iff_getD.1 hw).2 (dims.idxOf d) (by simpa using hlt)
  rwa [getD_select hlt, List.getElem_idxOf] at this

/-! ## Sweeping a part -/

section

variable {sizes fixed free q : List Nat}

/-- With the other dimensions fixed, the free ones are swept once. -/
theorem filter_select_perm (hfixed : fixed.Nodup) (hfree : free.Nodup)
    (hfixed_lt : ∀ d ∈ fixed, d < sizes.length) (hfree_lt : ∀ d ∈ free, d < sizes.length)
    (hcover : ∀ d < sizes.length, d ∈ fixed ∨ d ∈ free) (hdisjoint : ∀ d ∈ free, d ∉ fixed)
    (hq : q ∈ points (select fixed sizes)) :
    (((points sizes).filter fun i => select fixed i = q).map (select free)).Perm
      (points (select free sizes)) := by
  rw [List.perm_ext_iff_of_nodup _ (nodup_points _)]
  · intro w
    simp only [List.mem_map, List.mem_filter, decide_eq_true_eq]
    constructor
    · rintro ⟨i, ⟨hi, -⟩, rfl⟩
      exact select_mem_points hi hfree_lt
    · intro hw
      have hlen := (mem_points_iff_getD.1 hw).1
      have hlenq := (mem_points_iff_getD.1 hq).1
      let f : Nat → Nat := fun d =>
        if d ∈ free then w.getD (free.idxOf d) 0 else q.getD (fixed.idxOf d) 0
      refine ⟨assemble sizes.length f, ⟨assemble_mem_points ?_, ?_⟩, ?_⟩
      · intro d hd
        by_cases hmem : d ∈ free
        · simp only [f, if_pos hmem]
          exact getD_lt_of_select hw hmem
        · simp only [f, if_neg hmem]
          exact getD_lt_of_select hq ((hcover d hd).resolve_right hmem)
      · apply ext_getD (by simpa using hlenq.symm)
        intro n hn
        rw [length_select] at hn
        have hmem := List.getElem_mem hn
        rw [getD_select hn, getD_assemble f (hfixed_lt _ hmem)]
        simp only [f, if_neg fun h => hdisjoint _ h hmem, hfixed.idxOf_getElem]
      · apply ext_getD (by simpa using hlen.symm)
        intro n hn
        rw [length_select] at hn
        rw [getD_select hn, getD_assemble f (hfree_lt _ (List.getElem_mem hn))]
        simp only [f, if_pos (List.getElem_mem hn), hfree.idxOf_getElem]
  · apply List.Nodup.map_on _ ((nodup_points _).filter _)
    intro i hi i' hi' heq
    simp only [List.mem_filter, decide_eq_true_eq] at hi hi'
    have hlen := (mem_points_iff_getD.1 hi.1).1
    have hlen' := (mem_points_iff_getD.1 hi'.1).1
    apply ext_getD (hlen.trans hlen'.symm)
    intro d hd
    rcases hcover d (hlen ▸ hd) with hmem | hmem
    · exact select_eq_select_iff.1 (hi.2.trans hi'.2.symm) d hmem
    · exact select_eq_select_iff.1 heq d hmem

/-- In row-major order each dimension goes up as long as the others stay. -/
theorem points_increasing (sizes : List Nat) :
    (points sizes).Pairwise fun i i' =>
      ∀ d, (∀ d', d' ≠ d → i.getD d' 0 = i'.getD d' 0) → i.getD d 0 < i'.getD d 0 := by
  induction sizes with
  | nil => simp
  | cons s rest ih =>
    rw [points_cons, List.pairwise_flatMap]
    constructor
    · intro x _
      rw [List.pairwise_map]
      apply ih.imp
      intro p p' h d hsame
      cases d with
      | zero =>
        -- the tails agree, so one of their entries is below itself
        have hlt := h 0 fun d' _ => hsame (d' + 1) (by omega)
        have heq := hsame 1 (by omega)
        simp only [List.getD_cons_succ] at heq
        omega
      | succ d =>
        have hlt := h d fun d' hd' => hsame (d' + 1) (by omega)
        simpa using hlt
    · apply List.pairwise_lt_range.imp
      intro x x' hlt p hp p' hp' d hsame
      obtain ⟨q, -, rfl⟩ := List.mem_map.1 hp
      obtain ⟨q', -, rfl⟩ := List.mem_map.1 hp'
      cases d with
      | zero => simpa using hlt
      | succ d =>
        have heq := hsame 0 (by omega)
        simp only [List.getD_cons_zero] at heq
        omega

/-- With all dimensions but one fixed, that one counts up. -/
theorem filter_select_range {d : Nat} (hfixed : fixed.Nodup)
    (hfixed_lt : ∀ d ∈ fixed, d < sizes.length) (hd : d < sizes.length)
    (hcover : ∀ d' < sizes.length, d' ∈ fixed ∨ d' = d) (hdisjoint : d ∉ fixed)
    (hq : q ∈ points (select fixed sizes)) :
    (((points sizes).filter fun i => select fixed i = q).map (·.getD d 0)) =
      List.range (sizes.getD d 0) := by
  have hperm : (((points sizes).filter fun i => select fixed i = q).map (select [d])).Perm
      (points (select [d] sizes)) :=
    filter_select_perm hfixed (List.nodup_singleton _) hfixed_lt (by simpa using hd)
      (by simpa using hcover) (by simpa using hdisjoint) hq
  have hrange := hperm.map (·.getD 0 0)
  rw [List.map_map] at hrange
  have hpoints : (points (select [d] sizes)).map (·.getD 0 0) = List.range (sizes.getD d 0) := by
    show (points [sizes.getD d 0]).map _ = _
    rw [points_singleton, List.map_map]
    exact List.map_id _
  rw [hpoints] at hrange
  refine hrange.eq_of_pairwise (fun a b _ _ hab hba => absurd (Nat.lt_trans hab hba) (Nat.lt_irrefl a))
    ?_ List.pairwise_lt_range
  rw [List.pairwise_map]
  have hsub := (points_increasing sizes).sublist
    (List.filter_sublist (p := fun i => select fixed i = q))
  apply List.Pairwise.imp_of_mem _ hsub
  intro i i' hi hi' h
  obtain ⟨hmem, hsel⟩ := List.mem_filter.1 hi
  obtain ⟨hmem', hsel'⟩ := List.mem_filter.1 hi'
  simp only [decide_eq_true_eq] at hsel hsel'
  apply h
  intro d' hd'
  by_cases hlt : d' < sizes.length
  · have hmem_fixed := (hcover d' hlt).resolve_right hd'
    exact select_eq_select_iff.1 (hsel.trans hsel'.symm) d' hmem_fixed
  · have hlen := (mem_points_iff_getD.1 hmem).1
    have hlen' := (mem_points_iff_getD.1 hmem').1
    simp only [List.getD_eq_getElem?_getD]
    rw [List.getElem?_eq_none (by omega), List.getElem?_eq_none (by omega)]

end

/-! ## Sweeping inside a sweep -/

/-- The dimensions `outside` are swept first and those of `inside` for each of their points, as far
as the dimensions in both agree. -/
def nested (sizes outside inside out o : List Nat) : List (List Nat × List Nat) :=
  ((points (select outside sizes)).filter fun k => select (out.map (outside.idxOf ·)) k = o).flatMap
    fun k =>
      ((points (select inside sizes)).filter fun l =>
        select ((inside.filter (· ∈ outside)).map (inside.idxOf ·)) l =
          select ((inside.filter (· ∈ outside)).map (outside.idxOf ·)) k).map (Prod.mk k)

section

variable {sizes outside inside out o : List Nat}

theorem mem_nested {k l : List Nat} :
    (k, l) ∈ nested sizes outside inside out o ↔
      (k ∈ points (select outside sizes) ∧ select (out.map (outside.idxOf ·)) k = o) ∧
      l ∈ points (select inside sizes) ∧
      ∀ d ∈ inside, d ∈ outside → l.getD (inside.idxOf d) 0 = k.getD (outside.idxOf d) 0 := by
  simp only [nested, List.mem_flatMap, List.mem_filter, List.mem_map, Prod.mk.injEq,
    decide_eq_true_eq]
  have hagree : ∀ k l : List Nat,
      select ((inside.filter (· ∈ outside)).map (inside.idxOf ·)) l =
        select ((inside.filter (· ∈ outside)).map (outside.idxOf ·)) k ↔
      ∀ d ∈ inside, d ∈ outside → l.getD (inside.idxOf d) 0 = k.getD (outside.idxOf d) 0 := by
    intro k l
    simp only [select, List.map_map]
    rw [List.map_inj_left]
    simp
  constructor
  · rintro ⟨k', hk, l', ⟨hl, heq⟩, rfl, rfl⟩
    exact ⟨hk, hl, (hagree _ _).1 heq⟩
  · rintro ⟨hk, hl, heq⟩
    exact ⟨k, hk, l, ⟨hl, (hagree _ _).2 heq⟩, rfl, rfl⟩

theorem nodup_nested : (nested sizes outside inside out o).Nodup := by
  unfold nested
  rw [List.nodup_flatMap]
  constructor
  · intro k _
    exact ((nodup_points _).filter _).map fun _ _ h => (Prod.mk.inj h).2
  · apply ((nodup_points _).filter _).imp
    intro k k' hne p hp hp'
    obtain ⟨_, _, rfl⟩ := List.mem_map.1 hp
    obtain ⟨_, _, heq⟩ := List.mem_map.1 hp'
    exact hne (Prod.mk.inj heq).1.symm

/-- The two sweeps together meet every point once. -/
theorem nested_perm (hinside : inside.Nodup) (houtside : outside.Nodup)
    (houtside_lt : ∀ d ∈ outside, d < sizes.length) (hinside_lt : ∀ d ∈ inside, d < sizes.length)
    (hcover : ∀ d < sizes.length, d ∈ outside ∨ d ∈ inside) (hout : out ⊆ outside) :
    (((points sizes).filter fun i => select out i = o).map fun i =>
      (select outside i, select inside i)).Perm (nested sizes outside inside out o) := by
  rw [List.perm_ext_iff_of_nodup _ nodup_nested]
  · intro (k, l)
    rw [mem_nested]
    simp only [List.mem_map, List.mem_filter, decide_eq_true_eq, Prod.mk.injEq]
    constructor
    · rintro ⟨i, ⟨hi, ho⟩, rfl, rfl⟩
      refine ⟨⟨select_mem_points hi houtside_lt, ?_⟩, select_mem_points hi hinside_lt, ?_⟩
      · rw [select_idxOf hout, ho]
      · intro d hd hd'
        have hlt := List.idxOf_lt_length_of_mem hd
        have hlt' := List.idxOf_lt_length_of_mem hd'
        rw [getD_select hlt, getD_select hlt', List.getElem_idxOf, List.getElem_idxOf]
    · rintro ⟨⟨hk, ho⟩, hl, hagree⟩
      have hlen := (mem_points_iff_getD.1 hk).1
      have hlen' := (mem_points_iff_getD.1 hl).1
      let f : Nat → Nat := fun d =>
        if d ∈ outside then k.getD (outside.idxOf d) 0 else l.getD (inside.idxOf d) 0
      have hselect : select outside (assemble sizes.length f) = k := by
        apply ext_getD (by simpa using hlen.symm)
        intro n hn
        rw [length_select] at hn
        have hmem := List.getElem_mem hn
        rw [getD_select hn, getD_assemble f (houtside_lt _ hmem)]
        simp only [f, if_pos hmem, houtside.idxOf_getElem]
      refine ⟨assemble sizes.length f, ⟨assemble_mem_points ?_, ?_⟩, hselect, ?_⟩
      · intro d hd
        by_cases hmem : d ∈ outside
        · simp only [f, if_pos hmem]
          exact getD_lt_of_select hk hmem
        · simp only [f, if_neg hmem]
          exact getD_lt_of_select hl ((hcover d hd).resolve_left hmem)
      · rw [← select_idxOf hout, hselect, ho]
      · apply ext_getD (by simpa using hlen'.symm)
        intro n hn
        rw [length_select] at hn
        have hmem := List.getElem_mem hn
        rw [getD_select hn, getD_assemble f (hinside_lt _ hmem)]
        by_cases hboth : inside[n] ∈ outside
        · simp only [f, if_pos hboth]
          rw [← hagree _ hmem hboth, hinside.idxOf_getElem]
        · simp only [f, if_neg hboth, hinside.idxOf_getElem]
  · apply List.Nodup.map_on _ ((nodup_points _).filter _)
    intro i hi i' hi' heq
    obtain ⟨houtside_eq, hinside_eq⟩ := Prod.mk.inj heq
    have hlen := (mem_points_iff_getD.1 (List.mem_of_mem_filter hi)).1
    have hlen' := (mem_points_iff_getD.1 (List.mem_of_mem_filter hi')).1
    apply ext_getD (hlen.trans hlen'.symm)
    intro d hd
    rcases hcover d (hlen ▸ hd) with hmem | hmem
    · exact select_eq_select_iff.1 houtside_eq d hmem
    · exact select_eq_select_iff.1 hinside_eq d hmem

end

end RowMajor
