import DataflowScheduler.Util.Digits

/-!
# Slices of boxes in row-major order

What a strided slice takes of the dimensions of a box, and when two slices of two boxes of as many
elements take the same ones: number by number, whatever the dimensions are.
-/

namespace RowMajor

/-! ### Boxes side by side -/

theorem digits_append {s s' : List Nat} {p : Nat} (hp : p < (s ++ s').prod) :
    digits (s ++ s') p = digits s (p / s'.prod) ++ digits s' (p % s'.prod) := by
  induction s generalizing p with
  | nil =>
    rw [List.nil_append] at hp ⊢
    rw [Nat.mod_eq_of_lt hp]
    rfl
  | cons n rest ih =>
    rw [List.cons_append, List.prod_cons, List.prod_append] at hp
    have hrest : 0 < rest.prod * s'.prod := Nat.pos_of_mul_pos_left (Nat.zero_lt_of_lt hp)
    have hlt : p % (rest.prod * s'.prod) < (rest ++ s').prod := by
      rw [List.prod_append]
      exact Nat.mod_lt p hrest
    have hdiv : p / (rest.prod * s'.prod) = p / s'.prod / rest.prod := by
      rw [Nat.div_div_eq_div_mul, Nat.mul_comm]
    have hmid : p % (rest.prod * s'.prod) / s'.prod = p / s'.prod % rest.prod := by
      rw [Nat.mul_comm, Nat.mod_mul_right_div_self]
    have hlow : p % (rest.prod * s'.prod) % s'.prod = p % s'.prod := Nat.mod_mul_left_mod ..
    rw [List.cons_append, digits, digits, List.prod_append, ih hlt, hdiv, hmid, hlow]
    rfl

theorem number_append {s s' i i' : List Nat} (hi : i.length = s.length)
    (hi' : i'.length = s'.length) :
    number (s ++ s') (i ++ i') = number s i * s'.prod + number s' i' := by
  rw [number, List.zip_append hi.symm, List.foldl_append, foldl_zip_eq hi']
  rfl

/-! ### Dimensions and slices of them -/

/-- A dimension and what a slice takes of it. -/
structure SlicedDim where
  extent : Nat
  offset : Int
  size : Nat
  stride : Int

namespace SlicedDim

/-- Where an element of the slice is. -/
def element (d : SlicedDim) (i : Nat) : Int := d.offset + i * d.stride

/-- All elements of the slice are there. -/
def InBounds (d : SlicedDim) : Prop := ∀ i < d.size, 0 ≤ d.element i ∧ d.element i < d.extent

/-- The slice takes all of the dimension. -/
def Whole (d : SlicedDim) : Prop := d.size = d.extent ∧ ∀ i < d.size, d.element i = i

theorem Whole.inBounds {d : SlicedDim} (h : d.Whole) : d.InBounds := by
  intro i hi
  rw [h.2 i hi]
  have := h.1
  omega

end SlicedDim

section Place

open SlicedDim

variable {ds ds' es es' fs : List SlicedDim} {d : SlicedDim}

abbrev extents (ds : List SlicedDim) : List Nat := ds.map SlicedDim.extent

abbrev sizes (ds : List SlicedDim) : List Nat := ds.map SlicedDim.size

/-- The element of the box that an element of the slice is. -/
def place (ds : List SlicedDim) (index : List Nat) : List Nat :=
  List.zipWith (fun d i => (d.element i).toNat) ds index

@[simp] theorem length_place (ds : List SlicedDim) (p : Nat) :
    (place ds (digits (sizes ds) p)).length = (extents ds).length := by
  simp [place]

/-- The number in the box of an element of the slice. -/
def placeNumber (ds : List SlicedDim) (p : Nat) : Nat :=
  number (extents ds) (place ds (digits (sizes ds) p))

theorem placeNumber_append {p : Nat} (hp : p < (sizes (ds ++ ds')).prod) :
    placeNumber (ds ++ ds') p =
      placeNumber ds (p / (sizes ds').prod) * (extents ds').prod +
        placeNumber ds' (p % (sizes ds').prod) := by
  rw [sizes, List.map_append] at hp
  rw [placeNumber, sizes, extents, List.map_append, List.map_append, digits_append hp, place,
    List.zipWith_append (by simp)]
  exact number_append (length_place ds _) (length_place ds' _)

/-- Slices in bounds stay in the box. -/
theorem place_mem_points (h : ∀ d ∈ ds, d.InBounds) {index : List Nat}
    (hindex : index ∈ points (sizes ds)) : place ds index ∈ points (extents ds) := by
  induction ds generalizing index with
  | nil =>
    rw [mem_points] at hindex ⊢
    cases hindex
    exact .nil
  | cons d ds ih =>
    rw [List.forall_mem_cons] at h
    cases index with
    | nil => simp [mem_points] at hindex
    | cons i index =>
      obtain ⟨hi, hindex⟩ := cons_mem_points.mp hindex
      have := h.1 i hi
      refine cons_mem_points.mpr ⟨?_, ih h.2 hindex⟩
      show (d.element i).toNat < d.extent
      omega

theorem digits_mem_points {s : List Nat} {p : Nat} (hp : p < s.prod) : digits s p ∈ points s := by
  rw [points_eq_map_digits]
  exact List.mem_map_of_mem (List.mem_range.mpr hp)

/-- As integers, these are the elements of the strided box. -/
theorem map_place (h : ∀ d ∈ ds, d.InBounds) {index : List Nat}
    (hindex : index ∈ points (sizes ds)) :
    (place ds index).map Int.ofNat =
      boxAt (ds.map SlicedDim.offset) (ds.map SlicedDim.stride) index := by
  induction ds generalizing index with
  | nil =>
    rw [mem_points] at hindex
    cases hindex
    rfl
  | cons d ds ih =>
    rw [List.forall_mem_cons] at h
    cases index with
    | nil => simp [mem_points] at hindex
    | cons i index =>
      obtain ⟨hi, hindex⟩ := cons_mem_points.mp hindex
      have hpos := (h.1 i hi).1
      show Int.ofNat (d.element i).toNat :: (place ds index).map Int.ofNat = _
      rw [ih h.2 hindex, Int.ofNat_eq_natCast, Int.toNat_of_nonneg hpos]
      rfl

/-! ### Slices of the same elements -/

/-- Two boxes of as many elements, and slices that take the same elements in the same order. -/
structure Agrees (ds es : List SlicedDim) : Prop where
  extents : (extents ds).prod = (extents es).prod
  sizes : (sizes ds).prod = (sizes es).prod
  number : ∀ p < (RowMajor.sizes ds).prod, placeNumber ds p = placeNumber es p

namespace Agrees

theorem refl (ds : List SlicedDim) : Agrees ds ds := ⟨rfl, rfl, fun _ _ => rfl⟩

theorem symm (h : Agrees ds es) : Agrees es ds where
  extents := h.extents.symm
  sizes := h.sizes.symm
  number := fun p hp => (h.number p (h.sizes ▸ hp)).symm

theorem trans (h : Agrees ds es) (h' : Agrees es fs) : Agrees ds fs where
  extents := h.extents.trans h'.extents
  sizes := h.sizes.trans h'.sizes
  number := fun p hp => (h.number p hp).trans (h'.number p (h.sizes ▸ hp))

theorem append (h : Agrees ds es) (h' : Agrees ds' es') : Agrees (ds ++ ds') (es ++ es') where
  extents := by
    rw [RowMajor.extents, RowMajor.extents, List.map_append, List.map_append, List.prod_append,
      List.prod_append, h.extents, h'.extents]
  sizes := by
    rw [RowMajor.sizes, RowMajor.sizes, List.map_append, List.map_append, List.prod_append,
      List.prod_append, h.sizes, h'.sizes]
  number := by
    intro p hp
    have hprod : (RowMajor.sizes (ds ++ ds')).prod =
        (RowMajor.sizes ds).prod * (RowMajor.sizes ds').prod := by
      rw [RowMajor.sizes, List.map_append, List.prod_append]
    have hprod' : (RowMajor.sizes (es ++ es')).prod =
        (RowMajor.sizes ds).prod * (RowMajor.sizes ds').prod := by
      rw [RowMajor.sizes, List.map_append, List.prod_append, h.sizes, h'.sizes]
    have hpos : 0 < (RowMajor.sizes ds').prod := by
      rw [hprod] at hp
      exact Nat.pos_of_mul_pos_left (Nat.zero_lt_of_lt hp)
    rw [placeNumber_append hp, placeNumber_append (by rwa [hprod', ← hprod]), ← h'.sizes,
      ← h'.extents, h.number _ ?_, h'.number _ (Nat.mod_lt p hpos)]
    rw [Nat.div_lt_iff_lt_mul hpos, ← hprod]
    exact hp

/-- A dimension of one element can be left out. -/
theorem unit (hextent : d.extent = 1) (hsize : d.size = 1) (h : d.InBounds) : Agrees [d] [] where
  extents := by simp [hextent]
  sizes := by simp [hsize]
  number := by
    intro p hp
    have hp0 : p = 0 := by simpa [hsize] using hp
    have hzero := h 0 (by omega)
    subst hp0
    have hplace : (d.element 0).toNat = 0 := by omega
    show RowMajor.number [d.extent] [(d.element 0).toNat] = 0
    rw [hplace, RowMajor.number]
    simp

theorem units (h : ∀ d ∈ ds, d.extent = 1 ∧ d.size = 1 ∧ d.InBounds) : Agrees ds [] := by
  induction ds with
  | nil => exact .refl []
  | cons d ds ih =>
    rw [List.forall_mem_cons] at h
    exact (unit h.1.1 h.1.2.1 h.1.2.2).append (ih h.2)

/-- Nothing is taken. -/
theorem of_empty (hextents : (RowMajor.extents ds).prod = (RowMajor.extents es).prod)
    (hds : (RowMajor.sizes ds).prod = 0) (hes : (RowMajor.sizes es).prod = 0) : Agrees ds es where
  extents := hextents
  sizes := hds.trans hes.symm
  number := fun p hp => absurd hp (by omega)

theorem placeNumber_whole (h : ∀ d ∈ ds, d.Whole) {p : Nat} (hp : p < (RowMajor.sizes ds).prod) :
    placeNumber ds p = p := by
  have hsizes : RowMajor.extents ds = RowMajor.sizes ds :=
    List.map_congr_left fun d hd => (h d hd).1.symm
  have hplace : ∀ {index : List Nat}, index ∈ points (RowMajor.sizes ds) →
      place ds index = index := by
    clear hp hsizes
    induction ds with
    | nil =>
      intro index hindex
      rw [mem_points] at hindex
      cases hindex
      rfl
    | cons d ds ih =>
      rw [List.forall_mem_cons] at h
      intro index hindex
      cases index with
      | nil => simp [mem_points] at hindex
      | cons i index =>
        obtain ⟨hi, hindex⟩ := cons_mem_points.mp hindex
        show (d.element i).toNat :: place ds index = i :: index
        rw [ih h.2 hindex, h.1.2 i hi]
        rfl
  rw [placeNumber, hplace (digits_mem_points hp), hsizes, number_digits hp]

/-- All of two boxes is taken. -/
theorem whole (hds : ∀ d ∈ ds, d.Whole) (hes : ∀ e ∈ es, e.Whole)
    (hextents : (RowMajor.extents ds).prod = (RowMajor.extents es).prod) : Agrees ds es := by
  have hsizes : ∀ {ds : List SlicedDim}, (∀ d ∈ ds, d.Whole) →
      RowMajor.sizes ds = RowMajor.extents ds := fun h => List.map_congr_left fun d hd => (h d hd).1
  have hprod : (RowMajor.sizes ds).prod = (RowMajor.sizes es).prod := by
    rw [hsizes hds, hsizes hes, hextents]
  refine ⟨hextents, hprod, fun p hp => ?_⟩
  rw [placeNumber_whole hds hp, placeNumber_whole hes (hprod ▸ hp)]

/-- A slice of one dimension among dimensions that are taken as they are: what all the elements are
in already is sliced in the same way. -/
theorem carried {left right : List SlicedDim} {e : SlicedDim}
    (hleft : ∀ d ∈ left, d.Whole) (hright : ∀ d ∈ right, d.Whole)
    (hextents : (RowMajor.extents (left ++ d :: right)).prod = d.extent)
    (he : e = d) (h : d.InBounds) : Agrees (left ++ d :: right) [e] := by
  subst he
  by_cases hzero : e.extent = 0
  · -- there are no elements
    have hsize : e.size = 0 := by
      by_contra hne
      have := h 0 (by omega)
      omega
    refine of_empty (by simpa using hextents) ?_ (by simp [hsize])
    simp [RowMajor.sizes, List.prod_append, hsize]
  · have hprod : (RowMajor.extents left).prod * (RowMajor.extents right).prod = 1 := by
      have heq : (RowMajor.extents left).prod * (RowMajor.extents right).prod * e.extent =
          1 * e.extent := by
        rw [RowMajor.extents, List.map_append, List.map_cons, List.prod_append, List.prod_cons]
          at hextents
        rw [one_mul, Nat.mul_assoc, Nat.mul_comm _ e.extent]
        exact hextents
      exact Nat.eq_of_mul_eq_mul_right (Nat.pos_of_ne_zero hzero) heq
    have hones : ∀ {ds : List SlicedDim}, (RowMajor.extents ds).prod = 1 →
        (∀ d ∈ ds, d.Whole) → ∀ d ∈ ds, d.extent = 1 ∧ d.size = 1 ∧ d.InBounds := by
      intro ds hds hwhole d hd
      have hextent : d.extent = 1 := by
        have hdvd := List.dvd_prod (List.mem_map_of_mem (f := SlicedDim.extent) hd)
        rw [hds] at hdvd
        exact Nat.dvd_one.mp hdvd
      exact ⟨hextent, (hwhole d hd).1.trans hextent, (hwhole d hd).inBounds⟩
    have hleft' := units (hones (Nat.eq_one_of_mul_eq_one_right hprod) hleft)
    have hright' := units (hones (Nat.eq_one_of_mul_eq_one_left hprod) hright)
    have := hleft'.append ((refl [e]).append hright')
    simpa using this

/-- Dimensions that go group by group into one each. -/
theorem flatten {f : Nat → SlicedDim} {groups : List (List Nat)} {ds : List SlicedDim}
    (h : List.Forall₂ (fun group d => Agrees (group.map f) [d]) groups ds) :
    Agrees (groups.flatten.map f) ds := by
  induction h with
  | nil => exact .refl []
  | cons hgroup _ ih =>
    rw [List.flatten_cons, List.map_append]
    exact hgroup.append ih

end Agrees

end Place

end RowMajor
