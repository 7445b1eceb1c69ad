import DataflowScheduler.Transforms.SimplifyLinalg

/-!
# What slicing and demoting operands keeps

The slice of an operand is sound if it holds every element that is accessed, at the index that the
new indexing map gives, and if it leaves the plain accesses that loop ranges are inferred from. With
such slices the loops run over the same points and compute the same, and so they do when an init that
is yielded unchanged becomes an input.
-/

namespace DataflowScheduler

namespace SimplifyLinalg

open Affine Structured

variable {α : Type}

/-! ## Well-formed operations -/

/-- The value in the body exists. -/
def BodyValue.InScope (numInputs numInits : Nat) : BodyValue → Prop
  | .input i => i < numInputs
  | .init j => j < numInits
  | .result _ => True

namespace Generic

/-- What holds of a verified operation whose operands have the extents their types and the loops ask
for. -/
structure WellFormed (g : Generic α) : Prop where
  typed : ∀ d ∈ g.dims, ∀ n, d.extent = some n → d.size = n
  /-- Every loop has a range. -/
  ranged : ∀ loop < g.numLoops, (g.rangeDim loop).isSome
  /-- A plain access goes over all of the dimension. -/
  agrees : ∀ d ∈ g.dims, ∀ loop, d.index = .dim loop → (g.rangeDim loop).map Dim.size = some d.size
  inScope : ∀ v ∈ g.body.values, v.InScope g.inputs.length g.inits.length
  yields : g.body.yields.length = g.inits.length

/-- All accesses are in bounds. -/
def InBounds (g : Generic α) : Prop :=
  ∀ p ∈ g.points, ∀ d ∈ g.dims,
    0 ≤ valueAt (loopsAt p) d.index ∧ valueAt (loopsAt p) d.index < d.size

end Generic

/-- A rewrite is sound: its slices exist, the loops and what holds of the operation are kept, and the
users of each result get the elements that it had. -/
structure Keeps [Inhabited α] (g : Generic α) (r : Rewritten α) : Prop where
  fits : r.fits = true
  numInits : r.generic.inits.length = g.inits.length
  loopRanges : r.generic.loopRanges = g.loopRanges
  wellFormed : r.generic.WellFormed
  inBounds : r.generic.InBounds
  results : ∀ j < g.inits.length, ∀ t, t.Same (r.generic.result j) →
    (r.replace j t).Same (g.result j)

namespace Keeps

variable [Inhabited α] {g : Generic α} {r : Rewritten α}

theorem unchanged (hg : g.WellFormed) (hin : g.InBounds) : Keeps g (unchanged g) where
  fits := rfl
  numInits := rfl
  loopRanges := rfl
  wellFormed := hg
  inBounds := hin
  results := fun _ _ _ h => h

theorem andThen {next : Generic α → Rewritten α} (h : Keeps g r)
    (hnext : Keeps r.generic (next r.generic)) : Keeps g (r.andThen next) where
  fits := by
    show (r.fits && (next r.generic).fits) = true
    rw [h.fits, hnext.fits]
    rfl
  numInits := hnext.numInits.trans h.numInits
  loopRanges := hnext.loopRanges.trans h.loopRanges
  wellFormed := hnext.wellFormed
  inBounds := hnext.inBounds
  results := by
    intro j hj t ht
    apply h.results j hj
    exact hnext.results j (h.numInits ▸ hj) t ht

end Keeps

/-! ## Points of the iteration space -/

section Points

variable {g : Generic α} {p : List Nat} {loop : Nat}

theorem getD_staticLoopRanges (h : loop < g.numLoops) :
    g.staticLoopRanges.getD loop none = (g.rangeDim loop).bind fun d => d.extent := by
  simp [Generic.staticLoopRanges, h]

theorem staticLoopRange_eq_some {n : Nat} (h : g.staticLoopRanges.getD loop none = some n) :
    (g.rangeDim loop).bind (fun d => d.extent) = some n := by
  by_cases hloop : loop < g.numLoops
  · rwa [getD_staticLoopRanges hloop] at h
  · simp [Generic.staticLoopRanges, hloop] at h

theorem rangeDim_mem {d : Dim} (h : g.rangeDim loop = some d) : d ∈ g.dims ∧ d.index = .dim loop :=
  ⟨List.mem_of_find?_eq_some h, by simpa using List.find?_some h⟩

/-- A static loop range is the one at run time. -/
theorem Generic.WellFormed.size_rangeDim (hg : g.WellFormed) {n : Nat}
    (h : g.staticLoopRanges.getD loop none = some n) : (g.rangeDim loop).map Dim.size = some n := by
  obtain ⟨d, hd, hextent⟩ := Option.bind_eq_some_iff.mp (staticLoopRange_eq_some h)
  rw [hd, Option.map_some, hg.typed d (rangeDim_mem hd).1 n hextent]

theorem loopsAt_lt (hp : p ∈ g.points) (hloop : loop < g.numLoops) {n : Nat}
    (h : (g.rangeDim loop).map Dim.size = some n) : loopsAt p loop < n := by
  have hforall := List.forall₂_iff_get.mp (RowMajor.mem_points.mp hp)
  have hlength : p.length = g.numLoops := by
    rw [hforall.1, Generic.loopRanges, List.length_map, List.length_range]
  have hlt := hforall.2 loop (by omega) (by simpa [Generic.loopRanges] using hloop)
  obtain ⟨d, hd, rfl⟩ := Option.map_eq_some_iff.mp h
  simp only [Generic.loopRanges, List.get_eq_getElem, List.getElem_map, List.getElem_range, hd,
    Option.elim_some] at hlt
  simp only [loopsAt, List.getD_eq_getElem?_getD, List.getElem?_eq_getElem (hlength ▸ hloop),
    Option.getD_some]
  omega

/-- At a point the loops are in their static ranges. -/
theorem Generic.WellFormed.inRanges (hg : g.WellFormed) (hp : p ∈ g.points) :
    InRanges g.staticLoopRanges (loopsAt p) := by
  intro loop hloop
  constructor
  · exact Int.natCast_nonneg _
  · intro n hn
    rw [Generic.staticLoopRanges, List.length_map, List.length_range] at hloop
    exact loopsAt_lt hp hloop (hg.size_rangeDim hn)

theorem Generic.WellFormed.admits (hg : g.WellFormed) (hin : g.InBounds) (hp : p ∈ g.points)
    {d : Dim} (hd : d ∈ g.dims) : d.toDimType.Admits (loopsAt p) := by
  refine ⟨(hin p hp d hd).1, ?_⟩
  intro n hn
  rw [← hg.typed d hd n hn]
  exact (hin p hp d hd).2

end Points

/-! ## Sound slices -/

/-- The slice of a dimension has what is accessed where it is accessed now. -/
structure SoundSlice (g : Generic α) (d : Dim) (dim : DimSlice) (rebased : Expr) : Prop where
  stride : 0 < dim.stride
  fits : (materialize d (some (dim, rebased))).Fits d.size
  index : ∀ p ∈ g.points, 0 ≤ valueAt (loopsAt p) rebased ∧
    valueAt (loopsAt p) rebased < dim.size ∧
      dim.offset + valueAt (loopsAt p) rebased * dim.stride = valueAt (loopsAt p) d.index
  /-- A loop range can still be inferred from the dimension -/
  stays : ∀ loop, d.index = .dim loop → rebased = .dim loop
  /-- and is the same. -/
  range : ∀ loop, rebased = .dim loop →
    g.staticLoopRanges.getD loop none = some dim.size.toNat

/-- The slice of an operand is sound. -/
def SoundSlices (g : Generic α) (o : Operand α) (slice : OperandSlice) : Prop :=
  slice.length = o.dims.length ∧
    ∀ d dim rebased, (d, some (dim, rebased)) ∈ o.dims.zip slice → SoundSlice g d dim rebased

/-- A dimension and what a sound slice leaves of it. -/
def Slices (g : Generic α) (d d' : Dim) : Prop :=
  d' = d ∨ ∃ dim rebased, SoundSlice g d dim rebased ∧ d' = slicedDim d (some (dim, rebased))

section Slices

variable {g : Generic α} {o : Operand α} {slice : OperandSlice} {p : List Nat} {d d' : Dim}

theorem slices_of_mem (h : SoundSlices g o slice) {x : Dim × Option (DimSlice × Expr)}
    (hx : x ∈ o.dims.zip slice) : Slices g x.1 (slicedDim x.1 x.2) := by
  obtain ⟨d, _ | ⟨dim, rebased⟩⟩ := x
  · exact .inl rfl
  · exact .inr ⟨dim, rebased, h.2 d dim rebased hx, rfl⟩

theorem forall₂_slices (h : SoundSlices g o slice) :
    List.Forall₂ (Slices g) o.dims (o.extract slice).dims := by
  have hfst : o.dims = (o.dims.zip slice).map Prod.fst := (List.map_fst_zip h.1.ge).symm
  rw [hfst, Operand.extract, List.forall₂_map_left_iff, List.forall₂_map_right_iff,
    List.forall₂_same]
  intro x hx
  exact slices_of_mem h hx

theorem Slices.size (h : Slices g d d') (hg : g.WellFormed) {loop : Nat}
    (hd : d ∈ g.dims) (hplain : d'.index = .dim loop) :
    (g.rangeDim loop).map Dim.size = some d'.size := by
  rcases h with rfl | ⟨dim, rebased, hsound, rfl⟩
  · exact hg.agrees d' hd loop hplain
  · exact hg.size_rangeDim (hsound.range loop hplain)

/-- The elements that are accessed of a sound slice are those that were accessed. -/
theorem elements_extract (h : SoundSlices g o slice) (hin : g.InBounds) (hp : p ∈ g.points)
    (ho : o ∈ g.operands) :
    Inside ((o.ranges slice).map Range.size) ((o.extract slice).indexAt p) ∧
      elements (o.ranges slice) ((o.extract slice).indexAt p) = o.indexAt p := by
  have hfst : o.dims = (o.dims.zip slice).map Prod.fst := (List.map_fst_zip h.1.ge).symm
  have hdims : ∀ d ∈ o.dims, d ∈ g.dims := fun d hd => List.mem_flatMap.mpr ⟨o, ho, hd⟩
  have hone : ∀ x ∈ o.dims.zip slice,
      (0 ≤ valueAt (loopsAt p) (slicedDim x.1 x.2).index ∧
        valueAt (loopsAt p) (slicedDim x.1 x.2).index < ((materialize x.1 x.2).size : Int)) ∧
      (materialize x.1 x.2).element (valueAt (loopsAt p) (slicedDim x.1 x.2).index) =
        valueAt (loopsAt p) x.1.index := by
    rintro ⟨d, _ | ⟨dim, rebased⟩⟩ hx
    · refine ⟨hin p hp d (hdims d (List.of_mem_zip hx).1), ?_⟩
      show 0 + valueAt (loopsAt p) d.index * 1 = valueAt (loopsAt p) d.index
      omega
    · obtain ⟨hpos, hlt, heq⟩ := (h.2 d dim rebased hx).index p hp
      refine ⟨⟨hpos, ?_⟩, heq⟩
      show valueAt (loopsAt p) rebased < (dim.size.toNat : Int)
      omega
  constructor
  · rw [Inside, Operand.ranges, Operand.indexAt, Operand.extract, List.map_map, List.map_map,
      List.forall₂_map_left_iff, List.forall₂_map_right_iff, List.forall₂_same]
    exact fun x hx => (hone x hx).1
  · have helements : elements (o.ranges slice) ((o.extract slice).indexAt p) =
        (o.dims.zip slice).map fun x => valueAt (loopsAt p) x.1.index := by
      rw [elements, Operand.ranges, Operand.indexAt, Operand.extract, List.map_map,
        List.zipWith_map, List.zipWith_self]
      exact List.map_congr_left fun x hx => (hone x hx).2
    rw [helements, Operand.indexAt]
    conv_rhs => rw [hfst]
    rw [List.map_map]
    rfl

theorem shape_extract (o : Operand α) (slice : OperandSlice) :
    (o.extract slice).tensor.shape = (o.ranges slice).map Range.size := by
  show ((o.dims.zip slice).map _).map Dim.size = ((o.dims.zip slice).map _).map Range.size
  rw [List.map_map, List.map_map]
  apply List.map_congr_left
  rintro ⟨d, _ | ⟨dim, rebased⟩⟩ -
  · rfl
  · rfl

theorem stride_ranges (h : SoundSlices g o slice) : ∀ r ∈ o.ranges slice, r.stride ≠ 0 := by
  intro r hr
  obtain ⟨⟨d, _ | ⟨dim, rebased⟩⟩, hx, rfl⟩ := List.mem_map.mp hr
  · exact Int.one_ne_zero
  · exact (h.2 d dim rebased hx).stride.ne'

theorem fits_of_sound (h : SoundSlices g o slice) : o.fits slice = true := by
  rw [Operand.fits, List.all_eq_true]
  rintro ⟨d, _ | ⟨dim, rebased⟩⟩ hx
  · rw [decide_eq_true_eq, Range.Fits]
    show d.size = 0 ∨ (0 : Int) ≤ 0 ∧ (0 : Int) + ((d.size : Int) - 1) * 1 < d.size
    omega
  · exact decide_eq_true (h.2 d dim rebased hx).fits

end Slices

/-! ## Loop ranges of sliced operations -/

section SlicedRanges

variable {g : Generic α} {dims dims' : List Dim}

/-- What is inferred from the first plain access is kept if the plain accesses stay and new ones have
it as well. -/
theorem map_find?_slices {β : Type} {f : Dim → β} {x : β} {loop : Nat}
    (h : List.Forall₂ (Slices g) dims dims')
    (hf : ∀ d dim rebased, SoundSlice g d dim rebased → rebased = .dim loop →
      f (slicedDim d (some (dim, rebased))) = x)
    (hfind : (dims.find? fun d => d.index = .dim loop).map f = some x) :
    (dims'.find? fun d => d.index = .dim loop).map f = some x := by
  induction h with
  | nil => cases hfind
  | @cons d d' dims dims' hd _ ih =>
    rcases hd with rfl | ⟨dim, rebased, hsound, rfl⟩
    · by_cases hplain : d'.index = .dim loop
      · rw [List.find?_cons_of_pos (by simpa using hplain)] at hfind ⊢
        exact hfind
      · rw [List.find?_cons_of_neg (by simpa using hplain)] at hfind ⊢
        exact ih hfind
    · by_cases hplain : rebased = .dim loop
      · rw [List.find?_cons_of_pos (by exact decide_eq_true hplain), Option.map_some,
          hf d dim rebased hsound hplain]
      · have hd : d.index ≠ .dim loop := fun h => hplain (hsound.stays loop h)
        rw [List.find?_cons_of_neg (by simpa using hd)] at hfind
        rw [List.find?_cons_of_neg (by exact decide_eq_true_iff.not.mpr hplain)]
        exact ih hfind

end SlicedRanges

/-! ## `sliceOperands` -/

section SliceOperands

variable {g : Generic α} {computeSlice : List DimType → Option OperandSlice}

/-- An operand after `sliceOperands`. -/
def slicedOperand (computeSlice : List DimType → Option OperandSlice) (o : Operand α) : Operand α :=
  (computeSlice o.types).elim o o.extract

/-- The slices of all operands are sound. -/
def AllSound (g : Generic α) (computeSlice : List DimType → Option OperandSlice) : Prop :=
  ∀ o ∈ g.operands, ∀ slice, computeSlice o.types = some slice → SoundSlices g o slice

/-- The operation after `sliceOperands`. -/
def slicedGeneric (g : Generic α) (computeSlice : List DimType → Option OperandSlice) : Generic α :=
  ⟨g.numLoops, g.inputs.map (slicedOperand computeSlice),
    g.inits.map (slicedOperand computeSlice), g.body⟩

theorem operands_slicedGeneric :
    (slicedGeneric g computeSlice).operands = g.operands.map (slicedOperand computeSlice) := by
  rw [Generic.operands, Generic.operands, List.map_append]
  rfl

theorem forall₂_flatMap {ops : List (Operand α)} {f : Operand α → Operand α}
    (h : ∀ o ∈ ops, List.Forall₂ (Slices g) o.dims (f o).dims) :
    List.Forall₂ (Slices g) (ops.flatMap Operand.dims) ((ops.map f).flatMap Operand.dims) := by
  induction ops with
  | nil => exact .nil
  | cons o ops ih =>
    rw [List.forall_mem_cons] at h
    rw [List.flatMap_cons, List.map_cons, List.flatMap_cons]
    exact List.rel_append h.1 (ih h.2)

theorem forall₂_dims (h : AllSound g computeSlice) :
    List.Forall₂ (Slices g) g.dims (slicedGeneric g computeSlice).dims := by
  rw [Generic.dims, Generic.dims, operands_slicedGeneric]
  apply forall₂_flatMap
  intro o ho
  rw [slicedOperand]
  cases hslice : computeSlice o.types with
  | none => exact List.forall₂_same.mpr fun d _ => .inl rfl
  | some slice => exact forall₂_slices (h o ho slice hslice)

/-- A dimension after the slices is one from before, or what a slice leaves of it. -/
theorem exists_slices (h : AllSound g computeSlice) {d' : Dim}
    (hd : d' ∈ (slicedGeneric g computeSlice).dims) : ∃ d ∈ g.dims, Slices g d d' := by
  obtain ⟨i, hi, rfl⟩ := List.getElem_of_mem hd
  have hforall := List.forall₂_iff_get.mp (forall₂_dims h)
  have hi' : i < g.dims.length := by rwa [hforall.1]
  exact ⟨g.dims[i], List.getElem_mem hi', hforall.2 i hi' hi⟩

variable (hg : g.WellFormed) (hin : g.InBounds) (h : AllSound g computeSlice)

include h

/-- The static loop ranges stay as they are. -/
theorem extent_rangeDim_sliced {loop : Nat} {e : Option Nat}
    (hextent : (g.rangeDim loop).map (fun d => d.extent) = some e) :
    ((slicedGeneric g computeSlice).rangeDim loop).map (fun d => d.extent) = some e := by
  refine map_find?_slices (forall₂_dims h) ?_ hextent
  intro d dim rebased hsound hplain
  have hstatic := staticLoopRange_eq_some (hsound.range loop hplain)
  obtain ⟨d₀, hd₀, rfl⟩ := Option.map_eq_some_iff.mp hextent
  rw [hd₀, Option.bind_some] at hstatic
  exact hstatic.symm

include hg

theorem size_rangeDim_sliced {loop n : Nat} (hsize : (g.rangeDim loop).map Dim.size = some n) :
    ((slicedGeneric g computeSlice).rangeDim loop).map Dim.size = some n := by
  refine map_find?_slices (forall₂_dims h) ?_ hsize
  intro d dim rebased hsound hplain
  have := hg.size_rangeDim (hsound.range loop hplain)
  rw [hsize] at this
  exact (Option.some.inj this).symm

theorem staticLoopRanges_sliced :
    (slicedGeneric g computeSlice).staticLoopRanges = g.staticLoopRanges := by
  apply List.map_congr_left
  intro loop hloop
  obtain ⟨d, hd⟩ := Option.isSome_iff_exists.mp (hg.ranged loop (List.mem_range.mp hloop))
  have hextent := extent_rangeDim_sliced h (e := d.extent) (by rw [hd]; rfl)
  obtain ⟨d', hd', heq⟩ := Option.map_eq_some_iff.mp hextent
  rw [hd, hd', Option.bind_some, Option.bind_some, heq]

theorem loopRanges_sliced : (slicedGeneric g computeSlice).loopRanges = g.loopRanges := by
  apply List.map_congr_left
  intro loop hloop
  obtain ⟨d, hd⟩ := Option.isSome_iff_exists.mp (hg.ranged loop (List.mem_range.mp hloop))
  have hsize := size_rangeDim_sliced hg h (n := d.size) (by rw [hd]; rfl)
  obtain ⟨d', hd', heq⟩ := Option.map_eq_some_iff.mp hsize
  rw [hd, hd', Option.elim_some, Option.elim_some, heq]

theorem points_sliced : (slicedGeneric g computeSlice).points = g.points := by
  rw [Generic.points, loopRanges_sliced hg h, Generic.points]

theorem wellFormed_sliced : (slicedGeneric g computeSlice).WellFormed where
  typed := by
    intro d' hd' n hn
    obtain ⟨d, hd, rfl | ⟨dim, rebased, -, rfl⟩⟩ := exists_slices h hd'
    · exact hg.typed d' hd n hn
    · exact Option.some.inj hn
  ranged := by
    intro loop hloop
    obtain ⟨d, hd⟩ := Option.isSome_iff_exists.mp (hg.ranged loop hloop)
    have hsize := size_rangeDim_sliced hg h (n := d.size) (by rw [hd]; rfl)
    obtain ⟨d', hd', -⟩ := Option.map_eq_some_iff.mp hsize
    rw [hd']
    rfl
  agrees := by
    intro d' hd' loop hplain
    obtain ⟨d, hd, hslices⟩ := exists_slices h hd'
    exact size_rangeDim_sliced hg h (hslices.size hg hd hplain)
  inScope := by
    intro v hv
    have := hg.inScope v hv
    simpa [slicedGeneric] using this
  yields := by simpa [slicedGeneric] using hg.yields

include hin

theorem inBounds_sliced : (slicedGeneric g computeSlice).InBounds := by
  intro p hp d' hd'
  rw [points_sliced hg h] at hp
  obtain ⟨d, hd, rfl | ⟨dim, rebased, hsound, rfl⟩⟩ := exists_slices h hd'
  · exact hin p hp d' hd
  · obtain ⟨hpos, hlt, -⟩ := hsound.index p hp
    refine ⟨hpos, ?_⟩
    show valueAt (loopsAt p) rebased < (dim.size.toNat : Int)
    omega

end SliceOperands

/-! ### The loops on slices -/

section Run

variable {g : Generic α} {computeSlice : List DimType → Option OperandSlice} {p : List Nat}
  {o : Operand α}

/-- Where an element of the operand after `sliceOperands` was before. -/
def embed (computeSlice : List DimType → Option OperandSlice) (o : Operand α) (index : Index) :
    Index :=
  (computeSlice o.types).elim index fun slice => elements (o.ranges slice) index

/-- The elements of a slice. An operand that is not sliced has all it had. -/
def InPart (computeSlice : List DimType → Option OperandSlice) (o : Operand α) (index : Index) :
    Prop :=
  ∀ slice, computeSlice o.types = some slice → Inside ((o.ranges slice).map Range.size) index

theorem embed_injective (h : AllSound g computeSlice) (ho : o ∈ g.operands) {index index' : Index}
    (hindex : InPart computeSlice o index) (hindex' : InPart computeSlice o index')
    (heq : embed computeSlice o index = embed computeSlice o index') : index = index' := by
  rw [embed, embed] at heq
  cases hslice : computeSlice o.types with
  | none =>
    rw [hslice] at heq
    exact heq
  | some slice =>
    rw [hslice, Option.elim_some, Option.elim_some] at heq
    have hstride := stride_ranges (h o ho slice hslice)
    have hlocate := locate_elements hstride (hindex slice hslice)
    rw [heq, locate_elements hstride (hindex' slice hslice)] at hlocate
    exact (Option.some.inj hlocate).symm

theorem indexAt_slicedOperand (h : AllSound g computeSlice) (hin : g.InBounds) (hp : p ∈ g.points)
    (ho : o ∈ g.operands) :
    InPart computeSlice o ((slicedOperand computeSlice o).indexAt p) ∧
      embed computeSlice o ((slicedOperand computeSlice o).indexAt p) = o.indexAt p := by
  rw [InPart, embed, slicedOperand]
  cases hslice : computeSlice o.types with
  | none => exact ⟨fun _ h => (by cases h), rfl⟩
  | some slice =>
    have helements := elements_extract (h o ho slice hslice) hin hp ho
    refine ⟨?_, helements.2⟩
    rintro _ ⟨⟩
    exact helements.1

/-- An element of the slice is the one it is taken from. -/
theorem get_slicedOperand (index : Index) :
    (slicedOperand computeSlice o).get index = o.get (embed computeSlice o index) := by
  rw [slicedOperand, embed]
  cases computeSlice o.types with
  | none => rfl
  | some slice => rfl

theorem read_slicedOperand (h : AllSound g computeSlice) (hin : g.InBounds) (hp : p ∈ g.points)
    (ho : o ∈ g.operands) : (slicedOperand computeSlice o).read p = o.read p := by
  rw [Operand.read, get_slicedOperand, (indexAt_slicedOperand h hin hp ho).2, Operand.read]

theorem mem_operands_of_inputs {i : Nat} (h : g.inputs[i]? = some o) : o ∈ g.operands :=
  List.mem_append_left _ (List.mem_of_getElem? h)

theorem mem_operands_of_inits {j : Nat} (h : g.inits[j]? = some o) : o ∈ g.operands :=
  List.mem_append_right _ (List.mem_of_getElem? h)

variable [Inhabited α]

theorem value_sliced (h : AllSound g computeSlice) (hin : g.InBounds) (hp : p ∈ g.points) :
    (slicedGeneric g computeSlice).kernel.value p = g.kernel.value p := by
  have hinputs : (fun i : Nat => ((slicedGeneric g computeSlice).inputs[i]?).elim default
      fun o : Operand α => o.read p) =
        fun i : Nat => (g.inputs[i]?).elim default fun o : Operand α => o.read p := by
    funext i
    simp only [slicedGeneric, List.getElem?_map]
    cases hi : g.inputs[i]? with
    | none => rfl
    | some o => exact read_slicedOperand h hin hp (mem_operands_of_inputs hi)
  show g.body.eval p _ = g.body.eval p _
  rw [hinputs]

/-- The loops compute of the slices what they compute of all elements. -/
theorem run_sliced (hg : g.WellFormed) (h : AllSound g computeSlice) (hin : g.InBounds) {j : Nat}
    (hj : g.inits[j]? = some o) (index : Index) (hindex : InPart computeSlice o index) :
    ((slicedGeneric g computeSlice).result j).get index =
      (g.result j).get (embed computeSlice o index) := by
  have hrun := Kernel.run_embedded g.kernel (slicedGeneric g computeSlice).kernel
    (fun j index => (g.inits[j]?).elim index fun o => embed computeSlice o index)
    (fun j index => ∀ o, g.inits[j]? = some o → InPart computeSlice o index)
    ?_ ?_ (fun p hp _ => congrFun (value_sliced h hin hp) _) g.initial
    (slicedGeneric g computeSlice).initial ?_ j index ?_
  · rw [hj] at hrun
    rw [Generic.result, points_sliced hg h]
    exact hrun
  · intro i index index' hindex hindex' heq
    cases hi : g.inits[i]? with
    | none =>
      rw [hi] at heq
      exact heq
    | some o =>
      rw [hi] at heq
      exact embed_injective h (mem_operands_of_inits hi) (hindex o hi) (hindex' o hi) heq
  · intro p hp i
    simp only [Generic.kernel, slicedGeneric, List.getElem?_map]
    cases hi : g.inits[i]? with
    | none => exact ⟨fun _ h => (by cases h), rfl⟩
    | some o =>
      have hindexAt := indexAt_slicedOperand h hin hp (mem_operands_of_inits hi)
      refine ⟨?_, hindexAt.2⟩
      rintro _ ⟨⟩
      exact hindexAt.1
  · intro i index _
    simp only [Generic.initial, slicedGeneric, List.getElem?_map]
    cases hi : g.inits[i]? with
    | none => rfl
    | some o => exact get_slicedOperand index
  · rintro o' ho'
    rw [hj] at ho'
    cases ho'
    exact hindex

theorem shape_sliced {j : Nat} (hj : g.inits[j]? = some o) :
    ((slicedGeneric g computeSlice).result j).shape = (slicedOperand computeSlice o).tensor.shape := by
  simp only [Generic.result, slicedGeneric, List.getElem?_map, hj]
  rfl

/-- What the users of a result get is the result that there was. -/
theorem replace_sliced (hg : g.WellFormed) (h : AllSound g computeSlice) (hin : g.InBounds) {j : Nat}
    (hj : g.inits[j]? = some o) {t : Tensor α}
    (ht : t.Same ((slicedGeneric g computeSlice).result j)) :
    ((computeSlice o.types).elim t fun slice => o.tensor.insert (o.ranges slice) t).Same
      (g.result j) := by
  have hshape : (g.result j).shape = o.tensor.shape := by
    simp only [Generic.result, hj]
    rfl
  have hpart := run_sliced hg h hin hj
  cases hslice : computeSlice o.types with
  | none =>
    refine ht.trans ⟨?_, fun index _ => ?_⟩
    · rw [shape_sliced hj, hshape, slicedOperand, hslice]
      rfl
    · have hinPart : InPart computeSlice o index := by
        intro slice hsome
        rw [hslice] at hsome
        cases hsome
      rw [hpart index hinPart, embed, hslice]
      rfl
  | some slice =>
    have hranges : ((slicedGeneric g computeSlice).result j).shape =
        (o.ranges slice).map Range.size := by
      rw [shape_sliced hj, slicedOperand, hslice]
      exact shape_extract o slice
    refine (ht.insert hranges o.tensor).trans ⟨hshape.symm, fun index _ => ?_⟩
    show (locate (o.ranges slice) index).elim (o.get index) _ = _
    cases hlocate : locate (o.ranges slice) index with
    | none =>
      -- the element is not in the slice, so no point accesses it
      have hunwritten : g.kernel.run g.points g.initial j index = g.initial j index := by
        apply Kernel.run_unwritten
        intro p hp heq
        have haccess := elements_extract (h o (mem_operands_of_inits hj) slice hslice) hin hp
          (mem_operands_of_inits hj)
        have hstride := stride_ranges (h o (mem_operands_of_inits hj) slice hslice)
        simp only [Generic.kernel, hj, Option.elim_some] at heq
        rw [← heq, ← haccess.2, locate_elements hstride haccess.1] at hlocate
        cases hlocate
      show o.get index = g.kernel.run g.points g.initial j index
      rw [hunwritten, Generic.initial, hj]
      rfl
    | some index' =>
      obtain ⟨hinside, rfl⟩ := locate_eq_some hlocate
      have hrun := hpart index' fun slice' hslice' => by
        rw [hslice] at hslice'
        cases hslice'
        exact hinside
      rw [embed, hslice] at hrun
      exact hrun

/-- **Sound slices keep the results.** -/
theorem sliceOperands_keeps (hg : g.WellFormed) (hin : g.InBounds) (h : AllSound g computeSlice)
    {r : Rewritten α} (hr : sliceOperands computeSlice g = some r) :
    Keeps g r ∧ r.generic.staticLoopRanges = g.staticLoopRanges := by
  rw [sliceOperands] at hr
  split at hr
  · obtain rfl := Option.some.inj hr
    refine ⟨⟨?_, ?_, ?_, ?_, ?_, ?_⟩, ?_⟩
    · rw [List.all_eq_true]
      intro o ho
      show (computeSlice o.types).elim true o.fits = true
      cases hslice : computeSlice o.types with
      | none => rfl
      | some slice => exact fits_of_sound (h o ho slice hslice)
    · exact List.length_map _
    · exact loopRanges_sliced hg h
    · exact wellFormed_sliced hg h
    · exact inBounds_sliced hg hin h
    · intro j hj t ht
      have hinit := List.getElem?_eq_getElem hj
      show ((g.inits[j]?).elim t fun init => (computeSlice init.types).elim t fun slice =>
        init.tensor.insert (init.ranges slice) t).Same (g.result j)
      rw [hinit]
      exact replace_sliced hg h hin hinit ht
    · exact staticLoopRanges_sliced hg h
  · cases hr

end Run

/-! ## `demoteInitToInput` -/

section Replace

variable {b : Body α} {old new : BodyValue}

theorem values_replaceAllUsesWith :
    (b.replaceAllUsesWith old new).values = b.values.map (replaceUse old new) := by
  rw [Body.values, Body.values, List.map_append, List.map_flatMap]
  congr 1
  simp only [Body.replaceAllUsesWith, List.flatMap_map]

/-- Values that stand for equal ones compute equal ones. -/
theorem eval_replaceAllUsesWith [Inhabited α] {p : List Nat} {ins ins' inits inits' : Nat → α}
    (h : ∀ v ∈ b.values, ∀ computed, Body.read ins' inits' computed (replaceUse old new v) =
      Body.read ins inits computed v) {i : Nat} (hi : i < b.yields.length) :
    (b.replaceAllUsesWith old new).eval p ins' inits' i = b.eval p ins inits i := by
  have hcomputed : Body.computed (b.replaceAllUsesWith old new).ops p ins' inits' =
      Body.computed b.ops p ins inits := by
    rw [Body.computed, Body.computed, Body.replaceAllUsesWith, List.foldl_map]
    apply List.foldl_ext
    intro computed op hop
    have hread : (op.operands.map (replaceUse old new)).map (Body.read ins' inits' computed) =
        op.operands.map (Body.read ins inits computed) := by
      rw [List.map_map]
      apply List.map_congr_left
      intro v hv
      exact h v (List.mem_append_left _ (List.mem_flatMap.mpr ⟨op, hop, hv⟩)) computed
    rw [hread]
  rw [Body.eval, Body.eval, hcomputed]
  have hyield : (b.replaceAllUsesWith old new).yields.getD i (.init i) =
      replaceUse old new (b.yields.getD i (.init i)) := by
    simp [Body.replaceAllUsesWith, List.getD_eq_getElem?_getD, List.getElem?_eq_getElem hi]
  rw [hyield]
  apply h
  apply List.mem_append_right
  rw [List.getD_eq_getElem?_getD, List.getElem?_eq_getElem hi]
  exact List.getElem_mem hi

end Replace

section Ranges

variable {g g' : Generic α}

/-- Operations that access the same dimensions have the same loop ranges. -/
theorem size_rangeDim_eq (hg : g.WellFormed) (hdims : ∀ d, d ∈ g'.dims ↔ d ∈ g.dims) (loop : Nat) :
    (g'.rangeDim loop).map Dim.size = (g.rangeDim loop).map Dim.size := by
  cases hrange : g'.rangeDim loop with
  | none =>
    have hnone : g.rangeDim loop = none := by
      rw [Generic.rangeDim, List.find?_eq_none] at hrange ⊢
      exact fun d hd => hrange d ((hdims d).mpr hd)
    rw [hnone]
  | some d =>
    obtain ⟨hd, hplain⟩ := rangeDim_mem hrange
    exact (hg.agrees d ((hdims d).mp hd) loop hplain).symm

theorem loopRanges_eq (hg : g.WellFormed) (hdims : ∀ d, d ∈ g'.dims ↔ d ∈ g.dims)
    (hloops : g'.numLoops = g.numLoops) : g'.loopRanges = g.loopRanges := by
  rw [Generic.loopRanges, Generic.loopRanges, hloops]
  apply List.map_congr_left
  intro loop _
  have hsize := size_rangeDim_eq hg hdims loop
  cases hrange : g'.rangeDim loop with
  | none =>
    rw [hrange] at hsize
    rw [Option.map_eq_none_iff.mp hsize.symm]
  | some d =>
    rw [hrange] at hsize
    obtain ⟨d', hd', heq⟩ := Option.map_eq_some_iff.mp hsize.symm
    rw [hd', Option.elim_some, Option.elim_some, heq]

end Ranges

section Demote

variable {g : Generic α} {contents : Nat → Index → α} {j : Nat} {init : Operand α}

theorem mem_dims_demote (hinit : g.inits[j]? = some init) (d : Dim) :
    d ∈ (demote contents g j init).generic.dims ↔ d ∈ g.dims := by
  obtain ⟨hj, rfl⟩ := List.getElem?_eq_some_iff.mp hinit
  simp only [demote, Generic.dims, Generic.operands, List.mem_flatMap, List.mem_append,
    List.mem_singleton]
  constructor
  · rintro ⟨o, (ho | rfl) | ho, hd⟩
    · exact ⟨o, .inl ho, hd⟩
    · exact ⟨_, .inr (List.getElem_mem hj), hd⟩
    · rcases List.mem_or_eq_of_mem_set ho with ho | rfl
      · exact ⟨o, .inr ho, hd⟩
      · exact ⟨_, .inr (List.getElem_mem hj), hd⟩
  · rintro ⟨o, ho | ho, hd⟩
    · exact ⟨o, .inl (.inl ho), hd⟩
    · obtain ⟨i, hi, rfl⟩ := List.getElem_of_mem ho
      by_cases hij : i = j
      · subst hij
        exact ⟨_, .inl (.inr rfl), hd⟩
      · refine ⟨g.inits[i], .inr ?_, hd⟩
        rw [List.mem_iff_getElem]
        exact ⟨i, by simpa using hi, by rw [List.getElem_set_ne (Ne.symm hij)]⟩

theorem inScope_demote (hg : g.WellFormed) :
    ∀ v ∈ (demote contents g j init).generic.body.values,
      v.InScope (demote contents g j init).generic.inputs.length
        (demote contents g j init).generic.inits.length := by
  intro v hv
  simp only [demote] at hv ⊢
  rw [values_replaceAllUsesWith] at hv
  obtain ⟨v, hmem, rfl⟩ := List.mem_map.mp hv
  rw [List.length_append, List.length_set, replaceUse]
  split
  · exact Nat.lt_succ_self _
  · have hscope := hg.inScope v hmem
    cases v with
    | input i => exact Nat.lt_succ_of_lt hscope
    | init i => exact hscope
    | result k => trivial

theorem getD_yields_of_unchanged (h : isUnchanged g j = true) :
    g.body.yields.getD j (.init j) = .init j := by
  rw [List.getD_eq_getElem?_getD, of_decide_eq_true h]
  rfl

variable [Inhabited α]

theorem index_demote (hinit : g.inits[j]? = some init) (p : List Nat) (i : Nat) :
    (demote contents g j init).generic.kernel.index p i = g.kernel.index p i := by
  simp only [Generic.kernel, demote]
  by_cases hij : j = i
  · subst hij
    obtain ⟨hj, rfl⟩ := List.getElem?_eq_some_iff.mp hinit
    rw [List.getElem?_set_self hj, hinit]
    rfl
  · rw [List.getElem?_set_ne hij]

/-- Where nothing is yielded but what was read. -/
theorem value_eq_args {p : List Nat} {args : Nat → α} {i : Nat}
    (h : g.body.yields.getD i (.init i) = .init i) : g.kernel.value p args i = args i := by
  show Body.read _ args _ (g.body.yields.getD i (.init i)) = args i
  rw [h]
  rfl

/-- The other outputs get what they got, reading the old init for the demoted one. -/
theorem value_demote (hg : g.WellFormed) (hinit : g.inits[j]? = some init) {p : List Nat}
    {args args' : Nat → α} (hargs : ∀ i, i < g.inits.length ∧ i ≠ j → args' i = args i)
    (hold : args j = g.initial j (g.kernel.index p j)) {i : Nat} (hi : i < g.inits.length) :
    (demote contents g j init).generic.kernel.value p args' i = g.kernel.value p args i := by
  apply eval_replaceAllUsesWith _ (hg.yields ▸ hi)
  intro v hv computed
  have hscope := hg.inScope v hv
  cases v with
  | input k =>
    rw [replaceUse, if_neg (by simp)]
    show ((g.inputs ++ [init])[k]?).elim _ _ = _
    rw [List.getElem?_append_left hscope]
    rfl
  | init k =>
    by_cases hkj : k = j
    · subst hkj
      rw [replaceUse, if_pos rfl]
      show ((g.inputs ++ [init])[g.inputs.length]?).elim _ _ = args k
      rw [List.getElem?_concat_length, hold, Generic.initial, Generic.kernel]
      simp only [hinit]
      rfl
    · rw [replaceUse, if_neg (by simpa using hkj)]
      exact hargs k ⟨hscope, hkj⟩
  | result k =>
    rw [replaceUse, if_neg (by simp)]
    rfl

theorem run_demote (hg : g.WellFormed) (hunchanged : isUnchanged g j = true)
    (hinit : g.inits[j]? = some init) {i : Nat} (hi : i < g.inits.length) (hij : i ≠ j) :
    ((demote contents g j init).generic.result i).get = (g.result i).get := by
  have hpoints : (demote contents g j init).generic.points = g.points := by
    rw [Generic.points, loopRanges_eq hg (mem_dims_demote hinit) rfl, Generic.points]
  show (demote contents g j init).generic.kernel.run _ _ i = g.kernel.run g.points g.initial i
  rw [hpoints]
  refine Kernel.run_dropped (fun i => i < g.inits.length ∧ i ≠ j)
    (fun p _ i => index_demote hinit p i) ?_ ?_ ?_ i ⟨hi, hij⟩
  · intro i hdropped p _ args
    apply value_eq_args
    by_cases hij : i = j
    · rw [hij]
      exact getD_yields_of_unchanged hunchanged
    · have hlength : g.body.yields.length ≤ i := by
        rw [hg.yields]
        exact Nat.le_of_not_lt fun hi => hdropped ⟨hi, hij⟩
      rw [List.getD_eq_getElem?_getD, List.getElem?_eq_none hlength]
      rfl
  · intro p _ args args' hargs hold i hkept
    exact value_demote hg hinit hargs (hold j fun h => h.2 rfl) hkept.1
  · intro i hkept
    simp only [Generic.initial, demote]
    rw [List.getElem?_set_ne (Ne.symm hkept.2)]

theorem demote_keeps (hg : g.WellFormed) (hin : g.InBounds) (hunchanged : isUnchanged g j = true)
    (hinit : g.inits[j]? = some init) : Keeps g (demote contents g j init) where
  fits := rfl
  numInits := List.length_set ..
  loopRanges := loopRanges_eq hg (mem_dims_demote hinit) rfl
  wellFormed :=
    { typed := fun d hd => hg.typed d ((mem_dims_demote hinit d).mp hd)
      ranged := by
        intro loop hloop
        have hsize : ((demote contents g j init).generic.rangeDim loop).map Dim.size =
            (g.rangeDim loop).map Dim.size := size_rangeDim_eq hg (mem_dims_demote hinit) loop
        rw [← Option.isSome_map (f := Dim.size), hsize, Option.isSome_map]
        exact hg.ranged loop hloop
      agrees := by
        intro d hd loop hplain
        rw [size_rangeDim_eq hg (mem_dims_demote hinit)]
        exact hg.agrees d ((mem_dims_demote hinit d).mp hd) loop hplain
      inScope := inScope_demote hg
      yields := by
        have := hg.yields
        simpa [demote, Body.replaceAllUsesWith] using this }
  inBounds := by
    intro p hp d hd
    rw [Generic.points, loopRanges_eq hg (mem_dims_demote hinit) rfl] at hp
    exact hin p hp d ((mem_dims_demote hinit d).mp hd)
  results := by
    intro i hi t ht
    show (if i = j then init.tensor else t).Same (g.result i)
    by_cases hij : i = j
    · -- the old init is what was written back unchanged
      subst hij
      rw [if_pos rfl]
      have hrun : g.kernel.run g.points g.initial i = g.initial i :=
        Kernel.run_unchanged
          (fun p _ args => value_eq_args (getD_yields_of_unchanged hunchanged)) g.initial
      refine ⟨?_, fun index _ => ?_⟩
      · simp only [Generic.result, hinit]
        rfl
      · simp only [Generic.result, hrun, Generic.initial, hinit]
        rfl
    · rw [if_neg hij]
      refine ht.trans ⟨?_, fun index _ => by rw [run_demote hg hunchanged hinit hi hij]⟩
      simp only [Generic.result, demote]
      rw [List.getElem?_set_ne (Ne.symm hij)]

theorem demoteInit_keeps (hg : g.WellFormed) (hin : g.InBounds) :
    Keeps g (demoteInit contents g j) := by
  rw [demoteInit]
  by_cases hunchanged : isUnchanged g j = true
  · rw [if_pos hunchanged]
    cases hinit : g.inits[j]? with
    | none => exact .unchanged hg hin
    | some init => exact demote_keeps hg hin hunchanged hinit
  · rw [if_neg hunchanged]
    exact .unchanged hg hin

/-- **Demoting keeps the results.** -/
theorem demoteInitToInput_keeps (hg : g.WellFormed) (hin : g.InBounds) {r : Rewritten α}
    (hr : demoteInitToInput contents g = some r) : Keeps g r := by
  rw [demoteInitToInput] at hr
  split at hr
  · obtain rfl := Option.some.inj hr
    apply List.foldlRecOn (motive := fun r => Keeps g r)
    · exact .unchanged hg hin
    · intro r hr j _
      exact hr.andThen (demoteInit_keeps hr.wellFormed hr.inBounds)
  · cases hr

end Demote

end SimplifyLinalg

end DataflowScheduler
