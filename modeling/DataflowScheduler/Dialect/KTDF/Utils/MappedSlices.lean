import DataflowScheduler.Dialect.KTDF.Utils.TransferSemantics
import DataflowScheduler.Util.SlicedDims

/-!
# Slices through reshapes that add or drop unit dimensions

`mapSlice` maps a slice of a tensor onto a reshaped tensor, `reshapeTo` reshapes what was sliced.
-/

namespace DataflowScheduler

namespace DataTransfers

open Operands RowMajor

/-! ## Reshapes -/

/-- The extent of a group of dimensions: unknown if one of them is. -/
def groupExtent (group : List (Option Nat)) : Option Nat := (group.mapM id).map List.prod

/-- The groups of dimensions of the larger shape that are one dimension each of the smaller one. A
shape without dimensions has no groups. -/
def Reassociates (groups : List (List Nat)) (large small : TensorType) : Prop :=
  (groups = [] ∧ small = [] ∧ ∀ extent ∈ large, extent = some 1) ∨
    groups.flatten = List.range large.length ∧
      List.Forall₂ (fun group extent => groupExtent (group.map fun d => large.getD d none) = extent)
        groups small

/-- A `tensor.collapse_shape` or `tensor.expand_shape`. -/
structure Reshape where
  isCollapse : Bool
  groups : List (List Nat)
  operandType : TensorType
  resultType : TensorType

/-- What the operation's verifier checks. -/
def Reshape.Verified (reshape : Reshape) : Prop :=
  if reshape.isCollapse then
    Reassociates reshape.groups reshape.operandType reshape.resultType
  else Reassociates reshape.groups reshape.resultType reshape.operandType

/-- The static shape of a tensor of the sizes of a slice. -/
def getSliceShape (slice : List Range) : TensorType :=
  slice.map fun range => (getConstantIntValue range.size).map Int.toNat

/-- The ranges of the other dimensions with their extents. Fails if a unit dimension is not sliced
with size one. -/
def carryRanges : TensorType → List Range → Option (List (Option Nat × Range))
  | extent :: sourceShape, range :: slice =>
      if extent ≠ some 1 then
        (carryRanges sourceShape slice).map fun carried => (extent, range) :: carried
      else if isConstantIntValue range.size 1 then carryRanges sourceShape slice
      else none
  | _, _ => some []

def unitRange : Range := ⟨.index 0, .index 1, .index 1⟩

/-- Give the ranges to the dimensions of the same extents. -/
def placeRanges : TensorType → List (Option Nat × Range) → Option (List Range)
  | [], [] => some []
  | [], _ :: _ => none
  | extent :: targetShape, carried =>
      if extent = some 1 then
        (placeRanges targetShape carried).map fun mapped => unitRange :: mapped
      else
        match carried with
        | [] => none
        | next :: carried =>
            if extent = none ∨ next.1 ≠ extent then none
            else (placeRanges targetShape carried).map fun mapped => next.2 :: mapped

/-- Maps a slice of a tensor of the source shape onto the same elements of a reshaped tensor of the
target shape. -/
def mapSlice (slice : List Range) (sourceShape targetShape : TensorType) : Option (List Range) := do
  let carried ← carryRanges sourceShape slice
  placeRanges targetShape carried

/-- The shape without its unit dimensions. -/
def squeezed (shape : TensorType) : TensorType := shape.filter fun extent => extent ≠ some 1

section Reassociation

-- `mlir::getReassociationIndicesForReshape`: the groups of a reshape between two shapes, if any.
variable (getReassociationIndicesForReshape : TensorType → TensorType → Option (List (List Nat)))

/-- A single reshape. `none` is the failed assertion. -/
def reshapeOnce (source target : TensorType) : Option Reshape :=
  (getReassociationIndicesForReshape source target).map fun reassociation =>
    ⟨decide (target.length < source.length), reassociation, source, target⟩

/-- Reshapes a value of a type to a shape, which may only differ in unit dimensions. -/
def reshapeTo (type shape : TensorType) : Option (List Reshape) :=
  if type = shape then some []
  else if (getReassociationIndicesForReshape type shape).isSome then
    (reshapeOnce getReassociationIndicesForReshape type shape).map ([·])
  else do
    let dropped ← reshapeOnce getReassociationIndicesForReshape type (squeezed shape)
    let added ← reshapeOnce getReassociationIndicesForReshape (squeezed shape) shape
    some [dropped, added]

/-- What is known of `getReassociationIndicesForReshape`: it returns groups that a reshape between the
shapes can have, and it finds some when all unit dimensions are dropped or added. -/
structure FindsReassociation : Prop where
  reassociates : ∀ source target groups,
    getReassociationIndicesForReshape source target = some groups →
      if target.length < source.length then Reassociates groups source target
      else Reassociates groups target source
  drop : ∀ shape, squeezed shape ≠ shape →
    (getReassociationIndicesForReshape shape (squeezed shape)).isSome = true
  add : ∀ shape, squeezed shape ≠ shape →
    (getReassociationIndicesForReshape (squeezed shape) shape).isSome = true

end Reassociation

/-- Reshapes that come one after another, from one type to another. -/
def Reshapes : TensorType → List Reshape → TensorType → Prop
  | type, [], shape => type = shape
  | type, reshape :: reshapes, shape =>
      reshape.operandType = type ∧ reshape.Verified ∧ Reshapes reshape.resultType reshapes shape

/-! ## What slices take -/

section Slices

variable {V : Type}

/-- The dimensions of a tensor and what the slice takes of them. -/
def Machine.slicedDims (m : Machine V) (shape : List Nat) (slice : List Range) : List SlicedDim :=
  List.zipWith (fun extent range =>
    { extent
      offset := range.offset.eval m.arguments
      size := (range.size.eval m.arguments).toNat
      stride := range.stride.eval m.arguments }) shape slice

/-- The slice stays in the tensor, dimension by dimension. -/
structure Machine.InBounds (m : Machine V) (shape : List Nat) (slice : List Range) : Prop where
  length_eq : shape.length = slice.length
  inBounds : ∀ d ∈ m.slicedDims shape slice, d.InBounds

/-- The index in the smaller shape of an element of the larger one: one number for each group. -/
def collapseIndex (groups : List (List Nat)) (large index : List Nat) : List Nat :=
  groups.map fun group =>
    number (group.map fun d => large.getD d 0) (group.map fun d => index.getD d 0)

/-- The element of the operand at an index is the one of the result at another index. -/
def Reshape.maps (reshape : Reshape) (operand result source target : List Nat) : Bool :=
  if reshape.isCollapse then collapseIndex reshape.groups operand source == target
  else collapseIndex reshape.groups result target == source

/-- The data of a reshaped tensor, in row-major order. -/
def Reshape.run [Inhabited V] (reshape : Reshape) (operand result : List Nat) (data : List V) :
    List V :=
  (points result).map fun index =>
    (((points operand).zip data).find? fun element =>
      reshape.maps operand result element.1 index).elim default Prod.snd

/-- A reshape at run time, when all extents are known. -/
def Reshape.Reassociated (reshape : Reshape) (operand result : List Nat) : Prop :=
  if reshape.isCollapse then
    Reassociates reshape.groups (operand.map some) (result.map some)
  else Reassociates reshape.groups (result.map some) (operand.map some)

/-- Run reshapes one after another, through some shapes at run time. -/
inductive Executes [Inhabited V] :
    List Reshape → List Nat → List V → List Nat → List V → Prop
  | nil {shape : List Nat} {data : List V} : Executes [] shape data shape data
  | cons {reshape : Reshape} {reshapes : List Reshape} {operand result shape : List Nat}
      {data data' : List V} (hreassociated : reshape.Reassociated operand result)
      (hrest : Executes reshapes result (reshape.run operand result data) shape data') :
      Executes (reshape :: reshapes) operand data shape data'

/-! ### Row-major data -/

theorem lookup_zip_getElem {α : Type} [BEq α] [LawfulBEq α] {keys : List α} (hnodup : keys.Nodup)
    {i : Nat} (hi : i < keys.length) (data : List V) :
    (keys.zip data).lookup keys[i] = data[i]? := by
  induction keys generalizing i data with
  | nil => simp at hi
  | cons key keys ih =>
    obtain ⟨hkey, hkeys⟩ := List.nodup_cons.mp hnodup
    cases data with
    | nil => simp
    | cons v data =>
      cases i with
      | zero => simp
      | succ i =>
        have hi' : i < keys.length := by simpa using hi
        have hne : (keys[i] == key) = false := by
          rw [beq_eq_false_iff_ne]
          rintro rfl
          exact hkey (List.getElem_mem hi')
        rw [List.getElem_cons_succ, List.zip_cons_cons, List.lookup_cons, hne, ih hkeys hi']
        rfl

/-- The element at an index is the one of its number. -/
theorem lookup_points [Inhabited V] {shape index : List Nat} (hindex : index ∈ points shape)
    (data : List V) :
    ((((points shape).map fun p => p.map Int.ofNat).zip data).lookup
      (index.map Int.ofNat)).getD default = data.getD (number shape index) default := by
  have hlt : number shape index < ((points shape).map fun p => p.map Int.ofNat).length := by
    simpa using number_lt hindex
  have hnodup : ((points shape).map fun p => p.map Int.ofNat).Nodup :=
    (nodup_points shape).map (List.map_injective_iff.mpr fun a b h => Int.ofNat.inj h)
  have hkey : ((points shape).map fun p => p.map Int.ofNat)[number shape index] =
      index.map Int.ofNat := by
    simp only [points_eq_map_digits, List.getElem_map, List.getElem_range]
    rw [digits_number hindex]
  rw [← hkey, lookup_zip_getElem hnodup hlt, List.getD_eq_getElem?_getD]

section SlicedDims

variable {m : Machine V} {shape : List Nat} {slice : List Range}

theorem Machine.slicedDims_maps (m : Machine V) (hlen : shape.length = slice.length) :
    (m.slicedDims shape slice).map SlicedDim.extent = shape ∧
      (m.slicedDims shape slice).map SlicedDim.offset =
        slice.map (fun range => range.offset.eval m.arguments) ∧
      (m.slicedDims shape slice).map SlicedDim.size = m.sizes (slice.map Range.size) ∧
      (m.slicedDims shape slice).map SlicedDim.stride =
        slice.map (fun range => range.stride.eval m.arguments) := by
  induction shape generalizing slice with
  | nil =>
    cases slice with
    | nil => exact ⟨rfl, rfl, rfl, rfl⟩
    | cons range slice => cases hlen
  | cons extent shape ih =>
    cases slice with
    | nil => cases hlen
    | cons range slice =>
      obtain ⟨hextent, hoffset, hsize, hstride⟩ := ih (Nat.succ.inj hlen)
      exact ⟨congrArg _ hextent, congrArg _ hoffset, congrArg _ hsize, congrArg _ hstride⟩

theorem Machine.InBounds.extents_slicedDims (h : m.InBounds shape slice) :
    extents (m.slicedDims shape slice) = shape := (m.slicedDims_maps h.length_eq).1

theorem Machine.InBounds.indices_eq (h : m.InBounds shape slice) :
    m.indices slice = box ((m.slicedDims shape slice).map SlicedDim.offset)
      ((m.slicedDims shape slice).map SlicedDim.size)
      ((m.slicedDims shape slice).map SlicedDim.stride) := by
  obtain ⟨-, hoffset, hsize, hstride⟩ := m.slicedDims_maps h.length_eq
  rw [hoffset, hsize, hstride]
  rfl

/-- A slice takes the elements at the numbers that its indices have in the tensor. -/
theorem extract_indices_eq [Inhabited V] (h : m.InBounds shape slice) (data : List V) :
    Machine.extract shape data (m.indices slice) =
      (List.range (sizes (m.slicedDims shape slice)).prod).map fun p =>
        data.getD (placeNumber (m.slicedDims shape slice) p) default := by
  rw [h.indices_eq, Machine.extract, box, points_eq_map_digits (List.map _ _), List.map_map,
    List.map_map]
  apply List.map_congr_left
  intro p hp
  have hdigits := digits_mem_points (List.mem_range.mp hp)
  have hplace := place_mem_points h.inBounds hdigits
  show (List.lookup (boxAt _ _ _) _).getD default = _
  rw [← map_place h.inBounds hdigits]
  rw [h.extents_slicedDims] at hplace
  rw [lookup_points hplace, placeNumber, h.extents_slicedDims]

/-- Slices that agree give the same elements in the same order. -/
theorem extract_eq_of_agrees [Inhabited V] {shape' : List Nat} {slice' : List Range}
    (h : m.InBounds shape slice) (h' : m.InBounds shape' slice')
    (hagrees : Agrees (m.slicedDims shape slice) (m.slicedDims shape' slice')) (data : List V) :
    Machine.extract shape data (m.indices slice) =
      Machine.extract shape' data (m.indices slice') := by
  rw [extract_indices_eq h, extract_indices_eq h', hagrees.sizes]
  apply List.map_congr_left
  intro p hp
  rw [hagrees.number p (hagrees.sizes ▸ List.mem_range.mp hp)]

end SlicedDims

/-! ### Slices of the same elements -/

section SameSlice

variable {shape shape' shape'' : List Nat} {slice slice' slice'' : List Range} {extent : Nat}
  {range : Range}

/-- One dimension and what a range takes of it. -/
def Machine.slicedDim (m : Machine V) (extent : Nat) (range : Range) : SlicedDim where
  extent
  offset := range.offset.eval m.arguments
  size := (range.size.eval m.arguments).toNat
  stride := range.stride.eval m.arguments

theorem Machine.slicedDims_cons (m : Machine V) :
    m.slicedDims (extent :: shape) (range :: slice) =
      m.slicedDim extent range :: m.slicedDims shape slice := rfl

theorem Machine.inBounds_cons {m : Machine V} :
    m.InBounds (extent :: shape) (range :: slice) ↔
      (m.slicedDim extent range).InBounds ∧ m.InBounds shape slice := by
  constructor
  · rintro ⟨hlen, hdims⟩
    rw [m.slicedDims_cons, List.forall_mem_cons] at hdims
    exact ⟨hdims.1, Nat.succ.inj hlen, hdims.2⟩
  · rintro ⟨hdim, hlen, hdims⟩
    refine ⟨congrArg Nat.succ hlen, ?_⟩
    rw [m.slicedDims_cons, List.forall_mem_cons]
    exact ⟨hdim, hdims⟩

end SameSlice

end Slices

/-- A slice in bounds is mapped to one that takes the same elements, and their shapes differ in unit
dimensions only. -/
structure SameSlice (shape : List Nat) (slice : List Range) (shape' : List Nat)
    (slice' : List Range) : Prop where
  squeezed_eq : squeezed (getSliceShape slice) = squeezed (getSliceShape slice')
  agrees : ∀ {V : Type} (m : Machine V), m.InBounds shape slice →
    m.InBounds shape' slice' ∧ Agrees (m.slicedDims shape slice) (m.slicedDims shape' slice')

namespace SameSlice

variable {shape shape' shape'' : List Nat} {slice slice' slice'' : List Range} {extent : Nat}
  {range : Range}

theorem nil : SameSlice [] [] [] [] where
  squeezed_eq := rfl
  agrees := fun _ h => ⟨h, .refl _⟩

theorem trans (h : SameSlice shape slice shape' slice')
    (h' : SameSlice shape' slice' shape'' slice'') : SameSlice shape slice shape'' slice'' where
  squeezed_eq := h.squeezed_eq.trans h'.squeezed_eq
  agrees := by
    intro V m hin
    obtain ⟨hin', hagrees⟩ := h.agrees m hin
    obtain ⟨hin'', hagrees'⟩ := h'.agrees m hin'
    exact ⟨hin'', hagrees.trans hagrees'⟩

theorem cons (h : SameSlice shape slice shape' slice') :
    SameSlice (extent :: shape) (range :: slice) (extent :: shape') (range :: slice') where
  squeezed_eq := by
    have heq := h.squeezed_eq
    simp only [squeezed, getSliceShape, List.map_cons, List.filter_cons] at heq ⊢
    rw [heq]
  agrees := by
    intro V m hin
    obtain ⟨hdim, hin⟩ := m.inBounds_cons.mp hin
    obtain ⟨hin', hagrees⟩ := h.agrees m hin
    exact ⟨m.inBounds_cons.mpr ⟨hdim, hin'⟩, (Agrees.refl [m.slicedDim extent range]).append hagrees⟩

theorem getConstantIntValue_of_isConstantIntValue {ofr : OpFoldResult} {k : Int}
    (h : isConstantIntValue ofr k = true) : getConstantIntValue ofr = some k := by
  simpa [isConstantIntValue] using h

theorem drop_unit (hsize : isConstantIntValue range.size 1 = true)
    (h : SameSlice shape slice shape' slice') :
    SameSlice (1 :: shape) (range :: slice) shape' slice' where
  squeezed_eq := by
    rw [← h.squeezed_eq, squeezed, getSliceShape, List.map_cons,
      getConstantIntValue_of_isConstantIntValue hsize]
    rfl
  agrees := by
    intro V m hin
    obtain ⟨hdim, hin⟩ := m.inBounds_cons.mp hin
    obtain ⟨hin', hagrees⟩ := h.agrees m hin
    have hone : (m.slicedDim 1 range).size = 1 := by
      rw [Machine.slicedDim, eval_of_isConstantIntValue hsize]
      rfl
    exact ⟨hin', (Agrees.unit rfl hone hdim).append hagrees⟩

theorem add_unit (h : SameSlice shape slice shape' slice') :
    SameSlice shape slice (1 :: shape') (unitRange :: slice') where
  squeezed_eq := h.squeezed_eq
  agrees := by
    intro V m hin
    obtain ⟨hin', hagrees⟩ := h.agrees m hin
    have hdim : (m.slicedDim 1 unitRange).InBounds := by
      intro i hi
      have hi0 : i = 0 := Nat.lt_one_iff.mp hi
      subst hi0
      exact ⟨Int.le_refl 0, Int.zero_lt_one⟩
    exact ⟨m.inBounds_cons.mpr ⟨hdim, hin'⟩, (Agrees.unit rfl rfl hdim).symm.append hagrees⟩

end SameSlice

/-! ## `mapSlice` -/

/-- The dimensions that are carried on have the elements. -/
theorem carryRanges_sameSlice {sourceShape : TensorType} {slice : List Range}
    {carried : List (Option Nat × Range)} (h : carryRanges sourceShape slice = some carried)
    (hlen : sourceShape.length = slice.length) {extents : List Nat}
    (hextents : carried.map Prod.fst = extents.map some) :
    ∃ source : List Nat, sourceShape = source.map some ∧
      SameSlice source slice extents (carried.map Prod.snd) := by
  induction sourceShape generalizing slice carried extents with
  | nil =>
    cases slice with
    | cons range slice => cases hlen
    | nil =>
      obtain rfl : [] = carried := Option.some.inj h
      obtain rfl : extents = [] := by simpa using hextents
      exact ⟨[], rfl, .nil⟩
  | cons extent sourceShape ih =>
    cases slice with
    | nil => cases hlen
    | cons range slice =>
      rw [carryRanges] at h
      by_cases hunit : extent = some 1
      · rw [if_neg (by simpa using hunit)] at h
        by_cases hsize : isConstantIntValue range.size 1 = true
        · rw [if_pos hsize] at h
          obtain ⟨source, rfl, hsame⟩ := ih h (Nat.succ.inj hlen) hextents
          exact ⟨1 :: source, by rw [hunit]; rfl, hsame.drop_unit hsize⟩
        · rw [if_neg hsize] at h
          cases h
      · rw [if_pos hunit] at h
        obtain ⟨rest, hrest, rfl⟩ := Option.map_eq_some_iff.mp h
        cases extents with
        | nil => simp at hextents
        | cons n extents =>
          obtain ⟨hextent, hothers⟩ := List.cons_eq_cons.mp hextents
          obtain rfl : extent = some n := hextent
          obtain ⟨source, rfl, hsame⟩ := ih hrest (Nat.succ.inj hlen) hothers
          exact ⟨n :: source, rfl, hsame.cons⟩

/-- And are given to dimensions of the same extents. -/
theorem placeRanges_sameSlice {targetShape : TensorType} {carried : List (Option Nat × Range)}
    {mapped : List Range} (h : placeRanges targetShape carried = some mapped) :
    ∃ extents target : List Nat, carried.map Prod.fst = extents.map some ∧
      targetShape = target.map some ∧ SameSlice extents (carried.map Prod.snd) target mapped := by
  induction targetShape generalizing carried mapped with
  | nil =>
    cases carried with
    | nil =>
      obtain rfl : [] = mapped := Option.some.inj h
      exact ⟨[], [], rfl, rfl, .nil⟩
    | cons next carried => cases h
  | cons extent targetShape ih =>
    by_cases hunit : extent = some 1
    · rw [placeRanges.eq_def] at h
      simp only [if_pos hunit] at h
      obtain ⟨rest, hrest, rfl⟩ := Option.map_eq_some_iff.mp h
      obtain ⟨extents, target, hextents, rfl, hsame⟩ := ih hrest
      exact ⟨extents, 1 :: target, hextents, by rw [hunit]; rfl, hsame.add_unit⟩
    · cases carried with
      | nil =>
        rw [placeRanges.eq_def] at h
        simp only [if_neg hunit] at h
        cases h
      | cons next carried =>
        rw [placeRanges.eq_def] at h
        simp only [if_neg hunit] at h
        by_cases hfail : extent = none ∨ next.1 ≠ extent
        · rw [if_pos hfail] at h
          cases h
        · rw [if_neg hfail] at h
          rw [not_or, not_not] at hfail
          obtain ⟨n, hn⟩ := Option.ne_none_iff_exists'.mp hfail.1
          obtain ⟨rest, hrest, rfl⟩ := Option.map_eq_some_iff.mp h
          obtain ⟨extents, target, hextents, rfl, hsame⟩ := ih hrest
          refine ⟨n :: extents, n :: target, ?_, by rw [hn]; rfl, hsame.cons⟩
          rw [List.map_cons, hfail.2, hn, hextents]
          rfl

/-- `mapSlice` maps slices of static shapes to slices of the same elements. -/
theorem mapSlice_sameSlice {slice mapped : List Range} {sourceShape targetShape : TensorType}
    (h : mapSlice slice sourceShape targetShape = some mapped)
    (hlen : sourceShape.length = slice.length) :
    ∃ source target : List Nat, sourceShape = source.map some ∧ targetShape = target.map some ∧
      SameSlice source slice target mapped := by
  obtain ⟨carried, hcarried, hplaced⟩ := Option.bind_eq_some_iff.mp h
  obtain ⟨extents, target, hextents, htarget, hsame'⟩ := placeRanges_sameSlice hplaced
  obtain ⟨source, hsource, hsame⟩ := carryRanges_sameSlice hcarried hlen hextents
  exact ⟨source, target, hsource, htarget, hsame.trans hsame'⟩

/-! ## `reshapeTo` -/

/-- Shapes that differ in unit dimensions only are reshaped into each other. -/
theorem reshapeTo_reshapes
    {getReassociationIndicesForReshape : TensorType → TensorType → Option (List (List Nat))}
    (hfinds : FindsReassociation getReassociationIndicesForReshape) {type shape : TensorType}
    (h : squeezed type = squeezed shape) :
    ∃ reshapes, reshapeTo getReassociationIndicesForReshape type shape = some reshapes ∧
      Reshapes type reshapes shape := by
  have honce : ∀ source target,
      (getReassociationIndicesForReshape source target).isSome = true →
      ∃ reshape, reshapeOnce getReassociationIndicesForReshape source target = some reshape ∧
        reshape.operandType = source ∧ reshape.Verified ∧ reshape.resultType = target := by
    intro source target hsome
    obtain ⟨groups, hgroups⟩ := Option.isSome_iff_exists.mp hsome
    refine ⟨_, by rw [reshapeOnce, hgroups]; rfl, rfl, ?_, rfl⟩
    have hverified := hfinds.reassociates source target groups hgroups
    rw [Reshape.Verified]
    simpa using hverified
  rw [reshapeTo]
  by_cases heq : type = shape
  · rw [if_pos heq]
    exact ⟨[], rfl, heq⟩
  · rw [if_neg heq]
    by_cases hsome : (getReassociationIndicesForReshape type shape).isSome = true
    · rw [if_pos hsome]
      obtain ⟨reshape, hreshape, hoperand, hverified, hresult⟩ := honce type shape hsome
      exact ⟨[reshape], by rw [hreshape]; rfl, hoperand, hverified, hresult⟩
    · rw [if_neg hsome]
      -- neither of the shapes is without unit dimensions
      have htype : squeezed type ≠ type := by
        intro hsqueezed
        rw [← hsqueezed, h] at hsome heq
        exact hsome (hfinds.add shape heq)
      have hshape : squeezed shape ≠ shape := by
        intro hsqueezed
        rw [← hsqueezed, ← h] at hsome heq
        exact hsome (hfinds.drop type fun h => heq h.symm)
      obtain ⟨dropped, hdropped, hoperand, hverified, hresult⟩ :=
        honce type (squeezed shape) (h ▸ hfinds.drop type htype)
      obtain ⟨added, hadded, hoperand', hverified', hresult'⟩ :=
        honce (squeezed shape) shape (hfinds.add shape hshape)
      refine ⟨[dropped, added], by rw [hdropped, hadded]; rfl, hoperand, hverified, ?_⟩
      exact ⟨hoperand'.trans hresult.symm, hverified', hresult'⟩

/-! ## Reshapes keep the row-major order -/

theorem groupExtent_map_some (group : List Nat) : groupExtent (group.map some) = some group.prod := by
  have hmapM : (group.map some).mapM id = some group := by
    induction group with
    | nil => rfl
    | cons n group ih =>
      rw [List.map_cons, List.mapM_cons, ih]
      rfl
  rw [groupExtent, hmapM]
  rfl

theorem map_getD_range {α : Type} (l : List α) (d : α) :
    (List.range l.length).map (fun i => l.getD i d) = l := by
  apply List.ext_getElem
  · simp
  · intro i hi hi'
    simp [List.getD_eq_getElem?_getD, List.getElem?_eq_getElem hi']

theorem prod_groups (extent : Nat → Nat) (groups : List (List Nat)) :
    (groups.map fun group => (group.map extent).prod).prod =
      (groups.flatten.map extent).prod := by
  induction groups with
  | nil => rfl
  | cons group groups ih =>
    rw [List.map_cons, List.prod_cons, ih, List.flatten_cons, List.map_append, List.prod_append]

theorem number_collapse_groups (extent index : Nat → Nat) (groups : List (List Nat)) :
    number (groups.map fun group => (group.map extent).prod)
        (groups.map fun group => number (group.map extent) (group.map index)) =
      number (groups.flatten.map extent) (groups.flatten.map index) := by
  induction groups with
  | nil => rfl
  | cons group groups ih =>
    rw [List.map_cons, List.map_cons, number_cons (by simp), ih, prod_groups, List.flatten_cons,
      List.map_append, List.map_append, number_append (by simp)
        (by rw [List.length_map, List.length_map])]

/-- The groups of static shapes: each dimension of the smaller one is the product of its group. -/
theorem forall₂_groupExtent_iff {groups : List (List Nat)} {large small : List Nat}
    (hin : ∀ group ∈ groups, ∀ d ∈ group, d < large.length) :
    List.Forall₂ (fun group extent =>
        groupExtent (group.map fun d => (large.map some).getD d none) = extent)
        groups (small.map some) ↔
      small = groups.map fun group => (group.map fun d => large.getD d 0).prod := by
  induction groups generalizing small with
  | nil => cases small <;> simp
  | cons group groups ih =>
    rw [List.forall_mem_cons] at hin
    have hgroup : (group.map fun d => (large.map some).getD d none) =
        (group.map fun d => large.getD d 0).map some := by
      rw [List.map_map]
      apply List.map_congr_left
      intro d hd
      have hlt := hin.1 d hd
      simp [List.getD_eq_getElem?_getD, List.getElem?_eq_getElem hlt]
    cases small with
    | nil => simp
    | cons n small =>
      rw [List.map_cons, List.forall₂_cons, ih hin.2, hgroup, groupExtent_map_some, List.map_cons,
        List.cons_eq_cons, Option.some.injEq, eq_comm]

theorem reassociates_static_iff {groups : List (List Nat)} {large small : List Nat} :
    Reassociates groups (large.map some) (small.map some) ↔
      (groups = [] ∧ small = [] ∧ ∀ n ∈ large, n = 1) ∨
        groups.flatten = List.range large.length ∧
          small = groups.map fun group => (group.map fun d => large.getD d 0).prod := by
  rw [Reassociates]
  apply or_congr
  · simp
  · rw [List.length_map]
    refine and_congr_right fun hflatten => forall₂_groupExtent_iff fun group hgroup d hd => ?_
    have hmem : d ∈ groups.flatten := List.mem_flatten.mpr ⟨group, hgroup, hd⟩
    rw [hflatten] at hmem
    exact List.mem_range.mp hmem

/-- An element goes to the index of its number. -/
theorem number_collapseIndex {groups : List (List Nat)} {large small index : List Nat}
    (h : Reassociates groups (large.map some) (small.map some)) (hindex : index ∈ points large) :
    number small (collapseIndex groups large index) = number large index := by
  rcases reassociates_static_iff.mp h with ⟨rfl, rfl, hunits⟩ | ⟨hflatten, hsmall⟩
  · have hlt := number_lt hindex
    rw [List.prod_eq_one hunits, Nat.lt_one_iff] at hlt
    rw [hlt]
    rfl
  · have hlength : index.length = large.length := length_of_mem_points hindex
    rw [collapseIndex, hsmall, number_collapse_groups, hflatten, map_getD_range]
    rw [← hlength, map_getD_range]

theorem Reassociates.prod_eq {groups : List (List Nat)} {large small : List Nat}
    (h : Reassociates groups (large.map some) (small.map some)) : large.prod = small.prod := by
  rcases reassociates_static_iff.mp h with ⟨rfl, rfl, hunits⟩ | ⟨hflatten, hsmall⟩
  · exact List.prod_eq_one hunits
  · rw [hsmall, prod_groups, hflatten, map_getD_range]

theorem collapseIndex_mem_points {groups : List (List Nat)} {large small index : List Nat}
    (h : Reassociates groups (large.map some) (small.map some)) (hindex : index ∈ points large) :
    collapseIndex groups large index ∈ points small := by
  rcases reassociates_static_iff.mp h with ⟨rfl, rfl, -⟩ | ⟨hflatten, hsmall⟩
  · exact List.mem_singleton_self []
  · have hlength : index.length = large.length := length_of_mem_points hindex
    have hlt : ∀ d ∈ groups.flatten, index.getD d 0 < large.getD d 0 := by
      intro d hd
      rw [hflatten, List.mem_range] at hd
      have hforall := (List.forall₂_iff_get.mp (mem_points.mp hindex)).2 d (hlength ▸ hd) hd
      simpa [List.getD_eq_getElem?_getD, List.getElem?_eq_getElem hd,
        List.getElem?_eq_getElem (hlength ▸ hd)] using hforall
    rw [hsmall, collapseIndex, mem_points, List.forall₂_map_left_iff, List.forall₂_map_right_iff,
      List.forall₂_same]
    intro group hgroup
    apply number_lt
    rw [mem_points, List.forall₂_map_left_iff, List.forall₂_map_right_iff, List.forall₂_same]
    exact fun d hd => hlt d (List.mem_flatten.mpr ⟨group, hgroup, hd⟩)

/-- An element found by a property that holds of one position only. -/
theorem find?_zip_eq {α V : Type} {keys : List α} {data : List V} {p : α → Bool} {i : Nat}
    (hi : i < keys.length) (hi' : i < data.length) (hp : p keys[i] = true)
    (hunique : ∀ j (hj : j < keys.length), p keys[j] = true → j = i) :
    (keys.zip data).find? (fun element => p element.1) = some (keys[i], data[i]) := by
  have hmem : (keys[i], data[i]) ∈ keys.zip data := by
    rw [List.mem_iff_getElem]
    exact ⟨i, by simp [hi, hi'], by simp⟩
  cases hfind : (keys.zip data).find? (fun element => p element.1) with
  | none => exact absurd hp (List.find?_eq_none.mp hfind _ hmem)
  | some element =>
    obtain ⟨j, hj, rfl⟩ := List.getElem_of_mem (List.mem_of_find?_eq_some hfind)
    have hfound := List.find?_some hfind
    simp only [List.length_zip, Nat.lt_min] at hj
    simp only [List.getElem_zip] at hfound ⊢
    obtain rfl := hunique j hj.1 hfound
    rfl

theorem number_injective {shape index index' : List Nat} (h : index ∈ points shape)
    (h' : index' ∈ points shape) (heq : number shape index = number shape index') :
    index = index' := by
  rw [← digits_number h, heq, digits_number h']

section Run

variable {reshape : Reshape} {operand result : List Nat}

theorem Reshape.Reassociated.prod_eq (h : reshape.Reassociated operand result) :
    operand.prod = result.prod := by
  rw [Reshape.Reassociated] at h
  split at h
  · exact Reassociates.prod_eq h
  · exact (Reassociates.prod_eq h).symm

theorem Reshape.maps_iff (h : reshape.Reassociated operand result) {source target : List Nat}
    (hsource : source ∈ points operand) (htarget : target ∈ points result) :
    reshape.maps operand result source target = true ↔
      number operand source = number result target := by
  rw [Reshape.Reassociated] at h
  rw [Reshape.maps]
  by_cases hcollapse : reshape.isCollapse = true
  · rw [if_pos hcollapse] at h ⊢
    rw [beq_iff_eq, ← number_collapseIndex h hsource]
    constructor
    · rintro rfl
      rfl
    · exact number_injective (collapseIndex_mem_points h hsource) htarget
  · rw [if_neg hcollapse] at h ⊢
    rw [beq_iff_eq, ← number_collapseIndex h htarget]
    constructor
    · rintro rfl
      rfl
    · exact fun heq => number_injective (collapseIndex_mem_points h htarget) hsource heq.symm

/-- **Reshapes keep the row-major order.** -/
theorem Reshape.run_eq {V : Type} [Inhabited V] (h : reshape.Reassociated operand result)
    {data : List V} (hdata : data.length = operand.prod) :
    reshape.run operand result data = data := by
  have hpoint : ∀ (shape : List Nat) (i : Nat) (hi : i < (points shape).length),
      number shape (points shape)[i] = i := by
    intro shape i hi
    rw [length_points] at hi
    simp only [points_eq_map_digits, List.getElem_map, List.getElem_range]
    exact number_digits hi
  apply List.ext_getElem
  · rw [Reshape.run, List.length_map, length_points, hdata, h.prod_eq]
  · intro i hi hi'
    have hoperand : i < (points operand).length := by
      rw [length_points, ← hdata]
      exact hi'
    have hresult : i < (points result).length := by
      rw [length_points, ← h.prod_eq, ← hdata]
      exact hi'
    have hmaps : ∀ j (hj : j < (points operand).length),
        reshape.maps operand result (points operand)[j] (points result)[i] = true ↔ j = i := by
      intro j hj
      rw [Reshape.maps_iff h (List.getElem_mem hj) (List.getElem_mem hresult), hpoint, hpoint]
    have hfind := find?_zip_eq
      (p := fun source => reshape.maps operand result source (points result)[i]) hoperand hi'
      ((hmaps i hoperand).mpr rfl) fun j hj => (hmaps j hj).mp
    simp only [Reshape.run, List.getElem_map]
    rw [hfind]
    rfl

theorem Executes.data_eq {V : Type} [Inhabited V] {reshapes : List Reshape} {shape : List Nat}
    {data data' : List V} (h : Executes reshapes operand data shape data')
    (hdata : data.length = operand.prod) : data' = data := by
  induction h with
  | nil => rfl
  | cons hreassociated _ ih =>
    have hrun := Reshape.run_eq hreassociated hdata
    rw [hrun] at ih
    exact ih (hdata.trans hreassociated.prod_eq)

end Run

end DataTransfers

end DataflowScheduler
