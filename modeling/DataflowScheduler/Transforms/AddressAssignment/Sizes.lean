import DataflowScheduler.Transforms.AddressAssignment
import DataflowScheduler.Util.Strides

/-!
# Sizes of allocations

`AllocOp::getSize` adds up the offset of the last element and multiplies one more than that by the
bytes of an element. The sums and the product are checked, the one more is not, and the bytes of an
element are counted in 32 bits.
-/

namespace DataflowScheduler

namespace AddressAssignment

/-- The bits of an element, without wrapping. -/
def ElementType.bits : ElementType → Option Nat
  | .integer width => some width.toNat
  | .float width => some width.toNat
  | .vector shape elementTypeBitWidth =>
      shape.allSome.map fun dims => dims.prod * elementTypeBitWidth.toNat
  | .other => none

/-- The bytes of that many bits. -/
def bytesOf (bits : Nat) : Nat := (bits + 7) / 8

/-- One more than the offset of the last element. -/
def elementCount (shape strides : List Int) (offset : Int) : Int :=
  1 + offset + Strides.distance (shape.map (· - 1)) strides

/-- What the overflow checks ask of a layout, before any of its numbers is too large. -/
structure Supported (shape strides : List Int) (offset : Int) : Prop where
  offset_nonneg : 0 ≤ offset
  strides_nonneg : ∀ stride ∈ strides, 0 ≤ stride
  terms_nonneg : ∀ dim ∈ shape.zip strides, 0 ≤ (dim.1 - 1) * dim.2

/-- An index inside the shape. -/
def InBounds (index shape : List Int) : Prop :=
  List.Forall₂ (fun i dim => 0 ≤ i ∧ i < dim) index shape

theorem checkedSizeT_eq_some {exact : Int} {result : SizeT} :
    checkedSizeT exact = some result ↔ exact = result.toNat := by
  unfold checkedSizeT
  constructor
  · intro h
    split at h
    · next hin =>
        cases h
        rw [BitVec.toNat_ofInt]
        omega
    · cases h
  · rintro rfl
    have hlt := result.isLt
    rw [if_pos (by omega)]
    congr 1
    apply BitVec.eq_of_toNat_eq
    rw [BitVec.toNat_ofInt]
    omega

theorem exists_toNat_eq {exact : Int} (hnonneg : 0 ≤ exact) (hlt : exact < 2 ^ 64) :
    ∃ result : SizeT, exact = result.toNat := by
  refine ⟨BitVec.ofInt 64 exact, ?_⟩
  rw [BitVec.toNat_ofInt]
  omega

theorem distance_nonneg {shape strides : List Int}
    (h : ∀ dim ∈ shape.zip strides, 0 ≤ (dim.1 - 1) * dim.2) :
    0 ≤ Strides.distance (shape.map (· - 1)) strides := by
  induction shape generalizing strides with
  | nil => simp
  | cons dim shape ih =>
      cases strides with
      | nil => simp
      | cons stride strides =>
          rw [List.zip_cons_cons, List.forall_mem_cons] at h
          have hrest := ih h.2
          rw [List.map_cons, Strides.distance_cons]
          exact Int.add_nonneg h.1 hrest

/-- The loop of the offsets returns the exact sum, unless a term is negative. -/
theorem addOffsets_eq_some {shape strides : List Int} {start result : SizeT} :
    AllocOp.addOffsets start (shape.zip strides) = some result ↔
      (∀ dim ∈ shape.zip strides, 0 ≤ (dim.1 - 1) * dim.2) ∧
        (start.toNat : Int) + Strides.distance (shape.map (· - 1)) strides = result.toNat := by
  have hstart : ∀ {a b : SizeT}, a = b ↔ (a.toNat : Int) = b.toNat := by
    intro a b
    rw [BitVec.toNat_inj.symm]
    omega
  induction shape generalizing strides start with
  | nil => simp [AllocOp.addOffsets, hstart]
  | cons dim shape ih =>
      cases strides with
      | nil => simp [AllocOp.addOffsets, hstart]
      | cons stride strides =>
          rw [List.zip_cons_cons, AllocOp.addOffsets, List.forall_mem_cons, List.map_cons,
            Strides.distance_cons]
          simp only [Option.bind_eq_bind, Option.bind_eq_some_iff, checkedSizeT_eq_some, ih]
          constructor
          · rintro ⟨temp, htemp, next, hnext, hterms, hsum⟩
            exact ⟨⟨by omega, hterms⟩, by omega⟩
          · rintro ⟨⟨hterm, hterms⟩, hsum⟩
            -- the rest is not negative, so the partial sum is a `size_t` when the whole is
            have hrest := distance_nonneg hterms
            have hlt := result.isLt
            obtain ⟨temp, htemp⟩ := exists_toNat_eq hterm (by omega)
            obtain ⟨next, hnext⟩ : ∃ next : SizeT, (start.toNat : Int) + temp.toNat = next.toNat :=
              exists_toNat_eq (by omega) (by omega)
            exact ⟨temp, htemp, next, hnext, hterms, by omega⟩

/-- The bytes `tryGetSizeInBytes` returns. -/
theorem tryGetSizeInBytes_eq (type : ElementType) :
    (tryGetSizeInBytes type).map BitVec.toNat =
      type.bits.map fun bits => (bits + 7) % 2 ^ 32 / 8 := by
  cases type with
  | integer width => simp [tryGetSizeInBytes, tryGetSizeInBits, ElementType.bits]
  | float width => simp [tryGetSizeInBytes, tryGetSizeInBits, ElementType.bits]
  | vector shape width =>
      simp only [tryGetSizeInBytes, tryGetSizeInBits, ElementType.bits]
      cases shape.allSome with
      | none => rfl
      | some dims => simp
  | other => rfl

variable {R : Type}

theorem getUpperOffsetBound_eq_some {alloc : AllocOp R}
    (hoffset : ∀ shape strides offset,
      alloc.type.getStridesAndOffset shape = some (strides, offset) → offset < 2 ^ 63)
    {bound : SizeT} :
    alloc.getUpperOffsetBound = some bound ↔
      ∃ shape strides offset, alloc.getUpperShapeBound = some shape ∧
        alloc.type.getStridesAndOffset shape = some (strides, offset) ∧
        Supported shape strides offset ∧ elementCount shape strides offset = bound.toNat + 1 := by
  simp only [AllocOp.getUpperOffsetBound, Option.bind_eq_bind, Option.bind_eq_some_iff, Prod.exists]
  refine exists_congr fun shape => ?_
  constructor
  · rintro ⟨hshape, strides, offset, hlayout, h⟩
    split at h
    · cases h
    · next hsupported =>
        rw [Bool.or_eq_true, not_or, decide_eq_true_eq, List.any_eq_true] at hsupported
        obtain ⟨hterms, hsum⟩ := addOffsets_eq_some.mp h
        have hlt := hoffset shape strides offset hlayout
        rw [BitVec.toNat_ofInt] at hsum
        refine ⟨strides, offset, hshape, hlayout, ⟨by omega, fun stride hstride => ?_, hterms⟩, ?_⟩
        · exact Int.not_lt.mp fun hneg => hsupported.2 ⟨stride, hstride, by simpa using hneg⟩
        · unfold elementCount
          omega
  · rintro ⟨strides, offset, hshape, hlayout, hsupported, hcount⟩
    refine ⟨hshape, strides, offset, hlayout, ?_⟩
    have hlt := hoffset shape strides offset hlayout
    have hnonneg := hsupported.offset_nonneg
    rw [if_neg]
    · refine addOffsets_eq_some.mpr ⟨hsupported.terms_nonneg, ?_⟩
      unfold elementCount at hcount
      rw [BitVec.toNat_ofInt]
      omega
    · rw [Bool.or_eq_true, not_or, decide_eq_true_eq, List.any_eq_true]
      refine ⟨by omega, ?_⟩
      rintro ⟨stride, hstride, hneg⟩
      have := hsupported.strides_nonneg stride hstride
      rw [decide_eq_true_eq] at hneg
      omega

/-- What `getSize` returns: the bytes of as many elements as the count wraps to. -/
theorem getSize_eq_some {alloc : AllocOp R}
    (hoffset : ∀ shape strides offset,
      alloc.type.getStridesAndOffset shape = some (strides, offset) → offset < 2 ^ 63)
    {size : SizeT} :
    alloc.getSize = some size ↔
      ∃ shape strides offset bits, alloc.getUpperShapeBound = some shape ∧
        alloc.type.getStridesAndOffset shape = some (strides, offset) ∧
        Supported shape strides offset ∧ alloc.type.elementType.bits = some bits ∧
        elementCount shape strides offset ≤ 2 ^ 64 ∧
        (size.toNat : Int) = elementCount shape strides offset % 2 ^ 64 *
          ((bits + 7) % 2 ^ 32 / 8 : Nat) := by
  have hbits := tryGetSizeInBytes_eq alloc.type.elementType
  simp only [AllocOp.getSize, Option.bind_eq_bind, Option.bind_eq_some_iff, checkedSizeT_eq_some,
    getUpperOffsetBound_eq_some hoffset]
  constructor
  · rintro ⟨bound, ⟨shape, strides, offset, hshape, hlayout, hsupported, hcount⟩, bytes, hbytes,
      hsize⟩
    rw [hbytes, Option.map_some] at hbits
    obtain ⟨bits, hsome, hbytes⟩ := Option.map_eq_some_iff.mp hbits.symm
    have hlt := bound.isLt
    refine ⟨shape, strides, offset, bits, hshape, hlayout, hsupported, hsome, by omega, ?_⟩
    rw [← hsize, BitVec.toNat_add, hcount, hbytes]
    push_cast
    rfl
  · rintro ⟨shape, strides, offset, bits, hshape, hlayout, hsupported, hsome, hle, hsize⟩
    have hpos : 0 < elementCount shape strides offset := by
      have := distance_nonneg hsupported.terms_nonneg
      have := hsupported.offset_nonneg
      unfold elementCount
      omega
    obtain ⟨bound, hbound⟩ : ∃ bound : SizeT, elementCount shape strides offset - 1 = bound.toNat :=
      exists_toNat_eq (by omega) (by omega)
    rw [hsome, Option.map_some] at hbits
    obtain ⟨bytes, hbytes, hvalue⟩ := Option.map_eq_some_iff.mp hbits
    refine ⟨bound, ⟨shape, strides, offset, hshape, hlayout, hsupported, by omega⟩, bytes, hbytes, ?_⟩
    rw [hsize, ← hvalue, BitVec.toNat_add, show elementCount shape strides offset =
      (bound.toNat : Int) + 1 by omega]
    push_cast
    rfl

/-! ## Exact sizes -/

/-- `getSize` fails, or returns the exact number of bytes up to the last element, and then every
element inside the shape ends before. -/
def SizeExact (alloc : AllocOp R) : Prop :=
  ∀ size, alloc.getSize = some size →
    ∃ shape strides offset bits, alloc.getUpperShapeBound = some shape ∧
      alloc.type.getStridesAndOffset shape = some (strides, offset) ∧
      alloc.type.elementType.bits = some bits ∧
      (size.toNat : Int) = elementCount shape strides offset * bytesOf bits ∧
      ∀ index, InBounds index shape → ∀ byte < bytesOf bits,
        (offset + Strides.distance index strides) * bytesOf bits + byte < size.toNat

/-- There are not exactly `2 ^ 64` elements, unless an element has no bits, and the bits of an element
do not wrap in an `unsigned`, unless so many elements of the wrapped size are too large as well. -/
def SizeFits (alloc : AllocOp R) : Prop :=
  ∀ shape strides offset bits, alloc.getUpperShapeBound = some shape →
    alloc.type.getStridesAndOffset shape = some (strides, offset) →
    Supported shape strides offset → alloc.type.elementType.bits = some bits →
    (elementCount shape strides offset = 2 ^ 64 → bits = 0) ∧
    (elementCount shape strides offset < 2 ^ 64 → 2 ^ 32 ≤ bits + 7 →
      2 ^ 64 ≤ elementCount shape strides offset * ((bits + 7) % 2 ^ 32 / 8 : Nat))

/-- No index goes further than the last. -/
theorem distance_le {index shape strides : List Int} (h : InBounds index shape)
    (hstrides : ∀ stride ∈ strides, 0 ≤ stride) :
    Strides.distance index strides ≤ Strides.distance (shape.map (· - 1)) strides := by
  induction h generalizing strides with
  | nil => simp
  | @cons i dim index shape hi _ ih =>
      cases strides with
      | nil => simp
      | cons stride strides =>
          obtain ⟨hstride, hstrides⟩ := List.forall_mem_cons.mp hstrides
          rw [List.map_cons, Strides.distance_cons, Strides.distance_cons]
          exact Int.add_le_add (Int.mul_le_mul_of_nonneg_right (by omega) hstride) (ih hstrides)

theorem elementCount_pos {shape strides : List Int} {offset : Int}
    (h : Supported shape strides offset) : 0 < elementCount shape strides offset := by
  have := distance_nonneg h.terms_nonneg
  have := h.offset_nonneg
  unfold elementCount
  omega

/-- `getSize` is exact but for two wraps: the one more of the offset of the last element, and the bits
of an element. -/
theorem getSize_exact_iff {alloc : AllocOp R}
    (hoffset : ∀ shape strides offset,
      alloc.type.getStridesAndOffset shape = some (strides, offset) → offset < 2 ^ 63) :
    SizeExact alloc ↔ SizeFits alloc := by
  constructor
  · intro hexact shape strides offset bits hshape hlayout hsupported hbits
    have hpos := elementCount_pos hsupported
    -- what the property says of the size that is returned
    have hvalue : ∀ size : SizeT, elementCount shape strides offset ≤ 2 ^ 64 →
        (size.toNat : Int) = elementCount shape strides offset % 2 ^ 64 *
          ((bits + 7) % 2 ^ 32 / 8 : Nat) →
        (size.toNat : Int) = elementCount shape strides offset * bytesOf bits := by
      intro size hle hsize
      obtain ⟨shape', strides', offset', bits', hshape', hlayout', hbits', heq, -⟩ :=
        hexact size ((getSize_eq_some hoffset).mpr
          ⟨shape, strides, offset, bits, hshape, hlayout, hsupported, hbits, hle, hsize⟩)
      cases hshape.symm.trans hshape'
      cases hlayout.symm.trans hlayout'
      cases hbits.symm.trans hbits'
      exact heq
    constructor
    · intro hcount
      have hzero := hvalue 0 (by omega) (by rw [hcount]; simp)
      rw [hcount] at hzero
      simp only [bytesOf] at hzero
      simp at hzero
      omega
    · intro hlt hwrap
      by_contra hsmall
      rw [Int.not_le] at hsmall
      have hmod : elementCount shape strides offset % 2 ^ 64 = elementCount shape strides offset :=
        Int.emod_eq_of_lt hpos.le hlt
      obtain ⟨size, hsize⟩ := exists_toNat_eq
        (Int.mul_nonneg hpos.le (Int.natCast_nonneg ((bits + 7) % 2 ^ 32 / 8))) hsmall
      have heq := hvalue size hlt.le (by rw [hmod]; exact hsize.symm)
      rw [← hsize] at heq
      have := Int.eq_of_mul_eq_mul_left hpos.ne' heq
      unfold bytesOf at this
      omega
  · intro hfits size hsize
    obtain ⟨shape, strides, offset, bits, hshape, hlayout, hsupported, hbits, hle, hsize⟩ :=
      (getSize_eq_some hoffset).mp hsize
    obtain ⟨hfull, hwrap⟩ := hfits shape strides offset bits hshape hlayout hsupported hbits
    have hpos := elementCount_pos hsupported
    have hexact : (size.toNat : Int) = elementCount shape strides offset * bytesOf bits := by
      rcases hle.eq_or_lt with hcount | hlt
      · rw [hsize, hcount, hfull hcount]
        rfl
      · have hmod : elementCount shape strides offset % 2 ^ 64 = elementCount shape strides offset :=
          Int.emod_eq_of_lt hpos.le hlt
        rw [hmod] at hsize
        have hbound := size.isLt
        by_cases hbig : 2 ^ 32 ≤ bits + 7
        · have := hwrap hlt hbig
          omega
        · rw [hsize, bytesOf, Nat.mod_eq_of_lt (by omega)]
    refine ⟨shape, strides, offset, bits, hshape, hlayout, hbits, hexact, ?_⟩
    intro index hindex byte hbyte
    have hlast := distance_le hindex hsupported.strides_nonneg
    calc (offset + Strides.distance index strides) * bytesOf bits + byte
        ≤ (elementCount shape strides offset - 1) * bytesOf bits + byte := by
          have : offset + Strides.distance index strides ≤ elementCount shape strides offset - 1 := by
            unfold elementCount
            omega
          have := Int.mul_le_mul_of_nonneg_right this (Int.natCast_nonneg (bytesOf bits))
          omega
      _ < elementCount shape strides offset * bytesOf bits := by
          rw [Int.sub_mul]
          omega
      _ = size.toNat := hexact.symm

/-- An allocation of `n` integers of the given width, `stride` apart. -/
def stridedAlloc (n : Int) (width : BitVec 32) (stride offset : Int) : AllocOp Nat :=
  ⟨⟨[some n], .integer width, fun _ => some ([stride], offset), none⟩, [], none⟩

theorem getSize_exact_iff_fourWords :
    (stridedAlloc 4 16 1 0).getSize = some 8 ∧ SizeExact (stridedAlloc 4 16 1 0) := by
  refine ⟨by decide, (getSize_exact_iff ?_).mpr ?_⟩
  · rintro shape strides offset ⟨rfl⟩
    decide
  · rintro shape strides offset bits ⟨rfl⟩ ⟨rfl⟩ - ⟨rfl⟩
    decide

/-- Three bytes whose last is the last a `size_t` counts get no room. -/
theorem not_sizeExact_farApart : ¬ ∀ alloc : AllocOp Nat,
    (∀ shape strides offset,
      alloc.type.getStridesAndOffset shape = some (strides, offset) → offset < 2 ^ 63) →
    SizeExact alloc := by
  intro hexact
  obtain ⟨shape, strides, offset, bits, hshape, hlayout, hbits, heq, -⟩ :=
    hexact (stridedAlloc 3 8 9223372036854775807 1) (by rintro shape strides offset ⟨rfl⟩; decide)
      0 (by decide)
  cases hshape
  cases hlayout
  cases hbits
  exact absurd heq (by decide)

end AddressAssignment

end DataflowScheduler
