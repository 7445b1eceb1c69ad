import DataflowScheduler.Dialect.KTDF.Utils.MappedSlices

/-!
# Slices through reshapes

The pattern that takes the slice of a reshaped tensor in front of the reshape: each dimension that is
sliced has to be one dimension of the operand.
-/

namespace DataflowScheduler

namespace BubbleUpSlice

open DataTransfers Operands RowMajor

/-- A `tensor.extract_slice`. -/
structure ExtractSliceOp where
  sourceType : TensorType
  ranges : List Range
  resultType : TensorType

/-- Static sizes and strides are attributes, all others are operands. -/
def isStatic : OpFoldResult → Bool
  | .attr (.integer _) => true
  | _ => false

/-- A dimension of the operand of the reshape: what is sliced, and whether that is settled. -/
structure OperandDim where
  range : Range
  sliced : Bool

/-- `mlir::ShapedType::kDynamic`. -/
def kDynamic : Int := -9223372036854775808

/-- The whole dimension. -/
def wholeRange (extent : Option Nat) : Range :=
  ⟨.index 0, .index (match extent with | some n => n | none => kDynamic), .index 1⟩

/-- Find the dimension to slice for a dimension of the result, among those in `target` the last one
of its extent. -/
def sliceDim (range : Range) (extent : Nat) (target : List Nat) (dims : List OperandDim) :
    Option (List OperandDim) :=
  if isConstantIntValue range.size extent && (isConstantIntValue range.stride 1 || extent == 1) then
    some dims
  else do
    let dim ← target.reverse.find? fun dim => dims[dim]?.any fun d =>
      !d.sliced && isConstantIntValue d.range.size extent
    some (dims.set dim ⟨range, true⟩)

/-- Slice the dimensions of one group. -/
def sliceGroup (ranges : List Range) (extents : List Nat) (sources target : List Nat)
    (dims : List OperandDim) : Option (List OperandDim) :=
  sources.foldlM (fun dims dim =>
    sliceDim (ranges.getD dim unitRange) (extents.getD dim 0) target dims) dims

/-- The dimensions of the result in a group, and those of the operand. -/
def groupDims (isCollapse : Bool) (group : List Nat) (index : Nat) : List Nat × List Nat :=
  if isCollapse then ([index], group) else (group, [index])

/-- What is left behind. -/
structure Rewritten where
  slice : ExtractSliceOp
  reshape : Reshape
  /-- The reshape that was there, if it has other uses. -/
  kept : Option Reshape

/-- `BubbleUpSliceThroughReshape`. -/
def matchAndRewrite (slice : ExtractSliceOp) (source : Option Reshape) (hasOneUse : Bool) :
    Option Rewritten := do
  let reshape ← source
  if reshape.groups.isEmpty || !(slice.ranges.all fun range => isStatic range.size) ||
      !(slice.ranges.all fun range => isStatic range.stride) ||
      slice.resultType.length != slice.sourceType.length then none
  else do
    let extents ← slice.sourceType.mapM id
    let dims ← reshape.groups.zipIdx.foldlM (fun dims (group, index) =>
      let (sources, target) := groupDims reshape.isCollapse group index
      sliceGroup slice.ranges extents sources target dims)
      (reshape.operandType.map fun extent => ⟨wholeRange extent, false⟩)
    let ranges := dims.map OperandDim.range
    some
      { slice := ⟨reshape.operandType, ranges, getSliceShape ranges⟩
        reshape :=
          { reshape with operandType := getSliceShape ranges, resultType := slice.resultType }
        kept := if hasOneUse then none else some reshape }

/-! ## One dimension -/

section Dims

variable {V : Type} {m : Machine V} {range : Range} {extent : Nat} {target sources : List Nat}
  {ranges : List Range} {extents : List Nat} {dims dims' : List OperandDim}

/-- The slice takes all of a dimension. -/
def TakesAll (range : Range) (extent : Nat) : Prop :=
  isConstantIntValue range.size extent = true ∧
    (isConstantIntValue range.stride 1 = true ∨ extent = 1)

theorem TakesAll.whole (h : TakesAll range extent) (hin : (m.slicedDim extent range).InBounds) :
    (m.slicedDim extent range).Whole := by
  have hsize : (m.slicedDim extent range).size = extent := by
    rw [Machine.slicedDim, eval_of_isConstantIntValue h.1]
    rfl
  refine ⟨hsize, fun i hi => ?_⟩
  rcases h.2 with hstride | rfl
  · have hone : (m.slicedDim extent range).stride = 1 := eval_of_isConstantIntValue hstride _
    -- the first and the last element are in bounds
    have hfirst := hin 0 (Nat.zero_lt_of_lt hi)
    have hlast := hin (extent - 1) (by omega)
    have hextent : (m.slicedDim extent range).extent = extent := rfl
    simp only [SlicedDim.element, hone] at hfirst hlast ⊢
    omega
  · have hi0 : i = 0 := by omega
    have hfirst := hin i hi
    have hextent : (m.slicedDim 1 range).extent = 1 := rfl
    omega

theorem whole_wholeRange (m : Machine V) (n : Nat) :
    (m.slicedDim n (wholeRange (some n))).Whole := by
  refine ⟨rfl, fun i _ => ?_⟩
  show (0 : Int) + i * 1 = i
  omega

theorem sliceDim_eq_some (h : sliceDim range extent target dims = some dims') :
    (TakesAll range extent ∧ dims' = dims) ∨
      ∃ dim ∈ target, ∃ d, dims[dim]? = some d ∧ d.sliced = false ∧
        isConstantIntValue d.range.size extent = true ∧ dims' = dims.set dim ⟨range, true⟩ := by
  rw [sliceDim] at h
  split at h
  · next hall =>
    refine Or.inl ⟨?_, (Option.some.inj h).symm⟩
    simpa [TakesAll] using hall
  · obtain ⟨dim, hfind, hset⟩ := Option.bind_eq_some_iff.mp h
    have hany := List.find?_some hfind
    simp only [Option.any_eq_true] at hany
    obtain ⟨d, hd, hmatch⟩ := hany
    rw [Bool.and_eq_true, Bool.not_eq_true'] at hmatch
    have hmem := List.mem_reverse.mp (List.mem_of_find?_eq_some hfind)
    exact Or.inr ⟨dim, hmem, d, hd, hmatch.1, hmatch.2, (Option.some.inj hset).symm⟩

/-- Other dimensions stay as they are. -/
theorem sliceDim_frame (h : sliceDim range extent target dims = some dims') {dim : Nat}
    (hdim : dim ∉ target) : dims'[dim]? = dims[dim]? := by
  rcases sliceDim_eq_some h with ⟨-, rfl⟩ | ⟨dim', hmem, d, -, -, -, rfl⟩
  · rfl
  · apply List.getElem?_set_ne
    rintro rfl
    exact hdim hmem

theorem sliceDim_length (h : sliceDim range extent target dims = some dims') :
    dims'.length = dims.length := by
  rcases sliceDim_eq_some h with ⟨-, rfl⟩ | ⟨dim', -, d, -, -, -, rfl⟩
  · rfl
  · exact List.length_set

theorem sliceGroup_cons {dim : Nat} : sliceGroup ranges extents (dim :: sources) target dims =
    (sliceDim (ranges.getD dim unitRange) (extents.getD dim 0) target dims).bind
      (sliceGroup ranges extents sources target) := rfl

theorem sliceGroup_frame (h : sliceGroup ranges extents sources target dims = some dims') :
    dims'.length = dims.length ∧ ∀ dim ∉ target, dims'[dim]? = dims[dim]? := by
  induction sources generalizing dims with
  | nil =>
    obtain rfl : dims = dims' := Option.some.inj h
    exact ⟨rfl, fun _ _ => rfl⟩
  | cons dim sources ih =>
    rw [sliceGroup_cons] at h
    obtain ⟨between, hbetween, hrest⟩ := Option.bind_eq_some_iff.mp h
    obtain ⟨hlen, hframe⟩ := ih hrest
    exact ⟨hlen.trans (sliceDim_length hbetween), fun d hd =>
      (hframe d hd).trans (sliceDim_frame hbetween hd)⟩

/-- A dimension of the operand that several dimensions of the result come from: at most one of them
is sliced. -/
theorem sliceGroup_singleton {index : Nat} {d : OperandDim}
    (h : sliceGroup ranges extents sources [index] dims = some dims') (hd : dims[index]? = some d) :
    (∀ dim ∈ sources, TakesAll (ranges.getD dim unitRange) (extents.getD dim 0)) ∧
        dims'[index]? = some d ∨
      d.sliced = false ∧ ∃ left dim right, sources = left ++ dim :: right ∧
        (∀ dim ∈ left, TakesAll (ranges.getD dim unitRange) (extents.getD dim 0)) ∧
        (∀ dim ∈ right, TakesAll (ranges.getD dim unitRange) (extents.getD dim 0)) ∧
        isConstantIntValue d.range.size (extents.getD dim 0) = true ∧
        dims'[index]? = some ⟨ranges.getD dim unitRange, true⟩ := by
  induction sources generalizing dims d with
  | nil =>
    obtain rfl : dims = dims' := Option.some.inj h
    exact Or.inl ⟨by simp, hd⟩
  | cons dim sources ih =>
    rw [sliceGroup_cons] at h
    obtain ⟨between, hbetween, hrest⟩ := Option.bind_eq_some_iff.mp h
    rcases sliceDim_eq_some hbetween with ⟨hall, rfl⟩ | ⟨dim', hmem, d', hd', hsliced, hsize, rfl⟩
    · rcases ih hrest hd with ⟨halls, hend⟩ | ⟨hsliced, left, dim', right, rfl, hleft, hright, hend⟩
      · exact Or.inl ⟨List.forall_mem_cons.mpr ⟨hall, halls⟩, hend⟩
      · exact Or.inr ⟨hsliced, dim :: left, dim', right, rfl,
          List.forall_mem_cons.mpr ⟨hall, hleft⟩, hright, hend⟩
    · -- no other one can be sliced after this one
      rw [List.mem_singleton.mp hmem] at hd' hrest
      obtain rfl : d' = d := Option.some.inj (hd'.symm.trans hd)
      have hlt := (List.getElem?_eq_some_iff.mp hd).1
      rcases ih hrest (List.getElem?_set_self hlt) with ⟨halls, hend⟩ | ⟨htrue, -⟩
      · exact Or.inr ⟨hsliced, [], dim, sources, rfl, by simp, halls, hsize, hend⟩
      · cases htrue

end Dims

/-! ## Groups of dimensions -/

section Groups

variable {V : Type} {m : Machine V} {ranges : List Range} {extents operand : List Nat}
  {group : List Nat} {index : Nat} {dims dims' : List OperandDim}

/-- A dimension of the result and what is sliced of it. -/
def resultDim (m : Machine V) (extents : List Nat) (ranges : List Range) (dim : Nat) : SlicedDim :=
  m.slicedDim (extents.getD dim 0) (ranges.getD dim unitRange)

/-- A dimension of the operand and what is sliced of it. -/
def operandDim (m : Machine V) (operand : List Nat) (dims : List OperandDim) (dim : Nat) :
    SlicedDim :=
  m.slicedDim (operand.getD dim 0) ((dims[dim]?.map OperandDim.range).getD unitRange)

/-- Nothing is sliced yet. -/
def Unsliced (operand : List Nat) (dims : List OperandDim) (dim : Nat) : Prop :=
  dims[dim]? = some ⟨wholeRange (some (operand.getD dim 0)), false⟩

theorem Unsliced.whole {dim : Nat} (h : Unsliced operand dims dim) :
    (operandDim m operand dims dim).Whole := by
  rw [operandDim, h]
  exact whole_wholeRange m _

theorem operandDim_congr {dim : Nat} (h : dims'[dim]? = dims[dim]?) :
    operandDim m operand dims' dim = operandDim m operand dims dim := by
  rw [operandDim, operandDim, h]

/-- What is sliced of a group of the operand is what is sliced of the dimension of the result. -/
theorem sliceGroup_collapse (h : sliceGroup ranges extents [index] group dims = some dims')
    (hnodup : group.Nodup) (hunsliced : ∀ dim ∈ group, Unsliced operand dims dim)
    (hextent : (group.map fun dim => operand.getD dim 0).prod = extents.getD index 0)
    (hin : (resultDim m extents ranges index).InBounds) :
    Agrees (group.map (operandDim m operand dims')) [resultDim m extents ranges index] ∧
      ∀ dim ∈ group, (operandDim m operand dims' dim).InBounds := by
  have hextents : ∀ dims, (RowMajor.extents (group.map (operandDim m operand dims))).prod =
      extents.getD index 0 := by
    intro dims
    rw [RowMajor.extents, List.map_map]
    exact hextent
  rw [sliceGroup_cons] at h
  obtain ⟨between, hbetween, hrest⟩ := Option.bind_eq_some_iff.mp h
  obtain rfl : between = dims' := Option.some.inj hrest
  rcases sliceDim_eq_some hbetween with ⟨hall, rfl⟩ | ⟨dim, hmem, d, hd, -, hsize, rfl⟩
  · have hwhole : ∀ d ∈ group.map (operandDim m operand between), d.Whole := by
      rw [List.forall_mem_map]
      exact fun dim hdim => (hunsliced dim hdim).whole
    refine ⟨Agrees.whole hwhole ?_ ?_, fun dim hdim => (hunsliced dim hdim).whole.inBounds⟩
    · rw [List.forall_mem_singleton]
      exact hall.whole hin
    · rw [hextents]
      simp [resultDim, Machine.slicedDim]
  · -- one dimension is sliced
    obtain ⟨left, right, rfl⟩ := List.append_of_mem hmem
    have hdim := hunsliced dim hmem
    have heq : operand.getD dim 0 = extents.getD index 0 := by
      rw [Unsliced, hd] at hdim
      rw [Option.some.inj hdim] at hsize
      have : ((operand.getD dim 0 : Nat) : Int) = (extents.getD index 0 : Nat) := by
        simpa [isConstantIntValue, wholeRange, OpFoldResult.index, getConstantIntValue] using hsize
      exact Int.ofNat.inj this
    have hlt := (List.getElem?_eq_some_iff.mp hd).1
    have hself : operandDim m operand (dims.set dim ⟨ranges.getD index unitRange, true⟩) dim =
        resultDim m extents ranges index := by
      rw [operandDim, List.getElem?_set_self hlt, heq]
      rfl
    have hothers : ∀ other ∈ left ++ right,
        (operandDim m operand (dims.set dim ⟨ranges.getD index unitRange, true⟩) other).Whole := by
      intro other hother
      have hne : dim ≠ other := by
        rintro rfl
        exact (List.nodup_middle.mp hnodup).notMem hother
      rw [operandDim_congr (List.getElem?_set_ne hne)]
      apply Unsliced.whole
      apply hunsliced
      rcases List.mem_append.mp hother with h | h
      · exact List.mem_append_left _ h
      · exact List.mem_append_right _ (List.mem_cons_of_mem _ h)
    constructor
    · have hprod := hextents (dims.set dim ⟨ranges.getD index unitRange, true⟩)
      rw [List.map_append, List.map_cons] at hprod ⊢
      refine Agrees.carried ?_ ?_ (hprod.trans ?_) hself.symm (hself ▸ hin)
      · rw [List.forall_mem_map]
        exact fun other h => hothers other (List.mem_append_left _ h)
      · rw [List.forall_mem_map]
        exact fun other h => hothers other (List.mem_append_right _ h)
      · rw [hself]
        rfl
    · intro other hother
      by_cases hne : other = dim
      · rw [hne, hself]
        exact hin
      · refine (hothers other ?_).inBounds
        simp only [List.mem_append, List.mem_cons] at hother ⊢
        tauto

/-- What is sliced of a group of the result is what is sliced of the dimension of the operand. -/
theorem sliceGroup_expand (h : sliceGroup ranges extents group [index] dims = some dims')
    (hunsliced : Unsliced operand dims index)
    (hextent : (group.map fun dim => extents.getD dim 0).prod = operand.getD index 0)
    (hin : ∀ dim ∈ group, (resultDim m extents ranges dim).InBounds) :
    Agrees (group.map (resultDim m extents ranges)) [operandDim m operand dims' index] ∧
      (operandDim m operand dims' index).InBounds := by
  have hextents : (RowMajor.extents (group.map (resultDim m extents ranges))).prod =
      operand.getD index 0 := by
    rw [RowMajor.extents, List.map_map]
    exact hextent
  have hwhole : ∀ sources : List Nat, (∀ dim ∈ sources, dim ∈ group) →
      (∀ dim ∈ sources, TakesAll (ranges.getD dim unitRange) (extents.getD dim 0)) →
      ∀ d ∈ sources.map (resultDim m extents ranges), d.Whole := by
    intro sources hsub hall
    rw [List.forall_mem_map]
    exact fun dim hdim => (hall dim hdim).whole (hin dim (hsub dim hdim))
  rcases sliceGroup_singleton h hunsliced with
    ⟨hall, hend⟩ | ⟨-, left, dim, right, rfl, hleft, hright, hsize, hend⟩
  · have hindex : (operandDim m operand dims' index).Whole := Unsliced.whole hend
    refine ⟨Agrees.whole (hwhole group (fun _ h => h) hall) ?_ ?_, hindex.inBounds⟩
    · rw [List.forall_mem_singleton]
      exact hindex
    · rw [hextents]
      simp [operandDim, Machine.slicedDim]
  · have heq : operand.getD index 0 = extents.getD dim 0 := by
      have : ((operand.getD index 0 : Nat) : Int) = (extents.getD dim 0 : Nat) := by
        simpa [isConstantIntValue, wholeRange, OpFoldResult.index, getConstantIntValue] using hsize
      exact Int.ofNat.inj this
    have hself : operandDim m operand dims' index = resultDim m extents ranges dim := by
      rw [operandDim, hend, heq]
      rfl
    have hdim := hin dim (List.mem_append_right _ List.mem_cons_self)
    refine ⟨?_, hself ▸ hdim⟩
    rw [List.map_append, List.map_cons] at hextents ⊢
    refine Agrees.carried (hwhole left ?_ hleft) (hwhole right ?_ hright) (hextents.trans heq) hself
      hdim
    · exact fun other h => List.mem_append_left _ h
    · exact fun other h => List.mem_append_right _ (List.mem_cons_of_mem _ h)

end Groups

/-! ## All groups -/

section AllGroups

variable {V : Type} {m : Machine V} {groups : List (List Nat)}

/-- Steps that change different cells each leave behind what they make of the first cells. -/
theorem foldlM_cells {α β : Type} {f : List α → β → Option (List α)} {steps : List β}
    {first last : List α} (target : β → List Nat) (Good : β → List α → Prop)
    (hframe : ∀ step cells cells', f cells step = some cells' →
      cells'.length = cells.length ∧ ∀ i ∉ target step, cells'[i]? = cells[i]?)
    (hgood : ∀ step ∈ steps, ∀ cells cells', f cells step = some cells' →
      (∀ i ∈ target step, cells[i]? = first[i]?) → Good step cells')
    (hcongr : ∀ step cells cells', (∀ i ∈ target step, cells'[i]? = cells[i]?) →
      Good step cells → Good step cells')
    (hdisjoint : steps.Pairwise fun step step' => ∀ i ∈ target step, i ∉ target step')
    (h : steps.foldlM f first = some last) :
    last.length = first.length ∧ ∀ step ∈ steps, Good step last := by
  have hrun : ∀ (steps' : List β) (cells : List α), (∀ step ∈ steps', step ∈ steps) →
      (steps'.Pairwise fun step step' => ∀ i ∈ target step, i ∉ target step') →
      (∀ step ∈ steps', ∀ i ∈ target step, cells[i]? = first[i]?) →
      steps'.foldlM f cells = some last →
      last.length = cells.length ∧ (∀ step ∈ steps', Good step last) ∧
        ∀ i, (∀ step ∈ steps', i ∉ target step) → last[i]? = cells[i]? := by
    intro steps'
    induction steps' with
    | nil =>
      intro cells _ _ _ hlast
      obtain rfl : cells = last := Option.some.inj hlast
      exact ⟨rfl, by simp, fun _ _ => rfl⟩
    | cons step steps' ih =>
      intro cells hsub hpairs hcells hlast
      rw [List.foldlM_cons] at hlast
      obtain ⟨between, hbetween, hrest⟩ := Option.bind_eq_some_iff.mp hlast
      obtain ⟨hlength, hkeep⟩ := hframe step cells between hbetween
      rw [List.pairwise_cons] at hpairs
      rw [List.forall_mem_cons] at hsub hcells
      have hothers : ∀ step' ∈ steps', ∀ i ∈ target step', between[i]? = first[i]? := by
        intro step' hstep' i hi
        rw [hkeep i fun hmem => hpairs.1 step' hstep' i hmem hi]
        exact hcells.2 step' hstep' i hi
      obtain ⟨hlength', hgoods, hkeep'⟩ := ih between hsub.2 hpairs.2 hothers hrest
      refine ⟨hlength'.trans hlength, List.forall_mem_cons.mpr ⟨?_, hgoods⟩, ?_⟩
      · apply hcongr step between last
        · exact fun i hi => hkeep' i fun step' hstep' => hpairs.1 step' hstep' i hi
        · exact hgood step hsub.1 cells between hbetween hcells.1
      · intro i hi
        rw [List.forall_mem_cons] at hi
        rw [hkeep' i hi.2, hkeep i hi.1]
  obtain ⟨hlength, hgoods, -⟩ := hrun steps first (fun _ h => h) hdisjoint (fun _ _ _ _ => rfl) h
  exact ⟨hlength, hgoods⟩

theorem slicedDims_eq_map {shape : List Nat} {ranges : List Range}
    (hlen : shape.length = ranges.length) :
    m.slicedDims shape ranges = (List.range shape.length).map (resultDim m shape ranges) := by
  apply List.ext_getElem
  · simp [Machine.slicedDims, hlen]
  · intro i hi hi'
    have hi : i < shape.length := by simpa using hi'
    simp only [Machine.slicedDims, List.getElem_zipWith, List.getElem_map, List.getElem_range,
      resultDim, List.getD_eq_getElem?_getD, List.getElem?_eq_getElem hi,
      List.getElem?_eq_getElem (hlen ▸ hi), Option.getD_some]
    rfl

theorem operandDim_eq (operand : List Nat) (dims : List OperandDim) :
    operandDim m operand dims = resultDim m operand (dims.map OperandDim.range) := by
  funext dim
  have hrange : (dims[dim]?.map OperandDim.range).getD unitRange =
      (dims.map OperandDim.range).getD dim unitRange := by
    rw [List.getD_eq_getElem?_getD, List.getElem?_map]
  rw [operandDim, hrange]
  rfl

theorem getSliceShape_eq (m : Machine V) {ranges : List Range}
    (h : ∀ range ∈ ranges, isStatic range.size = true) :
    getSliceShape ranges = (m.sizes (ranges.map Range.size)).map some := by
  rw [getSliceShape, Machine.sizes, List.map_map, List.map_map]
  apply List.map_congr_left
  intro range hrange
  have hstatic := h range hrange
  show (getConstantIntValue range.size).map Int.toNat = some (range.size.eval m.arguments).toNat
  unfold isStatic at hstatic
  split at hstatic
  · next k heq =>
    rw [heq]
    rfl
  · cases hstatic

/-- Groups of dimensions that are sliced like one dimension each. -/
theorem agrees_of_groups {large small : List Nat} {largeRanges smallRanges : List Range}
    (hflatten : groups.flatten = List.range large.length) (hsmall : small.length = groups.length)
    (hlarge' : large.length = largeRanges.length) (hsmall' : small.length = smallRanges.length)
    (hstatic : ∀ range ∈ largeRanges, isStatic range.size = true)
    (hstatic' : ∀ range ∈ smallRanges, isStatic range.size = true)
    (h : ∀ step ∈ groups.zipIdx, Agrees (step.1.map (resultDim m large largeRanges))
      [resultDim m small smallRanges step.2]) :
    Agrees (m.slicedDims large largeRanges) (m.slicedDims small smallRanges) ∧
      Reassociates groups (getSliceShape largeRanges) (getSliceShape smallRanges) := by
  have hforall : List.Forall₂ (fun group d =>
      Agrees (group.map (resultDim m large largeRanges)) [d]) groups
      (m.slicedDims small smallRanges) := by
    rw [slicedDims_eq_map hsmall', hsmall, List.forall₂_iff_get]
    refine ⟨by simp, fun i hi hi' => ?_⟩
    have hmem : (groups[i], i) ∈ groups.zipIdx := by
      rw [List.mk_mem_zipIdx_iff_getElem?]
      exact List.getElem?_eq_getElem hi
    simpa using h _ hmem
  constructor
  · have hagrees := Agrees.flatten hforall
    rwa [hflatten, ← slicedDims_eq_map hlarge'] at hagrees
  · rw [getSliceShape_eq m hstatic, getSliceShape_eq m hstatic', reassociates_static_iff]
    refine Or.inr ⟨?_, ?_⟩
    · rw [hflatten, Machine.sizes, List.length_map, List.length_map, hlarge']
    · have hsizes : ∀ dim < large.length, (resultDim m large largeRanges dim).size =
          (m.sizes (largeRanges.map Range.size)).getD dim 0 := by
        intro dim hdim
        have hdim' : dim < largeRanges.length := hlarge' ▸ hdim
        simp [resultDim, Machine.slicedDim, Machine.sizes, List.getD_eq_getElem?_getD,
          List.getElem?_eq_getElem hdim']
      have hin : ∀ group ∈ groups, ∀ dim ∈ group, dim < large.length := by
        intro group hgroup dim hdim
        have hmem : dim ∈ groups.flatten := List.mem_flatten.mpr ⟨group, hgroup, hdim⟩
        rw [hflatten] at hmem
        exact List.mem_range.mp hmem
      rw [← (m.slicedDims_maps hsmall').2.2.1]
      generalize m.slicedDims small smallRanges = dims at hforall ⊢
      clear hflatten hsmall hlarge' hsmall' h
      induction hforall with
      | nil => rfl
      | @cons group d groups ds hgroup _ ih =>
        rw [List.forall_mem_cons] at hin
        rw [List.map_cons, List.map_cons, ih hin.2]
        congr 1
        have hsize : (RowMajor.sizes (group.map (resultDim m large largeRanges))).prod =
            d.size := by
          simpa using hgroup.sizes
        rw [← hsize, RowMajor.sizes, List.map_map]
        congr 1
        exact List.map_congr_left fun dim hdim => hsizes dim (hin.1 dim hdim)

end AllGroups

/-! ## Static sizes -/

section Static

variable {ranges : List Range} {extents sources target : List Nat} {dims dims' : List OperandDim}

/-- All sizes are attributes. -/
def StaticSizes (dims : List OperandDim) : Prop := ∀ d ∈ dims, isStatic d.range.size = true

theorem isStatic_getD (h : ∀ range ∈ ranges, isStatic range.size = true) (dim : Nat) :
    isStatic (ranges.getD dim unitRange).size = true := by
  rw [List.getD_eq_getElem?_getD]
  cases hrange : ranges[dim]? with
  | none => rfl
  | some range => exact h range (List.mem_of_getElem? hrange)

theorem StaticSizes.of_sliceGroup (hranges : ∀ range ∈ ranges, isStatic range.size = true)
    (hdims : StaticSizes dims) (h : sliceGroup ranges extents sources target dims = some dims') :
    StaticSizes dims' := by
  induction sources generalizing dims with
  | nil =>
    obtain rfl : dims = dims' := Option.some.inj h
    exact hdims
  | cons dim sources ih =>
    rw [sliceGroup_cons] at h
    obtain ⟨between, hbetween, hrest⟩ := Option.bind_eq_some_iff.mp h
    refine ih ?_ hrest
    rcases sliceDim_eq_some hbetween with ⟨-, rfl⟩ | ⟨dim', -, d, -, -, -, rfl⟩
    · exact hdims
    · intro d' hd'
      rcases List.mem_or_eq_of_mem_set hd' with hmem | rfl
      · exact hdims d' hmem
      · exact isStatic_getD hranges dim

theorem StaticSizes.of_foldlM (hranges : ∀ range ∈ ranges, isStatic range.size = true)
    {f : List Nat × Nat → List Nat × List Nat} {steps : List (List Nat × Nat)}
    (hdims : StaticSizes dims)
    (h : steps.foldlM (fun dims step => sliceGroup ranges extents (f step).1 (f step).2 dims) dims =
      some dims') : StaticSizes dims' := by
  induction steps generalizing dims with
  | nil =>
    obtain rfl : dims = dims' := Option.some.inj h
    exact hdims
  | cons step steps ih =>
    rw [List.foldlM_cons] at h
    obtain ⟨between, hbetween, hrest⟩ := Option.bind_eq_some_iff.mp h
    exact ih (hdims.of_sliceGroup hranges hbetween) hrest

theorem length_of_foldlM {f : List Nat × Nat → List Nat × List Nat}
    {steps : List (List Nat × Nat)}
    (h : steps.foldlM (fun dims step => sliceGroup ranges extents (f step).1 (f step).2 dims) dims =
      some dims') : dims'.length = dims.length := by
  induction steps generalizing dims with
  | nil =>
    obtain rfl : dims = dims' := Option.some.inj h
    rfl
  | cons step steps ih =>
    rw [List.foldlM_cons] at h
    obtain ⟨between, hbetween, hrest⟩ := Option.bind_eq_some_iff.mp h
    exact (ih hrest).trans (sliceGroup_frame hbetween).1

theorem exists_static {shape : TensorType} (h : ∀ extent ∈ shape, extent.isSome = true) :
    ∃ extents : List Nat, shape = extents.map some := by
  induction shape with
  | nil => exact ⟨[], rfl⟩
  | cons extent shape ih =>
    rw [List.forall_mem_cons] at h
    obtain ⟨extents, rfl⟩ := ih h.2
    obtain ⟨n, rfl⟩ := Option.isSome_iff_exists.mp h.1
    exact ⟨n :: extents, rfl⟩

theorem groupExtent_isSome {group : List (Option Nat)} :
    (groupExtent group).isSome = true ↔ ∀ extent ∈ group, extent.isSome = true := by
  rw [groupExtent, Option.isSome_map]
  induction group with
  | nil => simp
  | cons extent group ih =>
    rw [List.mapM_cons, List.forall_mem_cons]
    cases extent with
    | none => simp
    | some n =>
      cases hrest : group.mapM id with
      | none => simpa [hrest] using ih
      | some rest => simpa [hrest] using ih

theorem forall₂_isSome {groups : List (List Nat)} {large small : TensorType}
    (h : List.Forall₂ (fun group extent => groupExtent (group.map fun d => large.getD d none) = extent)
      groups small) :
    (∀ extent ∈ small, extent.isSome = true) ↔
      ∀ dim ∈ groups.flatten, (large.getD dim none).isSome = true := by
  induction h with
  | nil => simp
  | @cons group extent groups small hgroup _ ih =>
    rw [List.forall_mem_cons, ih, ← hgroup, groupExtent_isSome, List.forall_mem_map,
      List.flatten_cons]
    exact List.forall_mem_append.symm

/-- The extents of both sides of a reshape are known together. -/
theorem reassociates_isSome_iff {groups : List (List Nat)} {large small : TensorType}
    (h : Reassociates groups large small) :
    (∀ extent ∈ small, extent.isSome = true) ↔ ∀ extent ∈ large, extent.isSome = true := by
  rcases h with ⟨-, rfl, hunits⟩ | ⟨hflatten, hforall⟩
  · simp only [List.not_mem_nil, false_implies, implies_true, true_iff]
    intro extent hextent
    rw [hunits extent hextent]
    rfl
  · rw [forall₂_isSome hforall, hflatten]
    constructor
    · intro hall extent hextent
      obtain ⟨i, hi, rfl⟩ := List.getElem_of_mem hextent
      have := hall i (List.mem_range.mpr hi)
      rwa [List.getD_eq_getElem?_getD, List.getElem?_eq_getElem hi] at this
    · intro hall dim hdim
      rw [List.getD_eq_getElem?_getD, List.getElem?_eq_getElem (List.mem_range.mp hdim)]
      exact hall _ (List.getElem_mem _)

end Static

/-! ## The pattern -/

/-- A slice of all dimensions of a tensor. -/
structure ExtractSliceOp.Verified (slice : ExtractSliceOp) : Prop where
  length_eq : slice.sourceType.length = slice.ranges.length
  resultType_eq : slice.resultType = getSliceShape slice.ranges

/-- The reshaped slice has the elements of the slice of the reshaped tensor, at the same indices. -/
def Commutes (slice : ExtractSliceOp) (reshape : Reshape) (rewritten : Rewritten) : Prop :=
  ∃ operand result : List Nat,
    reshape.operandType = operand.map some ∧ reshape.resultType = result.map some ∧
    rewritten.slice.sourceType = reshape.operandType ∧ rewritten.slice.Verified ∧
    rewritten.reshape.operandType = rewritten.slice.resultType ∧
    rewritten.reshape.resultType = slice.resultType ∧
    ∀ {V : Type} [Inhabited V] (m : Machine V), m.InBounds result slice.ranges →
      rewritten.reshape.Verified ∧ m.InBounds operand rewritten.slice.ranges ∧
      ∀ data : List V, data.length = operand.prod →
        rewritten.reshape.run (m.sizes (rewritten.slice.ranges.map Range.size))
            (m.sizes (slice.ranges.map Range.size))
            (Machine.extract operand data (m.indices rewritten.slice.ranges)) =
          Machine.extract result (reshape.run operand result data) (m.indices slice.ranges)

/-- The mapped slice takes the elements of the slice in the same order, whatever reshapes have made
one tensor of the other, and what was sliced can be reshaped to its shape. -/
def MapsSlice (slice mapped : List Range) (sourceShape targetShape : TensorType) : Prop :=
  ∃ source target : List Nat,
    sourceShape = source.map some ∧ targetShape = target.map some ∧
    (∀ getReassociationIndicesForReshape, FindsReassociation getReassociationIndicesForReshape →
      ∃ reshapes, reshapeTo getReassociationIndicesForReshape (getSliceShape slice)
          (getSliceShape mapped) = some reshapes ∧
        Reshapes (getSliceShape slice) reshapes (getSliceShape mapped)) ∧
    ∀ {V : Type} [Inhabited V] (m : Machine V), m.InBounds source slice →
      m.InBounds target mapped ∧
      ∀ (data reshaped : List V) (between reshapes : List Reshape) (shape : List Nat)
        (tile : List V), data.length = source.prod →
        Executes between source data target reshaped →
        Executes reshapes (m.sizes (slice.map Range.size))
          (Machine.extract source data (m.indices slice)) shape tile →
        tile = Machine.extract target reshaped (m.indices mapped)

section Pattern

variable {slice : ExtractSliceOp} {reshape : Reshape} {hasOneUse : Bool} {rewritten : Rewritten}

theorem matchAndRewrite_eq_some
    (h : matchAndRewrite slice (some reshape) hasOneUse = some rewritten) :
    reshape.groups ≠ [] ∧ (∀ range ∈ slice.ranges, isStatic range.size = true) ∧
      ∃ extents dims, slice.sourceType.mapM id = some extents ∧
        reshape.groups.zipIdx.foldlM (fun dims step =>
            sliceGroup slice.ranges extents (groupDims reshape.isCollapse step.1 step.2).1
              (groupDims reshape.isCollapse step.1 step.2).2 dims)
          (reshape.operandType.map fun extent => ⟨wholeRange extent, false⟩) = some dims ∧
        rewritten =
          { slice := ⟨reshape.operandType, dims.map OperandDim.range,
              getSliceShape (dims.map OperandDim.range)⟩
            reshape :=
              { reshape with
                operandType := getSliceShape (dims.map OperandDim.range)
                resultType := slice.resultType }
            kept := if hasOneUse then none else some reshape } := by
  rw [matchAndRewrite] at h
  simp only [Option.bind_eq_bind, Option.bind_some] at h
  split at h
  · cases h
  · next hcond =>
    simp only [Bool.or_eq_true, not_or, Bool.not_eq_true, Bool.not_eq_false',
      List.isEmpty_eq_false_iff, List.all_eq_true] at hcond
    obtain ⟨extents, hextents, h⟩ := Option.bind_eq_some_iff.mp h
    obtain ⟨dims, hdims, h⟩ := Option.bind_eq_some_iff.mp h
    exact ⟨hcond.1.1.1, hcond.1.1.2, extents, dims, hextents, hdims, (Option.some.inj h).symm⟩

theorem eq_map_some_of_mapM {shape : TensorType} {extents : List Nat}
    (h : shape.mapM id = some extents) : shape = extents.map some := by
  induction shape generalizing extents with
  | nil =>
    obtain rfl : [] = extents := by simpa using h
    rfl
  | cons extent shape ih =>
    rw [List.mapM_cons] at h
    obtain ⟨n, hn, h⟩ := Option.bind_eq_some_iff.mp h
    obtain ⟨rest, hrest, h⟩ := Option.bind_eq_some_iff.mp h
    obtain rfl : n :: rest = extents := Option.some.inj h
    rw [ih hrest, show extent = some n from hn]
    rfl

variable {V : Type} {m : Machine V} {operand extents : List Nat} {groups : List (List Nat)}
  {ranges : List Range} {dims : List OperandDim}

theorem inBounds_resultDim (hin : m.InBounds extents ranges) {dim : Nat}
    (hdim : dim < extents.length) : (resultDim m extents ranges dim).InBounds := by
  apply hin.inBounds
  rw [slicedDims_eq_map hin.length_eq]
  exact List.mem_map_of_mem (List.mem_range.mpr hdim)

theorem unsliced_of_eq {dim : Nat} (hdim : dim < operand.length)
    (h : dims[dim]? = ((operand.map some).map fun extent =>
      (⟨wholeRange extent, false⟩ : OperandDim))[dim]?) : Unsliced operand dims dim := by
  rw [Unsliced, h, List.getElem?_map, List.getElem?_map, List.getElem?_eq_getElem hdim,
    List.getD_eq_getElem?_getD, List.getElem?_eq_getElem hdim]
  rfl

theorem mem_of_mem_zipIdx {step : List Nat × Nat} (h : step ∈ groups.zipIdx) :
    groups[step.2]? = some step.1 := List.mk_mem_zipIdx_iff_getElem?.mp h

/-- The operand is sliced in bounds, group by group. -/
structure Slices (m : Machine V) (groups : List (List Nat)) (isCollapse : Bool)
    (operand extents : List Nat) (ranges : List Range) (dims : List OperandDim) : Prop where
  inBounds : m.InBounds operand (dims.map OperandDim.range)
  agrees : Agrees (m.slicedDims operand (dims.map OperandDim.range)) (m.slicedDims extents ranges)
  reassociates : if isCollapse then
      Reassociates groups (getSliceShape (dims.map OperandDim.range)) (getSliceShape ranges)
    else Reassociates groups (getSliceShape ranges) (getSliceShape (dims.map OperandDim.range))

theorem lt_of_mem_group {n : Nat} (hflatten : groups.flatten = List.range n) :
    ∀ group ∈ groups, ∀ dim ∈ group, dim < n := by
  intro group hgroup dim hdim
  have hmem : dim ∈ groups.flatten := List.mem_flatten.mpr ⟨group, hgroup, hdim⟩
  rw [hflatten] at hmem
  exact List.mem_range.mp hmem

theorem getD_of_mem_zipIdx {f : List Nat → Nat} {step : List Nat × Nat}
    (h : step ∈ groups.zipIdx) : (groups.map f).getD step.2 0 = f step.1 := by
  rw [List.getD_eq_getElem?_getD, List.getElem?_map, mem_of_mem_zipIdx h]
  rfl

theorem staticSizes_first (operand : List Nat) :
    StaticSizes ((operand.map some).map fun extent => ⟨wholeRange extent, false⟩) := by
  intro d hd
  obtain ⟨extent, -, rfl⟩ := List.mem_map.mp hd
  rfl

theorem slices_of_collapse (hstatic : ∀ range ∈ ranges, isStatic range.size = true)
    (hflatten : groups.flatten = List.range operand.length)
    (hextents : extents = groups.map fun group => (group.map fun d => operand.getD d 0).prod)
    (hin : m.InBounds extents ranges)
    (h : groups.zipIdx.foldlM (fun dims step =>
        sliceGroup ranges extents (groupDims true step.1 step.2).1 (groupDims true step.1 step.2).2
          dims) ((operand.map some).map fun extent => ⟨wholeRange extent, false⟩) = some dims) :
    Slices m groups true operand extents ranges dims := by
  have hnodup : groups.flatten.Nodup := hflatten ▸ List.nodup_range
  rw [List.nodup_flatten] at hnodup
  have hmem : ∀ step ∈ groups.zipIdx, step.1 ∈ groups := fun step hstep =>
    List.mem_of_getElem? (mem_of_mem_zipIdx hstep)
  have hlt := lt_of_mem_group hflatten
  have hlengths : extents.length = groups.length := by rw [hextents, List.length_map]
  obtain ⟨hlength, hgood⟩ := foldlM_cells (fun step : List Nat × Nat => step.1)
    (fun step dims => Agrees (step.1.map (operandDim m operand dims))
        [resultDim m extents ranges step.2] ∧
      ∀ dim ∈ step.1, (operandDim m operand dims dim).InBounds)
    (fun step dims dims' h => sliceGroup_frame h)
    (by
      intro step hstep dims dims' hslice hfirst
      refine sliceGroup_collapse hslice (hnodup.1 step.1 (hmem step hstep)) ?_ ?_ ?_
      · exact fun dim hdim => unsliced_of_eq (hlt step.1 (hmem step hstep) dim hdim)
          (hfirst dim hdim)
      · rw [hextents, getD_of_mem_zipIdx hstep]
      · apply inBounds_resultDim hin
        rw [hlengths]
        exact (List.getElem?_eq_some_iff.mp (mem_of_mem_zipIdx hstep)).1)
    (by
      rintro step dims dims' hcells ⟨hagrees, hbounds⟩
      have hcongr : ∀ dim ∈ step.1, operandDim m operand dims' dim = operandDim m operand dims dim :=
        fun dim hdim => operandDim_congr (hcells dim hdim)
      refine ⟨?_, fun dim hdim => hcongr dim hdim ▸ hbounds dim hdim⟩
      rwa [List.map_congr_left hcongr])
    (by
      have hpairs := hnodup.2
      rw [← List.zipIdx_map_fst 0 groups, List.pairwise_map] at hpairs
      exact hpairs.imp fun hdisjoint i hi hi' => hdisjoint hi hi')
    h
  have hoperand : operand.length = (dims.map OperandDim.range).length := by
    rw [List.length_map, hlength, List.length_map, List.length_map]
  have hdims : ∀ range ∈ dims.map OperandDim.range, isStatic range.size = true := by
    rw [List.forall_mem_map]
    exact (staticSizes_first operand).of_foldlM hstatic h
  rw [operandDim_eq] at hgood
  obtain ⟨hagrees, hreassociates⟩ := agrees_of_groups hflatten hlengths hoperand hin.length_eq hdims
    hstatic fun step hstep => (hgood step hstep).1
  refine ⟨⟨hoperand, ?_⟩, hagrees, hreassociates⟩
  rw [slicedDims_eq_map hoperand, List.forall_mem_map]
  intro dim hdim
  rw [← hflatten] at hdim
  obtain ⟨group, hgroup, hdim⟩ := List.mem_flatten.mp hdim
  obtain ⟨index, hindex, rfl⟩ := List.getElem_of_mem hgroup
  have hstep : (groups[index], index) ∈ groups.zipIdx :=
    List.mk_mem_zipIdx_iff_getElem?.mpr (List.getElem?_eq_getElem hindex)
  exact (hgood _ hstep).2 dim hdim

theorem slices_of_expand (hstatic : ∀ range ∈ ranges, isStatic range.size = true)
    (hflatten : groups.flatten = List.range extents.length)
    (hoperands : operand = groups.map fun group => (group.map fun d => extents.getD d 0).prod)
    (hin : m.InBounds extents ranges)
    (h : groups.zipIdx.foldlM (fun dims step =>
        sliceGroup ranges extents (groupDims false step.1 step.2).1
          (groupDims false step.1 step.2).2 dims)
        ((operand.map some).map fun extent => ⟨wholeRange extent, false⟩) = some dims) :
    Slices m groups false operand extents ranges dims := by
  have hlt := lt_of_mem_group hflatten
  have hlengths : operand.length = groups.length := by rw [hoperands, List.length_map]
  obtain ⟨hlength, hgood⟩ := foldlM_cells (fun step : List Nat × Nat => [step.2])
    (fun step dims => Agrees (step.1.map (resultDim m extents ranges))
        [operandDim m operand dims step.2] ∧ (operandDim m operand dims step.2).InBounds)
    (fun step dims dims' h => sliceGroup_frame h)
    (by
      intro step hstep dims dims' hslice hfirst
      have hindex := (List.getElem?_eq_some_iff.mp (mem_of_mem_zipIdx hstep)).1
      refine sliceGroup_expand hslice ?_ ?_ ?_
      · exact unsliced_of_eq (hlengths ▸ hindex) (hfirst step.2 (List.mem_singleton_self _))
      · rw [hoperands, getD_of_mem_zipIdx hstep]
      · exact fun dim hdim => inBounds_resultDim hin
          (hlt step.1 (List.mem_of_getElem? (mem_of_mem_zipIdx hstep)) dim hdim))
    (by
      rintro step dims dims' hcells ⟨hagrees, hbounds⟩
      have hcongr : operandDim m operand dims' step.2 = operandDim m operand dims step.2 :=
        operandDim_congr (hcells step.2 (List.mem_singleton_self _))
      exact ⟨hcongr ▸ hagrees, hcongr ▸ hbounds⟩)
    (by
      have hpairs : (List.range' 0 groups.length).Pairwise (· ≠ ·) := List.nodup_range'
      rw [← List.zipIdx_map_snd 0 groups, List.pairwise_map] at hpairs
      refine hpairs.imp fun hne i hi hi' => hne ?_
      rw [← List.mem_singleton.mp hi, List.mem_singleton.mp hi'])
    h
  have hoperand : operand.length = (dims.map OperandDim.range).length := by
    rw [List.length_map, hlength, List.length_map, List.length_map]
  have hdims : ∀ range ∈ dims.map OperandDim.range, isStatic range.size = true := by
    rw [List.forall_mem_map]
    exact (staticSizes_first operand).of_foldlM hstatic h
  rw [operandDim_eq] at hgood
  obtain ⟨hagrees, hreassociates⟩ := agrees_of_groups hflatten hlengths hin.length_eq hoperand
    hstatic hdims fun step hstep => (hgood step hstep).1
  refine ⟨⟨hoperand, ?_⟩, hagrees.symm, hreassociates⟩
  rw [slicedDims_eq_map hoperand, List.forall_mem_map]
  intro dim hdim
  have hdim := hlengths ▸ List.mem_range.mp hdim
  have hstep : (groups[dim], dim) ∈ groups.zipIdx :=
    List.mk_mem_zipIdx_iff_getElem?.mpr (List.getElem?_eq_getElem hdim)
  exact (hgood _ hstep).2

/-- The slice of the operand takes the same elements. -/
theorem slices_of_matchAndRewrite (hgroups : groups ≠ [])
    (hstatic : ∀ range ∈ ranges, isStatic range.size = true) {isCollapse : Bool}
    (hreassociates : if isCollapse then
        Reassociates groups (operand.map some) (extents.map some)
      else Reassociates groups (extents.map some) (operand.map some))
    (hin : m.InBounds extents ranges)
    (h : groups.zipIdx.foldlM (fun dims step =>
        sliceGroup ranges extents (groupDims isCollapse step.1 step.2).1
          (groupDims isCollapse step.1 step.2).2 dims)
        ((operand.map some).map fun extent => ⟨wholeRange extent, false⟩) = some dims) :
    Slices m groups isCollapse operand extents ranges dims := by
  cases isCollapse with
  | true =>
    rcases reassociates_static_iff.mp hreassociates with ⟨hnil, -⟩ | ⟨hflatten, hextents⟩
    · exact absurd hnil hgroups
    · exact slices_of_collapse hstatic hflatten hextents hin h
  | false =>
    rcases reassociates_static_iff.mp hreassociates with ⟨hnil, -⟩ | ⟨hflatten, hoperands⟩
    · exact absurd hnil hgroups
    · exact slices_of_expand hstatic hflatten hoperands hin h

omit m operand extents groups ranges dims in
theorem commutes_of_matchAndRewrite
    (h : matchAndRewrite slice (some reshape) hasOneUse = some rewritten)
    (hverified : reshape.Verified) (htype : reshape.resultType = slice.sourceType)
    (hslice : slice.Verified) : Commutes slice reshape rewritten := by
  obtain ⟨hgroups, hstatic, result, dims, hresult, hdims, rfl⟩ := matchAndRewrite_eq_some h
  have hresult := eq_map_some_of_mapM hresult
  have hresultType : reshape.resultType = result.map some := htype.trans hresult
  -- a reshape of static result has a static source
  obtain ⟨operand, hoperand⟩ : ∃ operand : List Nat, reshape.operandType = operand.map some := by
    apply exists_static
    rw [Reshape.Verified, hresultType] at hverified
    split at hverified
    · exact (reassociates_isSome_iff hverified).mp (by simp)
    · exact (reassociates_isSome_iff hverified).mpr (by simp)
  have hreassociated : reshape.Reassociated operand result := by
    rw [Reshape.Reassociated, ← hoperand, ← hresultType]
    exact hverified
  rw [hoperand] at hdims
  have hlength : dims.length = operand.length := by
    rw [length_of_foldlM hdims, List.length_map, List.length_map]
  refine ⟨operand, result, hoperand, hresultType, rfl, ⟨?_, rfl⟩, rfl, rfl, ?_⟩
  · rw [hoperand, List.length_map, List.length_map, hlength]
  intro V _ m hin
  have hslices : Slices m reshape.groups reshape.isCollapse operand result slice.ranges dims :=
    slices_of_matchAndRewrite hgroups hstatic hreassociated hin hdims
  have hnew : Reshape.Verified
      { reshape with
        operandType := getSliceShape (dims.map OperandDim.range)
        resultType := slice.resultType } := by
    rw [Reshape.Verified, hslice.resultType_eq]
    exact hslices.reassociates
  refine ⟨hnew, hslices.inBounds, fun data hdata => ?_⟩
  have hstatics : ∀ range ∈ dims.map OperandDim.range, isStatic range.size = true := by
    rw [List.forall_mem_map]
    exact (staticSizes_first operand).of_foldlM hstatic hdims
  rw [Reshape.run_eq hreassociated hdata,
    extract_eq_of_agrees hin hslices.inBounds hslices.agrees.symm]
  apply Reshape.run_eq
  · have hreassociates := hslices.reassociates
    rw [getSliceShape_eq m hstatics, getSliceShape_eq m hstatic] at hreassociates
    exact hreassociates
  · rw [extract_indices_eq hslices.inBounds, List.length_map, List.length_range]
    rw [← (m.slicedDims_maps hslices.inBounds.length_eq).2.2.1]

end Pattern

theorem mapsSlice_of_mapSlice {slice mapped : List Range} {sourceShape targetShape : TensorType}
    (h : mapSlice slice sourceShape targetShape = some mapped)
    (hlen : sourceShape.length = slice.length) :
    MapsSlice slice mapped sourceShape targetShape := by
  obtain ⟨source, target, hsource, htarget, hsame⟩ := mapSlice_sameSlice h hlen
  refine ⟨source, target, hsource, htarget, ?_, ?_⟩
  · exact fun _ hfinds => reshapeTo_reshapes hfinds hsame.squeezed_eq
  · intro V _ m hin
    obtain ⟨hin', hagrees⟩ := hsame.agrees m hin
    refine ⟨hin', ?_⟩
    intro data reshaped between reshapes shape tile hdata hbetween hreshapes
    rw [hbetween.data_eq hdata, ← extract_eq_of_agrees hin hin' hagrees]
    apply hreshapes.data_eq
    rw [extract_indices_eq hin, List.length_map, List.length_range,
      ← (m.slicedDims_maps hin.length_eq).2.2.1]

/-- Slices commute with reshapes. -/
theorem slices_commute (slice : ExtractSliceOp) (reshape : Reshape) (hasOneUse : Bool)
    (hverified : reshape.Verified) (htype : reshape.resultType = slice.sourceType)
    (hslice : slice.Verified) (ranges : List Range) (sourceShape targetShape : TensorType)
    (hlen : sourceShape.length = ranges.length) :
    (∀ rewritten, matchAndRewrite slice (some reshape) hasOneUse = some rewritten →
      Commutes slice reshape rewritten) ∧
    ∀ mapped, mapSlice ranges sourceShape targetShape = some mapped →
      MapsSlice ranges mapped sourceShape targetShape :=
  ⟨fun _ h => commutes_of_matchAndRewrite h hverified htype hslice,
    fun _ h => mapsSlice_of_mapSlice h hlen⟩

/-- The second half of a row of four. -/
def halfRow : ExtractSliceOp where
  sourceType := [some 1, some 4]
  ranges := [unitRange, ⟨.value (.argument 0), .index 2, .index 1⟩]
  resultType := [some 1, some 2]

/-- Four elements as a row. -/
def asRow : Reshape where
  isCollapse := false
  groups := [[0, 1]]
  operandType := [some 4]
  resultType := [some 1, some 4]

theorem halfRow_commutes :
    Commutes halfRow asRow
        { slice := ⟨[some 4], [⟨.value (.argument 0), .index 2, .index 1⟩], [some 2]⟩
          reshape := { asRow with operandType := [some 2], resultType := [some 1, some 2] }
          kept := some asRow } ∧
      MapsSlice halfRow.ranges [⟨.value (.argument 0), .index 2, .index 1⟩, unitRange]
        [some 1, some 4] [some 4, some 1] := by
  have hverified : asRow.Verified := Or.inr ⟨rfl, .cons rfl .nil⟩
  have hcommute := slices_commute halfRow asRow false hverified rfl ⟨rfl, rfl⟩ halfRow.ranges
    [some 1, some 4] [some 4, some 1] rfl
  exact ⟨hcommute.1 _ rfl, hcommute.2 _ rfl⟩

end BubbleUpSlice

end DataflowScheduler
