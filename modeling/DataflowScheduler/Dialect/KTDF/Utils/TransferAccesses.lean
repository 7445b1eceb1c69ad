import DataflowScheduler.Dialect.KTDF.Utils.TransferSemantics

/-!
# The elements that transfers access

A contiguous access has the elements of the slice it is created for, a splat repeats the loaded
elements as the load does, and a slice of a slice is the merged slice.
-/

namespace DataflowScheduler

namespace DataTransfers

open Affine Operands RowMajor

variable {A V : Type} {m : Machine V}

/-! ## Contiguous accesses -/

theorem createTransferAccessFrom_ok {slice : List Range} {offsets operands : List Value}
    {results : List Expr} {sizes : List OpFoldResult}
    (h : createTransferAccessFrom offsets slice = some (results, operands, sizes)) :
    sizes = slice.map Range.size ∧ offsets <+: operands ∧
      (∀ range ∈ slice, isConstantIntValue range.stride 1 ∨ isConstantIntValue range.size 1) ∧
      ∀ arguments : Nat → Int,
        results.map (fun e => e.eval
          (fun k => (operands.map (Value.eval arguments)).getD k 0) fun _ => 0) =
          slice.map fun range => range.offset.eval arguments := by
  induction slice generalizing offsets operands results sizes with
  | nil =>
      cases h
      exact ⟨rfl, List.prefix_refl _, nofun, fun _ => rfl⟩
  | cons range slice ih =>
      unfold createTransferAccessFrom at h
      split at h
      · cases h
      · next hunit =>
          have hrange : isConstantIntValue range.stride 1 ∨ isConstantIntValue range.size 1 := by
            by_contra hne
            rw [not_or] at hne
            simp [hne.1, hne.2] at hunit
          split at h
          · next value _ hvalue =>
              obtain ⟨⟨results', operands', sizes'⟩, hrest, heq⟩ := Option.map_eq_some_iff.mp h
              cases heq
              obtain ⟨hsizes, hprefix, hunits, heval⟩ := ih hrest
              refine ⟨by rw [hsizes]; rfl, hprefix, List.forall_mem_cons.mpr ⟨hrange, hunits⟩, ?_⟩
              intro arguments
              rw [List.map_cons, List.map_cons, heval,
                eval_of_getConstantIntValue hvalue]
              rfl
          · next v _ hoffset =>
              obtain ⟨⟨results', operands', sizes'⟩, hrest, heq⟩ := Option.map_eq_some_iff.mp h
              cases heq
              obtain ⟨hsizes, hprefix, hunits, heval⟩ := ih hrest
              refine ⟨by rw [hsizes]; rfl, (List.prefix_append _ _).trans hprefix,
                List.forall_mem_cons.mpr ⟨hrange, hunits⟩, ?_⟩
              intro arguments
              rw [List.map_cons, List.map_cons, heval, hoffset]
              congr 1
              -- The operand stays where it was appended.
              obtain ⟨tail, rfl⟩ := hprefix
              simp
          · cases h

/-- What a created access starts at and covers. -/
theorem createTransferAccess_ok {slice : List Range} {access : TransferAccess}
    (h : createTransferAccess slice = some access) :
    access.sizes = slice.map Range.size ∧
      (∀ range ∈ slice, isConstantIntValue range.stride 1 ∨ isConstantIntValue range.size 1) ∧
      m.start access = slice.map fun range => range.offset.eval m.arguments := by
  obtain ⟨⟨results, offsets, sizes⟩, hfrom, rfl⟩ := Option.map_eq_some_iff.mp h
  obtain ⟨hsizes, -, hunits, heval⟩ := createTransferAccessFrom_ok hfrom
  exact ⟨hsizes, hunits, heval m.arguments⟩

theorem Machine.sizes_cons (size : OpFoldResult) (sizes : List OpFoldResult) :
    m.sizes (size :: sizes) = (size.eval m.arguments).toNat :: m.sizes sizes := rfl

@[simp] theorem boxAt_cons (o t : Int) (os ts : List Int) (i : Nat) (is : List Nat) :
    boxAt (o :: os) (t :: ts) (i :: is) = (o + i * t) :: boxAt os ts is := rfl

/-- Where a dimension has one index, its stride does not matter. -/
theorem boxAt_contiguous {slice : List Range}
    (h : ∀ range ∈ slice, isConstantIntValue range.stride 1 ∨ isConstantIntValue range.size 1)
    {index : List Nat} (hindex : index ∈ points (m.sizes (slice.map Range.size))) :
    boxAt (slice.map fun range => range.offset.eval m.arguments)
        ((slice.map Range.size).map fun _ => 1) index =
      boxAt (slice.map fun range => range.offset.eval m.arguments)
        (slice.map fun range => range.stride.eval m.arguments) index := by
  induction slice generalizing index with
  | nil => rfl
  | cons range slice ih =>
      rw [List.forall_mem_cons] at h
      cases index with
      | nil => simp [mem_points, Machine.sizes] at hindex
      | cons i index =>
          rw [List.map_cons, Machine.sizes_cons, cons_mem_points] at hindex
          simp only [List.map_cons, boxAt_cons]
          rw [ih h.2 hindex.2]
          congr 1
          rcases h.1 with hstride | hsize
          · rw [eval_of_isConstantIntValue hstride]
          · have hi : i < 1 := by
              have hlt := hindex.1
              rw [eval_of_isConstantIntValue hsize] at hlt
              exact hlt
            obtain rfl : i = 0 := by omega
            simp

/-- **A contiguous access has the elements of its slice.** -/
theorem accessIndices_eq {slice : List Range} {access : TransferAccess}
    (h : createTransferAccess slice = some access) : m.accessIndices access = m.indices slice := by
  obtain ⟨hsizes, hunits, hstart⟩ := createTransferAccess_ok (m := m) h
  unfold Machine.accessIndices Machine.indices box
  rw [hsizes, hstart]
  exact List.map_congr_left fun index hindex => boxAt_contiguous hunits hindex

/-! ## Splats -/

@[simp] theorem splatRange_offset (range : Range) : (splatRange range).offset = range.offset := by
  unfold splatRange
  split <;> rfl

@[simp] theorem splatRange_stride (range : Range) : (splatRange range).stride = range.stride := by
  unfold splatRange
  split <;> rfl

/-- An index of a splat, without the dimensions that are repeated. -/
theorem boxAt_splat {slice : List Range}
    (h : ∀ range ∈ slice, isConstantIntValue (splatRange range).stride 1 ∨
      isConstantIntValue (splatRange range).size 1)
    {index : List Nat} (hindex : index ∈ points (m.sizes (slice.map Range.size))) :
    boxAt (slice.map fun range => range.offset.eval m.arguments)
        ((slice.map fun range => (splatRange range).size).map fun _ => 1)
        (List.zipWith (fun i size => if size = 1 then 0 else i) index
          (m.sizes (slice.map fun range => (splatRange range).size))) =
      boxAt (slice.map fun range => range.offset.eval m.arguments)
        (slice.map fun range => range.stride.eval m.arguments) index := by
  induction slice generalizing index with
  | nil => rfl
  | cons range slice ih =>
      rw [List.forall_mem_cons] at h
      cases index with
      | nil => simp [mem_points, Machine.sizes] at hindex
      | cons i index =>
          rw [List.map_cons, Machine.sizes_cons, cons_mem_points] at hindex
          simp only [List.map_cons, Machine.sizes_cons, List.zipWith_cons_cons, boxAt_cons]
          rw [ih h.2 hindex.2]
          congr 1
          have hhead := h.1
          by_cases hzero : isConstantIntValue range.stride 0
          · -- A repeated dimension: the source has a single index there.
            have hsize : (splatRange range).size = .index 1 := by
              rw [splatRange, if_pos hzero]
            rw [hsize, eval_of_isConstantIntValue hzero]
            simp
          · rw [splatRange, if_neg hzero] at hhead ⊢
            rcases hhead with hstride | hsize
            · rw [eval_of_isConstantIntValue hstride]
              split
              · next hone =>
                  have hi : i < 1 := hone ▸ hindex.1
                  obtain rfl : i = 0 := by omega
                  rfl
              · rfl
            · have hone : (range.size.eval m.arguments).toNat = 1 := by
                rw [eval_of_isConstantIntValue hsize]
                rfl
              have hi : i < 1 := hone ▸ hindex.1
              obtain rfl : i = 0 := by omega
              simp

/-- **The transfer of a load has the loaded elements**, splat or not. -/
theorem transferIndices_eq {slice : List Range} {access : TransferAccess}
    (h : createTransferAccess (slice.map splatRange) = some access) :
    m.transferIndices (if isSplat slice then .splat else .copy) access (slice.map Range.size) =
      m.indices slice := by
  obtain ⟨hsizes, hunits, hstart⟩ := createTransferAccess_ok (m := m) h
  by_cases hsplat : isSplat slice
  · rw [if_pos hsplat]
    have hunits' : ∀ range ∈ slice, isConstantIntValue (splatRange range).stride 1 ∨
        isConstantIntValue (splatRange range).size 1 :=
      fun range hrange => hunits _ (List.mem_map_of_mem hrange)
    unfold Machine.transferIndices Machine.indices box
    apply List.map_congr_left
    intro index hindex
    rw [hsizes, hstart, List.map_map, List.map_map]
    simp only [Function.comp_def, splatRange_offset]
    have hbox := boxAt_splat hunits' hindex
    simpa only [List.map_map, Function.comp_def] using hbox
  · rw [if_neg hsplat]
    show m.accessIndices access = _
    rw [accessIndices_eq h]
    -- Nothing is repeated, so dimensions of stride zero have one index already.
    have hsize : ∀ range ∈ slice,
        (splatRange range).size.eval m.arguments = range.size.eval m.arguments := by
      intro range hrange
      unfold splatRange
      split
      · next hzero =>
          have hone : isConstantIntValue range.size 1 := by
            by_contra hne
            apply hsplat
            rw [isSplat, List.any_eq_true]
            exact ⟨range, hrange, by simp [hzero, hne]⟩
          rw [eval_of_isConstantIntValue hone]
          rfl
      · rfl
    unfold Machine.indices Machine.sizes
    simp only [List.map_map, Function.comp_def, splatRange_offset, splatRange_stride]
    congr 1
    apply List.map_congr_left
    intro range hrange
    rw [hsize range hrange]

/-! ## Slices of slices -/

/-- The elements of a tensor at an index of its shape. -/
theorem lookup_zip_map {α β : Type} [BEq α] [LawfulBEq α] {key : List Nat → α}
    (hkey : Function.Injective key) (f : List Nat → β) {l : List (List Nat)} {q : List Nat}
    (hq : q ∈ l) : ((l.map key).zip (l.map f)).lookup (key q) = some (f q) := by
  induction l with
  | nil => cases hq
  | cons p l ih =>
      rw [List.map_cons, List.map_cons, List.zip_cons_cons, List.lookup_cons]
      by_cases hp : q = p
      · subst hp
        simp
      · have hne : (key q == key p) = false := by
          rw [beq_eq_false_iff_ne]
          exact fun heq => hp (hkey heq)
        rw [hne]
        exact ih ((List.mem_cons.mp hq).resolve_left hp)

theorem boxAt_merge {loaded slice : List Range} (hlen : loaded.length = slice.length)
    {index q : List Nat}
    (hq : boxAt (slice.map fun range => range.offset.eval m.arguments)
      (slice.map fun range => range.stride.eval m.arguments) index = q.map Int.ofNat) :
    boxAt ((List.zipWith mergeRange loaded slice).map fun range => range.offset.eval m.arguments)
        ((List.zipWith mergeRange loaded slice).map fun range => range.stride.eval m.arguments)
        index =
      boxAt (loaded.map fun range => range.offset.eval m.arguments)
        (loaded.map fun range => range.stride.eval m.arguments) q := by
  induction loaded generalizing slice index q with
  | nil => rfl
  | cons l loaded ih =>
      cases slice with
      | nil => cases hlen
      | cons r slice =>
          cases index with
          | nil =>
              have hnil : q.map Int.ofNat = [] := hq.symm
              rw [List.map_eq_nil_iff] at hnil
              subst hnil
              rfl
          | cons i index =>
              cases q with
              | nil => cases hq
              | cons j q =>
                  simp only [List.map_cons, boxAt_cons, List.cons.injEq] at hq
                  simp only [List.zipWith_cons_cons, List.map_cons, boxAt_cons]
                  rw [ih (Nat.succ.inj hlen) hq.2]
                  congr 1
                  have hj : (j : Int) = r.offset.eval m.arguments + i * r.stride.eval m.arguments :=
                    hq.1.symm
                  simp only [mergeRange, eval_foldedBinary, BinaryKind.apply, hj]
                  ring

/-- An index of the merged slice is an index of the slice, which is an index of what was loaded. -/
theorem indices_merged {loaded slice merged : List Range} {shape : List Nat}
    (hmerged : mergeOffsetsSizesAndStrides loaded slice = some merged)
    (hfits : ∀ index ∈ m.indices slice, ∃ q ∈ points shape, index = q.map Int.ofNat) :
    merged.map Range.size = slice.map Range.size ∧
      ∀ index ∈ points (m.sizes (slice.map Range.size)), ∃ q ∈ points shape,
        boxAt (slice.map fun range => range.offset.eval m.arguments)
          (slice.map fun range => range.stride.eval m.arguments) index = q.map Int.ofNat ∧
        boxAt (merged.map fun range => range.offset.eval m.arguments)
          (merged.map fun range => range.stride.eval m.arguments) index =
        boxAt (loaded.map fun range => range.offset.eval m.arguments)
          (loaded.map fun range => range.stride.eval m.arguments) q := by
  unfold mergeOffsetsSizesAndStrides at hmerged
  split at hmerged
  · next hlen =>
      cases hmerged
      constructor
      · apply List.ext_getElem
        · simp [hlen]
        · intro i hi hi'
          simp [mergeRange]
      · intro index hindex
        obtain ⟨q, hq, heq⟩ := hfits _ (List.mem_map_of_mem hindex)
        exact ⟨q, hq, heq, boxAt_merge hlen heq⟩
  · cases hmerged

theorem mem_indices_of_merged {loaded slice merged : List Range}
    (hmerged : mergeOffsetsSizesAndStrides loaded slice = some merged)
    (hfits : ∀ index ∈ m.indices slice, ∃ q ∈ points (m.sizes (loaded.map Range.size)),
      index = q.map Int.ofNat) {i : List Int} (hi : i ∈ m.indices merged) : i ∈ m.indices loaded := by
  obtain ⟨hsizes, hindices⟩ := indices_merged hmerged hfits
  obtain ⟨index, hindex, rfl⟩ := List.mem_map.mp hi
  obtain ⟨q, hq, -, heq⟩ := hindices index (hsizes ▸ hindex)
  rw [heq]
  exact List.mem_map_of_mem hq

/-- **A slice of a loaded slice is the merged slice.** -/
theorem extract_indices [Inhabited V] {loaded slice merged : List Range}
    (hmerged : mergeOffsetsSizesAndStrides loaded slice = some merged)
    (hfits : ∀ index ∈ m.indices slice, ∃ q ∈ points (m.sizes (loaded.map Range.size)),
      index = q.map Int.ofNat) (f : List Int → V) :
    Machine.extract (m.sizes (loaded.map Range.size)) ((m.indices loaded).map f)
        (m.indices slice) = (m.indices merged).map f := by
  obtain ⟨hsizes, hindices⟩ := indices_merged hmerged hfits
  have hkey : Function.Injective fun p : List Nat => p.map Int.ofNat :=
    List.map_injective_iff.mpr fun a b h => Int.ofNat.inj h
  unfold Machine.extract Machine.indices box
  rw [hsizes, List.map_map, List.map_map, List.map_map]
  apply List.map_congr_left
  intro index hindex
  obtain ⟨q, hq, heq, hmergedAt⟩ := hindices index hindex
  show (List.lookup _ _).getD default = f (boxAt _ _ index)
  rw [hmergedAt, heq, lookup_zip_map hkey _ hq]
  rfl

end DataTransfers

end DataflowScheduler
