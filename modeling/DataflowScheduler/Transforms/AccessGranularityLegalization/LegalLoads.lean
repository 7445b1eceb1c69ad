import DataflowScheduler.Transforms.AccessGranularityLegalization
import Mathlib.Algebra.BigOperators.Group.List.Lemmas

/-!
# Legal loads

The required elements are those of the whole transfer, but they are written into the innermost dimension.
What comes of it is legal where there is one row, or where the rows together are a granule again.
-/

namespace DataflowScheduler

namespace AccessGranularityLegalization

/-! ## The innermost dimension -/

section Innermost

theorem dropLast_append_getLast {α : Type} {sizes : List α} (h : sizes ≠ []) :
    sizes = sizes.dropLast ++ [sizes.getLast h] := (List.dropLast_append_getLast h).symm

theorem prod_setBack (sizes : List Nat) (size : Nat) :
    (setBack sizes size).prod = sizes.dropLast.prod * size := by
  rw [setBack, List.prod_append, List.prod_singleton]

theorem setBack_ne_nil {α : Type} (sizes : List α) (size : α) : setBack sizes size ≠ [] := by
  rw [setBack]
  exact List.append_ne_nil_of_right_ne_nil _ (List.cons_ne_nil _ _)

theorem prod_eq_dropLast_mul {sizes : List Nat} (h : sizes ≠ []) :
    sizes.prod = sizes.dropLast.prod * sizes.getLast h := by
  conv_lhs => rw [dropLast_append_getLast h]
  rw [List.prod_append, List.prod_singleton]

theorem prod_pos {sizes : List Nat} (h : ∀ size ∈ sizes, 0 < size) : 0 < sizes.prod :=
  List.prod_pos_iff_forall_pos_nat.mpr h

theorem dropLast_prod_pos {sizes : List Nat} (h : ∀ size ∈ sizes, 0 < size) :
    0 < sizes.dropLast.prod :=
  prod_pos fun size hsize => h size (List.mem_of_mem_dropLast hsize)

theorem inBox_append_singleton {offsets sizes bounds : List Nat} {offset size bound : Nat} :
    InBox (offsets ++ [offset]) (sizes ++ [size]) (bounds ++ [bound]) ↔
      InBox offsets sizes bounds ∧ offset + size ≤ bound := by
  induction offsets generalizing sizes bounds with
  | nil =>
      cases sizes with
      | nil =>
          cases bounds with
          | nil => simp [InBox]
          | cons b bounds => cases bounds <;> simp [InBox]
      | cons s sizes => cases sizes <;> cases bounds <;> simp [InBox]
  | cons o offsets ih =>
      cases sizes with
      | nil => cases offsets <;> cases bounds <;> simp [InBox]
      | cons s sizes =>
          cases bounds with
          | nil => cases offsets <;> cases sizes <;> simp [InBox]
          | cons b bounds =>
              show (_ ∧ InBox (offsets ++ [offset]) (sizes ++ [size]) (bounds ++ [bound])) ↔
                (_ ∧ InBox offsets sizes bounds) ∧ _
              rw [ih, and_assoc]

theorem InBox.length {offsets sizes bounds : List Nat} (h : InBox offsets sizes bounds) :
    offsets.length = sizes.length ∧ bounds.length = sizes.length := by
  induction offsets generalizing sizes bounds with
  | nil =>
      cases sizes <;> cases bounds
      · exact ⟨rfl, rfl⟩
      · cases h
      · cases h
      · cases h
  | cons o offsets ih =>
      cases sizes with
      | nil => cases bounds <;> cases h
      | cons s sizes =>
          cases bounds with
          | nil => cases h
          | cons b bounds =>
              obtain ⟨hoffsets, hbounds⟩ := ih h.2
              exact ⟨congrArg Nat.succ hoffsets, congrArg Nat.succ hbounds⟩

theorem allocSizes_append_some {shape : List Dim} {dynamicSizes bounds : List Nat} {size : Nat} :
    allocSizes (shape ++ [some size]) dynamicSizes = some bounds ↔
      ∃ init, allocSizes shape dynamicSizes = some init ∧ bounds = init ++ [size] := by
  induction shape generalizing dynamicSizes bounds with
  | nil =>
      cases dynamicSizes with
      | nil =>
          show some [size] = some bounds ↔ ∃ init, some [] = some init ∧ _
          constructor
          · intro h
            cases h
            exact ⟨[], rfl, rfl⟩
          · rintro ⟨init, hinit, rfl⟩
            cases hinit
            rfl
      | cons d dynamicSizes =>
          constructor
          · intro h
            cases h
          · rintro ⟨init, hinit, -⟩
            cases hinit
  | cons dim shape ih =>
      -- the first size comes from the shape or from the operands
      have hstep : ∀ (s : Nat) (rest : List Nat),
          ((allocSizes (shape ++ [some size]) rest).map (s :: ·) = some bounds ↔
            ∃ init, (allocSizes shape rest).map (s :: ·) = some init ∧ bounds = init ++ [size]) := by
        intro s rest
        simp only [Option.map_eq_some_iff, ih]
        constructor
        · rintro ⟨_, ⟨init, hinit, rfl⟩, rfl⟩
          exact ⟨s :: init, ⟨init, hinit, rfl⟩, rfl⟩
        · rintro ⟨_, ⟨init, hinit, rfl⟩, rfl⟩
          exact ⟨init ++ [size], ⟨init, hinit, rfl⟩, rfl⟩
      cases dim with
      | some s => exact hstep s dynamicSizes
      | none =>
          cases dynamicSizes with
          | nil =>
              constructor
              · intro h
                cases h
              · rintro ⟨init, hinit, -⟩
                cases hinit
          | cons d dynamicSizes => exact hstep d dynamicSizes

theorem allocSizes_append {shape : List Dim} {dim : Dim} {dynamicSizes bounds : List Nat}
    (h : allocSizes (shape ++ [dim]) dynamicSizes = some bounds) :
    ∃ init last rest, allocSizes shape rest = some init ∧ bounds = init ++ [last] := by
  induction shape generalizing dynamicSizes bounds with
  | nil =>
      cases dim with
      | some size =>
          obtain ⟨init, hinit, rfl⟩ := allocSizes_append_some.mp h
          exact ⟨init, size, dynamicSizes, hinit, rfl⟩
      | none =>
          match dynamicSizes, h with
          | [d], h =>
              cases h
              exact ⟨[], d, [], rfl, rfl⟩
  | cons head shape ih =>
      cases head with
      | some s =>
          obtain ⟨rest, hrest, rfl⟩ := Option.map_eq_some_iff.mp h
          obtain ⟨init, last, operands, hinit, rfl⟩ := ih hrest
          exact ⟨s :: init, last, operands, congrArg (Option.map (s :: ·)) hinit, rfl⟩
      | none =>
          cases dynamicSizes with
          | nil => cases h
          | cons d dynamicSizes =>
              obtain ⟨rest, hrest, rfl⟩ := Option.map_eq_some_iff.mp h
              obtain ⟨init, last, operands, hinit, rfl⟩ := ih hrest
              exact ⟨d :: init, last, d :: operands, congrArg (Option.map (d :: ·)) hinit, rfl⟩

/-- The sizes of a static shape do not need operands. -/
theorem allocSizes_of_static {shape : List Dim} {rest init : List Nat}
    (hstatic : ∀ dim ∈ shape, dim.isSome) (h : allocSizes shape rest = some init) :
    allocSizes shape [] = some init := by
  induction shape generalizing rest init with
  | nil =>
      cases rest with
      | nil => exact h
      | cons _ _ => cases h
  | cons dim shape ih =>
      cases dim with
      | none => cases hstatic none List.mem_cons_self
      | some size =>
          obtain ⟨tail, htail, rfl⟩ := Option.map_eq_some_iff.mp h
          have hrest := ih (fun d hd => hstatic d (List.mem_cons_of_mem _ hd)) htail
          exact congrArg (Option.map (size :: ·)) hrest

theorem static_of_allocSizes {shape : List Dim} {bounds : List Nat}
    (h : allocSizes shape [] = some bounds) : ∀ dim ∈ shape, dim.isSome := by
  induction shape generalizing bounds with
  | nil => exact nofun
  | cons dim shape ih =>
      cases dim with
      | none => cases h
      | some size =>
          obtain ⟨tail, htail, -⟩ := Option.map_eq_some_iff.mp h
          intro d hd
          rcases List.mem_cons.mp hd with rfl | hd
          · rfl
          · exact ih htail d hd

end Innermost

/-! ## One run -/

section Run

variable {U M : Type} {resourceKinds : ResourceKinds U M} {t t' : DataTransfer U M}
  {sourceSizes destSizes : List Nat}

/-- The elements to load. -/
def required (resourceKinds : ResourceKinds U M) (t : DataTransfer U M) (elements : Nat) : Nat :=
  computeRequiredLoadElements (t.access resourceKinds) elements

/-- The transfer after a run that widens it. -/
def widened (t : DataTransfer U M) (sourceSizes destSizes : List Nat) (elements : Nat)
    (destination : Destination) : DataTransfer U M :=
  { t with
    staticSourceSizes := some (setBack sourceSizes elements)
    staticDestSizes := some (setBack destSizes elements)
    destination := destination }

theorem legalizeTransfer_eq (hmemref : t.isSourceMemRef = true)
    (hsource : t.staticSourceSizes = some sourceSizes) (hdest : t.staticDestSizes = some destSizes)
    (hne : sourceSizes ≠ []) :
    legalizeTransfer resourceKinds t =
      if required resourceKinds t sourceSizes.prod ≤ sourceSizes.prod then .ok t
      else (resizePrivate t.isPrivateAllocation t.destination
        (required resourceKinds t sourceSizes.prod)).map
          (widened t sourceSizes destSizes (required resourceKinds t sourceSizes.prod)) := by
  unfold legalizeTransfer
  rw [hmemref, hsource]
  rw [if_neg (by simp)]
  dsimp only
  rw [if_neg hne]
  congr 1
  unfold widenTransfer setInnermostStaticSourceSize
  rw [hsource]
  dsimp only
  rw [if_neg hne]
  dsimp only
  rw [hdest]
  rfl

theorem access_fits (hfits : FitsAccess resourceKinds) {access : Access}
    (haccess : t.access resourceKinds = some access) {words size : Nat}
    (h : access.fitAccess words = some size) :
    words ≤ size ∧ access.fitAccess size = some size := by
  unfold DataTransfer.access findAccess at haccess
  simp only [Option.bind_eq_bind, Option.bind_eq_some_iff] at haccess
  obtain ⟨unit, hunit, space, hspace, feature, hfeature, fitAccess, hfit, haccess⟩ := haccess
  split at haccess
  · split at haccess
    · cases haccess
      exact hfits unit space feature fitAccess hfeature hfit words size h
    · cases haccess
  · cases haccess

/-- A number of elements that is issued is a granule that nothing is to be added to. -/
theorem isGranule_iff (hfits : FitsAccess resourceKinds) {access : Access}
    (haccess : t.access resourceKinds = some access) (elements : Nat) :
    access.IsGranule elements ↔
      (∃ words, access.fitAccess words = some (access.wordsRequested elements)) ∧
        required resourceKinds t elements ≤ elements := by
  have hrequired : ∀ words, access.fitAccess (access.wordsRequested elements) = some words →
      required resourceKinds t elements = max (access.granuleElements words) elements := by
    intro words h
    unfold required computeRequiredLoadElements
    rw [haccess]
    dsimp only
    rw [h]
  constructor
  · rintro ⟨hgranule, hle⟩
    refine ⟨⟨_, hgranule⟩, ?_⟩
    rw [hrequired _ hgranule, max_eq_right hle]
  · rintro ⟨⟨words, hwords⟩, hle⟩
    have hgranule := (access_fits hfits haccess hwords).2
    rw [hrequired _ hgranule] at hle
    exact ⟨hgranule, Nat.le_trans (Nat.le_max_left _ _) hle⟩

/-! ### The destination -/

/-- A destination that was resized holds the widened box exactly if it can take its rows. -/
theorem holds_resized_iff (hwf : WellFormed t sourceSizes destSizes) {elements : Nat}
    {destination : Destination} (hpos : 0 < elements)
    (hresize : resizePrivate t.isPrivateAllocation t.destination elements = .ok destination) :
    destination.Holds (setBack destSizes elements) ↔
      t.destination.TakesRows destSizes.dropLast.prod elements := by
  cases hdest : t.destination with
  | fifo numElements =>
      rw [hdest, resizePrivate] at hresize
      split at hresize
      · cases hresize
        show elements = (setBack destSizes elements).prod ↔ destSizes.dropLast.prod = 1
        rw [prod_setBack]
        constructor
        · intro h
          exact Nat.eq_of_mul_eq_mul_right hpos (by rw [← h, Nat.one_mul])
        · intro h
          rw [h, Nat.one_mul]
      · cases hresize
  | memref shape dynamicSizes offset =>
      obtain ⟨bounds, hbounds, hinside⟩ := hdest ▸ hwf.dest_inside _ _ _ hdest
      obtain ⟨hoffset, hlength⟩ := hinside.length
      have hdestne := hwf.dest_ne_nil
      have hoffsetne : offset ≠ [] := by
        rw [← List.length_pos_iff, hoffset]
        exact List.length_pos_iff.mpr hdestne
      have hshapene : shape ≠ [] := by
        rintro rfl
        cases dynamicSizes with
        | nil =>
            cases hbounds
            exact hdestne (List.length_eq_zero_iff.mp hlength.symm)
        | cons _ _ => cases hbounds
      -- everything has its innermost dimension apart
      obtain ⟨outerShape, lastDim, rfl⟩ : ∃ init last, shape = init ++ [last] :=
        ⟨_, _, dropLast_append_getLast hshapene⟩
      obtain ⟨outerOffset, lastOffset, rfl⟩ : ∃ init last, offset = init ++ [last] :=
        ⟨_, _, dropLast_append_getLast hoffsetne⟩
      obtain ⟨outer, last, rfl⟩ : ∃ init last, destSizes = init ++ [last] :=
        ⟨_, _, dropLast_append_getLast hdestne⟩
      obtain ⟨init, bound, rest, hinit, rfl⟩ := allocSizes_append hbounds
      obtain ⟨houter, hlast⟩ := inBox_append_singleton.mp hinside
      simp only [setBack, List.dropLast_concat, Destination.TakesRows, List.getLast?_concat,
        Option.some.injEq]
      rw [hdest, resizePrivate, setBack, List.dropLast_concat] at hresize
      split at hresize
      · cases hresize
      split at hresize
      · next heq =>
          cases hresize
          have hdim : lastDim = some elements := by
            have := (List.append_inj' heq rfl).2
            simpa using this
          subst hdim
          show (∃ bounds', allocSizes (outerShape ++ [some elements]) dynamicSizes = some bounds' ∧
            InBox (outerOffset ++ [lastOffset]) (outer ++ [elements]) bounds') ↔ _
          obtain ⟨init', hinit', heq'⟩ := allocSizes_append_some.mp hbounds
          obtain ⟨rfl, hbound⟩ := List.append_inj' heq' rfl
          constructor
          · rintro ⟨bounds', hbounds', hin⟩
            obtain ⟨init'', -, rfl⟩ := allocSizes_append_some.mp hbounds'
            have hle := (inBox_append_singleton.mp hin).2
            exact ⟨by omega, .inl rfl⟩
          · rintro ⟨rfl, -⟩
            exact ⟨_, allocSizes_append_some.mpr ⟨_, hinit', rfl⟩,
              inBox_append_singleton.mpr ⟨houter, by omega⟩⟩
      · next hne =>
          cases hresize
          have hdim : lastDim ≠ some elements := fun heq => hne (by rw [heq])
          show (∃ bounds', allocSizes (outerShape ++ [some elements]) [] = some bounds' ∧
            InBox (outerOffset ++ [lastOffset]) (outer ++ [elements]) bounds') ↔ _
          constructor
          · rintro ⟨bounds', hbounds', hin⟩
            obtain ⟨init', hinit', rfl⟩ := allocSizes_append_some.mp hbounds'
            have hle := (inBox_append_singleton.mp hin).2
            exact ⟨by omega, .inr (static_of_allocSizes hinit')⟩
          · rintro ⟨rfl, hstatic⟩
            exact ⟨_, allocSizes_append_some.mpr
              ⟨_, allocSizes_of_static (hstatic.resolve_left hdim) hinit, rfl⟩,
              inBox_append_singleton.mpr ⟨houter, by omega⟩⟩

/-! ### The moves -/

theorem getD_points_zero {sizes : List Nat} (h : ∀ size ∈ sizes, 0 < size) :
    (RowMajor.points sizes).getD 0 [] = List.replicate sizes.length 0 := by
  induction sizes with
  | nil => rfl
  | cons size sizes ih =>
      have hpos := h size List.mem_cons_self
      obtain ⟨s, rfl⟩ := Nat.exists_eq_succ_of_ne_zero (Nat.ne_of_gt hpos)
      have hrest := ih fun s hs => h s (List.mem_cons_of_mem _ hs)
      have hne : 0 < (RowMajor.points sizes).length := by
        rw [RowMajor.length_points]
        exact prod_pos fun s hs => h s (List.mem_cons_of_mem _ hs)
      rw [RowMajor.points_cons, List.range_succ_eq_map, List.flatMap_cons,
        List.getD_eq_getElem?_getD, List.getElem?_append_left (by simpa using hne), List.getElem?_map,
        List.getElem?_eq_getElem hne, List.length_cons, List.replicate_succ, ← hrest,
        List.getD_eq_getElem?_getD, List.getElem?_eq_getElem hne]
      rfl

theorem zipWith_add_injective {offset a b : List Nat} (ha : offset.length = a.length)
    (hb : offset.length = b.length)
    (h : List.zipWith (· + ·) offset a = List.zipWith (· + ·) offset b) : a = b := by
  induction offset generalizing a b with
  | nil =>
      rw [List.length_eq_zero_iff.mp ha.symm, List.length_eq_zero_iff.mp hb.symm]
  | cons o offset ih =>
      match a, b, ha, hb with
      | x :: a, y :: b, ha, hb =>
          rw [List.zipWith_cons_cons, List.zipWith_cons_cons, List.cons.injEq] at h
          rw [Nat.add_left_cancel h.1, ih (Nat.succ.inj ha) (Nat.succ.inj hb) h.2]

theorem length_getD_points {sizes : List Nat} {k : Nat} (hk : k < sizes.prod) :
    ((RowMajor.points sizes).getD k []).length = sizes.length := by
  have hlt : k < (RowMajor.points sizes).length := by rwa [RowMajor.length_points]
  rw [List.getD_eq_getElem?_getD, List.getElem?_eq_getElem hlt]
  exact RowMajor.length_of_mem_points (List.getElem_mem hlt)

/-- Only the first element of a box has the indices of its corner. -/
theorem eq_zero_of_coordinates {offset sizes sizes' : List Nat} (hoffset : offset.length = sizes.length)
    (hlength : sizes'.length = sizes.length) (h : ∀ size ∈ sizes, 0 < size)
    (h' : ∀ size ∈ sizes', 0 < size) {k : Nat} (hk : k < sizes.prod)
    (heq : coordinates offset sizes k = coordinates offset sizes' 0) : k = 0 := by
  have hpoint := zipWith_add_injective (by rw [length_getD_points hk, hoffset])
    (by rw [length_getD_points (prod_pos h'), hlength, hoffset]) heq
  rw [getD_points_zero h', hlength, ← getD_points_zero h] at hpoint
  have hlt : k < (RowMajor.points sizes).length := by rwa [RowMajor.length_points]
  have hlt0 : 0 < (RowMajor.points sizes).length := by
    rw [RowMajor.length_points]
    exact prod_pos h
  rw [List.getD_eq_getElem?_getD, List.getElem?_eq_getElem hlt, List.getD_eq_getElem?_getD,
    List.getElem?_eq_getElem hlt0] at hpoint
  exact (RowMajor.nodup_points sizes).getElem_inj_iff.mp hpoint

theorem coordinates_row {offset outer : List Nat} {n m a b : Nat} (ha : a < outer.prod) (hn : b < n)
    (hm : b < m) : coordinates offset (outer ++ [n]) (a * n + b) =
      coordinates offset (outer ++ [m]) (a * m + b) := by
  rw [coordinates, coordinates, RowMajor.getD_points_append ha hn, RowMajor.getD_points_append ha hm]

/-- Every element is moved as before by wider rows. -/
theorem move_widened {outerSource outerDest : List Nat} {n elements : Nat} {destination : Destination}
    (hrows : outerSource.prod = outerDest.prod) (hle : n ≤ elements)
    (hdestination : ∀ k, destination.target (outerDest ++ [elements]) k =
      t.destination.target (outerDest ++ [elements]) k)
    (htakes : t.destination.TakesRows outerDest.prod elements)
    {k : Nat} (hk : k < (outerDest ++ [n]).prod) :
    ∃ k' < (outerDest ++ [elements]).prod,
      (widened t (outerSource ++ [n]) (outerDest ++ [n]) elements destination).move
        (outerSource ++ [elements]) (outerDest ++ [elements]) k' =
      t.move (outerSource ++ [n]) (outerDest ++ [n]) k := by
  rw [List.prod_append, List.prod_singleton] at hk
  have hn : 0 < n := Nat.pos_of_ne_zero fun hzero => by
    rw [hzero, Nat.mul_zero] at hk
    exact absurd hk (Nat.not_lt_zero k)
  have ha : k / n < outerDest.prod := by
    rw [Nat.div_lt_iff_lt_mul hn]
    exact hk
  have hb : k % n < n := Nat.mod_lt k hn
  have hb' : k % n < elements := Nat.lt_of_lt_of_le hb hle
  have hsplit : k / n * n + k % n = k := Nat.div_add_mod' k n
  have hlt : k / n * elements + k % n < outerDest.prod * elements := by
    calc k / n * elements + k % n
        < k / n * elements + elements := Nat.add_lt_add_left hb' _
      _ = (k / n + 1) * elements := by rw [Nat.add_mul, Nat.one_mul]
      _ ≤ outerDest.prod * elements := Nat.mul_le_mul_right _ ha
  refine ⟨k / n * elements + k % n, by rwa [List.prod_append, List.prod_singleton], ?_⟩
  refine Prod.ext ?_ ?_
  · show coordinates t.sourceOffset (outerSource ++ [elements])
      ((k / n * elements + k % n) % (outerSource ++ [elements]).prod) =
      coordinates t.sourceOffset (outerSource ++ [n]) (k % (outerSource ++ [n]).prod)
    rw [List.prod_append, List.prod_singleton, List.prod_append, List.prod_singleton, hrows,
      Nat.mod_eq_of_lt hlt, Nat.mod_eq_of_lt hk]
    conv_rhs => rw [← hsplit]
    exact coordinates_row (hrows ▸ ha) hb' hb
  · show destination.target _ _ = t.destination.target _ _
    rw [hdestination]
    cases hdest : t.destination with
    | fifo numElements =>
        rw [hdest] at htakes
        have hone : outerDest.prod = 1 := htakes
        have hzero : k / n = 0 := Nat.lt_one_iff.mp (hone ▸ ha)
        show [k / n * elements + k % n] = [k]
        rw [hzero] at hsplit ⊢
        rw [Nat.zero_mul, Nat.zero_add] at hsplit ⊢
        rw [hsplit]
    | memref shape dynamicSizes offset =>
        show coordinates offset _ _ = coordinates offset _ k
        conv_rhs => rw [← hsplit]
        exact coordinates_row ha hb' hb

/-- A transfer whose elements all stay where they were is no splat. -/
theorem prod_eq_of_moved (hwf : WellFormed t sourceSizes destSizes)
    {sourceSizes' destSizes' : List Nat} {destination : Destination} {elements : Nat}
    (hsource' : ∀ size ∈ sourceSizes', 0 < size) (hdest' : ∀ size ∈ destSizes', 0 < size)
    (hlength : sourceSizes'.length = sourceSizes.length) (hlength' : destSizes'.length = destSizes.length)
    (hprod : sourceSizes'.prod = destSizes'.prod)
    (htarget : ∀ k, destination.target destSizes' k = t.destination.target destSizes' k)
    (hmoved : ∀ k < destSizes.prod, ∃ k' < destSizes'.prod,
      (widened t sourceSizes destSizes elements destination).move sourceSizes' destSizes' k' =
        t.move sourceSizes destSizes k) : sourceSizes.prod = destSizes.prod := by
  have hpos := prod_pos hwf.source_pos
  by_contra hne
  have hlt : sourceSizes.prod < destSizes.prod :=
    Nat.lt_of_le_of_ne (Nat.le_of_dvd (prod_pos hwf.dest_pos) hwf.repeats) hne
  -- the first repeated element comes from the corner, but does not go there
  obtain ⟨k', hk', hmove⟩ := hmoved _ hlt
  have hfrom := congrArg Prod.fst hmove
  have hto := congrArg Prod.snd hmove
  change coordinates t.sourceOffset sourceSizes' (k' % sourceSizes'.prod) =
    coordinates t.sourceOffset sourceSizes (sourceSizes.prod % sourceSizes.prod) at hfrom
  change destination.target destSizes' k' = t.destination.target destSizes sourceSizes.prod at hto
  rw [Nat.mod_self, hprod, Nat.mod_eq_of_lt hk'] at hfrom
  have hzero : k' = 0 := eq_zero_of_coordinates (hwf.source_length.trans hlength.symm) hlength.symm
    hsource' hwf.source_pos (hprod ▸ hk') hfrom
  rw [hzero, htarget] at hto
  cases hdest : t.destination with
  | fifo numElements =>
      rw [hdest] at hto
      have heq : [0] = [sourceSizes.prod] := hto
      rw [List.cons.injEq] at heq
      exact Nat.ne_of_gt hpos heq.1.symm
  | memref shape dynamicSizes offset =>
      obtain ⟨bounds, -, hinside⟩ := hdest ▸ hwf.dest_inside _ _ _ hdest
      rw [hdest] at hto
      have heq := eq_zero_of_coordinates hinside.length.1 hlength' hwf.dest_pos hdest' hlt hto.symm
      exact Nat.ne_of_gt hpos heq

theorem target_resized {elements : Nat} {destination : Destination}
    (hresize : resizePrivate t.isPrivateAllocation t.destination elements = .ok destination)
    (sizes : List Nat) (k : Nat) : destination.target sizes k = t.destination.target sizes k := by
  unfold resizePrivate at hresize
  split at hresize
  · next hdest =>
      split at hresize
      · cases hresize
        rw [hdest]
        rfl
      · cases hresize
  · next hdest =>
      split at hresize
      · cases hresize
      · dsimp only at hresize
        split at hresize
        · cases hresize
          rw [hdest]
        · cases hresize
          rw [hdest]
          rfl

end Run

/-! ## Legal transfers -/

section Legal

variable {U M : Type} {resourceKinds : ResourceKinds U M} {t t' : DataTransfer U M}
  {sourceSizes destSizes : List Nat}

theorem required_eq {access : Access} (haccess : t.access resourceKinds = some access) {elements : Nat}
    {words : Nat} (hwords : access.fitAccess (access.wordsRequested elements) = some words) :
    required resourceKinds t elements = max (access.granuleElements words) elements := by
  unfold required computeRequiredLoadElements
  rw [haccess]
  dsimp only
  rw [hwords]

/-- Without a granule nothing is required. -/
theorem exists_of_required_lt {elements : Nat} (h : elements < required resourceKinds t elements) :
    ∃ access words, t.access resourceKinds = some access ∧
      access.fitAccess (access.wordsRequested elements) = some words ∧
      required resourceKinds t elements = access.granuleElements words ∧
      elements < access.granuleElements words := by
  unfold required at h ⊢
  cases haccess : t.access resourceKinds with
  | none =>
      rw [haccess] at h
      exact absurd h (Nat.lt_irrefl _)
  | some access =>
      rw [haccess] at h
      cases hwords : access.fitAccess (access.wordsRequested elements) with
      | none =>
          rw [computeRequiredLoadElements, hwords] at h
          exact absurd h (Nat.lt_irrefl _)
      | some words =>
          rw [computeRequiredLoadElements, hwords] at h
          dsimp only at h
          have hlt : elements < access.granuleElements words := by omega
          refine ⟨access, words, rfl, hwords, ?_, hlt⟩
          rw [computeRequiredLoadElements, hwords]
          exact max_eq_left (Nat.le_of_lt hlt)

/-- A transfer that is not widened. -/
theorem legalized_unchanged_iff (hfits : FitsAccess resourceKinds)
    (hwf : WellFormed t sourceSizes destSizes)
    (hle : required resourceKinds t sourceSizes.prod ≤ sourceSizes.prod)
    {sourceSizes' destSizes' : List Nat} (hsource : t.staticSourceSizes = some sourceSizes')
    (hdest : t.staticDestSizes = some destSizes') :
    Legalized resourceKinds t sourceSizes destSizes t sourceSizes' destSizes' ↔
      Legalizable resourceKinds t sourceSizes destSizes := by
  rw [hwf.staticSourceSizes, Option.some.injEq] at hsource
  rw [hwf.staticDestSizes, Option.some.injEq] at hdest
  subst hsource hdest
  have hagain : legalizeTransfer resourceKinds t = .ok t := by
    rw [legalizeTransfer_eq hwf.isSourceMemRef hwf.staticSourceSizes hwf.staticDestSizes
      hwf.source_ne_nil, if_pos hle]
  constructor
  · intro h
    obtain ⟨access, words, haccess, hwords⟩ := h.issued
    have hgranule := (access_fits hfits haccess hwords).2
    have hrequired := required_eq haccess hgranule
    refine ⟨h.agree, access, _, haccess, hgranule, ?_⟩
    rw [hrequired] at hle
    rw [if_pos (Nat.le_trans (Nat.le_max_left _ _) hle)]
    refine ⟨rfl, ?_⟩
    have hholds := h.holds
    cases hdest : t.destination with
    | fifo numElements =>
        rw [hdest] at hholds
        exact Eq.trans hholds h.agree.symm
    | memref _ _ _ => trivial
  · rintro ⟨hagree, access, words, haccess, hwords, hcases⟩
    have hrequired := required_eq haccess hwords
    rw [hrequired] at hle
    rw [if_pos (Nat.le_trans (Nat.le_max_left _ _) hle)] at hcases
    obtain ⟨heq, hfit⟩ := hcases
    refine ⟨hwf.staticSourceSizes, hwf.staticDestSizes, hagree, Nat.le_refl _,
      ⟨access, _, haccess, by rw [heq]; exact hwords⟩, ?_, fun k hk => ⟨k, hk, rfl⟩, hagain⟩
    cases hdest : t.destination with
    | fifo numElements =>
        rw [hdest] at hfit
        exact Eq.trans hfit hagree
    | memref _ _ _ =>
        rw [← hdest]
        exact hwf.dest_inside _ _ _ hdest

/-- A transfer that is widened. -/
theorem legalized_widened_iff (hfits : FitsAccess resourceKinds)
    (hwf : WellFormed t sourceSizes destSizes) {access : Access} {words : Nat}
    (haccess : t.access resourceKinds = some access)
    (hwords : access.fitAccess (access.wordsRequested sourceSizes.prod) = some words)
    (hlt : sourceSizes.prod < access.granuleElements words) {destination : Destination}
    (hresize : resizePrivate t.isPrivateAllocation t.destination (access.granuleElements words) =
      .ok destination) :
    Legalized resourceKinds t sourceSizes destSizes
      (widened t sourceSizes destSizes (access.granuleElements words) destination)
      (setBack sourceSizes (access.granuleElements words))
      (setBack destSizes (access.granuleElements words)) ↔
    Legalizable resourceKinds t sourceSizes destSizes := by
  generalize helements : access.granuleElements words = elements at hlt hresize ⊢
  have hpos : 0 < elements := Nat.lt_of_le_of_lt (Nat.zero_le _) hlt
  have hrows := dropLast_prod_pos hwf.source_pos
  -- the second run is asked for the widened rows
  have hagain : legalizeTransfer resourceKinds (widened t sourceSizes destSizes elements destination) =
      .ok (widened t sourceSizes destSizes elements destination) ↔
        required resourceKinds t (sourceSizes.dropLast.prod * elements) ≤
          sourceSizes.dropLast.prod * elements := by
    rw [@legalizeTransfer_eq U M resourceKinds (widened t sourceSizes destSizes elements destination)
      (setBack sourceSizes elements) (setBack destSizes elements) hwf.isSourceMemRef rfl rfl
      (setBack_ne_nil _ _), prod_setBack]
    show (if required resourceKinds t (sourceSizes.dropLast.prod * elements) ≤ _ then _ else _) = _ ↔ _
    split
    · next hle => exact iff_of_true rfl hle
    · next hgt =>
        refine iff_of_false (fun h => ?_) hgt
        cases hresult : resizePrivate t.isPrivateAllocation destination
            (required resourceKinds t (sourceSizes.dropLast.prod * elements)) with
        | error e =>
            change Except.map _ (resizePrivate t.isPrivateAllocation destination
              (required resourceKinds t (sourceSizes.dropLast.prod * elements))) = _ at h
            rw [hresult] at h
            cases h
        | ok result =>
            change Except.map _ (resizePrivate t.isPrivateAllocation destination
              (required resourceKinds t (sourceSizes.dropLast.prod * elements))) = _ at h
            rw [hresult] at h
            have hsizes := congrArg DataTransfer.staticSourceSizes (Except.ok.inj h)
            have heq : setBack (setBack sourceSizes elements)
                (required resourceKinds t (sourceSizes.dropLast.prod * elements)) =
                setBack sourceSizes elements := Option.some.inj hsizes
            rw [setBack, setBack, List.dropLast_concat] at heq
            have hlast := List.singleton_injective (List.append_inj' heq rfl).2
            rw [hlast] at hgt
            exact hgt (Nat.le_mul_of_pos_left _ hrows)
  have hholds := holds_resized_iff hwf hpos hresize
  have hgranule := isGranule_iff hfits haccess (sourceSizes.dropLast.prod * elements)
  have hsource' : ∀ size ∈ setBack sourceSizes elements, 0 < size := by
    intro size hsize
    rcases List.mem_append.mp hsize with hsize | hsize
    · exact hwf.source_pos size (List.mem_of_mem_dropLast hsize)
    · exact List.mem_singleton.mp hsize ▸ hpos
  have hdest' : ∀ size ∈ setBack destSizes elements, 0 < size := by
    intro size hsize
    rcases List.mem_append.mp hsize with hsize | hsize
    · exact hwf.dest_pos size (List.mem_of_mem_dropLast hsize)
    · exact List.mem_singleton.mp hsize ▸ hpos
  have hlength : ∀ sizes : List Nat, sizes ≠ [] → (setBack sizes elements).length = sizes.length := by
    intro sizes hne
    have := List.length_pos_iff.mpr hne
    rw [setBack, List.length_append, List.length_dropLast, List.length_singleton]
    omega
  have htarget := target_resized hresize
  constructor
  · intro h
    have hprod := h.agree
    have hagree := prod_eq_of_moved hwf hsource' hdest' (hlength _ hwf.source_ne_nil)
      (hlength _ hwf.dest_ne_nil) hprod (htarget _) h.moved
    rw [prod_setBack, prod_setBack] at hprod
    have houter := Nat.eq_of_mul_eq_mul_right hpos hprod
    refine ⟨hagree, access, words, haccess, hwords, ?_⟩
    rw [helements, if_neg (Nat.not_le.mpr hlt)]
    refine ⟨houter, hgranule.mpr ⟨?_, hagain.mp h.again⟩, ?_⟩
    · obtain ⟨access', words', haccess', hwords'⟩ := h.issued
      rw [haccess, Option.some.injEq] at haccess'
      subst haccess'
      rw [prod_setBack] at hwords'
      exact ⟨words', hwords'⟩
    · rw [houter]
      exact hholds.mp h.holds
  · rintro ⟨hagree, access', words', haccess', hwords', hcases⟩
    rw [haccess, Option.some.injEq] at haccess'
    subst haccess'
    rw [hwords, Option.some.injEq] at hwords'
    subst hwords'
    rw [helements, if_neg (Nat.not_le.mpr hlt)] at hcases
    obtain ⟨houter, hissued, htakes⟩ := hcases
    obtain ⟨⟨words', hwords'⟩, hle⟩ := hgranule.mp hissued
    rw [houter] at htakes
    refine ⟨rfl, rfl, by rw [prod_setBack, prod_setBack, houter], ?_,
      ⟨access, words', haccess, by rw [prod_setBack]; exact hwords'⟩, hholds.mpr htakes, ?_,
      hagain.mpr hle⟩
    · rw [prod_setBack]
      exact Nat.le_trans (Nat.le_of_lt hlt) (Nat.le_mul_of_pos_left _ hrows)
    · -- the rows of both boxes are of the same length
      have hinner : sourceSizes.getLast hwf.source_ne_nil = destSizes.getLast hwf.dest_ne_nil := by
        rw [prod_eq_dropLast_mul hwf.source_ne_nil, prod_eq_dropLast_mul hwf.dest_ne_nil, houter]
          at hagree
        exact Nat.eq_of_mul_eq_mul_left (houter ▸ hrows) hagree
      have hshort : destSizes.getLast hwf.dest_ne_nil ≤ elements := by
        rw [← hinner]
        apply Nat.le_trans _ (Nat.le_of_lt hlt)
        rw [prod_eq_dropLast_mul hwf.source_ne_nil]
        exact Nat.le_mul_of_pos_left _ hrows
      intro k hk
      have hmove := move_widened (t := t) houter hshort (htarget _) htakes
        (n := destSizes.getLast hwf.dest_ne_nil) (k := k)
        (by rwa [← dropLast_append_getLast hwf.dest_ne_nil])
      rw [← dropLast_append_getLast hwf.dest_ne_nil, ← hinner,
        ← dropLast_append_getLast hwf.source_ne_nil] at hmove
      exact hmove

/-- **Legal loads**: a load is legalized exactly if its granule is known and it is a granule already, or its
widened rows are one that the destination can take. -/
theorem legalizeTransfer_legal_iff (hfits : FitsAccess resourceKinds)
    (hwf : WellFormed t sourceSizes destSizes) (hrun : legalizeTransfer resourceKinds t = .ok t') :
    (∃ sourceSizes' destSizes', Legalized resourceKinds t sourceSizes destSizes t' sourceSizes'
      destSizes') ↔ Legalizable resourceKinds t sourceSizes destSizes := by
  rw [legalizeTransfer_eq hwf.isSourceMemRef hwf.staticSourceSizes hwf.staticDestSizes
    hwf.source_ne_nil] at hrun
  split at hrun
  · next hle =>
      cases hrun
      constructor
      · rintro ⟨_, _, h⟩
        exact (legalized_unchanged_iff hfits hwf hle h.staticSourceSizes h.staticDestSizes).mp h
      · intro h
        exact ⟨_, _, (legalized_unchanged_iff hfits hwf hle hwf.staticSourceSizes
          hwf.staticDestSizes).mpr h⟩
  · next hgt =>
      obtain ⟨access, words, haccess, hwords, hrequired, hlt⟩ :=
        exists_of_required_lt (Nat.not_le.mp hgt)
      rw [hrequired] at hrun
      cases hresize : resizePrivate t.isPrivateAllocation t.destination
          (access.granuleElements words) with
      | error e =>
          rw [hresize] at hrun
          cases hrun
      | ok destination =>
          rw [hresize] at hrun
          cases hrun
          have hiff := legalized_widened_iff hfits hwf haccess hwords hlt hresize
          constructor
          · rintro ⟨sourceSizes', destSizes', h⟩
            have hsource : setBack sourceSizes (access.granuleElements words) = sourceSizes' :=
              Option.some.inj h.staticSourceSizes
            have hdest : setBack destSizes (access.granuleElements words) = destSizes' :=
              Option.some.inj h.staticDestSizes
            subst hsource hdest
            exact hiff.mp h
          · intro h
            exact ⟨_, _, hiff.mpr h⟩

end Legal

/-! ### Two loads -/

/-- A unit that loads 2, 8 or 64 words of a byte. -/
def byteWords (words : Nat) : Option Nat :=
  if words ≤ 2 then some 2 else if words ≤ 8 then some 8 else if words ≤ 64 then some 64 else none

def byteUnit : ResourceKinds Unit Unit := ⟨fun _ => some ⟨fun _ => some byteWords, fun _ => 1⟩⟩

theorem byteUnit_fits : FitsAccess byteUnit := by
  intro _ _ feature fitAccess hfeature hfit words size h
  cases hfeature
  cases hfit
  unfold byteWords at h ⊢
  split at h
  · cases h
    exact ⟨by omega, rfl⟩
  · split at h
    · cases h
      exact ⟨by omega, rfl⟩
    · split at h
      · cases h
        exact ⟨by omega, rfl⟩
      · cases h

/-- A load of 32-bit elements into a private buffer of the same sizes. -/
def loadOf (sizes : List Nat) : DataTransfer Unit Unit where
  unitKind := some ()
  memorySpace := some ()
  elemBits := 32
  isSourceMemRef := true
  sourceOffset := sizes.map fun _ => 0
  staticSourceSizes := some sizes
  staticDestSizes := some sizes
  destination := .memref (sizes.map some) [] (sizes.map fun _ => 0)
  isPrivateAllocation := true

theorem loadOf_wellFormed {sizes : List Nat} (hne : sizes ≠ []) (hpos : ∀ size ∈ sizes, 0 < size) :
    WellFormed (loadOf sizes) sizes sizes := by
  refine ⟨rfl, rfl, rfl, hne, hne, hpos, hpos, List.length_map _, Nat.dvd_refl _,
    fun shape dynamicSizes offset hdest => ⟨sizes, ?_, ?_⟩⟩
  · clear hne hpos hdest
    induction sizes with
    | nil => rfl
    | cons size sizes ih => exact congrArg (Option.map (size :: ·)) ih
  · clear hne hpos hdest
    induction sizes with
    | nil => trivial
    | cons size sizes ih => exact ⟨Nat.le_of_eq (Nat.zero_add size), ih⟩

example : (computeRequiredLoadElements ((loadOf [1]).access byteUnit) 1,
    computeRequiredLoadElements ((loadOf [2, 3]).access byteUnit) 6) = (2, 16) := by decide

theorem loadOf_one_legal : ∃ t', legalizeTransfer byteUnit (loadOf [1]) = .ok t' ∧
    ∃ sourceSizes' destSizes', Legalized byteUnit (loadOf [1]) [1] [1] t' sourceSizes' destSizes' := by
  refine ⟨_, rfl, (legalizeTransfer_legal_iff byteUnit_fits
    (loadOf_wellFormed (by decide) (by decide)) rfl).mpr ⟨rfl, _, 8, rfl, rfl, ?_⟩⟩
  split
  · next hle => exact absurd hle (by decide)
  · exact ⟨rfl, ⟨rfl, by decide⟩, rfl, .inr (by decide)⟩

/-- Two rows of 3 elements are 24 bytes, for which 16 elements are loaded: in each of the rows. -/
theorem loadOf_rows_illegal : FitsAccess byteUnit ∧ WellFormed (loadOf [2, 3]) [2, 3] [2, 3] ∧
    ∃ t', legalizeTransfer byteUnit (loadOf [2, 3]) = .ok t' ∧
      t'.staticSourceSizes = some [2, 16] ∧
      ¬∃ sourceSizes' destSizes',
        Legalized byteUnit (loadOf [2, 3]) [2, 3] [2, 3] t' sourceSizes' destSizes' := by
  refine ⟨byteUnit_fits, loadOf_wellFormed (by decide) (by decide), _, rfl, rfl, ?_⟩
  rintro ⟨sourceSizes', destSizes', h⟩
  have hsource : [2, 16] = sourceSizes' := Option.some.inj h.staticSourceSizes
  subst hsource
  obtain ⟨access, words, haccess, hwords⟩ := h.issued
  cases haccess
  -- no granule has 128 words
  have hgranule : byteWords words = some 128 := hwords
  unfold byteWords at hgranule
  split at hgranule
  · cases hgranule
  · split at hgranule
    · cases hgranule
    · split at hgranule
      · cases hgranule
      · cases hgranule

end AccessGranularityLegalization

end DataflowScheduler
