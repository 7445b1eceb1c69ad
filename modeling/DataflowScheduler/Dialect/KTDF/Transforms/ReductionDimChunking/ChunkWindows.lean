import DataflowScheduler.Dialect.KTDF.Transforms.ReductionDimChunking
import Mathlib.Algebra.BigOperators.Group.List.Lemmas
import Mathlib.Data.List.GetD
import Mathlib.Tactic.Ring

/-!
# Chunks that fit

The count of chunks is inferred and distributed over all reduction dimensions, and only then is the
innermost loop left out. What it took of the count is missing: the chunks fit exactly if it took nothing.
-/

namespace DataflowScheduler

namespace ReductionDimChunking

/-! ## The inferred count -/

theorem div_le_iff_smallestCount_le (totalBytes : Nat) {n : Nat} {threshold : Int} (hn : 0 < n)
    (hthreshold : 0 ≤ threshold) :
    ((totalBytes / n : Nat) : Int) ≤ threshold ↔ smallestCount totalBytes threshold ≤ n := by
  obtain ⟨t, rfl⟩ := Int.eq_ofNat_of_zero_le hthreshold
  rw [smallestCount, Int.toNat_natCast, Int.ofNat_le, Nat.succ_le_iff,
    Nat.div_lt_iff_lt_mul (Nat.succ_pos t), ← Nat.lt_succ_iff, Nat.div_lt_iff_lt_mul hn, Nat.mul_comm]

theorem inferChunks_eq_some {totalBytes maxChunks n : Nat} {threshold : Int}
    (h : inferChunks totalBytes maxChunks threshold = some n) :
    0 ≤ threshold ∧ n = smallestCount totalBytes threshold ∧ n ≤ maxChunks := by
  obtain ⟨hle, hmem, hsmallest⟩ := List.find?_range'_eq_some.mp h
  rw [List.mem_range'_1] at hmem
  rw [decide_eq_true_iff] at hle
  have hthreshold : 0 ≤ threshold := Int.le_trans (Int.natCast_nonneg _) hle
  refine ⟨hthreshold, ?_, by omega⟩
  have hcount := (div_le_iff_smallestCount_le totalBytes (by omega) hthreshold).mp hle
  rcases Nat.lt_or_eq_of_le hcount with hlt | heq
  · have hnot := hsmallest _ (Nat.succ_pos _) hlt
    rw [Bool.not_eq_true', decide_eq_false_iff_not,
      div_le_iff_smallestCount_le totalBytes (Nat.succ_pos _) hthreshold] at hnot
    exact absurd (Nat.le_refl _) hnot
  · exact heq.symm

theorem staticSizes_eq_some {dims : List Dim} {sizes : List Nat} :
    staticSizes dims = some sizes ↔ dims = sizes.map some := by
  induction dims generalizing sizes with
  | nil =>
      rw [staticSizes, List.mapM_nil]
      constructor
      · intro h
        cases h
        rfl
      · intro h
        rw [List.map_eq_nil_iff.mp h.symm]
        rfl
  | cons dim dims ih =>
      rw [staticSizes, List.mapM_cons]
      cases dim with
      | none =>
          constructor
          · intro h
            cases h
          · intro h
            cases sizes with
            | nil => cases h
            | cons size sizes => cases (List.cons.inj h).1
      | some size =>
          show (staticSizes dims).bind (fun rest => some (size :: rest)) = some sizes ↔ _
          rw [Option.bind_eq_some_iff]
          constructor
          · rintro ⟨rest, hrest, heq⟩
            cases heq
            rw [ih.mp hrest, List.map_cons]
          · intro h
            cases sizes with
            | nil => cases h
            | cons size' rest =>
                rw [List.map_cons, List.cons.injEq, Option.some.injEq] at h
                obtain ⟨rfl, hrest⟩ := h
                exact ⟨rest, ih.mpr hrest, rfl⟩

/-! ## Plans -/

/-- What is known of a plan for a given input: the loops have the sizes `outer`, and take `qs` of the
count. -/
structure Planned (g : GenericOp) (threshold : Int) (bitWidth elements : Nat) (outer qs : List Nat)
    (plan : ChunkPlan) : Prop where
  reductionDims : plan.reductionDims = chunkableDims g
  loopRanges : (chunkableDims g).map (fun dim => g.loopRanges.getD dim none) = outer.map some
  chunkSizes : ∃ rest, plan.chunkSizes = (List.zipWith (· / ·) outer qs).map some ++ rest
  perDimNumChunks : plan.perDimNumChunks = qs
  divides : List.Forall₂ (· ∣ ·) qs outer
  positive : ∀ size ∈ outer, 0 < size
  threshold_nonneg : 0 ≤ threshold
  count_pos : 0 < smallestCount (bitWidth / 8 * elements) threshold % 2 ^ 32
  prod_eq : qs.prod =
    Nat.gcd (smallestCount (bitWidth / 8 * elements) threshold % 2 ^ 32) outer.prod
  chunked : ¬qs.all (· == 1)

theorem getReductionDims_nodup (g : GenericOp) : g.getReductionDims.Nodup :=
  List.nodup_range.filter _

theorem chunkableDims_append (g : GenericOp) :
    ∃ rest, g.getReductionDims = chunkableDims g ++ rest := by
  unfold chunkableDims
  split
  · next hlast => exact ⟨_, (List.dropLast_append_getLast? _ hlast).symm⟩
  · exact ⟨[], (List.append_nil _).symm⟩

theorem chunkableDims_nodup (g : GenericOp) : (chunkableDims g).Nodup := by
  obtain ⟨rest, hrest⟩ := chunkableDims_append g
  have hnodup := getReductionDims_nodup g
  rw [hrest] at hnodup
  exact (List.nodup_append.mp hnodup).1

/-- The innermost loop is left out. -/
theorem notMem_chunkableDims (g : GenericOp) : g.numLoops - 1 ∉ chunkableDims g := by
  unfold chunkableDims
  split
  · next hlast =>
      have happend := List.dropLast_append_getLast? _ hlast
      have hnodup := getReductionDims_nodup g
      rw [← happend] at hnodup
      intro hmem
      exact (List.nodup_append.mp hnodup).2.2 _ hmem _ (List.mem_singleton.mpr rfl) rfl
  · next hlast =>
      intro hmem
      apply hlast
      -- the last dimension would be the largest one
      have hfilter := List.mem_filter.mp hmem
      have hlt := List.mem_range.mp hfilter.1
      obtain ⟨k, hk⟩ : ∃ k, g.numLoops = k + 1 := ⟨g.numLoops - 1, by omega⟩
      have hk' : g.numLoops - 1 = k := by omega
      rw [hk'] at hfilter ⊢
      rw [GenericOp.getReductionDims, hk, List.range_succ, List.filter_append,
        List.filter_cons, if_pos hfilter.2, List.filter_nil, List.getLast?_append]
      rfl

theorem chunkableSize_eq {g : GenericOp} {outer : List Nat}
    (h : (chunkableDims g).map (fun dim => g.loopRanges.getD dim none) = outer.map some) :
    chunkableSize g = outer.prod := by
  have hmap : (chunkableDims g).map (fun dim => (g.loopRanges.getD dim none).getD 0) = outer := by
    have hget := congrArg (List.map fun d : Dim => d.getD 0) h
    rw [List.map_map, List.map_map] at hget
    rw [show outer = outer.map ((fun d : Dim => d.getD 0) ∘ some) from (List.map_id _).symm]
    exact hget
  rw [chunkableSize, hmap]

theorem zipWith_dimNumChunks {sizes qs : List Nat} (h : List.Forall₂ (· ∣ ·) qs sizes)
    (hpos : ∀ size ∈ sizes, 0 < size) :
    List.zipWith dimNumChunks (sizes.map some) ((List.zipWith (· / ·) sizes qs).map some) = qs := by
  induction h with
  | nil => rfl
  | cons hq _ ih =>
      rw [List.zipWith_cons_cons, List.map_cons, List.map_cons, List.zipWith_cons_cons,
        ih fun size hsize => hpos size (List.mem_cons_of_mem _ hsize)]
      congr 1
      exact Nat.div_div_self hq (Nat.ne_of_gt (hpos _ List.mem_cons_self))

theorem analyzeReductionChunks_eq_some {g : GenericOp} {threshold : Int}
    {result : ReductionChunkResult} (h : analyzeReductionChunks g threshold = some result) :
    ∃ type bits sizes, g.inputType = some type ∧ type.bitWidth = some bits ∧
      staticSizes type.shape = some sizes ∧ 0 ≤ threshold ∧
      smallestCount (bits / 8 * sizes.prod) threshold ≤ result.redDimSizes.prod ∧
      0 < smallestCount (bits / 8 * sizes.prod) threshold % 2 ^ 32 ∧
      result.numChunks = smallestCount (bits / 8 * sizes.prod) threshold % 2 ^ 32 ∧
      g.getReductionDims.map (fun dim => g.loopRanges.getD dim none) =
        result.redDimSizes.map some := by
  unfold analyzeReductionChunks at h
  dsimp only at h
  split at h
  · cases h
  · simp only [Option.bind_eq_bind, Option.bind_eq_some_iff] at h
    obtain ⟨type, htype, bits, hbits, sizes, hsizes, redSizes, hred, n, hn, hresult⟩ := h
    split at hresult
    · cases hresult
    · next hne =>
        cases hresult
        obtain ⟨hthreshold, rfl, hle⟩ := inferChunks_eq_some hn
        exact ⟨type, bits, sizes, htype, hbits, hsizes, hthreshold, hle, Nat.pos_of_ne_zero hne, rfl,
          staticSizes_eq_some.mp hred⟩

/-- The plan made for a given input. -/
theorem planned_of_chunked {g : GenericOp} {threshold : Int} {plan : ChunkPlan}
    (h : transformPipeline g [] threshold = .chunked plan) :
    ∃ type bits sizes outer qs, g.inputType = some type ∧ type.bitWidth = some bits ∧
      staticSizes type.shape = some sizes ∧ Planned g threshold bits sizes.prod outer qs plan := by
  unfold transformPipeline at h
  split at h
  · cases h
  rw [if_pos rfl] at h
  unfold autoPlan at h
  split at h
  · cases h
  split at h
  · cases h
  next result hresult =>
  obtain ⟨type, bits, sizes, htype, hbits, hsizes, hthreshold, hle, hpos, hcount, hred⟩ :=
    analyzeReductionChunks_eq_some hresult
  obtain ⟨n, hn⟩ : ∃ n, smallestCount (bits / 8 * sizes.prod) threshold % 2 ^ 32 = n := ⟨_, rfl⟩
  rw [hn] at hpos hcount
  split at h
  · cases h
  next chunkDims hdims =>
  rw [hcount, computeChunkDims_map_some _ hpos] at hdims
  split at hdims
  case isFalse => cases hdims
  next hdvd =>
  cases hdims
  unfold finishPlan at h
  split at h
  · cases h
  next hchunked =>
  cases h
  obtain ⟨rest, hrest⟩ := chunkableDims_append g
  -- the sizes of the loops are a part of the sizes of the reduction dimensions
  rw [hrest, List.map_append] at hred
  obtain ⟨outer, inner, hsplit, houter, hinner⟩ := List.map_eq_append_iff.mp hred.symm
  have hlength : outer.length = (chunkableDims g).length := by
    rw [← List.length_map (f := some), houter, List.length_map]
  have hprod : 0 < result.redDimSizes.prod := Nat.lt_of_lt_of_le (Nat.succ_pos _) hle
  have hpositive := List.prod_pos_iff_forall_pos_nat.mp hprod
  have hcounts := zipWith_dimNumChunks (forall₂_quotients result.redDimSizes n) hpositive
  have hquot := quotients_append outer inner n
  have htake : (quotients result.redDimSizes n).take (chunkableDims g).length =
      quotients outer n := by
    rw [hsplit, hquot, ← hlength]
    exact List.take_left' (length_quotients _ _)
  refine ⟨type, bits, sizes, outer, quotients outer n, htype, hbits, hsizes, rfl, houter.symm, ?_, ?_,
    forall₂_quotients outer n, ?_, hthreshold, hn ▸ hpos, by rw [hn]; exact prod_quotients outer hpos, ?_⟩
  · refine ⟨(List.zipWith (· / ·) inner (quotients inner (n / (quotients outer n).prod))).map some, ?_⟩
    dsimp only
    rw [hsplit, hquot, List.zipWith_append (length_quotients _ _).symm, List.map_append]
  · dsimp only
    rw [hcounts, htake]
  · intro size hsize
    exact hpositive size (hsplit ▸ List.mem_append_left _ hsize)
  · dsimp only at hchunked
    rwa [hcounts, htake] at hchunked

/-- The loop of a dimension: its size is that of the chunks times their number. -/
theorem Planned.dim {g : GenericOp} {threshold : Int} {bitWidth elements : Nat} {outer qs : List Nat}
    {plan : ChunkPlan} (h : Planned g threshold bitWidth elements outer qs plan) {j : Nat}
    (hj : j < plan.reductionDims.length) :
    0 < plan.chunkSize j ∧ 0 < plan.perDimNumChunks.getD j 0 ∧
      g.loopRanges.getD (plan.reductionDims[j]) none =
        some (plan.perDimNumChunks.getD j 0 * plan.chunkSize j) := by
  have hlength : outer.length = plan.reductionDims.length := by
    rw [h.reductionDims, ← List.length_map (f := some), ← h.loopRanges, List.length_map]
  have hqs : qs.length = outer.length := h.divides.length_eq
  have hjo : j < outer.length := hlength ▸ hj
  have hjq : j < qs.length := hqs ▸ hjo
  have hdvd : qs[j] ∣ outer[j] := List.forall₂_iff_get.mp h.divides |>.2 j hjq hjo
  have hpos : 0 < outer[j] := h.positive _ (List.getElem_mem hjo)
  have hchunk : plan.chunkSize j = outer[j] / qs[j] := by
    obtain ⟨rest, hrest⟩ := h.chunkSizes
    have hlt : j < ((List.zipWith (· / ·) outer qs).map some).length := by
      rw [List.length_map, List.length_zipWith]
      omega
    rw [ChunkPlan.chunkSize, hrest, List.getD_append _ _ _ _ hlt, List.getD_eq_getElem _ _ hlt,
      List.getElem_map, List.getElem_zipWith]
    rfl
  have hnum : plan.perDimNumChunks.getD j 0 = qs[j] := by
    rw [h.perDimNumChunks, List.getD_eq_getElem _ _ hjq]
  have hrange : g.loopRanges.getD (plan.reductionDims[j]) none = some outer[j] := by
    have hget := congrArg (fun l => l[j]?) h.loopRanges
    have hjd : j < (chunkableDims g).length := h.reductionDims ▸ hj
    simp only [List.getElem?_map, List.getElem?_eq_getElem hjd, List.getElem?_eq_getElem hjo,
      Option.map_some, Option.some.injEq] at hget
    simp only [h.reductionDims]
    exact hget
  rw [hchunk, hnum, hrange]
  have hqpos : 0 < qs[j] := Nat.pos_of_dvd_of_pos hdvd hpos
  exact ⟨Nat.div_pos (Nat.le_of_dvd hpos hdvd) hqpos, hqpos, by rw [Nat.mul_div_cancel' hdvd]⟩

/-! ## The windows -/

section Windows

variable {g : GenericOp} {threshold : Int} {bitWidth elements : Nat} {outer qs sizes : List Nat}
  {plan : ChunkPlan}

/-- The loops of a plan and the sizes of the input agree. -/
theorem Planned.size_eq (h : Planned g threshold bitWidth elements outer qs plan)
    (hdims : DimsOfInput g (sizes.map some)) {j : Nat} (hj : j < plan.reductionDims.length) :
    plan.reductionDims[j] < sizes.length ∧ sizes.getD plan.reductionDims[j] 0 =
      plan.perDimNumChunks.getD j 0 * plan.chunkSize j := by
  have hmem : plan.reductionDims[j] ∈ chunkableDims g := h.reductionDims ▸ List.getElem_mem hj
  have hsize := hdims _ hmem
  rw [(h.dim hj).2.2, List.getElem?_map, Option.map_eq_some_iff] at hsize
  obtain ⟨size, hget, heq⟩ := hsize
  obtain ⟨hlt, -⟩ := List.getElem?_eq_some_iff.mp hget
  refine ⟨hlt, ?_⟩
  rw [List.getD_eq_getElem?_getD, hget]
  exact Option.some.inj heq

theorem Planned.nodup (h : Planned g threshold bitWidth elements outer qs plan) :
    plan.reductionDims.Nodup := h.reductionDims ▸ chunkableDims_nodup g

theorem window_getElem (hnodup : plan.reductionDims.Nodup) {j : Nat}
    (hj : j < plan.reductionDims.length) (ivs : List Nat) (dimSize : Nat) :
    plan.window ivs plan.reductionDims[j] dimSize =
      (ivs.getD j 0 * plan.chunkSize j, plan.chunkSize j) := by
  rw [ChunkPlan.window, if_pos (List.getElem_mem hj), hnodup.idxOf_getElem j hj]

theorem coversOnce_of_dimsOfInput (h : Planned g threshold bitWidth elements outer qs plan)
    (hdims : DimsOfInput g (sizes.map some)) : plan.CoversOnce sizes := by
  constructor
  · intro ivs hivs i hi
    by_cases hmem : i ∈ plan.reductionDims
    · obtain ⟨j, hj, rfl⟩ := List.getElem_of_mem hmem
      rw [window_getElem h.nodup hj, (h.size_eq hdims hj).2]
      calc ivs.getD j 0 * plan.chunkSize j + plan.chunkSize j
          = (ivs.getD j 0 + 1) * plan.chunkSize j := by rw [Nat.add_mul, Nat.one_mul]
        _ ≤ plan.perDimNumChunks.getD j 0 * plan.chunkSize j :=
          Nat.mul_le_mul_right _ (hivs.2 j hj)
    · rw [ChunkPlan.window, if_neg hmem, Nat.zero_add]
  · intro x hx
    -- the window of each dimension is the one that its index falls in
    refine ⟨(List.range plan.reductionDims.length).map fun j =>
      x.getD (plan.reductionDims.getD j 0) 0 / plan.chunkSize j, ⟨⟨?_, ?_⟩, ?_⟩, ?_⟩
    · rw [List.length_map, List.length_range]
    · intro j hj
      obtain ⟨hpos, -, -⟩ := h.dim hj
      obtain ⟨hlt, hsize⟩ := h.size_eq hdims hj
      rw [List.getD_eq_getElem _ _ (by simpa using hj), List.getElem_map, List.getElem_range,
        List.getD_eq_getElem _ _ hj, Nat.div_lt_iff_lt_mul hpos, ← hsize]
      exact hx _ hlt
    · intro i hi
      by_cases hmem : i ∈ plan.reductionDims
      · obtain ⟨j, hj, rfl⟩ := List.getElem_of_mem hmem
        rw [window_getElem h.nodup hj, List.getD_eq_getElem _ _ (by simpa using hj),
          List.getElem_map, List.getElem_range, List.getD_eq_getElem _ _ hj]
        have hpos := (h.dim hj).1
        exact ⟨Nat.div_mul_le_self _ _, Nat.lt_div_mul_add hpos⟩
      · rw [ChunkPlan.window, if_neg hmem, Nat.zero_add]
        exact ⟨Nat.zero_le _, hx i hi⟩
    · rintro ivs ⟨⟨hlength, hivs⟩, hsends⟩
      apply List.ext_getElem
      · rw [hlength, List.length_map, List.length_range]
      · intro j hj hj'
        have hjd : j < plan.reductionDims.length := hlength ▸ hj
        obtain ⟨hle, hlt⟩ := hsends _ (h.size_eq hdims hjd).1
        rw [window_getElem h.nodup hjd, List.getD_eq_getElem _ _ hj] at hle hlt
        rw [List.getElem_map, List.getElem_range, List.getD_eq_getElem _ _ hjd]
        symm
        apply Nat.div_eq_of_lt_le hle
        rw [Nat.add_mul, Nat.one_mul]
        exact hlt

/-- Windows that cover the input are of dimensions of the input. -/
theorem dimsOfInput_of_coversOnce (h : Planned g threshold bitWidth elements outer qs plan)
    (hsizes : ∀ size ∈ sizes, 0 < size) (hcovers : plan.CoversOnce sizes)
    (hlt : ∀ dim ∈ plan.reductionDims, dim < sizes.length) : DimsOfInput g (sizes.map some) := by
  intro dim hdim
  obtain ⟨j, hj, rfl⟩ := List.getElem_of_mem (h.reductionDims ▸ hdim : dim ∈ plan.reductionDims)
  obtain ⟨hpos, hcount, hrange⟩ := h.dim hj
  have hlt' := hlt _ (List.getElem_mem hj)
  have hsize : ∀ i < sizes.length, 0 < sizes.getD i 0 := by
    intro i hi
    rw [List.getD_eq_getElem _ _ hi]
    exact hsizes _ (List.getElem_mem hi)
  rw [hrange, List.getElem?_map, List.getElem?_eq_getElem hlt', Option.map_some, Option.some.injEq,
    ← List.getD_eq_getElem sizes 0 hlt']
  apply congrArg some
  apply Nat.le_antisymm
  · -- the last element of the input is sent
    obtain ⟨ivs, ⟨⟨-, hivs⟩, hsends⟩, -⟩ := hcovers.once (sizes.map fun size => size - 1) (by
      intro i hi
      rw [List.getD_eq_getElem _ _ (by simpa using hi), List.getElem_map,
        ← List.getD_eq_getElem sizes 0 hi]
      exact Nat.sub_lt (hsize i hi) Nat.one_pos)
    have hlast := (hsends _ hlt').2
    rw [window_getElem h.nodup hj, List.getD_eq_getElem _ _ (by simpa using hlt'),
      List.getElem_map, ← List.getD_eq_getElem sizes 0 hlt'] at hlast
    have hle : ivs.getD j 0 * plan.chunkSize j + plan.chunkSize j ≤
        plan.perDimNumChunks.getD j 0 * plan.chunkSize j := by
      rw [← Nat.succ_mul]
      exact Nat.mul_le_mul_right _ (hivs j hj)
    have hsize' := hsize _ hlt'
    omega
  · -- the last window stays in the input
    have hiteration : plan.Iteration
        ((List.range plan.reductionDims.length).map fun k => plan.perDimNumChunks.getD k 0 - 1) := by
      refine ⟨by rw [List.length_map, List.length_range], fun k hk => ?_⟩
      rw [List.getD_eq_getElem _ _ (by simpa using hk), List.getElem_map, List.getElem_range]
      exact Nat.sub_lt (h.dim hk).2.1 Nat.one_pos
    have hinside := hcovers.inside _ hiteration _ hlt'
    rw [window_getElem h.nodup hj, List.getD_eq_getElem _ _ (by simpa using hj), List.getElem_map,
      List.getElem_range, ← Nat.succ_mul, Nat.succ_eq_add_one, Nat.sub_add_cancel hcount] at hinside
    exact hinside

end Windows

/-! ## The bytes of a chunk -/

theorem prod_set_mul (l : List Nat) {i : Nat} (hi : i < l.length) (a : Nat) :
    (l.set i a).prod * l[i] = l.prod * a := by
  induction l generalizing i with
  | nil => cases hi
  | cons b l ih =>
      cases i with
      | zero =>
          rw [List.set_cons_zero, List.prod_cons, List.prod_cons, List.getElem_cons_zero]
          ring
      | succ i =>
          have hi' : i < l.length := Nat.lt_of_succ_lt_succ hi
          rw [List.set_cons_succ, List.prod_cons, List.prod_cons, List.getElem_cons_succ,
            Nat.mul_assoc, ih hi', Nat.mul_assoc]

/-- The step of `chunkInputShape`. -/
def setDim (shape : List Dim) (dimChunk : Nat × Dim) : Option (List Dim) :=
  if dimChunk.1 < shape.length then some (shape.set dimChunk.1 dimChunk.2) else none

/-- The elements of a chunk times the number of chunks are those of the input. -/
theorem foldlM_setDim {dims outer qs : List Nat} (hdivides : List.Forall₂ (· ∣ ·) qs outer)
    (hpositive : ∀ size ∈ outer, 0 < size) (rest : List Dim) (sizes : List Nat) (hnodup : dims.Nodup)
    (hsizes : dims.map (fun dim => (sizes.map some)[dim]?) = outer.map fun size => some (some size)) :
    ∃ chunk : List Nat, (dims.zip ((List.zipWith (· / ·) outer qs).map some ++ rest)).foldlM setDim
      (sizes.map some) = some (chunk.map some) ∧ chunk.prod * qs.prod = sizes.prod := by
  induction hdivides generalizing dims sizes with
  | nil =>
      have hnil : dims = [] := List.map_eq_nil_iff.mp hsizes
      exact ⟨sizes, by rw [hnil]; rfl, by rw [List.prod_nil, Nat.mul_one]⟩
  | @cons q size qs outer hq _ ih =>
      cases dims with
      | nil => cases hsizes
      | cons dim dims =>
          rw [List.map_cons, List.map_cons, List.cons.injEq] at hsizes
          obtain ⟨hdim, hdims⟩ := hsizes
          rw [List.getElem?_map, Option.map_eq_some_iff] at hdim
          obtain ⟨size', hget, heq⟩ := hdim
          cases heq
          obtain ⟨hlt, hsize⟩ := List.getElem?_eq_some_iff.mp hget
          rw [List.nodup_cons] at hnodup
          have hpos := hpositive size List.mem_cons_self
          -- the other dimensions are not touched
          have hdims' : dims.map (fun d => ((sizes.set dim (size / q)).map some)[d]?) =
              outer.map fun size => some (some size) := by
            rw [← hdims]
            apply List.map_congr_left
            intro d hd
            have hne : dim ≠ d := fun heq => hnodup.1 (heq ▸ hd)
            rw [List.getElem?_map, List.getElem?_map, List.getElem?_set_ne hne]
          obtain ⟨chunk, hfold, hprod⟩ := ih (fun s hs => hpositive s (List.mem_cons_of_mem _ hs))
            (sizes.set dim (size / q)) hnodup.2 hdims'
          refine ⟨chunk, ?_, ?_⟩
          · rw [List.zipWith_cons_cons, List.map_cons, List.cons_append, List.zip_cons_cons,
              List.foldlM_cons, setDim, if_pos (by rwa [List.length_map]), ← List.map_set]
            exact hfold
          · have hset := prod_set_mul sizes hlt (size / q)
            rw [hsize] at hset
            have hdiv : 0 < size / q :=
              Nat.div_pos (Nat.le_of_dvd hpos hq) (Nat.pos_of_dvd_of_pos hq hpos)
            apply Nat.eq_of_mul_eq_mul_right hdiv
            rw [← hset, ← hprod, List.prod_cons]
            calc chunk.prod * (q * qs.prod) * (size / q)
                = chunk.prod * qs.prod * (q * (size / q)) := by ring
              _ = chunk.prod * qs.prod * size := by rw [Nat.mul_div_cancel' hq]

theorem lt_of_foldlM_setDim {dims : List Nat} {chunks : List Dim} {shape result : List Dim}
    (h : (dims.zip chunks).foldlM setDim shape = some result) (hlength : dims.length ≤ chunks.length) :
    ∀ dim ∈ dims, dim < shape.length := by
  induction dims generalizing chunks shape with
  | nil => exact nofun
  | cons dim dims ih =>
      cases chunks with
      | nil => cases hlength
      | cons chunk chunks =>
          rw [List.zip_cons_cons, List.foldlM_cons, setDim] at h
          split at h
          · next hlt =>
              intro d hd
              rcases List.mem_cons.mp hd with rfl | hd
              · exact hlt
              · have hrest := ih h (Nat.le_of_succ_le_succ hlength) d hd
                rwa [List.length_set] at hrest
          · cases h

section Fits

variable {g : GenericOp} {threshold : Int} {bitWidth : Nat} {outer qs sizes : List Nat}
  {plan : ChunkPlan}

/-- The shape of a chunk. -/
theorem chunkInputShape_eq_some (h : Planned g threshold bitWidth sizes.prod outer qs plan)
    (hdims : DimsOfInput g (sizes.map some)) :
    ∃ chunk : List Nat, plan.chunkInputShape (sizes.map some) = some (chunk.map some) ∧
      chunk.prod * qs.prod = sizes.prod := by
  obtain ⟨rest, hrest⟩ := h.chunkSizes
  have hget : (chunkableDims g).map (fun dim => (sizes.map some)[dim]?) =
      outer.map fun size => some (some size) := by
    have hranges := congrArg (List.map some) h.loopRanges
    rw [List.map_map, List.map_map] at hranges
    rw [show (fun size => some (some size)) = some ∘ (some : Nat → Dim) from rfl, ← hranges]
    exact List.map_congr_left hdims
  obtain ⟨chunk, hfold, hprod⟩ :=
    foldlM_setDim h.divides h.positive rest sizes (chunkableDims_nodup g) hget
  refine ⟨chunk, ?_, hprod⟩
  rw [ChunkPlan.chunkInputShape, h.reductionDims, hrest]
  exact hfold

theorem fits_iff (h : Planned g threshold bitWidth sizes.prod outer qs plan)
    (hdims : DimsOfInput g (sizes.map some)) :
    (∃ shape chunk, plan.chunkInputShape (sizes.map some) = some shape ∧
      staticSizes shape = some chunk ∧ ((chunk.prod * bitWidth : Nat) : Int) ≤ 8 * threshold) ↔
    sizes.prod * bitWidth ≤ 8 * threshold.toNat * qs.prod := by
  obtain ⟨chunk, hshape, hprod⟩ := chunkInputShape_eq_some h hdims
  have hqs : 0 < qs.prod := by
    rw [h.prod_eq]
    exact Nat.gcd_pos_of_pos_left _ h.count_pos
  have hiff : ((chunk.prod * bitWidth : Nat) : Int) ≤ 8 * threshold ↔
      sizes.prod * bitWidth ≤ 8 * threshold.toNat * qs.prod := by
    obtain ⟨t, ht⟩ := Int.eq_ofNat_of_zero_le h.threshold_nonneg
    rw [ht, Int.toNat_natCast, ← hprod]
    rw [show chunk.prod * qs.prod * bitWidth = chunk.prod * bitWidth * qs.prod by ring,
      Nat.mul_le_mul_right_iff hqs]
    exact_mod_cast Iff.rfl
  rw [← hiff]
  constructor
  · rintro ⟨shape, chunk', hshape', hchunk, hle⟩
    rw [hshape, Option.some.injEq] at hshape'
    subst hshape'
    have heq := staticSizes_eq_some.mp hchunk
    rw [(List.map_injective_iff.mpr (Option.some_injective _)) heq]
    exact hle
  · intro hle
    exact ⟨_, chunk, hshape, staticSizes_eq_some.mpr rfl, hle⟩

/-- For whole bytes and a count of 32 bits, chunks fit exactly if no loop is missing. -/
theorem countFits_iff (h : Planned g threshold bitWidth sizes.prod outer qs plan)
    (hdims : qs.prod ∣ sizes.prod) :
    sizes.prod * bitWidth ≤ 8 * threshold.toNat * qs.prod ↔
      CountFits g bitWidth sizes.prod threshold := by
  have hsize := chunkableSize_eq h.loopRanges
  unfold CountFits
  split
  case isFalse => rw [h.prod_eq, hsize]
  next hbytes =>
  obtain ⟨b, hb⟩ := Nat.dvd_of_mod_eq_zero hbytes.1
  have hprod := h.prod_eq
  rw [Nat.mod_eq_of_lt hbytes.2] at hprod
  have hqs : 0 < qs.prod := by
    rw [hprod]
    exact Nat.gcd_pos_of_pos_left _ (Nat.succ_pos _)
  rw [hsize]
  generalize outer.prod = total at *
  have hb' : bitWidth / 8 = b := by omega
  rw [hb'] at hprod ⊢
  have hbyte : sizes.prod * bitWidth ≤ 8 * threshold.toNat * qs.prod ↔
      b * sizes.prod ≤ threshold.toNat * qs.prod := by
    rw [hb, show sizes.prod * (8 * b) = 8 * (b * sizes.prod) by ring, Nat.mul_assoc,
      Nat.mul_le_mul_left_iff (by omega)]
  -- a count that the loops do not take as a whole is too small
  rw [hbyte, ← Nat.div_le_iff_le_mul_of_dvd (Nat.ne_of_gt hqs) (Dvd.dvd.mul_left hdims b)]
  have hle := div_le_iff_smallestCount_le (b * sizes.prod) hqs h.threshold_nonneg
  rw [show ((b * sizes.prod / qs.prod : Nat) : Int) ≤ threshold ↔
    b * sizes.prod / qs.prod ≤ threshold.toNat from (Int.le_toNat h.threshold_nonneg).symm] at hle
  rw [hle, hprod]
  constructor
  · intro hcount
    have hge := Nat.le_of_dvd (Nat.succ_pos _ : 0 < smallestCount (b * sizes.prod) threshold)
      (Nat.gcd_dvd_left _ total)
    rw [Nat.le_antisymm hcount hge]
    exact Nat.gcd_dvd_right _ _
  · intro hdvd
    rw [Nat.gcd_eq_left hdvd]

/-- The shape of a chunk is one of the input only if the dimensions are. -/
theorem lt_of_chunkInputShape (h : Planned g threshold bitWidth sizes.prod outer qs plan)
    {shape : List Dim} (hshape : plan.chunkInputShape (sizes.map some) = some shape) :
    ∀ dim ∈ plan.reductionDims, dim < sizes.length := by
  obtain ⟨rest, hrest⟩ := h.chunkSizes
  have hlength : plan.reductionDims.length ≤ plan.chunkSizes.length := by
    have houter : outer.length = plan.reductionDims.length := by
      rw [h.reductionDims, ← List.length_map (f := some), ← h.loopRanges, List.length_map]
    have hqs : qs.length = outer.length := h.divides.length_eq
    rw [hrest, List.length_append, List.length_map, List.length_zipWith, hqs, Nat.min_self, houter]
    exact Nat.le_add_right _ _
  intro dim hdim
  have hlt := lt_of_foldlM_setDim hshape hlength dim hdim
  rwa [List.length_map] at hlt

/-- An empty input is not chunked. -/
theorem sizes_pos (h : Planned g threshold bitWidth sizes.prod outer qs plan) :
    ∀ size ∈ sizes, 0 < size := by
  apply List.prod_pos_iff_forall_pos_nat.mp
  apply Nat.pos_of_ne_zero
  intro hzero
  have hprod := h.prod_eq
  rw [hzero, smallestCount, Nat.mul_zero, Nat.zero_div, Nat.zero_add] at hprod
  rw [show 1 % 2 ^ 32 = 1 from rfl, Nat.gcd_one_left] at hprod
  apply h.chunked
  rw [List.all_eq_true]
  intro q hq
  have hdvd := List.dvd_prod hq
  rw [hprod] at hdvd
  exact beq_iff_eq.mpr (Nat.dvd_one.mp hdvd)

end Fits

/-- **Automatic chunks**: the count is distributed exactly if it divides the product of the sizes, and the
chunks are those promised exactly if the dimensions with loops are dimensions of the input that take the
whole count. -/
theorem transformPipeline_chunks_iff {g : GenericOp} {threshold : Int} {plan : ChunkPlan}
    {type : TensorType} {bitWidth : Nat} {sizes : List Nat} (htype : g.inputType = some type)
    (hbits : type.bitWidth = some bitWidth) (hsizes : staticSizes type.shape = some sizes)
    (hchunked : transformPipeline g [] threshold = .chunked plan) :
    (∀ (sizes : List Nat) (count : Nat), (∀ size ∈ sizes, 0 < size) → 1 ≤ count →
      ((computeChunkDims (sizes.map some) count).isSome ↔ count ∣ sizes.prod) ∧
      ∀ dims, computeChunkDims (sizes.map some) count = some dims → ∃ news : List Nat,
        dims = news.map some ∧ List.Forall₂ (· ∣ ·) news sizes ∧
          (List.zipWith (· / ·) sizes news).prod = count) ∧
    (ChunksInput type bitWidth sizes g threshold plan ↔
      DimsOfInput g type.shape ∧ CountFits g bitWidth sizes.prod threshold) := by
  refine ⟨fun sizes count hsizes hcount => computeChunkDims_spec hsizes hcount, ?_⟩
  obtain ⟨type', bits', sizes', outer, qs, htype', hbits', hsizes', hplanned⟩ :=
    planned_of_chunked hchunked
  rw [htype, Option.some.injEq] at htype'
  subst htype'
  rw [hbits, Option.some.injEq] at hbits'
  subst hbits'
  rw [hsizes, Option.some.injEq] at hsizes'
  subst hsizes'
  have hshape := staticSizes_eq_some.mp hsizes
  have hinnermost : g.numLoops - 1 ∉ plan.reductionDims :=
    hplanned.reductionDims ▸ notMem_chunkableDims g
  have hiff : DimsOfInput g (sizes.map some) →
      ((∃ shape chunk, plan.chunkInputShape (sizes.map some) = some shape ∧
        staticSizes shape = some chunk ∧ ((chunk.prod * bitWidth : Nat) : Int) ≤ 8 * threshold) ↔
        CountFits g bitWidth sizes.prod threshold) := by
    intro hdims
    obtain ⟨chunk, -, hprod⟩ := chunkInputShape_eq_some hplanned hdims
    rw [fits_iff hplanned hdims]
    exact countFits_iff hplanned ⟨chunk.prod, by rw [← hprod, Nat.mul_comm]⟩
  constructor
  · rintro ⟨-, hfits, hcovers⟩
    rw [hshape] at hfits ⊢
    have hlt : ∀ dim ∈ plan.reductionDims, dim < sizes.length := by
      obtain ⟨shape, chunk, hchunk, -⟩ := hfits
      exact lt_of_chunkInputShape hplanned hchunk
    have hdims := dimsOfInput_of_coversOnce hplanned (sizes_pos hplanned) hcovers hlt
    exact ⟨hdims, (hiff hdims).mp hfits⟩
  · rintro ⟨hdims, hcount⟩
    rw [hshape] at hdims
    refine ⟨hinnermost, ?_, coversOnce_of_dimsOfInput hplanned hdims⟩
    rw [hshape]
    exact (hiff hdims).mpr hcount

/-! ### Two reductions -/

/-- A reduction of the given sizes of all its loops to a value, over 16-bit elements. -/
def reduceAll (sizes : List Nat) : GenericOp where
  iteratorTypes := sizes.map fun _ => .reduction
  loopRanges := sizes.map some
  inputType := some ⟨sizes.map some, some 16⟩
  isContraction := false

theorem reduceAll_fits : ChunksInput ⟨[some 4, some 4], some 16⟩ 16 [4, 4] (reduceAll [4, 4]) 16
    ⟨[0], [some 2, some 4], [2]⟩ := by
  apply (transformPipeline_chunks_iff (g := reduceAll [4, 4]) rfl rfl rfl rfl).2.mpr
  exact ⟨by unfold DimsOfInput; decide, by unfold CountFits; decide⟩

/-- The innermost loop takes a half of the count, and is left out. -/
theorem reduceAll_exceeds :
    transformPipeline (reduceAll [2, 4]) [] 4 = .chunked ⟨[0], [some 1, some 2], [2]⟩ ∧
    ¬ChunksInput ⟨[some 2, some 4], some 16⟩ 16 [2, 4] (reduceAll [2, 4]) 4
      ⟨[0], [some 1, some 2], [2]⟩ := by
  refine ⟨rfl, fun h => ?_⟩
  obtain ⟨shape, chunk, hshape, hchunk, hle⟩ := h.fits
  have hshape' : ChunkPlan.chunkInputShape ⟨[0], [some 1, some 2], [2]⟩ [some 2, some 4] =
      some [some 1, some 4] := rfl
  rw [hshape', Option.some.injEq] at hshape
  subst hshape
  cases hchunk
  exact absurd hle (by decide)

end ReductionDimChunking

end DataflowScheduler
