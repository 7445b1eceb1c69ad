import DataflowScheduler.Dialect.KTDF.Transforms.SplitReductionInnerOuterDim.Runs

/-!
# The loops of the two generics

Both generics are well formed again. The second has the dimensions that only the outputs use, and its
input is what the first one computes.
-/

namespace SplitReductionInnerOuterDim

open RowMajor StraightLine

/-! ## Positions in a list of dimensions -/

theorem mem_map_idxOf {dims from_dims : List Nat} (hfrom : from_dims.Nodup) {p : Nat}
    (hp : p < from_dims.length) :
    p ∈ dims.map (from_dims.idxOf ·) ↔ from_dims[p] ∈ dims := by
  rw [List.mem_map]
  constructor
  · rintro ⟨d, hd, rfl⟩
    rwa [List.getElem_idxOf]
  · intro hd
    exact ⟨_, hd, hfrom.idxOf_getElem p hp⟩

theorem nodup_map_idxOf {dims from_dims : List Nat} (hdims : dims.Nodup) (h : dims ⊆ from_dims) :
    (dims.map (from_dims.idxOf ·)).Nodup := by
  apply List.Nodup.map_on _ hdims
  intro d hd d' hd' heq
  exact (List.idxOf_inj (h hd)).1 heq

theorem map_idxOf_lt {dims from_dims : List Nat} (h : dims ⊆ from_dims) :
    ∀ p ∈ dims.map (from_dims.idxOf ·), p < from_dims.length := by
  intro p hp
  obtain ⟨d, hd, rfl⟩ := List.mem_map.1 hp
  exact List.idxOf_lt_length_of_mem (h hd)

theorem map_getD_map_idxOf {dims from_dims : List Nat} (h : dims ⊆ from_dims) :
    (dims.map (from_dims.idxOf ·)).map (from_dims.getD · 0) = dims := by
  rw [List.map_map]
  nth_rewrite 2 [← List.map_id dims]
  apply List.map_congr_left
  intro d hd
  have hlt := List.idxOf_lt_length_of_mem (h hd)
  show from_dims.getD (from_dims.idxOf d) 0 = d
  simp [List.getD_eq_getElem?_getD, hlt]

/-! ## The dimensions of a candidate -/

/-- The reduction dimensions of a generic over one input, told apart. -/
structure Partitioned (g : GenericOp) (input_map : List Nat) (info : CandidateInfo) : Prop where
  wellFormed : g.WellFormed
  input : g.input_maps = [input_map]
  dims : collectReductionDims g = info.outer_dims ++ [info.inner_dim]

theorem partitioned_of {g : GenericOp} {input_map : List Nat} {vector_length : Nat}
    {info : CandidateInfo} (hwf : g.WellFormed) (hinput : g.input_maps = [input_map])
    (h : partitionReductionDims g vector_length = some info) : Partitioned g input_map info := by
  unfold partitionReductionDims at h
  split at h
  next inner hinner =>
    split at h
    next =>
      obtain rfl := by simpa using h
      refine ⟨hwf, hinput, ?_⟩
      obtain ⟨first, hfirst⟩ := List.getLast?_eq_some_iff.1 hinner
      simp [hfirst]
    next => contradiction
  next => contradiction

namespace Partitioned

variable {g : GenericOp} {input_map : List Nat} {info : CandidateInfo}

/-! ### Which are where -/

theorem input_lt (h : Partitioned g input_map info) {d : Nat} (hd : d ∈ input_map) :
    d < g.sizes.length :=
  h.wellFormed.map_lt input_map (by simp [h.input]) d hd

theorem input_nodup (h : Partitioned g input_map info) : input_map.Nodup :=
  h.wellFormed.map_nodup input_map (by simp [h.input])

theorem output_lt (h : Partitioned g input_map info) {map : List Nat} (hmap : map ∈ g.output_maps)
    {d : Nat} (hd : d ∈ map) : d < g.sizes.length :=
  h.wellFormed.map_lt map (by simp [hmap]) d hd

theorem mem_reduction (h : Partitioned g input_map info) {d : Nat} :
    (d ∈ info.outer_dims ∨ d = info.inner_dim) ↔
      d ∈ input_map ∧ g.iterator_types[d]? = some .reduction := by
  have hmem : d ∈ collectReductionDims g ↔ d ∈ info.outer_dims ∨ d = info.inner_dim := by
    rw [h.dims]
    simp
  rw [← hmem]
  simp [collectReductionDims, h.input]

theorem dims_nodup (h : Partitioned g input_map info) :
    (info.outer_dims ++ [info.inner_dim]).Nodup := by
  rw [← h.dims]
  simp only [collectReductionDims, h.input, List.headD_cons]
  exact h.input_nodup.filter _

theorem outer_nodup (h : Partitioned g input_map info) : info.outer_dims.Nodup :=
  (List.nodup_append.1 h.dims_nodup).1

theorem inner_not_outer (h : Partitioned g input_map info) : info.inner_dim ∉ info.outer_dims := by
  intro hmem
  exact (List.nodup_append.1 h.dims_nodup).2.2 _ hmem _ List.mem_cons_self rfl

theorem inner_mem (h : Partitioned g input_map info) : info.inner_dim ∈ input_map :=
  (h.mem_reduction.1 (.inr rfl)).1

theorem outer_subset (h : Partitioned g input_map info) : info.outer_dims ⊆ input_map :=
  fun _ hd => (h.mem_reduction.1 (.inl hd)).1

theorem reduction_not_output (h : Partitioned g input_map info) {map : List Nat}
    (hmap : map ∈ g.output_maps) {d : Nat} (hd : d ∈ info.outer_dims ∨ d = info.inner_dim) :
    d ∉ map :=
  h.wellFormed.reduction d (h.mem_reduction.1 hd).2 map hmap

theorem mem_kept (h : Partitioned g input_map info) {d : Nat} :
    d ∈ keptDims g info ↔ d < g.sizes.length ∧ d ∉ info.outer_dims := by
  simp [keptDims, h.wellFormed.sizes_length]

theorem kept_nodup : (keptDims g info).Nodup := List.nodup_range.filter _

theorem kept_lt (h : Partitioned g input_map info) {d : Nat} (hd : d ∈ keptDims g info) :
    d < g.sizes.length :=
  (h.mem_kept.1 hd).1

theorem output_subset_kept (h : Partitioned g input_map info) {map : List Nat}
    (hmap : map ∈ g.output_maps) : map ⊆ keptDims g info := by
  intro d hd
  rw [h.mem_kept]
  exact ⟨h.output_lt hmap hd, fun hout => h.reduction_not_output hmap (.inl hout) hd⟩

theorem inner_mem_kept (h : Partitioned g input_map info) : info.inner_dim ∈ keptDims g info := by
  rw [h.mem_kept]
  exact ⟨h.input_lt h.inner_mem, h.inner_not_outer⟩

theorem kept_or_input (h : Partitioned g input_map info) {d : Nat} (hd : d < g.sizes.length) :
    d ∈ keptDims g info ∨ d ∈ input_map := by
  by_cases hout : d ∈ info.outer_dims
  · exact .inr (h.outer_subset hout)
  · exact .inl (h.mem_kept.2 ⟨hd, hout⟩)

/-- A dimension that is kept is one of the outputs or the inner one. -/
theorem kept_cases (h : Partitioned g input_map info) {map : List Nat} (hmap : map ∈ g.output_maps)
    {d : Nat} (hd : d ∈ keptDims g info) : d ∈ map ∨ d = info.inner_dim := by
  obtain ⟨hlt, hnot⟩ := h.mem_kept.1 hd
  have hlt' : d < g.iterator_types.length := h.wellFormed.sizes_length ▸ hlt
  cases htype : g.iterator_types[d]? with
  | none => simp [hlt'] at htype
  | some type =>
    cases type with
    | parallel => exact .inl (h.wellFormed.parallel d htype map hmap)
    | reduction =>
      right
      obtain ⟨covering, hcovering, hmem⟩ := h.wellFormed.covered d hlt
      rw [h.input, List.mem_append, List.mem_singleton] at hcovering
      rcases hcovering with rfl | hcovering
      · exact (h.mem_reduction.2 ⟨hmem, htype⟩).resolve_left hnot
      · exact absurd hmem (h.wellFormed.reduction d htype covering hcovering)

theorem mem_shared (h : Partitioned g input_map info) {d : Nat} :
    d ∈ input_map.filter (· ∉ info.outer_dims) ↔ d ∈ input_map ∧ d ∈ keptDims g info := by
  rw [List.mem_filter, h.mem_kept, decide_eq_true_eq]
  constructor
  · exact fun hd => ⟨hd.1, h.input_lt hd.1, hd.2⟩
  · exact fun hd => ⟨hd.1, hd.2.2⟩

theorem shared_eq (h : Partitioned g input_map info) :
    input_map.filter (· ∉ info.outer_dims) = input_map.filter (· ∈ keptDims g info) := by
  apply List.filter_congr
  intro d hd
  rw [decide_eq_decide, h.mem_kept]
  exact ⟨fun hnot => ⟨h.input_lt hd, hnot⟩, fun hkept => hkept.2⟩

/-! ## The first generic -/

theorem range_mem_first (h : Partitioned g input_map info) :
    List.range input_map.length ∈ (firstGeneric g info).input_maps := by
  simp [firstGeneric, h.input]

theorem first_output_map (h : Partitioned g input_map info) {map : List Nat}
    (hmap : map ∈ (firstGeneric g info).output_maps) :
    map = (input_map.filter (· ∉ info.outer_dims)).map (input_map.idxOf ·) := by
  have := List.eq_of_mem_replicate hmap
  rwa [h.input] at this

theorem first_maps (h : Partitioned g input_map info) {map : List Nat}
    (hmap : map ∈ (firstGeneric g info).input_maps ++ (firstGeneric g info).output_maps) :
    map = List.range input_map.length ∨
      map = (input_map.filter (· ∉ info.outer_dims)).map (input_map.idxOf ·) := by
  rw [List.mem_append] at hmap
  rcases hmap with hmap | hmap
  · left
    have := List.eq_of_mem_replicate hmap
    rwa [h.input] at this
  · exact .inr (h.first_output_map hmap)

theorem first_iterator_types (h : Partitioned g input_map info) {p : Nat}
    {type : IteratorType} (htype : (firstGeneric g info).iterator_types[p]? = some type) :
    ∃ hp : p < input_map.length,
      (type = .reduction ↔ input_map[p] ∈ info.outer_dims) := by
  simp only [firstGeneric, h.input, List.headD_cons, List.getElem?_map, Option.map_eq_some_iff]
    at htype
  obtain ⟨d, hd, rfl⟩ := htype
  obtain ⟨hp, rfl⟩ := List.getElem?_eq_some_iff.1 hd
  refine ⟨hp, ?_⟩
  by_cases hout : input_map[p] ∈ info.outer_dims
  · simp [hout]
  by_cases hinner : input_map[p] = info.inner_dim
  · simp [hinner, h.inner_not_outer]
  · simp only [if_neg hinner, hout, iff_false]
    intro hred
    -- a reduction dimension of the input is an outer one or the inner one
    have hlt : input_map[p] < g.iterator_types.length :=
      h.wellFormed.sizes_length ▸ h.input_lt (List.getElem_mem hp)
    have hget : g.iterator_types[input_map[p]]? = some .reduction := by
      rw [← hred]
      simp [List.getD_eq_getElem?_getD, hlt]
    rcases h.mem_reduction.2 ⟨List.getElem_mem hp, hget⟩ with hmem | hmem
    · exact hout hmem
    · exact hinner hmem

theorem first_wellFormed (h : Partitioned g input_map info) : (firstGeneric g info).WellFormed where
  sizes_length := by simp [firstGeneric]
  has_output := by
    simp only [firstGeneric, ne_eq, List.replicate_eq_nil_iff, List.length_eq_zero_iff]
    exact h.wellFormed.has_output
  map_lt := by
    intro map hmap d hd
    have hlen : (firstGeneric g info).sizes.length = input_map.length := by
      simp [firstGeneric, h.input]
    rw [hlen]
    rcases h.first_maps hmap with rfl | rfl
    · exact List.mem_range.1 hd
    · exact map_idxOf_lt (List.filter_subset_self _) d hd
  map_nodup := by
    intro map hmap
    rcases h.first_maps hmap with rfl | rfl
    · exact List.nodup_range
    · exact nodup_map_idxOf (h.input_nodup.filter _) (List.filter_subset_self _)
  covered := by
    intro d hd
    refine ⟨_, List.mem_append_left _ h.range_mem_first, ?_⟩
    simpa [firstGeneric, h.input] using hd
  parallel := by
    intro d htype map hmap
    obtain ⟨hp, hiff⟩ := h.first_iterator_types htype
    rw [h.first_output_map hmap, mem_map_idxOf h.input_nodup hp]
    simpa using hiff
  reduction := by
    intro d htype map hmap
    obtain ⟨hp, hiff⟩ := h.first_iterator_types htype
    rw [h.first_output_map hmap, mem_map_idxOf h.input_nodup hp]
    simpa using hiff
  yields_length := by
    rw [firstGeneric, List.length_replicate]
    exact h.wellFormed.yields_length
  ordered := h.wellFormed.ordered

/-! ## The second generic -/

theorem last_mem (h : Partitioned g input_map info) : g.output_maps.getLastD [] ∈ g.output_maps := by
  have hne := h.wellFormed.has_output
  rw [List.getLastD_eq_getLast?, List.getLast?_eq_getLast_of_ne_nil hne]
  exact List.getLast_mem hne

theorem second_output_map {body : Body} {map : List Nat}
    (hmap : map ∈ (secondGeneric g info body).output_maps) :
    map = (g.output_maps.getLastD []).map ((keptDims g info).idxOf ·) :=
  List.eq_of_mem_replicate hmap

theorem second_input_map (h : Partitioned g input_map info) {body : Body} {map : List Nat}
    (hmap : map ∈ (secondGeneric g info body).input_maps) :
    map = (input_map.filter (· ∉ info.outer_dims)).map ((keptDims g info).idxOf ·) := by
  have := List.eq_of_mem_replicate hmap
  rwa [h.input] at this

theorem shared_subset_kept (h : Partitioned g input_map info) :
    input_map.filter (· ∉ info.outer_dims) ⊆ keptDims g info :=
  fun _ hd => (h.mem_shared.1 hd).2

theorem second_iterator_types {body : Body} {p : Nat} {type : IteratorType}
    (htype : (secondGeneric g info body).iterator_types[p]? = some type) :
    ∃ hp : p < (keptDims g info).length,
      (type = .reduction ↔ (keptDims g info)[p] = info.inner_dim) := by
  simp only [secondGeneric, List.getElem?_map, Option.map_eq_some_iff] at htype
  obtain ⟨d, hd, rfl⟩ := htype
  obtain ⟨hp, rfl⟩ := List.getElem?_eq_some_iff.1 hd
  exact ⟨hp, by split <;> simp [*]⟩

theorem second_wellFormed (h : Partitioned g input_map info) {body : Body}
    (hyields : body.yields.length = g.output_maps.length) (hordered : Ordered body.lines) :
    (secondGeneric g info body).WellFormed where
  sizes_length := by simp [secondGeneric]
  has_output := by
    simp only [secondGeneric, ne_eq, List.replicate_eq_nil_iff, List.length_eq_zero_iff]
    exact h.wellFormed.has_output
  map_lt := by
    intro map hmap d hd
    have hlen : (secondGeneric g info body).sizes.length = (keptDims g info).length := by
      simp [secondGeneric]
    rw [hlen]
    rcases List.mem_append.1 hmap with hmap | hmap
    · rw [h.second_input_map hmap] at hd
      exact map_idxOf_lt h.shared_subset_kept d hd
    · rw [second_output_map hmap] at hd
      exact map_idxOf_lt (h.output_subset_kept h.last_mem) d hd
  map_nodup := by
    intro map hmap
    rcases List.mem_append.1 hmap with hmap | hmap
    · rw [h.second_input_map hmap]
      exact nodup_map_idxOf (h.input_nodup.filter _) h.shared_subset_kept
    · rw [second_output_map hmap]
      exact nodup_map_idxOf (h.wellFormed.map_nodup _ (List.mem_append_right _ h.last_mem))
        (h.output_subset_kept h.last_mem)
  covered := by
    intro d hd
    have hp : d < (keptDims g info).length := by simpa [secondGeneric] using hd
    have hpos : 0 < g.output_maps.length :=
      List.length_pos_of_ne_nil h.wellFormed.has_output
    -- what is no dimension of the outputs is the inner one, and the input has that
    rcases h.kept_cases h.last_mem (List.getElem_mem hp) with hmem | hinner
    · refine ⟨_, List.mem_append_right _ (List.mem_replicate.2 ⟨hpos.ne', rfl⟩), ?_⟩
      exact (mem_map_idxOf kept_nodup hp).2 hmem
    · refine ⟨_, List.mem_append_left _ (List.mem_replicate.2 ⟨hpos.ne', rfl⟩), ?_⟩
      rw [h.input]
      refine (mem_map_idxOf kept_nodup hp).2 ?_
      rw [hinner]
      exact h.mem_shared.2 ⟨h.inner_mem, h.inner_mem_kept⟩
  parallel := by
    intro d htype map hmap
    obtain ⟨hp, hiff⟩ := second_iterator_types htype
    rw [second_output_map hmap, mem_map_idxOf kept_nodup hp]
    apply (h.kept_cases h.last_mem (List.getElem_mem hp)).resolve_right
    simpa using hiff
  reduction := by
    intro d htype map hmap
    obtain ⟨hp, hiff⟩ := second_iterator_types htype
    rw [second_output_map hmap, mem_map_idxOf kept_nodup hp]
    exact h.reduction_not_output h.last_mem (.inr (hiff.1 rfl))
  yields_length := by
    rw [secondGeneric, List.length_replicate]
    exact hyields
  ordered := hordered

end Partitioned

/-! ## What is kept -/

/-- The two generics are well formed. The first hands its results on as they are, and the second
loops over `dims`: all parallel dimensions are kept, also those of the outputs alone, and each output
has the dimensions it had. -/
structure SplitsWell (g g1 g2 : GenericOp) : Prop where
  first : g1.WellFormed
  second : g2.WellFormed
  handed_on : ∀ r < g.output_maps.length,
    select (g1.output_maps.getD r []) g1.sizes = select (g2.input_maps.getD r []) g2.sizes
  dims : ∃ dims, dims.Nodup ∧ g2.sizes = select dims g.sizes ∧
    (∀ d, g.iterator_types[d]? = some .parallel → d ∈ dims) ∧
    ∀ r < g.output_maps.length,
      (g2.output_maps.getD r []).map (dims.getD · 0) = g.output_maps.getD r []

namespace Partitioned

variable {g : GenericOp} {input_map : List Nat} {info : CandidateInfo}

theorem first_output_maps (h : Partitioned g input_map info) {r : Nat}
    (hr : r < g.output_maps.length) :
    (firstGeneric g info).output_maps.getD r [] =
      (input_map.filter (· ∉ info.outer_dims)).map (input_map.idxOf ·) := by
  simp [firstGeneric, h.input, hr]

theorem second_input_maps (h : Partitioned g input_map info) (body : Body) {r : Nat}
    (hr : r < g.output_maps.length) :
    (secondGeneric g info body).input_maps.getD r [] =
      (input_map.filter (· ∉ info.outer_dims)).map ((keptDims g info).idxOf ·) := by
  simp [secondGeneric, h.input, hr]

theorem second_output_maps (body : Body) {r : Nat} (hr : r < g.output_maps.length) :
    (secondGeneric g info body).output_maps.getD r [] =
      (g.output_maps.getLastD []).map ((keptDims g info).idxOf ·) := by
  simp [secondGeneric, hr]

/-- The maps are kept when all outputs have the map of the last one. -/
theorem splitsWell_iff (h : Partitioned g input_map info) {body : Body}
    (hyields : body.yields.length = g.output_maps.length) (hordered : Ordered body.lines) :
    SplitsWell g (firstGeneric g info) (secondGeneric g info body) ↔
      ∀ map ∈ g.output_maps, map = g.output_maps.getLastD [] := by
  have hget : ∀ r (hr : r < g.output_maps.length), g.output_maps.getD r [] = g.output_maps[r] :=
    fun r hr => by simp [hr]
  constructor
  · rintro ⟨-, -, -, dims, -, -, -, houtputs⟩
    -- the outputs of the second generic have one map, so those of the source do
    have hsame : ∀ map ∈ g.output_maps,
        map = ((g.output_maps.getLastD []).map ((keptDims g info).idxOf ·)).map
          (dims.getD · 0) := by
      intro map hmap
      obtain ⟨r, hr, rfl⟩ := List.getElem_of_mem hmap
      rw [← hget r hr, ← houtputs r hr, second_output_maps body hr]
    intro map hmap
    exact (hsame map hmap).trans (hsame _ h.last_mem).symm
  · intro hsame
    refine ⟨h.first_wellFormed, h.second_wellFormed hyields hordered, ?_, keptDims g info,
      kept_nodup, rfl, ?_, ?_⟩
    · intro r hr
      rw [h.first_output_maps hr, h.second_input_maps body hr]
      simp only [firstGeneric, h.input, List.headD_cons, secondGeneric]
      rw [select_idxOf (List.filter_subset_self _), select_idxOf h.shared_subset_kept]
    · intro d hd
      rw [h.mem_kept]
      have hlt : d < g.iterator_types.length := (List.getElem?_eq_some_iff.1 hd).1
      refine ⟨h.wellFormed.sizes_length ▸ hlt, ?_⟩
      intro hout
      have := (h.mem_reduction.1 (.inl hout)).2
      rw [hd] at this
      cases this
    · intro r hr
      rw [second_output_maps body hr, map_getD_map_idxOf (h.output_subset_kept h.last_mem), hget r hr]
      exact (hsame _ (List.getElem_mem hr)).symm

end Partitioned

end SplitReductionInnerOuterDim
