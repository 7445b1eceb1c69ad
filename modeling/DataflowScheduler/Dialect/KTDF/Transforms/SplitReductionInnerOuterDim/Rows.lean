import DataflowScheduler.Dialect.KTDF.Transforms.SplitReductionInnerOuterDim.Partials

/-!
# The rows

There are as many rows as the inner dimension is long, with the elements that the outer dimensions
sweep, and an input has any rows one likes.
-/

namespace SplitReductionInnerOuterDim

open RowMajor

variable {V : Type} [Inhabited V]

namespace Partitioned

variable {g : GenericOp} {input_map : List Nat} {info : CandidateInfo}

/-- The points that are totalled count up in the inner dimension. -/
theorem totalled_inner (h : Partitioned g input_map info) {o : List Nat}
    (ho : o ∈ points (select (g.output_maps.getLastD []) g.sizes)) :
    (totalled g info o).map (·.getD ((keptDims g info).idxOf info.inner_dim) 0) =
      List.range (g.sizes.getD info.inner_dim 0) := by
  have hsub := h.output_subset_kept h.last_mem
  have hlt := List.idxOf_lt_length_of_mem h.inner_mem_kept
  have hsize : (select (keptDims g info) g.sizes).getD
      ((keptDims g info).idxOf info.inner_dim) 0 = g.sizes.getD info.inner_dim 0 := by
    rw [getD_select hlt, List.getElem_idxOf]
  rw [← hsize]
  apply filter_select_range
  · exact nodup_map_idxOf (h.wellFormed.map_nodup _ (List.mem_append_right _ h.last_mem)) hsub
  · simpa using map_idxOf_lt hsub
  · simpa using hlt
  · intro d hd
    rw [length_select] at hd
    rw [mem_map_idxOf kept_nodup hd]
    rcases h.kept_cases h.last_mem (List.getElem_mem hd) with hmem | hinner
    · exact .inl hmem
    · right
      rw [← hinner, kept_nodup.idxOf_getElem]
  · rw [mem_map_idxOf kept_nodup hlt, List.getElem_idxOf]
    exact h.reduction_not_output h.last_mem (.inr rfl)
  · rwa [select_idxOf hsub]

/-- In the row of a point, the outer dimensions are swept once. -/
theorem row_outer (h : Partitioned g input_map info) {k : List Nat}
    (hk : k ∈ points (select (keptDims g info) g.sizes)) :
    (((points (select input_map g.sizes)).filter fun l =>
      select ((input_map.filter (· ∉ info.outer_dims)).map (input_map.idxOf ·)) l =
        select ((input_map.filter (· ∉ info.outer_dims)).map ((keptDims g info).idxOf ·)) k).map
        (select (info.outer_dims.map (input_map.idxOf ·)))).Perm
      (points (select info.outer_dims g.sizes)) := by
  have hshared : input_map.filter (· ∉ info.outer_dims) ⊆ input_map := List.filter_subset_self _
  rw [← select_idxOf h.outer_subset]
  apply filter_select_perm
  · exact nodup_map_idxOf (h.input_nodup.filter _) hshared
  · exact nodup_map_idxOf h.outer_nodup h.outer_subset
  · simpa using map_idxOf_lt hshared
  · simpa using map_idxOf_lt h.outer_subset
  · intro d hd
    rw [length_select] at hd
    rw [mem_map_idxOf h.input_nodup hd, mem_map_idxOf h.input_nodup hd]
    by_cases hout : input_map[d] ∈ info.outer_dims
    · exact .inr hout
    · exact .inl (by simp [hout])
  · intro d hd
    have hlt := map_idxOf_lt h.outer_subset d hd
    rw [mem_map_idxOf h.input_nodup hlt] at hd ⊢
    simp [hd]
  · rw [select_idxOf hshared, ← select_idxOf h.shared_subset_kept]
    apply select_mem_points hk
    simpa using map_idxOf_lt h.shared_subset_kept

theorem totalled_mem {o k : List Nat} (hk : k ∈ totalled g info o) :
    k ∈ points (select (keptDims g info) g.sizes) :=
  List.mem_of_mem_filter hk

omit [Inhabited V] in
theorem length_row (h : Partitioned g input_map info) (x : Tensor V) {k : List Nat}
    (hk : k ∈ points (select (keptDims g info) g.sizes)) :
    (row g input_map info x k).length = (select info.outer_dims g.sizes).prod := by
  have hlen := (h.row_outer hk).length_eq
  rw [List.length_map, length_points] at hlen
  rw [row, List.length_map, hlen]

theorem length_totalled (h : Partitioned g input_map info) {o : List Nat}
    (ho : o ∈ points (select (g.output_maps.getLastD []) g.sizes)) :
    (totalled g info o).length = g.sizes.getD info.inner_dim 0 := by
  have hlen := congrArg List.length (h.totalled_inner ho)
  simpa using hlen

/-! ### An input with given rows -/

/-- The input that has the elements of `rows[j]` where the inner dimension is `j`. -/
def ofRows (g : GenericOp) (input_map : List Nat) (info : CandidateInfo) (rows : List (List V)) :
    Tensor V := fun l =>
  (rows.getD (l.getD (input_map.idxOf info.inner_dim) 0) []).getD
    ((points (select info.outer_dims g.sizes)).idxOf
      (select (info.outer_dims.map (input_map.idxOf ·)) l)) default

/-- The inner dimension is handed on. -/
theorem inner_eq_of_row (h : Partitioned g input_map info) {k l : List Nat}
    (hl : select ((input_map.filter (· ∉ info.outer_dims)).map (input_map.idxOf ·)) l =
      select ((input_map.filter (· ∉ info.outer_dims)).map ((keptDims g info).idxOf ·)) k) :
    l.getD (input_map.idxOf info.inner_dim) 0 =
      k.getD ((keptDims g info).idxOf info.inner_dim) 0 := by
  simp only [select, List.map_map] at hl
  exact List.map_inj_left.1 hl _ (h.mem_shared.2 ⟨h.inner_mem, h.inner_mem_kept⟩)

theorem map_getD_idxOf {l : List (List Nat)} (hl : l.Nodup) {row : List V}
    (hlen : row.length = l.length) : l.map (fun w => row.getD (l.idxOf w) default) = row := by
  apply List.ext_getElem (by simp [hlen])
  intro n hn hn'
  rw [List.length_map] at hn
  simp [hl.idxOf_getElem, hn']

theorem row_ofRows (h : Partitioned g input_map info) {rows : List (List V)} {k : List Nat}
    (hk : k ∈ points (select (keptDims g info) g.sizes)) {picked : List V}
    (hpicked : rows.getD (k.getD ((keptDims g info).idxOf info.inner_dim) 0) [] = picked)
    (hlen : picked.length = (select info.outer_dims g.sizes).prod) :
    (row g input_map info (ofRows g input_map info rows) k).Perm picked := by
  have hvalues : row g input_map info (ofRows g input_map info rows) k =
      (((points (select input_map g.sizes)).filter fun l =>
        select ((input_map.filter (· ∉ info.outer_dims)).map (input_map.idxOf ·)) l =
          select ((input_map.filter (· ∉ info.outer_dims)).map ((keptDims g info).idxOf ·)) k).map
          (select (info.outer_dims.map (input_map.idxOf ·)))).map fun w =>
            picked.getD ((points (select info.outer_dims g.sizes)).idxOf w) default := by
    unfold row
    rw [List.map_map]
    apply List.map_congr_left
    intro l hl
    have heq := (List.mem_filter.1 hl).2
    rw [decide_eq_true_eq] at heq
    unfold ofRows
    rw [h.inner_eq_of_row heq, hpicked]
    rfl
  rw [hvalues]
  have hperm := (h.row_outer hk).map fun w =>
    picked.getD ((points (select info.outer_dims g.sizes)).idxOf w) default
  rwa [map_getD_idxOf (nodup_points _) (by rw [hlen, length_points])] at hperm

theorem ofRows_mem (h : Partitioned g input_map info) {rows : List (List V)} {D : V → Prop}
    (hlen : rows.length = g.sizes.getD info.inner_dim 0)
    (hrows : ∀ row ∈ rows, row.length = (select info.outer_dims g.sizes).prod ∧ ∀ x ∈ row, D x) :
    ∀ i ∈ points (select input_map g.sizes), D (ofRows g input_map info rows i) := by
  intro i hi
  have hinner : i.getD (input_map.idxOf info.inner_dim) 0 < rows.length := by
    rw [hlen]
    exact getD_lt_of_select hi h.inner_mem
  have houter : select (info.outer_dims.map (input_map.idxOf ·)) i ∈
      points (select info.outer_dims g.sizes) := by
    rw [← select_idxOf h.outer_subset]
    apply select_mem_points hi
    simpa using map_idxOf_lt h.outer_subset
  obtain ⟨hrow, hmem⟩ := hrows _ (List.getElem_mem hinner)
  have hlt := List.idxOf_lt_length_of_mem houter
  rw [length_points, ← hrow] at hlt
  have hget : rows.getD (i.getD (input_map.idxOf info.inner_dim) 0) [] =
      rows[i.getD (input_map.idxOf info.inner_dim) 0] := by
    rw [List.getD_eq_getElem?_getD, List.getElem?_eq_getElem hinner, Option.getD_some]
  unfold ofRows
  rw [hget, List.getD_eq_getElem?_getD, List.getElem?_eq_getElem hlt]
  exact hmem _ (List.getElem_mem hlt)

end Partitioned

end SplitReductionInnerOuterDim
