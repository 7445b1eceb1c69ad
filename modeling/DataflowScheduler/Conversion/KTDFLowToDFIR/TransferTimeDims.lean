import DataflowScheduler.Util.RowMajor
import Mathlib.Data.List.InsertIdx

/-!
# Time dimensions of a transfer

How one side of a transfer is walked over time: every dimension of the walked box that is not a
unit dimension advances by one, and the innermost one by a whole vector. `points_eq_walk` says that
the walk and the lanes of its vectors are the row-major order of the box, provided whole vectors
fill its rows.
-/

namespace DataTransferLowering

open RowMajor

/-! ## The traversal -/

/-- One time dimension: how many steps it has, which memref dimension it advances, and by how many
indices of that dimension per step. -/
structure TransferTimeDim where
  extent : Nat
  memref_dim : Nat
  index_step : Nat
  deriving DecidableEq, Repr

/-- The time dimensions of one side, slowest-varying first, for a memref of `rank` dimensions. The
source keeps the extents and the steps in two parallel lists. -/
structure TransferTimeDims where
  dims : List TransferTimeDim
  rank : Nat
  deriving DecidableEq, Repr

namespace TransferTimeDims

def extents (d : TransferTimeDims) : List Nat :=
  d.dims.map (·.extent)

/-- Write what one time dimension adds to its index. -/
def place (result : List Nat) (x : TransferTimeDim × Nat) : List Nat :=
  result.set x.1.memref_dim (x.1.index_step * x.2)

/-- The offset added to each memref index at time step `time`; zero at every index that no time
dimension advances. -/
def offsets (d : TransferTimeDims) (time : List Nat) : List Nat :=
  (d.dims.zip time).foldl place (List.replicate d.rank 0)

def eraseDim (d : TransferTimeDims) (time_dim : Nat) : TransferTimeDims :=
  { d with dims := d.dims.eraseIdx time_dim }

end TransferTimeDims

/-- The time dimensions of `sizes`, whose first dimension is memref dimension `pos`. -/
def walkedDims (lanes : Nat) : Nat → List Nat → List TransferTimeDim
  | _, [] => []
  | pos, [last] =>
    -- The innermost dimension holds vectors, and is walked only if it holds more than one.
    if 1 < last / lanes then [⟨last / lanes, pos, lanes⟩] else []
  | pos, s :: r :: rest =>
    (if s ≠ 1 then [⟨s, pos, 1⟩] else []) ++ walkedDims lanes (pos + 1) (r :: rest)

/-- How `sizes` is walked over time with vectors of `lanes` elements. -/
def describeTransferTimeDims (sizes : List Nat) (lanes : Nat) : TransferTimeDims :=
  ⟨walkedDims lanes 0 sizes, sizes.length⟩

@[simp] theorem describeTransferTimeDims_dims (sizes : List Nat) (lanes : Nat) :
    (describeTransferTimeDims sizes lanes).dims = walkedDims lanes 0 sizes := rfl

@[simp] theorem describeTransferTimeDims_rank (sizes : List Nat) (lanes : Nat) :
    (describeTransferTimeDims sizes lanes).rank = sizes.length := rfl

example : (describeTransferTimeDims [2, 4, 8, 64] 64).extents = [2, 4, 8] := by decide
example : (describeTransferTimeDims [1, 1, 128] 64).offsets [1] = [0, 0, 64] := by decide

/-! ## Where a step and a lane stand -/

/-- The sizes of one vector: a row of `lanes` elements, in as many dimensions as `sizes`. -/
def vectorSizes (sizes : List Nat) (lanes : Nat) : List Nat :=
  List.replicate (sizes.length - 1) 1 ++ [lanes]

/-- The index that lane `l` of the vector of time step `time` has in the box `sizes`, read along
the dimensions of the box. -/
def walkIndex (lanes : Nat) : List Nat → List Nat → Nat → List Nat
  | [], _, _ => []
  | [last], time, l => if 1 < last / lanes then [lanes * time.headD 0 + l] else [l]
  | s :: r :: rest, time, l =>
    if s ≠ 1 then time.headD 0 :: walkIndex lanes (r :: rest) time.tail l
    else 0 :: walkIndex lanes (r :: rest) time l

/-! ## The time dimensions of a box -/

theorem extent_ne_one {lanes pos : Nat} {sizes : List Nat} {d : TransferTimeDim}
    (h : d ∈ walkedDims lanes pos sizes) : d.extent ≠ 1 := by
  induction pos, sizes using walkedDims.induct lanes with
  | case1 => simp [walkedDims] at h
  | case2 pos last hvec => grind [walkedDims]
  | case3 pos last hvec => grind [walkedDims]
  | case4 pos s r rest ih => grind [walkedDims]

theorem memref_dim_bounds {lanes pos : Nat} {sizes : List Nat} {d : TransferTimeDim}
    (h : d ∈ walkedDims lanes pos sizes) :
    pos ≤ d.memref_dim ∧ d.memref_dim < pos + sizes.length := by
  induction pos, sizes using walkedDims.induct lanes with
  | case1 => simp [walkedDims] at h
  | case2 pos last hvec => grind [walkedDims]
  | case3 pos last hvec => grind [walkedDims]
  | case4 pos s r rest ih => grind [walkedDims]

/-- No two time dimensions advance the same memref dimension. -/
theorem memref_dim_nodup (lanes pos : Nat) (sizes : List Nat) :
    ((walkedDims lanes pos sizes).map (·.memref_dim)).Nodup := by
  induction pos, sizes using walkedDims.induct lanes with
  | case1 => simp [walkedDims]
  | case2 pos last hvec => grind [walkedDims]
  | case3 pos last hvec => grind [walkedDims]
  | case4 pos s r rest ih =>
    rw [walkedDims]
    split
    · simp only [List.singleton_append, List.map_cons, List.nodup_cons]
      refine ⟨?_, ih⟩
      intro hmem
      obtain ⟨d, hd, hpos⟩ := List.mem_map.1 hmem
      have hbound := (memref_dim_bounds hd).1
      omega
    · simpa using ih

/-! ## The walk of a box -/

theorem zipWith_add_zeros (xs : List Nat) :
    List.zipWith (· + ·) xs (List.replicate xs.length 0) = xs := by
  induction xs with
  | nil => rfl
  | cons x xs ih => simp [List.replicate_succ, ih]

/-- The offsets of a time step, written along the dimensions of the box. -/
theorem foldl_place_walkedDims (lanes : Nat) (pos : Nat) (sizes time : List Nat) (l : Nat)
    (pre : List Nat) (hpre : pre.length = pos) (hsizes : sizes ≠ [])
    (htime : (walkedDims lanes pos sizes).length ≤ time.length) :
    List.zipWith (· + ·)
        (((walkedDims lanes pos sizes).zip time).foldl TransferTimeDims.place
          (pre ++ List.replicate sizes.length 0))
        (List.replicate (pos + (sizes.length - 1)) 0 ++ [l]) =
      pre ++ walkIndex lanes sizes time l := by
  induction pos, sizes using walkedDims.induct lanes generalizing time pre with
  | case1 => exact absurd rfl hsizes
  | case2 pos last hvec =>
    obtain ⟨t, time, rfl⟩ : ∃ t ts, time = t :: ts := by
      cases time with
      | nil => simp [walkedDims, hvec] at htime
      | cons t ts => exact ⟨t, ts, rfl⟩
    subst hpre
    simp [walkedDims, walkIndex, hvec, TransferTimeDims.place, List.zipWith_append,
      zipWith_add_zeros]
  | case3 pos last hvec =>
    subst hpre
    simp [walkedDims, walkIndex, hvec, List.zipWith_append, zipWith_add_zeros]
  | case4 pos s r rest ih =>
    have hlen : pos + ((s :: r :: rest).length - 1) = pos + 1 + ((r :: rest).length - 1) := by
      simp only [List.length_cons]
      omega
    have hzeros : List.replicate (s :: r :: rest).length 0 =
        [0] ++ List.replicate (r :: rest).length 0 := rfl
    rw [hlen, hzeros]
    -- The index at this dimension is fixed before the rest of the box is walked.
    have step : ∀ (x : Nat) (ts : List Nat),
        (walkedDims lanes (pos + 1) (r :: rest)).length ≤ ts.length →
        List.zipWith (· + ·)
          (((walkedDims lanes (pos + 1) (r :: rest)).zip ts).foldl TransferTimeDims.place
            ((pre ++ [x]) ++ List.replicate (r :: rest).length 0))
          (List.replicate (pos + 1 + ((r :: rest).length - 1)) 0 ++ [l]) =
        pre ++ x :: walkIndex lanes (r :: rest) ts l := by
      intro x ts hts
      rw [ih ts (pre ++ [x]) (by simp [hpre]) (by simp) hts, List.append_assoc]
      rfl
    by_cases hs : s = 1
    · have hdims : walkedDims lanes pos (s :: r :: rest) = walkedDims lanes (pos + 1) (r :: rest) := by
        simp [walkedDims, hs]
      rw [hdims] at htime ⊢
      rw [walkIndex, if_neg (not_not_intro hs), ← List.append_assoc]
      exact step 0 time htime
    · obtain ⟨t, time, rfl⟩ : ∃ t ts, time = t :: ts := by
        cases time with
        | nil => simp [walkedDims, hs] at htime
        | cons t ts => exact ⟨t, ts, rfl⟩
      have hdims : walkedDims lanes pos (s :: r :: rest) =
          ⟨s, pos, 1⟩ :: walkedDims lanes (pos + 1) (r :: rest) := by
        simp [walkedDims, hs]
      have hset : TransferTimeDims.place (pre ++ ([0] ++ List.replicate (r :: rest).length 0))
          (⟨s, pos, 1⟩, t) = (pre ++ [t]) ++ List.replicate (r :: rest).length 0 := by
        simp [TransferTimeDims.place, ← hpre]
      rw [hdims] at htime ⊢
      rw [walkIndex, if_pos hs, List.zip_cons_cons, List.foldl_cons, hset]
      exact step t time (by simpa using htime)

/-- The offsets of a time step and the index in the vector are the index in the box. -/
theorem offsets_add_lane {lanes : Nat} {sizes time : List Nat} (l : Nat) (hsizes : sizes ≠ [])
    (htime : (walkedDims lanes 0 sizes).length ≤ time.length) :
    List.zipWith (· + ·) ((describeTransferTimeDims sizes lanes).offsets time)
        (List.replicate (sizes.length - 1) 0 ++ [l]) =
      walkIndex lanes sizes time l := by
  have h := foldl_place_walkedDims lanes 0 sizes time l [] rfl hsizes htime
  rw [Nat.zero_add, List.nil_append, List.nil_append] at h
  exact h

/-- **The walk is the row-major order**: where whole vectors fill the rows of a box, its points are
the lanes of the vectors, step by step. -/
theorem points_eq_walk {lanes : Nat} {sizes : List Nat} (pos : Nat) (hsizes : sizes ≠ [])
    (hlanes : 0 < lanes) (hlast : 0 < sizes.getLast hsizes) (hdvd : lanes ∣ sizes.getLast hsizes) :
    points sizes =
      (points ((walkedDims lanes pos sizes).map (·.extent))).flatMap fun t =>
        (List.range lanes).map (walkIndex lanes sizes t) := by
  induction pos, sizes using walkedDims.induct lanes with
  | case1 => exact absurd rfl hsizes
  | case2 pos last hvec =>
    obtain ⟨v, rfl⟩ : lanes ∣ last := hdvd
    have hv : lanes * v / lanes = v := Nat.mul_div_cancel_left v hlanes
    rw [hv] at hvec
    have hindex : ∀ t, walkIndex lanes [lanes * v] t = fun l => [lanes * t.headD 0 + l] := by
      intro t
      funext l
      rw [walkIndex, hv, if_pos hvec]
    have hdims : walkedDims lanes pos [lanes * v] = [⟨v, pos, lanes⟩] := by
      rw [walkedDims, hv, if_pos hvec]
    simp only [hdims, hindex, List.map_cons, List.map_nil, points_singleton, List.flatMap_map]
    rw [Nat.mul_comm lanes v, range_mul, List.map_flatMap]
    simp [Function.comp_def]
  | case3 pos last hvec =>
    have hlast1 : last = lanes := by
      obtain ⟨v, rfl⟩ : lanes ∣ last := hdvd
      have hv : lanes * v / lanes = v := Nat.mul_div_cancel_left v hlanes
      have hpos : 0 < lanes * v := hlast
      have : 0 < v := Nat.pos_of_mul_pos_left hpos
      have : v = 1 := by omega
      simp [this]
    have hindex : ∀ t, walkIndex lanes [last] t = fun l => [l] := by
      intro t
      funext l
      rw [walkIndex, if_neg hvec]
    have hdims : walkedDims lanes pos [last] = [] := by
      rw [walkedDims, if_neg hvec]
    rw [hdims, List.map_nil, points_nil, List.flatMap_singleton, hindex, points_singleton, hlast1]
  | case4 pos s r rest ih =>
    have hrest := ih (by simp) (by simpa using hlast) (by simpa using hdvd)
    by_cases hs : s = 1
    · have hindex : ∀ t, walkIndex lanes (s :: r :: rest) t =
          fun l => 0 :: walkIndex lanes (r :: rest) t l := by
        intro t
        funext l
        rw [walkIndex, if_neg (not_not_intro hs)]
      have hdims : walkedDims lanes pos (s :: r :: rest) = walkedDims lanes (pos + 1) (r :: rest) := by
        simp [walkedDims, hs]
      simp only [hdims, hindex, points_cons, hrest, List.map_flatMap, List.map_map,
        Function.comp_def]
      rw [hs, List.range_one, List.flatMap_singleton]
    · have hindex : ∀ t ts, walkIndex lanes (s :: r :: rest) (t :: ts) =
          fun l => t :: walkIndex lanes (r :: rest) ts l := by
        intro t ts
        funext l
        rw [walkIndex, if_pos hs]
        rfl
      have hdims : walkedDims lanes pos (s :: r :: rest) =
          ⟨s, pos, 1⟩ :: walkedDims lanes (pos + 1) (r :: rest) := by
        simp [walkedDims, hs]
      rw [points_cons, hdims, hrest, List.map_cons, points_cons]
      simp [hindex, List.map_flatMap, List.flatMap_assoc, List.flatMap_map, Function.comp_def]

/-! ## One time dimension less -/

namespace TransferTimeDims

/-- Time dimensions that a side does not have do not move it. -/
theorem offsets_take (d : TransferTimeDims) (time : List Nat) :
    d.offsets (time.take d.dims.length) = d.offsets time := by
  have hzip : ∀ dims : List TransferTimeDim,
      dims.zip (time.take dims.length) = dims.zip time := by
    intro dims
    induction dims generalizing time with
    | nil => rfl
    | cons d ds ih => cases time <;> simp [ih]
  rw [offsets, offsets, hzip]

/-- Writes to different indices can be made in any order. -/
theorem foldl_place_set {xs : List (TransferTimeDim × Nat)} {m : Nat} (v : Nat) (acc : List Nat)
    (h : ∀ x ∈ xs, x.1.memref_dim ≠ m) :
    xs.foldl place (acc.set m v) = (xs.foldl place acc).set m v := by
  induction xs generalizing acc with
  | nil => rfl
  | cons x xs ih =>
    have hx : x.1.memref_dim ≠ m := h x (by simp)
    simp only [List.foldl_cons]
    rw [← ih _ fun y hy => h y (List.mem_cons_of_mem _ hy)]
    congr 1
    exact List.set_comm _ _ hx.symm

theorem foldl_place_getElem? {xs : List (TransferTimeDim × Nat)} {m : Nat} (acc : List Nat)
    (h : ∀ x ∈ xs, x.1.memref_dim ≠ m) : (xs.foldl place acc)[m]? = acc[m]? := by
  induction xs generalizing acc with
  | nil => rfl
  | cons x xs ih =>
    rw [List.foldl_cons, ih _ fun y hy => h y (List.mem_cons_of_mem _ hy)]
    exact List.getElem?_set_ne (h x (by simp))

/-- What time dimension `i` adds at step `x` can be added after all others. -/
theorem foldl_place_insertIdx {dims : List TransferTimeDim} {t : List Nat} {i : Nat} (x : Nat)
    (acc : List Nat) (hdims : (dims.map (·.memref_dim)).Nodup) (hi : i < dims.length)
    (ht : t.length + 1 = dims.length) :
    (dims.zip (t.insertIdx i x)).foldl place acc =
      (((dims.eraseIdx i).zip t).foldl place acc).set dims[i].memref_dim
        (dims[i].index_step * x) := by
  induction dims generalizing t i acc with
  | nil => simp at hi
  | cons d ds ih =>
    have hds : ∀ y ∈ ds, y.memref_dim ≠ d.memref_dim := by
      intro y hy h
      exact (List.nodup_cons.1 hdims).1 (List.mem_map.2 ⟨y, hy, h⟩)
    cases i with
    | zero =>
      have hzip : ∀ y ∈ ds.zip t, y.1.memref_dim ≠ d.memref_dim := fun y hy =>
        hds _ (List.of_mem_zip hy).1
      exact foldl_place_set _ acc hzip
    | succ i =>
      cases t with
      | nil =>
        simp only [List.length_nil, List.length_cons] at ht hi
        omega
      | cons a t =>
        simpa using ih (place acc (d, a)) (List.nodup_cons.1 hdims).2 (by simpa using hi)
          (by simpa using ht)

end TransferTimeDims

variable {sizes : List Nat} {lanes : Nat}

/-- The offsets at a step are those without time dimension `i`, with what that dimension adds
written in; without it, nothing is added there. -/
theorem offsets_insertIdx {t : List Nat} {i : Nat} (x : Nat)
    (hi : i < (walkedDims lanes 0 sizes).length)
    (ht : t.length + 1 = (walkedDims lanes 0 sizes).length) :
    (describeTransferTimeDims sizes lanes).offsets (t.insertIdx i x) =
      (((describeTransferTimeDims sizes lanes).eraseDim i).offsets t).set
        (walkedDims lanes 0 sizes)[i].memref_dim ((walkedDims lanes 0 sizes)[i].index_step * x) :=
  TransferTimeDims.foldl_place_insertIdx x _ (memref_dim_nodup lanes 0 sizes) hi ht

theorem eraseDim_offsets_getElem? (t : List Nat) {i : Nat}
    (hi : i < (walkedDims lanes 0 sizes).length) :
    let d := describeTransferTimeDims sizes lanes
    ((d.eraseDim i).offsets t)[(walkedDims lanes 0 sizes)[i].memref_dim]? = some 0 := by
  have hbound := (memref_dim_bounds (List.getElem_mem hi)).2
  have hnodup := memref_dim_nodup lanes 0 sizes
  have hother : ∀ y ∈ ((walkedDims lanes 0 sizes).eraseIdx i).zip t,
      y.1.memref_dim ≠ (walkedDims lanes 0 sizes)[i].memref_dim := by
    intro y hy heq
    obtain ⟨j, hj, hji, hy'⟩ := List.mem_eraseIdx_iff_getElem.1 (List.of_mem_zip hy).1
    rw [← hy'] at heq
    have hj' : j < ((walkedDims lanes 0 sizes).map (·.memref_dim)).length := by simpa using hj
    have hi' : i < ((walkedDims lanes 0 sizes).map (·.memref_dim)).length := by simpa using hi
    have hsame : ((walkedDims lanes 0 sizes).map (·.memref_dim))[j] =
        ((walkedDims lanes 0 sizes).map (·.memref_dim))[i] := by simpa using heq
    exact hji (hnodup.getElem_inj_iff.1 hsame)
  intro d
  show (List.foldl TransferTimeDims.place (List.replicate sizes.length 0)
    (((walkedDims lanes 0 sizes).eraseIdx i).zip t))[_]? = _
  rw [TransferTimeDims.foldl_place_getElem? _ hother]
  rw [List.getElem?_replicate, if_pos (by simpa using hbound)]

end DataTransferLowering
