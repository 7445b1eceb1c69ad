import DataflowScheduler.Util.Digits
import Mathlib.Tactic.Common

/-!
# Normalizing the grid to one dimension

`NormalizeGridTo1D.cpp` makes the grid of a function one-dimensional and rebuilds the coordinates of
a compute tile from its flat id.
-/

namespace DataflowScheduler

namespace NormalizeGridTo1D

/-- A value that is built from the flat id. -/
inductive Coord where
  | flat
  | constant (value : BitVec 64)
  | divui (lhs rhs : Coord)
  | remui (lhs rhs : Coord)
  deriving DecidableEq

/-- The value on the tile with the given flat id. Division by zero is undefined. -/
def Coord.eval (id : BitVec 64) : Coord → Option (BitVec 64)
  | .flat => some id
  | .constant value => some value
  | .divui lhs rhs => do
      let a ← lhs.eval id
      let b ← rhs.eval id
      if b = 0 then none else some (a / b)
  | .remui lhs rhs => do
      let a ← lhs.eval id
      let b ← rhs.eval id
      if b = 0 then none else some (a % b)

/-- The products of the dimensions behind each one. -/
def suffixes : List (BitVec 64) → List (BitVec 64)
  | [] => []
  | [_] => [1]
  | _ :: d :: dims => (suffixes (d :: dims)).headD 1 * d :: suffixes (d :: dims)

/-- One round of the loop of `delinearizeRowMajor`. -/
def coord (i : Nat) (suffix dim : BitVec 64) : Coord :=
  let v := Coord.flat
  let v := if suffix ≠ 1 then .divui v (.constant suffix) else v
  if i ≠ 0 then .remui v (.constant dim) else v

/-- `delinearizeRowMajor`. -/
def delinearizeRowMajor (dims : List (BitVec 64)) : List Coord :=
  ((suffixes dims).zip dims).mapIdx fun i d => coord i d.1 d.2

/-! ## The pass -/

/-- An entry of a `grid` attribute. -/
inductive GridAttr where
  | integer (value : BitVec 64)
  | other

/-- A `get_compute_tile_id`: the op itself, with its number of results, or the coordinates by which
its results were replaced. -/
inductive TileId where
  | results (count : Nat)
  | coords (cs : List Coord)

/-- A function. -/
structure Func where
  grid : Option (List GridAttr)
  tileOps : List TileId

/-- The dimensions that the pass reads off the attribute. -/
def readDims : List GridAttr → Except String (List (BitVec 64))
  | [] => .ok []
  | .other :: _ => .error "Grid size must be integer attribute"
  | .integer d :: grid =>
      if d.toInt ≤ 0 then .error s!"Grid size must be positive (got {d.toInt})"
      else do
        let dims ← readDims grid
        .ok (d :: dims)

/-- The rewrite of one `get_compute_tile_id`. -/
def rewriteTileOp (dims : List (BitVec 64)) : TileId → Except String TileId
  | .results count =>
      if count ≠ dims.length then
        .error s!"get_compute_tile_id result count ({count}) does not match grid rank ({dims.length})"
      else .ok (.coords (delinearizeRowMajor dims))
  | .coords cs => .ok (.coords cs)

/-- What the pass does to one function. -/
def normalizeGrid (func : Func) : Except String Func :=
  match func.grid with
  | none => .ok func
  | some grid =>
      if grid.isEmpty then .error "Grid must have at least one dimension"
      else do
        let dims ← readDims grid
        if dims.length = 1 then .ok func
        else do
          let flatSize := dims.foldl (· * ·) 1
          let tileOps ← func.tileOps.mapM (rewriteTileOp dims)
          .ok ⟨some [.integer flatSize], tileOps⟩

/-- `NormalizeGridTo1DPass::runOnOperation`. -/
def runOnOperation (module : List Func) : Except String (List Func) :=
  module.mapM normalizeGrid

/-! ## What a tile sees -/

/-- The sizes of the grid that a function runs on. -/
def Func.gridSizes (func : Func) : List Nat :=
  (func.grid.getD []).filterMap fun
    | .integer d => some d.toNat
    | .other => none

/-- The coordinates that an op yields, tile by tile. Tiles are numbered row-major over the grid, and
on a one-dimensional grid the id of a tile is its number. -/
def TileId.visited (gridSizes : List Nat) : TileId → List (Option (List (BitVec 64)))
  | .results _ => (RowMajor.points gridSizes).map fun p => some (p.map (BitVec.ofNat 64))
  | .coords cs => (RowMajor.points gridSizes).map fun p =>
      cs.mapM (Coord.eval (BitVec.ofNat 64 (RowMajor.number gridSizes p)))

/-! ## Delinearization is division with remainder -/

section

variable {dims : List (BitVec 64)}

/-- A coordinate is in the range of its dimension. -/
def InRange (coords dims : List (BitVec 64)) : Prop :=
  List.Forall₂ (fun c d => 0 ≤ c.toInt ∧ c.toInt < d.toInt) coords dims

/-- The dimensions are positive and their product fits. -/
structure Fits (dims : List (BitVec 64)) : Prop where
  pos : ∀ d ∈ dims, 0 < d.toInt
  prod_lt : (dims.map BitVec.toNat).prod < 2 ^ 63

theorem toInt_of_lt {b : BitVec 64} (h : b.toNat < 2 ^ 63) : b.toInt = b.toNat :=
  BitVec.toInt_eq_toNat_of_lt (by omega)

theorem toNat_lt_of_pos {d : BitVec 64} (h : 0 < d.toInt) : 0 < d.toNat ∧ d.toNat < 2 ^ 63 := by
  rw [BitVec.toInt_eq_toNat_cond] at h
  have := d.isLt
  split at h <;> omega

theorem Fits.tail {d : BitVec 64} (h : Fits (d :: dims)) : Fits dims where
  pos e he := h.pos e (List.mem_cons_of_mem _ he)
  prod_lt := by
    have hd := (toNat_lt_of_pos (h.pos d List.mem_cons_self)).1
    have hlt := h.prod_lt
    rw [List.map_cons, List.prod_cons] at hlt
    exact Nat.lt_of_le_of_lt (Nat.le_mul_of_pos_left _ hd) hlt

theorem length_suffixes (dims : List (BitVec 64)) : (suffixes dims).length = dims.length := by
  induction dims using suffixes.induct with
  | case1 => rfl
  | case2 => rfl
  | case3 d e dims ih => simp [suffixes, ih]

/-- No suffix product overflows. -/
theorem getElem?_suffixes (h : Fits dims) {i : Nat} (hi : i < dims.length) :
    (suffixes dims)[i]?.map BitVec.toNat = some (RowMajor.step (dims.map BitVec.toNat) i) := by
  induction dims using suffixes.induct generalizing i with
  | case1 => cases hi
  | case2 d =>
      have : i = 0 := by simpa using hi
      subst this
      rfl
  | case3 d e dims ih =>
      cases i with
      | succ i => exact ih h.tail (by simpa using hi)
      | zero =>
          have hnext := ih h.tail (i := 0) (by simp)
          rw [← List.head?_eq_getElem?] at hnext
          obtain ⟨suffix, hsuffix, heq⟩ := Option.map_eq_some_iff.mp hnext
          have hprod : (suffix * e).toNat = ((e :: dims).map BitVec.toNat).prod := by
            have hlt := h.tail.prod_lt
            rw [List.map_cons, List.prod_cons] at hlt ⊢
            rw [BitVec.toNat_mul, heq, List.map_cons, RowMajor.step_cons_zero, Nat.mul_comm,
              Nat.mod_eq_of_lt (by omega)]
          rw [suffixes, List.headD_eq_head?_getD, hsuffix]
          show some (suffix * e).toNat = _
          rw [hprod]
          rfl

/-- One coordinate. The innermost one is not divided, and the outermost one needs no remainder. -/
theorem eval_coord (h : Fits dims) {id : BitVec 64}
    (hid : id.toNat < (dims.map BitVec.toNat).prod) {i : Nat} {d suffix : BitVec 64}
    (hd : dims[i]? = some d) (hsuffix : (suffixes dims)[i]? = some suffix) :
    (coord i suffix d).eval id =
      ((RowMajor.digits (dims.map BitVec.toNat) id.toNat)[i]?).map (BitVec.ofNat 64) := by
  have hi : i < dims.length := (List.getElem?_eq_some_iff.mp hd).1
  have hsize : (dims.map BitVec.toNat)[i]? = some d.toNat := by rw [List.getElem?_map, hd]; rfl
  have hstep : suffix.toNat = RowMajor.step (dims.map BitVec.toNat) i := by
    have := getElem?_suffixes h hi
    rw [hsuffix] at this
    exact Option.some.inj this
  have hdpos : 0 < d.toNat := (toNat_lt_of_pos (h.pos d (List.mem_of_getElem? hd))).1
  have hsuffixPos : 0 < suffix.toNat := by
    rw [hstep]
    have hdvd := RowMajor.step_mul_dvd hsize
    have hprod : 0 < (dims.map BitVec.toNat).prod := by omega
    exact Nat.pos_of_mul_pos_right (Nat.pos_of_dvd_of_pos hdvd hprod)
  -- the quotient, also where the division is left out
  have hquotient : (if suffix ≠ 1 then Coord.divui .flat (.constant suffix) else .flat).eval id =
      some (id / suffix) := by
    by_cases hone : suffix = 1
    · rw [if_neg (not_not_intro hone), hone]
      show some id = some (id / 1#64)
      rw [BitVec.udiv_one]
    · have hne : suffix ≠ 0 := by
        intro hzero
        rw [hzero] at hsuffixPos
        exact absurd hsuffixPos (Nat.lt_irrefl 0)
      rw [if_pos hone]
      show (if suffix = 0 then none else some (id / suffix)) = _
      rw [if_neg hne]
  have hne : d ≠ 0 := by
    intro hzero
    rw [hzero] at hdpos
    exact absurd hdpos (Nat.lt_irrefl 0)
  have hremainder : (Coord.remui (if suffix ≠ 1 then Coord.divui .flat (.constant suffix) else .flat)
      (.constant d)).eval id = some (id / suffix % d) := by
    rw [Coord.eval, hquotient]
    show (if d = 0 then none else some (id / suffix % d)) = _
    rw [if_neg hne]
  have hdigit := RowMajor.getElem?_digits hid hsize
  rw [hdigit, Option.map_some, ← hstep]
  have htoNat : BitVec.ofNat 64 (id.toNat / suffix.toNat % d.toNat) = id / suffix % d := by
    apply BitVec.eq_of_toNat_eq
    rw [BitVec.toNat_umod, BitVec.toNat_udiv, BitVec.toNat_ofNat, Nat.mod_eq_of_lt]
    have := (id / suffix % d).isLt
    rwa [BitVec.toNat_umod, BitVec.toNat_udiv] at this
  rw [htoNat, coord]
  cases i with
  | succ i => exact hremainder
  | zero =>
      -- below the whole product the outermost quotient is in range already
      have hlt : (id / suffix).toNat < d.toNat := by
        rw [BitVec.toNat_udiv, Nat.div_lt_iff_lt_mul hsuffixPos, hstep, Nat.mul_comm]
        cases dims with
        | nil => cases hd
        | cons e dims =>
            cases hd
            rw [List.map_cons, List.prod_cons] at hid
            rw [List.map_cons, RowMajor.step_cons_zero, Nat.mul_comm]
            exact hid
      have hmod : id / suffix % d = id / suffix := by
        apply BitVec.eq_of_toNat_eq
        rw [BitVec.toNat_umod, Nat.mod_eq_of_lt hlt]
      rw [hmod]
      exact hquotient

/-- The coordinates of a tile are the digits of its flat id. -/
theorem mapM_eval_delinearizeRowMajor (h : Fits dims) {id : BitVec 64}
    (hid : id.toNat < (dims.map BitVec.toNat).prod) :
    (delinearizeRowMajor dims).mapM (Coord.eval id) =
      some ((RowMajor.digits (dims.map BitVec.toNat) id.toNat).map (BitVec.ofNat 64)) := by
  have hvalues : (delinearizeRowMajor dims).map (Coord.eval id) =
      (RowMajor.digits (dims.map BitVec.toNat) id.toNat).map fun n => some (BitVec.ofNat 64 n) := by
    apply List.ext_getElem?
    intro i
    rw [List.getElem?_map, List.getElem?_map, delinearizeRowMajor, List.getElem?_mapIdx]
    by_cases hi : i < dims.length
    · have hd : dims[i]? = some dims[i] := List.getElem?_eq_getElem hi
      have hlen : i < (suffixes dims).length := length_suffixes dims ▸ hi
      have hsuffix : (suffixes dims)[i]? = some (suffixes dims)[i] := List.getElem?_eq_getElem hlen
      have hzip : ((suffixes dims).zip dims)[i]? = some ((suffixes dims)[i], dims[i]) :=
        List.getElem?_zip_eq_some.mpr ⟨hsuffix, hd⟩
      have hdigit : i < (RowMajor.digits (dims.map BitVec.toNat) id.toNat).length := by
        rw [RowMajor.length_digits, List.length_map]
        exact hi
      have heval := eval_coord h hid hd hsuffix
      rw [List.getElem?_eq_getElem hdigit] at heval ⊢
      rw [hzip]
      exact congrArg some heval
    · have hnone : ((suffixes dims).zip dims)[i]? = none := by
        rw [List.getElem?_eq_none]
        rw [List.length_zip, length_suffixes]
        omega
      rw [hnone, List.getElem?_eq_none]
      · rfl
      · rw [RowMajor.length_digits, List.length_map]
        omega
  calc (delinearizeRowMajor dims).mapM (Coord.eval id)
      _ = ((delinearizeRowMajor dims).map (Coord.eval id)).mapM fun v => v :=
        (List.mapM_map (f := Coord.eval id) (g := fun v => v)).symm
      _ = _ := by
        rw [hvalues, List.mapM_map]
        exact List.mapM_pure

/-! ## Coordinates in range -/

/-- Coordinates in range are the indices of the grid. -/
theorem InRange.mem_points {coords : List (BitVec 64)} (h : InRange coords dims) :
    coords.map BitVec.toNat ∈ RowMajor.points (dims.map BitVec.toNat) := by
  rw [RowMajor.mem_points, List.forall₂_map_left_iff, List.forall₂_map_right_iff]
  apply h.imp
  intro c d hcd
  rw [BitVec.toInt_eq_toNat_cond, BitVec.toInt_eq_toNat_cond] at hcd
  have := c.isLt
  have := d.isLt
  split at hcd <;> split at hcd <;> omega

/-- And the other way round. -/
theorem Fits.inRange (h : Fits dims) {index : List Nat}
    (hindex : index ∈ RowMajor.points (dims.map BitVec.toNat)) :
    InRange (index.map (BitVec.ofNat 64)) dims ∧
      (index.map (BitVec.ofNat 64)).map BitVec.toNat = index := by
  rw [RowMajor.mem_points, List.forall₂_map_right_iff] at hindex
  induction hindex with
  | nil => exact ⟨.nil, rfl⟩
  | @cons i d index dims hlt _ ih =>
      obtain ⟨hrange, heq⟩ := ih h.tail
      have hd := toNat_lt_of_pos (h.pos d List.mem_cons_self)
      have hi : (BitVec.ofNat 64 i).toNat = i := by
        rw [BitVec.toNat_ofNat, Nat.mod_eq_of_lt (by omega)]
      refine ⟨.cons ?_ hrange, ?_⟩
      · rw [toInt_of_lt (b := BitVec.ofNat 64 i) (by omega), toInt_of_lt hd.2, hi]
        omega
      · rw [List.map_cons, List.map_cons, hi, heq]

/-- A tile on the grid of the product has its coordinates on the grid of the dimensions. -/
theorem Fits.map_delinearized (h : Fits dims) :
    (List.range (dims.map BitVec.toNat).prod).map
        (fun n => (delinearizeRowMajor dims).mapM (Coord.eval (BitVec.ofNat 64 n))) =
      (RowMajor.points (dims.map BitVec.toNat)).map fun p => some (p.map (BitVec.ofNat 64)) := by
  rw [RowMajor.points_eq_map_digits, List.map_map]
  apply List.map_congr_left
  intro n hn
  have hlt := List.mem_range.mp hn
  have hfits := h.prod_lt
  have heq : (BitVec.ofNat 64 n).toNat = n := by
    rw [BitVec.toNat_ofNat, Nat.mod_eq_of_lt (by omega)]
  rw [mapM_eval_delinearizeRowMajor h (by rwa [heq]), heq]
  rfl

/-- Each tile in range is there once. -/
theorem Fits.count_eq_one (h : Fits dims) {coords : List (BitVec 64)}
    (hcoords : InRange coords dims) :
    ((RowMajor.points (dims.map BitVec.toNat)).map fun p =>
      some (p.map (BitVec.ofNat 64))).count (some coords) = 1 := by
  apply List.count_eq_one_of_mem
  · rw [List.nodup_map_iff_inj_on (RowMajor.nodup_points _)]
    intro p hp q hq heq
    rw [← (h.inRange hp).2, ← (h.inRange hq).2, Option.some.inj heq]
  · refine List.mem_map.mpr ⟨_, hcoords.mem_points, ?_⟩
    rw [List.map_map]
    congr 1
    exact List.map_id'' (fun c => by simp) _

/-! ## The pass on a grid that fits -/

theorem readDims_eq (h : Fits dims) : readDims (dims.map .integer) = .ok dims := by
  induction dims with
  | nil => rfl
  | cons d dims ih =>
      have hd : ¬ d.toInt ≤ 0 := by
        have := h.pos d List.mem_cons_self
        omega
      rw [List.map_cons, readDims, if_neg hd, ih h.tail]
      rfl

theorem Fits.foldl_mul (h : Fits dims) :
    (dims.foldl (· * ·) 1).toNat = (dims.map BitVec.toNat).prod := by
  have hgen : ∀ (dims : List (BitVec 64)) (b : BitVec 64),
      (dims.foldl (· * ·) b).toNat = b.toNat * (dims.map BitVec.toNat).prod % 2 ^ 64 := by
    intro dims
    induction dims with
    | nil =>
        intro b
        rw [List.foldl_nil, List.map_nil, List.prod_nil, Nat.mul_one, Nat.mod_eq_of_lt b.isLt]
    | cons d dims ih =>
        intro b
        rw [List.foldl_cons, ih, BitVec.toNat_mul, Nat.mod_mul_mod, List.map_cons, List.prod_cons,
          Nat.mul_assoc]
  have hfits := h.prod_lt
  rw [hgen, show BitVec.toNat (1 : BitVec 64) = 1 from rfl, Nat.one_mul, Nat.mod_eq_of_lt (by omega)]

/-- A function whose ops have as many results as the grid has dimensions is rewritten. -/
theorem normalizeGrid_eq (h : Fits dims) {func : Func}
    (hgrid : func.grid = some (dims.map .integer)) (hlen : 2 ≤ dims.length)
    (hops : ∀ op ∈ func.tileOps, op = .results dims.length) :
    normalizeGrid func = .ok ⟨some [.integer (dims.foldl (· * ·) 1)],
      func.tileOps.map fun _ => .coords (delinearizeRowMajor dims)⟩ := by
  have hne : (dims.map GridAttr.integer).isEmpty = false := by
    cases dims with
    | nil => simp at hlen
    | cons d dims => rfl
  have hrewrite : func.tileOps.mapM (rewriteTileOp dims) =
      .ok (func.tileOps.map fun _ => .coords (delinearizeRowMajor dims)) := by
    have hcongr : ∀ ops : List TileId, (∀ op ∈ ops, op = .results dims.length) →
        ops.mapM (rewriteTileOp dims) =
          .ok (ops.map fun _ => .coords (delinearizeRowMajor dims)) := by
      intro ops
      induction ops with
      | nil => exact fun _ => rfl
      | cons op ops ih =>
          intro hall
          have hop : rewriteTileOp dims op = .ok (.coords (delinearizeRowMajor dims)) := by
            rw [hall op List.mem_cons_self, rewriteTileOp, if_neg (not_not_intro rfl)]
          rw [List.mapM_cons, hop, ih fun op' hop' => hall op' (List.mem_cons_of_mem _ hop')]
          rfl
    exact hcongr func.tileOps hops
  have hdims : dims.length ≠ 1 := by omega
  rw [normalizeGrid, hgrid]
  show (if (dims.map GridAttr.integer).isEmpty = true then _ else readDims _ >>= _) = _
  rw [hne, if_neg Bool.false_ne_true, readDims_eq h]
  show (if dims.length = 1 then _ else _) = _
  rw [if_neg hdims, hrewrite]
  rfl

/-- Delinearization yields coordinates in range whose row-major number is the flat id, the number of
coordinates in range yields them back, and so a function that the pass has rewritten still meets each
tile of its grid once. -/
theorem delinearizeRowMajor_roundTrips (hne : dims ≠ []) (hpos : ∀ d ∈ dims, 0 < d.toInt)
    (hfits : (dims.map BitVec.toNat).prod < 2 ^ 63) :
    (∀ id : BitVec 64, id.toNat < (dims.map BitVec.toNat).prod →
      ∃ coords, (delinearizeRowMajor dims).mapM (Coord.eval id) = some coords ∧
        InRange coords dims ∧
        RowMajor.number (dims.map BitVec.toNat) (coords.map BitVec.toNat) = id.toNat) ∧
    (∀ coords, InRange coords dims →
      (delinearizeRowMajor dims).mapM (Coord.eval (BitVec.ofNat 64
        (RowMajor.number (dims.map BitVec.toNat) (coords.map BitVec.toNat)))) = some coords) ∧
    ∀ func : Func, func.grid = some (dims.map .integer) →
      (∀ op ∈ func.tileOps, op = .results dims.length) →
      ∃ func', normalizeGrid func = .ok func' ∧ func'.tileOps.length = func.tileOps.length ∧
        func'.gridSizes = [(dims.map BitVec.toNat).prod] ∧
        ∀ op ∈ func'.tileOps, ∀ coords, InRange coords dims →
          (op.visited func'.gridSizes).count (some coords) = 1 := by
  have h : Fits dims := ⟨hpos, hfits⟩
  refine ⟨fun id hid => ?_, fun coords hcoords => ?_, fun func hgrid hops => ?_⟩
  · have hmem : RowMajor.digits (dims.map BitVec.toNat) id.toNat ∈
        RowMajor.points (dims.map BitVec.toNat) := by
      rw [RowMajor.points_eq_map_digits]
      exact List.mem_map_of_mem (List.mem_range.mpr hid)
    obtain ⟨hrange, heq⟩ := h.inRange hmem
    exact ⟨_, mapM_eval_delinearizeRowMajor h hid, hrange, by rw [heq, RowMajor.number_digits hid]⟩
  · have hmem := hcoords.mem_points
    have hlt := RowMajor.number_lt hmem
    have hid : (BitVec.ofNat 64 (RowMajor.number (dims.map BitVec.toNat)
        (coords.map BitVec.toNat))).toNat =
        RowMajor.number (dims.map BitVec.toNat) (coords.map BitVec.toNat) := by
      rw [BitVec.toNat_ofNat, Nat.mod_eq_of_lt (by omega)]
    rw [mapM_eval_delinearizeRowMajor h (by rwa [hid]), hid, RowMajor.digits_number hmem,
      List.map_map]
    congr 1
    exact List.map_id'' (fun c => by simp) _
  · by_cases hlen : dims.length = 1
    · -- a grid of one dimension stays as it is
      obtain ⟨d, rfl⟩ := List.length_eq_one_iff.mp hlen
      have hd : ¬ d.toInt ≤ 0 := by
        have := hpos d List.mem_cons_self
        omega
      refine ⟨func, ?_, rfl, ?_, fun op hop coords hcoords => ?_⟩
      · rw [normalizeGrid, hgrid]
        show (readDims [.integer d] >>= _) = _
        rw [show readDims [.integer d] = .ok [d] from readDims_eq h]
        rfl
      · rw [Func.gridSizes, hgrid]
        simp
      · have hsizes : func.gridSizes = [d].map BitVec.toNat := by
          rw [Func.gridSizes, hgrid]
          rfl
        rw [hops op hop, TileId.visited, hsizes]
        exact h.count_eq_one hcoords
    · have hlen : 2 ≤ dims.length := by
        have := List.length_pos_of_ne_nil hne
        omega
      refine ⟨_, normalizeGrid_eq h hgrid hlen hops, List.length_map .., ?_,
        fun op hop coords hcoords => ?_⟩
      · show [(dims.foldl (· * ·) 1).toNat] = _
        rw [h.foldl_mul]
      · obtain ⟨op', -, rfl⟩ := List.mem_map.mp hop
        show ((RowMajor.points [(dims.foldl (· * ·) 1).toNat]).map fun p =>
          (delinearizeRowMajor dims).mapM (Coord.eval (BitVec.ofNat 64
            (RowMajor.number [(dims.foldl (· * ·) 1).toNat] p)))).count (some coords) = 1
        have hnumber : ∀ m n : Nat, RowMajor.number [m] [n] = n := by
          intro m n
          simp [RowMajor.number]
        rw [h.foldl_mul, RowMajor.points_singleton, List.map_map]
        have hmap : ((fun p => (delinearizeRowMajor dims).mapM (Coord.eval (BitVec.ofNat 64
            (RowMajor.number [(dims.map BitVec.toNat).prod] p)))) ∘ fun n => [n]) =
            fun n => (delinearizeRowMajor dims).mapM (Coord.eval (BitVec.ofNat 64 n)) := by
          funext n
          rw [Function.comp, hnumber]
        rw [hmap, h.map_delinearized]
        exact h.count_eq_one hcoords

/-- A grid with a unit dimension. -/
def threeDims : List (BitVec 64) := [4, 1, 3]

theorem delinearizeRowMajor_roundTrips_threeDims :
    (∀ id : BitVec 64, id.toNat < (threeDims.map BitVec.toNat).prod →
      ∃ coords, (delinearizeRowMajor threeDims).mapM (Coord.eval id) = some coords ∧
        InRange coords threeDims ∧
        RowMajor.number (threeDims.map BitVec.toNat) (coords.map BitVec.toNat) = id.toNat) ∧
    (∀ coords, InRange coords threeDims →
      (delinearizeRowMajor threeDims).mapM (Coord.eval (BitVec.ofNat 64
        (RowMajor.number (threeDims.map BitVec.toNat) (coords.map BitVec.toNat)))) =
          some coords) ∧
    ∀ func : Func, func.grid = some (threeDims.map .integer) →
      (∀ op ∈ func.tileOps, op = .results threeDims.length) →
      ∃ func', normalizeGrid func = .ok func' ∧ func'.tileOps.length = func.tileOps.length ∧
        func'.gridSizes = [(threeDims.map BitVec.toNat).prod] ∧
        ∀ op ∈ func'.tileOps, ∀ coords, InRange coords threeDims →
          (op.visited func'.gridSizes).count (some coords) = 1 :=
  delinearizeRowMajor_roundTrips (by simp [threeDims]) (by simp [threeDims]) (by simp [threeDims])

example : (delinearizeRowMajor threeDims).mapM (Coord.eval 10) = some [3, 0, 1] := by decide

end

end NormalizeGridTo1D

end DataflowScheduler
