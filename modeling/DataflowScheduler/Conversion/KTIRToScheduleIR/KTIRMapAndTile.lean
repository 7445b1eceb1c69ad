import DataflowScheduler.Util.Except
import Mathlib.Algebra.BigOperators.Group.List.Basic
import Mathlib.Algebra.BigOperators.Group.List.Lemmas
import Mathlib.Algebra.BigOperators.Ring.List
import Mathlib.Algebra.Order.Ring.Int
import Mathlib.Data.Int.GCD
import Mathlib.Data.List.GetD

/-!
# Tile sizes of a mapped operation

`determineTileSizes` covers a vector by the innermost dimensions of a shape. It first counts how many
of them are needed and then goes through these, from the right, with greatest common divisors.
-/

namespace DataflowScheduler

namespace KTIRMapAndTile

/-- `ShapedType::kDynamic`. -/
def kDynamic : Int := -9223372036854775808

/-- Why no tile sizes come out: the result is `failure()`, or the behaviour is undefined. -/
inductive Stop
  | failure
  | overflow
  | divisionByZero
  deriving DecidableEq

/-- A product that has to be an `int64_t`. -/
def checked (product : Int) : Except Stop Int :=
  if -9223372036854775808 ≤ product ∧ product < 9223372036854775808 then .ok product
  else .error .overflow

/-- The number of rightmost dimensions that are covered, for the sizes from the right. -/
def coverDims (vectorLength : Int) : List Int → Int → Except Stop Nat
  | [], _ => .ok 0
  | size :: sizes, product =>
      if size = kDynamic then .error .failure
      else do
        let product ← checked (product * size)
        if product ≥ vectorLength then .ok 1
        else return (← coverDims vectorLength sizes product) + 1

/-- The tile sizes of the covered dimensions, from the right. -/
def tileDims : List Int → Int → Except Stop (List Int)
  | [], _ => .ok []
  | dim :: dims, remaining =>
      let size := min (Int.gcd dim remaining : Int) dim
      if size = 0 then .error .divisionByZero
      else do return size :: (← tileDims dims (max (remaining.tdiv size) 1))

/-- `SmallVector::resize`. -/
def resize (l : List Int) (size : Nat) (value : Int) : List Int :=
  l.take size ++ List.replicate (size - l.length) value

/-- `determineTileSizes`. -/
def determineTileSizes (shape : List Int) (vectorLength : Int) (tileSizes : List Int) :
    Except Stop (List Int) := do
  let coveredDims ← coverDims vectorLength shape.reverse 1
  let tileSizes := resize tileSizes shape.length 1
  let sizes ← tileDims (shape.reverse.take coveredDims) vectorLength
  return tileSizes.take (shape.length - coveredDims) ++ sizes.reverse

/-! ## What the sizes are for -/

/-- Static sizes that cover the vector. -/
def Reaches (vectorLength : Int) (sizes : List Int) : Prop :=
  kDynamic ∉ sizes ∧ vectorLength ≤ sizes.prod

/-- A dynamic dimension is met from the right before the vector is covered. -/
def MeetsDynamic (shape : List Int) (vectorLength : Int) : Prop :=
  ∃ left right, shape = left ++ kDynamic :: right ∧ kDynamic ∉ right ∧
    ∀ suffix, suffix <:+ right → ¬ Reaches vectorLength suffix

/-- Tile sizes for a shape. -/
structure TileSizes (shape : List Int) (vectorLength : Int) (tiles : List Int) : Prop where
  length_eq : tiles.length = shape.length
  one_le : ∀ t ∈ tiles, 1 ≤ t
  dvd : ∀ i < shape.length, tiles.getD i 0 ∣ shape.getD i 0
  eq_one : ∀ left suffix, shape = left ++ suffix → Reaches vectorLength suffix →
    (∀ shorter, shorter <:+ suffix → Reaches vectorLength shorter → shorter = suffix) →
    ∀ t ∈ tiles.take left.length, t = 1
  prod_dvd : tiles.prod ∣ vectorLength
  eq_gcd : ∀ i < shape.length,
    (∀ suffix, suffix <:+ shape.drop (i + 1) → ¬ Reaches vectorLength suffix) →
    tiles.getD i 0 = Int.gcd (shape.getD i 0) (vectorLength / (tiles.drop (i + 1)).prod)

/-- What `determineTileSizes` is to do. -/
def Determines (shape : List Int) (vectorLength : Int) (result : Except Stop (List Int)) : Prop :=
  result ≠ .error .divisionByZero ∧ result ≠ .error .overflow ∧
    (result = .error .failure ↔ MeetsDynamic shape vectorLength) ∧
    ∀ tiles, result = .ok tiles → TileSizes shape vectorLength tiles

/-- Sizes that a shape can have: static ones are small enough for the product. -/
def Sized (vectorLength : Int) (sizes : List Int) : Prop :=
  ∀ size ∈ sizes, size ≠ kDynamic → 0 ≤ size ∧ vectorLength * size < 9223372036854775808

/-! ## The covered dimensions -/

/-- No dimension has covered the vector yet. -/
def Short (vectorLength product : Int) (sizes : List Int) : Prop :=
  ∀ front, front <+: sizes → front ≠ [] → product * front.prod < vectorLength

theorem short_nil (vectorLength product : Int) : Short vectorLength product [] := by
  intro front hfront hne
  exact absurd (List.prefix_nil.mp hfront) hne

theorem Short.cons {vectorLength product size : Int} {sizes : List Int}
    (hlt : product * size < vectorLength) (h : Short vectorLength (product * size) sizes) :
    Short vectorLength product (size :: sizes) := by
  intro front hfront hne
  cases front with
  | nil => exact absurd rfl hne
  | cons first front =>
    obtain ⟨rfl, htail⟩ := List.cons_prefix_cons.mp hfront
    rw [List.prod_cons, ← mul_assoc]
    by_cases hnil : front = []
    · rw [hnil, List.prod_nil, mul_one]
      exact hlt
    · exact h front htail hnil

theorem checked_mul {vectorLength product size : Int} (hproduct : 0 ≤ product)
    (hle : product ≤ vectorLength) (hsize : 0 ≤ size)
    (hfits : vectorLength * size < 9223372036854775808) :
    checked (product * size) = .ok (product * size) := by
  rw [checked, if_pos]
  have hnonneg := mul_nonneg hproduct hsize
  have hbound := mul_le_mul_of_nonneg_right hle hsize
  constructor
  · omega
  · omega

/-- The count stops at a dynamic dimension, behind the last one or where the vector is covered. -/
theorem coverDims_cases {vectorLength product : Int} {sizes : List Int}
    (hsizes : Sized vectorLength sizes) (hproduct : 0 ≤ product) (hle : product ≤ vectorLength) :
    (∃ front rest, sizes = front ++ kDynamic :: rest ∧ kDynamic ∉ front ∧
      Short vectorLength product front ∧
      coverDims vectorLength sizes product = .error .failure) ∨
    (kDynamic ∉ sizes ∧ Short vectorLength product sizes ∧
      coverDims vectorLength sizes product = .ok sizes.length) ∨
    (∃ front size rest, sizes = front ++ size :: rest ∧ kDynamic ∉ front ++ [size] ∧
      Short vectorLength product front ∧ vectorLength ≤ product * (front ++ [size]).prod ∧
      coverDims vectorLength sizes product = .ok (front.length + 1)) := by
  induction sizes generalizing product with
  | nil => exact Or.inr (Or.inl ⟨by simp, short_nil _ _, rfl⟩)
  | cons size sizes ih =>
    by_cases hdynamic : size = kDynamic
    · subst hdynamic
      exact Or.inl ⟨[], sizes, rfl, by simp, short_nil _ _, by rw [coverDims, if_pos rfl]⟩
    · obtain ⟨hsize, hfits⟩ := hsizes size List.mem_cons_self hdynamic
      have hunfold : coverDims vectorLength (size :: sizes) product =
          if product * size ≥ vectorLength then .ok 1
          else (coverDims vectorLength sizes (product * size)).map (· + 1) := by
        rw [coverDims, if_neg hdynamic, checked_mul hproduct hle hsize hfits]
        rfl
      by_cases hreach : product * size ≥ vectorLength
      · refine Or.inr (Or.inr ⟨[], size, sizes, rfl, by simpa using Ne.symm hdynamic,
          short_nil _ _, by simpa using hreach, ?_⟩)
        rw [hunfold, if_pos hreach]
        rfl
      · rw [hunfold, if_neg hreach]
        have hlt : product * size < vectorLength := lt_of_not_ge hreach
        have hrest : Sized vectorLength sizes := fun s hs => hsizes s (List.mem_cons_of_mem _ hs)
        rcases ih hrest (mul_nonneg hproduct hsize) hlt.le with
          ⟨front, rest, rfl, hstatic, hshort, hcover⟩ | ⟨hstatic, hshort, hcover⟩ |
          ⟨front, last, rest, rfl, hstatic, hshort, hreaches, hcover⟩
        · refine Or.inl ⟨size :: front, rest, rfl, ?_, hshort.cons hlt, by rw [hcover]; rfl⟩
          exact List.not_mem_cons_of_ne_of_not_mem (Ne.symm hdynamic) hstatic
        · refine Or.inr (Or.inl ⟨?_, hshort.cons hlt, by rw [hcover]; rfl⟩)
          exact List.not_mem_cons_of_ne_of_not_mem (Ne.symm hdynamic) hstatic
        · refine Or.inr (Or.inr ⟨size :: front, last, rest, rfl, ?_, hshort.cons hlt, ?_,
            by rw [hcover]; rfl⟩)
          · exact List.not_mem_cons_of_ne_of_not_mem (Ne.symm hdynamic) hstatic
          · rw [List.cons_append, List.prod_cons, ← mul_assoc]
            exact hreaches

/-! ## Their tile sizes -/

/-- A zero size is divided by. -/
theorem tileDims_of_zero {dims : List Int} {remaining : Int} (hdims : ∀ dim ∈ dims, 0 ≤ dim)
    (hzero : 0 ∈ dims) (hremaining : 1 ≤ remaining) :
    tileDims dims remaining = .error .divisionByZero := by
  induction dims generalizing remaining with
  | nil => cases hzero
  | cons dim dims ih =>
    rw [tileDims]
    by_cases hdim : dim = 0
    · subst hdim
      rw [if_pos (by simp)]
    · have hpos : 1 ≤ dim := by
        have := hdims dim List.mem_cons_self
        omega
      have hrest := ih (fun d hd => hdims d (List.mem_cons_of_mem _ hd))
        ((List.mem_cons.mp hzero).resolve_left (Ne.symm hdim))
        (Int.le_max_right (remaining.tdiv (min (Int.gcd dim remaining : Int) dim)) 1)
      rw [hrest]
      split
      · rfl
      · rfl

theorem gcd_le {dim remaining : Int} (hdim : 1 ≤ dim) : (Int.gcd dim remaining : Int) ≤ dim :=
  Int.le_of_dvd (by omega) (Int.gcd_dvd_left ..)

theorem one_le_gcd {dim remaining : Int} (hdim : 1 ≤ dim) : 1 ≤ (Int.gcd dim remaining : Int) := by
  have hpos := Int.gcd_pos_of_ne_zero_left remaining (show dim ≠ 0 by omega)
  omega

/-- Without one, every tile size is the greatest common divisor with what is left of the vector. -/
theorem exists_tileDims {dims : List Int} {remaining : Int} (hdims : ∀ dim ∈ dims, 1 ≤ dim)
    (hremaining : 1 ≤ remaining) :
    ∃ tiles, tileDims dims remaining = .ok tiles ∧ tiles.length = dims.length ∧
      tiles.prod ∣ remaining ∧ ∀ i < dims.length, 1 ≤ tiles.getD i 0 ∧
        tiles.getD i 0 = Int.gcd (dims.getD i 0) (remaining / (tiles.take i).prod) := by
  induction dims generalizing remaining with
  | nil => exact ⟨[], rfl, rfl, by simp, by simp⟩
  | cons dim dims ih =>
    have hdim := hdims dim List.mem_cons_self
    have hone : 1 ≤ (Int.gcd dim remaining : Int) := one_le_gcd hdim
    obtain ⟨quotient, hquotient⟩ : (Int.gcd dim remaining : Int) ∣ remaining := Int.gcd_dvd_right ..
    have hpos : 1 ≤ quotient := by
      by_contra hlt
      have := mul_nonpos_of_nonneg_of_nonpos (show (0 : Int) ≤ Int.gcd dim remaining by omega)
        (show quotient ≤ 0 by omega)
      omega
    have hdiv : remaining.tdiv (Int.gcd dim remaining) = quotient :=
      Int.tdiv_eq_of_eq_mul_right (by omega) hquotient
    have hdiv' : remaining / (Int.gcd dim remaining : Int) = quotient :=
      Int.ediv_eq_of_eq_mul_right (by omega) hquotient
    obtain ⟨tiles, htiles, hlength, hprod, hgcd⟩ :=
      ih (fun d hd => hdims d (List.mem_cons_of_mem _ hd)) hpos
    refine ⟨(Int.gcd dim remaining : Int) :: tiles, ?_, by simp [hlength], ?_, ?_⟩
    · rw [tileDims, min_eq_left (gcd_le hdim), if_neg (by omega), hdiv, max_eq_left hpos, htiles]
      rfl
    · rw [List.prod_cons]
      exact (mul_dvd_mul_left _ hprod).trans (dvd_of_eq hquotient.symm)
    · intro i hi
      cases i with
      | zero => simpa using hone
      | succ i =>
        obtain ⟨hle, heq⟩ := hgcd i (by simpa using hi)
        rw [List.getD_cons_succ, List.getD_cons_succ, List.take_succ_cons, List.prod_cons,
          ← Int.ediv_ediv_of_nonneg (by omega), hdiv']
        exact ⟨hle, heq⟩

/-! ## All tile sizes -/

theorem prod_reverse (l : List Int) : l.reverse.prod = l.prod :=
  (List.reverse_perm l).prod_eq

theorem getD_reverse_eq {l : List Int} {i : Nat} (hi : i < l.length) :
    l.reverse.getD i 0 = l.getD (l.length - 1 - i) 0 := by
  rw [List.getD_eq_getElem _ _ (by simpa using hi), List.getD_eq_getElem _ _ (by omega),
    List.getElem_reverse]

variable {vectorLength : Int} {left right tiles : List Int}

/-- The tile sizes of the covered dimensions, read from the left. -/
theorem covered_eq (hpos : ∀ dim ∈ right, 1 ≤ dim) (hvector : 1 ≤ vectorLength)
    (htiles : tileDims right.reverse vectorLength = .ok tiles) :
    tiles.length = right.length ∧ tiles.prod ∣ vectorLength ∧
      ∀ i < right.length, 1 ≤ tiles.reverse.getD i 0 ∧
        tiles.reverse.getD i 0 ∣ right.getD i 0 ∧
        tiles.reverse.getD i 0 =
          Int.gcd (right.getD i 0) (vectorLength / (tiles.reverse.drop (i + 1)).prod) := by
  obtain ⟨tiles', htiles', hlength, hprod, hgcd⟩ :=
    exists_tileDims (fun dim hdim => hpos dim (List.mem_reverse.mp hdim)) hvector
  rw [htiles] at htiles'
  cases htiles'
  rw [List.length_reverse] at hlength
  refine ⟨hlength, hprod, fun i hi => ?_⟩
  obtain ⟨hle, heq⟩ := hgcd (right.length - 1 - i) (by rw [List.length_reverse]; omega)
  have hdim : right.reverse.getD (right.length - 1 - i) 0 = right.getD i 0 := by
    rw [getD_reverse_eq (by omega)]
    congr 1
    omega
  rw [getD_reverse_eq (hlength ▸ hi), hlength, List.drop_reverse, prod_reverse, hlength]
  rw [hdim] at heq
  have htake : right.length - (i + 1) = right.length - 1 - i := by omega
  rw [htake]
  exact ⟨hle, heq ▸ Int.gcd_dvd_left .., heq⟩

theorem getD_tiles_left {i : Nat} (hi : i < left.length) :
    (List.replicate left.length 1 ++ tiles.reverse).getD i 0 = 1 := by
  rw [List.getD_append _ _ _ _ (by simpa using hi), List.getD_replicate _ hi]

theorem getD_tiles_right {i : Nat} (hi : left.length ≤ i) :
    (List.replicate left.length 1 ++ tiles.reverse).getD i 0 =
      tiles.reverse.getD (i - left.length) 0 := by
  rw [List.getD_append_right _ _ _ _ (by simpa using hi), List.length_replicate]

/-- What is covered from the right is what the sizes are for. -/
theorem tileSizes_append (hpos : ∀ dim ∈ right, 1 ≤ dim) (hvector : 1 ≤ vectorLength)
    (htiles : tileDims right.reverse vectorLength = .ok tiles)
    (hcovered : left = [] ∨ Reaches vectorLength right)
    (hshort : ∀ suffix, suffix <:+ right → suffix ≠ [] → suffix ≠ right →
      suffix.prod < vectorLength) :
    TileSizes (left ++ right) vectorLength
      (List.replicate left.length 1 ++ tiles.reverse) := by
  obtain ⟨hlength, hprod, hright⟩ := covered_eq hpos hvector htiles
  have hone : ∀ t ∈ tiles, 1 ≤ t := by
    intro t ht
    obtain ⟨i, hi, rfl⟩ := List.getElem_of_mem (List.mem_reverse.mpr ht)
    have hi' : i < right.length := by
      rw [List.length_reverse] at hi
      omega
    rw [← List.getD_eq_getElem _ 0 hi]
    exact (hright i hi').1
  have hprod' : (List.replicate left.length 1 ++ tiles.reverse).prod = tiles.prod := by
    rw [List.prod_append, List.prod_replicate, one_pow, one_mul, prod_reverse]
  refine ⟨by simp [hlength], ?_, ?_, ?_, hprod' ▸ hprod, ?_⟩
  · intro t ht
    rcases List.mem_append.mp ht with ht | ht
    · rw [List.eq_of_mem_replicate ht]
    · exact hone t (List.mem_reverse.mp ht)
  · intro i hi
    rcases Nat.lt_or_ge i left.length with hlt | hge
    · rw [getD_tiles_left hlt]
      exact one_dvd _
    · rw [getD_tiles_right hge, List.getD_append_right _ _ _ _ hge]
      rw [List.length_append] at hi
      exact (hright _ (by omega)).2.1
  · intro left' suffix heq hreaches hshortest t ht
    by_cases hunit : vectorLength = 1
    · -- every tile size divides the vector
      have hdvd : t ∣ 1 := by
        rw [hunit] at hprod
        exact (List.dvd_prod (List.mem_of_mem_take ht)).trans ((dvd_of_eq hprod').trans hprod)
      exact Int.eq_one_of_dvd_one (by
        rcases List.mem_append.mp (List.mem_of_mem_take ht) with ht | ht
        · rw [List.eq_of_mem_replicate ht]
          decide
        · have := hone t (List.mem_reverse.mp ht)
          omega) hdvd
    · -- no shorter suffix than the covered dimensions covers the vector
      have hle : left'.length ≤ left.length := by
        by_contra hlt
        have hsuffix : suffix <:+ right := by
          have hends : suffix <:+ left ++ right := ⟨left', heq.symm⟩
          apply List.suffix_of_suffix_length_le hends (List.suffix_append ..)
          have := congrArg List.length heq
          rw [List.length_append, List.length_append] at this
          omega
        have hne : suffix ≠ right := by
          intro h
          have := congrArg List.length heq
          rw [h, List.length_append, List.length_append] at this
          omega
        by_cases hnil : suffix = []
        · have := hreaches.2
          rw [hnil, List.prod_nil] at this
          omega
        · have := hshort suffix hsuffix hnil hne
          have := hreaches.2
          omega
      rw [List.take_append_of_le_length (by simpa using hle)] at ht
      exact List.eq_of_mem_replicate (List.mem_of_mem_take ht)
  · intro i hi hnot
    rw [List.length_append] at hi
    rcases Nat.lt_or_ge i left.length with hlt | hge
    · rcases hcovered with rfl | hreaches
      · simp at hlt
      · refine absurd hreaches (hnot right ?_)
        rw [List.drop_append_of_le_length (by omega)]
        exact List.suffix_append ..
    · have hdrop : (List.replicate left.length 1 ++ tiles.reverse).drop (i + 1) =
          tiles.reverse.drop (i - left.length + 1) := by
        rw [List.drop_append, List.length_replicate, List.drop_eq_nil_of_le (by simp; omega),
          List.nil_append]
        congr 1
        omega
      rw [getD_tiles_right hge, List.getD_append_right _ _ _ _ hge, hdrop]
      exact (hright _ (by omega)).2.2

/-! ## When the sizes are right -/

/-- For a vector of one element the last size is positive, for a longer one a zero size is behind a
dynamic one or behind those that cover the vector. -/
def Coverable (shape : List Int) (vectorLength : Int) : Prop :=
  (vectorLength = 1 → ∀ size, shape.getLast? = some size → 1 ≤ size) ∧
    (1 < vectorLength → 0 ∈ shape → kDynamic ∉ shape →
      ∃ suffix, suffix <:+ shape ∧ vectorLength ≤ suffix.prod)

/-- Nothing but the empty suffix can cover the vector. -/
theorem Short.prod_lt {sizes suffix : List Int} (h : Short vectorLength 1 sizes.reverse)
    (hsuffix : suffix <:+ sizes) (hne : suffix ≠ []) : suffix.prod < vectorLength := by
  have hlt := h suffix.reverse (List.reverse_prefix.mpr hsuffix) (by simpa using hne)
  rwa [one_mul, prod_reverse] at hlt

theorem Short.getLast?_lt {sizes : List Int} {size : Int} (h : Short vectorLength 1 sizes.reverse)
    (hlast : sizes.getLast? = some size) : size < vectorLength := by
  obtain ⟨front, rfl⟩ := List.getLast?_eq_some_iff.mp hlast
  have hlt := h.prod_lt (List.suffix_append front [size]) (by simp)
  rwa [List.prod_singleton] at hlt

theorem determineTileSizes_eq {coveredDims : Nat}
    (hcover : coverDims vectorLength (left ++ right).reverse 1 = .ok coveredDims)
    (hright : coveredDims = right.length) :
    determineTileSizes (left ++ right) vectorLength [] = do
      let tiles ← tileDims right.reverse vectorLength
      return List.replicate left.length 1 ++ tiles.reverse := by
  subst hright
  have htake : (left ++ right).reverse.take right.length = right.reverse := by
    rw [List.reverse_append, List.take_append_of_le_length (by simp),
      List.take_of_length_le (by simp)]
  have hlength : (left ++ right).length - right.length = left.length := by simp
  have hresize : (resize [] (left ++ right).length 1).take left.length =
      List.replicate left.length 1 := by
    rw [resize, List.take_nil, List.nil_append, List.length_nil, Nat.sub_zero,
      List.take_replicate, List.length_append, Nat.min_eq_left (by omega)]
  rw [determineTileSizes, hcover]
  show (tileDims ((left ++ right).reverse.take right.length) vectorLength >>= fun sizes => _) = _
  rw [htake, hlength, hresize]

/-- With positive sizes the covered dimensions get their tile sizes. -/
theorem determines_of_pos {coveredDims : Nat} (hvector : 1 ≤ vectorLength)
    (hcover : coverDims vectorLength (left ++ right).reverse 1 = .ok coveredDims)
    (hright : coveredDims = right.length) (hpos : ∀ dim ∈ right, 1 ≤ dim)
    (hcovered : left = [] ∨ Reaches vectorLength right)
    (hshort : ∀ suffix, suffix <:+ right → suffix ≠ [] → suffix ≠ right →
      suffix.prod < vectorLength) :
    Determines (left ++ right) vectorLength
      (determineTileSizes (left ++ right) vectorLength []) := by
  obtain ⟨tiles, htiles, -⟩ :=
    exists_tileDims (fun dim hdim => hpos dim (List.mem_reverse.mp hdim)) hvector
  have hresult : determineTileSizes (left ++ right) vectorLength [] =
      .ok (List.replicate left.length 1 ++ tiles.reverse) := by
    rw [determineTileSizes_eq hcover hright, htiles]
    rfl
  have hstatic : kDynamic ∉ right := by
    intro hmem
    have := hpos _ hmem
    rw [kDynamic] at this
    omega
  rw [hresult]
  refine ⟨by simp, by simp, ⟨fun h => by simp at h, ?_⟩, ?_⟩
  · -- a dynamic dimension stands to the left of the covered ones
    rintro ⟨left', right', heq, -, hnot⟩
    have hsuffix : right <:+ right' := by
      have hdynamic : kDynamic :: right' <:+ left ++ right := ⟨left', heq.symm⟩
      rcases List.suffix_or_suffix_of_suffix (List.suffix_append left right) hdynamic with h | h
      · rcases List.suffix_cons_iff.mp h with rfl | h
        · exact absurd List.mem_cons_self hstatic
        · exact h
      · exact absurd (h.subset List.mem_cons_self) hstatic
    rcases hcovered with rfl | hreaches
    · rw [List.nil_append] at heq
      exact absurd (heq ▸ List.mem_append_right _ List.mem_cons_self) hstatic
    · exact absurd hreaches (hnot right hsuffix)
  · intro tiles' heq
    cases heq
    exact tileSizes_append hpos hvector htiles hcovered hshort

/-- Tile sizes are determined, without undefined behaviour, exactly if no zero size is in the way and
a vector of one element does not end in a dynamic dimension. -/
theorem determineTileSizes_determines_iff (shape : List Int) (vectorLength : Int)
    (hvector : 1 ≤ vectorLength) (hsized : Sized vectorLength shape) :
    Determines shape vectorLength (determineTileSizes shape vectorLength []) ↔
      Coverable shape vectorLength := by
  have hsized' : Sized vectorLength shape.reverse :=
    fun size hsize => hsized size (List.mem_reverse.mp hsize)
  rcases coverDims_cases hsized' (show (0 : Int) ≤ 1 by decide) hvector with
    ⟨front, rest, hshape, hstatic, hshort, hcover⟩ | ⟨hstatic, hshort, hcover⟩ |
    ⟨front, size, rest, hshape, hstatic, hshort, hreaches, hcover⟩
  · -- a dynamic dimension is met
    have hresult : determineTileSizes shape vectorLength [] = .error .failure := by
      rw [determineTileSizes, hcover]
      rfl
    have heq : shape = rest.reverse ++ kDynamic :: front.reverse := by
      rw [← List.reverse_reverse shape, hshape]
      simp
    have hshort' : Short vectorLength 1 front.reverse.reverse := by rwa [List.reverse_reverse]
    rw [hresult]
    constructor
    · rintro ⟨-, -, hfails, -⟩
      obtain ⟨left, right, -, -, hnot⟩ := hfails.mp rfl
      have hne : vectorLength ≠ 1 := by
        rintro rfl
        exact hnot [] (List.nil_suffix) ⟨by simp, by simp⟩
      exact ⟨fun h => absurd h hne, fun _ _ h => absurd (heq ▸ by simp) h⟩
    · intro ⟨hlast, _⟩
      have hlt : 1 < vectorLength := by
        apply lt_of_le_of_ne hvector
        rintro rfl
        -- the last size is dynamic, or does not cover one element
        cases hfront : front.reverse.getLast? with
        | none =>
          have := hlast rfl kDynamic (by
            rw [heq, List.getLast?_eq_none_iff.mp hfront, List.getLast?_concat])
          rw [kDynamic] at this
          omega
        | some size =>
          have hlast' := hlast rfl size (by
            rw [heq, List.getLast?_append, List.getLast?_cons, hfront]
            rfl)
          have := hshort'.getLast?_lt hfront
          omega
      refine ⟨by simp, by simp, ⟨fun _ => ⟨_, _, heq, by simpa using hstatic, ?_⟩, fun _ => rfl⟩,
        by simp⟩
      rintro suffix hsuffix ⟨-, hprod⟩
      by_cases hnil : suffix = []
      · rw [hnil, List.prod_nil] at hprod
        omega
      · have := hshort'.prod_lt hsuffix hnil
        omega
  · -- all dimensions are needed
    have hstatic' : kDynamic ∉ shape := by simpa using hstatic
    by_cases hzero : 0 ∈ shape
    · have hresult : determineTileSizes shape vectorLength [] = .error .divisionByZero := by
        have hnonneg : ∀ dim ∈ shape.reverse, 0 ≤ dim := fun dim hdim =>
          (hsized' dim hdim (fun h => hstatic (h ▸ hdim))).1
        have hdims := tileDims_of_zero hnonneg (List.mem_reverse.mpr hzero) hvector
        have heq := @determineTileSizes_eq _ [] shape _ hcover (by simp)
        rw [List.nil_append, hdims] at heq
        exact heq
      rw [hresult]
      constructor
      · intro h
        exact absurd rfl h.1
      · intro ⟨hlast, hlong⟩
        exfalso
        rcases eq_or_lt_of_le hvector with hone | hlt
        · obtain ⟨size, hsize⟩ : ∃ size, shape.getLast? = some size :=
            Option.isSome_iff_exists.mp (List.getLast?_isSome.mpr (List.ne_nil_of_mem hzero))
          have := hlast hone.symm size hsize
          have := hshort.getLast?_lt hsize
          omega
        · obtain ⟨suffix, hsuffix, hprod⟩ := hlong hlt hzero hstatic'
          by_cases hnil : suffix = []
          · rw [hnil, List.prod_nil] at hprod
            omega
          · have := hshort.prod_lt hsuffix hnil
            omega
    · have hpos : ∀ dim ∈ shape, 1 ≤ dim := by
        intro dim hdim
        have hnonneg := (hsized dim hdim (fun h => hstatic' (h ▸ hdim))).1
        have hne : dim ≠ 0 := fun h => hzero (h ▸ hdim)
        omega
      constructor
      · intro _
        refine ⟨fun _ size hsize => hpos size (List.mem_of_getLast? hsize), fun _ h => absurd h hzero⟩
      · intro _
        exact @determines_of_pos _ [] shape _ hvector hcover (by simp) hpos (Or.inl rfl)
          fun suffix hsuffix hne _ => hshort.prod_lt hsuffix hne
  · -- the dimension that covers the vector is found
    have heq : shape = rest.reverse ++ (size :: front.reverse) := by
      rw [← List.reverse_reverse shape, hshape]
      simp
    have hprod : (size :: front.reverse).prod = 1 * (front ++ [size]).prod := by
      rw [one_mul, ← prod_reverse (front ++ [size])]
      simp
    have hcovers : Reaches vectorLength (size :: front.reverse) := by
      refine ⟨?_, by rw [hprod]; exact hreaches⟩
      intro hmem
      exact hstatic (by simpa [or_comm] using hmem)
    have hpos : ∀ dim ∈ size :: front.reverse, 1 ≤ dim := by
      intro dim hdim
      have hne : dim ≠ kDynamic := fun h => hcovers.1 (h ▸ hdim)
      have hnonneg := (hsized dim (heq ▸ List.mem_append_right _ hdim) hne).1
      have hne : dim ≠ 0 := by
        rintro rfl
        have := hcovers.2
        rw [List.prod_eq_zero hdim] at this
        omega
      omega
    have hshort' : Short vectorLength 1 front.reverse.reverse := by rwa [List.reverse_reverse]
    subst heq
    constructor
    · intro _
      refine ⟨?_, fun _ _ _ => ⟨_, List.suffix_append _ _, hcovers.2⟩⟩
      intro _ last hlast
      apply hpos
      rw [List.getLast?_append, List.getLast?_cons, Option.some_or] at hlast
      exact List.mem_of_getLast? (List.getLast?_cons.trans hlast)
    · intro _
      apply determines_of_pos hvector hcover (by simp) hpos (Or.inr hcovers)
      intro suffix hsuffix hne hproper
      exact hshort'.prod_lt ((List.suffix_cons_iff.mp hsuffix).resolve_left hproper) hne

/-- A vector of 64 elements is covered by the two inner dimensions. -/
theorem covered_determines : Determines [3, 4, 32] 64 (determineTileSizes [3, 4, 32] 64 []) := by
  apply (determineTileSizes_determines_iff [3, 4, 32] 64 (by decide) ?_).mpr
  · exact ⟨fun h => absurd h (by decide), fun _ h => absurd h (by decide)⟩
  · unfold Sized kDynamic
    decide

/-- An empty dimension is divided by. -/
theorem empty_not_determines : Sized 64 [4, 0] ∧
    determineTileSizes [4, 0] 64 [] = .error .divisionByZero ∧
    ¬ Determines [4, 0] 64 (determineTileSizes [4, 0] 64 []) := by
  have hresult : determineTileSizes [4, 0] 64 [] = .error .divisionByZero := by decide
  refine ⟨?_, hresult, fun h => h.1 hresult⟩
  unfold Sized kDynamic
  decide

end KTIRMapAndTile

end DataflowScheduler
