import DataflowScheduler.Dialect.KTDF.Transforms.SplitReductionInnerOuterDim
import Mathlib.Algebra.BigOperators.Group.List.Basic

/-!
# Counts of reduction chunks

`analyzeReductionChunks` infers how many chunks the input of a reduction is cut into, and
`computeChunkDims` distributes the count over the reduction dimensions, from the outermost one, by
greatest common divisors. Sizes are those of 64-bit integers.
-/

namespace DataflowScheduler

namespace ReductionDimChunking

open SplitReductionInnerOuterDim (IteratorType)

/-- A size, if it is static. -/
abbrev Dim := Option Nat

/-- A ranked tensor type, and the width of its elements if they have a fixed one. -/
structure TensorType where
  shape : List Dim
  bitWidth : Option Nat

/-- What the pass asks of a `linalg.generic`: its loops, and the type of its first input. -/
structure GenericOp where
  iteratorTypes : List IteratorType
  loopRanges : List Dim
  inputType : Option TensorType
  isContraction : Bool

def GenericOp.numLoops (g : GenericOp) : Nat := g.iteratorTypes.length

/-- `getReductionDims`. -/
def GenericOp.getReductionDims (g : GenericOp) : List Nat :=
  (List.range g.numLoops).filter fun dim => g.iteratorTypes[dim]? == some .reduction

/-- The sizes of a static shape. -/
def staticSizes (dims : List Dim) : Option (List Nat) := dims.mapM id

structure ReductionChunkResult where
  numChunks : Nat
  reductionDims : List Nat
  redDimSizes : List Nat

/-- The smallest count that brings the bytes of a chunk within the threshold. -/
def inferChunks (totalBytes maxChunks : Nat) (threshold : Int) : Option Nat :=
  (List.range' 1 maxChunks).find? fun n => ((totalBytes / n : Nat) : Int) ≤ threshold

/-- `analyzeReductionChunks`. The count is kept in 32 bits. -/
def analyzeReductionChunks (g : GenericOp) (chunkSizeThreshold : Int) :
    Option ReductionChunkResult := do
  let reductionDims := g.getReductionDims
  if reductionDims = [] then none
  else
    let inputType ← g.inputType
    let bitWidth ← inputType.bitWidth
    let elementBytes := bitWidth / 8
    let shape ← staticSizes inputType.shape
    let totalBytes := elementBytes * shape.prod
    let redDimSizes ← staticSizes (reductionDims.map fun dim => g.loopRanges.getD dim none)
    let inferred ← inferChunks totalBytes redDimSizes.prod chunkSizeThreshold
    if inferred % 2 ^ 32 = 0 then none
    else some ⟨inferred % 2 ^ 32, reductionDims, redDimSizes⟩

/-- The loop of `computeChunkDims`: the new sizes, and what remains of the count. -/
def distribute : List Dim → Nat → List Dim × Nat
  | [], remaining => ([], remaining)
  | dim :: dims, remaining =>
      if remaining ≤ 1 then (dim :: dims, remaining)
      else
        match dim with
        | none =>
            let rest := distribute dims remaining
            (none :: rest.1, rest.2)
        | some size =>
            let g := Nat.gcd size remaining
            let rest := distribute dims (remaining / g)
            (some (size / g) :: rest.1, rest.2)

/-- `computeChunkDims`. -/
def computeChunkDims (redDimSizes : List Dim) (chunkSize : Nat) : Option (List Dim) :=
  let result := distribute redDimSizes chunkSize
  if result.2 > 1 then none else some result.1

/-! ## The distribution -/

/-- What each dimension takes of the count. -/
def quotients : List Nat → Nat → List Nat
  | [], _ => []
  | size :: sizes, count => Nat.gcd size count :: quotients sizes (count / Nat.gcd size count)

@[simp] theorem length_quotients (sizes : List Nat) (count : Nat) :
    (quotients sizes count).length = sizes.length := by
  induction sizes generalizing count with
  | nil => rfl
  | cons size sizes ih => rw [quotients, List.length_cons, List.length_cons, ih]

theorem quotients_one (sizes : List Nat) : quotients sizes 1 = List.replicate sizes.length 1 := by
  induction sizes with
  | nil => rfl
  | cons size sizes ih =>
      rw [quotients, Nat.gcd_one_right, Nat.div_one, ih, List.length_cons, List.replicate_succ]

/-- The dimensions together take the greatest common divisor of the count and their product. -/
theorem prod_quotients (sizes : List Nat) {count : Nat} (hcount : 0 < count) :
    (quotients sizes count).prod = Nat.gcd count sizes.prod := by
  induction sizes generalizing count with
  | nil => rw [quotients, List.prod_nil, Nat.gcd_one_right]
  | cons size sizes ih =>
      have hpos : 0 < Nat.gcd size count := Nat.gcd_pos_of_pos_right _ hcount
      obtain ⟨s, hs⟩ := Nat.gcd_dvd_left size count
      obtain ⟨c, hc⟩ := Nat.gcd_dvd_right size count
      have hcoprime : Nat.Coprime s c := by
        have h := Nat.coprime_div_gcd_div_gcd hpos
        rwa [Nat.div_eq_of_eq_mul_right hpos hs, Nat.div_eq_of_eq_mul_right hpos hc] at h
      have hdiv : count / Nat.gcd size count = c := Nat.div_eq_of_eq_mul_right hpos hc
      have hcpos : 0 < c := by
        rcases Nat.eq_zero_or_pos c with rfl | h
        · rw [Nat.mul_zero] at hc
          exact absurd hcount (by omega)
        · exact h
      rw [quotients, List.prod_cons, List.prod_cons, hdiv, ih hcpos]
      generalize hgcd : Nat.gcd size count = g at hs hc hpos
      calc g * Nat.gcd c sizes.prod
          = g * Nat.gcd c (s * sizes.prod) := by rw [hcoprime.gcd_mul_left_cancel_right]
        _ = Nat.gcd (g * c) (g * (s * sizes.prod)) := (Nat.gcd_mul_left g c _).symm
        _ = Nat.gcd count (size * sizes.prod) := by rw [← hc, ← Nat.mul_assoc, ← hs]

/-- Each dimension takes a divisor of its size. -/
theorem forall₂_quotients (sizes : List Nat) (count : Nat) :
    List.Forall₂ (· ∣ ·) (quotients sizes count) sizes := by
  induction sizes generalizing count with
  | nil => exact .nil
  | cons size sizes ih => exact .cons (Nat.gcd_dvd_left _ _) (ih _)

theorem quotients_append (sizes sizes' : List Nat) (count : Nat) :
    quotients (sizes ++ sizes') count =
      quotients sizes count ++ quotients sizes' (count / (quotients sizes count).prod) := by
  induction sizes generalizing count with
  | nil => rw [quotients, List.prod_nil, Nat.div_one]; rfl
  | cons size sizes ih =>
      rw [List.cons_append, quotients, quotients, ih, List.cons_append, List.prod_cons,
        Nat.div_div_eq_div_mul]

/-- The loop takes the quotients. -/
theorem distribute_map_some (sizes : List Nat) {count : Nat} (hcount : 0 < count) :
    distribute (sizes.map some) count =
      ((List.zipWith (· / ·) sizes (quotients sizes count)).map some,
        count / (quotients sizes count).prod) := by
  induction sizes generalizing count with
  | nil => rw [quotients, List.prod_nil, Nat.div_one]; rfl
  | cons size sizes ih =>
      rw [List.map_cons, distribute]
      split
      · next hone =>
          have hcount' : count = 1 := by omega
          subst hcount'
          rw [quotients_one, List.prod_replicate, one_pow, Nat.div_one, List.length_cons,
            List.replicate_succ, List.zipWith_cons_cons, Nat.div_one, List.map_cons]
          congr 2
          clear ih
          induction sizes with
          | nil => rfl
          | cons size sizes ih =>
              rw [List.length_cons, List.replicate_succ, List.zipWith_cons_cons, Nat.div_one,
                List.map_cons, List.map_cons, ih]
      · have hpos : 0 < count / Nat.gcd size count :=
          Nat.div_pos (Nat.le_of_dvd hcount (Nat.gcd_dvd_right _ _))
            (Nat.gcd_pos_of_pos_right _ hcount)
        dsimp only
        rw [ih hpos, quotients, List.zipWith_cons_cons, List.map_cons, List.prod_cons,
          Nat.div_div_eq_div_mul]

/-- The count is used up exactly if it divides the product of the sizes. -/
theorem computeChunkDims_map_some (sizes : List Nat) {count : Nat} (hcount : 0 < count) :
    computeChunkDims (sizes.map some) count =
      if count ∣ sizes.prod then
        some ((List.zipWith (· / ·) sizes (quotients sizes count)).map some)
      else none := by
  rw [computeChunkDims, distribute_map_some sizes hcount, prod_quotients sizes hcount]
  have hdvd := Nat.gcd_dvd_left count sizes.prod
  by_cases hdiv : count ∣ sizes.prod
  · rw [if_pos hdiv, Nat.gcd_eq_left hdiv, Nat.div_self hcount]
    rfl
  · rw [if_neg hdiv]
    refine if_pos (Nat.lt_of_le_of_ne ?_ fun hone => hdiv ?_)
    · exact Nat.div_pos (Nat.le_of_dvd hcount hdvd) (Nat.gcd_pos_of_pos_left _ hcount)
    · have hgcd : count = Nat.gcd count sizes.prod := by
        have hone' : 1 = count / Nat.gcd count sizes.prod := hone
        have h := Nat.div_mul_cancel hdvd
        rw [← hone', Nat.one_mul] at h
        exact h.symm
      rw [hgcd]
      exact Nat.gcd_dvd_right _ _

/-- **The chunk sizes**: the distribution succeeds exactly if the count divides the product of the sizes,
and then each new size divides its own and the quotients make up the count. -/
theorem computeChunkDims_spec {sizes : List Nat} (hsizes : ∀ size ∈ sizes, 0 < size) {count : Nat}
    (hcount : 1 ≤ count) :
    ((computeChunkDims (sizes.map some) count).isSome ↔ count ∣ sizes.prod) ∧
    ∀ dims, computeChunkDims (sizes.map some) count = some dims → ∃ news : List Nat,
      dims = news.map some ∧ List.Forall₂ (· ∣ ·) news sizes ∧
        (List.zipWith (· / ·) sizes news).prod = count := by
  rw [computeChunkDims_map_some sizes hcount]
  by_cases hdiv : count ∣ sizes.prod
  case neg =>
    rw [if_neg hdiv]
    exact ⟨iff_of_false (fun h => nomatch h) hdiv, nofun⟩
  rw [if_pos hdiv]
  refine ⟨iff_of_true rfl hdiv, fun dims hdims => ?_⟩
  cases hdims
  refine ⟨_, rfl, ?_, ?_⟩
  · have hquot := forall₂_quotients sizes count
    generalize quotients sizes count = qs at hquot
    clear hdiv hsizes
    induction hquot with
    | nil => exact .nil
    | cons hq _ ih => exact .cons (Nat.div_dvd_of_dvd hq) ih
  · have hprod : (quotients sizes count).prod = count := by
      rw [prod_quotients sizes hcount, Nat.gcd_eq_left hdiv]
    refine Eq.trans ?_ hprod
    have hquot := forall₂_quotients sizes count
    generalize quotients sizes count = qs at hquot
    clear hdiv hprod
    induction hquot with
    | nil => rfl
    | cons hq _ ih =>
        rw [List.zipWith_cons_cons, List.zipWith_cons_cons, List.prod_cons, List.prod_cons,
          Nat.div_div_self hq (Nat.ne_of_gt (hsizes _ List.mem_cons_self)),
          ih fun size hsize => hsizes size (List.mem_cons_of_mem _ hsize)]

end ReductionDimChunking

end DataflowScheduler
