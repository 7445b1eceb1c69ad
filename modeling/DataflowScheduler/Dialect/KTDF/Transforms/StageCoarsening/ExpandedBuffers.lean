import Mathlib.Data.List.Forall2
import Mathlib.Data.Set.Function
import Mathlib.Tactic.Common
import DataflowScheduler.Util.Lists
import DataflowScheduler.Dialect.KTDF.Transforms.StageCoarsening.BufferExpansion

/-!
# Expanded buffers hold every iteration

A clone of an allocation reads as its expansion dimensions followed by the original ones, and the
index of each expansion dimension runs through the iterations of its loop. Both hold exactly when the
original has at most one dynamic dimension and the trip counts with constant bounds do not overflow.
-/

namespace DataflowScheduler

namespace BufferExpansion

/-! ## The dimensions of an allocation -/

/-- A dimension of an allocation, with the operand that gives its size if it is dynamic. -/
inductive Dim where
  | static (size : Int)
  | dynamic (operand : Value)
  deriving Repr, DecidableEq

def Dim.map (f : Value → Value) : Dim → Dim
  | static size => static size
  | dynamic operand => dynamic (f operand)

/-- The dimensions of a shape: each dynamic one takes the next operand, and none is left over. -/
def readDims : List Int → List Value → Option (List Dim)
  | [], operands => if operands = [] then some [] else none
  | dim :: shape, operands =>
      if isDynamic dim then
        operands.head?.bind fun v => (readDims shape operands.tail).map (.dynamic v :: ·)
      else if dim < 0 then none
      else (readDims shape operands).map (.static dim :: ·)

/-- The dimensions of an allocation, if it is one. -/
def AllocOp.dims (allocOp : AllocOp) : Option (List Dim) :=
  readDims allocOp.type.shape allocOp.dynamicSizes

/-- The dimension that a size asks for. -/
def OpFoldResult.dim (valueMap : IRMapping) : OpFoldResult → Dim
  | attr size => .static size
  | value v => .dynamic (valueMap.lookupOrDefault v)

theorem isDynamic_kDynamic : isDynamic kDynamic = true := by decide

theorem readDims_static {dim : Int} {shape : List Int} {operands : List Value} (h : 0 ≤ dim) :
    readDims (dim :: shape) operands = (readDims shape operands).map (.static dim :: ·) := by
  have hstatic : isDynamic dim = false := by
    have hneg : kDynamic < 0 := by decide
    simp only [isDynamic, beq_eq_false_iff_ne]
    omega
  rw [readDims, hstatic, if_neg (by decide), if_neg (by omega)]

theorem readDims_dynamic (shape : List Int) (v : Value) (operands : List Value) :
    readDims (kDynamic :: shape) (v :: operands) =
      (readDims shape operands).map (.dynamic v :: ·) := by
  rw [readDims, if_pos isDynamic_kDynamic]
  rfl

/-- No dimension of negative size is read, and no static one as a dynamic dimension. -/
theorem readDims_neg {dim : Int} {shape : List Int} {operands : List Value} {dims : List Dim}
    (h : dim < 0) : readDims (dim :: shape) operands ≠ some (.static dim :: dims) := by
  intro hread
  rw [readDims] at hread
  split at hread
  · obtain ⟨_, -, hread⟩ := Option.bind_eq_some_iff.mp hread
    obtain ⟨_, -, heq⟩ := Option.map_eq_some_iff.mp hread
    cases heq
  · cases hread

theorem length_of_readDims {shape : List Int} {operands : List Value} {dims : List Dim}
    (h : readDims shape operands = some dims) : operands.length = shape.countP isDynamic := by
  induction shape generalizing operands dims with
  | nil =>
      rw [readDims] at h
      split at h
      · next hnil => rw [hnil, List.length_nil, List.countP_nil]
      · cases h
  | cons dim shape ih =>
      rw [readDims] at h
      split at h
      · next hdynamic =>
          obtain ⟨v, hv, h⟩ := Option.bind_eq_some_iff.mp h
          obtain ⟨dims', h, -⟩ := Option.map_eq_some_iff.mp h
          obtain ⟨operands, rfl⟩ := List.head?_eq_some_iff.mp hv
          rw [List.countP_cons_of_pos hdynamic, List.length_cons, ← ih h, List.tail_cons]
      · next hstatic =>
          split at h
          · cases h
          · obtain ⟨dims', h, -⟩ := Option.map_eq_some_iff.mp h
            rw [List.countP_cons_of_neg hstatic, ih h]

theorem readDims_map (f : Value → Value) (shape : List Int) (operands : List Value) :
    readDims shape (operands.map f) = (readDims shape operands).map (List.map (Dim.map f)) := by
  induction shape generalizing operands with
  | nil => cases operands <;> rfl
  | cons dim shape ih =>
      simp only [readDims]
      split
      · cases operands with
        | nil => rfl
        | cons v operands =>
            show (readDims shape (operands.map f)).map _ = ((readDims shape operands).map _).map _
            rw [ih, Option.map_map, Option.map_map]
            rfl
      · split
        · rfl
        · rw [ih, Option.map_map, Option.map_map]
          rfl

/-- The expansion dimensions come first, each with its own operand, if no static size is negative. -/
theorem readDims_expanded (valueMap : IRMapping) (sizes : List OpFoldResult) (shape : List Int)
    (operands : List Value) (dims : List Dim) :
    readDims (sizes.map OpFoldResult.toDim ++ shape)
        (sizes.filterMap (OpFoldResult.toOperand valueMap) ++ operands) =
          some (sizes.map (OpFoldResult.dim valueMap) ++ dims) ↔
      (∀ size, .attr size ∈ sizes → 0 ≤ size) ∧ readDims shape operands = some dims := by
  induction sizes with
  | nil => simp
  | cons size sizes ih =>
      cases size with
      | value v =>
          have hoperand : (OpFoldResult.value v).toOperand valueMap =
              some (valueMap.lookupOrDefault v) := rfl
          rw [List.map_cons, List.map_cons, List.filterMap_cons_some hoperand, List.cons_append,
            List.cons_append, List.cons_append]
          show readDims (kDynamic :: _) _ = some (.dynamic _ :: _) ↔ _
          rw [readDims_dynamic, Option.map_eq_some_iff]
          simp only [List.cons.injEq, true_and, exists_eq_right, ih, List.mem_cons, reduceCtorEq,
            false_or]
      | attr size =>
          rw [List.map_cons, List.map_cons, List.filterMap_cons_none rfl, List.cons_append,
            List.cons_append]
          show readDims (size :: _) _ = some (.static size :: _) ↔ _
          by_cases hsize : 0 ≤ size
          · rw [readDims_static hsize, Option.map_eq_some_iff]
            simp only [List.cons.injEq, true_and, exists_eq_right, ih, List.mem_cons,
              OpFoldResult.attr.injEq, forall_eq_or_imp, hsize]
          · constructor
            · intro h
              exact absurd h (readDims_neg (by omega))
            · intro h
              exact absurd (h.1 size List.mem_cons_self) hsize

/-! ## The operands of the original dimensions -/

theorem pushDynamicSizes_eq (valueMap : IRMapping) (dynamicSizes : List Value) (idx : Nat)
    (shape : List Int) : pushDynamicSizes valueMap dynamicSizes idx shape =
      ((dynamicSizes.drop idx).take (shape.countP isDynamic)).map valueMap.lookupOrDefault := by
  induction shape generalizing idx with
  | nil => rfl
  | cons dim shape ih =>
      rw [pushDynamicSizes]
      cases hdim : isDynamic dim with
      | false =>
          rw [List.countP_cons_of_neg (by simp [hdim])]
          exact ih idx
      | true =>
          rw [List.countP_cons_of_pos hdim]
          rw [if_neg (by simp)]
          split
          · next origSize hget =>
              obtain ⟨hlt, rfl⟩ := List.getElem?_eq_some_iff.mp hget
              rw [List.drop_eq_getElem_cons hlt, List.take_succ_cons, List.map_cons]
              exact congrArg _ (ih (idx + 1))
          · next hget =>
              have hlen := List.getElem?_eq_none_iff.mp hget
              rw [ih, List.drop_of_length_le hlen, List.drop_of_length_le (by omega), List.take_nil,
                List.take_nil]

/-- One copy of all size operands for each dynamic dimension. -/
theorem originalSizes_eq (valueMap : IRMapping) {allocOp : AllocOp} {dims : List Dim}
    (h : allocOp.dims = some dims) :
    originalSizes valueMap allocOp =
      (List.replicate (allocOp.type.shape.countP isDynamic)
        (allocOp.dynamicSizes.map valueMap.lookupOrDefault)).flatten := by
  have hpush : pushDynamicSizes valueMap allocOp.dynamicSizes 0 allocOp.type.shape =
      allocOp.dynamicSizes.map valueMap.lookupOrDefault := by
    rw [pushDynamicSizes_eq, ← length_of_readDims h, List.drop_zero, List.take_length]
  rw [originalSizes, hpush]
  generalize allocOp.dynamicSizes.map valueMap.lookupOrDefault = operands
  induction allocOp.type.shape with
  | nil => rfl
  | cons dim shape ih =>
      rw [List.flatMap_cons, ih]
      cases hdim : isDynamic dim with
      | false =>
          rw [List.countP_cons_of_neg (by simp [hdim])]
          rfl
      | true =>
          rw [List.countP_cons_of_pos hdim, List.replicate_succ, List.flatten_cons]
          rfl

/-- The original dimensions get their operands exactly if at most one of them is dynamic. -/
theorem readDims_originalSizes (valueMap : IRMapping) {allocOp : AllocOp} {dims : List Dim}
    (h : allocOp.dims = some dims) :
    readDims allocOp.type.shape (originalSizes valueMap allocOp) =
        some (dims.map (Dim.map valueMap.lookupOrDefault)) ↔
      allocOp.type.shape.countP isDynamic ≤ 1 := by
  have hlen := length_of_readDims h
  have hmapped : readDims allocOp.type.shape
      (allocOp.dynamicSizes.map valueMap.lookupOrDefault) =
        some (dims.map (Dim.map valueMap.lookupOrDefault)) := by
    rw [readDims_map]
    exact congrArg _ h
  rw [originalSizes_eq valueMap h]
  generalize hcount : allocOp.type.shape.countP isDynamic = count at hlen
  constructor
  · intro hread
    have hlen' := length_of_readDims hread
    rw [List.length_flatten, List.map_replicate, List.sum_replicate_nat, List.length_map, hlen,
      hcount] at hlen'
    by_contra hgt
    have hlt : count * 1 < count * count := Nat.mul_lt_mul_of_pos_left (by omega) (by omega)
    omega
  · intro hle
    rcases Nat.le_one_iff_eq_zero_or_eq_one.mp hle with rfl | rfl
    · rw [List.length_eq_zero_iff.mp hlen] at hmapped
      exact hmapped
    · rw [List.replicate_one, List.flatten_singleton]
      exact hmapped

/-! ## The iterations of a loop -/

/-- What a loop does where the environment gives its bounds. -/
def ForOp.run (loop : ForOp) (env : Env) : LoopNest.ForOp :=
  .const 0 (env loop.lowerBound) (env loop.upperBound) (env loop.step)

/-- No loop around. -/
def noFrames : LoopNest.Env := fun _ => ⟨0, 0, 0, 0⟩

/-- How often a loop runs. -/
def ForOp.count (loop : ForOp) (env : Env) : Nat := (loop.run env).count noFrames

/-- What the clones of a loop's values are in iteration `k`. -/
structure InIteration (valueMap : IRMapping) (env : Env) (loop : ForOp) (size : OpFoldResult) (k : Nat)
    (env' : Env) : Prop where
  inductionVar : env' (valueMap.lookupOrDefault loop.inductionVar) =
    ((loop.run env).frame noFrames k).inductionVar
  lowerBound : env' (valueMap.lookupOrDefault loop.lowerBound) = env loop.lowerBound
  step : env' (valueMap.lookupOrDefault loop.step) = env loop.step
  size : ∀ v, size = .value v → env' (valueMap.lookupOrDefault v) = env v

/-- The size of a dimension at run time. -/
def OpFoldResult.eval (valueMap : IRMapping) (env : Env) : OpFoldResult → Int
  | attr size => size
  | value v => (env (valueMap.lookupOrDefault v)).toInt

/-- An index lies in its dimension in every iteration of its loop, and is another one in each. -/
structure Covers (valueMap : IRMapping) (env : Env) (loop : ForOp) (size : OpFoldResult)
    (index : Index) : Prop where
  inBounds : ∀ k < loop.count env, ∀ env', InIteration valueMap env loop size k env' →
    0 ≤ (index.eval env').toInt ∧ (index.eval env').toInt < size.eval valueMap env'
  injective : ∀ j < loop.count env, ∀ k < loop.count env, ∀ env' env'',
    InIteration valueMap env loop size j env' → InIteration valueMap env loop size k env'' →
      index.eval env' = index.eval env'' → j = k

/-- The index that `cloneDataTransfer` prepends for a loop. -/
def ForOp.index (valueMap : IRMapping) (loop : ForOp) : Index :=
  .normalized (valueMap.lookupOrDefault loop.inductionVar)
    (valueMap.lookupOrDefault loop.lowerBound) (valueMap.lookupOrDefault loop.step)

/-- The clones of an induction variable and of the bounds are different values. -/
structure ForOp.ClonedApart (valueMap : IRMapping) (loop : ForOp) : Prop where
  lowerBound : valueMap.lookupOrDefault loop.inductionVar ≠ valueMap.lookupOrDefault loop.lowerBound
  step : valueMap.lookupOrDefault loop.inductionVar ≠ valueMap.lookupOrDefault loop.step
  bounds : valueMap.lookupOrDefault loop.lowerBound = valueMap.lookupOrDefault loop.step →
    loop.lowerBound = loop.step

theorem count_eq (loop : ForOp) (env : Env) :
    loop.count env = (((env loop.upperBound).toInt - (env loop.lowerBound).toInt +
      (env loop.step).toInt - 1) / (env loop.step).toInt).toNat := rfl

theorem iterates_of_lt_count {loop : ForOp} {env : Env} (hstep : 0 < (env loop.step).toInt) {k : Nat}
    (hk : k < loop.count env) : (loop.run env).Iterates noFrames := by
  refine ⟨hstep, ?_⟩
  show (env loop.lowerBound).toInt < (env loop.upperBound).toInt
  rw [count_eq] at hk
  by_contra hle
  have hdiv : ((env loop.upperBound).toInt - (env loop.lowerBound).toInt +
      (env loop.step).toInt - 1) / (env loop.step).toInt < 1 := by
    rw [Int.ediv_lt_iff_lt_mul hstep]
    omega
  omega

/-- While the induction variable is less than `2 ^ 63` above the lower bound, the index is the number
of the iteration. -/
theorem toInt_index {valueMap : IRMapping} {env env' : Env} {loop : ForOp} {size : OpFoldResult}
    {k : Nat} (hstep : 0 < (env loop.step).toInt) (hk : k < loop.count env)
    (h : InIteration valueMap env loop size k env')
    (hlt : (k : Int) * (env loop.step).toInt < 2 ^ 63) :
    ((loop.index valueMap).eval env').toInt = k := by
  have hiv := LoopNest.ForOp.toInt_inductionVar (iterates_of_lt_count hstep hk) hk
  have hmul : 0 ≤ (k : Int) * (env loop.step).toInt :=
    Int.mul_nonneg (Int.natCast_nonneg k) (Int.le_of_lt hstep)
  have hslt := (env loop.step).toInt_lt
  have hoffset : (((loop.run env).frame noFrames k).inductionVar - env loop.lowerBound).toInt =
      k * (env loop.step).toInt := by
    rw [BitVec.toInt_sub, hiv]
    show ((env loop.lowerBound).toInt + k * (env loop.step).toInt - (env loop.lowerBound).toInt).bmod _
      = _
    rw [Int.add_comm, Int.add_sub_cancel, Int.bmod_eq_of_le] <;> omega
  have hkle : (k : Int) ≤ k * (env loop.step).toInt := by
    have := Int.mul_le_mul_of_nonneg_left (show (1 : Int) ≤ _ from hstep) (Int.natCast_nonneg k)
    omega
  show ((env' _ - env' _).sdiv (env' _)).toInt = k
  rw [h.inductionVar, h.lowerBound, h.step, BitVec.toInt_sdiv, hoffset,
    Int.mul_tdiv_cancel _ (by omega), Int.bmod_eq_of_le] <;> omega

/-! ## Constant bounds -/

/-- The range of a loop, rounded up to a whole step, is less than `2 ^ 63`; where the loop does not
run, the size computed for it is not negative. -/
def RangeFits (lower upper step : Int) : Prop :=
  if lower < upper then upper - lower + step - 1 < 2 ^ 63
  else lower - upper < 2 * step - 1 ∨ 2 ^ 63 + step - 1 < lower - upper

def ForOp.RangeFits (defs : Definitions) (loop : ForOp) : Prop :=
  ∀ lower upper step, getConstantIndex defs loop.lowerBound = some lower →
    getConstantIndex defs loop.upperBound = some upper →
      getConstantIndex defs loop.step = some step →
        BufferExpansion.RangeFits lower.toInt upper.toInt step.toInt

theorem tdiv_nonneg_iff {range step : Int} (hstep : 0 < step) :
    0 ≤ range.tdiv step ↔ -step < range := by
  rcases Int.le_total 0 range with hrange | hrange
  · rw [Int.tdiv_eq_ediv_of_nonneg hrange]
    have := Int.ediv_nonneg hrange (Int.le_of_lt hstep)
    omega
  · obtain ⟨below, rfl⟩ : ∃ below : Int, range = -below := ⟨-range, by omega⟩
    rw [Int.neg_tdiv, Int.tdiv_eq_ediv_of_nonneg (by omega)]
    have hlt : below / step < 1 ↔ below < step := by
      rw [Int.ediv_lt_iff_lt_mul hstep, Int.one_mul]
    omega

theorem tdiv_nonpos {range step : Int} (hrange : range ≤ 0) (hstep : 0 < step) :
    range.tdiv step ≤ 0 := by
  have h := Int.tdiv_nonneg (a := -range) (b := step) (by omega) (Int.le_of_lt hstep)
  rw [Int.neg_tdiv] at h
  omega

theorem tdiv_mul_le (range : Int) {step : Int} (hstep : 0 < step) :
    range.tdiv step * step ≤ max range 0 := by
  rcases Int.le_total 0 range with hrange | hrange
  · rw [Int.tdiv_eq_ediv_of_nonneg hrange]
    have := Int.ediv_mul_le range (Int.ne_of_gt hstep)
    omega
  · have hneg := tdiv_nonpos hrange hstep
    have := Int.mul_nonpos_of_nonpos_of_nonneg hneg (Int.le_of_lt hstep)
    omega

/-- The trip count is computed from the range as it wraps. -/
theorem toInt_tripCount {lower upper step : BitVec 64} (hstep : 0 < step.toInt) :
    ((upper - lower + step - 1).sdiv step).toInt =
      ((upper.toInt - lower.toInt + step.toInt - 1).bmod (2 ^ 64)).tdiv step.toInt := by
  have hrange : (upper - lower + step - 1).toInt =
      (upper.toInt - lower.toInt + step.toInt - 1).bmod (2 ^ 64) := by
    have hone : (1 : BitVec 64).toInt = 1 := by decide
    simp only [BitVec.toInt_sub, BitVec.toInt_add, hone, Int.bmod_sub_bmod, Int.bmod_add_bmod]
  have hle := (upper - lower + step - 1).le_toInt
  have hlt := (upper - lower + step - 1).toInt_lt
  rw [hrange] at hle hlt
  rw [BitVec.toInt_sdiv, hrange]
  generalize (upper.toInt - lower.toInt + step.toInt - 1).bmod (2 ^ 64) = range at hle hlt ⊢
  have habs := Int.natAbs_tdiv_le_natAbs range step.toInt
  have hnonpos := fun h : range ≤ 0 => tdiv_nonpos h hstep
  apply Int.bmod_eq_of_le <;> omega

/-- What a size can be: the trip count of constant bounds, or for a normalized loop its last tile size
or its upper bound. -/
theorem computeLoopSize_cases {defs : Definitions} {loop : ForOp} {size : OpFoldResult}
    (h : computeLoopSize defs loop = some size) :
    (∃ lower upper step, getConstantIndex defs loop.lowerBound = some lower ∧
      getConstantIndex defs loop.upperBound = some upper ∧
      getConstantIndex defs loop.step = some step ∧
      size = .attr ((upper - lower + step - 1).sdiv step).toInt) ∨
    (getConstantIndex defs loop.lowerBound = some 0 ∧
      getConstantIndex defs loop.upperBound = none ∧ getConstantIndex defs loop.step = some 1 ∧
      ((∃ tiles totalSize tile, defs loop.upperBound = .deriveSize tiles totalSize ∧
        tiles.getLast? = some tile ∧ size = .value tile.2) ∨ size = .value loop.upperBound)) := by
  unfold computeLoopSize at h
  split at h
  · next lower upper step hlower hupper hstep =>
      exact .inl ⟨lower, upper, step, hlower, hupper, hstep, (Option.some.inj h).symm⟩
  · next hconstant =>
      split at h
      · next hnormalized =>
          refine .inr ⟨hnormalized.1, ?_, hnormalized.2, ?_⟩
          · cases hupper : getConstantIndex defs loop.upperBound with
            | none => rfl
            | some upper => exact absurd hnormalized.2 (hconstant 0 upper 1 hnormalized.1 hupper)
          · split at h
            · next tiles totalSize hdef =>
                obtain ⟨tile, htile, hsize⟩ := Option.map_eq_some_iff.mp h
                exact .inl ⟨tiles, totalSize, tile, hdef, htile, hsize.symm⟩
            · exact .inr (Option.some.inj h).symm
      · cases h

theorem eq_of_getConstantIndex {defs : Definitions} {env : Env} (hdefs : defs.HoldIn env) {v : Value}
    {c : BitVec 64} (h : getConstantIndex defs v = some c) : env v = c := by
  unfold getConstantIndex at h
  split at h
  · next c' hdef =>
      rw [← Option.some.inj h]
      exact hdefs.constantIndex v c' hdef
  · cases h

theorem toInt_tripCount_env {defs : Definitions} {env : Env} {loop : ForOp}
    {lower upper step : BitVec 64} (hdefs : defs.HoldIn env)
    (hlower : getConstantIndex defs loop.lowerBound = some lower)
    (hupper : getConstantIndex defs loop.upperBound = some upper)
    (hstep : getConstantIndex defs loop.step = some step) (hpos : 0 < (env loop.step).toInt) :
    ((upper - lower + step - 1).sdiv step).toInt =
      (((env loop.upperBound).toInt - (env loop.lowerBound).toInt +
        (env loop.step).toInt - 1).bmod (2 ^ 64)).tdiv (env loop.step).toInt := by
  rw [eq_of_getConstantIndex hdefs hstep] at hpos ⊢
  rw [eq_of_getConstantIndex hdefs hlower, eq_of_getConstantIndex hdefs hupper]
  exact toInt_tripCount hpos

/-- Clones have some values in every iteration of a loop whose size is an attribute. -/
theorem exists_inIteration {valueMap : IRMapping} {loop : ForOp} (hclones : loop.ClonedApart valueMap)
    (env : Env) (size : Int) (k : Nat) :
    ∃ env', InIteration valueMap env loop (.attr size) k env' := by
  refine ⟨fun v =>
    if v = valueMap.lookupOrDefault loop.inductionVar then
      ((loop.run env).frame noFrames k).inductionVar
    else if v = valueMap.lookupOrDefault loop.lowerBound then env loop.lowerBound
    else env loop.step, ?_, ?_, ?_, nofun⟩
  · exact if_pos rfl
  · show (if _ then _ else if _ then _ else _) = _
    rw [if_neg hclones.lowerBound.symm, if_pos rfl]
  · show (if _ then _ else if _ then _ else _) = _
    rw [if_neg hclones.step.symm]
    split
    · next heq => rw [hclones.bounds heq.symm]
    · rfl

/-- The product of an iteration and the step is below the range. -/
theorem mul_step_lt {loop : ForOp} {env : Env} (hstep : 0 < (env loop.step).toInt) {k : Nat}
    (hk : k < loop.count env) :
    (k : Int) * (env loop.step).toInt < (env loop.upperBound).toInt - (env loop.lowerBound).toInt := by
  have hlt := LoopNest.ForOp.lt_upperBound (iterates_of_lt_count hstep hk) hk
  have hlt : (env loop.lowerBound).toInt + (k : Int) * (env loop.step).toInt <
    (env loop.upperBound).toInt := hlt
  omega

/-- Indices that are the number of their iteration cover the loop. -/
theorem covers_of_toInt_index {valueMap : IRMapping} {env : Env} {loop : ForOp} {size : OpFoldResult}
    (hstep : 0 < (env loop.step).toInt)
    (hlt : ∀ k < loop.count env, (k : Int) * (env loop.step).toInt < 2 ^ 63)
    (hsize : ∀ k < loop.count env, ∀ env', InIteration valueMap env loop size k env' →
      (k : Int) < size.eval valueMap env') :
    Covers valueMap env loop size (loop.index valueMap) := by
  constructor
  · intro k hk env' h
    rw [toInt_index hstep hk h (hlt k hk)]
    exact ⟨Int.natCast_nonneg k, hsize k hk env' h⟩
  · intro j hj k hk env' env'' h h' heq
    have hint := congrArg BitVec.toInt heq
    rw [toInt_index hstep hj h (hlt j hj), toInt_index hstep hk h' (hlt k hk)] at hint
    omega

/-- A loop with constant bounds: where the range overflows, the iteration with the number of the size
is out of bounds. -/
theorem covers_constant_iff {valueMap : IRMapping} {env : Env} {loop : ForOp}
    (hclones : loop.ClonedApart valueMap) (hstep : 0 < (env loop.step).toInt) {size : Int}
    (hsize : size = (((env loop.upperBound).toInt - (env loop.lowerBound).toInt +
      (env loop.step).toInt - 1).bmod (2 ^ 64)).tdiv (env loop.step).toInt) :
    (0 ≤ size ∧ Covers valueMap env loop (.attr size) (loop.index valueMap)) ↔
      RangeFits (env loop.lowerBound).toInt (env loop.upperBound).toInt (env loop.step).toInt := by
  have hlb := (env loop.lowerBound).le_toInt
  have hlb' := (env loop.lowerBound).toInt_lt
  have hub := (env loop.upperBound).toInt_lt
  have hub' := (env loop.upperBound).le_toInt
  have hs := (env loop.step).toInt_lt
  have hcount := count_eq loop env
  have hmul := @mul_step_lt loop env hstep
  unfold RangeFits
  generalize hrange : (env loop.upperBound).toInt - (env loop.lowerBound).toInt +
    (env loop.step).toInt - 1 = range at hsize hcount
  split
  · next hiterates =>
      constructor
      · intro ⟨hnonneg, hcovers⟩
        by_contra hoverflow
        -- the range wraps once
        have hbmod : range.bmod (2 ^ 64) = range - 2 ^ 64 := by
          rw [← Int.sub_mul_bmod_self_right range 1, Int.one_mul, Int.bmod_eq_of_le] <;> omega
        rw [hbmod] at hsize
        have hle := tdiv_mul_le (range - 2 ^ 64) hstep
        rw [← hsize] at hle
        have hlt : size < loop.count env := by
          by_contra hge
          have hfloor := Int.lt_ediv_add_one_mul_self range hstep
          have hcountLe : (range / (env loop.step).toInt) * (env loop.step).toInt ≤
              size * (env loop.step).toInt :=
            Int.mul_le_mul_of_nonneg_right (by omega) (Int.le_of_lt hstep)
          rw [Int.add_mul, Int.one_mul] at hfloor
          omega
        obtain ⟨k, rfl⟩ := Int.eq_ofNat_of_zero_le hnonneg
        have hk : k < loop.count env := by omega
        obtain ⟨env', henv'⟩ := exists_inIteration hclones env k k
        have hbound := (hcovers.inBounds k hk env' henv').2
        rw [toInt_index hstep hk henv' (by omega)] at hbound
        exact Int.lt_irrefl _ hbound
      · intro hfits
        have hbmod : range.bmod (2 ^ 64) = range := by
          rw [Int.bmod_eq_of_le] <;> omega
        rw [hbmod, Int.tdiv_eq_ediv_of_nonneg (by omega)] at hsize
        have hnonneg : 0 ≤ size := hsize ▸ Int.ediv_nonneg (by omega) (Int.le_of_lt hstep)
        refine ⟨hnonneg, covers_of_toInt_index hstep (fun k hk => ?_) fun k hk _ _ => ?_⟩
        · have := hmul hk
          omega
        · show (k : Int) < size
          omega
  · next hidle =>
      have hnone : loop.count env = 0 := by
        have hlt : range / (env loop.step).toInt < 1 := by
          rw [Int.ediv_lt_iff_lt_mul hstep]
          omega
        omega
      have hcovers : Covers valueMap env loop (.attr size) (loop.index valueMap) := by
        apply covers_of_toInt_index hstep <;> · intro k hk; omega
      rw [and_iff_left hcovers, hsize, tdiv_nonneg_iff hstep]
      by_cases hwraps : -2 ^ 63 ≤ range
      · rw [Int.bmod_eq_of_le (by omega) (by omega)]
        omega
      · rw [← Int.add_mul_bmod_self_right range 1, Int.one_mul, Int.bmod_eq_of_le (by omega) (by omega)]
        omega

/-! ## Normalized loops -/

/-- The upper bound of a normalized loop, or the last of the tile sizes it is derived from, covers it. -/
theorem covers_normalized {valueMap : IRMapping} {defs : Definitions} {env : Env} {loop : ForOp}
    {v : Value} (hdefs : defs.HoldIn env) (hlower : getConstantIndex defs loop.lowerBound = some 0)
    (hone : getConstantIndex defs loop.step = some 1)
    (hsize : (∃ tiles totalSize tile, defs loop.upperBound = .deriveSize tiles totalSize ∧
      tiles.getLast? = some tile ∧ v = tile.2) ∨ v = loop.upperBound) :
    Covers valueMap env loop (.value v) (loop.index valueMap) := by
  have hstep : (env loop.step).toInt = 1 := by
    rw [eq_of_getConstantIndex hdefs hone]
    rfl
  have hcount : loop.count env = Tiling.extent (env loop.upperBound) := by
    rw [count_eq, hstep, eq_of_getConstantIndex hdefs hlower, Int.ediv_one, Tiling.extent]
    congr 1
    show _ - 0 + 1 - 1 = _
    omega
  have hextent : Tiling.extent (env loop.upperBound) ≤ Tiling.extent (env v) := by
    rcases hsize with ⟨tiles, totalSize, tile, hdef, htile, rfl⟩ | rfl
    · rw [hdefs.deriveSize _ _ _ hdef]
      refine Tiling.extent_deriveSize_le _ (?_ : _ = some (env tile.1, env tile.2))
      rw [List.getLast?_map, htile, Option.map_some]
    · exact Nat.le_refl _
  have hlt := Tiling.extent_lt (env v)
  apply covers_of_toInt_index (by omega)
  · intro k hk
    rw [hstep]
    omega
  · intro k hk env' h
    show (k : Int) < (env' _).toInt
    rw [h.size v rfl]
    have : Tiling.extent (env v) = (env v).toInt.toNat := rfl
    omega

/-- The size of a loop is one of a dimension that covers it exactly if the range fits. -/
theorem covers_iff_rangeFits {valueMap : IRMapping} {defs : Definitions} {env : Env} {loop : ForOp}
    {size : OpFoldResult} (hdefs : defs.HoldIn env) (hsize : computeLoopSize defs loop = some size)
    (hclones : loop.ClonedApart valueMap) (hstep : 0 < (env loop.step).toInt) :
    ((∀ n, .attr n = size → 0 ≤ n) ∧ Covers valueMap env loop size (loop.index valueMap)) ↔
      loop.RangeFits defs := by
  rcases computeLoopSize_cases hsize with
    ⟨lower, upper, step, hlower, hupper, hstep', rfl⟩ | ⟨hlower, hupper, hone, hvalue⟩
  · have hfits : loop.RangeFits defs ↔ RangeFits (env loop.lowerBound).toInt
        (env loop.upperBound).toInt (env loop.step).toInt := by
      rw [eq_of_getConstantIndex hdefs hlower, eq_of_getConstantIndex hdefs hupper,
        eq_of_getConstantIndex hdefs hstep']
      constructor
      · intro h
        exact h lower upper step hlower hupper hstep'
      · intro h lower' upper' step' hlower' hupper' hstep''
        cases hlower.symm.trans hlower'
        cases hupper.symm.trans hupper'
        cases hstep'.symm.trans hstep''
        exact h
    rw [hfits, ← covers_constant_iff hclones hstep (toInt_tripCount_env hdefs hlower hupper hstep' hstep)]
    simp only [OpFoldResult.attr.injEq, forall_eq]
  · have hfits : loop.RangeFits defs := by
      intro lower upper step _ hupper'
      rw [hupper] at hupper'
      cases hupper'
    refine iff_of_true ?_ hfits
    rcases hvalue with ⟨tiles, totalSize, tile, hdef, htile, rfl⟩ | rfl
    · exact ⟨nofun, covers_normalized hdefs hlower hone (.inl ⟨tiles, totalSize, tile, hdef, htile, rfl⟩)⟩
    · exact ⟨nofun, covers_normalized hdefs hlower hone (.inr rfl)⟩

/-! ## Expanded allocations -/

theorem forall₂_of_calculateExpansionInfo {defs : Definitions} {buffer : Value}
    {dependentIvs : List Value} {loopNest : List ForOp} {info : BufferExpansionInfo}
    (h : calculateExpansionInfo defs buffer dependentIvs loopNest = some info) :
    List.Forall₂ (fun loop size => computeLoopSize defs loop = some size)
      (dependentLoops loopNest dependentIvs) info.sizes := by
  obtain ⟨sizes, hsizes, hinfo⟩ := Option.bind_eq_some_iff.mp h
  cases hinfo
  exact List.forall₂_of_mapM hsizes

theorem computeExpandedIndices_eq {defs : Definitions} {buffer : Value} {dependentIvs : List Value}
    {loopNest : List ForOp} {info : BufferExpansionInfo} (valueMap : IRMapping)
    (h : calculateExpansionInfo defs buffer dependentIvs loopNest = some info) :
    computeExpandedIndices valueMap info =
      (dependentLoops loopNest dependentIvs).map (ForOp.index valueMap) := by
  obtain ⟨sizes, hsizes, hinfo⟩ := Option.bind_eq_some_iff.mp h
  cases hinfo
  show (List.zip _ (List.zip _ _)).map _ = _
  rw [List.zip_map', List.zip_map', List.map_map]
  rfl

/-- The new dimensions are those of the loops, in front of the original ones with their sizes, and the
prepended indices run through them. -/
structure Expanded (valueMap : IRMapping) (env : Env) (loops : List ForOp)
    (info : BufferExpansionInfo) (dims : List Dim) (newAlloc : AllocOp) : Prop where
  dims : newAlloc.dims = some (info.sizes.map (OpFoldResult.dim valueMap) ++
    dims.map (Dim.map valueMap.lookupOrDefault))
  covers : ∀ e ∈ loops.zip (info.sizes.zip (computeExpandedIndices valueMap info)),
    Covers valueMap env e.1 e.2.1 e.2.2

/-- Size by size, over all loops. -/
theorem forall_covers_iff {valueMap : IRMapping} {defs : Definitions} {env : Env} {loops : List ForOp}
    {sizes : List OpFoldResult} (hdefs : defs.HoldIn env)
    (hsizes : List.Forall₂ (fun loop size => computeLoopSize defs loop = some size) loops sizes)
    (hclones : ∀ loop ∈ loops, loop.ClonedApart valueMap)
    (hsteps : ∀ loop ∈ loops, 0 < (env loop.step).toInt) :
    ((∀ n, .attr n ∈ sizes → 0 ≤ n) ∧
        ∀ e ∈ loops.zip (sizes.zip (loops.map (ForOp.index valueMap))),
          Covers valueMap env e.1 e.2.1 e.2.2) ↔
      ∀ loop ∈ loops, loop.RangeFits defs := by
  induction hsizes with
  | nil => simp
  | @cons loop size loops sizes hsize _ ih =>
      have hloop := covers_iff_rangeFits hdefs hsize (hclones loop List.mem_cons_self)
        (hsteps loop List.mem_cons_self)
      have ih := ih (fun l hl => hclones l (List.mem_cons_of_mem _ hl))
        fun l hl => hsteps l (List.mem_cons_of_mem _ hl)
      rw [List.map_cons, List.zip_cons_cons, List.zip_cons_cons, List.forall_mem_cons,
        List.forall_mem_cons, ← hloop, ← ih]
      simp only [List.mem_cons, or_imp, forall_and]
      exact and_and_and_comm

/-- **Expanded buffers have the dimensions and sizes they need** exactly when the allocation has at
most one dynamic dimension and the constant trip counts do not overflow: for every allocation, every
nest and whatever the values of the bounds are. -/
theorem cloneAllocOp_expanded_iff {defs : Definitions} {env : Env} {buffer result : Value}
    {dependentIvs : List Value} {loopNest : List ForOp} {info : BufferExpansionInfo}
    {infos : List BufferExpansionInfo} {yieldOps : List PrivateYieldOp} {allocOp : AllocOp}
    {dims : List Dim} {valueMap : IRMapping} (hdefs : defs.HoldIn env)
    (hinfo : calculateExpansionInfo defs buffer dependentIvs loopNest = some info)
    (hfind : findInfo infos result yieldOps = some info) (halloc : allocOp.dims = some dims)
    (hclones : ∀ loop ∈ dependentLoops loopNest dependentIvs, loop.ClonedApart valueMap)
    (hsteps : ∀ loop ∈ dependentLoops loopNest dependentIvs, 0 < (env loop.step).toInt) :
    ∃ newAlloc, cloneAllocOp infos result yieldOps allocOp valueMap = some newAlloc ∧
      (Expanded valueMap env (dependentLoops loopNest dependentIvs) info dims newAlloc ↔
        allocOp.type.shape.countP isDynamic ≤ 1 ∧
          ∀ loop ∈ dependentLoops loopNest dependentIvs, loop.RangeFits defs) := by
  refine ⟨expandAlloc info valueMap allocOp, by rw [cloneAllocOp, hfind, Option.map_some], ?_⟩
  have hdims : (expandAlloc info valueMap allocOp).dims =
        some (info.sizes.map (OpFoldResult.dim valueMap) ++
          dims.map (Dim.map valueMap.lookupOrDefault)) ↔
      (∀ n, .attr n ∈ info.sizes → 0 ≤ n) ∧ allocOp.type.shape.countP isDynamic ≤ 1 := by
    rw [← readDims_originalSizes valueMap halloc]
    exact readDims_expanded valueMap info.sizes _ _ _
  have hcovers := forall_covers_iff hdefs (forall₂_of_calculateExpansionInfo hinfo) hclones hsteps
  rw [← computeExpandedIndices_eq valueMap hinfo] at hcovers
  rw [← hcovers]
  constructor
  · intro h
    obtain ⟨hsizes, hcount⟩ := hdims.mp h.dims
    exact ⟨hcount, hsizes, h.covers⟩
  · intro ⟨hcount, hsizes, hall⟩
    exact ⟨hdims.mpr ⟨hsizes, hcount⟩, hall⟩

/-! ## Coordinates of a transfer -/

/-- A map that got dimensions in front reaches, at indices that got as many in front, those indices
followed by the coordinates it reached before. -/
theorem eval_prependIdentityDims (original : Affine.Map) (n : Nat) (dims symbols : Nat → Int) :
    (prependIdentityDims original n).eval dims symbols = (List.range n).map dims ++
      original.eval (fun p => if p < original.numDims then dims (p + n) else dims p) symbols := by
  unfold prependIdentityDims
  split
  · next hn =>
      subst hn
      show _ = original.results.map _
      simp only [Nat.add_zero, ite_self]
      rfl
  · show List.map _ (_ ++ _) = _
    rw [List.map_append, List.map_map, List.map_map]
    congr 1
    apply List.map_congr_left
    intro e _
    show (e.replaceDims .plain _).eval dims symbols = e.eval _ symbols
    rw [Affine.Expr.eval_replaceDims]
    congr 1
    funext p
    rw [Affine.Expr.replacedDim, List.getElem?_map]
    split
    · next hp =>
        rw [List.getElem?_range hp]
        rfl
    · next hp =>
        rw [List.getElem?_eq_none (by rw [List.length_range]; omega)]
        rfl

/-- The indices of a side go with the dimensions of its map, and its sizes with the results. -/
structure TransferSide.Consistent (side : TransferSide) : Prop where
  numDims : ∀ map, side.map = some map → map.numDims = side.indices.length
  results : ∀ map, side.map = some map → map.results.length = side.sizes.length

/-- Maps, indices and sizes grow together. -/
theorem consistent_expandSide {info : Option BufferExpansionInfo} {side : TransferSide}
    (valueMap : IRMapping) (buffer : Value) (h : side.Consistent)
    (hinfo : ∀ i ∈ info, i.loopLowerBounds.length = i.loopIvs.length ∧
      i.loopSteps.length = i.loopIvs.length) :
    (expandSide info valueMap buffer side).Consistent := by
  have hexpanded : ((info.map (computeExpandedIndices valueMap)).getD []).length =
      (info.map fun i => i.loopIvs.length).getD 0 := by
    cases info with
    | none => rfl
    | some i =>
        obtain ⟨hlower, hstep⟩ := hinfo i rfl
        show (List.map _ _).length = i.loopIvs.length
        rw [List.length_map, List.length_zip, List.length_zip, hlower, hstep, Nat.min_self, Nat.min_self]
  constructor <;> intro map hmap <;> obtain ⟨original, horiginal, rfl⟩ := Option.map_eq_some_iff.mp hmap
  · have hdims := h.numDims original horiginal
    show _ = (_ ++ _ : List Index).length
    rw [List.length_append, List.length_map, hexpanded, ← hdims]
    unfold prependIdentityDims
    split
    · next hn => rw [hn, Nat.zero_add]
    · exact Nat.add_comm _ _
  · have hresults := h.results original horiginal
    show _ = (_ ++ _ : List OpFoldResult).length
    rw [List.length_append, List.length_replicate, ← hresults]
    unfold prependIdentityDims
    split
    · next hn => rw [hn, Nat.zero_add]
    · rw [List.length_append, List.length_map, List.length_map, List.length_range]

/-- The element of its buffer that a side starts at. FIFO slots have none. -/
def TransferSide.coordinates (env : Env) (side : TransferSide) : Option (List Int) :=
  side.map.map fun map =>
    map.eval (fun p => (side.indices.map fun i => (i.eval env).toInt).getD p 0) fun _ => 0

/-- A side that is not cloned yet: its indices are values, and its map has a dimension for each. -/
structure TransferSide.WellFormed (side : TransferSide) : Prop extends side.Consistent where
  indices : ∀ i ∈ side.indices, ∃ v, i = .value v
  dims : ∀ map, side.map = some map → ∀ e ∈ map.results, ∀ p, e.isFunctionOfDim p → p < map.numDims

/-- The iterations that the loops of an expansion are in. -/
def iterations (valueMap : IRMapping) (env : Env) (info : Option BufferExpansionInfo) : List Int :=
  ((info.map (computeExpandedIndices valueMap)).getD []).map fun i => (i.eval env).toInt

/-- An expanded side starts at the iterations of the loops, and then where the side started before. -/
theorem coordinates_expandSide {info : Option BufferExpansionInfo} {side : TransferSide}
    (valueMap : IRMapping) (buffer : Value) (env : Env) (h : side.WellFormed)
    (hinfo : ∀ i ∈ info, i.loopLowerBounds.length = i.loopIvs.length ∧
      i.loopSteps.length = i.loopIvs.length) :
    (expandSide info valueMap buffer side).coordinates env =
      (side.coordinates fun v => env (valueMap.lookupOrDefault v)).map
        (iterations valueMap env info ++ ·) := by
  have hprepend : (iterations valueMap env info).length =
      (info.map fun i => i.loopIvs.length).getD 0 := by
    cases info with
    | none => rfl
    | some i =>
        obtain ⟨hlower, hstep⟩ := hinfo i rfl
        simp [iterations, computeExpandedIndices, hlower, hstep]
  cases hmap : side.map with
  | none => simp [TransferSide.coordinates, expandSide, hmap]
  | some map =>
      have hindices : (expandSide info valueMap buffer side).indices.map (fun i => (i.eval env).toInt) =
          iterations valueMap env info ++
            side.indices.map fun i => (i.eval fun v => env (valueMap.lookupOrDefault v)).toInt := by
        rw [expandSide, List.map_append, List.map_map]
        refine congrArg _ (List.map_congr_left fun i hi => ?_)
        obtain ⟨v, rfl⟩ := h.indices i hi
        rfl
      simp only [TransferSide.coordinates, hindices, hmap, Option.map_some]
      simp only [expandSide, hmap, Option.map_some, Option.some.injEq, ← hprepend]
      rw [eval_prependIdentityDims]
      congr 1
      · refine List.ext_getElem (by simp) fun p hp _ => ?_
        have hp : p < (iterations valueMap env info).length := by simpa using hp
        simp [List.getD_eq_getElem?_getD, List.getElem?_append_left hp, List.getElem?_eq_getElem hp]
      · -- a result looks at the dimensions of the map alone, which are moved
        refine List.map_congr_left fun e he => Affine.Expr.eval_congr fun p hp => ?_
        rw [if_pos (h.dims map hmap e he p hp), List.getD_eq_getElem?_getD,
          List.getD_eq_getElem?_getD, List.getElem?_append_right (Nat.le_add_left _ _),
          Nat.add_sub_cancel]

/-- The clone of a side starts at the iterations of the loops that its buffer is expanded by, and then
where the side starts. -/
structure Cloned (infos : List BufferExpansionInfo) (valueMap : IRMapping) (env : Env)
    (side clone : TransferSide) : Prop where
  consistent : clone.Consistent
  coordinates : clone.coordinates env =
    (side.coordinates fun v => env (valueMap.lookupOrDefault v)).map
      (iterations valueMap env (findTransferInfo infos valueMap clone.buffer) ++ ·)

/-- Values 0 to 3 are the constants 0, 10, 3 and 1; value 4 is the size of a tile of value 5. -/
def tileDefs : Definitions := fun v =>
  match v with
  | 0 => .constantIndex 0
  | 1 => .constantIndex 10
  | 2 => .constantIndex 3
  | 3 => .constantIndex 1
  | 4 => .deriveSize [(6, 5)] 1
  | _ => .other

/-- In the last tile of four points: two points are left. -/
def tileEnv : Env := fun v =>
  match v with
  | 1 => 10
  | 2 => 3
  | 3 => 1
  | 4 => 2
  | 5 => 4
  | 6 => 2
  | _ => 0

/-- `for %10 = 0 to 10 step 3`, and in it `for %11 = 0 to %4 step 1`. -/
def tileNest : List ForOp := [⟨10, 0, 1, 2⟩, ⟨11, 0, 4, 3⟩]

/-- The new sizes are four iterations, and the tile size. -/
def tileInfo : BufferExpansionInfo := ⟨20, [10, 11], [0, 0], [2, 3], [.attr 4, .value 5]⟩

theorem tileDefs_holdIn : tileDefs.HoldIn tileEnv := by
  constructor
  · intro v c h
    unfold tileDefs at h
    split at h <;> cases h <;> rfl
  · intro v tiles totalSize h
    unfold tileDefs at h
    split at h <;> cases h
    decide

theorem clonedApart_tileNest : ∀ loop ∈ tileNest, loop.ClonedApart fun _ => none := by
  intro loop hloop
  refine ⟨?_, ?_, id⟩ <;> (revert loop; decide)

theorem rangeFits_tileNest : ∀ loop ∈ tileNest, loop.RangeFits tileDefs := by
  intro loop hloop lower upper step hlower hupper hstep
  rcases List.mem_pair.mp hloop with rfl | rfl
  · cases hlower
    cases hupper
    cases hstep
    show RangeFits 0 10 3
    rw [RangeFits, if_pos (by decide)]
    decide
  · cases hupper

/-- One dynamic dimension, of size `%7`. -/
theorem cloneAllocOp_expanded_tile : ∃ newAlloc,
    cloneAllocOp [tileInfo] 20 [] ⟨⟨[kDynamic, 64], 0, none, 1⟩, [7]⟩ (fun _ => none) = some newAlloc ∧
      Expanded (fun _ => none) tileEnv tileNest tileInfo [.dynamic 7, .static 64] newAlloc := by
  obtain ⟨newAlloc, hclone, hexpanded⟩ := cloneAllocOp_expanded_iff tileDefs_holdIn
    (by decide +kernel : calculateExpansionInfo tileDefs 20 [10, 11] tileNest = some tileInfo)
    (by decide : findInfo [tileInfo] 20 [] = some tileInfo)
    (by decide : AllocOp.dims ⟨⟨[kDynamic, 64], 0, none, 1⟩, [7]⟩ = some [.dynamic 7, .static 64])
    clonedApart_tileNest (by decide)
  refine ⟨newAlloc, hclone, hexpanded.mpr ⟨by decide, rangeFits_tileNest⟩⟩

/-- A transfer of four elements into the expanded buffer, from `%30` at `%12`. -/
def tileTransfer : DataTransferOp where
  source := ⟨30, some ⟨1, 0, [.dim 0]⟩, [.value 12], [.attr 4]⟩
  dest := ⟨20, some ⟨1, 0, [.dim 0]⟩, [.value 13], [.attr 4]⟩
  transferMode := 0
  attrs := []

theorem wellFormed_rowSide (buffer v : Value) :
    TransferSide.WellFormed ⟨buffer, some ⟨1, 0, [.dim 0]⟩, [.value v], [.attr 4]⟩ where
  numDims := by simp
  results := by simp
  indices := by simp
  dims := by simp [Affine.Expr.isFunctionOfDim]

def tileClone : DataTransferOp :=
  (cloneDataTransfer [tileInfo] tileTransfer fun _ => none).getD tileTransfer

/-- Two dynamic dimensions, of sizes `%7` and `%8`: each of them adds both operands. -/
theorem not_expanded_twoDynamic : ∃ newAlloc,
    cloneAllocOp [tileInfo] 20 [] ⟨⟨[kDynamic, kDynamic], 0, none, 1⟩, [7, 8]⟩ (fun _ => none) =
        some newAlloc ∧
      newAlloc.type.shape = [4, kDynamic, kDynamic, kDynamic] ∧
      newAlloc.dynamicSizes = [5, 7, 8, 7, 8] ∧
      ¬Expanded (fun _ => none) tileEnv tileNest tileInfo [.dynamic 7, .dynamic 8] newAlloc := by
  refine ⟨_, rfl, rfl, by decide, fun h => ?_⟩
  have hlen := length_of_readDims h.dims
  exact absurd hlen (by decide)

end BufferExpansion

end DataflowScheduler
