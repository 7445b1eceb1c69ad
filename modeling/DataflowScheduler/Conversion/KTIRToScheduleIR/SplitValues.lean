import Mathlib.Data.List.GetD
import Mathlib.Tactic.LinearCombination
import DataflowScheduler.Conversion.KTIRToScheduleIR.SplitSemantics

/-!
# What the halves of a split compute

The pieces of an access, one lemma each: a cloned value, a conversion to words, an entry of the address
buffer after all grid elements wrote it, and the part of an address the direct subscripts make.
-/

namespace DataflowScheduler

namespace IndirectComputeGroupSplit

open RowMajor Strides

variable {R G : Type}

/-! ## Cloned values -/

mutual

/-- A clone is worth what the value is, where the arguments of its function stand for those it
reaches. -/
theorem eval_materializeDependency {other : Nat → G → List Int → Int} {mapper : List BlockArgument}
    {env env' : BlockArgument → Int} (g : G) : (v : Value) →
    (∀ arg ∈ walkDependency v, env' ⟨0, mapper.idxOf arg⟩ = env arg) →
    (materializeDependency mapper v).eval other env' g = v.eval other env g
  | .blockArgument arg, h => h arg (List.mem_singleton_self arg)
  | .constant _, _ => rfl
  | .result op operands, h => by
      show op.apply other g _ = op.apply other g _
      rw [evalAll_materializeDependencies g operands h]

theorem evalAll_materializeDependencies {other : Nat → G → List Int → Int}
    {mapper : List BlockArgument} {env env' : BlockArgument → Int} (g : G) : (vs : List Value) →
    (∀ arg ∈ walkDependencies vs, env' ⟨0, mapper.idxOf arg⟩ = env arg) →
    evalAll other env' g (materializeDependencies mapper vs) = evalAll other env g vs
  | [], _ => rfl
  | v :: vs, h => by
      show _ :: _ = _ :: _
      rw [eval_materializeDependency g v fun arg harg => h arg (List.mem_append_left _ harg),
        evalAll_materializeDependencies g vs fun arg harg => h arg (List.mem_append_right _ harg)]

end

/-- The block arguments of the rewritten function, as they are forwarded: each by its number alone. -/
def forwarded (arguments : List Int) (arg : BlockArgument) : Int := arguments.getD arg.number 0

/-- A forwarded argument of the resolving function is what the call passes under its number. -/
theorem entryBlock_newOperands {candidate : SplitCandidate R} {callArgs : List Value}
    {caller : Value → Int} (hcaller : caller (.constant 0) = 0) {arg : BlockArgument}
    (harg : arg ∈ candidate.forwardedArgs) :
    entryBlock ((newOperands candidate callArgs).map caller)
      ⟨0, candidate.forwardedArgs.idxOf arg⟩ = forwarded (callArgs.map caller) arg := by
  have hlt := List.idxOf_lt_length_of_mem harg
  have hget : candidate.forwardedArgs[candidate.forwardedArgs.idxOf arg]? = some arg := by
    rw [List.getElem?_eq_getElem hlt, List.getElem_idxOf]
  have hoperand : ((newOperands candidate callArgs).map caller)[candidate.forwardedArgs.idxOf arg]? =
      some (caller (callArgs.getD arg.number (.constant 0))) := by
    rw [newOperands, List.getElem?_map, List.getElem?_map, hget]
    rfl
  rw [entryBlock, if_pos rfl, List.getD_eq_getElem?_getD, hoperand, Option.getD_some, forwarded,
    List.getD_eq_getElem?_getD, List.getD_eq_getElem?_getD, List.getElem?_map]
  cases callArgs[arg.number]? with
  | none => exact hcaller
  | some v => rfl

/-! ## Words -/

/-- The conversion to words is exact for a whole number of words. -/
theorem eval_convertElementsToWords {other : Nat → G → List Int → Int} {env : BlockArgument → Int}
    {g : G} {elems : Value} {elemBytes wordSize : Nat} (hword : 0 < wordSize)
    (h : (wordSize : Int) ∣ elems.eval other env g * elemBytes) :
    (convertElementsToWords elems elemBytes wordSize).eval other env g * wordSize =
      elems.eval other env g * elemBytes := by
  have hgcd : 0 < Nat.gcd elemBytes wordSize := Nat.gcd_pos_of_pos_right _ hword
  have hmul : elemBytes = Nat.gcd elemBytes wordSize * (elemBytes / Nat.gcd elemBytes wordSize) :=
    (Nat.mul_div_cancel' (Nat.gcd_dvd_left _ _)).symm
  have hdiv : wordSize = Nat.gcd elemBytes wordSize * (wordSize / Nat.gcd elemBytes wordSize) :=
    (Nat.mul_div_cancel' (Nat.gcd_dvd_right _ _)).symm
  dsimp only [convertElementsToWords]
  generalize hg : Nat.gcd elemBytes wordSize = gcd at *
  generalize elemBytes / gcd = mul at *
  generalize wordSize / gcd = div at *
  subst hmul hdiv
  generalize hv : elems.eval other env g = v at *
  have hdvd : (div : Int) ∣ v * mul := by
    obtain ⟨k, hk⟩ := h
    refine ⟨k, ?_⟩
    have hcancel : (gcd : Int) * (v * mul) = gcd * (div * k) := by
      push_cast at hk
      linarith
    exact mul_left_cancel₀ (by exact_mod_cast hgcd.ne') hcancel
  -- Whatever form the conversion takes, its value times the divisor is `v * mul`.
  have hvalue : ∀ x : Int, x * div = v * mul → x * ((gcd * div : Nat) : Int) =
      v * ((gcd * mul : Nat) : Int) := by
    intro x hx
    push_cast
    linear_combination (gcd : Int) * hx
  have htdiv : (v * mul).tdiv div * div = v * mul := Int.tdiv_mul_cancel hdvd
  split
  · next h1 =>
      apply hvalue
      rw [hv, h1.1, h1.2]
  · next hne =>
    split
    · next c hc =>
        have hcv : c = v := by
          cases elems with
          | constant c' =>
              cases hc
              exact hv
          | blockArgument arg => cases hc
          | result op operands => cases hc
        apply hvalue
        rw [hcv]
        exact htdiv
    · by_cases hmul1 : mul = 1
      · by_cases hdiv1 : div = 1
        · exact absurd ⟨hmul1, hdiv1⟩ hne
        · rw [if_pos hdiv1, if_neg (not_not.mpr hmul1)]
          apply hvalue
          show (elems.eval other env g).tdiv div * div = v * mul
          subst hmul1
          rw [hv]
          simpa using htdiv
      · by_cases hdiv1 : div = 1
        · rw [if_neg (not_not.mpr hdiv1), if_pos hmul1]
          apply hvalue
          show elems.eval other env g * mul * div = v * mul
          rw [hv, hdiv1]
          simp
        · rw [if_pos hdiv1, if_pos hmul1]
          apply hvalue
          show (elems.eval other env g * mul).tdiv div * div = v * mul
          rw [hv]
          exact htdiv

/-! ## What is accepted -/

/-- What the analysis found out about a candidate it accepts. -/
structure SplitCandidate.Accepted (builder : Affine.Builder) (c : SplitCandidate R) : Prop where
  indirectMemrefs : c.indirectOp.indirectMemrefs = [.constructMemoryView c.idxView]
  base : c.indirectOp.base = .constructMemoryView c.baseView
  indirDim : c.indirectOp.perDimSubscriptKinds.findIdx? id = some c.indirDim
  stride : (getMixedValues c.baseView.staticStrides c.baseView.strides)[c.indirDim]? = some c.stride
  noStrides : c.idxView.strides = []
  staticStrides : c.idxView.staticStrides.all Option.isSome
  wordSize : 0 < c.wordSize
  baseWords : ∀ elems, getConstantIntValue c.baseAddr = some elems →
    (c.wordSize : Int) ∣ elems * c.elemBytes
  strideWords : ∀ elems, c.stride.getConstantIntValue = some elems →
    (c.wordSize : Int) ∣ elems * c.elemBytes
  positions : deriveIndAddrBufDimPositions builder c.indirectOp c.indirDim =
    .ok c.indAddrBufDimPositions
  forwardedArgs : c.forwardedArgs = collectForwardedArgs c.idxView c.baseAddr c.stride

theorem resolveWordSize_pos {op : ConstructIndirectAccessTilesOp R} {space : MemorySpace R}
    {info : AddressBufferInfo R} {wordSize : Nat} [DecidableEq R]
    (h : resolveWordSize op space info = .ok wordSize) : 0 < wordSize := by
  unfold resolveWordSize at h
  dsimp only at h
  split at h
  · cases h
  · cases h
  · cases h
    exact LoadStoreAttr.getWordSize_pos _ _
  · cases h
  · split at h
    · cases h
      exact LoadStoreAttr.getWordSize_pos _ _
    · cases h
  · cases h
  · cases h
    exact LoadStoreAttr.getWordSize_pos _ _

theorem checkWholeWords_ok {elemBytes wordSize : Nat} {value : Option Int} {what : String} {u : Unit}
    (h : checkWholeWords (R := R) elemBytes wordSize value what = .ok u) :
    ∀ elems, value = some elems → (wordSize : Int) ∣ elems * elemBytes := by
  rintro elems rfl
  unfold checkWholeWords at h
  dsimp only at h
  split at h
  · cases h
  · next hmod => exact Int.dvd_of_tmod_eq_zero (not_not.mp hmod)

theorem require_ok {α : Type} {value : Option α} {e : SplitError R} {a : α}
    (h : require value e = .ok a) : value = some a := by
  cases value with
  | none => cases h
  | some b =>
      cases h
      rfl

theorem getDefiningOp_eq_some {memref : MemRef R} {view : ConstructMemoryViewOp R}
    (h : memref.getDefiningOp = some view) : memref = .constructMemoryView view := by
  cases memref with
  | constructMemoryView v =>
      cases h
      rfl
  | other type => cases h

theorem analyzeCandidate_accepted [DecidableEq R] {builder : Affine.Builder}
    {info : AddressBufferInfo R} {orchestrator : OrchestratorInfo} {op : CandidateOp R}
    {c : SplitCandidate R} (h : analyzeCandidate builder info orchestrator op = .ok c) :
    c.Accepted builder := by
  unfold analyzeCandidate at h
  obtain ⟨idx, hidx, h⟩ := Except.bind_eq_ok.mp h
  obtain ⟨indirDim, hdim, h⟩ := Except.bind_eq_ok.mp h
  obtain ⟨baseView, hbase, h⟩ := Except.bind_eq_ok.mp h
  obtain ⟨stride, hstride, h⟩ := Except.bind_eq_ok.mp h
  obtain ⟨elemBytes, -, h⟩ := Except.bind_eq_ok.mp h
  obtain ⟨wordSize, hword, h⟩ := Except.bind_eq_ok.mp h
  obtain ⟨u, hwhole, h⟩ := Except.bind_eq_ok.mp h
  obtain ⟨u', hwhole', h⟩ := Except.bind_eq_ok.mp h
  obtain ⟨positions, hpositions, h⟩ := Except.bind_eq_ok.mp h
  cases h
  obtain ⟨hmemrefs, -, hnone, hstatic⟩ := analyzeIndexMemref_ok hidx
  exact {
    indirectMemrefs := hmemrefs
    base := getDefiningOp_eq_some (require_ok hbase)
    indirDim := require_ok hdim
    stride := require_ok hstride
    noStrides := hnone
    staticStrides := hstatic
    wordSize := resolveWordSize_pos hword
    baseWords := checkWholeWords_ok hwhole
    strideWords := checkWholeWords_ok hwhole'
    positions := hpositions
    forwardedArgs := rfl }

/-! ## Memory -/

/-- The strides of a view that has no dynamic ones. -/
theorem strideValues_of_static {view : ConstructMemoryViewOp R} (ν : Value → Int)
    (hnone : view.strides = []) (hstatic : view.staticStrides.all Option.isSome) :
    view.strideValues ν = view.getStrides := by
  unfold ConstructMemoryViewOp.strideValues ConstructMemoryViewOp.getStrides
  rw [hnone]
  generalize view.staticStrides = strides at hstatic
  induction strides with
  | nil => rfl
  | cons s strides ih =>
      cases s with
      | none => simp at hstatic
      | some s =>
          rw [List.all_cons, Bool.and_eq_true] at hstatic
          rw [getMixedValues, List.map_cons, List.map_cons, ih hstatic.2]
          rfl

/-- Where a view with the static strides of another has its elements. -/
theorem location_of_static {view like : ConstructMemoryViewOp R} (hnone : view.strides = [])
    (hstrides : view.staticStrides = like.staticStrides)
    (hstatic : like.staticStrides.all Option.isSome) (ν : Value → Int) (j : List Int) :
    view.location ν j = (view.memorySpace, ν view.offset + distance j like.getStrides) := by
  rw [ConstructMemoryViewOp.location, strideValues_of_static ν hnone (hstrides ▸ hstatic),
    ConstructMemoryViewOp.getStrides, hstrides]
  rfl

variable [DecidableEq R] {other : Nat → G → List Int → Int}

/-- The resolving function leaves alone what it does not write. -/
theorem afterIdxToAddr_of_not_written {source target : ConstructMemoryViewOp R}
    {base stride : Value} {arguments : List Int} {order : List G} {mem : Memory R}
    {l : MemorySpace R × Int}
    (h : ∀ w ∈ order, ∀ i ∈ source.indices,
      target.location (Value.eval other (entryBlock arguments) w) i ≠ l) :
    afterIdxToAddr other [.idx32ToAddr source target base stride] arguments order mem l = mem l := by
  unfold afterIdxToAddr
  induction order generalizing mem with
  | nil => rfl
  | cons w order ih =>
      rw [List.forall_mem_cons] at h
      rw [List.foldl_cons, ih h.2]
      show Writes.store mem (Op.writes _ mem _) l = mem l
      apply Writes.store_of_not_mem
      intro write hwrite
      obtain ⟨i, hi, rfl⟩ := List.mem_map.mp hwrite
      exact h.1 i hi

/-- The last grid element decides what an entry holds. -/
theorem afterIdxToAddr_last {source target : ConstructMemoryViewOp R} {base stride : Value}
    {arguments : List Int} {order : List G} {w : G} {mem : Memory R} {i : List Int}
    (hi : i ∈ source.indices)
    (hsame : ∀ j ∈ source.indices,
      target.location (Value.eval other (entryBlock arguments) w) j =
        target.location (Value.eval other (entryBlock arguments) w) i →
      source.location (Value.eval other (entryBlock arguments) w) j =
        source.location (Value.eval other (entryBlock arguments) w) i)
    (hread : ∀ w' ∈ order, ∀ j ∈ source.indices,
      target.location (Value.eval other (entryBlock arguments) w') j ≠
        source.location (Value.eval other (entryBlock arguments) w) i) :
    afterIdxToAddr other [.idx32ToAddr source target base stride] arguments (order ++ [w]) mem
        (target.location (Value.eval other (entryBlock arguments) w) i) =
      Value.eval other (entryBlock arguments) w base +
        mem (source.location (Value.eval other (entryBlock arguments) w) i) *
          Value.eval other (entryBlock arguments) w stride := by
  have hbefore : afterIdxToAddr other [.idx32ToAddr source target base stride] arguments order mem
      (source.location (Value.eval other (entryBlock arguments) w) i) = mem _ :=
    afterIdxToAddr_of_not_written hread
  unfold afterIdxToAddr at hbefore ⊢
  rw [List.foldl_append]
  show Writes.store _ (Op.writes _ _ _) _ = _
  apply Writes.store_of_mem
  · exact ⟨_, List.mem_map_of_mem hi, rfl⟩
  · intro write hwrite heq
    obtain ⟨j, hj, rfl⟩ := List.mem_map.mp hwrite
    dsimp only
    rw [hsame j hj heq, hbefore]

/-- An access leaves alone what its copy does not write. -/
theorem afterAccesses_of_not_written {source target : ConstructMemoryViewOp R}
    {tile : ConstructIndirectAccessTileOp R} {done : List (Execution G)} {mem : Memory R}
    {l : MemorySpace R × Int}
    (h : ∀ y ∈ done, ∀ i ∈ source.indices, target.location (y.eval other) i ≠ l) :
    afterAccesses other [.copy source target, .constructIndirectAccessTile tile] done mem l =
      mem l := by
  unfold afterAccesses
  induction done generalizing mem with
  | nil => rfl
  | cons y done ih =>
      rw [List.forall_mem_cons] at h
      rw [List.foldl_cons, ih h.2]
      show Writes.store mem (Op.writes _ mem _) l = mem l
      apply Writes.store_of_not_mem
      intro write hwrite
      obtain ⟨i, hi, rfl⟩ := List.mem_map.mp hwrite
      exact h.1 i hi

/-! ## Direct subscripts -/

omit [DecidableEq R] in
/-- Without an indirect dimension, the subscripts are the values of the maps. -/
theorem subscripts_direct {vars : List Int} {read : MemRef R → List Int → Int}
    {kinds : List Bool} {maps : List Affine.Map} {memrefs : List (MemRef R)}
    (hlen : kinds.length = maps.length) (h : kinds.count true = 0) :
    subscripts vars read kinds maps memrefs = maps.map fun map => (mapValues vars map).headD 0 := by
  induction kinds generalizing maps with
  | nil =>
      obtain rfl := List.length_eq_zero_iff.mp hlen.symm
      rfl
  | cons kind kinds ih =>
      cases maps with
      | nil => cases hlen
      | cons map maps =>
          cases kind with
          | true => simp at h
          | false =>
              rw [List.count_cons_of_ne (by decide)] at h
              rw [subscripts, ih (Nat.succ.inj hlen) h]
              rfl

omit [DecidableEq R] in
/-- The subscripts reach as far as the indirect one reaches and the direct ones reach. -/
theorem distance_subscripts (vars : List Int) (read : MemRef R → List Int → Int)
    (memref : MemRef R) {zero : Affine.Map} {kinds : List Bool} {maps : List Affine.Map}
    {strides : List Int} {k : Nat} {s : Int} (hzero : (mapValues vars zero).headD 0 = 0)
    (hlen : kinds.length = maps.length) (hcount : kinds.count true = 1)
    (hk : kinds.findIdx? id = some k) (hs : strides[k]? = some s) :
    ∃ map, maps[k]? = some map ∧
      distance (subscripts vars read kinds maps [memref]) strides =
        read memref (mapValues vars map) * s +
          distance ((maps.set k zero).map fun map => (mapValues vars map).headD 0) strides := by
  induction kinds generalizing maps strides k with
  | nil => cases hk
  | cons kind kinds ih =>
      cases maps with
      | nil => cases hlen
      | cons map maps =>
          cases strides with
          | nil => simp at hs
          | cons s₀ strides =>
              cases kind with
              | true =>
                  rw [List.findIdx?_cons] at hk
                  obtain rfl : 0 = k := by simpa using hk
                  obtain rfl : s₀ = s := by simpa using hs
                  rw [List.count_cons_self] at hcount
                  refine ⟨map, rfl, ?_⟩
                  rw [subscripts, subscripts_direct (Nat.succ.inj hlen) (Nat.succ.inj hcount)]
                  rw [List.set_cons_zero, List.map_cons, distance_cons, distance_cons, hzero]
                  ring
              | false =>
                  rw [List.findIdx?_cons] at hk
                  cases hrest : kinds.findIdx? id with
                  | none => simp [hrest] at hk
                  | some k' =>
                      obtain rfl : k' + 1 = k := by simpa [hrest] using hk
                      rw [List.count_cons_of_ne (by decide)] at hcount
                      obtain ⟨map', hmap', heq⟩ := ih (Nat.succ.inj hlen) hcount hrest
                        (by simpa using hs)
                      refine ⟨map', hmap', ?_⟩
                      rw [subscripts, List.set_cons_succ, List.map_cons, distance_cons,
                        distance_cons, heq]
                      ring

end IndirectComputeGroupSplit

end DataflowScheduler
