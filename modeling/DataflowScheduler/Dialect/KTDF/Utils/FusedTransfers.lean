import Mathlib.Logic.Relation
import DataflowScheduler.Dialect.KTDF.Utils.TransferAccesses

/-!
# What fused transfers keep

A transfer reads where the load, or the FIFO read, it replaces did, but later: at the place of the
consumer. It reads the same exactly as long as nothing in between writes what the load read, or uses
the FIFO that was read. Under that condition every pattern keeps the memory and the FIFOs, and so does
every sequence of patterns.
-/

namespace DataflowScheduler

namespace DataTransfers

open Affine Operands RowMajor

variable {A V : Type}

/-! ## Blocks in SSA form -/

/-- An operation comes before one whose result it neither defines nor uses. -/
def Op.Before (a b : Op A) : Prop := ∀ v, b.result? = some v → a.result? ≠ some v ∧ v ∉ a.operands

/-- Every value is defined once, before its uses. -/
structure Ssa (block : Block A) : Prop where
  ordered : block.Pairwise Op.Before
  irreflexive : ∀ op ∈ block, ∀ v, op.result? = some v → v ∉ op.operands

/-- The operation of a consumer may be replaced, and its producer dropped, as long as the new one
defines no other value and uses at most what the producer uses. -/
theorem Ssa.replace {before between after kept : Block A} {producer root moved : Op A}
    (h : Ssa (before ++ producer :: (between ++ root :: after)))
    (hkept : kept = [] ∨ kept = [producer])
    (hresult : moved.result? = none ∨ moved.result? = root.result?)
    (hoperands : ∀ v ∈ moved.operands, v ∈ producer.operands)
    (hself : ∀ v, moved.result? = some v → v ∉ moved.operands) :
    Ssa (before ++ (kept ++ (between ++ ([moved] ++ after)))) := by
  have hmoved : ∀ a : Op A, Op.Before a root → Op.Before a moved := by
    intro a ha v hv
    rcases hresult with hnone | hroot
    · rw [hnone] at hv
      cases hv
    · exact ha v (hroot ▸ hv)
  have hlater : ∀ c : Op A, Op.Before root c → Op.Before producer c → Op.Before moved c := by
    intro c hroot hproducer v hv
    refine ⟨?_, fun hmem => (hproducer v hv).2 (hoperands v hmem)⟩
    rcases hresult with hnone | heq
    · rw [hnone]
      simp
    · rw [heq]
      exact (hroot v hv).1
  obtain ⟨hordered, hirr⟩ := h
  simp only [List.pairwise_append, List.pairwise_cons, List.mem_append, List.mem_cons] at hordered
  obtain ⟨hbefore, ⟨hproducer, hbetween, ⟨hroot, hafter⟩, hbetween'⟩, hbefore'⟩ := hordered
  constructor
  · have hrest : (between ++ ([moved] ++ after)).Pairwise Op.Before := by
      simp only [List.pairwise_append, List.pairwise_cons, List.mem_append, List.mem_cons,
        List.not_mem_nil, or_false]
      refine ⟨hbetween, ⟨⟨fun _ hc => hc.elim, List.Pairwise.nil⟩, hafter, ?_⟩, ?_⟩
      · rintro a rfl c hc
        exact hlater c (hroot c hc) (hproducer c (Or.inr (Or.inr hc)))
      · rintro a ha c (rfl | hc)
        · exact hmoved a (hbetween' a ha root (Or.inl rfl))
        · exact hbetween' a ha c (Or.inr hc)
    have hmem : ∀ a, Op.Before a root → (∀ c ∈ between ++ root :: after, Op.Before a c) →
        ∀ c ∈ between ++ ([moved] ++ after), Op.Before a c := by
      intro a haroot ha c hc
      simp only [List.mem_append, List.mem_cons, List.not_mem_nil, or_false] at hc
      rcases hc with hc | rfl | hc
      · exact ha c (List.mem_append_left _ hc)
      · exact hmoved a haroot
      · exact ha c (List.mem_append_right _ (List.mem_cons_of_mem _ hc))
    rw [List.pairwise_append]
    refine ⟨hbefore, ?_, ?_⟩
    · rcases hkept with rfl | rfl
      · exact hrest
      · refine List.Pairwise.cons ?_ hrest
        apply hmem
        · exact hproducer root (Or.inr (Or.inl rfl))
        · intro c hc
          rw [List.mem_append, List.mem_cons] at hc
          exact hproducer c hc
    · intro a ha c hc
      rw [List.mem_append] at hc
      rcases hc with hc | hc
      · rcases hkept with rfl | rfl
        · cases hc
        · rw [List.mem_singleton] at hc
          exact hbefore' a ha c (Or.inl hc)
      · refine hmem a (hbefore' a ha root (Or.inr (Or.inr (Or.inl rfl)))) ?_ c hc
        intro c hc
        rw [List.mem_append, List.mem_cons] at hc
        exact hbefore' a ha c (Or.inr hc)
  · intro op hop
    simp only [List.mem_append, List.mem_cons, List.not_mem_nil, or_false] at hop hirr
    rcases hop with hop | hop | hop | rfl | hop
    · exact hirr op (Or.inl hop)
    · rcases hkept with rfl | rfl
      · cases hop
      · rw [List.mem_singleton] at hop
        exact hirr op (Or.inr (Or.inl hop))
    · exact hirr op (Or.inr (Or.inr (Or.inl hop)))
    · exact hself
    · exact hirr op (Or.inr (Or.inr (Or.inr (Or.inr hop))))

/-! ## Producers and users -/

theorem splitAtProducer_eq_some {v : TensorValue} {block before after : Block A} {producer : Op A}
    (h : splitAtProducer v block = some (before, producer, after)) :
    block = before ++ producer :: after ∧ producer.result? = some v := by
  induction block generalizing before with
  | nil => cases h
  | cons op ops ih =>
      unfold splitAtProducer at h
      split at h
      · next hrest =>
          cases h
          obtain ⟨rfl, hresult⟩ := ih hrest
          exact ⟨rfl, hresult⟩
      · split at h
        · next hresult =>
            cases h
            exact ⟨rfl, hresult⟩
        · cases h

theorem splitAtUser_eq_some {v : TensorValue} {block before after : Block A} {user : Op A}
    (h : splitAtUser v block = some (before, user, after)) :
    block = before ++ user :: after ∧ v ∈ user.operands ∧ ∀ op ∈ before, v ∉ op.operands := by
  induction block generalizing before with
  | nil => cases h
  | cons op ops ih =>
      unfold splitAtUser at h
      split at h
      · next hmem =>
          cases h
          exact ⟨rfl, hmem, nofun⟩
      · next hmem =>
          obtain ⟨⟨before', user', after'⟩, hrest, heq⟩ := Option.map_eq_some_iff.mp h
          cases heq
          obtain ⟨rfl, huser, hbefore⟩ := ih hrest
          exact ⟨rfl, huser, List.forall_mem_cons.mpr ⟨hmem, hbefore⟩⟩

theorem eq_take_append_drop {block : Block A} {i : Nat} {root : Op A} (h : block[i]? = some root) :
    block = block.take i ++ root :: block.drop (i + 1) := by
  obtain ⟨hi, rfl⟩ := List.getElem?_eq_some_iff.mp h
  rw [List.getElem_cons_drop, List.take_append_drop]

/-- Of the operations before a place, one that produces a value, and those between. -/
theorem block_eq_of_producer {block before between : Block A} {i : Nat} {root producer : Op A}
    {v : TensorValue} (hroot : block[i]? = some root)
    (h : splitAtProducer v (block.take i) = some (before, producer, between)) :
    block = before ++ producer :: (between ++ root :: block.drop (i + 1)) := by
  conv_lhs => rw [eq_take_append_drop hroot, (splitAtProducer_eq_some h).1]
  rw [List.append_assoc, List.cons_append]

/-- The only user of a value: no operation before or after it uses the value. -/
theorem not_mem_operands_of_hasOneUse {ops ops' : Block A} {user : Op A} {v : TensorValue}
    (h : hasOneUse (ops ++ user :: ops') v) (huser : v ∈ user.operands) :
    (∀ op ∈ ops, v ∉ op.operands) ∧ ∀ op ∈ ops', v ∉ op.operands := by
  unfold hasOneUse at h
  rw [beq_iff_eq, List.flatMap_append, List.flatMap_cons, List.count_append, List.count_append] at h
  have huser' : 0 < user.operands.count v := List.count_pos_iff.mpr huser
  have hnone : ∀ ops : Block A, (ops.flatMap Op.operands).count v = 0 →
      ∀ op ∈ ops, v ∉ op.operands := by
    intro ops hcount op hop hmem
    exact List.count_eq_zero.mp hcount (List.mem_flatMap.mpr ⟨op, hop, hmem⟩)
  exact ⟨hnone ops (by omega), hnone ops' (by omega)⟩

/-! ## Nothing in between -/

variable [DecidableEq A] [Inhabited V]

/-- An extracted slice lies in the slice that was loaded. -/
def Rewritten.SliceFits (m : Machine V) (rw : Rewritten A) : Prop :=
  match rw.producer, rw.root with
  | .load _ _ loaded, .extractSlice _ _ sourceSizes slice =>
      m.sizes sourceSizes = m.sizes (loaded.map Range.size) ∧
        ∀ index ∈ m.indices slice, ∃ q ∈ points (m.sizes sourceSizes), index = q.map Int.ofNat
  | _, _ => True

/-- **Nothing in between**: what the producer read and the new operation reads again is not written in
between, and neither does an operation in between use the FIFO that both read. -/
structure Rewritten.Undisturbed (m : Machine V) (σ : State A V) (rw : Rewritten A) : Prop where
  memory : ∀ a ∈ rw.producer.reads m (run m rw.before σ),
    (∃ op ∈ rw.moved, a ∈ op.reads m (run m rw.before σ)) →
      a ∉ writtenBy m rw.between (rw.producer.run m (run m rw.before σ))
  fifos : ∀ slot ∈ rw.producer.fifosRead, (∃ op ∈ rw.moved, slot ∈ op.fifosRead) →
    ∀ op ∈ rw.between, slot ∉ op.fifos
  slice : rw.SliceFits m

/-- The memory is the same and so is what happened to every FIFO. -/
def SameEffects (m : Machine V) (σ : State A V) (block block' : Block A) : Prop :=
  (run m block' σ).memory = (run m block σ).memory ∧ (run m block' σ).fifos = (run m block σ).fifos

section Patterns

variable {m : Machine V} {σ : State A V} {rw : Rewritten A}

/-- A pattern that keeps the producer, and whose new operation does what the old one did. -/
theorem SameEffects.of_eq {before between after : Block A} {producer root moved : Op A}
    (h : moved.run m (run m between (producer.run m (run m before σ))) =
      root.run m (run m between (producer.run m (run m before σ)))) :
    SameEffects m σ (before ++ producer :: (between ++ root :: after))
      (before ++ ([producer] ++ (between ++ ([moved] ++ after)))) := by
  unfold SameEffects
  simp only [run_append, run_cons, run_nil, h, and_self]

/-- A pattern that drops the producer, whose value and FIFO nothing else uses. -/
theorem SameEffects.of_agreeOff {before between after : Block A} {producer root moved : Op A}
    {r : TensorValue} {slots : List FifoSlot}
    (hproducer : AgreeOff [r] slots (producer.run m (run m before σ)) (run m before σ))
    (hbetween : ∀ op ∈ between, r ∉ op.operands)
    (hslots : ∀ slot ∈ slots, ∀ op ∈ between, slot ∉ op.fifos)
    (hroot : AgreeOff [r] slots (run m between (producer.run m (run m before σ)))
        (run m between (run m before σ)) →
      AgreeOff [r] [] (root.run m (run m between (producer.run m (run m before σ))))
        (moved.run m (run m between (run m before σ))))
    (hafter : ∀ op ∈ after, r ∉ op.operands) :
    SameEffects m σ (before ++ producer :: (between ++ root :: after))
      (before ++ ([] ++ (between ++ ([moved] ++ after)))) := by
  have hfree : ∀ ops : Block A, (∀ op ∈ ops, r ∉ op.operands) →
      ∀ op ∈ ops, ∀ v ∈ op.operands, v ∉ [r] := by
    intro ops h op hop v hv hmem
    exact h op hop (List.mem_singleton.mp hmem ▸ hv)
  have h₂ := hproducer.run (m := m) (hfree between hbetween)
    fun op hop slot hslot hmem => hslots slot hmem op hop hslot
  have h₄ := (hroot h₂).run (m := m) (hfree after hafter) fun op hop slot hslot => List.not_mem_nil
  unfold SameEffects
  simp only [run_append, run_cons, run_nil]
  exact ⟨h₄.memory.symm, funext fun slot => (h₄.fifos slot List.not_mem_nil).symm⟩

/-- What the producer defined is what the consumer finds. -/
theorem values_of_producer {before between after : Block A} {producer root : Op A}
    {v : TensorValue} (hssa : Ssa (before ++ producer :: (between ++ root :: after)))
    (hv : producer.result? = some v) (σ : State A V) :
    (run m between (producer.run m σ)).values v = (producer.run m σ).values v := by
  apply run_values
  intro op hop hresult
  have hordered := (List.pairwise_append.mp hssa.ordered).2.1
  exact ((List.pairwise_cons.mp hordered).1 op (List.mem_append_left _ hop) v hresult).1 hv

/-! ## Loads -/

omit [DecidableEq A] in
theorem lowerLoadToFifo_ok {block : Block A} {i : Nat} (h : lowerLoadToFifo block i = some rw) :
    ∃ before r source slice between slot access after,
      createTransferAccess (slice.map splatRange) = some access ∧
      block = before ++ .load r source slice :: (between ++ .writeToFifo r slot :: after) ∧
      rw = ⟨before, .load r source slice, [.load r source slice], between, .writeToFifo r slot,
        [.dataTransfer (.memory source access) (.fifo slot (slice.map Range.size))
          (if isSplat slice then .splat else .copy)], after⟩ := by
  unfold lowerLoadToFifo at h
  split at h
  · next data slot hroot =>
      split at h
      · next before r source slice between hproducer =>
          split at h
          · obtain ⟨access, haccess, rfl⟩ := Option.map_eq_some_iff.mp h
            obtain rfl : r = data := Option.some.inj (splitAtProducer_eq_some hproducer).2
            exact ⟨before, r, source, slice, between, slot, access, _, haccess,
              block_eq_of_producer hroot hproducer, rfl⟩
          · cases h
      · cases h
  · cases h

theorem lowerLoadToFifo_keeps {block : Block A} {i : Nat} (hssa : Ssa block)
    (h : lowerLoadToFifo block i = some rw) (hu : rw.Undisturbed m σ) :
    SameEffects m σ block rw.new ∧ Ssa rw.new := by
  obtain ⟨before, r, source, slice, between, slot, access, after, haccess, rfl, rfl⟩ :=
    lowerLoadToFifo_ok h
  constructor
  · apply SameEffects.of_eq
    have hvalue := values_of_producer (m := m) hssa rfl (run m before σ)
    show State.push _ slot (.wrote (List.map _ (m.transferIndices _ access (slice.map Range.size)))) =
      State.push _ slot (.wrote (State.values _ r))
    rw [transferIndices_eq haccess, hvalue]
    congr 2
    show List.map _ _ = (State.define _ r _).values r
    rw [State.define_values_self]
    apply List.map_congr_left
    intro index hindex
    have hmem : source.locate 0 index ∈ (m.indices slice).map (source.locate 0) :=
      List.mem_map_of_mem hindex
    apply run_memory
    apply hu.memory _ hmem
    refine ⟨_, List.mem_singleton_self _, ?_⟩
    show source.locate 0 index ∈ (m.transferIndices _ access (slice.map Range.size)).map _
    rw [transferIndices_eq haccess]
    exact hmem
  · exact hssa.replace (Or.inr rfl) (Or.inl rfl) nofun nofun

omit [DecidableEq A] in
theorem lowerIndLoadToFifo_ok {block : Block A} {i : Nat}
    (h : lowerIndLoadToFifo block i = some rw) :
    ∃ before r type indAddrBuf index base slice between slot access after,
      createTransferAccess slice = some access ∧
      block = before ++ .indLoad r type indAddrBuf index base slice ::
        (between ++ .writeToFifo r slot :: after) ∧
      rw = ⟨before, .indLoad r type indAddrBuf index base slice,
        [.indLoad r type indAddrBuf index base slice], between, .writeToFifo r slot,
        [.gather indAddrBuf index base access slot type], after⟩ := by
  unfold lowerIndLoadToFifo at h
  split at h
  · next data slot hroot =>
      split at h
      · next before r type indAddrBuf index base slice between hproducer =>
          split at h
          · obtain ⟨access, haccess, rfl⟩ := Option.map_eq_some_iff.mp h
            obtain rfl : r = data := Option.some.inj (splitAtProducer_eq_some hproducer).2
            exact ⟨before, r, type, indAddrBuf, index, base, slice, between, slot, access, _, haccess,
              block_eq_of_producer hroot hproducer, rfl⟩
          · cases h
      · cases h
  · cases h

theorem lowerIndLoadToFifo_keeps {block : Block A} {i : Nat} (hssa : Ssa block)
    (h : lowerIndLoadToFifo block i = some rw) (hu : rw.Undisturbed m σ) :
    SameEffects m σ block rw.new ∧ Ssa rw.new := by
  obtain ⟨before, r, type, indAddrBuf, index, base, slice, between, slot, access, after, haccess,
    rfl, rfl⟩ := lowerIndLoadToFifo_ok h
  constructor
  · apply SameEffects.of_eq
    have hvalue := values_of_producer (m := m) hssa rfl (run m before σ)
    have hkept : ∀ a ∈ (Op.indLoad r type indAddrBuf index base slice).reads m (run m before σ),
        (run m between ((Op.indLoad r type indAddrBuf index base slice).run m
          (run m before σ))).memory a = (run m before σ).memory a := by
      intro a ha
      refine run_memory (hu.memory a ha ⟨_, List.mem_singleton_self _, ?_⟩)
      show a ∈ _ :: (m.accessIndices access).map _
      rw [accessIndices_eq haccess]
      exact ha
    show State.push _ slot (.wrote (List.map _ (m.accessIndices access))) =
      State.push _ slot (.wrote (State.values _ r))
    rw [accessIndices_eq haccess, hvalue]
    congr 2
    show List.map _ _ = (State.define _ r _).values r
    rw [State.define_values_self]
    apply List.map_congr_left
    intro i hi
    -- The entry is still the one the load read, so it leads to what the load read.
    have hentry := hkept _ List.mem_cons_self
    have hlocate : m.locateIndirect (run m between
        ((Op.indLoad r type indAddrBuf index base slice).run m (run m before σ))).memory
        indAddrBuf index base = m.locateIndirect (run m before σ).memory indAddrBuf index base := by
      unfold Machine.locateIndirect
      rw [hentry]
    rw [hlocate]
    exact hkept _ (List.mem_cons_of_mem _ (List.mem_map_of_mem hi))
  · exact hssa.replace (Or.inr rfl) (Or.inl rfl) nofun nofun

/-- A reshape keeps the data, and neither its result nor its operand is defined again. -/
theorem values_lookThrough {op : Op A} {ops : Block A} (hssa : Ssa (op :: ops)) (w : TensorValue)
    (σ : State A V) :
    (run m ops (op.run m σ)).values (op.lookThrough w) = (run m ops (op.run m σ)).values w := by
  obtain ⟨hhead, -⟩ := List.pairwise_cons.mp hssa.ordered
  unfold Op.lookThrough
  split
  · next r operand type =>
      split
      · next hr =>
          subst hr
          have hkept : ∀ u, (∀ op' ∈ ops, op'.result? ≠ some u) →
              (run m ops ((Op.reshape r operand type).run m σ)).values u =
                ((Op.reshape r operand type).run m σ).values u := fun u hu => run_values hu
          rw [hkept operand, hkept r]
          · show (State.define _ r _).values operand = (State.define _ r _).values r
            rw [State.define_values_self]
            have hne : operand ≠ r := fun heq =>
              hssa.irreflexive _ List.mem_cons_self r rfl (heq ▸ List.mem_singleton_self operand)
            exact Function.update_of_ne hne _ _
          · intro op' hop' hresult
            exact (hhead op' hop' r hresult).1 rfl
          · intro op' hop' hresult
            exact (hhead op' hop' operand hresult).2 (List.mem_singleton_self operand)
      · rfl
  · rfl

/-- Reshapes keep the data: the value they lead back to has the same elements. -/
theorem values_lookThroughReshapes {ops : Block A} (hssa : Ssa ops) (v : TensorValue)
    (σ : State A V) : (run m ops σ).values (lookThroughReshapes ops v) = (run m ops σ).values v := by
  induction ops generalizing σ with
  | nil => rfl
  | cons op ops ih =>
      have hrest : Ssa ops := ⟨(List.pairwise_cons.mp hssa.ordered).2,
        (List.forall_mem_cons.mp hssa.irreflexive).2⟩
      show (run m ops (op.run m σ)).values (op.lookThrough (lookThroughReshapes ops v)) = _
      rw [values_lookThrough hssa, ih hrest]
      rfl

omit [DecidableEq A] in
theorem lowerStoreFromLoad_ok {block : Block A} {i : Nat}
    (h : lowerStoreFromLoad block i = some rw) :
    ∃ before r source loaded between data dest slice loadAccess storeAccess after,
      createTransferAccess loaded = some loadAccess ∧
      createTransferAccess slice = some storeAccess ∧
      lookThroughReshapes (before ++ .load r source loaded :: between) data = r ∧
      block = before ++ .load r source loaded :: (between ++ .store data dest slice :: after) ∧
      rw = ⟨before, .load r source loaded, [.load r source loaded], between,
        .store data dest slice,
        [.dataTransfer (.memory source loadAccess) (.memory dest storeAccess) .copy], after⟩ := by
  unfold lowerStoreFromLoad at h
  split at h
  · next data dest slice hroot =>
      split at h
      · next before r source loaded between hproducer =>
          split at h
          · next loadAccess storeAccess hload hstore =>
              cases h
              obtain ⟨htake, hresult⟩ := splitAtProducer_eq_some hproducer
              refine ⟨before, r, source, loaded, between, data, dest, slice, loadAccess, storeAccess,
                _, hload, hstore, ?_, block_eq_of_producer hroot hproducer, rfl⟩
              rw [← htake]
              exact (Option.some.inj hresult).symm
          · cases h
      · cases h
  · cases h

theorem lowerStoreFromLoad_keeps {block : Block A} {i : Nat} (hssa : Ssa block)
    (h : lowerStoreFromLoad block i = some rw) (hu : rw.Undisturbed m σ) :
    SameEffects m σ block rw.new ∧ Ssa rw.new := by
  obtain ⟨before, r, source, loaded, between, data, dest, slice, loadAccess, storeAccess, after,
    hload, hstore, hlook, rfl, rfl⟩ := lowerStoreFromLoad_ok h
  constructor
  · apply SameEffects.of_eq
    have hvalue := values_of_producer (m := m) hssa rfl (run m before σ)
    have hprefix : Ssa (before ++ .load r source loaded :: between) := by
      have hsub : (before ++ .load r source loaded :: between).Sublist
          (before ++ .load r source loaded :: (between ++ .store data dest slice :: after)) :=
        (List.Sublist.refl before).append ((List.sublist_append_left _ _).cons_cons _)
      exact ⟨hssa.ordered.sublist hsub, fun op hop => hssa.irreflexive op (hsub.subset hop)⟩
    have hdata := values_lookThroughReshapes (m := m) hprefix data σ
    rw [hlook, run_append, run_cons] at hdata
    show State.write _ ((m.accessIndices storeAccess).map _) (List.map _ (m.accessIndices loadAccess)) =
      State.write _ ((m.indices slice).map _) (State.values _ data)
    rw [accessIndices_eq hload, accessIndices_eq hstore, ← hdata, hvalue]
    congr 1
    show List.map _ _ = (State.define _ r _).values r
    rw [State.define_values_self]
    apply List.map_congr_left
    intro index hindex
    have hmem : source.locate 0 index ∈ (m.indices loaded).map (source.locate 0) :=
      List.mem_map_of_mem hindex
    apply run_memory
    apply hu.memory _ hmem
    refine ⟨_, List.mem_singleton_self _, ?_⟩
    show source.locate 0 index ∈ (m.accessIndices loadAccess).map _
    rw [accessIndices_eq hload]
    exact hmem
  · exact hssa.replace (Or.inr rfl) (Or.inl rfl) nofun nofun

omit [DecidableEq A] in
theorem foldSliceIntoLoad_ok {block : Block A} {i : Nat} (h : foldSliceIntoLoad block i = some rw) :
    ∃ before r source loaded between e sourceSizes slice merged after,
      mergeOffsetsSizesAndStrides loaded slice = some merged ∧
      hasOneUse block r ∧
      block = before ++ .load r source loaded ::
        (between ++ .extractSlice e r sourceSizes slice :: after) ∧
      rw = ⟨before, .load r source loaded, [], between, .extractSlice e r sourceSizes slice,
        [.load e source merged], after⟩ := by
  unfold foldSliceIntoLoad at h
  split at h
  · next e r sourceSizes slice hroot =>
      split at h
      · next before r' source loaded between hproducer =>
          split at h
          · next huse =>
              obtain ⟨merged, hmerged, rfl⟩ := Option.map_eq_some_iff.mp h
              obtain rfl : r' = r := Option.some.inj (splitAtProducer_eq_some hproducer).2
              exact ⟨before, r', source, loaded, between, e, sourceSizes, slice, merged, _, hmerged,
                huse, block_eq_of_producer hroot hproducer, rfl⟩
          · cases h
      · cases h
  · cases h

omit [DecidableEq A] [Inhabited V] in
/-- A value that only the consumer uses is used neither in between nor after it. -/
theorem unused_of_hasOneUse {before between after : Block A} {producer root : Op A} {r : TensorValue}
    (huse : hasOneUse (before ++ producer :: (between ++ root :: after)) r)
    (hroot : r ∈ root.operands) :
    (∀ op ∈ between, r ∉ op.operands) ∧ ∀ op ∈ after, r ∉ op.operands := by
  have heq : before ++ producer :: (between ++ root :: after) =
      (before ++ producer :: between) ++ root :: after := by
    rw [List.append_assoc, List.cons_append]
  rw [heq] at huse
  obtain ⟨hbefore, hafter⟩ := not_mem_operands_of_hasOneUse huse hroot
  refine ⟨fun op hop => hbefore op ?_, hafter⟩
  exact List.mem_append_right _ (List.mem_cons_of_mem _ hop)

omit [DecidableEq A] [Inhabited V] in
theorem agreeOff_define (σ : State A V) (r : TensorValue) (data : List V) :
    AgreeOff [r] [] (σ.define r data) σ :=
  ⟨rfl, fun _ _ => rfl, fun v hv =>
    Function.update_of_ne (fun hr : v = r => hv (List.mem_singleton.mpr hr)) _ _⟩

theorem foldSliceIntoLoad_keeps {block : Block A} {i : Nat} (hssa : Ssa block)
    (h : foldSliceIntoLoad block i = some rw) (hu : rw.Undisturbed m σ) :
    SameEffects m σ block rw.new ∧ Ssa rw.new := by
  obtain ⟨before, r, source, loaded, between, e, sourceSizes, slice, merged, after, hmerged, huse,
    rfl, rfl⟩ := foldSliceIntoLoad_ok h
  obtain ⟨hbetween, hafter⟩ := unused_of_hasOneUse huse (List.mem_singleton_self r)
  constructor
  · have hproducer : AgreeOff [r] [] ((Op.load r source loaded).run m (run m before σ))
        (run m before σ) := agreeOff_define _ r _
    apply SameEffects.of_agreeOff hproducer hbetween nofun ?_ hafter
    intro hagree
    have hvalue := values_of_producer (m := m) hssa rfl (run m before σ)
    refine hagree.define e ?_
    obtain ⟨hsizes, hfits⟩ := hu.slice
    rw [hvalue]
    show Machine.extract _ ((State.define _ r _).values r) _ = _
    rw [State.define_values_self]
    rw [hsizes] at hfits ⊢
    refine (extract_indices hmerged hfits _).trans (List.map_congr_left fun index hindex => ?_)
    rw [← hagree.memory]
    -- The slice's elements were loaded, and are loaded again.
    refine (run_memory (hu.memory _ ?_ ⟨_, List.mem_singleton_self _, ?_⟩)).symm
    · exact List.mem_map_of_mem (mem_indices_of_merged hmerged hfits hindex)
    · exact List.mem_map_of_mem hindex
  · exact hssa.replace (Or.inl rfl) (Or.inr rfl) nofun nofun

/-! ## FIFO reads -/

omit [DecidableEq A] in
theorem lowerStoreFromFifo_ok {block : Block A} {i : Nat}
    (h : lowerStoreFromFifo block i = some rw) :
    ∃ before r slot type between dest slice access after,
      createTransferAccess slice = some access ∧
      hasOneUse block r ∧
      block = before ++ .readFromFifo r slot type :: (between ++ .store r dest slice :: after) ∧
      rw = ⟨before, .readFromFifo r slot type, [], between, .store r dest slice,
        [.dataTransfer (.fifo slot access.sizes) (.memory dest access) .copy], after⟩ := by
  unfold lowerStoreFromFifo at h
  split at h
  · next data dest slice hroot =>
      split at h
      · next before r slot type between hproducer =>
          obtain rfl : r = data := Option.some.inj (splitAtProducer_eq_some hproducer).2
          split at h
          · next huse =>
              split at h
              · obtain ⟨access, haccess, rfl⟩ := Option.map_eq_some_iff.mp h
                exact ⟨before, r, slot, type, between, dest, slice, access, _, haccess, huse,
                  block_eq_of_producer hroot hproducer, rfl⟩
              · cases h
          · cases h
      · cases h
  · cases h

omit [DecidableEq A] in
theorem lowerIndStoreFromFifo_ok {block : Block A} {i : Nat}
    (h : lowerIndStoreFromFifo block i = some rw) :
    ∃ before r slot readType between type indAddrBuf index base slice access after,
      createTransferAccess slice = some access ∧
      hasOneUse block r ∧
      block = before ++ .readFromFifo r slot readType ::
        (between ++ .indStore r type indAddrBuf index base slice :: after) ∧
      rw = ⟨before, .readFromFifo r slot readType, [], between,
        .indStore r type indAddrBuf index base slice,
        [.scatter slot type indAddrBuf index base access], after⟩ := by
  unfold lowerIndStoreFromFifo at h
  split at h
  · next data type indAddrBuf index base slice hroot =>
      split at h
      · next before r slot readType between hproducer =>
          obtain rfl : r = data := Option.some.inj (splitAtProducer_eq_some hproducer).2
          split at h
          · next huse =>
              split at h
              · obtain ⟨access, haccess, rfl⟩ := Option.map_eq_some_iff.mp h
                exact ⟨before, r, slot, readType, between, type, indAddrBuf, index, base, slice,
                  access, _, haccess, huse, block_eq_of_producer hroot hproducer, rfl⟩
              · cases h
          · cases h
      · cases h
  · cases h

/-- A read that is put off: until it is done, the value and the FIFO differ. -/
theorem agreeOff_readFromFifo (σ : State A V) (r : TensorValue) (slot : FifoSlot)
    (type : TensorType) : AgreeOff [r] [slot] ((Op.readFromFifo r slot type).run m σ) σ := by
  refine ⟨rfl, fun s hs => ?_, fun v hv => ?_⟩
  · exact Function.update_of_ne (fun heq : s = slot => hs (List.mem_singleton.mpr heq)) _ _
  · exact Function.update_of_ne (fun heq : v = r => hv (List.mem_singleton.mpr heq)) _ _

/-- Where nothing in between uses the FIFO, reading it later gives the same, and then nothing
differs but the value. -/
theorem agreeOff_push_read {before between after : Block A} {root : Op A} {r : TensorValue}
    {slot : FifoSlot} {type : TensorType}
    (hssa : Ssa (before ++ .readFromFifo r slot type :: (between ++ root :: after)))
    (hfree : ∀ op ∈ between, slot ∉ op.fifos) (σ : State A V)
    (h : AgreeOff [r] [slot] (run m between ((Op.readFromFifo r slot type).run m σ))
      (run m between σ)) :
    (run m between ((Op.readFromFifo r slot type).run m σ)).values r =
        m.fifo slot ((run m between σ).fifos slot) ∧
      AgreeOff [r] [] (run m between ((Op.readFromFifo r slot type).run m σ))
        ((run m between σ).push slot .read) := by
  have hlater : (run m between σ).fifos slot = σ.fifos slot := run_fifos hfree
  constructor
  · rw [values_of_producer hssa rfl, hlater]
    exact State.define_values_self _ _ _
  · refine ⟨h.memory, fun s _ => ?_, h.values⟩
    by_cases hs : s = slot
    · subst hs
      rw [run_fifos hfree, State.push_fifos, Function.update_self, hlater]
      exact Function.update_self _ _ _
    · rw [State.push_fifos, Function.update_of_ne hs]
      exact h.fifos s fun hmem => hs (List.mem_singleton.mp hmem)

theorem lowerStoreFromFifo_keeps {block : Block A} {i : Nat} (hssa : Ssa block)
    (h : lowerStoreFromFifo block i = some rw) (hu : rw.Undisturbed m σ) :
    SameEffects m σ block rw.new ∧ Ssa rw.new := by
  obtain ⟨before, r, slot, type, between, dest, slice, access, after, haccess, huse, rfl, rfl⟩ :=
    lowerStoreFromFifo_ok h
  obtain ⟨hbetween, hafter⟩ := unused_of_hasOneUse huse (List.mem_singleton_self r)
  have hfree : ∀ op ∈ between, slot ∉ op.fifos :=
    hu.fifos slot (List.mem_singleton_self slot)
      ⟨_, List.mem_singleton_self _, List.mem_singleton_self slot⟩
  constructor
  · apply SameEffects.of_agreeOff (agreeOff_readFromFifo _ r slot type) hbetween
      (List.forall_mem_singleton.mpr hfree) ?_ hafter
    intro hagree
    obtain ⟨hvalue, hpush⟩ := agreeOff_push_read hssa hfree _ hagree
    show AgreeOff [r] [] (State.write _ ((m.indices slice).map _) _)
      (State.write _ ((m.accessIndices access).map _) _)
    rw [accessIndices_eq haccess]
    exact hpush.write _ hvalue
  · exact hssa.replace (Or.inl rfl) (Or.inl rfl) nofun nofun

theorem lowerIndStoreFromFifo_keeps {block : Block A} {i : Nat} (hssa : Ssa block)
    (h : lowerIndStoreFromFifo block i = some rw) (hu : rw.Undisturbed m σ) :
    SameEffects m σ block rw.new ∧ Ssa rw.new := by
  obtain ⟨before, r, slot, readType, between, type, indAddrBuf, index, base, slice, access, after,
    haccess, huse, rfl, rfl⟩ := lowerIndStoreFromFifo_ok h
  obtain ⟨hbetween, hafter⟩ := unused_of_hasOneUse huse (List.mem_singleton_self r)
  have hfree : ∀ op ∈ between, slot ∉ op.fifos :=
    hu.fifos slot (List.mem_singleton_self slot)
      ⟨_, List.mem_singleton_self _, List.mem_singleton_self slot⟩
  constructor
  · apply SameEffects.of_agreeOff (agreeOff_readFromFifo _ r slot readType) hbetween
      (List.forall_mem_singleton.mpr hfree) ?_ hafter
    intro hagree
    obtain ⟨hvalue, hpush⟩ := agreeOff_push_read hssa hfree _ hagree
    show AgreeOff [r] [] (State.write _ ((m.indices slice).map _) _)
      (State.write _ ((m.accessIndices access).map _) _)
    rw [accessIndices_eq haccess, hagree.memory]
    exact hpush.write _ hvalue
  · exact hssa.replace (Or.inl rfl) (Or.inl rfl) nofun nofun

/-! ## Reshapes of FIFO data -/

omit [DecidableEq A] in
theorem foldReshapeIntoFifoWrite_ok {block : Block A} {i : Nat}
    (h : foldReshapeIntoFifoWrite block i = some rw) :
    ∃ before r operand type between slot after,
      block = before ++ .reshape r operand type :: (between ++ .writeToFifo r slot :: after) ∧
      rw = ⟨before, .reshape r operand type, [.reshape r operand type], between,
        .writeToFifo r slot, [.writeToFifo operand slot], after⟩ := by
  unfold foldReshapeIntoFifoWrite at h
  split at h
  · next data slot hroot =>
      split at h
      · next before r operand type between hproducer =>
          cases h
          obtain rfl : r = data := Option.some.inj (splitAtProducer_eq_some hproducer).2
          exact ⟨before, r, operand, type, between, slot, _,
            block_eq_of_producer hroot hproducer, rfl⟩
      · cases h
  · cases h

theorem foldReshapeIntoFifoWrite_keeps {block : Block A} {i : Nat} (hssa : Ssa block)
    (h : foldReshapeIntoFifoWrite block i = some rw) :
    SameEffects m σ block rw.new ∧ Ssa rw.new := by
  obtain ⟨before, r, operand, type, between, slot, after, rfl, rfl⟩ := foldReshapeIntoFifoWrite_ok h
  constructor
  · apply SameEffects.of_eq
    have hsub : (Op.reshape r operand type :: between).Sublist
        (before ++ .reshape r operand type :: (between ++ .writeToFifo r slot :: after)) :=
      List.Sublist.trans ((List.sublist_append_left _ _).cons_cons _)
        (List.sublist_append_right _ _)
    have hdata := values_lookThrough (m := m)
      ⟨hssa.ordered.sublist hsub, fun op hop => hssa.irreflexive op (hsub.subset hop)⟩ r
      (run m before σ)
    rw [Op.lookThrough, if_pos rfl] at hdata
    show State.push _ slot (.wrote (State.values _ operand)) =
      State.push _ slot (.wrote (State.values _ r))
    rw [hdata]
  · exact hssa.replace (Or.inr rfl) (Or.inl rfl) (fun v hv => hv) nofun

omit [DecidableEq A] in
theorem foldReshapeIntoFifoRead_ok {block : Block A} {i : Nat}
    (h : foldReshapeIntoFifoRead block i = some rw) :
    ∃ before r slot type between e newType after,
      hasOneUse block r ∧
      block = before ++ .readFromFifo r slot type :: (between ++ .reshape e r newType :: after) ∧
      rw = ⟨before, .readFromFifo r slot type, [.readFromFifo e slot newType], between,
        .reshape e r newType, [], after⟩ := by
  unfold foldReshapeIntoFifoRead at h
  split at h
  · next r slot type hread =>
      split at h
      · next huse =>
          split at h
          · next between e operand newType after huser =>
              cases h
              obtain ⟨hrest, hmem, -⟩ := splitAtUser_eq_some huser
              obtain rfl : r = operand := List.mem_singleton.mp hmem
              refine ⟨_, r, slot, type, between, e, newType, after, huse, ?_, rfl⟩
              conv_lhs => rw [eq_take_append_drop hread, hrest]
          · cases h
      · cases h
  · cases h

omit [DecidableEq A] [Inhabited V] in
/-- The read takes the place of its reshape in the order of definitions. -/
theorem Ssa.foldRead {before between after : Block A} {r e : TensorValue} {slot : FifoSlot}
    {type newType : TensorType}
    (h : Ssa (before ++ .readFromFifo r slot type :: (between ++ .reshape e r newType :: after))) :
    Ssa (before ++ ([.readFromFifo e slot newType] ++ (between ++ ([] ++ after)))) := by
  obtain ⟨hordered, hirr⟩ := h
  simp only [List.pairwise_append, List.pairwise_cons, List.mem_append, List.mem_cons] at hordered
  obtain ⟨hbefore, ⟨-, hbetween, ⟨hreshape, hafter⟩, hbetween'⟩, hbefore'⟩ := hordered
  simp only [List.mem_append, List.mem_cons] at hirr
  constructor
  · simp only [List.singleton_append, List.nil_append, List.pairwise_append, List.pairwise_cons,
      List.mem_append, List.mem_cons]
    refine ⟨hbefore, ⟨?_, hbetween, hafter, fun a ha c hc => hbetween' a ha c (Or.inr hc)⟩, ?_⟩
    · rintro c (hc | hc) v hv
      · refine ⟨?_, List.not_mem_nil⟩
        rintro heq
        cases heq
        exact (hbetween' c hc _ (Or.inl rfl) e rfl).1 hv
      · exact ⟨(hreshape c hc v hv).1, List.not_mem_nil⟩
    · rintro a ha c (rfl | hc | hc)
      · exact fun v hv => hbefore' a ha (.reshape e r newType) (Or.inr (Or.inr (Or.inl rfl))) v hv
      · exact hbefore' a ha c (Or.inr (Or.inl hc))
      · exact hbefore' a ha c (Or.inr (Or.inr (Or.inr hc)))
  · simp only [List.singleton_append, List.nil_append, List.mem_append, List.mem_cons]
    rintro op (hop | rfl | hop | hop)
    · exact hirr op (Or.inl hop)
    · exact fun v _ => List.not_mem_nil
    · exact hirr op (Or.inr (Or.inr (Or.inl hop)))
    · exact hirr op (Or.inr (Or.inr (Or.inr (Or.inr hop))))

theorem foldReshapeIntoFifoRead_keeps {block : Block A} {i : Nat} (hssa : Ssa block)
    (h : foldReshapeIntoFifoRead block i = some rw) :
    SameEffects m σ block rw.new ∧ Ssa rw.new := by
  obtain ⟨before, r, slot, type, between, e, newType, after, huse, rfl, rfl⟩ :=
    foldReshapeIntoFifoRead_ok h
  refine ⟨?_, hssa.foldRead⟩
  obtain ⟨hbetween, hafter⟩ := unused_of_hasOneUse huse (List.mem_singleton_self r)
  obtain ⟨hordered, -⟩ := hssa
  simp only [List.pairwise_append, List.pairwise_cons, List.mem_append, List.mem_cons] at hordered
  obtain ⟨-, ⟨hproducer, -, -, hbetween'⟩, -⟩ := hordered
  have hreshape : ∀ op ∈ between, op.result? ≠ some e ∧ e ∉ op.operands :=
    fun op hop => hbetween' op hop _ (Or.inl rfl) e rfl
  -- In between the two runs differ in the value that was read, under either name.
  have hread : AgreeOff [r, e] [] ((Op.readFromFifo r slot type).run m (run m before σ))
      ((Op.readFromFifo e slot newType).run m (run m before σ)) := by
    refine ⟨rfl, fun _ _ => rfl, fun v hv => ?_⟩
    rw [List.mem_cons, List.mem_singleton, not_or] at hv
    exact (Function.update_of_ne hv.1 _ _).trans (Function.update_of_ne hv.2 _ _).symm
  have hmid : AgreeOff [r, e] []
      (run m between ((Op.readFromFifo r slot type).run m (run m before σ)))
      (run m between ((Op.readFromFifo e slot newType).run m (run m before σ))) := by
    apply hread.run
    · intro op hop v hv hmem
      rw [List.mem_cons, List.mem_singleton] at hmem
      rcases hmem with rfl | rfl
      · exact hbetween op hop hv
      · exact (hreshape op hop).2 hv
    · intro op hop s hs
      exact List.not_mem_nil
  have hr : (run m between ((Op.readFromFifo r slot type).run m (run m before σ))).values r =
      m.fifo slot ((run m before σ).fifos slot) := by
    refine (run_values fun op hop hresult => ?_).trans (State.define_values_self _ _ _)
    exact (hproducer op (Or.inl hop) r hresult).1 rfl
  have he : (run m between ((Op.readFromFifo e slot newType).run m (run m before σ))).values e =
      m.fifo slot ((run m before σ).fifos slot) :=
    (run_values fun op hop => (hreshape op hop).1).trans (State.define_values_self _ _ _)
  have hroot : AgreeOff [r] []
      ((Op.reshape e r newType).run m
        (run m between ((Op.readFromFifo r slot type).run m (run m before σ))))
      (run m between ((Op.readFromFifo e slot newType).run m (run m before σ))) := by
    refine ⟨hmid.memory, hmid.fifos, fun v hv => ?_⟩
    by_cases hve : v = e
    · subst hve
      exact (State.define_values_self _ _ _).trans (hr.trans he.symm)
    · refine (Function.update_of_ne hve _ _).trans (hmid.values v ?_)
      rw [List.mem_cons, List.mem_singleton, not_or]
      exact ⟨fun h => hv (List.mem_singleton.mpr h), hve⟩
  have hend : AgreeOff [r] []
      (run m after ((Op.reshape e r newType).run m
        (run m between ((Op.readFromFifo r slot type).run m (run m before σ)))))
      (run m after (run m between ((Op.readFromFifo e slot newType).run m (run m before σ)))) := by
    apply hroot.run
    · intro op hop v hv hmem
      exact hafter op hop (List.mem_singleton.mp hmem ▸ hv)
    · intro op hop s hs
      exact List.not_mem_nil
  unfold SameEffects Rewritten.new
  simp only [run_append, run_cons, run_nil]
  exact ⟨hend.memory.symm, funext fun s => (hend.fifos s List.not_mem_nil).symm⟩

end Patterns

/-! ## Sequences of patterns -/

/-- **Every pattern keeps the memory and the FIFOs**, and the SSA form, where nothing is in between. -/
theorem Pattern.matchAndRewrite_keeps (pattern : Pattern) {m : Machine V} {σ : State A V}
    {block : Block A} {i : Nat} {rw : Rewritten A} (hssa : Ssa block)
    (h : pattern.matchAndRewrite block i = some rw) (hu : rw.Undisturbed m σ) :
    SameEffects m σ block rw.new ∧ Ssa rw.new := by
  cases pattern with
  | foldReshapeIntoFifoRead => exact foldReshapeIntoFifoRead_keeps hssa h
  | foldReshapeIntoFifoWrite => exact foldReshapeIntoFifoWrite_keeps hssa h
  | foldSliceIntoLoad => exact foldSliceIntoLoad_keeps hssa h hu
  | lowerLoadToFifo => exact lowerLoadToFifo_keeps hssa h hu
  | lowerStoreFromFifo => exact lowerStoreFromFifo_keeps hssa h hu
  | lowerStoreFromLoad => exact lowerStoreFromLoad_keeps hssa h hu
  | lowerIndLoadToFifo => exact lowerIndLoadToFifo_keeps hssa h hu
  | lowerIndStoreFromFifo => exact lowerIndStoreFromFifo_keeps hssa h hu

omit [DecidableEq A] [Inhabited V] in
/-- One pattern somewhere in a block. -/
def Rewrites (block block' : Block A) : Prop :=
  ∃ (pattern : Pattern) (i : Nat) (rw : Rewritten A),
    pattern.matchAndRewrite block i = some rw ∧ block' = rw.new

/-- One pattern somewhere in a block, with nothing in between when the block starts at `σ`. -/
def RewritesUndisturbed (m : Machine V) (σ : State A V) (block block' : Block A) : Prop :=
  ∃ (pattern : Pattern) (i : Nat) (rw : Rewritten A),
    pattern.matchAndRewrite block i = some rw ∧ rw.Undisturbed m σ ∧ block' = rw.new

/-- **Converting loads and stores to transfers keeps the contents of the memory and of the FIFOs** in
every sequence of patterns whose steps have nothing in between: however the block starts and whatever
the FIFOs give, every memory element ends with the value it ended with, and every FIFO is read and
written as before, in the same order and with the same data. -/
theorem rewrites_keepContents (m : Machine V) (σ : State A V) (block block' : Block A)
    (hssa : Ssa block) (h : Relation.ReflTransGen (RewritesUndisturbed m σ) block block') :
    SameEffects m σ block block' := by
  suffices hboth : SameEffects m σ block block' ∧ Ssa block' from hboth.1
  induction h with
  | refl => exact ⟨⟨rfl, rfl⟩, hssa⟩
  | tail _ hstep ih =>
      obtain ⟨hsame, hssa'⟩ := ih
      obtain ⟨pattern, i, rw', hrw, hu, rfl⟩ := hstep
      obtain ⟨hsame', hssa''⟩ := pattern.matchAndRewrite_keeps hssa' hrw hu
      exact ⟨⟨hsame'.1.trans hsame.1, hsame'.2.trans hsame.2⟩, hssa''⟩

section Swap

/-- A memref of one element. -/
def cell (number : Int) : Ref Int := ⟨true, fun offset index => number + offset + index.headD 0⟩

def oneElement : List Range := [⟨.index 0, .index 1, .index 1⟩]

def copyCell (source dest : Int) : Op Int :=
  .dataTransfer (.memory (cell source) ⟨⟨0, 0, [.constant 0]⟩, [], [.index 1]⟩)
    (.memory (cell dest) ⟨⟨0, 0, [.constant 0]⟩, [], [.index 1]⟩) .copy

/-- Two cells that exchange their elements. -/
def swap : Block Int := [
  .load 0 (cell 0) oneElement,
  .load 1 (cell 1) oneElement,
  .store 0 (cell 1) oneElement,
  .store 1 (cell 0) oneElement]

def swapMachine : Machine Int where
  arguments _ := 0
  entry _ := 0
  fifo _ _ := []
  compute _ _ := []

def swapState : State Int Int where
  memory a := a
  fifos _ := []
  values _ := []

/-- The second transfer of a swap copies back what the first one copied. -/
theorem not_rewrites_keepContents_swap :
    ∃ block : Block Int, Ssa swap ∧ Relation.ReflTransGen Rewrites swap block ∧
      ¬ SameEffects swapMachine swapState swap block := by
  refine ⟨[.load 0 (cell 0) oneElement, .load 1 (cell 1) oneElement, copyCell 0 1, copyCell 1 0],
    ⟨?_, ?_⟩, ?_, ?_⟩
  · simp [swap, Op.Before, Op.result?, Op.operands]
  · simp [swap, Op.result?, Op.operands]
  · have hfirst : Rewrites swap [.load 0 (cell 0) oneElement, .load 1 (cell 1) oneElement,
        copyCell 0 1, .store 1 (cell 0) oneElement] :=
      ⟨.lowerStoreFromLoad, 2, _, rfl, rfl⟩
    exact (Relation.ReflTransGen.single hfirst).tail ⟨.lowerStoreFromLoad, 3, _, rfl, rfl⟩
  · rintro ⟨hmemory, -⟩
    have hcell := congrFun hmemory 0
    revert hcell
    decide

/-- A load and the store of its data, one after the other. -/
theorem rewrites_keepContents_copy :
    SameEffects swapMachine swapState
      [.load 0 (cell 0) oneElement, .store 0 (cell 1) oneElement]
      [.load 0 (cell 0) oneElement, copyCell 0 1] := by
  apply rewrites_keepContents
  · constructor
    · simp [Op.Before, Op.result?, Op.operands]
    · simp [Op.result?, Op.operands]
  · apply Relation.ReflTransGen.single
    refine ⟨.lowerStoreFromLoad, 1, _, rfl, ⟨?_, ?_, ?_⟩, rfl⟩
    · simp [writtenBy]
    · simp
    · simp [Rewritten.SliceFits]

end Swap

end DataTransfers

end DataflowScheduler
