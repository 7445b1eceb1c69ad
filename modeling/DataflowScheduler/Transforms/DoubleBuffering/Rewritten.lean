import DataflowScheduler.Transforms.DoubleBuffering.Runs

/-!
# The rewritten pipeline

The buffers that are accepted are yielded once and not used otherwise. So the rewritten pipeline has the
memrefs of the pipeline, but for the buffers, which are the selected ones.
-/

namespace DoubleBuffering

open DataflowScheduler (MemoryTree)

variable {R : Type}

/-- A value that occurs once occurs at one position. -/
theorem index_unique_of_count {α : Type} [DecidableEq α] {l : List α} {a : α} (h : l.count a = 1)
    {i j : Nat} (hi : l[i]? = some a) (hj : l[j]? = some a) : i = j := by
  induction l generalizing i j with
  | nil => cases hi
  | cons b l ih =>
    have hzero : b = a → a ∉ l := by
      rintro rfl
      rw [List.count_cons_self] at h
      exact List.count_eq_zero.mp (by omega)
    have hmem : ∀ k, l[k]? = some a → a ∈ l := fun k hk => List.mem_of_getElem? hk
    cases i with
    | zero =>
      have hb : b = a := by simpa using hi
      cases j with
      | zero => rfl
      | succ j => exact absurd (hmem j (by simpa using hj)) (hzero hb)
    | succ i =>
      have hai := hmem i (by simpa using hi)
      have hb : b ≠ a := fun hb => hzero hb hai
      cases j with
      | zero => exact absurd (by simpa using hj) hb
      | succ j =>
        rw [List.count_cons_of_ne hb] at h
        have hij : i = j := ih h (by simpa using hi) (by simpa using hj)
        rw [hij]

/-! ## What is accepted -/

/-- The buffer a candidate allocates. -/
def Candidate.buffer (c : Candidate) : ValueId := c.shape.alloc.results.headD 0

/-- A candidate whose shape is accepted: its buffer is used by the yield only, once. -/
structure Accepted (p : PrivateOp R) (c : Candidate) : Prop where
  alloc : c.shape.alloc ∈ p.body
  isAlloc : c.shape.alloc.kind = .alloc
  results : c.shape.alloc.results = [c.buffer]
  slot : ∃ s, p.slots[c.shape.slot]? = some s ∧ s.result = c.shape.yielded ∧ s.yieldOperand = c.buffer
  usesInOps : c.buffer ∉ p.body.flatMap OpInfo.operands
  usesInYield : p.usesInYield c.buffer = 1

/-- **What the checks of the shape accept.** -/
theorem checkBufferShape_some [DecidableEq R] {memoryTree : MemoryTree R}
    {dominates : ValueId → Bool} {p : PrivateOp R} {slot : Nat} {shape : CandidateShape}
    (h : checkBufferShape memoryTree dominates p slot = some shape) :
    shape.slot = slot ∧ ∀ producer consumers, Accepted p ⟨shape, producer, consumers⟩ := by
  unfold checkBufferShape at h
  simp only [Option.bind_eq_bind, Option.bind_eq_some_iff] at h
  obtain ⟨s, hs, resource, -, h⟩ := h
  split at h
  next =>
    obtain ⟨alloc, halloc, h⟩ := Option.bind_eq_some_iff.mp h
    split at h
    next => cases h
    next huses =>
      split at h
      next => cases h
      next hyield =>
        split at h
        next =>
          obtain rfl := Option.some.inj h
          have hfound := List.find?_some halloc
          simp only [decide_eq_true_eq] at hfound
          have hbuffer : ∀ producer consumers,
              Candidate.buffer ⟨⟨s.result, slot, alloc⟩, producer, consumers⟩ = s.yieldOperand := by
            intro producer consumers
            show alloc.results.headD 0 = _
            rw [hfound.2]
            rfl
          refine ⟨rfl, fun producer consumers => ?_⟩
          constructor
          · exact List.mem_of_find?_eq_some halloc
          · exact hfound.1
          · rw [hbuffer]
            exact hfound.2
          · exact ⟨s, hs, rfl, (hbuffer _ _).symm⟩
          · rw [hbuffer, ← List.count_eq_zero]
            show p.usesInOps s.yieldOperand = 0
            omega
          · rw [hbuffer]
            omega
        next => cases h
  next => cases h

theorem checkProducerConsumer_shape {stages : List StageOp} {shape : CandidateShape} {c : Candidate}
    (h : checkProducerConsumer stages shape = some c) : c.shape = shape := by
  unfold checkProducerConsumer at h
  obtain ⟨⟨producers, consumers⟩, -, h⟩ := Option.bind_eq_some_iff.mp h
  simp only at h
  split at h
  next =>
    split at h
    next => cases h
    next =>
      split at h
      next =>
        obtain rfl := Option.some.inj h
        rfl
      next => cases h
  next => cases h

/-- The candidates are accepted, and they have different slots. -/
theorem collectCandidates_accepted [DecidableEq R] (memoryTree : MemoryTree R)
    (dominates : ValueId → Bool) {pipeline : PipelineOp R} {p : PrivateOp R}
    (hp : pipeline.privateOp = some p) :
    (∀ c ∈ collectCandidates memoryTree dominates pipeline, Accepted p c) ∧
      ((collectCandidates memoryTree dominates pipeline).map (·.shape.slot)).Nodup := by
  unfold collectCandidates
  rw [hp]
  simp only
  constructor
  · intro c hc
    obtain ⟨shape, hshape, hcheck⟩ := List.mem_filterMap.mp hc
    obtain ⟨slot, -, hslot⟩ := List.mem_filterMap.mp hshape
    obtain rfl := checkProducerConsumer_shape hcheck
    exact (checkBufferShape_some hslot).2 c.producer c.consumers
  · have hsub : ∀ slots : List Nat,
        (((slots.filterMap (checkBufferShape memoryTree dominates p)).filterMap
          (checkProducerConsumer pipeline.stages)).map (·.shape.slot)).Sublist slots := by
      intro slots
      induction slots with
      | nil => exact List.Sublist.refl _
      | cons slot slots ih =>
        cases hshape : checkBufferShape memoryTree dominates p slot with
        | none =>
          rw [List.filterMap_cons_none hshape]
          exact ih.cons _
        | some shape =>
          rw [List.filterMap_cons_some hshape]
          cases hcheck : checkProducerConsumer pipeline.stages shape with
          | none =>
            rw [List.filterMap_cons_none hcheck]
            exact ih.cons _
          | some c =>
            rw [List.filterMap_cons_some hcheck, List.map_cons, checkProducerConsumer_shape hcheck,
              (checkBufferShape_some hshape).1]
            exact ih.cons_cons _
    exact (hsub _).nodup List.nodup_range

/-! ## Different candidates -/

variable {pipeline : PipelineOp R} {p : PrivateOp R} {next : ValueId} {cs : List Candidate}

/-- The value of a candidate in front of the pipeline in the list `cs` is fresh, from `next` on. -/
def selected (next : ValueId) (cs : List Candidate) (i : Nat) : ValueId :=
  next + 2 * cs.length + 1 + i

theorem next_le_selected {i : Nat} : next ≤ selected next cs i := by
  unfold selected
  rw [Nat.add_assoc, Nat.add_assoc]
  exact Nat.le_add_right _ _

/-- The buffer a candidate uses in iteration `k`. -/
def homeOf (next : ValueId) (i k : Nat) : ValueId := next + 2 * i + k % kDefaultNumPhases

/-- Two candidates with one slot are the same, also by their position. -/
theorem slot_unique (hslots : (cs.map (·.shape.slot)).Nodup) {x y : Candidate × Nat}
    (hx : x ∈ cs.zipIdx) (hy : y ∈ cs.zipIdx) (h : x.1.shape.slot = y.1.shape.slot) : x = y := by
  have hnodup : (cs.zipIdx.map fun x => x.1.shape.slot).Nodup := by
    have hmap : (cs.zipIdx.map fun x => x.1.shape.slot) = cs.map (·.shape.slot) := by
      conv_rhs => rw [← List.zipIdx_map_fst 0 cs]
      rw [List.map_map]
      rfl
    rw [hmap]
    exact hslots
  exact List.inj_on_of_nodup_map hnodup hx hy h

theorem mem_of_mem_zipIdx {x : Candidate × Nat} (hx : x ∈ cs.zipIdx) : x.1 ∈ cs := by
  rw [← List.zipIdx_map_fst 0 cs]
  exact List.mem_map_of_mem hx

/-- A result of the private region is in one slot only. -/
theorem slot_eq_of_result (hvalid : pipeline.Valid p next) {i j : Nat} {s t : Slot R}
    (hs : p.slots[i]? = some s) (ht : p.slots[j]? = some t) (h : s.result = t.result) : i = j := by
  have hi : (p.slots.map Slot.result)[i]? = some s.result := by rw [List.getElem?_map, hs]; rfl
  have hj : (p.slots.map Slot.result)[j]? = some s.result := by rw [List.getElem?_map, ht, h]; rfl
  have hlt : i < (p.slots.map Slot.result).length := (List.getElem?_eq_some_iff.mp hi).1
  exact (List.getElem?_inj hlt hvalid.slots).mp (hi.trans hj.symm)

/-- A buffer that is yielded once is in one slot only. -/
theorem slot_eq_of_yieldOperand {v : ValueId} (huse : p.usesInYield v = 1) {i j : Nat} {s t : Slot R}
    (hs : p.slots[i]? = some s) (ht : p.slots[j]? = some t) (hsv : s.yieldOperand = v)
    (htv : t.yieldOperand = v) : i = j := by
  have hi : (p.slots.map Slot.yieldOperand)[i]? = some v := by rw [List.getElem?_map, hs, ← hsv]; rfl
  have hj : (p.slots.map Slot.yieldOperand)[j]? = some v := by rw [List.getElem?_map, ht, ← htv]; rfl
  exact index_unique_of_count huse hi hj

theorem yielded_lt (hvalid : pipeline.Valid p next) {c : Candidate} (hc : Accepted p c) :
    c.shape.yielded < next := by
  obtain ⟨s, hs, hresult, -⟩ := hc.slot
  rw [← hresult]
  exact hvalid.slots_lt _ (List.mem_map_of_mem (List.mem_of_getElem? hs))

/-- Different candidates have different results of the private region. -/
theorem yielded_unique (hvalid : pipeline.Valid p next) (hcs : ∀ c ∈ cs, Accepted p c)
    (hslots : (cs.map (·.shape.slot)).Nodup) {x y : Candidate × Nat} (hx : x ∈ cs.zipIdx)
    (hy : y ∈ cs.zipIdx) (h : x.1.shape.yielded = y.1.shape.yielded) : x = y := by
  obtain ⟨s, hs, hsresult, -⟩ := (hcs _ (mem_of_mem_zipIdx hx)).slot
  obtain ⟨t, ht, htresult, -⟩ := (hcs _ (mem_of_mem_zipIdx hy)).slot
  apply slot_unique hslots hx hy
  exact slot_eq_of_result hvalid hs ht (by rw [hsresult, htresult, h])

/-- Different candidates have different buffers. -/
theorem buffer_unique (hcs : ∀ c ∈ cs, Accepted p c) (hslots : (cs.map (·.shape.slot)).Nodup)
    {x y : Candidate × Nat} (hx : x ∈ cs.zipIdx) (hy : y ∈ cs.zipIdx)
    (h : x.1.buffer = y.1.buffer) : x = y := by
  have hxc := hcs _ (mem_of_mem_zipIdx hx)
  obtain ⟨s, hs, -, hsyield⟩ := hxc.slot
  obtain ⟨t, ht, -, htyield⟩ := (hcs _ (mem_of_mem_zipIdx hy)).slot
  exact slot_unique hslots hx hy (slot_eq_of_yieldOperand hxc.usesInYield hs ht hsyield
    (by rw [htyield, h]))

/-! ## The uses after the rewrite -/

/-- The value used in place of another one. -/
def rename (next : ValueId) (cs : List Candidate) (v : ValueId) : ValueId :=
  (cs.zipIdx.find? fun x => x.1.shape.yielded = v).elim v fun x => selected next cs x.2

theorem rename_yielded (hvalid : pipeline.Valid p next) (hcs : ∀ c ∈ cs, Accepted p c)
    (hslots : (cs.map (·.shape.slot)).Nodup) {x : Candidate × Nat} (hx : x ∈ cs.zipIdx) :
    rename next cs x.1.shape.yielded = selected next cs x.2 := by
  unfold rename
  cases hfind : cs.zipIdx.find? fun y => y.1.shape.yielded = x.1.shape.yielded with
  | none => simpa using List.find?_eq_none.mp hfind x hx
  | some y =>
    have hy := List.find?_some hfind
    simp only [decide_eq_true_eq] at hy
    rw [yielded_unique hvalid hcs hslots (List.mem_of_find?_eq_some hfind) hx hy]
    rfl

theorem rename_of_not_yielded {v : ValueId} (hv : ∀ c ∈ cs, c.shape.yielded ≠ v) :
    rename next cs v = v := by
  unfold rename
  rw [List.find?_eq_none.mpr fun x hx => by simpa using hv _ (mem_of_mem_zipIdx hx)]
  rfl

/-- Replacing uses one candidate after the other. -/
def replaceAll (l : List (ValueId × ValueId)) (v : ValueId) : ValueId :=
  l.foldl (fun v x => if v = x.1 then x.2 else v) v

theorem replaceAll_of_not_mem {l : List (ValueId × ValueId)} {v : ValueId}
    (hv : ∀ x ∈ l, x.1 ≠ v) : replaceAll l v = v := by
  induction l with
  | nil => rfl
  | cons x l ih =>
    have hne : v ≠ x.1 := (hv x List.mem_cons_self).symm
    show replaceAll l (if v = x.1 then x.2 else v) = v
    rw [if_neg hne]
    exact ih fun y hy => hv y (List.mem_cons_of_mem x hy)

theorem replaceAll_of_mem {l : List (ValueId × ValueId)} (hnodup : (l.map Prod.fst).Nodup)
    (hnew : ∀ x ∈ l, ∀ y ∈ l, x.1 ≠ y.2) {x : ValueId × ValueId} (hx : x ∈ l) :
    replaceAll l x.1 = x.2 := by
  induction l with
  | nil => cases hx
  | cons y l ih =>
    rw [List.map_cons, List.nodup_cons] at hnodup
    show replaceAll l (if x.1 = y.1 then y.2 else x.1) = x.2
    rcases List.mem_cons.mp hx with rfl | hx
    · rw [if_pos rfl]
      exact replaceAll_of_not_mem fun z hz =>
        hnew z (List.mem_cons_of_mem _ hz) x List.mem_cons_self
    · have hne : x.1 ≠ y.1 := fun h => hnodup.1 (h ▸ List.mem_map_of_mem hx)
      rw [if_neg hne]
      exact ih hnodup.2 (fun a ha b hb =>
        hnew a (List.mem_cons_of_mem _ ha) b (List.mem_cons_of_mem _ hb)) hx

/-- The pipeline with other operands. -/
def PipelineOp.mapOperands (f : ValueId → ValueId) (pipeline : PipelineOp R) : PipelineOp R :=
  { pipeline with
    privateOp := pipeline.privateOp.map fun p =>
      { body := p.body.map (OpInfo.mapOperands · f),
        slots := p.slots.map fun s => { s with yieldOperand := f s.yieldOperand } }
    stages := pipeline.stages.map fun s =>
      { s with body := s.body.map (Rose.map (OpInfo.mapOperands · f)) } }

theorem OpInfo.mapOperands_mapOperands (op : OpInfo) (f g : ValueId → ValueId) :
    (op.mapOperands f).mapOperands g = op.mapOperands (g ∘ f) := by
  cases op with
  | mk id kind others results =>
    unfold OpInfo.mapOperands
    rw [List.map_map]
    cases kind <;> rfl

@[simp] theorem OpInfo.operands_mapOperands (op : OpInfo) (f : ValueId → ValueId) :
    (op.mapOperands f).operands = op.operands.map f := by
  cases op with
  | mk id kind others results =>
    unfold OpInfo.operands OpInfo.mapOperands
    rw [List.map_append]
    cases kind <;> rfl

theorem OpInfo.mapOperands_of_fixed {op : OpInfo} {f : ValueId → ValueId}
    (h : ∀ v ∈ op.operands, f v = v) : op.mapOperands f = op := by
  cases op with
  | mk id kind others results =>
    have hothers : others.map f = others := by
      conv_rhs => rw [← List.map_id others]
      exact List.map_congr_left fun v hv => h v (List.mem_append_right _ hv)
    have hkind : kind.mapOperands f = kind := by
      have hmem : ∀ v ∈ kind.operands, f v = v := fun v hv => h v (List.mem_append_left _ hv)
      cases kind <;> simp_all [OpKind.mapOperands, OpKind.operands]
    unfold OpInfo.mapOperands
    simp only [hothers, hkind]

theorem PipelineOp.mapOperands_mapOperands (pipeline : PipelineOp R) (f g : ValueId → ValueId) :
    (pipeline.mapOperands f).mapOperands g = pipeline.mapOperands (g ∘ f) := by
  unfold PipelineOp.mapOperands
  simp only [Option.map_map, List.map_map, Function.comp_def, Rose.map_map,
    OpInfo.mapOperands_mapOperands]

theorem PipelineOp.mapOperands_id (pipeline : PipelineOp R) : pipeline.mapOperands id = pipeline := by
  have hop : ∀ op : OpInfo, op.mapOperands id = op :=
    fun op => OpInfo.mapOperands_of_fixed fun _ _ => rfl
  have htree : Rose.map (fun op : OpInfo => op) = id := funext (Rose.map_id_of_eq fun _ => rfl)
  cases pipeline with
  | mk modulo privateOp stages =>
    unfold PipelineOp.mapOperands
    simp only [hop, htree, List.map_id', List.map_id, id_eq]
    cases privateOp <;> rfl

/-- Replacing the uses of one value after the other. -/
theorem foldl_replaceUsesInRegion (l : List (ValueId × ValueId)) (pipeline : PipelineOp R) :
    l.foldl (fun p x => replaceUsesInRegion x.1 x.2 p) pipeline =
      pipeline.mapOperands (replaceAll l) := by
  induction l generalizing pipeline with
  | nil => exact pipeline.mapOperands_id.symm
  | cons x l ih =>
    rw [List.foldl_cons, ih]
    exact pipeline.mapOperands_mapOperands _ _

/-- The operations of the stages are those with other operands. -/
theorem ops_mapOperands (pipeline : PipelineOp R) (f : ValueId → ValueId) :
    (pipeline.mapOperands f).stages.flatMap StageOp.ops =
      (pipeline.stages.flatMap StageOp.ops).map (OpInfo.mapOperands · f) := by
  show (pipeline.stages.map _).flatMap StageOp.ops = _
  rw [List.flatMap_map, List.map_flatMap]
  apply List.flatMap_congr
  intro s _
  show (s.body.map _).flatMap Rose.preorder = (s.body.flatMap Rose.preorder).map _
  rw [List.flatMap_map, List.map_flatMap]
  apply List.flatMap_congr
  intro t _
  exact Rose.preorder_map _ t

theorem findOp_mapOperands (pipeline : PipelineOp R) (f : ValueId → ValueId) (op : OpId) :
    (pipeline.mapOperands f).findOp op = (pipeline.findOp op).map (OpInfo.mapOperands · f) := by
  unfold PipelineOp.findOp
  rw [ops_mapOperands, List.find?_map]
  rfl

theorem operandOf_mapOperands (pipeline : PipelineOp R) (f : ValueId → ValueId) (op : OpId)
    (operand : Nat) :
    (pipeline.mapOperands f).operandOf op operand = (pipeline.operandOf op operand).map f := by
  unfold PipelineOp.operandOf
  rw [findOp_mapOperands]
  cases pipeline.findOp op with
  | none => rfl
  | some i => simp

theorem resultOf_mapOperands (pipeline : PipelineOp R) (f : ValueId → ValueId) (op : OpId)
    (result : Nat) : (pipeline.mapOperands f).resultOf op result = pipeline.resultOf op result := by
  unfold PipelineOp.resultOf
  rw [findOp_mapOperands]
  cases pipeline.findOp op <;> rfl

/-- The buffers and the values selected in front of the pipeline. -/
theorem selects_eq (next : ValueId) (ivs : List ValueId) (cs : List Candidate)
    (pipeline : PipelineOp R) :
    (rewritePipeline next ivs cs pipeline).selects = (List.range cs.length).map fun i =>
      ⟨selected next cs i, next + 2 * cs.length, hoistAllocPair (next + 2 * i)⟩ := by
  unfold rewritePipeline selected
  simp only
  apply List.ext_getElem
  · simp
  · intro i hi hi'
    simp

/-- The values that are replaced, and what replaces them. -/
def replacements (next : ValueId) (cs : List Candidate) : List (ValueId × ValueId) :=
  cs.zipIdx.map fun x => (x.1.shape.yielded, selected next cs x.2)

theorem zip_selects (next : ValueId) (ivs : List ValueId) (cs : List Candidate)
    (pipeline : PipelineOp R) :
    (cs.zip (rewritePipeline next ivs cs pipeline).selects).map
      (fun x => (x.1.shape.yielded, x.2.result)) = replacements next cs := by
  rw [selects_eq]
  unfold replacements
  apply List.ext_getElem
  · simp
  · intro i hi hi'
    simp

theorem replaceAll_replacements (hvalid : pipeline.Valid p next) (hcs : ∀ c ∈ cs, Accepted p c)
    (hslots : (cs.map (·.shape.slot)).Nodup) {v : ValueId} :
    replaceAll (replacements next cs) v = rename next cs v := by
  by_cases hv : ∃ x ∈ cs.zipIdx, x.1.shape.yielded = v
  · obtain ⟨x, hx, rfl⟩ := hv
    rw [rename_yielded hvalid hcs hslots hx]
    have hmem : (x.1.shape.yielded, selected next cs x.2) ∈ replacements next cs :=
      List.mem_map_of_mem (f := fun x : Candidate × Nat =>
        (x.1.shape.yielded, selected next cs x.2)) hx
    apply replaceAll_of_mem _ _ hmem
    · unfold replacements
      rw [List.map_map]
      have hnodup : cs.zipIdx.Nodup := by
        apply List.Nodup.of_map Prod.snd
        rw [List.zipIdx_map_snd]
        exact List.nodup_range'
      exact hnodup.map_on fun a ha b hb hab => yielded_unique hvalid hcs hslots ha hb hab
    · intro a ha b hb hab
      obtain ⟨x, hx, rfl⟩ := List.mem_map.mp ha
      obtain ⟨y, hy, rfl⟩ := List.mem_map.mp hb
      have hlt := yielded_lt hvalid (hcs _ (mem_of_mem_zipIdx hx))
      have hge : next ≤ x.1.shape.yielded := by
        rw [show x.1.shape.yielded = selected next cs y.2 from hab]
        exact next_le_selected
      exact Nat.not_le.mpr hlt hge
  · have hne : ∀ c ∈ cs, c.shape.yielded ≠ v := by
      intro c hc heq
      rw [← List.zipIdx_map_fst 0 cs] at hc
      obtain ⟨x, hx, rfl⟩ := List.mem_map.mp hc
      exact hv ⟨x, hx, heq⟩
    rw [rename_of_not_yielded hne]
    apply replaceAll_of_not_mem
    intro y hy
    obtain ⟨x, hx, rfl⟩ := List.mem_map.mp hy
    exact hne _ (mem_of_mem_zipIdx hx)

/-- The uses in the rewritten pipeline. -/
theorem rewritten_stages (hvalid : pipeline.Valid p next) (hcs : ∀ c ∈ cs, Accepted p c)
    (hslots : (cs.map (·.shape.slot)).Nodup) (ivs : List ValueId) :
    (rewritePipeline next ivs cs pipeline).pipeline.stages =
      (pipeline.mapOperands (rename next cs)).stages ∧
    (rewritePipeline next ivs cs pipeline).pipeline.privateOp =
      (pipeline.mapOperands (rename next cs)).privateOp.map
        (prunePrivateSlots · (cs.map (·.shape.slot))) := by
  have hreplaced : (cs.zip (rewritePipeline next ivs cs pipeline).selects).foldl
      (fun p x => replaceUsesInRegion x.1.shape.yielded x.2.result p) pipeline =
        pipeline.mapOperands (rename next cs) := by
    have hfun : replaceAll (replacements next cs) = rename next cs :=
      funext fun v => replaceAll_replacements hvalid hcs hslots
    rw [← hfun, ← foldl_replaceUsesInRegion, ← zip_selects next ivs cs pipeline, List.foldl_map]
  rw [← hreplaced]
  exact ⟨rfl, rfl⟩

/-! ## The start of an iteration -/

variable {outside : Surroundings} {k : Nat}

/-- The memory of a candidate's buffer. -/
def IsBuffer (cs : List Candidate) (storage : Storage) : Prop :=
  ∃ c ∈ cs, ∃ k, storage = .allocated c.buffer k

/-- Memory that a run of the pipeline refers to in iteration `k`. -/
def Current (k : Nat) : Storage → Prop
  | .allocated _ j => j = k
  | .hoisted _ => False
  | _ => True

/-- Two environments have the same memrefs, none of them a candidate's buffer, but for some values. -/
structure Agree (next : ValueId) (cs : List Candidate) (k : Nat) (except : ValueId → Prop)
    (env env' : Env) : Prop where
  eq : ∀ v < next, ¬except v → env' v = env v
  other : ∀ v, ¬except v → ∀ place, env v = some place →
    ¬IsBuffer cs place.storage ∧ Current k place.storage

theorem Agree.bind {except : ValueId → Prop} {env env' : Env} (h : Agree next cs k except env env')
    {v : ValueId} {place : Option Place}
    (hplace : ¬except v → ∀ q, place = some q → ¬IsBuffer cs q.storage ∧ Current k q.storage) :
    Agree next cs k except (env.bind v place) (env'.bind v place) := by
  constructor
  · intro w hw hexcept
    unfold Env.bind
    split
    · rfl
    · exact h.eq w hw hexcept
  · intro w hexcept q hq
    unfold Env.bind at hq
    split at hq
    next hwv =>
      subst hwv
      exact hplace hexcept q hq
    next => exact h.other w hexcept q hq

/-- One operation of the private region that is kept. -/
theorem Agree.execPrivateOp {env env' : Env}
    (h : Agree next cs k (fun v => ∃ c ∈ cs, c.buffer = v) env env') {op : OpInfo}
    (hoperands : ∀ v ∈ op.operands, v < next ∧ ∀ c ∈ cs, c.buffer ≠ v) :
    Agree next cs k (fun v => ∃ c ∈ cs, c.buffer = v)
      (DoubleBuffering.execPrivateOp outside k env op)
      (DoubleBuffering.execPrivateOp outside k env' op) := by
  unfold DoubleBuffering.execPrivateOp
  cases op with
  | mk id kind others results =>
    cases kind with
    | alloc =>
      match results with
      | [v] =>
        apply h.bind
        rintro hexcept _ ⟨⟩
        refine ⟨?_, rfl⟩
        rintro ⟨c, hc, j, hcv⟩
        exact hexcept ⟨c, hc, (Storage.allocated.inj hcv).1.symm⟩
      | [] | _ :: _ :: _ => exact h
    | view source =>
      obtain ⟨hlt, hne⟩ := hoperands source (List.mem_append_left _ List.mem_cons_self)
      have hsource : ¬∃ c ∈ cs, c.buffer = source := fun ⟨c, hc, hcv⟩ => hne c hc hcv
      match results with
      | [v] =>
        simp only
        rw [h.eq source hlt hsource]
        apply h.bind
        intro _ q hq
        obtain ⟨q', hq', rfl⟩ := Option.map_eq_some_iff.mp hq
        exact h.other source hsource q' hq'
      | [] | _ :: _ :: _ => exact h
    | _ => exact h

/-- The operations that are not dropped with the slots of the candidates. -/
theorem Agree.execBody {dropped : List ValueId} (hdropped : ∀ v ∈ dropped, ∃ c ∈ cs, c.buffer = v)
    {body : List OpInfo} (hoperands : ∀ op ∈ body, ∀ v ∈ op.operands, v < next ∧ ∀ c ∈ cs, c.buffer ≠ v)
    {env env' : Env} (h : Agree next cs k (fun v => ∃ c ∈ cs, c.buffer = v) env env') :
    Agree next cs k (fun v => ∃ c ∈ cs, c.buffer = v)
      (body.foldl (DoubleBuffering.execPrivateOp outside k) env)
      ((body.filter fun op => !(op.kind = .alloc ∧ op.results.any fun v => dropped.contains v)).foldl
        (DoubleBuffering.execPrivateOp outside k) env') := by
  induction body generalizing env env' with
  | nil => exact h
  | cons op body ih =>
    have hrest := fun op' hop' => hoperands op' (List.mem_cons_of_mem op hop')
    by_cases hdrop : op.kind = .alloc ∧ op.results.any fun v => dropped.contains v
    · rw [List.filter_cons_of_neg (by simpa using hdrop), List.foldl_cons]
      apply ih hrest
      -- the dropped allocation binds a buffer of a candidate only
      unfold DoubleBuffering.execPrivateOp
      rw [hdrop.1]
      match hresults : op.results with
      | [v] =>
        rw [hresults] at hdrop
        have hv : ∃ c ∈ cs, c.buffer = v := hdropped v (by simpa using hdrop.2)
        constructor
        · intro w hw hexcept
          have hne : w ≠ v := fun hwv => hexcept (hwv ▸ hv)
          simp only [Env.bind, if_neg hne]
          exact h.eq w hw hexcept
        · intro w hexcept q hq
          have hne : w ≠ v := fun hwv => hexcept (hwv ▸ hv)
          simp only [Env.bind, if_neg hne] at hq
          exact h.other w hexcept q hq
      | [] | _ :: _ :: _ => exact h
    · rw [List.filter_cons_of_pos (by rw [Bool.not_eq_true', decide_eq_false_iff_not]; exact hdrop),
        List.foldl_cons, List.foldl_cons]
      exact ih hrest (h.execPrivateOp (hoperands op List.mem_cons_self))

/-- The slot of a result that is kept. -/
theorem find?_prune (hvalid : pipeline.Valid p next) (hcs : ∀ c ∈ cs, Accepted p c) {v : ValueId}
    (hv : ∀ c ∈ cs, c.shape.yielded ≠ v) :
    (prunePrivateSlots p (cs.map (·.shape.slot))).slots.find? (fun s => s.result = v) =
      p.slots.find? fun s => s.result = v := by
  have hmem : ∀ s, s ∈ (prunePrivateSlots p (cs.map (·.shape.slot))).slots → s ∈ p.slots := by
    intro s hs
    obtain ⟨x, hx, rfl⟩ := List.mem_map.mp hs
    rw [← List.zipIdx_map_fst 0 p.slots]
    exact List.mem_map_of_mem (List.mem_filter.mp hx).1
  cases hfind : p.slots.find? fun s => s.result = v with
  | none =>
    rw [List.find?_eq_none] at hfind ⊢
    exact fun s hs => hfind s (hmem s hs)
  | some s =>
    have hs := List.mem_of_find?_eq_some hfind
    have hsv : s.result = v := by simpa using List.find?_some hfind
    obtain ⟨j, hj⟩ := List.mem_iff_getElem?.mp hs
    have hkept : s ∈ (prunePrivateSlots p (cs.map (·.shape.slot))).slots := by
      apply List.mem_map.mpr
      refine ⟨(s, j), List.mem_filter.mpr ⟨List.mk_mem_zipIdx_iff_getElem?.mpr hj, ?_⟩, rfl⟩
      rw [decide_eq_true_eq]
      intro hdrop
      obtain ⟨c, hc, hslot⟩ := List.mem_map.mp hdrop
      obtain ⟨t, ht, hresult, -⟩ := (hcs c hc).slot
      rw [show c.shape.slot = j from hslot, hj] at ht
      rw [← Option.some.inj ht, hsv] at hresult
      exact hv c hc hresult.symm
    cases hfound : (prunePrivateSlots p (cs.map (·.shape.slot))).slots.find?
        fun s => s.result = v with
    | none => simpa [hsv] using List.find?_eq_none.mp hfound s hkept
    | some t =>
      have htv : t.result = v := by simpa using List.find?_some hfound
      have ht := hmem t (List.mem_of_find?_eq_some hfound)
      rw [List.inj_on_of_nodup_map hvalid.slots ht hs (htv.trans hsv.symm)]

/-- The buffers that are dropped are those of the candidates. -/
theorem mem_dropped (hcs : ∀ c ∈ cs, Accepted p c) {v : ValueId} :
    v ∈ ((cs.map (·.shape.slot)).filterMap (p.slots[·]?)).map Slot.yieldOperand ↔
      ∃ c ∈ cs, c.buffer = v := by
  constructor
  · intro hv
    obtain ⟨s, hs, rfl⟩ := List.mem_map.mp hv
    obtain ⟨slot, hslot, hs⟩ := List.mem_filterMap.mp hs
    obtain ⟨c, hc, rfl⟩ := List.mem_map.mp hslot
    obtain ⟨t, ht, -, hyield⟩ := (hcs c hc).slot
    rw [show s = t from Option.some.inj (hs.symm.trans ht)]
    exact ⟨c, hc, hyield.symm⟩
  · rintro ⟨c, hc, rfl⟩
    obtain ⟨s, hs, -, hyield⟩ := (hcs c hc).slot
    exact List.mem_map.mpr ⟨s, List.mem_filterMap.mpr ⟨_, List.mem_map_of_mem hc, hs⟩, hyield⟩

/-- The private region of the rewritten pipeline. -/
theorem rewritten_privateOp (hvalid : pipeline.Valid p next) (hcs : ∀ c ∈ cs, Accepted p c)
    (hslots : (cs.map (·.shape.slot)).Nodup) (ivs : List ValueId) :
    (rewritePipeline next ivs cs pipeline).pipeline.privateOp =
      some (prunePrivateSlots p (cs.map (·.shape.slot))) := by
  have hfixed : ∀ v, v ∉ p.slots.map Slot.result → rename next cs v = v := by
    intro v hv
    apply rename_of_not_yielded
    intro c hc hcv
    obtain ⟨s, hs, hresult, -⟩ := (hcs c hc).slot
    exact hv (hcv ▸ hresult ▸ List.mem_map_of_mem (List.mem_of_getElem? hs))
  have hbody : p.body.map (OpInfo.mapOperands · (rename next cs)) = p.body := by
    conv_rhs => rw [← List.map_id p.body]
    apply List.map_congr_left
    intro op hop
    apply OpInfo.mapOperands_of_fixed
    intro v hv
    apply hfixed
    intro hslot
    exact (hvalid.slots_new v hslot).1 (List.mem_flatMap_of_mem hop hv)
  have hyields : p.slots.map (fun s => { s with yieldOperand := rename next cs s.yieldOperand }) =
      p.slots := by
    conv_rhs => rw [← List.map_id p.slots]
    apply List.map_congr_left
    intro s hs
    have hyield : rename next cs s.yieldOperand = s.yieldOperand :=
      hfixed _ fun hslot => (hvalid.slots_new _ hslot).2 (List.mem_map_of_mem hs)
    rw [hyield]
    rfl
  rw [(rewritten_stages hvalid hcs hslots ivs).2]
  unfold PipelineOp.mapOperands
  rw [hvalid.privateOp, Option.map_some, Option.map_some, hbody, hyields]

/-- What comes from outside is neither a buffer nor selected. -/
theorem agree_outside {except : ValueId → Prop} {env' : Env}
    (henv : ∀ v < next, env' v = outside.env k v) :
    Agree next cs k except (outside.env k) env' := by
  constructor
  · exact fun v hv _ => henv v hv
  · intro v _ q hq
    obtain ⟨x, -, rfl⟩ := Option.map_eq_some_iff.mp hq
    refine ⟨?_, trivial⟩
    rintro ⟨c, -, j, hcv⟩
    cases hcv

/-- **The start of an iteration.** The memrefs are the same but for the results that are dropped. -/
theorem enter_agree (hvalid : pipeline.Valid p next) (hcs : ∀ c ∈ cs, Accepted p c)
    (hslots : (cs.map (·.shape.slot)).Nodup) (ivs : List ValueId) {env' : Env}
    (henv : ∀ v < next, env' v = outside.env k v) :
    Agree next cs k (fun v => ∃ c ∈ cs, c.shape.yielded = v)
      (pipeline.enter outside k (outside.env k))
      ((rewritePipeline next ivs cs pipeline).pipeline.enter outside k env') := by
  have hagree : ∀ except, Agree next cs k except (outside.env k) env' :=
    fun except => agree_outside henv
  have hoperands : ∀ op ∈ p.body, ∀ v ∈ op.operands, v < next ∧ ∀ c ∈ cs, c.buffer ≠ v := by
    intro op hop v hv
    have hmem : v ∈ p.body.flatMap OpInfo.operands := List.mem_flatMap_of_mem hop hv
    refine ⟨hvalid.body_lt v ?_, ?_⟩
    · exact List.mem_append_left _ (List.mem_append_right _ hmem)
    · rintro c hc rfl
      exact (hcs c hc).usesInOps hmem
  have hbody : Agree next cs k (fun v => ∃ c ∈ cs, c.buffer = v)
      (p.body.foldl (execPrivateOp outside k) (outside.env k))
      ((prunePrivateSlots p (cs.map (·.shape.slot))).body.foldl (execPrivateOp outside k) env') :=
    (hagree _).execBody (fun v hv => (mem_dropped hcs).mp hv) hoperands
  unfold PipelineOp.enter
  rw [hvalid.privateOp, rewritten_privateOp hvalid hcs hslots ivs]
  simp only [Option.elim_some]
  unfold execPrivate
  -- a kept slot yields no buffer of a candidate
  have hkept : ∀ s ∈ p.slots, (¬∃ c ∈ cs, c.shape.yielded = s.result) →
      ¬∃ c ∈ cs, c.buffer = s.yieldOperand := by
    rintro s hs hresult ⟨c, hc, hbuffer⟩
    obtain ⟨t, ht, htresult, htyield⟩ := (hcs c hc).slot
    obtain ⟨j, hj⟩ := List.mem_iff_getElem?.mp hs
    have hslot := slot_eq_of_yieldOperand (hcs c hc).usesInYield ht hj htyield hbuffer.symm
    rw [hslot, hj] at ht
    exact hresult ⟨c, hc, by rw [← htresult, Option.some.inj ht]⟩
  constructor
  · intro v hv hexcept
    rw [find?_prune hvalid hcs fun c hc hcv => hexcept ⟨c, hc, hcv⟩]
    cases hfind : p.slots.find? fun s => s.result = v with
    | none => exact henv v hv
    | some s =>
      have hs := List.mem_of_find?_eq_some hfind
      have hsv : s.result = v := by simpa using List.find?_some hfind
      apply hbody.eq
      · exact hvalid.body_lt _ (List.mem_append_right _ (List.mem_map_of_mem hs))
      · exact hkept s hs (by rw [hsv]; exact hexcept)
  · intro v hexcept q hq
    cases hfind : p.slots.find? fun s => s.result = v with
    | none =>
      rw [hfind] at hq
      exact (hagree fun v => ∃ c ∈ cs, c.shape.yielded = v).other v hexcept q hq
    | some s =>
      rw [hfind] at hq
      have hs := List.mem_of_find?_eq_some hfind
      have hsv : s.result = v := by simpa using List.find?_some hfind
      exact hbody.other s.yieldOperand (hkept s hs (by rw [hsv]; exact hexcept)) q hq

theorem execPrivateOp_of_not_mem {env : Env} {op : OpInfo} {v : ValueId} (hv : v ∉ op.results) :
    execPrivateOp outside k env op v = env v := by
  unfold execPrivateOp
  cases op with
  | mk id kind others results =>
    have hne : ∀ w, results = [w] → v ≠ w := by
      rintro w rfl rfl
      exact hv List.mem_cons_self
    cases kind with
    | alloc =>
      match results with
      | [w] => exact if_neg (hne w rfl)
      | [] | _ :: _ :: _ => rfl
    | view source =>
      match results with
      | [w] => exact if_neg (hne w rfl)
      | [] | _ :: _ :: _ => rfl
    | _ => rfl

theorem foldl_execPrivateOp_of_not_mem {body : List OpInfo} {env : Env} {v : ValueId}
    (hv : v ∉ body.flatMap OpInfo.results) :
    body.foldl (execPrivateOp outside k) env v = env v := by
  induction body generalizing env with
  | nil => rfl
  | cons op body ih =>
    rw [List.flatMap_cons, List.mem_append, not_or] at hv
    rw [List.foldl_cons, ih hv.2, execPrivateOp_of_not_mem hv.1]

/-- An allocation of the private region. -/
theorem foldl_execPrivateOp_alloc {body : List OpInfo} (hnodup : (body.flatMap OpInfo.results).Nodup)
    {op : OpInfo} (hop : op ∈ body) (halloc : op.kind = .alloc) {v : ValueId}
    (hresults : op.results = [v]) {env : Env} :
    body.foldl (execPrivateOp outside k) env v = some ⟨.allocated v k, id⟩ := by
  induction body generalizing env with
  | nil => cases hop
  | cons op' body ih =>
    rw [List.flatMap_cons, List.nodup_append] at hnodup
    obtain ⟨-, hrest, hdisjoint⟩ := hnodup
    rw [List.foldl_cons]
    rcases List.mem_cons.mp hop with rfl | hop
    · have hv : v ∉ body.flatMap OpInfo.results := by
        intro hv
        exact hdisjoint v (by rw [hresults]; exact List.mem_singleton_self v) v hv rfl
      rw [foldl_execPrivateOp_of_not_mem hv]
      unfold execPrivateOp
      rw [halloc, hresults]
      exact if_pos rfl
    · exact ih hrest hop

/-- At the start of an iteration a candidate's buffer is the one of the iteration. -/
theorem enter_yielded (hvalid : pipeline.Valid p next) {c : Candidate} (hc : Accepted p c)
    (env : Env) :
    pipeline.enter outside k env c.shape.yielded = some ⟨.allocated c.buffer k, id⟩ := by
  obtain ⟨s, hs, hresult, hyield⟩ := hc.slot
  have hfind : p.slots.find? (fun t => t.result = c.shape.yielded) = some s := by
    cases hfind : p.slots.find? fun t => t.result = c.shape.yielded with
    | none => simpa [hresult] using List.find?_eq_none.mp hfind s (List.mem_of_getElem? hs)
    | some t =>
      have ht : t.result = c.shape.yielded := by simpa using List.find?_some hfind
      rw [List.inj_on_of_nodup_map hvalid.slots (List.mem_of_find?_eq_some hfind)
        (List.mem_of_getElem? hs) (ht.trans hresult.symm)]
  unfold PipelineOp.enter
  rw [hvalid.privateOp, Option.elim_some]
  unfold execPrivate
  rw [hfind, Option.elim_some, hyield]
  exact foldl_execPrivateOp_alloc hvalid.body hc.alloc hc.isAlloc hc.results

theorem foldl_bind_of_not_mem {α : Type} {key : α → ValueId} {value : α → Option Place} {l : List α}
    {v : ValueId} (hv : v ∉ l.map key) (env : Env) :
    l.foldl (fun env a => Env.bind env (key a) (value a)) env v = env v := by
  induction l generalizing env with
  | nil => rfl
  | cons a l ih =>
    rw [List.map_cons, List.mem_cons, not_or] at hv
    rw [List.foldl_cons, ih hv.2]
    exact if_neg hv.1

theorem foldl_bind_of_mem {α : Type} {key : α → ValueId} {value : α → Option Place} {l : List α}
    (hnodup : (l.map key).Nodup) {a : α} (ha : a ∈ l) (env : Env) :
    l.foldl (fun env a => Env.bind env (key a) (value a)) env (key a) = value a := by
  induction l generalizing env with
  | nil => cases ha
  | cons b l ih =>
    rw [List.map_cons, List.nodup_cons] at hnodup
    rw [List.foldl_cons]
    rcases List.mem_cons.mp ha with rfl | ha
    · rw [foldl_bind_of_not_mem hnodup.1]
      exact if_pos rfl
    · exact ih hnodup.2 ha _

theorem selected_inj {i j : Nat} (h : selected next cs i = selected next cs j) : i = j :=
  Nat.add_left_cancel h

/-- The values selected in front of the pipeline. -/
theorem select_selected (ivs : List ValueId) {i : Nat} (hi : i < cs.length) (env : Env) :
    (rewritePipeline next ivs cs pipeline).select k env (selected next cs i) =
      some ⟨.hoisted (homeOf next i k), id⟩ := by
  unfold Rewritten.select
  rw [selects_eq]
  have hnodup : (((List.range cs.length).map fun i => (⟨selected next cs i, next + 2 * cs.length,
      hoistAllocPair (next + 2 * i)⟩ : SelectMemrefOp)).map SelectMemrefOp.result).Nodup := by
    rw [List.map_map]
    exact List.nodup_range.map fun i j hij => selected_inj hij
  have hmem := List.mem_map_of_mem (f := fun i => (⟨selected next cs i, next + 2 * cs.length,
    hoistAllocPair (next + 2 * i)⟩ : SelectMemrefOp)) (List.mem_range.mpr hi)
  have hhome : (hoistAllocPair (next + 2 * i))[k % kDefaultNumPhases]? = some (homeOf next i k) := by
    unfold hoistAllocPair homeOf
    rw [List.getElem?_map, List.getElem?_range (Nat.mod_lt k (by decide))]
    rfl
  rw [foldl_bind_of_mem hnodup hmem]
  show ((hoistAllocPair (next + 2 * i))[k % kDefaultNumPhases]?).map _ = _
  rw [hhome]
  rfl

theorem select_of_lt (ivs : List ValueId) {v : ValueId} (hv : v < next) (env : Env) :
    (rewritePipeline next ivs cs pipeline).select k env v = env v := by
  unfold Rewritten.select
  rw [selects_eq]
  apply foldl_bind_of_not_mem
  intro hmem
  rw [List.map_map] at hmem
  obtain ⟨i, -, rfl⟩ := List.mem_map.mp hmem
  exact Nat.not_le.mpr hv next_le_selected

/-- They are not touched by the private region. -/
theorem enter_selected (hvalid : pipeline.Valid p next) (hcs : ∀ c ∈ cs, Accepted p c)
    (hslots : (cs.map (·.shape.slot)).Nodup) (ivs : List ValueId) {i : Nat} (hi : i < cs.length)
    (env : Env) :
    (rewritePipeline next ivs cs pipeline).pipeline.enter outside k
      ((rewritePipeline next ivs cs pipeline).select k env) (selected next cs i) =
        some ⟨.hoisted (homeOf next i k), id⟩ := by
  have hfind : (prunePrivateSlots p (cs.map (·.shape.slot))).slots.find?
      (fun s => s.result = selected next cs i) = none := by
    rw [List.find?_eq_none]
    intro s hs
    obtain ⟨x, hx, rfl⟩ := List.mem_map.mp hs
    have hmem : x.1 ∈ p.slots := by
      rw [← List.zipIdx_map_fst 0 p.slots]
      exact List.mem_map_of_mem (List.mem_filter.mp hx).1
    have hlt := hvalid.slots_lt _ (List.mem_map_of_mem hmem)
    rw [decide_eq_true_eq]
    intro heq
    rw [heq] at hlt
    exact Nat.not_le.mpr hlt next_le_selected
  unfold PipelineOp.enter
  rw [rewritten_privateOp hvalid hcs hslots ivs, Option.elim_some]
  unfold execPrivate
  rw [hfind, Option.elim_none]
  exact select_selected ivs hi env

end DoubleBuffering
