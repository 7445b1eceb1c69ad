import DataflowScheduler.Transforms.DoubleBuffering.Rewritten

/-!
# The values read after double buffering

The two runs are related step by step: memory other than the buffers is the same, and of a buffer the
elements written in the iteration are. When the producer writes what is read of a buffer before it is
read in the same iteration, the same values are read.
-/

namespace DoubleBuffering

open DataflowScheduler (MemoryTree)

variable {R W : Type} {pipeline : PipelineOp R} {p : PrivateOp R} {next : ValueId}
  {cs : List Candidate} {outside : Surroundings} {k : Nat}

/-! ## The two runs -/

/-- Where the memory of a run of the pipeline is in iteration `k` after the rewrite. -/
def moveStorage (next : ValueId) (cs : List Candidate) (k : Nat) : Storage → Storage
  | .allocated v j => (cs.zipIdx.find? fun x => x.1.buffer = v).elim (.allocated v j) fun x =>
      .hoisted (homeOf next x.2 k)
  | storage => storage

def Place.move (next : ValueId) (cs : List Candidate) (k : Nat) (place : Place) : Place :=
  ⟨moveStorage next cs k place.storage, place.index⟩

theorem moveStorage_buffer (hcs : ∀ c ∈ cs, Accepted p c) (hslots : (cs.map (·.shape.slot)).Nodup)
    {x : Candidate × Nat} (hx : x ∈ cs.zipIdx) (j : Nat) :
    moveStorage next cs k (.allocated x.1.buffer j) = .hoisted (homeOf next x.2 k) := by
  show (cs.zipIdx.find? fun y => y.1.buffer = x.1.buffer).elim _ _ = _
  cases hfind : cs.zipIdx.find? fun y => y.1.buffer = x.1.buffer with
  | none => simpa using List.find?_eq_none.mp hfind x hx
  | some y =>
    have hy : y.1.buffer = x.1.buffer := by simpa using List.find?_some hfind
    rw [buffer_unique hcs hslots (List.mem_of_find?_eq_some hfind) hx hy]
    rfl

theorem moveStorage_other {storage : Storage} (h : ¬IsBuffer cs storage) :
    moveStorage next cs k storage = storage := by
  unfold moveStorage
  split
  next v j =>
    have hfind : cs.zipIdx.find? (fun x => x.1.buffer = v) = none := by
      rw [List.find?_eq_none]
      intro x hx hxv
      rw [decide_eq_true_eq] at hxv
      exact h ⟨x.1, mem_of_mem_zipIdx hx, j, by rw [hxv]⟩
    rw [hfind]
    rfl
  next => rfl

theorem exists_of_isBuffer {storage : Storage} (h : IsBuffer cs storage) :
    ∃ x ∈ cs.zipIdx, ∃ j, storage = .allocated x.1.buffer j := by
  obtain ⟨c, hc, j, rfl⟩ := h
  rw [← List.zipIdx_map_fst 0 cs] at hc
  obtain ⟨x, hx, rfl⟩ := List.mem_map.mp hc
  exact ⟨x, hx, j, rfl⟩

/-- Different memory stays different. -/
theorem moveStorage_inj (hcs : ∀ c ∈ cs, Accepted p c) (hslots : (cs.map (·.shape.slot)).Nodup)
    {a b : Storage} (ha : Current k a) (hb : Current k b)
    (h : moveStorage next cs k a = moveStorage next cs k b) : a = b := by
  by_cases hma : IsBuffer cs a
  · obtain ⟨x, hx, i, rfl⟩ := exists_of_isBuffer hma
    rw [moveStorage_buffer hcs hslots hx] at h
    by_cases hmb : IsBuffer cs b
    · obtain ⟨y, hy, j, rfl⟩ := exists_of_isBuffer hmb
      rw [moveStorage_buffer hcs hslots hy, Storage.hoisted.injEq] at h
      have hindex : x.2 = y.2 := by
        unfold homeOf at h
        have hmul := Nat.add_left_cancel (Nat.add_right_cancel h)
        omega
      have hxy : x = y := by
        have hx' := List.mk_mem_zipIdx_iff_getElem?.mp hx
        have hy' := List.mk_mem_zipIdx_iff_getElem?.mp hy
        rw [hindex, hy'] at hx'
        exact Prod.ext (Option.some.inj hx').symm hindex
      rw [show i = k from ha, show j = k from hb, hxy]
    · rw [moveStorage_other hmb] at h
      rw [← h] at hb
      exact hb.elim
  · rw [moveStorage_other hma] at h
    by_cases hmb : IsBuffer cs b
    · obtain ⟨y, hy, j, rfl⟩ := exists_of_isBuffer hmb
      rw [moveStorage_buffer hcs hslots hy] at h
      rw [h] at ha
      exact ha.elim
    · rwa [moveStorage_other hmb] at h

/-- Memory that is in the same place in both runs. -/
def Unmoved (cs : List Candidate) (storage : Storage) : Prop :=
  ¬IsBuffer cs storage ∧ ∀ v, storage ≠ .hoisted v

theorem unmoved_of_current {storage : Storage} (hcurrent : Current k storage)
    (hbuffer : ¬IsBuffer cs storage) : Unmoved cs storage := by
  refine ⟨hbuffer, ?_⟩
  rintro v rfl
  exact hcurrent

/-- The states of the two runs. Of a candidate's buffer, the elements written in the iteration are the
same. -/
structure Related (next : ValueId) (cs : List Candidate) (s s' : State W) : Prop where
  iteration : s'.iteration = s.iteration
  reads : s'.reads = s.reads
  env : ∀ v < next, s'.env (rename next cs v) = (s.env v).map (Place.move next cs s.iteration)
  current : ∀ v q, s.env v = some q → Current s.iteration q.storage
  memory : ∀ storage, Unmoved cs storage → s'.memory storage = s.memory storage
  written : ∀ w ∈ s.writes, Current s.iteration w.storage ∧
    s'.memory (moveStorage next cs s.iteration w.storage) w.index = s.memory w.storage w.index

/-- The start of an iteration in both runs. -/
theorem related_enter (hvalid : pipeline.Valid p next) (hcs : ∀ c ∈ cs, Accepted p c)
    (hslots : (cs.map (·.shape.slot)).Nodup) (ivs : List ValueId) {memory memory' : Storage → Index → W}
    (reads : List (Option W)) (hmemory : ∀ storage, Unmoved cs storage → memory' storage = memory storage) :
    Related next cs ⟨k, pipeline.enter outside k (outside.env k), memory, reads, []⟩
      ⟨k, (rewritePipeline next ivs cs pipeline).pipeline.enter outside k
        ((rewritePipeline next ivs cs pipeline).select k (outside.env k)), memory', reads, []⟩ := by
  have hagree : Agree next cs k (fun v => ∃ c ∈ cs, c.shape.yielded = v)
      (pipeline.enter outside k (outside.env k))
      ((rewritePipeline next ivs cs pipeline).pipeline.enter outside k
        ((rewritePipeline next ivs cs pipeline).select k (outside.env k))) :=
    enter_agree hvalid hcs hslots ivs fun v hv => select_of_lt ivs hv _
  constructor
  · rfl
  · rfl
  · intro v hv
    simp only
    by_cases hyielded : ∃ c ∈ cs, c.shape.yielded = v
    · obtain ⟨c, hc, rfl⟩ := hyielded
      rw [← List.zipIdx_map_fst 0 cs] at hc
      obtain ⟨x, hx, rfl⟩ := List.mem_map.mp hc
      have hlt : x.2 < cs.length := by
        have hget := List.mk_mem_zipIdx_iff_getElem?.mp hx
        exact (List.getElem?_eq_some_iff.mp hget).1
      rw [rename_yielded hvalid hcs hslots hx, enter_selected hvalid hcs hslots ivs hlt,
        enter_yielded hvalid (hcs _ (mem_of_mem_zipIdx hx)), Option.map_some]
      unfold Place.move
      rw [moveStorage_buffer hcs hslots hx]
    · rw [rename_of_not_yielded fun c hc hcv => hyielded ⟨c, hc, hcv⟩, hagree.eq v hv hyielded]
      cases hplace : pipeline.enter outside k (outside.env k) v with
      | none => rfl
      | some q =>
        rw [Option.map_some]
        unfold Place.move
        rw [moveStorage_other (hagree.other v hyielded q hplace).1]
  · intro v q hq
    simp only at hq
    by_cases hyielded : ∃ c ∈ cs, c.shape.yielded = v
    · obtain ⟨c, hc, rfl⟩ := hyielded
      rw [enter_yielded hvalid (hcs c hc)] at hq
      obtain rfl := Option.some.inj hq
      rfl
    · exact (hagree.other v hyielded q hq).2
  · exact hmemory
  · exact fun w hw => nomatch hw

/-- What an operand refers to in the rewritten pipeline. -/
theorem placeOf_rewritten (hvalid : pipeline.Valid p next) (hcs : ∀ c ∈ cs, Accepted p c)
    (hslots : (cs.map (·.shape.slot)).Nodup) (ivs : List ValueId) {s s' : State W}
    (h : Related next cs s s') (op : OpId) (operand : Nat) :
    (rewritePipeline next ivs cs pipeline).pipeline.placeOf s'.env op operand =
      (pipeline.placeOf s.env op operand).map (Place.move next cs s.iteration) := by
  have hoperand : (rewritePipeline next ivs cs pipeline).pipeline.operandOf op operand =
      (pipeline.operandOf op operand).map (rename next cs) := by
    rw [← operandOf_mapOperands]
    unfold PipelineOp.operandOf PipelineOp.findOp
    rw [(rewritten_stages hvalid hcs hslots ivs).1]
  unfold PipelineOp.placeOf
  rw [hoperand]
  cases hv : pipeline.operandOf op operand with
  | none => rfl
  | some v =>
    have hlt : v < next := by
      obtain ⟨i, hi, hget⟩ := Option.bind_eq_some_iff.mp hv
      exact hvalid.operands_lt i (List.mem_of_find?_eq_some hi) v (List.mem_of_getElem? hget)
    exact h.env v hlt

theorem resultOf_rewritten (hvalid : pipeline.Valid p next) (hcs : ∀ c ∈ cs, Accepted p c)
    (hslots : (cs.map (·.shape.slot)).Nodup) (ivs : List ValueId) (op : OpId) (result : Nat) :
    (rewritePipeline next ivs cs pipeline).pipeline.resultOf op result =
      pipeline.resultOf op result := by
  rw [← resultOf_mapOperands pipeline (rename next cs)]
  unfold PipelineOp.resultOf PipelineOp.findOp
  rw [(rewritten_stages hvalid hcs hslots ivs).1]

/-- A stage binds a result. -/
theorem Related.bind (hvalid : pipeline.Valid p next) (hcs : ∀ c ∈ cs, Accepted p c) {s s' : State W}
    (h : Related next cs s s') {op : OpId} {result : Nat} {v : ValueId}
    (hv : pipeline.resultOf op result = some v) (place : Option Place)
    (hcurrent : ∀ q, place = some q → Current s.iteration q.storage) :
    Related next cs { s with env := s.env.bind v place }
      { s' with env := s'.env.bind v (place.map (Place.move next cs s.iteration)) } := by
  obtain ⟨i, hi, hget⟩ := Option.bind_eq_some_iff.mp hv
  have hlt := hvalid.results_lt i (List.mem_of_find?_eq_some hi) v (List.mem_of_getElem? hget)
  have hnew := hvalid.results_new i (List.mem_of_find?_eq_some hi) v (List.mem_of_getElem? hget)
  have hyielded : ∀ c ∈ cs, c.shape.yielded ≠ v := by
    rintro c hc rfl
    obtain ⟨s, hs, hresult, -⟩ := (hcs c hc).slot
    exact hnew (hresult ▸ List.mem_map_of_mem (List.mem_of_getElem? hs))
  refine ⟨h.iteration, h.reads, ?_, ?_, h.memory, h.written⟩
  · intro w hw
    show (if rename next cs w = v then place.map _ else s'.env (rename next cs w)) =
      (if w = v then place else s.env w).map _
    by_cases hwv : w = v
    · rw [hwv, rename_of_not_yielded hyielded, if_pos rfl, if_pos rfl]
    · have hne : rename next cs w ≠ v := by
        unfold rename
        cases cs.zipIdx.find? fun x => x.1.shape.yielded = w with
        | none => exact hwv
        | some x =>
          intro heq
          rw [← heq] at hlt
          exact Nat.not_le.mpr hlt next_le_selected
      rw [if_neg hwv, if_neg hne]
      exact h.env w hw
  · intro w q hq
    simp only [Env.bind] at hq
    split at hq
    next => exact hcurrent q hq
    next => exact h.current w q hq

/-- **A step of both runs.** What is read of a buffer has been written in the iteration. -/
theorem Related.step (hvalid : pipeline.Valid p next) (hcs : ∀ c ∈ cs, Accepted p c)
    (hslots : (cs.map (·.shape.slot)).Nodup) (ivs : List ValueId) {s s' : State W}
    (h : Related next cs s s') (n : Nat) (action : Action W)
    (hread : ∀ op operand i, action = .read op operand i → ∀ q,
      pipeline.placeOf s.env op operand = some q → IsBuffer cs q.storage →
        ∃ w ∈ s.writes, w.storage = q.storage ∧ w.index = q.index i) :
    Related next cs
      (DoubleBuffering.step pipeline (fun k => pipeline.enter outside k (outside.env k)) n s action)
      (DoubleBuffering.step (rewritePipeline next ivs cs pipeline).pipeline
        (fun k => (rewritePipeline next ivs cs pipeline).pipeline.enter outside k
          ((rewritePipeline next ivs cs pipeline).select k (outside.env k))) n s' action) := by
  have hplace := fun op operand => placeOf_rewritten hvalid hcs hslots ivs h op operand
  have hcurrent : ∀ op operand q, pipeline.placeOf s.env op operand = some q →
      Current s.iteration q.storage := by
    intro op operand q hq
    obtain ⟨v, -, hv⟩ := Option.bind_eq_some_iff.mp hq
    exact h.current v q hv
  cases action with
  | next =>
    show Related next cs ⟨s.iteration + 1, _, s.memory, s.reads, []⟩
      ⟨s'.iteration + 1, _, s'.memory, s'.reads, []⟩
    rw [h.iteration, h.reads]
    exact related_enter hvalid hcs hslots ivs s.reads h.memory
  | view op result source operand index =>
    unfold DoubleBuffering.step
    simp only
    rw [resultOf_rewritten hvalid hcs hslots ivs, hplace]
    cases hv : pipeline.resultOf op result with
    | none => exact h
    | some v =>
      have hbind := h.bind hvalid hcs hv
        ((pipeline.placeOf s.env source operand).map fun q => ⟨q.storage, q.index ∘ index⟩)
        (by
          intro q hq
          obtain ⟨q', hq', rfl⟩ := Option.map_eq_some_iff.mp hq
          exact hcurrent source operand q' hq')
      rw [Option.map_map] at hbind
      simp only [Option.elim_some, Option.map_map]
      exact hbind
  | alloc op result =>
    unfold DoubleBuffering.step
    simp only
    rw [resultOf_rewritten hvalid hcs hslots ivs]
    cases hv : pipeline.resultOf op result with
    | none => exact h
    | some v =>
      apply h.bind hvalid hcs hv (some ⟨.inStage n, id⟩)
      rintro _ ⟨⟩
      trivial
  | read op operand i =>
    unfold DoubleBuffering.step
    have hvalue : ((pipeline.placeOf s.env op operand).map (Place.move next cs s.iteration)).map
        (fun q => s'.memory q.storage (q.index i)) =
          (pipeline.placeOf s.env op operand).map fun q => s.memory q.storage (q.index i) := by
      cases hq : pipeline.placeOf s.env op operand with
      | none => rfl
      | some q =>
        simp only [Option.map_some, Place.move]
        by_cases hbuffer : IsBuffer cs q.storage
        · obtain ⟨w, hw, hstorage, hindex⟩ := hread op operand i rfl q hq hbuffer
          have hsame := (h.written w hw).2
          rw [hstorage, hindex] at hsame
          rw [hsame]
        · rw [moveStorage_other hbuffer,
            h.memory _ (unmoved_of_current (hcurrent op operand q hq) hbuffer)]
    refine ⟨h.iteration, ?_, h.env, h.current, h.memory, h.written⟩
    simp only
    rw [hplace, h.reads, hvalue]
  | write op operand i w =>
    unfold DoubleBuffering.step
    simp only
    rw [hplace]
    cases hq : pipeline.placeOf s.env op operand with
    | none => exact h
    | some q =>
      simp only [Option.map_some, Option.elim_some]
      have hqcurrent := hcurrent op operand q hq
      refine ⟨h.iteration, h.reads, h.env, h.current, ?_, ?_⟩
      · intro storage hunmoved
        funext j
        show (if storage = moveStorage next cs s.iteration q.storage ∧ j = q.index i then w
          else s'.memory storage j) =
            if storage = q.storage ∧ j = q.index i then w else s.memory storage j
        by_cases hbuffer : IsBuffer cs q.storage
        · obtain ⟨x, hx, k, hstorage⟩ := exists_of_isBuffer hbuffer
          have hne : storage ≠ q.storage := fun heq => hunmoved.1 (heq ▸ hbuffer)
          have hne' : storage ≠ moveStorage next cs s.iteration q.storage := by
            rw [hstorage, moveStorage_buffer hcs hslots hx]
            exact hunmoved.2 _
          rw [if_neg fun hand => hne' hand.1, if_neg fun hand => hne hand.1,
            h.memory storage hunmoved]
        · rw [moveStorage_other hbuffer, h.memory storage hunmoved]
      · intro w' hw'
        show Current s.iteration w'.storage ∧
          (if moveStorage next cs s.iteration w'.storage = moveStorage next cs s.iteration q.storage ∧
            w'.index = q.index i then w
            else s'.memory (moveStorage next cs s.iteration w'.storage) w'.index) =
            if w'.storage = q.storage ∧ w'.index = q.index i then w
            else s.memory w'.storage w'.index
        rcases List.mem_cons.mp hw' with rfl | hw'
        · exact ⟨hqcurrent, by simp⟩
        · obtain ⟨hwcurrent, hsame⟩ := h.written w' hw'
          refine ⟨hwcurrent, ?_⟩
          have hiff : moveStorage next cs s.iteration w'.storage =
              moveStorage next cs s.iteration q.storage ↔ w'.storage = q.storage :=
            ⟨moveStorage_inj hcs hslots hwcurrent hqcurrent, fun heq => by rw [heq]⟩
          simp only [hiff, hsame]

/-- The states of the two runs are related after every number of steps. -/
theorem related_run (hvalid : pipeline.Valid p next) (hcs : ∀ c ∈ cs, Accepted p c)
    (hslots : (cs.map (·.shape.slot)).Nodup) (ivs : List ValueId) (memory : Storage → Index → W)
    (program : Program W) (hwrites : ProducerWritesFirst pipeline outside memory program cs) (n : Nat) :
    Related next cs (runBefore pipeline outside memory program n)
      (runAfter (rewritePipeline next ivs cs pipeline) outside memory program n) := by
  induction n with
  | zero => exact related_enter hvalid hcs hslots ivs [] fun _ _ => rfl
  | succ n ih =>
    show Related next cs ((program n (runBefore pipeline outside memory program n).reads).elim _ _)
      ((program n (runAfter (rewritePipeline next ivs cs pipeline) outside memory program n).reads).elim
        _ _)
    rw [ih.reads]
    cases haction : program n (runBefore pipeline outside memory program n).reads with
    | none => exact ih
    | some action =>
      apply ih.step hvalid hcs hslots ivs n action
      rintro op operand i rfl q hq ⟨c, hc, k, hstorage⟩
      obtain ⟨w, hw, -, hw'⟩ := hwrites n op operand i haction q hq c hc c.buffer
        (by rw [(hcs c hc).results]; exact List.mem_singleton_self _) k hstorage
      exact ⟨w, hw, hw'⟩

/-- **Double buffering preserves values.** When the producer writes what is read of a buffer first, all
operations read the values they read before. -/
theorem rewritePipeline_readsSame [DecidableEq R] (memoryTree : MemoryTree R)
    (dominates : ValueId → Bool) (hvalid : pipeline.Valid p next) (ivs : List ValueId)
    (memory : Storage → Index → W) (program : Program W)
    (hwrites : ProducerWritesFirst pipeline outside memory program
      (collectCandidates memoryTree dominates pipeline)) (n : Nat) :
    (runAfter (rewritePipeline next ivs (collectCandidates memoryTree dominates pipeline) pipeline)
      outside memory program n).reads = (runBefore pipeline outside memory program n).reads := by
  obtain ⟨hcs, hslots⟩ := collectCandidates_accepted memoryTree dominates hvalid.privateOp
  exact (related_run hvalid hcs hslots ivs memory program hwrites n).reads

/-- Global memory with a scratchpad. -/
def twoMemories : MemoryTree String where
  nodes := [⟨0, "DDR", none, none, [1], none, none⟩, ⟨1, "L1", none, some 0, [], none, none⟩]
  resourceToNode := fun r => if r = "DDR" then some 0 else if r = "L1" then some 1 else none
  aliasToNode := fun _ => none
  nodup_ids := by decide
  isSome_resourceToNode := by decide
  resource_of_resourceToNode := by
    intro resource id h
    split at h
    next heq =>
      obtain rfl := Option.some.inj h
      exact ⟨_, List.mem_cons_self, rfl, heq.symm⟩
    next =>
      split at h
      next heq =>
        obtain rfl := Option.some.inj h
        exact ⟨_, List.mem_cons_of_mem _ List.mem_cons_self, rfl, heq.symm⟩
      next => cases h

/-- A stage loads a tile and the next one stores it. -/
def loadStore : PipelineOp String where
  modulo := none
  privateOp := some ⟨[⟨0, .alloc, [], [0]⟩], [⟨1, .memref (some (.ktdp "L1")), 0⟩]⟩
  stages := [⟨0, [], [2], [.node ⟨1, .dataTransfer 3 1, [], []⟩ []]⟩,
    ⟨1, [2], [], [.node ⟨2, .dataTransfer 1 4, [], []⟩ []]⟩]

theorem loadStore_valid :
    loadStore.Valid ⟨[⟨0, .alloc, [], [0]⟩], [⟨1, .memref (some (.ktdp "L1")), 0⟩]⟩ 5 := by
  constructor <;> first | rfl | decide

/-- Both stages in two iterations. -/
def twoIterations : Program Nat := fun n _ =>
  [Action.write 1 1 [0] 7, .read 2 0 [0], .next, .write 1 1 [0] 8, .read 2 0 [0]][n]?

/-- What comes from outside: the source and the destination of the transfers. -/
def sourceAndDestination : Surroundings where
  outer := fun _ v => if v = 3 ∨ v = 4 then some (v, id) else none
  viewIndex := fun _ _ => id

theorem loadStore_writesFirst :
    ProducerWritesFirst loadStore sourceAndDestination (fun _ _ => 0) twoIterations
      (collectCandidates twoMemories (fun _ => true) loadStore) := by
  have hproducer : ∀ c ∈ collectCandidates twoMemories (fun _ => true) loadStore,
      1 ∈ c.producer.ops.map OpInfo.id := by
    decide
  intro n op operand i hread q hq c hc v hv k hstorage
  match n with
  | 1 | 4 =>
    obtain ⟨rfl, rfl, rfl⟩ := Action.read.inj (Option.some.inj hread)
    obtain rfl := Option.some.inj hq
    exact ⟨_, List.mem_cons_self, hproducer c hc, rfl, rfl⟩
  | 0 | 2 | 3 => cases hread
  | n + 5 => cases hread

theorem rewritePipeline_readsSame_loadStore :
    (runAfter (rewritePipeline 5 [] (collectCandidates twoMemories (fun _ => true) loadStore) loadStore)
      sourceAndDestination (fun _ _ => 0) twoIterations 5).reads =
        (runBefore loadStore sourceAndDestination (fun _ _ => 0) twoIterations 5).reads :=
  rewritePipeline_readsSame twoMemories (fun _ => true) loadStore_valid [] _ _ loadStore_writesFirst 5

example : (runBefore loadStore sourceAndDestination (fun _ _ => 0) twoIterations 5).reads =
    [some 7, some 8] := by decide

end DoubleBuffering
