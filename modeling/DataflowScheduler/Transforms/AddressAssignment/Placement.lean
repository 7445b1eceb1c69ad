import DataflowScheduler.Util.Except
import DataflowScheduler.Util.Lists
import DataflowScheduler.Transforms.AddressAssignment

/-!
# Where address assignment places allocations

The tracker calls the pass makes are known before it runs: they depend on the module only. So the
pass is one run of the tracker, on one history across all scopes, and its placement guarantees are
those of the history: what is live in a scope's own memories at its end is what the scope was
assigned, and what is live in global memory in the end is what the whole module was assigned.
-/

namespace DataflowScheduler

namespace AddressAssignment

open ByteRange History

variable {R : Type} [DecidableEq R]

/-! ## The calls of the pass -/

/-- The `allocate` that `processAllocation` makes, if it gets that far. -/
def allocateCall (alloc : AllocOp R) : Option (TrackerCall R) :=
  match alloc.getSize, castMemorySpace alloc with
  | some size, .ok memorySpace =>
      some (.allocate memorySpace size (elementAlignment alloc (elementBytes alloc)))
  | _, _ => none

def allocateCalls (allocs : List (AllocOp R)) : List (TrackerCall R) :=
  allocs.flatMap fun alloc => (allocateCall alloc).toList

/-- The resources that the allocations of a scope name. -/
def namedSpaces (allocs : List (AllocOp R)) : List R :=
  allocs.filterMap fun alloc => (castMemorySpace alloc).toOption

/-- The tracker calls of one scope. -/
def scopeCalls (tree : MemoryTree R) (scope : List (Op R)) : List (TrackerCall R) :=
  .reset (reusable tree (namedSpaces (collectAllocations scope))) ::
    allocateCalls (collectAllocations scope)

/-- The tracker calls of the pass. -/
def moduleCalls (tree : MemoryTree R) (module : List (Op R)) : List (TrackerCall R) :=
  (scopes module).flatMap (scopeCalls tree)

/-- The alignment of every allocation, made a multiple of its element size, is a `size_t`. -/
def AlignmentsFit (module : List (Op R)) : Prop :=
  ∀ scope ∈ scopes module, ∀ alloc ∈ collectAllocations scope,
    Nat.lcm alloc.alignmentOrOne.toNat (elementBytes alloc).toNat < 2 ^ 64

namespace Assigned

omit [DecidableEq R]

/-- The allocation as the tracker saw it. -/
def allocation (a : Assigned R) : Allocation R :=
  ⟨a.memorySpace, a.size, a.alignment, a.byteAddress⟩

/-- The range `[assignedAddress * elementBytes, assignedAddress * elementBytes + size)`. -/
def range (a : Assigned R) : Grant := ⟨a.assignedAddress.toNat * a.elementBytes.toNat, a.size.toNat⟩

/-- The bytes of the device that the allocation occupies: bytes of the memory that its memory
space, a canonical name or an alias, stands for. -/
def deviceBytes (tree : MemoryTree R) (a : Assigned R) : Set (Option MemoryTree.NodeId × Nat) :=
  {p | p.1 = tree.getNodeIdForMemory a.memorySpace ∧ p.2 ∈ a.range.bytes}

/-- The record is about its allocation. -/
structure Describes (a : Assigned R) : Prop where
  memorySpace : a.alloc.type.memorySpace = some (.resource a.memorySpace)
  size : a.alloc.getSize = some a.size
  elementBytes : ∃ bytes, tryGetSizeInBytes a.alloc.type.elementType = some bytes ∧
    a.elementBytes = bytes.setWidth 64
  alignment : a.alignment = elementAlignment a.alloc a.elementBytes
  elementBytes_pos : 0 < a.elementBytes.toNat
  assignedAddress : a.assignedAddress = a.byteAddress / a.elementBytes

end Assigned

/-- What address assignment promises, for a tracker with reserved bytes `reserved`. -/
structure Placed (tree : MemoryTree R) (reserved : R → Option SizeT) (module : List (Op R))
    (o : Outcome R) : Prop where
  /-- Every allocation of every scope got an address. -/
  complete : o.assigned.map (List.map Assigned.alloc) = (scopes module).map collectAllocations
  describes : ∀ as ∈ o.assigned, ∀ a ∈ as, a.Describes
  /-- Within a scope, allocations in one memory space share no byte. -/
  scope_disjoint : ∀ as ∈ o.assigned,
    as.Pairwise fun a b => a.memorySpace = b.memorySpace → Disjoint a.range.bytes b.range.bytes
  /-- In the whole module, allocations in global memory share no byte. -/
  global_disjoint : o.assigned.flatten.Pairwise fun a b =>
    tree.isGlobalMemory a.memorySpace → tree.isGlobalMemory b.memorySpace →
      Disjoint (a.deviceBytes tree) (b.deviceBytes tree)
  /-- The first allocation of a scope in a memory of its own is at the reserved bytes. -/
  first_reserved : ∀ as ∈ o.assigned, ∀ r, ¬ tree.isGlobalMemory r →
    ∀ a, as.find? (fun a => a.memorySpace = r) = some a →
      ∃ bytes, reserved r = some bytes ∧
        a.byteAddress.toNat = roundUp bytes.toNat a.alignment.toNat
  /-- The address in the IR is the one the tracker returned. -/
  exact : ∀ as ∈ o.assigned, ∀ a ∈ as,
    a.assignedAddress.toNat * a.elementBytes.toNat = a.byteAddress.toNat
  /-- The address is aligned as the allocation asks. -/
  aligned : ∀ as ∈ o.assigned, ∀ a ∈ as, a.alloc.alignmentOrOne.toNat ∣ a.byteAddress.toNat

/-! ## One allocation -/

omit [DecidableEq R] in
theorem castMemorySpace_eq_ok {alloc : AllocOp R} {r : R} :
    castMemorySpace alloc = .ok r ↔ alloc.type.memorySpace = some (.resource r) := by
  unfold castMemorySpace
  split <;> simp_all

omit [DecidableEq R] in
/-- An allocation whose size is known has an element type whose size is known. -/
theorem tryGetSizeInBytes_of_getSize {alloc : AllocOp R} {size : SizeT}
    (h : alloc.getSize = some size) :
    ∃ bytes, tryGetSizeInBytes alloc.type.elementType = some bytes ∧
      elementBytes alloc = bytes.setWidth 64 := by
  unfold AllocOp.getSize at h
  cases hoff : alloc.getUpperOffsetBound with
  | none => simp [hoff] at h
  | some offset =>
      cases hbytes : tryGetSizeInBytes alloc.type.elementType with
      | none => simp [hoff, hbytes] at h
      | some bytes =>
          exact ⟨bytes, rfl, by simp only [elementBytes, hbytes]⟩

/-- What `processAllocation` does to the history of its tracker: nothing, or it records what it
assigned. -/
theorem processAllocation_cases {h : History R} {alloc : AllocOp R}
    {result : Except (AllocFailure R) (Assigned R)} {tracker : MemoryTracker R}
    (hp : processAllocation h.tracker alloc = .ok (result, tracker)) :
    (∃ e, result = .error e ∧ tracker = h.tracker ∧ h.run (allocateCall alloc).toList = h) ∨
    ∃ a, result = .ok a ∧ a.alloc = alloc ∧ a.Describes ∧
      allocateCall alloc = some (.allocate a.memorySpace a.size a.alignment) ∧
      h.tracker.allocate a.memorySpace a.size a.alignment = (.ok a.byteAddress, tracker) := by
  unfold processAllocation at hp
  cases hsize : alloc.getSize with
  | none =>
      simp only [hsize, Except.ok.injEq, Prod.mk.injEq] at hp
      obtain ⟨rfl, rfl⟩ := hp
      exact Or.inl ⟨_, rfl, rfl, by simp [allocateCall, hsize]⟩
  | some size =>
      cases hspace : castMemorySpace alloc with
      | error e => simp [hsize, hspace, bind, Except.bind] at hp
      | ok space =>
          have hcall : allocateCall alloc =
              some (.allocate space size (elementAlignment alloc (elementBytes alloc))) := by
            simp [allocateCall, hsize, hspace]
          simp only [hsize, hspace, bind, Except.bind] at hp
          split at hp
          · next e t he =>
              simp only [Except.ok.injEq, Prod.mk.injEq] at hp
              obtain ⟨rfl, rfl⟩ := hp
              have ht : t = h.tracker := MemoryTracker.allocate_error he
              subst ht
              refine Or.inl ⟨_, rfl, rfl, ?_⟩
              rw [hcall]
              simp [step, he]
          · next address t hok =>
              split at hp
              · cases hp
              · next hpos =>
                  split at hp
                  · cases hp
                  · simp only [Except.ok.injEq, Prod.mk.injEq] at hp
                    obtain ⟨rfl, rfl⟩ := hp
                    refine Or.inr ⟨_, rfl, rfl, ?_, hcall, hok⟩
                    refine ⟨castMemorySpace_eq_ok.mp hspace, hsize,
                      tryGetSizeInBytes_of_getSize hsize, rfl, ?_, rfl⟩
                    have hne : (elementBytes alloc).toNat ≠ 0 := by
                      intro h0
                      exact hpos (BitVec.eq_of_toNat_eq h0)
                    exact Nat.pos_of_ne_zero hne

/-! ## The allocations of a scope -/

/-- `results` are what the history `h'` gained over `h`. -/
structure Extends (h h' : History R) (results : List (Except (AllocFailure R) (Assigned R))) :
    Prop where
  granted : h'.granted = ((assignedOf results).map Assigned.allocation).reverse ++ h.granted
  live : ∀ r, h'.live r = (((assignedOf results).filter fun a => a.memorySpace = r).map
    Assigned.allocation).reverse ++ h.live r

omit [DecidableEq R] in
@[simp] theorem assignedOf_nil : assignedOf ([] : List (Except (AllocFailure R) (Assigned R))) = [] :=
  rfl

omit [DecidableEq R] in
@[simp] theorem assignedOf_error (e : AllocFailure R) (results) :
    assignedOf (.error e :: results) = assignedOf results := rfl

omit [DecidableEq R] in
@[simp] theorem assignedOf_ok (a : Assigned R) (results) :
    assignedOf (.ok a :: results) = a :: assignedOf results := rfl

omit [DecidableEq R] in
@[simp] theorem assignedOf_append (results results' : List (Except (AllocFailure R) (Assigned R))) :
    assignedOf (results ++ results') = assignedOf results ++ assignedOf results' :=
  List.filterMap_append

theorem Extends.record {h h' : History R} {tracker : MemoryTracker R} {a : Assigned R}
    {results : List (Except (AllocFailure R) (Assigned R))}
    (hext : Extends (h.record tracker a.allocation) h' results) :
    Extends h h' (.ok a :: results) := by
  refine ⟨?_, fun r => ?_⟩
  · rw [hext.granted]
    simp [History.record]
  · rw [hext.live r]
    by_cases hr : a.memorySpace = r
    · subst hr
      simp [History.record, Assigned.allocation]
    · have hr' : r ≠ a.memorySpace := fun h => hr h.symm
      simp [History.record, Assigned.allocation, hr, Function.update_of_ne hr']

/-- The first round of the loop over the allocations, and the others. -/
theorem processAllocations_cons {tracker tracker' : MemoryTracker R} {alloc : AllocOp R}
    {allocs : List (AllocOp R)} {results : List (Except (AllocFailure R) (Assigned R))}
    (hp : processAllocations tracker (alloc :: allocs) = .ok (results, tracker')) :
    ∃ result t rest, processAllocation tracker alloc = .ok (result, t) ∧
      processAllocations t allocs = .ok (rest, tracker') ∧ results = result :: rest := by
  simp only [processAllocations] at hp
  obtain ⟨⟨result, t⟩, hfst, hp⟩ := Except.bind_eq_ok.mp hp
  obtain ⟨⟨rest, t'⟩, hsnd, hp⟩ := Except.bind_eq_ok.mp hp
  simp only [Except.ok.injEq, Prod.mk.injEq] at hp
  obtain ⟨rfl, rfl⟩ := hp
  exact ⟨result, t, rest, hfst, hsnd, rfl⟩

omit [DecidableEq R] in
theorem allocateCalls_cons (alloc : AllocOp R) (allocs : List (AllocOp R)) :
    allocateCalls (alloc :: allocs) = (allocateCall alloc).toList ++ allocateCalls allocs :=
  List.flatMap_cons

/-- Recording what `processAllocation` assigned is the tracker call it makes. -/
theorem run_allocateCall {h : History R} {tracker : MemoryTracker R} {a : Assigned R}
    (hcall : allocateCall a.alloc = some (.allocate a.memorySpace a.size a.alignment))
    (hok : h.tracker.allocate a.memorySpace a.size a.alignment = (.ok a.byteAddress, tracker)) :
    h.run (allocateCall a.alloc).toList = h.record tracker a.allocation := by
  rw [hcall]
  simp [step, hok, Assigned.allocation]

/-- The loop over the allocations of a scope is a run of the tracker, and what it assigns is what
the run hands out. -/
theorem processAllocations_run {h : History R} {allocs : List (AllocOp R)}
    {results : List (Except (AllocFailure R) (Assigned R))} {tracker : MemoryTracker R}
    (hp : processAllocations h.tracker allocs = .ok (results, tracker)) :
    (h.run (allocateCalls allocs)).tracker = tracker ∧
    Extends h (h.run (allocateCalls allocs)) results ∧ ∀ a ∈ assignedOf results, a.Describes := by
  induction allocs generalizing h results tracker with
  | nil =>
      simp only [processAllocations, Except.ok.injEq, Prod.mk.injEq] at hp
      obtain ⟨rfl, rfl⟩ := hp
      exact ⟨rfl, ⟨rfl, fun _ => rfl⟩, by simp⟩
  | cons alloc allocs ih =>
      obtain ⟨result, t, rest, hfst, hsnd, rfl⟩ := processAllocations_cons hp
      rw [allocateCalls_cons, run_append]
      rcases processAllocation_cases hfst with
        ⟨e, rfl, rfl, hsame⟩ | ⟨a, rfl, rfl, hdesc, hcall, hok⟩
      · rw [hsame]
        obtain ⟨htracker, hext, hdescs⟩ := ih hsnd
        exact ⟨htracker, ⟨hext.granted, hext.live⟩, hdescs⟩
      · rw [run_allocateCall hcall hok]
        have hsnd' : processAllocations (h.record t a.allocation).tracker allocs =
            .ok (rest, tracker) := hsnd
        obtain ⟨htracker, hext, hdescs⟩ := ih hsnd'
        exact ⟨htracker, hext.record, by simpa using ⟨hdesc, hdescs⟩⟩

/-- If nothing failed, every allocation was assigned. -/
theorem processAllocations_complete {tracker tracker' : MemoryTracker R} {allocs : List (AllocOp R)}
    {results : List (Except (AllocFailure R) (Assigned R))}
    (hp : processAllocations tracker allocs = .ok (results, tracker'))
    (hok : ∀ result ∈ results, result.isOk) : (assignedOf results).map Assigned.alloc = allocs := by
  induction allocs generalizing tracker results with
  | nil =>
      simp only [processAllocations, Except.ok.injEq, Prod.mk.injEq] at hp
      obtain ⟨rfl, rfl⟩ := hp
      rfl
  | cons alloc allocs ih =>
      obtain ⟨result, t, rest, hfst, hsnd, rfl⟩ := processAllocations_cons hp
      have hrest := ih hsnd fun r hr => hok r (List.mem_cons_of_mem _ hr)
      rcases processAllocation_cases (h := History.start tracker) hfst with
        ⟨e, rfl, -, -⟩ | ⟨a, rfl, rfl, -, -, -⟩
      · exact absurd (hok _ List.mem_cons_self) (by simp [Except.isOk, Except.toBool])
      · simp [hrest]

/-- The first allocation that is assigned in a memory goes to its mark, aligned. -/
theorem processAllocations_first {h : History R} {allocs : List (AllocOp R)}
    {results : List (Except (AllocFailure R) (Assigned R))} {tracker : MemoryTracker R}
    (hp : processAllocations h.tracker allocs = .ok (results, tracker))
    (hw : NoWrapAlong h (allocateCalls allocs)) {r : R} {a : Assigned R}
    (ha : (assignedOf results).find? (fun a => a.memorySpace = r) = some a) :
    ∃ current, h.tracker.nextAddress r = some current ∧
      a.byteAddress.toNat = roundUp current.toNat a.alignment.toNat := by
  induction allocs generalizing h results with
  | nil =>
      simp only [processAllocations, Except.ok.injEq, Prod.mk.injEq] at hp
      obtain ⟨rfl, rfl⟩ := hp
      cases ha
  | cons alloc allocs ih =>
      obtain ⟨result, t, rest, hfst, hsnd, rfl⟩ := processAllocations_cons hp
      rw [allocateCalls_cons, noWrapAlong_append] at hw
      rcases processAllocation_cases hfst with
        ⟨e, rfl, rfl, hsame⟩ | ⟨b, rfl, rfl, -, hcall, hok⟩
      · rw [hsame] at hw
        exact ih hsnd hw.2 ha
      · have hrec := run_allocateCall hcall hok
        rw [hrec, hcall] at hw
        obtain ⟨current, _, next, hcur, -, haddr, -, -, -, rfl⟩ :=
          MemoryTracker.allocate_ok hok hw.1.1
        rw [assignedOf_ok] at ha
        by_cases hb : b.memorySpace = r
        · rw [List.find?_cons_of_pos (by simpa using hb), Option.some.injEq] at ha
          subst ha hb
          exact ⟨current, hcur, haddr⟩
        · rw [List.find?_cons_of_neg (by simpa using hb)] at ha
          obtain ⟨current', hcur', haddr'⟩ := ih hsnd hw.2 ha
          have hr : r ≠ b.memorySpace := fun h => hb h.symm
          simp only [record, Function.update_of_ne hr] at hcur'
          exact ⟨current', hcur', haddr'⟩

/-! ## The scopes of a module -/

omit [DecidableEq R] in
theorem namedSpaces_of_mapM {allocs : List (AllocOp R)} {spaces : List R}
    (h : allocs.mapM castMemorySpace = .ok spaces) : spaces = namedSpaces allocs := by
  have hall := Except.mapM_eq_ok h
  clear h
  induction hall with
  | nil => rfl
  | cons hab _ ih =>
      rw [ih, namedSpaces, namedSpaces, List.filterMap_cons_some (by rw [hab]; rfl)]

/-- A scope resets what it does not share, then processes its allocations. -/
theorem processScope_eq_ok {tree : MemoryTree R} {h : History R} {scope : List (Op R)}
    {results : List (Except (AllocFailure R) (Assigned R))} {tracker : MemoryTracker R}
    (hp : processScope tree h.tracker scope = .ok (results, tracker)) :
    processAllocations
      (h.step (.reset (reusable tree (namedSpaces (collectAllocations scope))))).tracker
      (collectAllocations scope) = .ok (results, tracker) := by
  simp only [processScope] at hp
  obtain ⟨spaces, hspaces, hp⟩ := Except.bind_eq_ok.mp hp
  rw [namedSpaces_of_mapM hspaces] at hp
  exact hp

omit [DecidableEq R] in
/-- What was assigned in one memory of a history that simulates arenas shares no byte. -/
theorem pairwise_of_live {h : History R} (hs : h.Simulates) {r : R} {as : List (Assigned R)}
    {older : List (Allocation R)}
    (hlive : h.live r = (as.map Assigned.allocation).reverse ++ older) :
    as.Pairwise fun a b => Disjoint a.allocation.grant.bytes b.allocation.grant.bytes := by
  have hd := hs.disjoint r
  rw [hlive, List.pairwise_append, List.pairwise_reverse, List.pairwise_map] at hd
  exact hd.1.imp fun hab => hab.symm

/-- What the pass has done to the history of its tracker, scope by scope. -/
structure ScopesRun (tree : MemoryTree R) (h h' : History R)
    (results : List (List (Except (AllocFailure R) (Assigned R)))) : Prop where
  granted : h'.granted = ((assignedOf results.flatten).map Assigned.allocation).reverse ++ h.granted
  global_live : ∀ r, tree.isGlobalMemory r → h'.live r =
    (((assignedOf results.flatten).filter fun a => a.memorySpace = r).map
      Assigned.allocation).reverse ++ h.live r
  describes : ∀ as ∈ results.map assignedOf, ∀ a ∈ as, a.Describes
  scope_disjoint : ∀ as ∈ results.map assignedOf, as.Pairwise fun a b =>
    a.memorySpace = b.memorySpace → Disjoint a.allocation.grant.bytes b.allocation.grant.bytes
  first_reserved : ∀ as ∈ results.map assignedOf, ∀ r, ¬ tree.isGlobalMemory r →
    ∀ a, as.find? (fun a => a.memorySpace = r) = some a →
      ∃ bytes, h.tracker.reserved r = some bytes ∧
        a.byteAddress.toNat = roundUp bytes.toNat a.alignment.toNat

/-- A memory the scope names and does not share starts over. -/
theorem mem_reusable {tree : MemoryTree R} {spaces : List R} {r : R} :
    r ∈ reusable tree spaces ↔ r ∈ spaces ∧ ¬ tree.isGlobalMemory r := by
  simp [reusable, List.mem_dedup]

omit [DecidableEq R] in
theorem mem_namedSpaces {allocs : List (AllocOp R)} {alloc : AllocOp R} (ha : alloc ∈ allocs)
    {r : R} (hr : alloc.type.memorySpace = some (.resource r)) : r ∈ namedSpaces allocs :=
  List.mem_filterMap.mpr ⟨alloc, ha, by simp [castMemorySpace_eq_ok.mpr hr, Except.toOption]⟩

theorem processAllocations_mem {tracker tracker' : MemoryTracker R} {allocs : List (AllocOp R)}
    {results : List (Except (AllocFailure R) (Assigned R))}
    (hp : processAllocations tracker allocs = .ok (results, tracker')) {a : Assigned R}
    (ha : a ∈ assignedOf results) : a.alloc ∈ allocs := by
  induction allocs generalizing tracker results with
  | nil =>
      simp only [processAllocations, Except.ok.injEq, Prod.mk.injEq] at hp
      obtain ⟨rfl, rfl⟩ := hp
      cases ha
  | cons alloc allocs ih =>
      obtain ⟨result, t, rest, hfst, hsnd, rfl⟩ := processAllocations_cons hp
      rcases processAllocation_cases (h := History.start tracker) hfst with
        ⟨e, rfl, -, -⟩ | ⟨b, rfl, rfl, -, -, -⟩
      · exact List.mem_cons_of_mem _ (ih hsnd ha)
      · rcases List.mem_cons.mp ha with rfl | ha
        · exact List.mem_cons_self
        · exact List.mem_cons_of_mem _ (ih hsnd ha)

/-- One scope of the pass. -/
theorem processScope_run {tree : MemoryTree R} {h : History R} (hs : h.Simulates)
    {scope : List (Op R)} (hw : NoWrapAlong h (scopeCalls tree scope))
    {results : List (Except (AllocFailure R) (Assigned R))} {tracker : MemoryTracker R}
    (hp : processScope tree h.tracker scope = .ok (results, tracker)) :
    (h.run (scopeCalls tree scope)).tracker = tracker ∧
    ScopesRun tree h (h.run (scopeCalls tree scope)) [results] := by
  have hp' := processScope_eq_ok hp
  have hrun := run_simulates hs hw
  rw [scopeCalls, run_cons] at hrun ⊢
  obtain ⟨htracker, hext, hdesc⟩ := processAllocations_run hp'
  refine ⟨htracker, ?_, ?_, ?_, ?_, ?_⟩
  · simpa [step] using hext.granted
  · intro r hr
    rw [hext.live r]
    have hkeep : r ∉ reusable tree (namedSpaces (collectAllocations scope)) :=
      fun hmem => (mem_reusable.mp hmem).2 hr
    simp [step, hkeep]
  · simpa using hdesc
  · simp only [List.map_cons, List.map_nil, List.mem_singleton, forall_eq]
    exact KeyedList.pairwise_of_filter Assigned.memorySpace fun r => pairwise_of_live hrun (hext.live r)
  · simp only [List.map_cons, List.map_nil, List.mem_singleton, forall_eq]
    intro r hr a ha
    obtain ⟨current, hcur, haddr⟩ := processAllocations_first hp' hw.2 ha
    have hmem := processAllocations_mem hp' (List.mem_of_find?_eq_some ha)
    have hspace : a.memorySpace = r := by simpa using List.find?_some ha
    have hnamed := mem_namedSpaces hmem
      (hspace ▸ (hdesc a (List.mem_of_find?_eq_some ha)).memorySpace)
    have hreset : r ∈ reusable tree (namedSpaces (collectAllocations scope)) :=
      mem_reusable.mpr ⟨hnamed, hr⟩
    simp only [step, MemoryTracker.reset_nextAddress, hreset, if_true] at hcur
    rcases hs r with hu | ⟨A, hA⟩
    · rw [hu.next] at hcur
      cases hcur
    · obtain ⟨bytes, hbytes, -⟩ := hA.reserved
      obtain ⟨next, hnext, -⟩ := hA.next
      rw [hnext, hbytes, Option.map_some, Option.getD_some, Option.some.injEq] at hcur
      exact ⟨bytes, hbytes, hcur ▸ haddr⟩

/-- The whole loop over the scopes. -/
theorem processScopes_run {tree : MemoryTree R} {h : History R} (hs : h.Simulates)
    {scopes : List (List (Op R))} (hw : NoWrapAlong h (scopes.flatMap (scopeCalls tree)))
    {results : List (List (Except (AllocFailure R) (Assigned R)))} {tracker : MemoryTracker R}
    (hp : processScopes tree h.tracker scopes = .ok (results, tracker)) :
    (h.run (scopes.flatMap (scopeCalls tree))).tracker = tracker ∧
    ScopesRun tree h (h.run (scopes.flatMap (scopeCalls tree))) results := by
  induction scopes generalizing h results with
  | nil =>
      simp only [processScopes, Except.ok.injEq, Prod.mk.injEq] at hp
      obtain ⟨rfl, rfl⟩ := hp
      exact ⟨rfl, by constructor <;> simp⟩
  | cons scope scopes ih =>
      simp only [processScopes] at hp
      obtain ⟨⟨result, t⟩, hfst, hp⟩ := Except.bind_eq_ok.mp hp
      obtain ⟨⟨rest, t'⟩, hsnd, hp⟩ := Except.bind_eq_ok.mp hp
      simp only [Except.ok.injEq, Prod.mk.injEq] at hp
      obtain ⟨rfl, rfl⟩ := hp
      rw [List.flatMap_cons, noWrapAlong_append] at hw
      rw [List.flatMap_cons, run_append]
      obtain ⟨rfl, hone⟩ := processScope_run hs hw.1 hfst
      obtain ⟨htracker, hrest⟩ := ih (run_simulates hs hw.1) hw.2 hsnd
      refine ⟨htracker, ?_, ?_, ?_, ?_, ?_⟩
      · rw [hrest.granted, hone.granted]
        simp
      · intro r hr
        rw [hrest.global_live r hr, hone.global_live r hr]
        simp
      · simpa using ⟨by simpa using hone.describes, by simpa using hrest.describes⟩
      · simpa using ⟨by simpa using hone.scope_disjoint, by simpa using hrest.scope_disjoint⟩
      · intro as has
        rcases List.mem_cons.mp has with rfl | has
        · exact hone.first_reserved _ (by simp)
        · simpa using hrest.first_reserved as has

theorem processScopes_complete {tree : MemoryTree R} {tracker tracker' : MemoryTracker R}
    {scopes : List (List (Op R))} {results : List (List (Except (AllocFailure R) (Assigned R)))}
    (hp : processScopes tree tracker scopes = .ok (results, tracker'))
    (hok : ∀ rs ∈ results, ∀ result ∈ rs, result.isOk) :
    (results.map assignedOf).map (List.map Assigned.alloc) = scopes.map collectAllocations := by
  induction scopes generalizing tracker results with
  | nil =>
      simp only [processScopes, Except.ok.injEq, Prod.mk.injEq] at hp
      obtain ⟨rfl, rfl⟩ := hp
      rfl
  | cons scope scopes ih =>
      simp only [processScopes] at hp
      obtain ⟨⟨result, t⟩, hfst, hp⟩ := Except.bind_eq_ok.mp hp
      obtain ⟨⟨rest, t'⟩, hsnd, hp⟩ := Except.bind_eq_ok.mp hp
      simp only [Except.ok.injEq, Prod.mk.injEq] at hp
      obtain ⟨rfl, rfl⟩ := hp
      have hone := processAllocations_complete
        (processScope_eq_ok (h := History.start tracker) hfst) (hok _ List.mem_cons_self)
      have hrest := ih hsnd fun rs hrs => hok rs (List.mem_cons_of_mem _ hrs)
      rw [List.map_cons, List.map_cons, List.map_cons, hone, hrest]

section Walks

omit [DecidableEq R]

mutual

/-- A walk that finds no allocation with a memory space collects none. -/
theorem collectFrom_eq_nil : ∀ op : Op R, hasAllocationsFrom op = false → collectFrom op = []
  | .module _, _ => rfl
  | .alloc op, h => by
      have hnone : op.type.memorySpace.isSome = false := h
      simp [collectFrom, hnone]
  | .other body, h => collectAllocations_eq_nil body h

theorem collectAllocations_eq_nil : ∀ body : List (Op R),
    hasAllocationsWithMemorySpace body = false → collectAllocations body = []
  | [], _ => rfl
  | op :: body, h => by
      rw [hasAllocationsWithMemorySpace, Bool.or_eq_false_iff] at h
      rw [collectAllocations, collectFrom_eq_nil op h.1, collectAllocations_eq_nil body h.2]
      rfl

end

theorem hasAllocationsFrom_of_mem {module : List (Op R)}
    (h : hasAllocationsWithMemorySpace module = false) {op : Op R} (hop : op ∈ module) :
    hasAllocationsFrom op = false := by
  induction module with
  | nil => cases hop
  | cons op' module ih =>
      rw [hasAllocationsWithMemorySpace, Bool.or_eq_false_iff] at h
      rcases List.mem_cons.mp hop with rfl | hop
      · exact h.1
      · exact ih h.2 hop

theorem collectAllocations_scopes {module : List (Op R)}
    (h : hasAllocationsWithMemorySpace module = false) {scope : List (Op R)}
    (hscope : scope ∈ scopes module) : collectAllocations scope = [] := by
  rcases List.mem_cons.mp hscope with rfl | hscope
  · exact collectAllocations_eq_nil _ h
  · obtain ⟨op, hop, hbody⟩ := List.mem_filterMap.mp hscope
    cases op with
    | module body =>
        cases hbody
        exact collectAllocations_eq_nil _ (hasAllocationsFrom_of_mem h hop)
    | alloc op => cases hbody
    | other body => cases hbody

end Walks

/-- Scopes without allocations leave the tracker alone. -/
theorem processScopes_of_empty {tree : MemoryTree R} {tracker : MemoryTracker R}
    {scopes : List (List (Op R))} (h : ∀ scope ∈ scopes, collectAllocations scope = []) :
    processScopes tree tracker scopes = .ok (scopes.map fun _ => [], tracker) := by
  induction scopes with
  | nil => rfl
  | cons scope scopes ih =>
      have hone : processScope tree tracker scope = .ok ([], tracker) := by
        rw [processScope, h scope List.mem_cons_self]
        rfl
      have hrest := ih fun s hs => h s (List.mem_cons_of_mem _ hs)
      simp only [processScopes, hone, hrest, bind, Except.bind, List.map_cons]

/-! ## The pass -/

/-- Leaving early where there is nothing to assign does not change the outcome. -/
theorem runOnOperation_eq (tree : MemoryTree R) (tracker : MemoryTracker R)
    (module : List (Op R)) :
    runOnOperation tree tracker module = (do
      let (results, tracker) ← processScopes tree tracker (scopes module)
      .ok ⟨results, tracker⟩) := by
  unfold runOnOperation
  by_cases hhas : hasAllocationsWithMemorySpace module
  · rw [if_pos hhas]
  · have hempty : ∀ scope ∈ scopes module, collectAllocations scope = [] :=
      fun scope => collectAllocations_scopes (by simpa using hhas)
    rw [if_neg hhas, processScopes_of_empty hempty]
    rfl

/-- The pass is one run of the tracker. -/
theorem runOnOperation_run {tree : MemoryTree R} {h : History R} (hs : h.Simulates)
    {module : List (Op R)} (hw : NoWrapAlong h (moduleCalls tree module)) {o : Outcome R}
    (hp : runOnOperation tree h.tracker module = .ok o) (hok : o.succeeded) :
    ScopesRun tree h (h.run (moduleCalls tree module)) o.results ∧
    o.assigned.map (List.map Assigned.alloc) = (scopes module).map collectAllocations := by
  rw [runOnOperation_eq] at hp
  obtain ⟨⟨results, tracker⟩, hscopes, hp⟩ := Except.bind_eq_ok.mp hp
  cases hp
  refine ⟨(processScopes_run hs hw hscopes).2, processScopes_complete hscopes ?_⟩
  intro rs hrs result hresult
  have hcount := List.countP_eq_zero.mp hok result (List.mem_flatten_of_mem hrs hresult)
  simpa using hcount

namespace Assigned

omit [DecidableEq R]

theorem Describes.eq_elementBytes {a : Assigned R} (hdesc : a.Describes) :
    a.elementBytes = AddressAssignment.elementBytes a.alloc := by
  obtain ⟨bytes, hbytes, heq⟩ := hdesc.elementBytes
  rw [heq, AddressAssignment.elementBytes, hbytes]

/-- An aligned address is a multiple of the alignment asked for and of the element size. -/
theorem Describes.lcm_dvd {a : Assigned R} (hdesc : a.Describes)
    (hfit : Nat.lcm a.alloc.alignmentOrOne.toNat
      (AddressAssignment.elementBytes a.alloc).toNat < 2 ^ 64)
    (haligned : a.alignment.toNat ∣ a.byteAddress.toNat) :
    Nat.lcm a.alloc.alignmentOrOne.toNat a.elementBytes.toNat ∣ a.byteAddress.toNat := by
  rw [← hdesc.eq_elementBytes] at hfit
  rwa [hdesc.alignment, elementAlignment, BitVec.toNat_ofNat, Nat.mod_eq_of_lt hfit] at haligned

/-- Dividing a multiple of the element size by it loses nothing. -/
theorem Describes.exact {a : Assigned R} (hdesc : a.Describes)
    (h : a.elementBytes.toNat ∣ a.byteAddress.toNat) :
    a.assignedAddress.toNat * a.elementBytes.toNat = a.byteAddress.toNat := by
  rw [hdesc.assignedAddress, BitVec.toNat_udiv, Nat.div_mul_cancel h]

/-- Bytes of different memories are different. -/
theorem disjoint_deviceBytes {tree : MemoryTree R} {a b : Assigned R}
    (h : tree.getNodeIdForMemory a.memorySpace = tree.getNodeIdForMemory b.memorySpace →
      Disjoint a.range.bytes b.range.bytes) :
    Disjoint (a.deviceBytes tree) (b.deviceBytes tree) := by
  rw [Set.disjoint_left]
  rintro ⟨id, byte⟩ ⟨ha, hba⟩ ⟨hb, hbb⟩
  exact Set.disjoint_left.mp (h (ha.symm.trans hb)) hba hbb

end Assigned

/-- **Address assignment places every allocation of a module**: scopes do not overlap within
themselves, nothing overlaps in global memory, each scope starts over in its own memories, and the
element address in the IR is exactly the byte address of the tracker. The tracker may have been
used before; no call on it wraps. -/
theorem runOnOperation_placed (tree : MemoryTree R) (prior : List (TrackerCall R))
    (module : List (Op R)) (hfit : AlignmentsFit module)
    (hw : NoWrapAlong (start (MemoryTracker.ofTree tree)) (prior ++ moduleCalls tree module))
    (o : Outcome R)
    (hp : runOnOperation tree ((start (MemoryTracker.ofTree tree)).run prior).tracker module = .ok o)
    (hok : o.succeeded) : Placed tree (MemoryTracker.ofTree tree).reserved module o := by
  rw [noWrapAlong_append] at hw
  have hstart := start_simulates (MemoryTracker.ofTree_wellFormed tree)
  have hprior := run_simulates hstart hw.1
  obtain ⟨hrun, hcomplete⟩ := runOnOperation_run hprior hw.2 hp hok
  have hfinal := run_simulates hprior hw.2
  have hhonoured := run_allHonoured hprior
    (run_allHonoured hstart (fun a ha => by cases ha) hw.1) hw.2
  have hflatten : assignedOf o.results.flatten = o.assigned.flatten := by
    rw [Outcome.assigned, assignedOf, List.filterMap_flatten]
    rfl
  have hkept : ∀ a ∈ o.assigned.flatten, Honoured (((start (MemoryTracker.ofTree tree)).run prior).run
      (moduleCalls tree module)).tracker a.allocation := by
    intro a ha
    refine hhonoured a.allocation ?_
    rw [hrun.granted, hflatten, List.mem_append, List.mem_reverse]
    exact Or.inl (List.mem_map_of_mem ha)
  have hcanonical : ∀ a ∈ o.assigned.flatten, (tree.resourceToNode a.memorySpace).isSome := by
    intro a ha
    obtain ⟨reserved, hres, -⟩ := (hkept a ha).above_reserved
    rw [run_reserved, run_reserved] at hres
    exact MemoryTracker.ofTree_canonical tree hres
  -- Every address is a multiple of the alignment asked for and of the element size.
  have hdvd : ∀ as ∈ o.assigned, ∀ a ∈ as,
      Nat.lcm a.alloc.alignmentOrOne.toNat a.elementBytes.toNat ∣ a.byteAddress.toNat := by
    intro as has a ha
    have hscope : as.map Assigned.alloc ∈ (scopes module).map collectAllocations :=
      hcomplete ▸ List.mem_map_of_mem has
    obtain ⟨scope, hmem, hcollect⟩ := List.mem_map.mp hscope
    have halloc : a.alloc ∈ collectAllocations scope := hcollect ▸ List.mem_map_of_mem ha
    exact (hrun.describes as has a ha).lcm_dvd (hfit scope hmem a.alloc halloc)
      (hkept a (List.mem_flatten_of_mem has ha)).aligned
  have hexact : ∀ as ∈ o.assigned, ∀ a ∈ as,
      a.assignedAddress.toNat * a.elementBytes.toNat = a.byteAddress.toNat := fun as has a ha =>
    (hrun.describes as has a ha).exact (Nat.dvd_trans (Nat.dvd_lcm_right _ _) (hdvd as has a ha))
  have hrange : ∀ as ∈ o.assigned, ∀ a ∈ as, a.range = a.allocation.grant := by
    intro as has a ha
    rw [Assigned.range, hexact as has a ha]
    rfl
  refine ⟨hcomplete, hrun.describes, ?_, ?_, ?_, hexact, ?_⟩
  · intro as has
    refine (hrun.scope_disjoint as has).imp_of_mem ?_
    intro a b ha hb hab
    rw [hrange as has a ha, hrange as has b hb]
    exact hab
  · have hglobal : o.assigned.flatten.Pairwise fun a b => a.memorySpace = b.memorySpace →
        tree.isGlobalMemory a.memorySpace →
          Disjoint a.allocation.grant.bytes b.allocation.grant.bytes := by
      refine KeyedList.pairwise_of_filter Assigned.memorySpace fun r => ?_
      by_cases hr : tree.isGlobalMemory r
      · have hlive := hrun.global_live r hr
        rw [hflatten] at hlive
        refine (pairwise_of_live hfinal hlive).imp ?_
        intro a b hab _
        exact hab
      · refine List.Pairwise.imp_of_mem ?_ (List.pairwise_of_forall (R := fun _ _ => True) (by simp))
        intro a b ha _ _ hga
        have har : a.memorySpace = r := by simpa using (List.mem_filter.mp ha).2
        exact absurd (har ▸ hga) hr
    refine hglobal.imp_of_mem ?_
    intro a b ha hb hab hga _
    refine Assigned.disjoint_deviceBytes fun hid => ?_
    obtain ⟨as, has, ha'⟩ := List.mem_flatten.mp ha
    obtain ⟨bs, hbs, hb'⟩ := List.mem_flatten.mp hb
    rw [hrange as has a ha', hrange bs hbs b hb']
    exact hab (tree.getNodeIdForMemory_inj (hcanonical a ha) (hcanonical b hb) hid) hga
  · intro as has r hr a ha
    obtain ⟨bytes, hbytes, haddr⟩ := hrun.first_reserved as has r hr a ha
    rw [run_reserved] at hbytes
    exact ⟨bytes, hbytes, haddr⟩
  · exact fun as has a ha => Nat.dvd_trans (Nat.dvd_lcm_left _ _) (hdvd as has a ha)

section Example

/-- A device with global memory and one scratchpad below it. -/
inductive Memory where
  | global
  | scratchpad
  deriving Repr, DecidableEq

def twoLevels : MemoryTree Memory where
  nodes := [⟨0, .global, none, none, [1], some 256, some 16⟩,
    ⟨1, .scratchpad, none, some 0, [], some 64, some 8⟩]
  resourceToNode
    | .global => some 0
    | .scratchpad => some 1
  aliasToNode := fun _ => none
  nodup_ids := by decide
  isSome_resourceToNode := by simp
  resource_of_resourceToNode := by
    intro resource id h
    cases resource <;> cases h <;> simp

/-- An allocation of `n` 16-bit integers. -/
def halfWords (r : Memory) (n : Int) (alignment : Option Align) : Op Memory :=
  .alloc ⟨⟨[some n], .integer 16, fun _ => some ([1], 0), some (.resource r)⟩, [], alignment⟩

/-- An allocation outside the programs, and two programs. -/
def twoPrograms : List (Op Memory) :=
  [halfWords .global 5 none,
   .module [.other [halfWords .scratchpad 3 (some ⟨4⟩), halfWords .global 2 (some ⟨3⟩)]],
   .module [halfWords .scratchpad 7 none, halfWords .global 1 none]]

theorem runOnOperation_placed_twoPrograms :
    ∃ o, runOnOperation twoLevels (MemoryTracker.ofTree twoLevels) twoPrograms = .ok o ∧
      Placed twoLevels (MemoryTracker.ofTree twoLevels).reserved twoPrograms o := by
  have hrun : (match runOnOperation twoLevels (MemoryTracker.ofTree twoLevels) twoPrograms with
      | .ok o => o.numFailed == 0
      | .error _ => false) = true := by decide +kernel
  cases hp : runOnOperation twoLevels (MemoryTracker.ofTree twoLevels) twoPrograms with
  | error e => simp [hp] at hrun
  | ok o =>
      rw [hp] at hrun
      have hfit : AlignmentsFit twoPrograms := by
        unfold AlignmentsFit
        decide +kernel
      exact ⟨o, rfl, runOnOperation_placed twoLevels [] twoPrograms hfit (by decide +kernel) o hp
        (by simpa [Outcome.succeeded] using hrun)⟩

end Example

end AddressAssignment

end DataflowScheduler
