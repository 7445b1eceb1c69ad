import Mathlib.Data.List.Pairwise
import DataflowScheduler.Analysis.MemoryTracker

/-!
# Runs of the memory tracker

Arbitrary interleavings of `allocate` and `reset` on one tracker. A `History` is the tracker with
what it handed out so far; as long as no call makes the address arithmetic wrap, every memory of
the tracker simulates a `ByteRange.Arena`, and the guarantees of a run are read off the arenas.

The bound check itself is done in wrapping arithmetic, so without that condition it accepts
allocations that do not fit.
-/

namespace DataflowScheduler

open ByteRange

variable {R : Type} [DecidableEq R]

/-- A successful call of `allocate`. -/
structure Allocation (R : Type) where
  resource : R
  sizeInBytes : SizeT
  alignment : SizeT
  address : SizeT
  deriving Repr, DecidableEq

/-- The bytes of an allocation, in unbounded integers. -/
def Allocation.grant (a : Allocation R) : Grant := ⟨a.address.toNat, a.sizeInBytes.toNat⟩

/-- A call of the tracker's interface that changes it. -/
inductive TrackerCall (R : Type) where
  | allocate (memoryResource : R) (sizeInBytes alignment : SizeT)
  | reset (memoryResources : List R)
  deriving Repr, DecidableEq

/-- A tracker and what it handed out: everything, and what is live in each memory since its last
reset. Newest first. -/
structure History (R : Type) where
  tracker : MemoryTracker R
  granted : List (Allocation R)
  live : R → List (Allocation R)

namespace History

/-- The history of a tracker that was just built. -/
def start (t : MemoryTracker R) : History R where
  tracker := t
  granted := []
  live := fun _ => []

/-- Record a successful allocation. -/
def record (h : History R) (t : MemoryTracker R) (a : Allocation R) : History R where
  tracker := t
  granted := a :: h.granted
  live := Function.update h.live a.resource (a :: h.live a.resource)

def step (h : History R) : TrackerCall R → History R
  | .allocate r size alignment =>
      match h.tracker.allocate r size alignment with
      | (.ok address, t) => h.record t ⟨r, size, alignment, address⟩
      | (.error _, t) => { h with tracker := t }
  | .reset rs =>
      { h with
        tracker := h.tracker.reset rs
        live := fun r => if r ∈ rs then [] else h.live r }

def run (h : History R) (calls : List (TrackerCall R)) : History R := calls.foldl step h

@[simp] theorem run_nil (h : History R) : h.run [] = h := rfl

@[simp] theorem run_cons (h : History R) (c : TrackerCall R) (cs : List (TrackerCall R)) :
    h.run (c :: cs) = (h.step c).run cs := rfl

theorem run_append (h : History R) (cs ds : List (TrackerCall R)) :
    h.run (cs ++ ds) = (h.run cs).run ds := List.foldl_append

end History

/-- No allocation gets past the bound check by wrapping around: where the end of the aligned bytes,
reduced to a `size_t`, is within the capacity, it is one already. An alignment of `0`, which
`alignAddress` takes to mean none, is asked for at address `0` only. -/
def NoWrap (t : MemoryTracker R) : TrackerCall R → Prop
  | .allocate r size alignment =>
      ∀ current ∈ t.nextAddress r, ∀ capacity ∈ t.capacities r,
        (roundUp current.toNat alignment.toNat + size.toNat) % 2 ^ 64 ≤ capacity.toNat →
          roundUp current.toNat alignment.toNat + size.toNat < 2 ^ 64 ∧
          (alignment = 0 → current = 0)
  | .reset _ => True

-- Through the `Option`s: the default instance for `∀ current` tries all `2 ^ 64` of them.
instance (t : MemoryTracker R) : DecidablePred (NoWrap t)
  | .allocate r _ _ =>
      @Option.decidableForallMem _ _ (fun _ => @Option.decidableForallMem _ _ _ (t.capacities r))
        (t.nextAddress r)
  | .reset _ => isTrue trivial

/-- No call of a run wraps. -/
def NoWrapAlong (h : History R) : List (TrackerCall R) → Prop
  | [] => True
  | c :: cs => NoWrap h.tracker c ∧ NoWrapAlong (h.step c) cs

instance NoWrapAlong.decidable (h : History R) : DecidablePred (NoWrapAlong h)
  | [] => isTrue trivial
  | c :: cs =>
      have := NoWrapAlong.decidable (h.step c) cs
      inferInstanceAs (Decidable (NoWrap h.tracker c ∧ NoWrapAlong (h.step c) cs))

theorem noWrapAlong_append {h : History R} {cs ds : List (TrackerCall R)} :
    NoWrapAlong h (cs ++ ds) ↔ NoWrapAlong h cs ∧ NoWrapAlong (h.run cs) ds := by
  induction cs generalizing h with
  | nil => simp [NoWrapAlong]
  | cons c cs ih => simp only [List.cons_append, NoWrapAlong, ih, History.run_cons, and_assoc]

/-- What a successful allocation promises about itself. -/
structure Honoured (t : MemoryTracker R) (a : Allocation R) : Prop where
  aligned : a.alignment.toNat ∣ a.address.toNat
  above_reserved : ∃ reserved, t.reserved a.resource = some reserved ∧
    reserved.toNat ≤ a.address.toNat
  within_capacity : ∃ capacity, t.capacities a.resource = some capacity ∧
    a.address.toNat + a.sizeInBytes.toNat ≤ capacity.toNat

/-- What a history promises about the tracker `t` it started from. -/
structure Safe (t : MemoryTracker R) (h : History R) : Prop where
  honoured : ∀ a ∈ h.granted, Honoured t a
  /-- The bytes handed out of a memory since its last reset are disjoint. -/
  disjoint : ∀ r, (h.live r).Pairwise fun a b => Disjoint a.grant.bytes b.grant.bytes
  /-- The next refused allocation changes no mark. -/
  error_unchanged : ∀ r size alignment e t', h.tracker.allocate r size alignment = (.error e, t') →
    ∀ r', t'.nextAddress r' = h.tracker.nextAddress r'

/-! ## One call -/

namespace MemoryTracker

/-- The address is the least aligned one that is free, reduced to a `size_t`. -/
theorem alignAddress_toNat (address alignment : SizeT) :
    (alignAddress address alignment).toNat =
      roundUp address.toNat alignment.toNat % 2 ^ 64 := by
  have hle : (alignment ≤ 1) = (alignment.toNat ≤ 1) := by
    rw [BitVec.le_def]
    rfl
  have hzero : (address % alignment = 0) = (address.toNat % alignment.toNat = 0) := by
    rw [← BitVec.toNat_inj, BitVec.toNat_umod]
    rfl
  have haddr := address.isLt
  unfold alignAddress roundUp
  simp only [hle, hzero]
  by_cases h1 : alignment.toNat ≤ 1
  · simp only [h1, if_true]
    omega
  · by_cases h0 : address.toNat % alignment.toNat = 0
    · simp only [h1, h0, if_true, if_false]
      omega
    · simp only [h1, h0, if_false]
      have hlt : address.toNat % alignment.toNat < alignment.toNat := Nat.mod_lt _ (by omega)
      have hal := alignment.isLt
      rw [BitVec.toNat_add, BitVec.toNat_sub, BitVec.toNat_umod]
      omega

/-- Without wrapping, the address and the new mark are what they are in unbounded integers. -/
theorem alignAddress_add_toNat {current alignment size : SizeT}
    (h : roundUp current.toNat alignment.toNat + size.toNat < 2 ^ 64) :
    (alignAddress current alignment).toNat = roundUp current.toNat alignment.toNat ∧
    (alignAddress current alignment + size).toNat =
      roundUp current.toNat alignment.toNat + size.toNat := by
  have haddr : (alignAddress current alignment).toNat =
      roundUp current.toNat alignment.toNat := by
    rw [alignAddress_toNat, Nat.mod_eq_of_lt (by omega)]
  refine ⟨haddr, ?_⟩
  rw [BitVec.toNat_add, haddr, Nat.mod_eq_of_lt h]

/-- The two ways a call of `allocate` can end. -/
theorem allocate_cases (t : MemoryTracker R) (r : R) (size alignment : SizeT) :
    (∃ e, t.allocate r size alignment = (.error e, t)) ∨
    ∃ current capacity, t.nextAddress r = some current ∧ t.capacities r = some capacity ∧
      alignAddress current alignment + size ≤ capacity ∧
      t.allocate r size alignment = (.ok (alignAddress current alignment),
        { t with nextAddress :=
            Function.update t.nextAddress r (some (alignAddress current alignment + size)) }) := by
  unfold allocate
  cases hnext : t.nextAddress r with
  | none => exact Or.inl ⟨_, rfl⟩
  | some current =>
      cases hcap : t.capacities r with
      | none => exact Or.inl ⟨_, rfl⟩
      | some capacity =>
          by_cases hfit : alignAddress current alignment + size > capacity
          · exact Or.inl ⟨.exceedsCapacity size alignment r capacity
              (current - (t.reserved r).getD 0), by simp [hfit]⟩
          · refine Or.inr ⟨current, capacity, rfl, rfl, ?_, by simp [hfit]⟩
            rw [BitVec.le_def]
            rw [gt_iff_lt, BitVec.lt_def] at hfit
            omega

/-- A failing allocation leaves the tracker as it is. -/
theorem allocate_error {t t' : MemoryTracker R} {r : R} {size alignment : SizeT}
    {e : AllocateError R} (h : t.allocate r size alignment = (.error e, t')) : t' = t := by
  rcases allocate_cases t r size alignment with ⟨e', he⟩ | ⟨_, _, _, _, _, hok⟩
  · rw [he] at h
    cases h
    rfl
  · rw [hok] at h
    cases h

/-- A successful allocation that does not wrap takes the next aligned bytes of its memory. -/
theorem allocate_ok {t t' : MemoryTracker R} {r : R} {size alignment address : SizeT}
    (h : t.allocate r size alignment = (.ok address, t'))
    (hw : NoWrap t (.allocate r size alignment)) :
    ∃ current capacity next, t.nextAddress r = some current ∧ t.capacities r = some capacity ∧
      address.toNat = roundUp current.toNat alignment.toNat ∧
      next.toNat = address.toNat + size.toNat ∧ next.toNat ≤ capacity.toNat ∧
      (alignment = 0 → current = 0) ∧
      t' = { t with nextAddress := Function.update t.nextAddress r (some next) } := by
  rcases allocate_cases t r size alignment with ⟨e, he⟩ | ⟨current, capacity, hcur, hcap, hfit, hok⟩
  · rw [he] at h
    cases h
  · rw [hok] at h
    cases h
    have hfit := BitVec.le_def.mp hfit
    have hwrapped : (roundUp current.toNat alignment.toNat + size.toNat) % 2 ^ 64 ≤
        capacity.toNat := by
      rw [BitVec.toNat_add, alignAddress_toNat] at hfit
      omega
    obtain ⟨hsum, hzero⟩ := hw current hcur capacity hcap hwrapped
    obtain ⟨haddr, hend⟩ := alignAddress_add_toNat hsum
    exact ⟨current, capacity, _, hcur, hcap, haddr, hend.trans (by rw [haddr]), hfit, hzero, rfl⟩

@[simp] theorem resetOne_reserved (t : MemoryTracker R) (r : R) :
    (t.resetOne r).reserved = t.reserved := by
  unfold resetOne
  split <;> rfl

@[simp] theorem resetOne_capacities (t : MemoryTracker R) (r : R) :
    (t.resetOne r).capacities = t.capacities := by
  unfold resetOne
  split <;> rfl

theorem resetOne_nextAddress (t : MemoryTracker R) (r r' : R) :
    (t.resetOne r).nextAddress r' =
      if r' = r then (t.nextAddress r).map fun _ => (t.reserved r).getD 0 else t.nextAddress r' := by
  unfold resetOne
  by_cases hr : r' = r
  · subst hr
    cases h : t.nextAddress r' <;> simp [h]
  · cases h : t.nextAddress r <;> simp [hr]

@[simp] theorem reset_reserved (t : MemoryTracker R) (rs : List R) :
    (t.reset rs).reserved = t.reserved := by
  unfold reset
  induction rs generalizing t with
  | nil => rfl
  | cons r rs ih => rw [List.foldl_cons, ih, resetOne_reserved]

@[simp] theorem reset_capacities (t : MemoryTracker R) (rs : List R) :
    (t.reset rs).capacities = t.capacities := by
  unfold reset
  induction rs generalizing t with
  | nil => rfl
  | cons r rs ih => rw [List.foldl_cons, ih, resetOne_capacities]

/-- `reset` puts the listed memories back to their reserved bytes and no other. -/
theorem reset_nextAddress (t : MemoryTracker R) (rs : List R) (r : R) :
    (t.reset rs).nextAddress r =
      if r ∈ rs then (t.nextAddress r).map fun _ => (t.reserved r).getD 0 else t.nextAddress r := by
  unfold reset
  induction rs generalizing t with
  | nil => simp
  | cons r₀ rs ih =>
      rw [List.foldl_cons, ih, resetOne_nextAddress, resetOne_reserved]
      by_cases h0 : r = r₀
      · subst h0
        cases t.nextAddress r <;> simp
      · simp [h0]

/-! ## The constructor -/

/-- Every memory the tracker hands out from has a capacity, and its reserved bytes lie below the
mark. -/
def WellFormed (t : MemoryTracker R) : Prop :=
  ∀ r current, t.nextAddress r = some current →
    ∃ reserved capacity, t.reserved r = some reserved ∧ t.capacities r = some capacity ∧
      reserved.toNat ≤ current.toNat

theorem addNode_wellFormed {t : MemoryTracker R} (node : MemoryNode R) (h : t.WellFormed) :
    (t.addNode node).WellFormed := by
  unfold addNode
  cases hcap : node.capacityInBytes with
  | none => exact h
  | some capacity =>
      intro r current hr
      by_cases hres : r = node.memoryResource
      · subst hres
        simp only [Function.update_self, Option.some.injEq] at hr
        subst hr
        exact ⟨node.reservedInBytes.getD 0, capacity, by simp, by simp, Nat.le_refl _⟩
      · simp only [Function.update_of_ne hres] at hr ⊢
        exact h r current hr

/-- The constructor's loop keeps whatever recording one node of the tree keeps. -/
theorem ofTree_induction (tree : MemoryTree R) (P : MemoryTracker R → Prop) (h0 : P empty)
    (hstep : ∀ t, P t → ∀ node ∈ tree.nodes, P (t.addNode node)) : P (ofTree tree) := by
  unfold ofTree
  generalize tree.getAllNodeIds = ids
  suffices h : ∀ t, P t → P (ids.foldl (addNodeOf tree) t) from h empty h0
  induction ids with
  | nil => exact fun t ht => ht
  | cons id ids ih =>
      intro t ht
      rw [List.foldl_cons]
      apply ih
      unfold addNodeOf
      cases hid : tree.getNode id with
      | none => exact ht
      | some node => exact hstep t ht node (tree.mem_nodes_of_getNode hid)

theorem ofTree_wellFormed (tree : MemoryTree R) : (ofTree tree).WellFormed :=
  ofTree_induction tree WellFormed (fun _ _ hr => by cases hr)
    fun _ ht node _ => addNode_wellFormed node ht

/-- The tracker of a tree knows canonical resources only. -/
theorem ofTree_canonical (tree : MemoryTree R) {r : R} {reserved : SizeT}
    (h : (ofTree tree).reserved r = some reserved) : (tree.resourceToNode r).isSome := by
  refine ofTree_induction tree
    (fun t => ∀ r reserved, t.reserved r = some reserved → (tree.resourceToNode r).isSome)
    (fun _ _ hr => by cases hr) ?_ r reserved h
  intro t ht node hnode r reserved hr
  unfold addNode at hr
  cases hcap : node.capacityInBytes with
  | none =>
      rw [hcap] at hr
      exact ht r reserved hr
  | some capacity =>
      rw [hcap] at hr
      by_cases hres : r = node.memoryResource
      · rw [hres]
        exact tree.isSome_resourceToNode node hnode
      · simp only [Function.update_of_ne hres] at hr
        exact ht r reserved hr

end MemoryTracker

/-! ## Simulation by arenas -/

namespace History

/-- Memory `r` of the history is the arena `A`, read in unbounded integers. -/
structure Holds (h : History R) (r : R) (A : Arena) : Prop where
  reserved : ∃ reserved, h.tracker.reserved r = some reserved ∧ reserved.toNat = A.start
  capacity : ∃ capacity, h.tracker.capacities r = some capacity ∧ capacity.toNat = A.limit
  next : ∃ next, h.tracker.nextAddress r = some next ∧ next.toNat = A.next
  live : (h.live r).map Allocation.grant = A.live

/-- A memory the tracker hands nothing out from. -/
structure Untracked (h : History R) (r : R) : Prop where
  next : h.tracker.nextAddress r = none
  live : h.live r = []

/-- Every memory of the history is an arena, except those the tracker does not know. -/
def Simulates (h : History R) : Prop := ∀ r, h.Untracked r ∨ ∃ A, h.Holds r A

omit [DecidableEq R] in
theorem start_simulates {t : MemoryTracker R} (h : t.WellFormed) : (start t).Simulates := by
  intro r
  cases hr : t.nextAddress r with
  | none => exact Or.inl ⟨hr, rfl⟩
  | some current =>
      obtain ⟨reserved, capacity, hres, hcap, hle⟩ := h r current hr
      exact Or.inr ⟨Arena.empty reserved.toNat capacity.toNat current.toNat hle,
        ⟨reserved, hres, rfl⟩, ⟨capacity, hcap, rfl⟩, ⟨current, hr, rfl⟩, rfl⟩

/-- What an `allocate` does to a history: it is refused, or it is recorded. -/
theorem step_allocate (h : History R) (r : R) (size alignment : SizeT) :
    h.step (.allocate r size alignment) = h ∨
    ∃ address t, h.tracker.allocate r size alignment = (.ok address, t) ∧
      h.step (.allocate r size alignment) = h.record t ⟨r, size, alignment, address⟩ := by
  rcases h.tracker.allocate_cases r size alignment with ⟨e, he⟩ | ⟨_, _, _, _, _, hok⟩
  · exact Or.inl (by simp only [step, he])
  · exact Or.inr ⟨_, _, hok, by simp only [step, hok]⟩

/-- Handing out bytes above the mark of `r` leaves every other memory alone and moves `r` on. -/
theorem record_simulates {h : History R} (hs : h.Simulates) {a : Allocation R}
    {current capacity next : SizeT} (hcur : h.tracker.nextAddress a.resource = some current)
    (hcap : h.tracker.capacities a.resource = some capacity)
    (hlo : current.toNat ≤ a.address.toNat)
    (hnext : next.toNat = a.address.toNat + a.sizeInBytes.toNat)
    (hhi : next.toNat ≤ capacity.toNat) :
    (h.record { h.tracker with
      nextAddress := Function.update h.tracker.nextAddress a.resource (some next) } a).Simulates := by
  intro r
  by_cases hr : r = a.resource
  · subst hr
    rcases hs a.resource with hu | ⟨A, hA⟩
    · rw [hu.next] at hcur
      cases hcur
    · obtain ⟨capacity', hcap', hlimit⟩ := hA.capacity
      obtain ⟨current', hcur', hmark⟩ := hA.next
      rw [hcap, Option.some.injEq] at hcap'
      rw [hcur, Option.some.injEq] at hcur'
      subst hcap' hcur'
      have hg : a.grant.endAddress = next.toNat := hnext.symm
      refine Or.inr ⟨A.grant a.grant (hmark ▸ hlo) (by rw [hg, ← hlimit]; exact hhi), ?_⟩
      refine ⟨hA.reserved, hA.capacity, ⟨next, by simp [record], hg.symm⟩, ?_⟩
      simp [record, Arena.grant, hA.live]
  · rcases hs r with hu | ⟨A, hA⟩
    · refine Or.inl ⟨?_, ?_⟩
      · simpa [record, Function.update_of_ne hr] using hu.next
      · simpa [record, Function.update_of_ne hr] using hu.live
    · refine Or.inr ⟨A, hA.reserved, hA.capacity, ?_, ?_⟩
      · simpa [record, Function.update_of_ne hr] using hA.next
      · simpa [record, Function.update_of_ne hr] using hA.live

theorem reset_simulates {h : History R} (hs : h.Simulates) (rs : List R) :
    (h.step (.reset rs)).Simulates := by
  intro r
  rcases hs r with hu | ⟨A, hA⟩
  · refine Or.inl ⟨?_, ?_⟩
    · simp [step, MemoryTracker.reset_nextAddress, hu.next]
    · simp [step, hu.live]
  · by_cases hr : r ∈ rs
    · obtain ⟨reserved, hres, hstart⟩ := hA.reserved
      obtain ⟨current, hcur, -⟩ := hA.next
      refine Or.inr ⟨A.reset, ?_, ?_, ⟨reserved, ?_, hstart⟩, ?_⟩
      · simpa [step] using hA.reserved
      · simpa [step] using hA.capacity
      · simp [step, MemoryTracker.reset_nextAddress, hr, hcur, hres]
      · simp [step, hr]
    · refine Or.inr ⟨A, ?_, ?_, ?_, ?_⟩
      · simpa [step] using hA.reserved
      · simpa [step] using hA.capacity
      · simpa [step, MemoryTracker.reset_nextAddress, hr] using hA.next
      · simpa [step, hr] using hA.live

/-- A step that does not wrap keeps the simulation. -/
theorem step_simulates {h : History R} (hs : h.Simulates) {c : TrackerCall R}
    (hw : NoWrap h.tracker c) : (h.step c).Simulates := by
  cases c with
  | reset rs => exact reset_simulates hs rs
  | allocate r size alignment =>
      rcases h.step_allocate r size alignment with heq | ⟨address, t, hok, heq⟩
      · rw [heq]
        exact hs
      · obtain ⟨current, capacity, next, hcur, hcap, haddr, hnext, hhi, -, rfl⟩ :=
          MemoryTracker.allocate_ok hok hw
        have hlo : current.toNat ≤ address.toNat := haddr ▸ le_roundUp _ _
        rw [heq]
        exact record_simulates (a := ⟨r, size, alignment, address⟩) hs hcur hcap hlo hnext hhi

@[simp] theorem step_reserved (h : History R) (c : TrackerCall R) :
    (h.step c).tracker.reserved = h.tracker.reserved := by
  cases c with
  | reset rs => simp [step]
  | allocate r size alignment =>
      rcases h.tracker.allocate_cases r size alignment with ⟨e, he⟩ | ⟨_, _, _, _, _, hok⟩
      · simp only [step, he]
      · simp only [step, hok, record]

@[simp] theorem step_capacities (h : History R) (c : TrackerCall R) :
    (h.step c).tracker.capacities = h.tracker.capacities := by
  cases c with
  | reset rs => simp [step]
  | allocate r size alignment =>
      rcases h.tracker.allocate_cases r size alignment with ⟨e, he⟩ | ⟨_, _, _, _, _, hok⟩
      · simp only [step, he]
      · simp only [step, hok, record]

/-- Every allocation of the history keeps its promises. -/
def AllHonoured (h : History R) : Prop := ∀ a ∈ h.granted, Honoured h.tracker a

theorem step_allHonoured {h : History R} (hs : h.Simulates) (hh : h.AllHonoured)
    {c : TrackerCall R} (hw : NoWrap h.tracker c) : (h.step c).AllHonoured := by
  have hold : ∀ a ∈ h.granted, Honoured (h.step c).tracker a := by
    intro a ha
    have hp := hh a ha
    exact ⟨hp.aligned, by simpa using hp.above_reserved, by simpa using hp.within_capacity⟩
  cases c with
  | reset rs => exact hold
  | allocate r size alignment =>
      rcases h.step_allocate r size alignment with heq | ⟨address, t, hok, heq⟩
      · rw [heq]
        exact hh
      · obtain ⟨current, capacity, next, hcur, hcap, haddr, hnext, hhi, hzero, rfl⟩ :=
          MemoryTracker.allocate_ok hok hw
        rw [heq] at hold ⊢
        intro a ha
        rcases List.mem_cons.mp ha with rfl | ha
        · refine ⟨?_, ?_, capacity, hcap, hnext ▸ hhi⟩
          · by_cases ha0 : 0 < alignment.toNat
            · exact haddr ▸ dvd_roundUp _ ha0
            · have hal : alignment = 0 := by
                rw [← BitVec.toNat_inj]
                exact Nat.eq_zero_of_not_pos ha0
              have haddr0 : address.toNat = 0 := by
                rw [haddr, hzero hal, hal]
                rfl
              exact haddr0 ▸ Nat.dvd_zero _
          · rcases hs r with hu | ⟨A, hA⟩
            · rw [hu.next] at hcur
              cases hcur
            · obtain ⟨reserved, hres, hstart⟩ := hA.reserved
              obtain ⟨current', hcur', hmark⟩ := hA.next
              rw [hcur, Option.some.injEq] at hcur'
              subst hcur'
              refine ⟨reserved, hres, ?_⟩
              calc reserved.toNat = A.start := hstart
                _ ≤ A.next := A.start_le_next
                _ = current.toNat := hmark.symm
                _ ≤ roundUp current.toNat alignment.toNat := le_roundUp _ _
                _ = address.toNat := haddr.symm
        · exact hold a ha

@[simp] theorem run_reserved (h : History R) (calls : List (TrackerCall R)) :
    (h.run calls).tracker.reserved = h.tracker.reserved := by
  induction calls generalizing h with
  | nil => rfl
  | cons c cs ih => rw [run_cons, ih, step_reserved]

@[simp] theorem run_capacities (h : History R) (calls : List (TrackerCall R)) :
    (h.run calls).tracker.capacities = h.tracker.capacities := by
  induction calls generalizing h with
  | nil => rfl
  | cons c cs ih => rw [run_cons, ih, step_capacities]

/-- A run that does not wrap keeps the simulation. -/
theorem run_simulates {h : History R} (hs : h.Simulates) {calls : List (TrackerCall R)}
    (hw : NoWrapAlong h calls) : (h.run calls).Simulates := by
  induction calls generalizing h with
  | nil => exact hs
  | cons c cs ih => exact ih (step_simulates hs hw.1) hw.2

/-- A run that does not wrap keeps every promise. -/
theorem run_allHonoured {h : History R} (hs : h.Simulates) (hh : h.AllHonoured)
    {calls : List (TrackerCall R)} (hw : NoWrapAlong h calls) : (h.run calls).AllHonoured := by
  induction calls generalizing h with
  | nil => exact hh
  | cons c cs ih => exact ih (step_simulates hs hw.1) (step_allHonoured hs hh hw.1) hw.2

omit [DecidableEq R] in
/-- The live allocations of a memory are those of its arena, so they share no byte. -/
theorem Simulates.disjoint {h : History R} (hs : h.Simulates) (r : R) :
    (h.live r).Pairwise fun a b => Disjoint a.grant.bytes b.grant.bytes := by
  rcases hs r with hu | ⟨A, hA⟩
  · rw [hu.live]
    exact List.Pairwise.nil
  · have hd := A.disjoint
    rw [← hA.live, List.pairwise_map] at hd
    exact hd

/-- **A run whose calls do not wrap is safe**: every address handed out is aligned, above the
reserved bytes and fits the capacity, the live bytes of each memory are disjoint, and a refused
allocation leaves the tracker as it is. -/
theorem run_safe (tree : MemoryTree R) (calls : List (TrackerCall R))
    (hw : NoWrapAlong (start (MemoryTracker.ofTree tree)) calls) :
    Safe (MemoryTracker.ofTree tree) ((start (MemoryTracker.ofTree tree)).run calls) := by
  have hstart := start_simulates (MemoryTracker.ofTree_wellFormed tree)
  have hh := run_allHonoured hstart (fun a ha => by cases ha) hw
  refine ⟨fun a ha => ?_, (run_simulates hstart hw).disjoint, ?_⟩
  · have hp := hh a ha
    refine ⟨hp.aligned, ?_, ?_⟩
    · simpa [start] using hp.above_reserved
    · simpa [start] using hp.within_capacity
  · intro r size alignment e t' herr r'
    rw [MemoryTracker.allocate_error herr]

/-- A device with one memory of 16 bytes. -/
def sixteenBytes : MemoryTree Unit where
  nodes := [⟨0, (), none, none, [], some 16, none⟩]
  resourceToNode := fun _ => some 0
  aliasToNode := fun _ => none
  nodup_ids := by decide
  isSome_resourceToNode := by simp
  resource_of_resourceToNode := by simp

theorem run_safe_sixteenBytes :
    Safe (MemoryTracker.ofTree sixteenBytes) ((start (MemoryTracker.ofTree sixteenBytes)).run
      [.allocate () 3 2, .reset [()], .allocate () 8 4, .allocate () 5 4]) :=
  run_safe sixteenBytes _ (by decide +kernel)

/-- Near the limit the bound check wraps: of 16 bytes, 8 are handed out, then `2 ^ 64 - 4` more, and
the mark is back at 4, inside the bytes already out. -/
theorem not_run_safe_wrapping :
    sixteenBytes.ReservedWithinCapacity ∧
    ¬ Safe (MemoryTracker.ofTree sixteenBytes) ((start (MemoryTracker.ofTree sixteenBytes)).run
      [.allocate () 8 1, .allocate () (-4) 1]) := by
  refine ⟨by decide +kernel, fun hsafe => ?_⟩
  obtain ⟨capacity, hcap, hfit⟩ :=
    (hsafe.honoured ⟨(), -4, 1, 8⟩ (by decide +kernel)).within_capacity
  have h16 : capacity = 16 := (Option.some.inj hcap).symm
  rw [h16] at hfit
  exact absurd hfit (by decide)

end History

end DataflowScheduler
