import DataflowScheduler.Conversion.KTDFLowToDFIR.SyncedTransfers

/-!
# Fills, synchronizations and indirect transfers on a path

A synchronization is on a path wherever the event is that it was put in front of. So it stands between
a fill and the transfer exactly if the event does, and what the events of a body can come between is a
matter of its loops and guards.
-/

namespace DataflowScheduler

namespace SelfSync

open ControlFlow ControlFlow.Body ControlFlow.Event

variable {p : ProgramUnit}

/-! ### From the paths of the lowered body to those of the source -/

/-- What a synchronization at `pos` has to do for a transfer, in terms of the source. -/
structure SyncedAt (p : ProgramUnit) (transfer : OpId) (pos : Option (Event OpId)) : Prop where
  between : ∀ fill, fills p transfer fill = true → ∀ u, p.body.Path u → ∀ before mid after,
    u = before ++ enter fill :: (mid ++ enter transfer :: after) →
      ∃ ev ∈ mid ++ [enter transfer], pos = some ev
  afterFill : ∀ ev, pos = some ev → ∀ u, p.body.Path u → Preceded (fills p transfer) ev u

/-- The event in front of which the synchronization of a transfer is put. -/
def syncPoint (p : ProgramUnit) (transfer : OpId) (iab : Value) : Option (Event OpId) :=
  (fillInFront p transfer iab).map (insertionPoint p.body transfer)

section Expanded

variable {ins : List (Event OpId × OpId)} (hsync : ∀ c ∈ ins, ∃ s, c.2 = .sync s)

include hsync

theorem expandAll_split {x : Event OpId} {n : Nat} {s₁ s₂ : List (Event OpId)}
    (h : expandAll ins x = s₁ ++ enter (.source n) :: s₂) :
    x = enter (.source n) ∧ s₁ = (ins.filter (·.1 = x)).map (enter ·.2) ∧ s₂ = [] := by
  rw [expandAll] at h
  rcases split_append h with ⟨r, hr⟩ | ⟨r, hr, hx⟩
  · -- what was put in is a synchronization
    exfalso
    have hmem : enter (.source n) ∈ (ins.filter (·.1 = x)).map (enter ·.2) :=
      hr ▸ List.mem_append_right _ List.mem_cons_self
    obtain ⟨c, hc, heq⟩ := List.mem_map.mp hmem
    obtain ⟨s, hs⟩ := hsync c (List.mem_filter.mp hc).1
    rw [hs] at heq
    exact absurd heq (by simp)
  · cases r with
    | nil =>
      obtain ⟨rfl, rfl⟩ := List.cons.inj hx
      exact ⟨rfl, by rw [hr, List.append_nil], rfl⟩
    | cons y r => exact absurd (List.cons.inj hx).2.symm (by simp)

theorem enter_source_mem {u : List (Event OpId)} {n : Nat} :
    enter (.source n) ∈ u.flatMap (expandAll ins) ↔ enter (.source n) ∈ u := by
  rw [List.mem_flatMap]
  constructor
  · rintro ⟨x, hx, hmem⟩
    obtain ⟨s₁, s₂, hsplit⟩ := List.append_of_mem hmem
    exact (expandAll_split hsync hsplit).1 ▸ hx
  · intro hmem
    exact ⟨_, hmem, List.mem_append_right _ (List.mem_singleton.mpr rfl)⟩

omit hsync in
theorem enter_sync_mem {u : List (Event OpId)} {s : OpId} (hu : enter (.sync s) ∉ u) :
    enter (.sync s) ∈ u.flatMap (expandAll ins) ↔ ∃ ev ∈ u, (ev, OpId.sync s) ∈ ins := by
  rw [List.mem_flatMap]
  constructor
  · rintro ⟨x, hx, hmem⟩
    rcases List.mem_append.mp hmem with hmem | hmem
    · obtain ⟨⟨ev, s'⟩, hc, heq⟩ := List.mem_map.mp hmem
      obtain ⟨hins, hev⟩ := List.mem_filter.mp hc
      obtain rfl : ev = x := by simpa using hev
      obtain rfl : s' = .sync s := Event.enter.inj heq
      exact ⟨ev, hx, hins⟩
    · exact absurd (List.mem_singleton.mp hmem ▸ hx) hu
  · rintro ⟨ev, hev, hins⟩
    refine ⟨ev, hev, List.mem_append_left _ (List.mem_map.mpr ⟨(ev, .sync s), ?_, rfl⟩)⟩
    exact List.mem_filter.mpr ⟨hins, by simp⟩

end Expanded

theorem fills_ops {transfer fill : OpId} (h : fills p transfer fill = true) :
    ∃ iab destination, p.body.op? transfer = some (.indDataTransfer iab) ∧
      p.body.op? fill = some (.dataTransfer destination) ∧ sameBuffer p iab destination = true := by
  rw [fills] at h
  split at h
  · next iab destination hiab hdest => exact ⟨iab, destination, hiab, hdest, h⟩
  · exact absurd h Bool.false_ne_true

section Sources

variable (h : WellFormed p)

include h

theorem source_of_op? {op : OpId} {o : Op} (hop : p.body.op? op = some o) : ∃ n, op = .source n :=
  h.source op (leaves_subset _ (mem_leaves_of_op? hop))

theorem sync_notMem {u : List (Event OpId)} {s : OpId} (hu : p.body.Path u) :
    enter (.sync s) ∉ u := by
  intro hmem
  obtain ⟨n, hn⟩ := h.source _ (hu.id_mem _ hmem)
  exact absurd hn (by simp)

/-- **Event by event**: the lowered body has no hazard exactly if the events chosen do their part. -/
theorem synchronized_iff : Synchronized p ↔ ∀ transfer iab,
    p.body.op? transfer = some (.indDataTransfer iab) →
      SyncedAt p transfer (syncPoint p transfer iab) := by
  obtain ⟨ins, hlow, hins⟩ := lowered_runOperationLowerings h
  have hsync : ∀ c ∈ ins, ∃ s, c.2 = .sync s := by
    intro c hc
    obtain ⟨op, -, -, -, -, -, -, hs⟩ := (hins c.1 c.2).mp hc
    exact ⟨op, hs⟩
  have hmem : ∀ transfer iab, p.body.op? transfer = some (.indDataTransfer iab) → ∀ ev,
      (ev, .sync transfer) ∈ ins ↔ syncPoint p transfer iab = some ev := by
    intro transfer iab hop ev
    rw [hins, syncPoint, Option.map_eq_some_iff]
    constructor
    · rintro ⟨op, -, iab', fill, hop', hfill, rfl, hs⟩
      obtain rfl := OpId.sync.inj hs
      rw [hop, Option.some.injEq, Op.indDataTransfer.injEq] at hop'
      exact ⟨fill, hop' ▸ hfill, rfl⟩
    · rintro ⟨fill, hfill, rfl⟩
      exact ⟨transfer, mem_leaves_of_op? hop, iab, fill, hop, hfill, rfl, rfl⟩
  constructor
  · intro hs transfer iab hop
    refine ⟨fun fill hfill u hu before mid after heq => ?_, fun ev hev u hu before after heq => ?_⟩
    · have hpath := (hlow.path _).mpr ⟨u, hu, rfl⟩
      have hin := hs.between _ hpath
        (before.flatMap (expandAll ins) ++ (ins.filter (·.1 = enter fill)).map (enter ·.2))
        (mid.flatMap (expandAll ins) ++ (ins.filter (·.1 = enter transfer)).map (enter ·.2))
        (after.flatMap (expandAll ins)) transfer fill hfill (by rw [heq]; simp [expandAll])
      have hall : enter (.sync transfer) ∈ (mid ++ [enter transfer]).flatMap (expandAll ins) := by
        rw [List.flatMap_append, List.flatMap_singleton, expandAll, ← List.append_assoc]
        exact List.mem_append_left _ hin
      have hnot : enter (.sync transfer) ∉ mid ++ [enter transfer] := by
        intro hmem
        apply sync_notMem h (s := transfer) hu
        rw [heq]
        rcases List.mem_append.mp hmem with hmem | hmem
        · simp [hmem]
        · simp [List.mem_singleton.mp hmem]
      obtain ⟨ev, hev, hpos⟩ := (enter_sync_mem hnot).mp hall
      exact ⟨ev, hev, (hmem transfer iab hop ev).mp hpos⟩
    · have hpos := (hmem transfer iab hop ev).mpr hev
      have hpath := (hlow.path _).mpr ⟨u, hu, rfl⟩
      have hput : enter (.sync transfer) ∈ (ins.filter (·.1 = ev)).map (enter ·.2) :=
        List.mem_map.mpr ⟨_, List.mem_filter.mpr ⟨hpos, by simp⟩, rfl⟩
      obtain ⟨s₁, s₂, hsplit⟩ := List.append_of_mem hput
      obtain ⟨fill, hfill, hfmem⟩ := hs.afterFill _ hpath (before.flatMap (expandAll ins) ++ s₁)
        (s₂ ++ (ev :: after.flatMap (expandAll ins))) transfer
        (by rw [heq, List.flatMap_append, List.flatMap_cons, expandAll, hsplit]; simp)
      obtain ⟨_, _, _, hfop, _⟩ := fills_ops hfill
      obtain ⟨n, rfl⟩ := source_of_op? h hfop
      refine ⟨_, hfill, ?_⟩
      rcases List.mem_append.mp hfmem with hfmem | hfmem
      · exact (enter_source_mem hsync).mp hfmem
      · -- the other ops that are put in are synchronizations
        exfalso
        have hput' : enter (.source n) ∈ (ins.filter (·.1 = ev)).map (enter ·.2) :=
          hsplit ▸ List.mem_append_left _ hfmem
        obtain ⟨c, hc, heq'⟩ := List.mem_map.mp hput'
        obtain ⟨s, hs'⟩ := hsync c (List.mem_filter.mp hc).1
        rw [hs'] at heq'
        exact absurd heq' (by simp)
  · intro hat
    refine ⟨fun t ht before mid after transfer fill hfill heq => ?_,
      fun t ht before after transfer heq => ?_⟩
    · obtain ⟨iab, destination, hop, hfop, -⟩ := fills_ops hfill
      obtain ⟨n, rfl⟩ := source_of_op? h hop
      obtain ⟨m, rfl⟩ := source_of_op? h hfop
      obtain ⟨u, hu, rfl⟩ := (hlow.path t).mp ht
      obtain ⟨u₁, x, u₂, s₁, s₂, rfl, hx, -, hrest⟩ := split_flatMap heq
      obtain ⟨rfl, -, rfl⟩ := expandAll_split hsync hx
      obtain ⟨u₃, y, u₄, s₃, s₄, rfl, hy, rfl, -⟩ := split_flatMap hrest.symm
      obtain ⟨rfl, rfl, -⟩ := expandAll_split hsync hy
      obtain ⟨ev, hev, hpos⟩ := (hat _ iab hop).between _ hfill _ hu u₁ u₃ u₄ rfl
      have hins' := (hmem _ iab hop ev).mpr hpos
      have hput : enter (.sync (.source n)) ∈ (ins.filter (·.1 = ev)).map (enter ·.2) :=
        List.mem_map.mpr ⟨_, List.mem_filter.mpr ⟨hins', by simp⟩, rfl⟩
      rcases List.mem_append.mp hev with hev | hev
      · exact List.mem_append_left _
          (List.mem_flatMap.mpr ⟨ev, hev, List.mem_append_left _ hput⟩)
      · exact List.mem_append_right _ (List.mem_singleton.mp hev ▸ hput)
    · obtain ⟨u, hu, rfl⟩ := (hlow.path t).mp ht
      obtain ⟨u₁, x, u₂, s₁, s₂, rfl, hx, rfl, -⟩ := split_flatMap heq
      have hput : enter (.sync transfer) ∈ [x].flatMap (expandAll ins) := by
        rw [List.flatMap_singleton, hx]
        exact List.mem_append_right _ List.mem_cons_self
      have hnot : enter (.sync transfer) ∉ [x] := by
        intro hmem
        apply sync_notMem h (s := transfer) hu
        rw [List.mem_singleton.mp hmem]
        simp
      obtain ⟨ev, hev, hpos⟩ := (enter_sync_mem hnot).mp hput
      obtain rfl := List.mem_singleton.mp hev
      obtain ⟨op, -, iab, fill', hop, -, -, hs⟩ := (hins ev _).mp hpos
      obtain rfl := OpId.sync.inj hs
      obtain ⟨fill, hfill, hfmem⟩ := (hat transfer iab hop).afterFill ev
        ((hmem transfer iab hop ev).mp hpos) _ hu u₁ u₂ rfl
      obtain ⟨_, _, _, hfop, _⟩ := fills_ops hfill
      obtain ⟨n, rfl⟩ := source_of_op? h hfop
      exact ⟨_, hfill, List.mem_append_left _ ((enter_source_mem hsync).mpr hfmem)⟩

end Sources

/-! ### The three kinds of places -/

section Places

variable {transfer : OpId}

/-- Without a synchronization no fill may run before the transfer. -/
theorem syncedAt_none : SyncedAt p transfer none ↔
    ∀ fill, fills p transfer fill = true → p.body.mayPrecede fill transfer = false := by
  constructor
  · intro hs fill hfill
    by_contra hmay
    obtain ⟨u, hu, hsub⟩ := mayPrecede_iff.mp ((Bool.not_eq_false _).mp hmay)
    obtain ⟨before, mid, after, rfl⟩ := pair_sublist_iff.mp hsub
    obtain ⟨ev, -, hev⟩ := hs.between fill hfill _ hu before mid after rfl
    exact absurd hev (by simp)
  · intro hnone
    refine ⟨fun fill hfill u hu before mid after heq => ?_, fun ev hev => absurd hev (by simp)⟩
    have hmay := mayPrecede_of_path hu (pair_sublist_iff.mpr ⟨before, mid, after, heq⟩)
    exact absurd (hnone fill hfill) (by simp [hmay])

/-- At the end of the block of a guarded fill: all others have to be in that block. -/
theorem syncedAt_leave (h : WellFormed p) {fill guardIf : OpId} {side : Bool}
    (hfill : fills p transfer fill = true) (hplace : p.body.place .top fill = some (.inArm guardIf side))
    (hout : transfer ∉ p.body.under (.arm guardIf side)) :
    SyncedAt p transfer (some (leave guardIf side)) ↔ ∀ op, fills p transfer op = true →
      p.body.mayPrecede op transfer = true → op ∈ p.body.under (.arm guardIf side) := by
  constructor
  · intro hs op hop hmay
    by_contra hnot
    obtain ⟨u, hu, hsub⟩ := mayPrecede_iff.mp hmay
    -- the same path with the other arm
    let keep : Event OpId → Bool := fun ev =>
      decide (ev.id ∉ p.body.under (.arm guardIf side)) && decide (ev ≠ leave guardIf side)
    have hkeep : ∀ ev, keep ev = true → ev.id ∉ p.body.under (.arm guardIf side) :=
      fun ev hev => of_decide_eq_true (Bool.and_eq_true_iff.mp hev).1
    obtain ⟨t, ht, hleave, hkept⟩ := exists_path_outside h.nodup hkeep (by simp [keep]) hu
    have hpair : [enter op, enter transfer].Sublist t := by
      have hfilter := hsub.filter keep
      rw [List.filter_cons_of_pos (by simp [keep, hnot]),
        List.filter_cons_of_pos (by simp [keep, hout])] at hfilter
      exact hfilter.trans hkept
    obtain ⟨before, mid, after, rfl⟩ := pair_sublist_iff.mp hpair
    obtain ⟨ev, hev, heq⟩ := hs.between op hop _ ht before mid after rfl
    obtain rfl := Option.some.inj heq
    apply hleave
    rcases List.mem_append.mp hev with hev | hev
    · simp [hev]
    · simp [List.mem_singleton.mp hev]
  · intro hall
    refine ⟨fun op hop u hu before mid after heq => ?_, fun ev hev u hu => ?_⟩
    · have hmay := mayPrecede_of_path hu (pair_sublist_iff.mpr ⟨before, mid, after, heq⟩)
      exact ⟨_, List.mem_append_left _ (hu.leave_between h.nodup (hall op hop hmay) hout heq), rfl⟩
    · obtain rfl := Option.some.inj hev
      exact preceded_leave_of_place h.nodup hplace (by simp) hfill hu

/-- In front of the transfer or of a loop around it: no fill may be inside, and one has to be before. -/
theorem syncedAt_enter (h : WellFormed p) {x : OpId} (htransfer : transfer ∈ p.body.leaves)
    (hin : transfer ∈ p.body.under (.op x)) (hx : x = transfer ∨ x ∈ p.body.loops) :
    SyncedAt p transfer (some (enter x)) ↔
      (∀ op, fills p transfer op = true → op ∉ p.body.under (.op x)) ∧
        p.body.mustPrecede (fills p transfer) transfer = true := by
  have hleaf : ∀ op, fills p transfer op = true → op ∈ p.body.leaves ∧ op ≠ transfer := by
    intro op hop
    obtain ⟨iab, destination, htop, hfop, -⟩ := fills_ops hop
    refine ⟨mem_leaves_of_op? hfop, ?_⟩
    rintro rfl
    rw [htop] at hfop
    exact absurd hfop (by simp)
  have hne : ∀ op, fills p transfer op = true → op ≠ x := by
    rintro op hop rfl
    rcases hx with hx | hx
    · exact (hleaf op hop).2 hx
    · exact notMem_leaves_of_mem_loops h.nodup hx (hleaf op hop).1
  have hafter : (∀ op, fills p transfer op = true → op ∉ p.body.under (.op x)) →
      ((∀ ev, some (enter x) = some ev → ∀ u, p.body.Path u → Preceded (fills p transfer) ev u) ↔
        p.body.mustPrecede (fills p transfer) transfer = true) := by
    intro hnone
    rw [← mustPrecede_under h.nodup hin fun op hop => ?_, mustPrecede_iff]
    · constructor
      · exact fun hall u hu => hall _ rfl u hu
      · intro hall ev hev u hu
        exact Option.some.inj hev ▸ hall u hu
    · by_contra hf
      exact hnone op ((Bool.not_eq_false _).mp hf) hop
  constructor
  · intro hs
    have hnone : ∀ op, fills p transfer op = true → op ∉ p.body.under (.op x) := by
      intro op hop hmem
      rcases hx with rfl | hx
      · rw [under_of_mem_leaves h.nodup htransfer] at hmem
        exact (hleaf op hop).2 (List.mem_singleton.mp hmem)
      · -- a second iteration of the loop
        have htx : transfer ≠ x := by
          rintro rfl
          exact notMem_leaves_of_mem_loops h.nodup hx htransfer
        obtain ⟨before, mid, after, hpath, hnot⟩ :=
          exists_path_within h.nodup hx hmem hin (hne op hop) htx
        obtain ⟨ev, hev, heq⟩ := hs.between op hop _ hpath before mid after rfl
        obtain rfl := Option.some.inj heq
        rcases List.mem_append.mp hev with hev | hev
        · exact hnot hev
        · exact htx (Event.enter.inj (List.mem_singleton.mp hev)).symm
    exact ⟨hnone, (hafter hnone).mp hs.afterFill⟩
  · rintro ⟨hnone, hmust⟩
    refine ⟨fun op hop u hu before mid after heq => ?_, (hafter hnone).mpr hmust⟩
    exact ⟨_, hu.enter_between h.nodup hin (hnone op hop) (hne op hop) heq, rfl⟩

end Places

/-! ### Hoisting -/

theorem hoist_eq (blocks : List (Place OpId)) (op : OpId) (l : List (Ancestor OpId)) :
    hoist blocks op l =
      ((((l.filter (·.isLoop)).takeWhile (·.place ∉ blocks)).getLast?).map (·.id)).getD op := by
  induction l generalizing op with
  | nil => rfl
  | cons k l ih =>
    rw [hoist, List.filter_cons]
    split
    · rw [List.takeWhile_cons]
      by_cases hk : k.place ∈ blocks
      · simp [hk]
      · rw [if_neg hk, if_pos (by simpa using hk), ih]
        cases hl : ((l.filter (·.isLoop)).takeWhile (·.place ∉ blocks)).getLast? with
        | none => rw [List.getLast?_eq_none_iff.mp hl]; rfl
        | some k' => rw [List.getLast?_cons, hl]; rfl
    · exact ih op

/-- The op that hoisting ends at holds the transfer, and all the loops that were passed. -/
theorem hoisted (h : WellFormed p) {transfer : OpId} (fill : OpId) (htransfer : transfer ∈ p.body.leaves)
    (hself : fills p transfer transfer = false) {x : OpId}
    (hx : x = hoist (fillAncestorBlocks p.body fill) transfer
      (p.body.around .top transfer).reverse) :
    (x = transfer ∨ x ∈ p.body.loops) ∧ transfer ∈ p.body.under (.op x) ∧
      ((∀ op, fills p transfer op = true → op ∉ p.body.under (.op x)) ↔
        ∀ k ∈ loopsPassed p transfer fill, ∀ op, fills p transfer op = true →
          op ∉ p.body.under (.op k.id)) := by
  have hunder := under_of_mem_leaves h.nodup htransfer
  rw [hoist_eq] at hx
  change x = (((loopsPassed p transfer fill).getLast?).map (·.id)).getD transfer at hx
  have hsub : ∀ k ∈ loopsPassed p transfer fill, k ∈ p.body.around .top transfer ∧ k.isLoop = true := by
    intro k hk
    obtain ⟨hk, hloop⟩ := List.mem_filter.mp ((List.takeWhile_sublist _).subset hk)
    exact ⟨List.mem_reverse.mp hk, hloop⟩
  have hnested : (loopsPassed p transfer fill).Pairwise fun k' k => k'.id ∈ p.body.under (.op k.id) := by
    have hpair : (p.body.around .top transfer).Pairwise fun k k' => k'.id ∈ p.body.under (.op k.id) :=
      pairwise_around h.nodup
    rw [← List.pairwise_reverse] at hpair
    exact hpair.sublist ((List.takeWhile_sublist _).trans List.filter_sublist)
  cases hlast : (loopsPassed p transfer fill).getLast? with
  | none =>
    rw [hlast] at hx
    obtain rfl : x = transfer := hx
    rw [hunder, List.getLast?_eq_none_iff.mp hlast]
    refine ⟨.inl rfl, List.mem_singleton.mpr rfl, fun _ => (by simp), fun _ op hop hmem => ?_⟩
    rw [List.mem_singleton.mp hmem, hself] at hop
    exact absurd hop Bool.false_ne_true
  | some k =>
    rw [hlast] at hx
    obtain rfl : x = k.id := hx
    have hk := List.mem_of_getLast? hlast
    obtain ⟨haround, hloop⟩ := hsub k hk
    refine ⟨.inr (mem_loops_of_mem_around haround hloop),
      (mem_under_of_mem_around h.nodup haround).1, fun hnone k' hk' op hop hmem => ?_,
      fun hall => hall k hk⟩
    obtain ⟨l, hl⟩ := List.getLast?_eq_some_iff.mp hlast
    rw [hl, List.pairwise_append] at hnested
    rw [hl] at hk'
    rcases List.mem_append.mp hk' with hk' | hk'
    · exact hnone op hop (under_mono h.nodup (hnested.2.2 k' hk' k List.mem_cons_self) hmem)
    · rw [List.mem_singleton.mp hk'] at hmem
      exact hnone op hop hmem

/-! ### The fill that is found, again -/

/-- What is found fills the buffer of the transfer. -/
theorem fills_of_fillInFront (h : WellFormed p) {transfer fill : OpId} {iab : Value}
    (hop : p.body.op? transfer = some (.indDataTransfer iab))
    (hfill : fillInFront p transfer iab = some fill) : fills p transfer fill = true := by
  obtain ⟨c, hfind, rfl⟩ := Option.map_eq_some_iff.mp hfill
  have hfound := List.find?_some hfind
  rw [Bool.and_eq_true, decide_eq_true_eq, decide_eq_true_eq] at hfound
  rw [fills, hop, hfound.2]
  show sameBuffer p iab c.2 = true
  rcases List.mem_append.mp (List.mem_of_find?_eq_some hfind) with hc | hc
  · obtain ⟨user, -, rfl⟩ := List.mem_map.mp hc
    simp [sameBuffer]
  · split at hc
    · exact absurd hc List.not_mem_nil
    · next unit hunit =>
      obtain ⟨other, hother, hc⟩ := List.mem_flatMap.mp hc
      obtain ⟨user, -, rfl⟩ := List.mem_map.mp hc
      have hview := (h.mem_views other unit).mp (List.mem_filter.mp hother).1
      simp [sameBuffer, hunit, hview]

theorem filledBefore_iff {transfer fill : OpId} : filledBefore p transfer fill = true ↔
    (∀ k ∈ loopsPassed p transfer fill, ∀ op, fills p transfer op = true →
      op ∉ p.body.under (.op k.id)) ∧ p.body.mustPrecede (fills p transfer) transfer = true := by
  rw [filledBefore, Bool.and_eq_true, List.all_eq_true]
  apply and_congr_left
  intro _
  constructor
  · intro hall k hk op hop hmem
    have hnone := List.all_eq_true.mp (hall k hk) op hmem
    rw [hop] at hnone
    exact absurd hnone (by decide)
  · intro hall k hk
    rw [List.all_eq_true]
    intro op hmem
    by_contra hnot
    exact hall k hk op (by simpa using hnot) hmem

theorem served_iff (h : WellFormed p) {transfer : OpId} {iab : Value}
    (hop : p.body.op? transfer = some (.indDataTransfer iab)) :
    SyncedAt p transfer (syncPoint p transfer iab) ↔ served p transfer iab = true := by
  have hleaves : ∀ op, fills p transfer op = true → op ∈ p.body.leaves := by
    intro op hfill
    obtain ⟨_, _, _, hfop, _⟩ := fills_ops hfill
    exact mem_leaves_of_op? hfop
  have hself : fills p transfer transfer = false := by
    rw [fills, hop]
  have htransfer := mem_leaves_of_op? hop
  rw [syncPoint, served]
  cases hfill : fillInFront p transfer iab with
  | none =>
    rw [Option.map_none, syncedAt_none, List.all_eq_true]
    constructor
    · intro hnone op _
      cases hf : fills p transfer op with
      | false => rfl
      | true => simp [hnone op hf]
    · intro hall op hf
      simpa [hf] using hall op (hleaves op hf)
  | some fill =>
    have hfills := fills_of_fillInFront h hop hfill
    have hhoisted : SyncedAt p transfer (some (enter (hoist (fillAncestorBlocks p.body fill) transfer
        (p.body.around .top transfer).reverse))) ↔ filledBefore p transfer fill = true := by
      obtain ⟨hx, hin, hpassed⟩ := hoisted h fill htransfer hself rfl
      rw [syncedAt_enter h htransfer hin hx, hpassed, filledBefore_iff]
    rw [Option.map_some, insertionPoint]
    dsimp only
    split
    · next guardIf side hplace =>
      split
      · exact hhoisted
      · next hout =>
        rw [syncedAt_leave h hfills hplace, List.all_eq_true]
        · constructor
          · intro hall op _
            cases hf : fills p transfer op with
            | false => rfl
            | true =>
              cases hmay : p.body.mayPrecede op transfer with
              | false => rfl
              | true => simp [hall op hf hmay]
          · intro hall op hf hmay
            simpa [hf, hmay] using hall op (hleaves op hf)
        · intro hmem
          obtain ⟨k, hk, hid⟩ := exists_around_of_mem_arm .top hmem
          exact hout (List.mem_map.mpr ⟨k, hk, hid⟩)
    · exact hhoisted

/-- A body over one view of an address buffer. -/
def overOneView (body : Body OpId Op) : ProgramUnit where
  body := body
  users := fun v => if v = 0 then body.ids else []
  fromUnit := fun v => if v = 0 then some 0 else none
  views := fun unit => if unit = 0 then [0] else []

/-- The buffer is filled, then read in a loop. -/
def filledOnce : Body OpId Op :=
  .leaf (.source 0) (.dataTransfer 0)
    (.loop (.source 1) (.leaf (.source 2) (.indDataTransfer 0) .done) .done)

/-- The loop fills the buffer again for its next iteration. -/
def filledAhead : Body OpId Op :=
  .leaf (.source 0) (.dataTransfer 0)
    (.loop (.source 1) (.leaf (.source 2) (.indDataTransfer 0)
      (.leaf (.source 3) (.dataTransfer 0) .done)) .done)

theorem overOneView_wellFormed {body : Body OpId Op} (hnd : body.ids.Nodup)
    (hsource : ∀ op ∈ body.ids, ∃ n, op = .source n)
    (hview : ∀ op v, body.op? op = some (.dataTransfer v) → v = 0) :
    WellFormed (overOneView body) := by
  refine ⟨hnd, hsource, fun v op hop => ?_, fun op v hop => ?_, fun v unit => ?_⟩
  · simp only [overOneView] at hop
    split at hop
    · exact hsource op hop
    · exact absurd hop List.not_mem_nil
  · obtain rfl := hview op v hop
    exact leaves_subset _ (mem_leaves_of_op? hop)
  · simp only [overOneView]
    by_cases hu : unit = 0
    · subst hu
      simp
    · simp [hu, Ne.symm hu]

end SelfSync

end DataflowScheduler
