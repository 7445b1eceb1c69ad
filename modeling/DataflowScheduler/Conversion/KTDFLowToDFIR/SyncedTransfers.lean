import Mathlib.Data.List.Find
import Mathlib.Data.List.Induction
import DataflowScheduler.Conversion.KTDFLowToDFIR.SelfSync

/-!
# When no indirect transfer overtakes the fill of its addresses

The lowered body is the source body with a synchronization put in front of one event for each indirect
transfer with a fill in front of it. From this the paths of the two bodies are compared event by event.
-/

namespace DataflowScheduler

namespace SelfSync

open ControlFlow ControlFlow.Body ControlFlow.Event

variable {p : ProgramUnit}

/-! ### The fill that is found -/

theorem findIabFill_eq (body : Body OpId Op) (iab : Value) :
    findIabFill p body iab = ((candidates p iab).find? fun c =>
      decide (body.op? c.1 = some (.dataTransfer c.2))).map (·.1) := by
  have hview : ∀ view, (((p.users view).map (·, view)).find? fun c =>
      decide (body.op? c.1 = some (.dataTransfer c.2))).map (·.1) = findFillOf p body view := by
    intro view
    rw [List.find?_map, Option.map_map, findFillOf]
    exact Option.map_id' ..
  rw [findIabFill, candidates, List.find?_append, Option.map_or, hview]
  cases findFillOf p body iab with
  | some fill => rfl
  | none =>
    rw [Option.none_or]
    cases p.fromUnit iab with
    | none => rfl
    | some unit =>
      dsimp only
      rw [List.find?_flatMap, List.map_findSome?]
      induction p.views unit with
      | nil => rfl
      | cons other views ih =>
        rw [List.findSome?_cons, List.filter_cons]
        by_cases h : other = iab
        · rw [if_pos h, if_neg (by simpa using h)]
          exact ih
        · rw [if_neg h, if_pos (by simpa using h), List.findSome?_cons, Function.comp, hview, ih]

/-! ### The lowered body -/

/-- What a transfer is lowered to. -/
def lowered : Op → Op
  | .dataTransfer destination => .loweredTransfer destination
  | .indDataTransfer iab => .compositeIndirectLoadAndStore iab
  | op => op

/-- A body in which some transfers are lowered, with what was put in front of which event. -/
structure Lowered (p : ProgramUnit) (ops : List OpId) (ins : List (Event OpId × OpId))
    (b : Body OpId Op) : Prop where
  op? : ∀ n, b.op? (.source n) =
    (p.body.op? (.source n)).map fun o => if .source n ∈ ops then lowered o else o
  around : ∀ n, b.around .top (.source n) = p.body.around .top (.source n)
  place : ∀ n, b.place .top (.source n) = p.body.place .top (.source n)
  path : ∀ t, b.Path t ↔ ∃ u, p.body.Path u ∧ t = u.flatMap (expandAll ins)

/-- What was put in front of which event for some transfers. -/
def InsertedFor (p : ProgramUnit) (ops : List OpId) (ins : List (Event OpId × OpId)) : Prop :=
  ∀ pos s, (pos, s) ∈ ins ↔ ∃ transfer ∈ ops, ∃ iab fill,
    p.body.op? transfer = some (.indDataTransfer iab) ∧ fillInFront p transfer iab = some fill ∧
      pos = insertionPoint p.body transfer fill ∧ s = .sync transfer

theorem inFront_of_eq (h : WellFormed p) {front ops : List OpId} {op : OpId}
    (hleaves : p.body.leaves = front ++ op :: ops) : inFront p op = front := by
  have hnd := nodup_leaves h.nodup
  rw [hleaves, List.nodup_append] at hnd
  rw [inFront, hleaves, List.takeWhile_append_of_pos]
  · simp
  · intro a ha
    simpa using hnd.2.2 a ha op List.mem_cons_self

theorem source_of_candidates (h : WellFormed p) {iab : Value} {c : OpId × Value}
    (hc : c ∈ candidates p iab) : ∃ n, c.1 = .source n := by
  have hview : ∀ view, c ∈ (p.users view).map (·, view) → ∃ n, c.1 = .source n := by
    intro view hc
    obtain ⟨user, huser, rfl⟩ := List.mem_map.mp hc
    exact h.users_source view user huser
  rcases List.mem_append.mp hc with hc | hc
  · exact hview iab hc
  · split at hc
    · exact absurd hc List.not_mem_nil
    · obtain ⟨other, -, hc⟩ := List.mem_flatMap.mp hc
      exact hview other hc

/-- Lowered from the end of the text, what is left are the fills in front. -/
theorem findIabFill_of_lowered (h : WellFormed p) {front ops : List OpId} {op : OpId} {iab : Value}
    {ins : List (Event OpId × OpId)} {b : Body OpId Op}
    (hleaves : p.body.leaves = front ++ op :: ops) (hb : Lowered p ops ins b)
    (hop : p.body.op? op = some (.indDataTransfer iab)) :
    findIabFill p b iab = fillInFront p op iab := by
  rw [findIabFill_eq, fillInFront, inFront_of_eq h hleaves]
  congr 1
  apply List.find?_congr
  intro c hc
  obtain ⟨n, hn⟩ := source_of_candidates h hc
  have hnd := nodup_leaves h.nodup
  rw [hleaves, List.nodup_append] at hnd
  rw [hn, hb.op? n, ← Bool.decide_and, decide_eq_decide]
  constructor
  · intro hc
    obtain ⟨o, ho, heq⟩ := Option.map_eq_some_iff.mp hc
    split at heq
    · -- nothing is lowered to a data transfer
      cases o <;> exact absurd heq (by simp [lowered])
    · next hnot =>
      refine ⟨?_, heq ▸ ho⟩
      have hmem := mem_leaves_of_op? ho
      rw [hleaves, List.mem_append, List.mem_cons] at hmem
      rcases hmem with hmem | rfl | hmem
      · exact hmem
      · rw [ho, Option.some.injEq, heq] at hop
        exact absurd hop (by simp)
      · exact absurd hmem hnot
  · rintro ⟨hfront, ho⟩
    rw [ho, Option.map_some, if_neg]
    intro hmem
    exact hnd.2.2 _ hfront _ (List.mem_cons_of_mem op hmem) rfl

section Steps

variable {ops : List OpId} {ins : List (Event OpId × OpId)} {b : Body OpId Op}

theorem Lowered.setOp (hb : Lowered p ops ins b) {n : Nat} {o : Op}
    (hop : p.body.op? (.source n) = some o) :
    Lowered p (.source n :: ops) ins (b.setOp (.source n) (lowered o)) := by
  refine ⟨?_, ?_, ?_, ?_⟩
  · intro m
    rw [op?_setOp, hb.op? m, Option.map_map]
    by_cases hm : OpId.source m = .source n
    · rw [hm, hop, Option.map_some, Option.map_some, Function.comp, if_pos rfl,
        if_pos List.mem_cons_self]
    · apply Option.map_congr
      intro o' _
      simp [hm]
  · exact fun m => by rw [around_setOp, hb.around m]
  · exact fun m => by rw [place_setOp, hb.place m]
  · exact fun t => by rw [path_setOp, hb.path t]

theorem Lowered.insertBefore (hb : Lowered p ops ins b) {pos : Event OpId} {transfer : OpId}
    (hpos : ∀ c ∈ ins, pos ≠ enter c.2) : Lowered p ops (ins ++ [(pos, .sync transfer)])
      (b.insertBefore pos (.sync transfer) .syncSend) := by
  have hne : ∀ m, OpId.source m ≠ .sync transfer := fun m => (by simp)
  refine ⟨?_, ?_, ?_, ?_⟩
  · exact fun m => by rw [op?_insertBefore (hne m), hb.op? m]
  · exact fun m => by rw [around_insertBefore (hne m), hb.around m]
  · exact fun m => by rw [place_insertBefore (hne m), hb.place m]
  · intro t
    rw [path_insertBefore]
    constructor
    · rintro ⟨u, hu, rfl⟩
      obtain ⟨v, hv, rfl⟩ := (hb.path _).mp hu
      exact ⟨v, hv, flatMap_expandAll hpos v⟩
    · rintro ⟨u, hu, rfl⟩
      exact ⟨_, (hb.path _).mpr ⟨u, hu, rfl⟩, (flatMap_expandAll hpos u).symm⟩

/-- An op that is not lowered. -/
theorem Lowered.skip (hb : Lowered p ops ins b) {n : Nat}
    (hop : ∀ o, p.body.op? (.source n) = some o → lowered o = o) :
    Lowered p (.source n :: ops) ins b := by
  refine ⟨?_, hb.around, hb.place, hb.path⟩
  intro m
  rw [hb.op? m]
  apply Option.map_congr
  intro o ho
  by_cases hm : m = n
  · subst hm
    rw [if_pos List.mem_cons_self, hop o ho, ite_self]
  · simp [hm]

theorem InsertedFor.cons (hins : InsertedFor p ops ins) {transfer : OpId}
    (hnone : ∀ iab fill, p.body.op? transfer = some (.indDataTransfer iab) →
      fillInFront p transfer iab ≠ some fill) : InsertedFor p (transfer :: ops) ins := by
  intro pos s
  rw [hins pos s]
  constructor
  · rintro ⟨op, hop, rest⟩
    exact ⟨op, List.mem_cons_of_mem _ hop, rest⟩
  · rintro ⟨op, hop, iab, fill, hind, hfill, rest⟩
    rcases List.mem_cons.mp hop with rfl | hop
    · exact absurd hfill (hnone iab fill hind)
    · exact ⟨op, hop, iab, fill, hind, hfill, rest⟩

theorem InsertedFor.append (hins : InsertedFor p ops ins) {transfer fill : OpId} {iab : Value}
    (hop : p.body.op? transfer = some (.indDataTransfer iab))
    (hfill : fillInFront p transfer iab = some fill) :
    InsertedFor p (transfer :: ops)
      (ins ++ [(insertionPoint p.body transfer fill, .sync transfer)]) := by
  intro pos s
  rw [List.mem_append, hins pos s, List.mem_singleton, Prod.mk.injEq]
  constructor
  · rintro (⟨op, hmem, rest⟩ | ⟨rfl, rfl⟩)
    · exact ⟨op, List.mem_cons_of_mem _ hmem, rest⟩
    · exact ⟨transfer, List.mem_cons_self, iab, fill, hop, hfill, rfl, rfl⟩
  · rintro ⟨op, hmem, iab', fill', hop', hfill', rfl, rfl⟩
    rcases List.mem_cons.mp hmem with rfl | hmem
    · rw [hop, Option.some.injEq, Op.indDataTransfer.injEq] at hop'
      subst hop'
      rw [hfill, Option.some.injEq] at hfill'
      exact .inr ⟨by rw [hfill'], rfl⟩
    · exact .inl ⟨op, hmem, iab', fill', hop', hfill', rfl, rfl⟩

theorem hoist_mem (blocks : List (Place OpId)) (op : OpId) (l : List (Ancestor OpId)) :
    hoist blocks op l = op ∨ ∃ k ∈ l, hoist blocks op l = k.id := by
  induction l generalizing op with
  | nil => exact .inl rfl
  | cons k l ih =>
    rw [hoist]
    split
    · split
      · exact .inl rfl
      · rcases ih k.id with h | ⟨k', hk', h⟩
        · exact .inr ⟨k, List.mem_cons_self, h⟩
        · exact .inr ⟨k', List.mem_cons_of_mem k hk', h⟩
    · exact (ih op).imp_right fun ⟨k', hk', h⟩ => ⟨k', List.mem_cons_of_mem k hk', h⟩

/-- A synchronization is never put in front of another one. -/
theorem insertionPoint_ne_sync (h : WellFormed p) {transfer fill s : OpId}
    (htransfer : transfer ∈ p.body.ids) :
    insertionPoint p.body transfer fill ≠ enter (.sync s) := by
  have hhoist : enter (hoist (fillAncestorBlocks p.body fill) transfer
      (p.body.around .top transfer).reverse) ≠ enter (.sync s) := by
    intro heq
    have hmem : .sync s ∈ p.body.ids := by
      rw [← Event.enter.inj heq]
      rcases hoist_mem (fillAncestorBlocks p.body fill) transfer
        (p.body.around .top transfer).reverse with hx | ⟨k, hk, hx⟩
      · rw [hx]
        exact htransfer
      · rw [hx]
        exact around_subset (List.mem_reverse.mp hk)
    obtain ⟨n, hn⟩ := h.source _ hmem
    exact absurd hn (by simp)
  rw [insertionPoint]
  split
  · split
    · exact hhoist
    · simp
  · exact hhoist

theorem insertionPoint_of_lowered (hb : Lowered p ops ins b) (n m : Nat) :
    insertionPoint b (.source n) (.source m) = insertionPoint p.body (.source n) (.source m) := by
  rw [insertionPoint, insertionPoint, fillAncestorBlocks, fillAncestorBlocks, hb.around n,
    hb.around m, hb.place m]

/-- **One transfer is lowered**: the invariant of the driver. -/
theorem lowered_matchAndRewrite (h : WellFormed p) {front : List OpId} {op : OpId}
    (hleaves : p.body.leaves = front ++ op :: ops) (hb : Lowered p ops ins b)
    (hins : InsertedFor p ops ins) : ∃ ins', Lowered p (op :: ops) ins' (matchAndRewrite p b op) ∧
      InsertedFor p (op :: ops) ins' := by
  have hmem : op ∈ p.body.ids := leaves_subset _ (by simp [hleaves])
  obtain ⟨n, rfl⟩ := h.source op hmem
  have hnot : OpId.source n ∉ ops := by
    have hnd := nodup_leaves h.nodup
    rw [hleaves, List.nodup_append, List.nodup_cons] at hnd
    exact hnd.2.1.1
  have hop : b.op? (.source n) = p.body.op? (.source n) := by
    rw [hb.op? n]
    simp only [hnot, ↓reduceIte]
    exact Option.map_id' ..
  rw [matchAndRewrite, hop]
  split
  · next destination hdata =>
    refine ⟨ins, hb.setOp hdata, hins.cons fun iab fill hind => ?_⟩
    rw [hdata] at hind
    exact absurd hind (by simp)
  · next iab hind =>
    rw [findIabFill_of_lowered h hleaves hb hind]
    cases hfill : fillInFront p (.source n) iab with
    | none =>
      refine ⟨ins, hb.setOp hind, hins.cons fun iab' fill hind' => ?_⟩
      rw [hind, Option.some.injEq, Op.indDataTransfer.injEq] at hind'
      rw [← hind', hfill]
      simp
    | some fill =>
      obtain ⟨c, hc, rfl⟩ := Option.map_eq_some_iff.mp hfill
      obtain ⟨m, hm⟩ := source_of_candidates h (List.mem_of_find?_eq_some hc)
      rw [hm] at hfill ⊢
      dsimp only
      rw [emitSelfSyncIndirect, insertionPoint_of_lowered hb]
      refine ⟨_, (hb.insertBefore fun c hc => ?_).setOp hind, hins.append hind hfill⟩
      obtain ⟨op', -, -, -, -, -, -, hs⟩ := (hins c.1 c.2).mp hc
      rw [hs]
      exact insertionPoint_ne_sync h hmem
  · next hdata hind =>
    refine ⟨ins, hb.skip fun o ho => ?_, hins.cons fun iab fill hop' => absurd hop' (hind iab)⟩
    cases o with
    | dataTransfer destination => exact absurd ho (hdata destination)
    | indDataTransfer iab => exact absurd ho (hind iab)
    | _ => rfl

end Steps

theorem lowered_foldl (h : WellFormed p) {front ops : List OpId} {ins : List (Event OpId × OpId)}
    {b : Body OpId Op} (hleaves : p.body.leaves = front ++ ops) (hb : Lowered p ops ins b)
    (hins : InsertedFor p ops ins) :
    ∃ ins', Lowered p p.body.leaves ins' (front.reverse.foldl (matchAndRewrite p) b) ∧
      InsertedFor p p.body.leaves ins' := by
  induction front using List.reverseRecOn generalizing ops ins b with
  | nil => exact ⟨ins, hleaves ▸ hb, hleaves ▸ hins⟩
  | append_singleton front op ih =>
    rw [List.append_assoc, List.singleton_append] at hleaves
    obtain ⟨ins', hb', hins'⟩ := lowered_matchAndRewrite h hleaves hb hins
    rw [List.reverse_append, List.reverse_singleton, List.singleton_append, List.foldl_cons]
    exact ih hleaves hb' hins'

theorem lowered_runOperationLowerings (h : WellFormed p) :
    ∃ ins, Lowered p p.body.leaves ins (runOperationLowerings p) ∧
      InsertedFor p p.body.leaves ins := by
  have hbody : Lowered p [] [] p.body := by
    refine ⟨?_, fun n => rfl, fun n => rfl, fun t => ?_⟩
    · simp
    · have hid : ∀ u : List (Event OpId), u.flatMap (expandAll []) = u := by
        intro u
        induction u with
        | nil => rfl
        | cons ev u ih => rw [List.flatMap_cons, ih]; rfl
      simp [hid]
  refine lowered_foldl h (List.append_nil _).symm hbody fun pos s => ?_
  simp

end SelfSync

end DataflowScheduler
