import Mathlib.Data.Finset.Card
import Mathlib.Data.Fintype.Basic
import Mathlib.Logic.Relation

/-!
# Erasing dead operations

Two functions take operations off a worklist, erase those that nothing uses and put what defines
their operands on the worklist. `eraseDeadAncestorOps` keeps what it has erased, `eraseNowDeadOp`
does not.
-/

namespace DataflowScheduler

namespace DeadOps

open Relation (TransGen ReflTransGen)

variable {α : Type} [DecidableEq α]

/-- The operations of a function. -/
structure Ops (α : Type) [DecidableEq α] where
  ops : Finset α
  /-- What defines the operands. Nothing defines a block argument. -/
  operands : α → List (Option α)
  /-- `wouldOpBeTriviallyDead`: no effects, no terminator and no symbol. -/
  wouldOpBeTriviallyDead : α → Bool
  closed : ∀ op ∈ ops, ∀ d ∈ (operands op).filterMap id, d ∈ ops

/-- The operations that define an operand, as often as they do. -/
def Ops.definingOps (g : Ops α) (op : α) : List α := (g.operands op).filterMap id

/-- `isOpTriviallyDead`, when the operations in `live` are left. -/
def isOpTriviallyDead (g : Ops α) (live : Finset α) (op : α) : Bool :=
  decide (∀ user ∈ live, op ∉ g.definingOps user) && g.wouldOpBeTriviallyDead op

/-- The loop of `eraseNowDeadOp`. The end of the worklist comes first. The result is what is left,
or the erased operation that is looked at. -/
def eraseNowDeadOpLoop (g : Ops α) (live : Finset α) : List α → Except α (Finset α)
  | [] => .ok live
  | dead :: worklist =>
    if _h : dead ∈ live then
      if isOpTriviallyDead g live dead then
        eraseNowDeadOpLoop g (live.erase dead) ((g.definingOps dead).reverse ++ worklist)
      else eraseNowDeadOpLoop g live worklist
    else .error dead
termination_by worklist => (live.card, worklist.length)
decreasing_by
  · exact Prod.Lex.left _ _ (Finset.card_erase_lt_of_mem ‹_›)
  · exact Prod.Lex.right _ (Nat.lt_succ_self _)

def eraseNowDeadOp (g : Ops α) (op : α) : Except α (Finset α) :=
  eraseNowDeadOpLoop g g.ops [op]

/-- The loop of `eraseDeadAncestorOps`. -/
def eraseDeadAncestorOpsLoop (g : Ops α) (live : Finset α) (erased : List α) :
    List α → Except α (Finset α)
  | [] => .ok live
  | op :: worklist =>
    if op ∈ erased then eraseDeadAncestorOpsLoop g live erased worklist
    else if _h : op ∈ live then
      if isOpTriviallyDead g live op then
        eraseDeadAncestorOpsLoop g (live.erase op) (op :: erased)
          ((g.definingOps op).reverse ++ worklist)
      else eraseDeadAncestorOpsLoop g live erased worklist
    else .error op
termination_by worklist => (live.card, worklist.length)
decreasing_by
  · exact Prod.Lex.right _ (Nat.lt_succ_self _)
  · exact Prod.Lex.left _ _ (Finset.card_erase_lt_of_mem ‹_›)
  · exact Prod.Lex.right _ (Nat.lt_succ_self _)

def eraseDeadAncestorOps (g : Ops α) (roots : List α) : Except α (Finset α) :=
  eraseDeadAncestorOpsLoop g g.ops [] roots.reverse

/-! ## What is to be erased -/

/-- An operation has a result of another one as its operand. -/
def Uses (g : Ops α) (user op : α) : Prop := user ∈ g.ops ∧ op ∈ g.definingOps user

/-- The least set of operations that has an operation without effects as soon as it has all users,
if it is one of the roots or an operand of an operation in the set. -/
inductive Dead (g : Ops α) (roots : List α) : α → Prop
  | root {op : α} (hroot : op ∈ roots) (hpure : g.wouldOpBeTriviallyDead op = true)
      (husers : ∀ user, Uses g user op → Dead g roots user) : Dead g roots op
  | operand {op user : α} (hdead : Dead g roots user) (huse : Uses g user op)
      (hpure : g.wouldOpBeTriviallyDead op = true)
      (husers : ∀ user, Uses g user op → Dead g roots user) : Dead g roots op

/-- The dead operations are erased and nothing else; no erased operation is looked at. -/
def Erases (g : Ops α) (roots : List α) (result : Except α (Finset α)) : Prop :=
  ∃ live, result = .ok live ∧ ∀ op, op ∈ live ↔ op ∈ g.ops ∧ ¬ Dead g roots op

/-- A path along operands from one operation to another, with the operands that stand in front of
those on the path. -/
inductive Beside (g : Ops α) (start : α) : List α → α → Prop
  | start : Beside g start [] start
  | operand {left before after : List α} {user op : α} (hpath : Beside g start left user)
      (hoperands : g.definingOps user = before ++ op :: after) :
      Beside g start (before.reverse ++ left) op

/-- Whenever a dead operation is an operand beside a path that leads to it, one of the operands
there has it as an operand of its own, directly or not. -/
def UsedBeside (g : Ops α) (start : α) : Prop :=
  ∀ left op, Beside g start left op → op ∈ left → Dead g [start] op →
    ∃ beside ∈ left, TransGen (Uses g) beside op

section Lemmas

variable {g : Ops α} {roots worklist left : List α} {live : Finset α} {op start : α}

theorem Dead.users (h : Dead g roots op) {user : α} (huse : Uses g user op) :
    Dead g roots user := by
  cases h with
  | root _ _ husers => exact husers user huse
  | operand _ _ _ husers => exact husers user huse

theorem Dead.pure (h : Dead g roots op) : g.wouldOpBeTriviallyDead op = true := by
  cases h with
  | root _ hpure _ => exact hpure
  | operand _ _ hpure _ => exact hpure

/-- A cycle of users is never dead. -/
theorem Dead.acyclic (h : Dead g roots op) : ¬ TransGen (Uses g) op op := by
  have hrotate : ∀ {x : α}, (∀ user, Uses g user x → ¬ TransGen (Uses g) user user) →
      ¬ TransGen (Uses g) x x := by
    intro x husers hcycle
    obtain ⟨user, hreach, huse⟩ := TransGen.tail'_iff.mp hcycle
    exact husers user huse (TransGen.head' huse hreach)
  induction h with
  | root _ _ _ ih => exact hrotate ih
  | operand _ _ _ _ _ ih => exact hrotate ih

theorem isOpTriviallyDead_iff : isOpTriviallyDead g live op = true ↔
    (∀ user ∈ live, op ∉ g.definingOps user) ∧ g.wouldOpBeTriviallyDead op = true := by
  rw [isOpTriviallyDead, Bool.and_eq_true, decide_eq_true_iff]

theorem Beside.mem_ops (h : Beside g start left op) (hstart : start ∈ g.ops) : op ∈ g.ops := by
  induction h with
  | start => exact hstart
  | @operand _ before after _ x _ hoperands ih =>
    apply g.closed _ ih
    show x ∈ g.definingOps _
    rw [hoperands]
    exact List.mem_append_right _ List.mem_cons_self

/-! ## What both loops keep -/

/-- What is erased is dead, and what may still be erased is pending or has a user. -/
structure Inv (g : Ops α) (roots : List α) (live : Finset α) (worklist : List α) : Prop where
  live_sub : live ⊆ g.ops
  worklist_sub : ∀ op ∈ worklist, op ∈ g.ops
  dead : ∀ op ∈ g.ops, op ∉ live → Dead g roots op
  origin : ∀ op ∈ worklist, op ∈ roots ∨ ∃ user, Uses g user op ∧ user ∉ live
  pending : ∀ op ∈ live, g.wouldOpBeTriviallyDead op = true →
    (op ∈ roots ∨ ∃ user, Uses g user op ∧ user ∉ live) →
    op ∈ worklist ∨ ∃ user ∈ live, op ∈ g.definingOps user

namespace Inv

theorem initial (hroots : ∀ op ∈ roots, op ∈ g.ops) (hmem : ∀ op, op ∈ worklist ↔ op ∈ roots) :
    Inv g roots g.ops worklist where
  live_sub := Finset.Subset.refl _
  worklist_sub := fun op hop => hroots op ((hmem op).mp hop)
  dead := fun _ hop hnot => absurd hop hnot
  origin := fun op hop => Or.inl ((hmem op).mp hop)
  pending := by
    rintro op - - (hroot | ⟨user, huse, hnot⟩)
    · exact Or.inl ((hmem op).mpr hroot)
    · exact absurd huse.1 hnot

/-- An operation is dropped when it is erased already, has effects or a user. -/
theorem skip (h : Inv g roots live (op :: worklist))
    (hskip : op ∉ live ∨ isOpTriviallyDead g live op = false) : Inv g roots live worklist where
  live_sub := h.live_sub
  worklist_sub := fun x hx => h.worklist_sub x (List.mem_cons_of_mem _ hx)
  dead := h.dead
  origin := fun x hx => h.origin x (List.mem_cons_of_mem _ hx)
  pending := by
    intro x hx hpure horigin
    rcases h.pending x hx hpure horigin with hmem | huser
    · rcases List.mem_cons.mp hmem with rfl | hmem
      · refine Or.inr ?_
        by_contra hnone
        push Not at hnone
        rcases hskip with hnot | hfalse
        · exact hnot hx
        · rw [isOpTriviallyDead_iff.mpr ⟨hnone, hpure⟩] at hfalse
          cases hfalse
      · exact Or.inl hmem
    · exact Or.inr huser

theorem dead_of_isOpTriviallyDead (h : Inv g roots live (op :: worklist))
    (hdead : isOpTriviallyDead g live op = true) : Dead g roots op := by
  obtain ⟨hnone, hpure⟩ := isOpTriviallyDead_iff.mp hdead
  have husers : ∀ user, Uses g user op → Dead g roots user := fun user huse =>
    h.dead user huse.1 fun hlive => hnone user hlive huse.2
  rcases h.origin op List.mem_cons_self with hroot | ⟨user, huse, hnot⟩
  · exact .root hroot hpure husers
  · exact .operand (husers user huse) huse hpure husers

/-- An operation is erased, and what defines its operands is pending. -/
theorem erase (h : Inv g roots live (op :: worklist))
    (hdead : isOpTriviallyDead g live op = true) :
    Inv g roots (live.erase op) ((g.definingOps op).reverse ++ worklist) where
  live_sub := (Finset.erase_subset _ _).trans h.live_sub
  worklist_sub := by
    intro x hx
    rcases List.mem_append.mp hx with hx | hx
    · exact g.closed op (h.worklist_sub op List.mem_cons_self) x (List.mem_reverse.mp hx)
    · exact h.worklist_sub x (List.mem_cons_of_mem _ hx)
  dead := by
    intro x hx hnot
    by_cases hxop : x = op
    · rw [hxop]
      exact h.dead_of_isOpTriviallyDead hdead
    · exact h.dead x hx fun hlive => hnot (Finset.mem_erase.mpr ⟨hxop, hlive⟩)
  origin := by
    intro x hx
    rcases List.mem_append.mp hx with hx | hx
    · have huse : Uses g op x := ⟨h.worklist_sub op List.mem_cons_self, List.mem_reverse.mp hx⟩
      exact Or.inr ⟨op, huse, Finset.notMem_erase _ _⟩
    · refine (h.origin x (List.mem_cons_of_mem _ hx)).imp_right ?_
      rintro ⟨user, huse, hnot⟩
      exact ⟨user, huse, fun hlive => hnot (Finset.mem_of_mem_erase hlive)⟩
  pending := by
    intro x hx hpure horigin
    obtain ⟨hne, hlive⟩ := Finset.mem_erase.mp hx
    by_cases huse : x ∈ g.definingOps op
    · exact Or.inl (List.mem_append_left _ (List.mem_reverse.mpr huse))
    · -- its users are those it had before
      have hkeep : ∀ {user : α}, x ∈ g.definingOps user → user ≠ op := fun hmem heq =>
        huse (heq ▸ hmem)
      have horigin' : x ∈ roots ∨ ∃ user, Uses g user x ∧ user ∉ live := by
        refine horigin.imp_right ?_
        rintro ⟨user, huser, hnot⟩
        exact ⟨user, huser, fun hmem => hnot (Finset.mem_erase.mpr ⟨hkeep huser.2, hmem⟩)⟩
      rcases h.pending x hlive hpure horigin' with hmem | ⟨user, hmem, huser⟩
      · have hmem' := (List.mem_cons.mp hmem).resolve_left hne
        exact Or.inl (List.mem_append_right _ hmem')
      · exact Or.inr ⟨user, Finset.mem_erase.mpr ⟨hkeep huser, hmem⟩, huser⟩

/-- A dead operation that is left hangs on a pending one. -/
theorem reached (h : Inv g roots live worklist) (hdead : Dead g roots op) (hlive : op ∈ live) :
    ∃ first ∈ worklist, ReflTransGen (Uses g) first op := by
  induction hdead with
  | @root op hroot hpure _ ih =>
    rcases h.pending op hlive hpure (Or.inl hroot) with hmem | ⟨user, hmem, huse⟩
    · exact ⟨op, hmem, .refl⟩
    · obtain ⟨first, hfirst, hreach⟩ := ih user ⟨h.live_sub hmem, huse⟩ hmem
      exact ⟨first, hfirst, hreach.tail ⟨h.live_sub hmem, huse⟩⟩
  | @operand op user _ huse hpure _ ihuser ih =>
    by_cases hmem : user ∈ live
    · obtain ⟨first, hfirst, hreach⟩ := ihuser hmem
      exact ⟨first, hfirst, hreach.tail huse⟩
    · rcases h.pending op hlive hpure (Or.inr ⟨user, huse, hmem⟩) with hmem | ⟨other, hmem, huse⟩
      · exact ⟨op, hmem, .refl⟩
      · obtain ⟨first, hfirst, hreach⟩ := ih other ⟨h.live_sub hmem, huse⟩ hmem
        exact ⟨first, hfirst, hreach.tail ⟨h.live_sub hmem, huse⟩⟩

/-- Nothing dead is left when nothing is pending. -/
theorem mem_iff (h : Inv g roots live []) : op ∈ live ↔ op ∈ g.ops ∧ ¬ Dead g roots op := by
  constructor
  · intro hlive
    refine ⟨h.live_sub hlive, fun hdead => ?_⟩
    obtain ⟨first, hfirst, -⟩ := h.reached hdead hlive
    cases hfirst
  · rintro ⟨hop, hnot⟩
    by_contra hlive
    exact hnot (h.dead op hop hlive)

end Inv

/-! ## `eraseDeadAncestorOps` -/

theorem eraseDeadAncestorOpsLoop_ok {erased : List α} (h : Inv g roots live worklist)
    (herased : ∀ x, x ∈ erased ↔ x ∈ g.ops ∧ x ∉ live) :
    ∃ rest, eraseDeadAncestorOpsLoop g live erased worklist = .ok rest ∧ Inv g roots rest [] := by
  induction live, erased, worklist using eraseDeadAncestorOpsLoop.induct g with
  | case1 live erased =>
    exact ⟨live, by rw [eraseDeadAncestorOpsLoop], h⟩
  | case2 live erased op worklist hmem ih =>
    rw [eraseDeadAncestorOpsLoop, if_pos hmem]
    exact ih (h.skip (Or.inl ((herased op).mp hmem).2)) herased
  | case3 live erased op worklist hmem hlive hdead ih =>
    rw [eraseDeadAncestorOpsLoop, if_neg hmem, dif_pos hlive, if_pos hdead]
    refine ih (h.erase hdead) fun x => ?_
    rw [List.mem_cons, herased, Finset.mem_erase]
    by_cases hx : x = op
    · simp [hx, h.live_sub hlive]
    · simp [hx]
  | case4 live erased op worklist hmem hlive hdead ih =>
    rw [eraseDeadAncestorOpsLoop, if_neg hmem, dif_pos hlive, if_neg hdead]
    exact ih (h.skip (Or.inr (Bool.eq_false_of_not_eq_true hdead))) herased
  | case5 live erased op worklist hmem hlive =>
    -- what is pending and not erased is left
    exact absurd ((herased op).mpr ⟨h.worklist_sub op List.mem_cons_self, hlive⟩) hmem

/-- `eraseDeadAncestorOps` erases what is dead. -/
theorem eraseDeadAncestorOps_erases (hroots : ∀ op ∈ roots, op ∈ g.ops) :
    Erases g roots (eraseDeadAncestorOps g roots) := by
  have hinitial : Inv g roots g.ops roots.reverse := .initial hroots fun _ => List.mem_reverse
  have hnone : ∀ x, x ∈ ([] : List α) ↔ x ∈ g.ops ∧ x ∉ g.ops := by simp
  obtain ⟨rest, hrest, hinv⟩ := eraseDeadAncestorOpsLoop_ok hinitial hnone
  exact ⟨rest, hrest, fun _ => hinv.mem_iff⟩

/-! ## `eraseNowDeadOp` -/

/-- What is pending is what stands beside a path, and nothing that is erased hangs on it. -/
structure Unerased (g : Ops α) (start : α) (live : Finset α) (worklist : List α) : Prop where
  beside : ∀ front op left, worklist = front ++ op :: left → Beside g start left op
  notReached : ∀ op ∈ g.ops, op ∉ live → ∀ first ∈ worklist, ¬ ReflTransGen (Uses g) first op

namespace Unerased

theorem skip (h : Unerased g start live (op :: worklist)) : Unerased g start live worklist where
  beside := fun front x left hsplit => h.beside (op :: front) x left (by rw [hsplit]; rfl)
  notReached := fun x hx hnot first hfirst =>
    h.notReached x hx hnot first (List.mem_cons_of_mem _ hfirst)

theorem mem_live (h : Unerased g start live (op :: worklist)) (hop : op ∈ g.ops) : op ∈ live := by
  by_contra hnot
  exact h.notReached op hop hnot op List.mem_cons_self .refl

/-- An operation that is erased is not pending a second time. -/
theorem erase (h : Unerased g start live (op :: worklist)) (hused : UsedBeside g start)
    (hinv : Inv g [start] live (op :: worklist)) (hdead : isOpTriviallyDead g live op = true) :
    Unerased g start (live.erase op) ((g.definingOps op).reverse ++ worklist) where
  beside := by
    intro front x left hsplit
    rcases List.append_eq_append_iff.mp hsplit with ⟨rest, rfl, hworklist⟩ | ⟨rest, hdefs, hleft⟩
    · exact h.beside (op :: rest) x left (by rw [hworklist]; rfl)
    · cases rest with
      | nil => exact h.beside [op] x left (by simpa using hleft.symm)
      | cons y rest =>
        obtain ⟨rfl, rfl⟩ := List.cons_eq_cons.mp hleft
        have hoperands : g.definingOps op = rest.reverse ++ x :: front.reverse := by
          rw [← List.reverse_reverse (g.definingOps op), hdefs]
          simp
        have := Beside.operand (h.beside [] op worklist rfl) hoperands
        rwa [List.reverse_reverse] at this
  notReached := by
    obtain ⟨hnone, -⟩ := isOpTriviallyDead_iff.mp hdead
    have hop := hinv.worklist_sub op List.mem_cons_self
    -- no user of the operation hangs on what is pending
    have husers : ∀ user, Uses g user op → ∀ first ∈ op :: worklist,
        ¬ ReflTransGen (Uses g) first user := fun user huse =>
      h.notReached user huse.1 fun hmem => hnone user hmem huse.2
    have hself : ∀ first ∈ worklist, ¬ ReflTransGen (Uses g) first op := by
      intro first hfirst hreach
      rcases Relation.reflTransGen_iff_eq_or_transGen.mp hreach with rfl | hreach
      · obtain ⟨y, hy, hused'⟩ := hused worklist op (h.beside [] op worklist rfl) hfirst
          (hinv.dead_of_isOpTriviallyDead hdead)
        obtain ⟨user, hreach, huse⟩ := TransGen.tail'_iff.mp hused'
        exact husers user huse y (List.mem_cons_of_mem _ hy) hreach
      · obtain ⟨user, hreach, huse⟩ := TransGen.tail'_iff.mp hreach
        exact husers user huse first (List.mem_cons_of_mem _ hfirst) hreach
    intro x hx hnot first hfirst hreach
    by_cases hxop : x = op
    · subst hxop
      rcases List.mem_append.mp hfirst with hfirst | hfirst
      · have hcycle : TransGen (Uses g) x x :=
          TransGen.head' ⟨hop, List.mem_reverse.mp hfirst⟩ hreach
        exact (hinv.dead_of_isOpTriviallyDead hdead).acyclic hcycle
      · exact hself first hfirst hreach
    · have hx' : x ∉ live := fun hmem => hnot (Finset.mem_erase.mpr ⟨hxop, hmem⟩)
      rcases List.mem_append.mp hfirst with hfirst | hfirst
      · exact h.notReached x hx hx' op List.mem_cons_self
          (ReflTransGen.head ⟨hop, List.mem_reverse.mp hfirst⟩ hreach)
      · exact h.notReached x hx hx' first (List.mem_cons_of_mem _ hfirst) hreach

end Unerased

theorem eraseNowDeadOpLoop_ok (hused : UsedBeside g start) (h : Inv g [start] live worklist)
    (hunerased : Unerased g start live worklist) :
    ∃ rest, eraseNowDeadOpLoop g live worklist = .ok rest ∧ Inv g [start] rest [] := by
  induction live, worklist using eraseNowDeadOpLoop.induct g with
  | case1 live =>
    exact ⟨live, by rw [eraseNowDeadOpLoop], h⟩
  | case2 live op worklist hlive hdead ih =>
    rw [eraseNowDeadOpLoop, dif_pos hlive, if_pos hdead]
    exact ih (h.erase hdead) (hunerased.erase hused h hdead)
  | case3 live op worklist hlive hdead ih =>
    rw [eraseNowDeadOpLoop, dif_pos hlive, if_neg hdead]
    exact ih (h.skip (Or.inr (Bool.eq_false_of_not_eq_true hdead))) hunerased.skip
  | case4 live op worklist hlive =>
    exact absurd (hunerased.mem_live (h.worklist_sub op List.mem_cons_self)) hlive

/-- What is pending in a run without a fault is left. -/
theorem mem_of_eraseNowDeadOpLoop {rest : Finset α}
    (h : eraseNowDeadOpLoop g live worklist = .ok rest) : ∀ op ∈ worklist, op ∈ live := by
  induction live, worklist using eraseNowDeadOpLoop.induct g with
  | case1 live => simp
  | case2 live op worklist hlive hdead ih =>
    rw [eraseNowDeadOpLoop, dif_pos hlive, if_pos hdead] at h
    refine List.forall_mem_cons.mpr ⟨hlive, fun x hx => ?_⟩
    exact Finset.mem_of_mem_erase (ih h x (List.mem_append_right _ hx))
  | case3 live op worklist hlive hdead ih =>
    rw [eraseNowDeadOpLoop, dif_pos hlive, if_neg hdead] at h
    exact List.forall_mem_cons.mpr ⟨hlive, ih h⟩
  | case4 live op worklist hlive =>
    rw [eraseNowDeadOpLoop, dif_neg hlive] at h
    cases h

/-- The top of the worklist is done before what is under it. -/
theorem eraseNowDeadOpLoop_append {top : List α} {rest : Finset α}
    (h : Inv g roots live (top ++ worklist))
    (hok : eraseNowDeadOpLoop g live (top ++ worklist) = .ok rest) :
    ∃ live', Inv g roots live' worklist ∧ eraseNowDeadOpLoop g live' worklist = .ok rest := by
  generalize hpending : top ++ worklist = pending at h hok
  induction live, pending using eraseNowDeadOpLoop.induct g generalizing top with
  | case1 live =>
    obtain ⟨rfl, rfl⟩ := List.append_eq_nil_iff.mp hpending
    exact ⟨live, h, hok⟩
  | case2 live op pending hlive hdead ih =>
    cases top with
    | nil =>
      subst hpending
      exact ⟨live, h, hok⟩
    | cons x top =>
      obtain ⟨rfl, rfl⟩ := List.cons_eq_cons.mp hpending
      rw [eraseNowDeadOpLoop, dif_pos hlive, if_pos hdead] at hok
      have hsplit : ((g.definingOps x).reverse ++ top) ++ worklist =
          (g.definingOps x).reverse ++ (top ++ worklist) := List.append_assoc ..
      exact ih hsplit (h.erase hdead) hok
  | case3 live op pending hlive hdead ih =>
    cases top with
    | nil =>
      subst hpending
      exact ⟨live, h, hok⟩
    | cons x top =>
      obtain ⟨rfl, rfl⟩ := List.cons_eq_cons.mp hpending
      rw [eraseNowDeadOpLoop, dif_pos hlive, if_neg hdead] at hok
      exact ih rfl (h.skip (Or.inr (Bool.eq_false_of_not_eq_true hdead))) hok
  | case4 live op pending hlive =>
    rw [eraseNowDeadOpLoop, dif_neg hlive] at hok
    cases hok

/-- A dead operation that only itself is taken off for has lost its users. -/
theorem Inv.isOpTriviallyDead_of_dead (h : Inv g roots live (op :: left))
    (hdead : Dead g roots op) (hunused : ∀ beside ∈ left, ¬ TransGen (Uses g) beside op) :
    isOpTriviallyDead g live op = true := by
  refine isOpTriviallyDead_iff.mpr ⟨fun user hlive huse => ?_, hdead.pure⟩
  have huses : Uses g user op := ⟨h.live_sub hlive, huse⟩
  obtain ⟨first, hfirst, hreach⟩ := h.reached (hdead.users huses) hlive
  rcases List.mem_cons.mp hfirst with rfl | hfirst
  · exact hdead.acyclic (TransGen.tail' hreach huses)
  · exact hunused first hfirst (TransGen.tail' hreach huses)

/-- A run comes to a dead operation on a path if nothing beside the path has it as an operand. -/
theorem exists_reached (hstart : start ∈ g.ops) {rest : Finset α}
    (hok : eraseNowDeadOp g start = .ok rest) (hpath : Beside g start left op)
    (hdead : Dead g [start] op) (hunused : ∀ beside ∈ left, ¬ TransGen (Uses g) beside op) :
    ∃ live, Inv g [start] live (op :: left) ∧
      eraseNowDeadOpLoop g live (op :: left) = .ok rest := by
  induction hpath with
  | start => exact ⟨g.ops, .initial (by simpa using hstart) (fun _ => Iff.rfl), hok⟩
  | @operand left before after user op hpath hoperands ih =>
    have huse : Uses g user op := by
      refine ⟨hpath.mem_ops hstart, ?_⟩
      rw [hoperands]
      exact List.mem_append_right _ List.mem_cons_self
    have hunused' : ∀ beside ∈ left, ¬ TransGen (Uses g) beside user := fun beside hbeside hreach =>
      hunused beside (List.mem_append_right _ hbeside) (hreach.tail huse)
    obtain ⟨live, hinv, hrun⟩ := ih (hdead.users huse) hunused'
    have huser := hinv.isOpTriviallyDead_of_dead (hdead.users huse) hunused'
    have hlive := mem_of_eraseNowDeadOpLoop hrun user List.mem_cons_self
    rw [eraseNowDeadOpLoop, dif_pos hlive, if_pos huser] at hrun
    have hsplit : (g.definingOps user).reverse ++ left =
        after.reverse ++ op :: (before.reverse ++ left) := by
      rw [hoperands, List.reverse_append, List.reverse_cons, List.append_assoc, List.append_assoc]
      rfl
    have herased := hinv.erase huser
    rw [hsplit] at hrun herased
    exact eraseNowDeadOpLoop_append herased hrun

/-- A run without a fault takes no dead operation off that is pending a second time. -/
theorem usedBeside_of_ok (hstart : start ∈ g.ops) {rest : Finset α}
    (hok : eraseNowDeadOp g start = .ok rest) : UsedBeside g start := by
  intro left op hpath hmem hdead
  by_contra hunused
  push Not at hunused
  obtain ⟨live, hinv, hrun⟩ := exists_reached hstart hok hpath hdead hunused
  have htrivially := hinv.isOpTriviallyDead_of_dead hdead hunused
  have hlive := mem_of_eraseNowDeadOpLoop hrun op List.mem_cons_self
  rw [eraseNowDeadOpLoop, dif_pos hlive, if_pos htrivially] at hrun
  -- the second one is gone
  have hgone := mem_of_eraseNowDeadOpLoop hrun op (List.mem_append_right _ hmem)
  exact Finset.notMem_erase _ _ hgone

theorem eraseNowDeadOp_erases (hstart : start ∈ g.ops) (hused : UsedBeside g start) :
    Erases g [start] (eraseNowDeadOp g start) := by
  have hinitial : Inv g [start] g.ops [start] :=
    .initial (by simpa using hstart) (fun _ => Iff.rfl)
  have hunerased : Unerased g start g.ops [start] := by
    refine ⟨fun front op left hsplit => ?_, fun op hop hnot => absurd hop hnot⟩
    obtain ⟨rfl, hsplit⟩ | ⟨front, rfl, hnil⟩ := List.cons_eq_append_iff.mp hsplit
    · obtain ⟨rfl, rfl⟩ := List.cons_eq_cons.mp hsplit.symm
      exact .start
    · simp at hnil
  obtain ⟨rest, hrest, hinv⟩ := eraseNowDeadOpLoop_ok hused hinitial hunerased
  exact ⟨rest, hrest, fun _ => hinv.mem_iff⟩

theorem Erases.unique {r r' : Except α (Finset α)} (h : Erases g roots r) (h' : Erases g roots r') :
    r = r' := by
  obtain ⟨live, rfl, hlive⟩ := h
  obtain ⟨live', rfl, hlive'⟩ := h'
  congr 1
  ext op
  rw [hlive, hlive']

/-- Both functions erase what is dead and nothing else, and agree, if and only if no dead operation
is an operand beside a path to it that nothing beside the path uses. -/
theorem erase_erases_iff (g : Ops α) (op : α) (roots : List α) (hop : op ∈ g.ops)
    (hroots : ∀ root ∈ roots, root ∈ g.ops) :
    (Erases g [op] (eraseNowDeadOp g op) ∧ Erases g roots (eraseDeadAncestorOps g roots) ∧
        eraseNowDeadOp g op = eraseDeadAncestorOps g [op]) ↔
      UsedBeside g op := by
  constructor
  · rintro ⟨⟨live, hok, -⟩, -⟩
    exact usedBeside_of_ok hop hok
  · intro hused
    have hnow := eraseNowDeadOp_erases hop hused
    refine ⟨hnow, eraseDeadAncestorOps_erases hroots, ?_⟩
    exact hnow.unique (eraseDeadAncestorOps_erases (by simpa using hop))

/-- An addition of two constants. -/
def sumOf (lhs rhs : Fin 3) : Ops (Fin 3) where
  ops := Finset.univ
  operands op := if op = 0 then [some lhs, none, some rhs] else []
  wouldOpBeTriviallyDead _ := true
  closed := fun _ _ d _ => Finset.mem_univ d

/-- Two different constants are never pending twice. -/
theorem sumOf_erases :
    (Erases (sumOf 1 2) [0] (eraseNowDeadOp (sumOf 1 2) 0) ∧
        Erases (sumOf 1 2) [1, 0] (eraseDeadAncestorOps (sumOf 1 2) [1, 0]) ∧
        eraseNowDeadOp (sumOf 1 2) 0 = eraseDeadAncestorOps (sumOf 1 2) [0]) := by
  have hbeside : ∀ left op, Beside (sumOf 1 2) 0 left op → op = 0 ∧ left = [] ∨
      ∃ before after, [(1 : Fin 3), 2] = before ++ op :: after ∧ left = before.reverse := by
    intro left op hpath
    induction hpath with
    | start => exact Or.inl ⟨rfl, rfl⟩
    | @operand left before after user op hpath hoperands ih =>
      rcases ih with ⟨rfl, rfl⟩ | ⟨before', after', hsplit, -⟩
      · exact Or.inr ⟨before, after, hoperands, by simp⟩
      · -- the constants have no operands
        have huser : user ≠ 0 := by
          rintro rfl
          have : (0 : Fin 3) ∈ [(1 : Fin 3), 2] := by
            rw [hsplit]
            exact List.mem_append_right _ List.mem_cons_self
          simp at this
        have hnil : (sumOf 1 2).definingOps user = [] := by
          simp [Ops.definingOps, sumOf, huser]
        rw [hnil] at hoperands
        simp at hoperands
  have hused : UsedBeside (sumOf 1 2) 0 := by
    intro left op hpath hmem
    rcases hbeside left op hpath with ⟨-, rfl⟩ | ⟨before, after, hsplit, rfl⟩
    · cases hmem
    · have hnodup : (before ++ op :: after).Nodup := by
        rw [← hsplit]
        decide
      exact absurd (List.mem_reverse.mp hmem)
        fun h => (List.nodup_append.mp hnodup).2.2 op h op List.mem_cons_self rfl
  exact (erase_erases_iff (sumOf 1 2) 0 [1, 0] (Finset.mem_univ _)
    (fun root _ => Finset.mem_univ root)).mpr hused

/-- The same constant twice is looked at after it is erased. -/
theorem sumOf_twice_not_erases :
    eraseNowDeadOp (sumOf 1 1) 0 = .error 1 ∧
      ¬ (Erases (sumOf 1 1) [0] (eraseNowDeadOp (sumOf 1 1) 0) ∧
        Erases (sumOf 1 1) [0] (eraseDeadAncestorOps (sumOf 1 1) [0]) ∧
        eraseNowDeadOp (sumOf 1 1) 0 = eraseDeadAncestorOps (sumOf 1 1) [0]) := by
  have hsum : isOpTriviallyDead (sumOf 1 1) Finset.univ 0 = true := by decide
  have hconstant : isOpTriviallyDead (sumOf 1 1) (Finset.univ.erase 0) 1 = true := by decide
  have herror : eraseNowDeadOp (sumOf 1 1) 0 = .error 1 := by
    show eraseNowDeadOpLoop (sumOf 1 1) Finset.univ [0] = .error 1
    rw [eraseNowDeadOpLoop, dif_pos (by decide), if_pos hsum]
    show eraseNowDeadOpLoop (sumOf 1 1) (Finset.univ.erase 0) [1, 1] = .error 1
    rw [eraseNowDeadOpLoop, dif_pos (by decide), if_pos hconstant]
    show eraseNowDeadOpLoop (sumOf 1 1) ((Finset.univ.erase 0).erase 1) [1] = .error 1
    rw [eraseNowDeadOpLoop, dif_neg (by decide)]
  refine ⟨herror, ?_⟩
  rintro ⟨⟨live, hok, -⟩, -⟩
  rw [herror] at hok
  cases hok

end Lemmas

end DeadOps

end DataflowScheduler
