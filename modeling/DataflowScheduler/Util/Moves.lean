import Mathlib.Data.List.Nodup
import Mathlib.Data.List.Perm.Basic

/-!
# Moves in a list

The relative order of two elements of a list, and the move of some elements in front of another one.
-/

/-- The first element stands somewhere before the second. -/
def Precedes {α : Type} (l : List α) (a b : α) : Prop := [a, b].Sublist l

namespace Precedes

variable {α : Type} {l l' : List α} {a b c : α}

theorem mem_left (h : Precedes l a b) : a ∈ l := h.subset List.mem_cons_self

theorem mem_right (h : Precedes l a b) : b ∈ l :=
  h.subset (List.mem_cons_of_mem _ List.mem_cons_self)

theorem of_append (ha : a ∈ l) (hb : b ∈ l') : Precedes (l ++ l') a b :=
  (List.singleton_sublist.mpr ha).append (List.singleton_sublist.mpr hb)

theorem append_left (h : Precedes l a b) (l' : List α) : Precedes (l ++ l') a b :=
  h.trans (List.sublist_append_left _ _)

theorem append_right (h : Precedes l a b) (l' : List α) : Precedes (l' ++ l) a b :=
  h.trans (List.sublist_append_right _ _)

/-- In a list cut in two, both stand in one part or one in each. -/
theorem append_cases (h : Precedes (l ++ l') a b) :
    Precedes l a b ∨ (a ∈ l ∧ b ∈ l') ∨ Precedes l' a b := by
  obtain ⟨l₁, l₂, hsplit, h₁, h₂⟩ := List.sublist_append_iff.mp h
  match l₁, hsplit with
  | [], hsplit =>
      rw [List.nil_append] at hsplit
      subst hsplit
      exact .inr (.inr h₂)
  | [x], hsplit =>
      rw [List.singleton_append, List.cons.injEq] at hsplit
      obtain ⟨rfl, rfl⟩ := hsplit
      exact .inr (.inl ⟨List.singleton_sublist.mp h₁, List.singleton_sublist.mp h₂⟩)
  | x :: y :: l₁, hsplit =>
      rw [List.cons_append, List.cons_append, List.cons.injEq, List.cons.injEq] at hsplit
      obtain ⟨rfl, rfl, hnil⟩ := hsplit
      rw [(List.append_eq_nil_iff.mp hnil.symm).1] at h₁
      exact .inl h₁

theorem cons_cases (h : Precedes (c :: l) a b) : (a = c ∧ b ∈ l) ∨ Precedes l a b := by
  rcases append_cases (l := [c]) h with hpair | ⟨ha, hb⟩ | h
  · exact absurd (List.Sublist.length_le hpair) (by simp)
  · exact .inl ⟨List.mem_singleton.mp ha, hb⟩
  · exact .inr h

theorem cons (hb : b ∈ l) : Precedes (a :: l) a b := (List.singleton_sublist.mpr hb).cons_cons a

theorem filter (h : Precedes l a b) {q : α → Bool} (ha : q a = true) (hb : q b = true) :
    Precedes (l.filter q) a b := by
  have hfilter := List.Sublist.filter q h
  rwa [List.filter_cons_of_pos ha, List.filter_cons_of_pos hb, List.filter_nil] at hfilter

theorem of_filter {q : α → Bool} (h : Precedes (l.filter q) a b) : Precedes l a b :=
  h.trans List.filter_sublist

theorem ne (h : Precedes l a b) (hnodup : l.Nodup) : a ≠ b := by
  rintro rfl
  exact List.not_nodup_pair a (hnodup.sublist h)

theorem asymm (hnodup : l.Nodup) (h : Precedes l a b) : ¬Precedes l b a := by
  induction l with
  | nil => cases h
  | cons c l ih =>
      rw [List.nodup_cons] at hnodup
      intro h'
      rcases h.cons_cases with ⟨rfl, hb⟩ | htail
      · rcases h'.cons_cases with ⟨rfl, -⟩ | htail'
        · exact hnodup.1 hb
        · exact hnodup.1 htail'.mem_right
      · rcases h'.cons_cases with ⟨rfl, -⟩ | htail'
        · exact hnodup.1 htail.mem_right
        · exact ih hnodup.2 htail htail'

/-- The order of the positions. -/
theorem iff_idxOf [DecidableEq α] (hnodup : l.Nodup) (ha : a ∈ l) (hb : b ∈ l) :
    Precedes l a b ↔ l.idxOf a < l.idxOf b := by
  induction l with
  | nil => cases ha
  | cons c l ih =>
      rw [List.nodup_cons] at hnodup
      by_cases hca : c = a
      · rw [hca, List.idxOf_cons_self]
        by_cases hab : a = b
        · rw [← hab, List.idxOf_cons_self, iff_false_right (Nat.lt_irrefl _)]
          intro h
          exact h.ne (List.nodup_cons.mpr (hca ▸ hnodup)) rfl
        · rw [List.idxOf_cons_ne _ hab, iff_true_right (Nat.succ_pos _)]
          exact cons ((List.mem_cons.mp hb).resolve_left fun hbc => hab (hca.symm.trans hbc.symm))
      · have ha' := (List.mem_cons.mp ha).resolve_left (Ne.symm hca)
        rw [List.idxOf_cons_ne _ hca]
        by_cases hcb : c = b
        · rw [hcb, List.idxOf_cons_self, iff_false_right (Nat.not_lt_zero _)]
          intro h
          rcases h.cons_cases with ⟨hac, -⟩ | htail
          · exact hca (hcb.trans hac.symm)
          · exact hnodup.1 (hcb ▸ htail.mem_right)
        · have hb' := (List.mem_cons.mp hb).resolve_left (Ne.symm hcb)
          rw [List.idxOf_cons_ne _ hcb, Nat.succ_lt_succ_iff, ← ih hnodup.2 ha' hb']
          constructor
          · intro h
            exact h.cons_cases.resolve_left fun hc => hca hc.1.symm
          · exact fun h => h.trans (List.sublist_cons_self _ _)

end Precedes

/-! ## Moving elements in front of another one -/

namespace List

variable {α : Type} {q : α → Bool} {front behind : List α} {e : α}

/-- The elements behind `e` that are to move stand in front of it. -/
def movedInFront (q : α → Bool) (front : List α) (e : α) (behind : List α) : List α :=
  front ++ behind.filter q ++ e :: behind.filter fun a => !q a

theorem movedInFront_perm : (movedInFront q front e behind).Perm (front ++ e :: behind) := by
  rw [movedInFront, List.append_assoc]
  apply List.Perm.append_left
  exact List.perm_middle.trans ((List.filter_append_perm q behind).cons e)

/-- Nothing moves if nothing is to. -/
theorem movedInFront_of_nil (h : behind.filter q = []) :
    movedInFront q front e behind = front ++ e :: behind := by
  have hnot : behind.filter (fun a => !q a) = behind := by
    rw [List.filter_eq_self]
    intro a ha
    rw [Bool.not_eq_true', ← Bool.not_eq_true]
    exact List.filter_eq_nil_iff.mp h a ha
  rw [movedInFront, h, hnot, List.append_nil]

theorem filter_movedInFront (he : q e = false) :
    (movedInFront q front e behind).filter q = (front ++ e :: behind).filter q := by
  have hnone : (behind.filter fun a => !q a).filter q = [] := by
    rw [List.filter_filter, List.filter_eq_nil_iff]
    simp
  simp only [movedInFront, List.filter_append, List.filter_cons, he, Bool.false_eq_true, if_false,
    List.filter_filter, Bool.and_self]
  rw [← List.filter_filter, hnone, List.append_nil]

theorem filter_not_movedInFront (he : q e = false) :
    (movedInFront q front e behind).filter (fun a => !q a) =
      (front ++ e :: behind).filter fun a => !q a := by
  have hnone : (behind.filter q).filter (fun a => !q a) = [] := by
    rw [List.filter_filter, List.filter_eq_nil_iff]
    simp
  simp only [movedInFront, List.filter_append, List.filter_cons, he, Bool.not_false, if_true,
    List.filter_filter, Bool.and_self]
  rw [← List.filter_filter, hnone, List.append_nil]

/-- Two elements that both move, or both stay, keep their order. -/
theorem precedes_movedInFront_of_eq (he : q e = false) {a b : α} (hab : q a = q b) :
    Precedes (movedInFront q front e behind) a b ↔ Precedes (front ++ e :: behind) a b := by
  cases ha : q a with
  | true =>
      rw [ha] at hab
      constructor
      · intro h
        have hfilter := h.filter ha hab.symm
        rw [filter_movedInFront he] at hfilter
        exact hfilter.of_filter
      · intro h
        have hfilter := h.filter ha hab.symm
        rw [← filter_movedInFront he] at hfilter
        exact hfilter.of_filter
  | false =>
      have ha' : (!q a) = true := by rw [ha]; rfl
      have hb' : (!q b) = true := by rw [← hab]; exact ha'
      constructor
      · intro h
        have hfilter := Precedes.filter (q := fun a => !q a) h ha' hb'
        rw [filter_not_movedInFront he] at hfilter
        exact hfilter.of_filter
      · intro h
        have hfilter := Precedes.filter (q := fun a => !q a) h ha' hb'
        rw [← filter_not_movedInFront he] at hfilter
        exact hfilter.of_filter

/-- What moves stands before `e`, and before what stays behind it. -/
theorem precedes_movedInFront_of_behind (he : q e = false) {a b : α} (ha : q a = true)
    (hmem : a ∈ front ++ e :: behind) (hb : q b = false) (hbehind : b = e ∨ b ∈ behind) :
    Precedes (movedInFront q front e behind) a b := by
  apply Precedes.of_append
  · rcases List.mem_append.mp hmem with hfront | hrest
    · exact List.mem_append_left _ hfront
    · rcases List.mem_cons.mp hrest with rfl | hrest
      · rw [he] at ha
        cases ha
      · exact List.mem_append_right _ (List.mem_filter.mpr ⟨hrest, ha⟩)
  · rcases hbehind with rfl | hbehind
    · exact List.mem_cons_self
    · exact List.mem_cons_of_mem _ (List.mem_filter.mpr ⟨hbehind, by rw [hb]; rfl⟩)

/-- What moves only moves to the front. -/
theorem precedes_movedInFront (he : q e = false) {a b : α} (ha : q a = true) (hb : q b = false)
    (h : Precedes (front ++ e :: behind) a b) : Precedes (movedInFront q front e behind) a b := by
  rcases h.append_cases with hfront | ⟨hfront, hrest⟩ | hrest
  · exact (hfront.append_left _).append_left _
  · exact precedes_movedInFront_of_behind he ha (List.mem_append_left _ hfront) hb
      (List.mem_cons.mp hrest)
  · rcases hrest.cons_cases with ⟨rfl, -⟩ | hbehind
    · rw [he] at ha
      cases ha
    · exact precedes_movedInFront_of_behind he ha
        (List.mem_append_right _ (List.mem_cons_of_mem _ hbehind.mem_left)) hb
        (.inr hbehind.mem_right)

/-- The elements behind an element are those it stands before. -/
theorem mem_behind_of_precedes (hnodup : (front ++ e :: behind).Nodup) {b : α}
    (h : Precedes (front ++ e :: behind) e b) : b ∈ behind := by
  have hfront : e ∉ front := fun hmem =>
    (List.nodup_append.mp hnodup).2.2 e hmem e List.mem_cons_self rfl
  rcases h.append_cases with hpair | ⟨hmem, -⟩ | hrest
  · exact absurd hpair.mem_left hfront
  · exact absurd hmem hfront
  · rcases hrest.cons_cases with ⟨-, hb⟩ | hpair
    · exact hb
    · exact hpair.mem_right

theorem takeWhile_append_cons_tail [DecidableEq α] {l : List α} {a : α} (h : a ∈ l) :
    l.takeWhile (· != a) ++ a :: (l.dropWhile (· != a)).tail = l := by
  induction l with
  | nil => cases h
  | cons b l ih =>
      by_cases hba : b = a
      · rw [hba, List.takeWhile_cons_of_neg (by simp), List.dropWhile_cons_of_neg (by simp)]
        rfl
      · have hne : (b != a) = true := by simpa using hba
        rw [List.takeWhile_cons, List.dropWhile_cons, if_pos hne, if_pos hne, List.cons_append,
          ih ((List.mem_cons.mp h).resolve_left (Ne.symm hba))]

/-! ## Gathering elements in an order -/

section Gather

variable [DecidableEq α]

def moveBefore (l : List α) (a anchor : α) : List α :=
  (l.erase a).takeWhile (· != anchor) ++ a :: (l.erase a).dropWhile (· != anchor)

def moveAfter (l : List α) (a anchor : α) : List α :=
  (l.erase a).takeWhile (· != anchor) ++ anchor :: a :: ((l.erase a).dropWhile (· != anchor)).tail

/-- Each element is moved behind the one before it. -/
def moveBehind (l : List α) (previous : α) : List α → List α
  | [] => l
  | a :: as => moveBehind (l.moveAfter a previous) a as

/-- The first element takes the place of `first`, and each of the others follows the one before. -/
def gather (l : List α) (first : α) : List α → List α
  | [] => l
  | a :: as => moveBehind (if a = first then l else l.moveBefore a first) a as

theorem takeWhile_append_cons_self (h : e ∉ front) :
    (front ++ e :: behind).takeWhile (· != e) = front ∧
      (front ++ e :: behind).dropWhile (· != e) = e :: behind := by
  have hfront : ∀ a ∈ front, (a != e) = true := fun a ha => bne_iff_ne.mpr fun heq => h (heq ▸ ha)
  rw [takeWhile_append_of_pos hfront, dropWhile_append_of_pos hfront]
  simp

theorem erase_behind {a : α} (hnodup : (front ++ e :: behind).Nodup) (ha : a ∈ behind) :
    (front ++ e :: behind).erase a = front ++ e :: behind.erase a := by
  rw [erase_append_right _ (by grind), erase_cons_tail (by grind)]

theorem moveBehind_eq {as : List α} (hnodup : (front ++ e :: behind).Nodup) (has : as ⊆ behind)
    (hdistinct : as.Nodup) : moveBehind (front ++ e :: behind) e as =
      front ++ e :: as ++ behind.filter (· ∉ as) := by
  induction as generalizing front e behind with
  | nil => simp [moveBehind]
  | cons a as ih =>
      obtain ⟨ha, has⟩ := List.cons_subset.mp has
      obtain ⟨hfresh, hdistinct⟩ := List.nodup_cons.mp hdistinct
      have herase := erase_behind hnodup ha
      have hfront : e ∉ front := by grind
      rw [moveBehind, moveAfter, herase, (takeWhile_append_cons_self hfront).1,
        (takeWhile_append_cons_self hfront).2, tail_cons]
      have := ih (show ((front ++ [e]) ++ a :: behind.erase a).Nodup by grind)
        (fun b hb => (mem_erase_of_ne (by grind)).mpr (has hb)) hdistinct
      rw [append_assoc, singleton_append] at this
      rw [this, Nodup.erase_eq_filter (by grind) a, filter_filter]
      simp only [append_assoc, cons_append, append_cancel_left_eq, cons.injEq, true_and,
        nil_append]
      exact filter_congr fun b _ => Bool.eq_iff_iff.mpr (by simp [and_comm])

/-- What is gathered stands together, in its order, where the earliest of it stood. -/
theorem gather_eq {as : List α} (hnodup : (front ++ e :: behind).Nodup) (has : as ⊆ e :: behind)
    (he : e ∈ as) (hdistinct : as.Nodup) : gather (front ++ e :: behind) e as =
      front ++ as ++ (e :: behind).filter (· ∉ as) := by
  cases as with
  | nil => cases he
  | cons a as =>
      obtain ⟨ha, has⟩ := List.cons_subset.mp has
      obtain ⟨hfresh, hdistinct⟩ := List.nodup_cons.mp hdistinct
      have hfront : e ∉ front := by grind
      rw [gather]
      split
      · next heq =>
        subst heq
        rw [moveBehind_eq hnodup (by grind) hdistinct, filter_cons_of_neg (by simp)]
        refine congrArg _ (filter_congr fun b hb => ?_)
        have : b ≠ a := by grind
        simp [this]
      · next hne =>
        rw [moveBefore, erase_behind hnodup (by grind), (takeWhile_append_cons_self hfront).1,
          (takeWhile_append_cons_self hfront).2, moveBehind_eq (by grind)
          (fun b hb => by grind) hdistinct, filter_cons_of_neg (by grind),
          filter_cons_of_neg (by grind), Nodup.erase_eq_filter (by grind) a, filter_filter]
        exact congrArg _ (filter_congr fun b _ => Bool.eq_iff_iff.mpr (by simp [and_comm]))

end Gather

end List
