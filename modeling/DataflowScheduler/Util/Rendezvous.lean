import Mathlib.Data.List.Basic
import Mathlib.Logic.Relation
import Mathlib.Tactic.Common

/-!
# Two parties that meet

Two parties run a list of actions each. An action is either the party's own or a meeting, which both
parties take part in at once: the first party's next meeting is always with the second party's next
meeting. What the parties do on their own between two meetings comes in any order.
-/

namespace Rendezvous

/-- One action of a party. -/
inductive Act (α : Type) where
  | own (a : α)
  | meet
  deriving Repr, DecidableEq

/-- How many actions each party is done with. -/
structure State where
  first : Nat
  second : Nat
  deriving Repr, DecidableEq

variable {α β : Type}

/-- Actions that are meetings. -/
def meets (p : List (Act α)) : Nat := p.countP fun act => match act with
  | .own _ => false
  | .meet => true

/-- One step of either party, or of both at a meeting. -/
inductive Step (p : List (Act α)) (q : List (Act β)) : State → State → Prop
  | first {s : State} {a : α} (h : p[s.first]? = some (.own a)) : Step p q s ⟨s.first + 1, s.second⟩
  | second {s : State} {b : β} (h : q[s.second]? = some (.own b)) :
      Step p q s ⟨s.first, s.second + 1⟩
  | meet {s : State} (hp : p[s.first]? = some .meet) (hq : q[s.second]? = some .meet) :
      Step p q s ⟨s.first + 1, s.second + 1⟩

/-- What the parties can have done, from nothing on. -/
def Reachable (p : List (Act α)) (q : List (Act β)) (s : State) : Prop :=
  Relation.ReflTransGen (Step p q) ⟨0, 0⟩ s

theorem take_succ_of_getElem? {γ : Type} {l : List γ} {n : Nat} {x : γ} (h : l[n]? = some x) :
    l.take (n + 1) = l.take n ++ [x] := by
  rw [List.take_add_one, h]
  rfl

theorem meets_take_own {p : List (Act α)} {n : Nat} {a : α} (h : p[n]? = some (.own a)) :
    meets (p.take (n + 1)) = meets (p.take n) := by
  rw [take_succ_of_getElem? h, meets, List.countP_append]
  rfl

theorem meets_take_meet {p : List (Act α)} {n : Nat} (h : p[n]? = some .meet) :
    meets (p.take (n + 1)) = meets (p.take n) + 1 := by
  rw [take_succ_of_getElem? h, meets, List.countP_append]
  rfl

/-- A step keeps the numbers of meetings of both parties equal. -/
theorem Step.meets_eq {p : List (Act α)} {q : List (Act β)} {s s' : State} (h : Step p q s s')
    (heq : meets (p.take s.first) = meets (q.take s.second)) :
    meets (p.take s'.first) = meets (q.take s'.second) := by
  cases h with
  | first hp => rw [meets_take_own hp, heq]
  | second hq => rw [meets_take_own hq, heq]
  | meet hp hq => rw [meets_take_meet hp, meets_take_meet hq, heq]

/-- In every run both parties have been at the same meetings. -/
theorem Reachable.meets_eq {p : List (Act α)} {q : List (Act β)} {s : State}
    (h : Reachable p q s) : meets (p.take s.first) = meets (q.take s.second) := by
  induction h with
  | refl => rfl
  | tail _ hstep ih => exact hstep.meets_eq ih

theorem meets_take_mono (p : List (Act α)) {m n : Nat} (h : m ≤ n) :
    meets (p.take m) ≤ meets (p.take n) := by
  have hprefix : p.take m <+: p.take n := List.take_prefix_take_left h
  exact hprefix.sublist.countP_le

/-- What the second party does behind more meetings than there are before an action of the first
comes after that action, in every run. -/
theorem Reachable.own_before {p pre post : List (Act α)} {q pre' post' : List (Act β)} {a : α} {b : β}
    (hp : p = pre ++ .own a :: post) (hq : q = pre' ++ .own b :: post') (hb : .own b ∉ pre')
    (hmeets : meets pre < meets pre') {s : State} (h : Reachable p q s)
    (hdone : .own b ∈ q.take s.second) : .own a ∈ p.take s.first := by
  -- the second party is past its action, and so past the meetings before it
  have hsecond : pre'.length ≤ s.second := by
    by_contra hlt
    rw [hq, List.take_append_of_le_length (by omega)] at hdone
    exact hb (List.mem_of_mem_take hdone)
  have hpast : meets pre' ≤ meets (q.take s.second) := by
    have hle := meets_take_mono q hsecond
    rwa [hq, List.take_left', ← hq] at hle
    rfl
  -- the first party has been at as many, which are not all before its action
  have hfirst : pre.length < s.first := by
    by_contra hle
    have hbound := meets_take_mono p (show s.first ≤ pre.length by omega)
    rw [h.meets_eq] at hbound
    rw [show p.take pre.length = pre by rw [hp, List.take_left' rfl]] at hbound
    omega
  have hmem : .own a ∈ p.take (pre.length + 1) := by
    rw [hp, List.take_append, List.mem_append]
    right
    simp
  exact (List.take_prefix_take_left (show pre.length + 1 ≤ s.first by omega)).subset hmem

/-! ## Rounds -/

/-- The rounds of a party that has its own action first, and then a meeting if its test says so. -/
def thenMeet (test : α → Bool) (rounds : List α) : List (Act α) :=
  rounds.flatMap fun a => .own a :: if test a then [.meet] else []

/-- The rounds of a party that has the meeting first. -/
def meetThen (test : α → Bool) (rounds : List α) : List (Act α) :=
  rounds.flatMap fun a => (if test a then [.meet] else []) ++ [.own a]

theorem meets_thenMeet (test : α → Bool) (rounds : List α) :
    meets (thenMeet test rounds) = rounds.countP test := by
  induction rounds with
  | nil => rfl
  | cons a rounds ih =>
      unfold meets thenMeet at ih ⊢
      rw [List.flatMap_cons, List.countP_append, ih]
      cases htest : test a <;> simp [htest, Nat.add_comm]

theorem meets_meetThen (test : α → Bool) (rounds : List α) :
    meets (meetThen test rounds) = rounds.countP test := by
  induction rounds with
  | nil => rfl
  | cons a rounds ih =>
      unfold meets meetThen at ih ⊢
      rw [List.flatMap_cons, List.countP_append, ih]
      cases htest : test a <;> simp [htest, Nat.add_comm]

theorem own_mem_meetThen {test : α → Bool} {rounds : List α} {a : α} :
    .own a ∈ meetThen test rounds ↔ a ∈ rounds := by
  rw [meetThen, List.mem_flatMap]
  constructor
  · rintro ⟨b, hb, hmem⟩
    rcases List.mem_append.mp hmem with hmem | hmem
    · split at hmem <;> simp at hmem
    · obtain rfl : a = b := by simpa using hmem
      exact hb
  · intro ha
    exact ⟨a, ha, List.mem_append_right _ List.mem_cons_self⟩

/-- The numbers of the rounds in which a party meets the other. -/
def meetings (test : Nat → Bool) (n : Nat) : List Nat := (List.range n).filter test

/-- The meeting that one party comes to at the end of a round or later and the other before a round or
earlier, if both count their meetings from the first one on. -/
def MeetsBetween (send recv : Nat → Bool) (n i j : Nat) : Prop :=
  ∃ k p q : Nat, (meetings send n)[k]? = some p ∧ (meetings recv n)[k]? = some q ∧ i ≤ p ∧ q ≤ j

/-- In a list in strict order, the entries below a bound are the first ones. -/
theorem getElem?_lt_iff {l : List Nat} (hl : l.Pairwise (· < ·)) {k x bound : Nat}
    (h : l[k]? = some x) : x < bound ↔ k < l.countP (· < bound) := by
  induction l generalizing k with
  | nil => simp at h
  | cons y l ih =>
      rw [List.pairwise_cons] at hl
      rw [List.countP_cons]
      cases k with
      | zero =>
          obtain rfl : y = x := by simpa using h
          by_cases hy : y < bound
          · simp [hy]
          · have hnone : l.countP (· < bound) = 0 := by
              rw [List.countP_eq_zero]
              intro z hz
              have := hl.1 z hz
              simp only [decide_eq_true_eq]
              omega
            simp [hy, hnone]
      | succ k =>
          rw [List.getElem?_cons_succ] at h
          rw [ih hl.2 h]
          have hyx : y < x := hl.1 x (List.mem_of_getElem? h)
          by_cases hy : y < bound
          · simp [hy]
          · have hnone : l.countP (· < bound) = 0 := by
              rw [List.countP_eq_zero]
              intro z hz
              have := hl.1 z hz
              simp only [decide_eq_true_eq]
              omega
            simp [hy, hnone]

theorem meetings_sorted (test : Nat → Bool) (n : Nat) : (meetings test n).Pairwise (· < ·) :=
  List.pairwise_lt_range.filter _

theorem countP_meetings (test : Nat → Bool) {n bound : Nat} (h : bound ≤ n) :
    (meetings test n).countP (· < bound) = (List.range bound).countP test := by
  obtain ⟨m, rfl⟩ := Nat.exists_eq_add_of_le h
  rw [meetings, List.range_add, List.filter_append, List.countP_append]
  have hlow : ((List.range bound).filter test).countP (· < bound) =
      ((List.range bound).filter test).length := by
    rw [List.countP_eq_length]
    intro x hx
    simpa using (List.mem_filter.mp hx).1
  have hhigh : (((List.range m).map (bound + ·)).filter test).countP (· < bound) = 0 := by
    rw [List.countP_eq_zero]
    intro x hx
    obtain ⟨y, -, rfl⟩ := List.mem_map.mp (List.mem_filter.mp hx).1
    simp
  rw [hlow, hhigh, List.countP_eq_length_filter, Nat.add_zero]

/-- A meeting lies between two rounds exactly when there are fewer before the end of the one than up
to the start of the other, and one comes at the end of the one or later. -/
theorem meetsBetween_iff {send recv : Nat → Bool} {n i j : Nat} (hi : i ≤ n) (hj : j < n) :
    MeetsBetween send recv n i j ↔
      (List.range i).countP send < (List.range (j + 1)).countP recv ∧
        ∃ p, i ≤ p ∧ p < n ∧ send p = true := by
  rw [← countP_meetings send hi, ← countP_meetings recv (show j + 1 ≤ n by omega)]
  constructor
  · rintro ⟨k, p, q, hp, hq, hip, hqj⟩
    have hk := (getElem?_lt_iff (meetings_sorted send n) hp).not.mp (Nat.not_lt.mpr hip)
    have hk' := (getElem?_lt_iff (meetings_sorted recv n) hq).mp (show q < j + 1 by omega)
    have hmem := List.mem_filter.mp (List.mem_of_getElem? hp)
    exact ⟨by omega, p, hip, List.mem_range.mp hmem.1, hmem.2⟩
  · rintro ⟨hlt, p, hip, hpn, hsend⟩
    -- the first meeting that is not before round `i`
    obtain ⟨l, hl⟩ := List.mem_iff_getElem?.mp
      (show p ∈ meetings send n from List.mem_filter.mpr ⟨List.mem_range.mpr hpn, hsend⟩)
    have hle := (getElem?_lt_iff (meetings_sorted send n) hl).not.mp (Nat.not_lt.mpr hip)
    have hlength := (List.getElem?_eq_some_iff.mp hl).1
    have hlength' : (meetings recv n).countP (· < j + 1) ≤ (meetings recv n).length :=
      List.countP_le_length
    have hp := List.getElem?_eq_getElem
      (show (meetings send n).countP (· < i) < (meetings send n).length by omega)
    have hq := List.getElem?_eq_getElem
      (show (meetings send n).countP (· < i) < (meetings recv n).length by omega)
    refine ⟨_, _, _, hp, hq, ?_, ?_⟩
    · exact Nat.not_lt.mp ((getElem?_lt_iff (meetings_sorted send n) hp).not.mpr (Nat.lt_irrefl _))
    · exact Nat.lt_succ_iff.mp ((getElem?_lt_iff (meetings_sorted recv n) hq).mpr hlt)

/-- With a meeting between two rounds, no run has the second party in its round before the first is
through with its own. -/
theorem MeetsBetween.own_before {send recv : Nat → Bool} {n i j : Nat}
    (h : MeetsBetween send recv n i j) (hi : i < n) (hj : j < n) {s : State}
    (hreach : Reachable (thenMeet send (List.range n)) (meetThen recv (List.range n)) s)
    (hdone : .own j ∈ (meetThen recv (List.range n)).take s.second) :
    .own i ∈ (thenMeet send (List.range n)).take s.first := by
  obtain ⟨hlt, -⟩ := (meetsBetween_iff (Nat.le_of_lt hi) hj).mp h
  have hsplit : ∀ r, r < n → List.range n =
      List.range r ++ r :: (List.range (n - (r + 1))).map (r + 1 + ·) := by
    intro r hr
    obtain ⟨m, rfl⟩ := Nat.exists_eq_add_of_le (show r + 1 ≤ n by omega)
    rw [List.range_add, List.range_succ, List.append_assoc, Nat.add_sub_cancel_left]
    rfl
  have hp : thenMeet send (List.range n) = thenMeet send (List.range i) ++ .own i ::
      ((if send i then [.meet] else []) ++
        thenMeet send ((List.range (n - (i + 1))).map (i + 1 + ·))) := by
    rw [hsplit i hi, thenMeet, List.flatMap_append, List.flatMap_cons]
    rfl
  have hq : meetThen recv (List.range n) = (meetThen recv (List.range j) ++
      if recv j then [.meet] else []) ++ .own j ::
        meetThen recv ((List.range (n - (j + 1))).map (j + 1 + ·)) := by
    rw [hsplit j hj, meetThen, List.flatMap_append, List.flatMap_cons]
    simp only [List.append_assoc]
    rfl
  refine Reachable.own_before hp hq ?_ ?_ hreach hdone
  · rw [List.mem_append, own_mem_meetThen]
    rintro (hmem | hmem)
    · exact absurd (List.mem_range.mp hmem) (Nat.lt_irrefl j)
    · split at hmem <;> simp at hmem
  · have hcount : meets (meetThen recv (List.range j) ++ if recv j then [.meet] else []) =
        (List.range (j + 1)).countP recv := by
      rw [List.range_succ, List.countP_append, ← meets_meetThen recv (List.range j), meets,
        List.countP_append, List.countP_singleton]
      cases recv j <;> rfl
    rw [meets_thenMeet, hcount]
    exact hlt

end Rendezvous
