import Mathlib.Data.List.Basic
import Mathlib.Data.Nat.Find
import Mathlib.Logic.Function.Basic
import Mathlib.Logic.Relation
import Mathlib.Tactic.Common

/-!
# Parties that signal each other

Each party runs a list of actions of its own. It sends a token to another party and goes on, or waits
for a token from another party and takes it. The programs are what a common list of events means for
each party. If in every event each party first sends and then takes, and what one party sends to
another is what the other takes from it, no party waits for ever, and no token is left at the end.
-/

namespace Signalling

/-- One action of a party. -/
inductive Act (P A : Type) where
  | own (a : A)
  | send (peer : P)
  | recv (peer : P)
  deriving Repr, DecidableEq

/-- What the parties have left to do, and how many tokens are on their way from one to another. -/
structure State (P A : Type) where
  todo : P → List (Act P A)
  tokens : P → P → Nat

variable {P A E : Type} [DecidableEq P]

def Act.isSend (q : P) : Act P A → Bool
  | .send peer => peer = q
  | _ => false

def Act.isRecv (q : P) : Act P A → Bool
  | .recv peer => peer = q
  | _ => false

/-- The number of tokens sent to a party. -/
def sent (q : P) (l : List (Act P A)) : Nat := l.countP (Act.isSend q)

/-- The number of tokens taken from a party. -/
def received (q : P) (l : List (Act P A)) : Nat := l.countP (Act.isRecv q)

/-- One step of one party. -/
inductive Step : State P A → State P A → Prop
  | own {s : State P A} {p : P} {a : A} {rest : List (Act P A)} (h : s.todo p = .own a :: rest) :
      Step s ⟨Function.update s.todo p rest, s.tokens⟩
  | send {s : State P A} {p q : P} {rest : List (Act P A)} (h : s.todo p = .send q :: rest) :
      Step s ⟨Function.update s.todo p rest,
        fun a b => if a = p ∧ b = q then s.tokens a b + 1 else s.tokens a b⟩
  | recv {s : State P A} {p q : P} {rest : List (Act P A)} (h : s.todo p = .recv q :: rest)
      (htoken : 0 < s.tokens q p) :
      Step s ⟨Function.update s.todo p rest,
        fun a b => if a = q ∧ b = p then s.tokens a b - 1 else s.tokens a b⟩

/-- All programs are still to be run. -/
def State.start (program : P → List (Act P A)) : State P A := ⟨program, fun _ _ => 0⟩

/-- No party has anything left to do. -/
def State.Finished (s : State P A) : Prop := ∀ p, s.todo p = []

/-- What the parties can come to. -/
def Reachable (program : P → List (Act P A)) (s : State P A) : Prop :=
  Relation.ReflTransGen Step (.start program) s

/-! ## What has been done -/

/-- The programs are what has been done and what is left, and the tokens that were sent are on their
way or were taken. -/
structure Progress (program : P → List (Act P A)) (s : State P A) (done : P → List (Act P A)) :
    Prop where
  program_eq : ∀ p, program p = done p ++ s.todo p
  tokens_eq : ∀ p q, s.tokens p q + received p (done q) = sent q (done p)

variable {program : P → List (Act P A)} {s s' : State P A} {done : P → List (Act P A)}

theorem sent_append (q : P) (l l' : List (Act P A)) : sent q (l ++ l') = sent q l + sent q l' :=
  List.countP_append

theorem received_append (q : P) (l l' : List (Act P A)) :
    received q (l ++ l') = received q l + received q l' := List.countP_append

theorem Progress.done_eq (h : Progress program s done) {p : P} (hp : s.todo p = []) :
    done p = program p := by
  rw [h.program_eq, hp, List.append_nil]

/-- What is done next is done after the rest. -/
theorem Progress.program_update (h : Progress program s done) {p : P} {act : Act P A}
    {rest : List (Act P A)} (htodo : s.todo p = act :: rest) (r : P) : program r =
      Function.update done p (done p ++ [act]) r ++ Function.update s.todo p rest r := by
  rw [Function.update_apply, Function.update_apply]
  split
  · next heq =>
    subst heq
    rw [h.program_eq, htodo, List.append_assoc]
    rfl
  · exact h.program_eq r

/-- An action keeps the account of tokens that it changes. -/
theorem Progress.after (h : Progress program s done) {p : P} {act : Act P A} {rest : List (Act P A)}
    (htodo : s.todo p = act :: rest) {tokens : P → P → Nat}
    (htokens : ∀ a b, tokens a b + (if b = p then received a [act] else 0) =
      s.tokens a b + if a = p then sent b [act] else 0) :
    ∃ done', Progress program ⟨Function.update s.todo p rest, tokens⟩ done' := by
  refine ⟨_, h.program_update htodo, fun a b => ?_⟩
  have := h.tokens_eq a b
  have := htokens a b
  have := sent_append b (done p) [act]
  have := received_append a (done p) [act]
  simp only [Function.update_apply]
  grind

theorem Step.progress (hstep : Step s s') (h : Progress program s done) :
    ∃ done', Progress program s' done' := by
  cases hstep with
  | own htodo => exact h.after htodo fun a b => by simp [sent, received, Act.isSend, Act.isRecv]
  | send htodo =>
    refine h.after htodo fun a b => ?_
    simp only [sent, received, List.countP_singleton, Act.isSend, Act.isRecv]
    grind
  | recv htodo htoken =>
    refine h.after htodo fun a b => ?_
    simp only [sent, received, List.countP_singleton, Act.isSend, Act.isRecv]
    grind

theorem Reachable.progress (h : Reachable program s) : ∃ done, Progress program s done := by
  induction h with
  | refl => exact ⟨fun _ => [], fun p => rfl, fun p q => rfl⟩
  | tail _ hstep ih =>
    obtain ⟨done, hdone⟩ := ih
    exact hstep.progress hdone

/-! ## Events -/

/-- What an event means for the parties: what one sends to another the other takes from it, and each
sends before it takes. -/
structure Matched (acts : P → E → List (Act P A)) (e : E) : Prop where
  balanced : ∀ p q, sent q (acts p e) = received p (acts q e)
  sendsFirst : ∀ p first rest q, acts p e = first ++ rest → 0 < received q first →
    ∀ r, sent r rest = 0

/-- A party is in the middle of an event. -/
structure At (f : E → List (Act P A)) (trace : List E) (done todo : List (Act P A)) (pre : List E)
    (e : E) (now next : List (Act P A)) : Prop where
  trace_eq : ∃ post, trace = pre ++ e :: post ∧ todo = next ++ post.flatMap f
  event_eq : f e = now ++ next
  done_eq : done = pre.flatMap f ++ now
  next_ne : next ≠ []

omit [DecidableEq P] in
/-- A party that is not finished is in the middle of some event. -/
theorem exists_at {f : E → List (Act P A)} {trace : List E} {done todo : List (Act P A)}
    (h : trace.flatMap f = done ++ todo) (hne : todo ≠ []) :
    ∃ pre e now next, At f trace done todo pre e now next := by
  induction trace generalizing done with
  | nil => exact absurd (List.append_eq_nil_iff.mp h.symm).2 hne
  | cons e trace ih =>
    rw [List.flatMap_cons] at h
    have hlater : ∀ done', trace.flatMap f = done' ++ todo → done = f e ++ done' →
        ∃ pre e' now next, At f (e :: trace) done todo pre e' now next := by
      intro done' htrace hdone
      obtain ⟨pre, e', now, next, ⟨⟨post, rfl, htodo⟩, hevent, rfl, hnext⟩⟩ := ih htrace
      refine ⟨e :: pre, e', now, next, ⟨⟨post, rfl, htodo⟩, hevent, ?_, hnext⟩⟩
      rw [hdone, List.flatMap_cons, List.append_assoc]
    rcases List.append_eq_append_iff.mp h with ⟨done', hdone, htrace⟩ | ⟨next, hevent, htodo⟩
    · exact hlater done' htrace hdone
    · by_cases hnext : next = []
      · subst hnext
        rw [List.append_nil] at hevent
        exact hlater [] htodo.symm (by rw [hevent, List.append_nil])
      · exact ⟨[], e, done, next, ⟨⟨trace, rfl, htodo⟩, hevent, rfl, hnext⟩⟩

/-- Parties that do something of their own only are matched. -/
theorem matched_of_own {acts : P → E → List (Act P A)} {e : E}
    (h : ∀ p, ∀ act ∈ acts p e, ∃ a, act = .own a) : Matched acts e := by
  have hnone : ∀ p, ∀ l ⊆ acts p e, ∀ q, sent q l = 0 ∧ received q l = 0 := by
    intro p l hl q
    rw [sent, received, List.countP_eq_zero, List.countP_eq_zero, ← forall₂_and]
    intro act hact
    obtain ⟨a, rfl⟩ := h p act (hl hact)
    exact ⟨Bool.false_ne_true, Bool.false_ne_true⟩
  refine ⟨fun p q => ?_, fun p first rest q heq _ r => ?_⟩
  · rw [(hnone p _ (List.Subset.refl _) q).1, (hnone q _ (List.Subset.refl _) p).2]
  · exact (hnone p rest (heq ▸ List.subset_append_right ..) r).1

theorem sent_map (q : P) (l : List P) :
    sent q (l.map (Act.send (A := A))) = l.count q ∧ received q (l.map (Act.send (A := A))) = 0 := by
  constructor
  · rw [sent, List.countP_map, List.count]
    exact List.countP_congr fun p _ => by simp [Act.isSend]
  · rw [received, List.countP_map, List.countP_eq_zero]
    exact fun p _ => Bool.false_ne_true

theorem received_map (q : P) (l : List P) :
    received q (l.map (Act.recv (A := A))) = l.count q ∧ sent q (l.map (Act.recv (A := A))) = 0 := by
  constructor
  · rw [received, List.countP_map, List.count]
    exact List.countP_congr fun p _ => by simp [Act.isRecv]
  · rw [sent, List.countP_map, List.countP_eq_zero]
    exact fun p _ => Bool.false_ne_true

/-- Parties that send to all their peers and then take from all of them are matched, if they are peers
of each other. -/
theorem matched_of_mutual {acts : P → E → List (Act P A)} {e : E} (peers : P → List P)
    (hacts : ∀ p, acts p e = (peers p).map .send ++ (peers p).map .recv)
    (hnodup : ∀ p, (peers p).Nodup) (hmutual : ∀ p q, q ∈ peers p → p ∈ peers q) :
    Matched acts e := by
  refine ⟨fun p q => ?_, fun p first rest q heq hrecv r => ?_⟩
  · rw [hacts, hacts, sent_append, received_append, (sent_map q _).1, (received_map q _).2,
      (sent_map p _).2, (received_map p _).1, Nat.add_zero, Nat.zero_add, (hnodup p).count,
      (hnodup q).count]
    exact if_congr ⟨hmutual p q, hmutual q p⟩ rfl rfl
  · rw [hacts] at heq
    rcases List.append_eq_append_iff.mp heq with ⟨mid, -, hrest⟩ | ⟨mid, hfirst, -⟩
    · have hle : sent r rest ≤ sent r ((peers p).map (Act.recv (A := A))) :=
        (hrest ▸ List.sublist_append_right mid rest).countP_le
      rw [(received_map r _).2] at hle
      exact Nat.le_zero.mp hle
    · have hle : received q first ≤ received q ((peers p).map (Act.send (A := A))) :=
        (hfirst ▸ List.sublist_append_left first mid).countP_le
      rw [(sent_map q _).2] at hle
      omega

section Trace

variable {acts : P → E → List (Act P A)} {trace : List E}

/-- Over whole events tokens are balanced. -/
theorem sent_flatMap (h : ∀ e ∈ trace, Matched acts e) (p q : P) :
    sent q (trace.flatMap (acts p)) = received p (trace.flatMap (acts q)) := by
  induction trace with
  | nil => rfl
  | cons e trace ih =>
    obtain ⟨he, h⟩ := List.forall_mem_cons.mp h
    rw [List.flatMap_cons, List.flatMap_cons, sent_append, received_append, he.balanced p q, ih h]

omit [DecidableEq P] in
theorem flatMap_prefix (p : P) (pre : List E) (post : List E) :
    pre.flatMap (acts p) <+: (pre ++ post).flatMap (acts p) := by
  rw [List.flatMap_append]
  exact List.prefix_append _ _

variable (hmatched : ∀ e ∈ trace, Matched acts e)
  (h : Progress (fun p => trace.flatMap (acts p)) s done)

include hmatched h

/-- **Events are kept apart**: a party that has taken more tokens from another than the events up to
some point have for it finds the other beyond that point. -/
theorem Progress.beyond {pre post : List E} (htrace : trace = pre ++ post) {p q : P}
    (hmore : received q (pre.flatMap (acts p)) < received q (done p)) :
    pre.flatMap (acts q) <+: done q := by
  have hprogram : done q <+: trace.flatMap (acts q) := ⟨_, (h.program_eq q).symm⟩
  have hpre : pre.flatMap (acts q) <+: trace.flatMap (acts q) := htrace ▸ flatMap_prefix q pre post
  rcases List.prefix_or_prefix_of_prefix hpre hprogram with hle | hle
  · exact hle
  · -- the other party has not sent that many
    have hsent : sent p (done q) ≤ sent p (pre.flatMap (acts q)) := hle.sublist.countP_le
    have hbalanced := sent_flatMap (fun e he => hmatched e (htrace ▸ List.mem_append_left _ he)) q p
    have htokens := h.tokens_eq q p
    grind

/-- What a party waits for in an event is there if the other party is in the same event, and done with
its sends, or in a later one. -/
theorem Progress.token {p q : P} {pre : List E} {e : E} {now next : List (Act P A)}
    (hat : At (acts p) trace (done p) (s.todo p) pre e now (.recv q :: next))
    (hother : sent p (pre.flatMap (acts q)) + sent p (acts q e) ≤ sent p (done q)) :
    0 < s.tokens q p := by
  obtain ⟨post, htrace, -⟩ := hat.trace_eq
  have hpre := sent_flatMap (fun e he => hmatched e (htrace ▸ List.mem_append_left _ he)) q p
  have hevent := (hmatched e (htrace ▸ List.mem_append_right _ List.mem_cons_self)).balanced q p
  have hdone : received q (done p) = received q (pre.flatMap (acts p)) + received q now := by
    rw [hat.done_eq, received_append]
  have hall : received q (acts p e) = received q now + received q (.recv q :: next) := by
    rw [hat.event_eq, received_append]
  have hone : received q (.recv q :: next) = received q next + 1 := by
    simp [received, Act.isRecv]
  have htokens := h.tokens_eq q p
  omega

/-- **No party waits for ever.** -/
theorem Progress.exists_step (hnot : ¬ s.Finished) : ∃ s', Step s s' := by
  obtain ⟨p, hp⟩ := not_forall.mp hnot
  -- some party is in the earliest event
  have hsome : ∃ n p pre e now next, pre.length = n ∧
      At (acts p) trace (done p) (s.todo p) pre e now next := by
    obtain ⟨pre, e, now, next, hat⟩ := exists_at (h.program_eq p) hp
    exact ⟨_, p, pre, e, now, next, rfl, hat⟩
  classical
  obtain ⟨p, pre, e, now, next, hlen, hat⟩ := Nat.find_spec hsome
  have hfirst : ∀ {p pre e now next}, At (acts p) trace (done p) (s.todo p) pre e now next →
      Nat.find hsome ≤ pre.length := fun hat' => Nat.find_min' hsome ⟨_, _, _, _, _, rfl, hat'⟩
  obtain ⟨post, htrace, htodo⟩ := hat.trace_eq
  by_contra hstuck
  -- a party that can do nothing waits
  have hwaits : ∀ {p pre e now next}, At (acts p) trace (done p) (s.todo p) pre e now next →
      ∃ q next', next = .recv q :: next' ∧ s.tokens q p = 0 := by
    intro p pre e now next hat
    obtain ⟨post, -, htodo⟩ := hat.trace_eq
    cases next with
    | nil => exact absurd rfl hat.next_ne
    | cons act next =>
      cases act with
      | own a => exact absurd ⟨_, .own htodo⟩ hstuck
      | send q => exact absurd ⟨_, .send htodo⟩ hstuck
      | recv q =>
        exact ⟨q, next, rfl, Nat.eq_zero_of_not_pos fun htoken => hstuck ⟨_, .recv htodo htoken⟩⟩
  obtain ⟨q, next', rfl, hzero⟩ := hwaits hat
  refine Nat.ne_of_gt (h.token hmatched hat ?_) hzero
  by_cases hfinished : s.todo q = []
  · -- the other party is finished
    rw [h.done_eq hfinished, htrace, List.flatMap_append, List.flatMap_cons, sent_append, sent_append]
    omega
  · obtain ⟨pre', e', now', next'', hat'⟩ := exists_at (h.program_eq q) hfinished
    obtain ⟨post', htrace', -⟩ := hat'.trace_eq
    have hprefix : pre <+: pre' := List.prefix_of_prefix_length_le ⟨_, htrace.symm⟩
      ⟨_, htrace'.symm⟩ (hlen ▸ hfirst hat')
    obtain ⟨mid, rfl⟩ := hprefix
    rw [htrace, List.append_assoc] at htrace'
    have hrest := List.append_cancel_left htrace'
    rw [hat'.done_eq, List.flatMap_append, sent_append, sent_append]
    cases mid with
    | nil =>
      -- both parties are in the same event, and the other one has sent already
      obtain ⟨rfl, -⟩ := List.cons.inj hrest
      obtain ⟨r, next₁, rfl, -⟩ := hwaits hat'
      have hsplit : acts q e = (now' ++ [.recv r]) ++ next₁ := by
        rw [hat'.event_eq, List.append_assoc]
        rfl
      have hrecv : 0 < received r (now' ++ [.recv r]) := by
        simp [received, Act.isRecv, List.countP_append]
      have hlater := (hmatched e (htrace ▸ List.mem_append_right _ List.mem_cons_self)).sendsFirst
        q _ _ r hsplit hrecv p
      have hnow : sent p (acts q e) = sent p now' := by
        rw [hsplit, sent_append, sent_append, hlater]
        rfl
      grind
    | cons e₁ mid =>
      obtain ⟨rfl, -⟩ := List.cons.inj hrest
      rw [List.flatMap_cons, sent_append]
      omega

/-- **No token is left.** -/
theorem Progress.no_token (hfinished : s.Finished) (p q : P) : s.tokens p q = 0 := by
  have htokens := h.tokens_eq p q
  have hbalanced := sent_flatMap hmatched p q
  rw [h.done_eq (hfinished p), h.done_eq (hfinished q)] at htokens
  omega

end Trace

/-! ## Whole runs -/

/-- The number of actions that some parties have left. -/
def remaining (parties : List P) (s : State P A) : Nat :=
  parties.foldr (fun p n => (s.todo p).length + n) 0

/-- Only one party moves, and it has less to do then. -/
theorem Step.todo (h : Step s s') :
    ∃ p act, s.todo p = act :: s'.todo p ∧ ∀ q, q ≠ p → s'.todo q = s.todo q := by
  cases h with
  | @own p a rest h => exact ⟨p, _, by simpa using h, fun q hq => Function.update_of_ne hq ..⟩
  | @send p q rest h => exact ⟨p, _, by simpa using h, fun q hq => Function.update_of_ne hq ..⟩
  | @recv p q rest h _ => exact ⟨p, _, by simpa using h, fun q hq => Function.update_of_ne hq ..⟩

omit [DecidableEq P] in
theorem remaining_lt {parties : List P} {p : P} (hp : p ∈ parties)
    (hlt : (s'.todo p).length < (s.todo p).length)
    (hle : ∀ q, (s'.todo q).length ≤ (s.todo q).length) :
    remaining parties s' < remaining parties s := by
  have hall : ∀ l : List P, remaining l s' ≤ remaining l s := by
    intro l
    induction l with
    | nil => exact Nat.le_refl _
    | cons q l ih => exact Nat.add_le_add (hle q) ih
  induction parties with
  | nil => cases hp
  | cons q parties ih =>
    rcases List.mem_cons.mp hp with rfl | hp
    · exact Nat.add_lt_add_of_lt_of_le hlt (hall parties)
    · exact Nat.add_lt_add_of_le_of_lt (hle q) (ih hp)

theorem Step.remaining_lt {parties : List P} (h : Step s s')
    (hparties : ∀ p, p ∉ parties → s.todo p = []) : remaining parties s' < remaining parties s := by
  obtain ⟨p, act, htodo, hother⟩ := h.todo
  refine Signalling.remaining_lt (p := p) ?_ ?_ fun q => ?_
  · by_contra hnot
    rw [hparties p hnot] at htodo
    cases htodo
  · rw [htodo]
    exact Nat.lt_succ_self _
  · by_cases hq : q = p
    · rw [hq, htodo]
      exact Nat.le_succ _
    · rw [hother q hq]

/-- **Every run can be finished**, where only some parties have a program. -/
theorem Reachable.exists_finished {acts : P → E → List (Act P A)} {trace : List E}
    (hmatched : ∀ e ∈ trace, Matched acts e) {parties : List P}
    (hparties : ∀ p, p ∉ parties → trace.flatMap (acts p) = [])
    (h : Reachable (fun p => trace.flatMap (acts p)) s) :
    ∃ t, Relation.ReflTransGen Step s t ∧ t.Finished := by
  induction hn : remaining parties s using Nat.strong_induction_on generalizing s with
  | _ n ih =>
    by_cases hfinished : s.Finished
    · exact ⟨s, .refl, hfinished⟩
    · obtain ⟨done, hdone⟩ := h.progress
      obtain ⟨s', hstep⟩ := hdone.exists_step hmatched hfinished
      have hidle : ∀ p, p ∉ parties → s.todo p = [] := fun p hp =>
        (List.append_eq_nil_iff.mp ((hdone.program_eq p).symm.trans (hparties p hp))).2
      obtain ⟨t, hrun, ht⟩ := ih _ (hn ▸ hstep.remaining_lt hidle) (h.tail hstep) rfl
      exact ⟨t, .head hstep hrun, ht⟩

end Signalling
