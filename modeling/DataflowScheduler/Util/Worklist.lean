import Mathlib.Algebra.Order.BigOperators.Group.List
import Mathlib.Algebra.Order.Ring.Nat
import Mathlib.Logic.Relation
import Mathlib.Tactic.Common

/-!
# Closures by a worklist

What is pending is taken up one by one. It may stand for a node; a node that is new is found, and
what it leads to is pending next.
-/

namespace Worklist

variable {α β ε : Type} [DecidableEq α]

/-- The nodes in `found` and those that the walk adds. It takes up `fuel` pending items at most. -/
def drain (source : β → Except ε (Option α)) (next : α → List β) :
    Nat → List α → List β → Except ε (List α)
  | 0, found, _ => .ok found
  | _ + 1, found, [] => .ok found
  | fuel + 1, found, b :: pending =>
    match source b with
    | .error e => .error e
    | .ok none => drain source next fuel found pending
    | .ok (some a) =>
      if a ∈ found then drain source next fuel found pending
      else drain source next fuel (a :: found) ((next a).reverse ++ pending)

/-- What the nodes in `found` and the pending items lead to. -/
inductive Reached (source : β → Except ε (Option α)) (next : α → List β) (found : List α)
    (pending : List β) : α → Prop
  | found {a : α} (h : a ∈ found) : Reached source next found pending a
  | pending {b : β} {a : α} (h : b ∈ pending) (hsource : source b = .ok (some a)) :
      Reached source next found pending a
  | step {a a' : α} {b : β} (h : Reached source next found pending a) (hb : b ∈ next a)
      (hsource : source b = .ok (some a')) : Reached source next found pending a'

namespace Reached

variable {source : β → Except ε (Option α)} {next : α → List β} {found found' : List α}
  {pending pending' : List β} {a : α} {b : β}

omit [DecidableEq α] in
theorem mono (h : Reached source next found pending a)
    (hfound : ∀ x ∈ found, Reached source next found' pending' x)
    (hpending : ∀ c ∈ pending, ∀ x, source c = .ok (some x) →
      Reached source next found' pending' x) : Reached source next found' pending' a := by
  induction h with
  | found hx => exact hfound _ hx
  | pending hc hsource => exact hpending _ hc _ hsource
  | step _ hb hsource ih => exact ih.step hb hsource

omit [DecidableEq α] in
/-- What is found is all there is when nothing is pending and it is closed. -/
theorem nil_iff (hclosed : ∀ x ∈ found, ∀ c ∈ next x, ∀ y, source c = .ok (some y) → y ∈ found) :
    Reached source next found [] a ↔ a ∈ found := by
  constructor
  · intro h
    induction h with
    | found hx => exact hx
    | pending hc => cases hc
    | step _ hb hsource ih => exact hclosed _ ih _ hb _ hsource
  · exact Reached.found

omit [DecidableEq α] in
/-- An item that brings nothing new can be dropped. -/
theorem skip_iff (hold : ∀ x, source b = .ok (some x) → x ∈ found) :
    Reached source next found pending a ↔ Reached source next found (b :: pending) a := by
  constructor <;> intro h
  · exact h.mono (fun _ => .found) fun c hc _ => .pending (List.mem_cons_of_mem _ hc)
  · refine h.mono (fun _ => .found) fun c hc x hsource => ?_
    rcases List.mem_cons.1 hc with rfl | hc
    · exact .found (hold x hsource)
    · exact .pending hc hsource

omit [DecidableEq α] in
/-- An item that brings a node stands for what the node leads to. -/
theorem take_iff {x : α} (hx : source b = .ok (some x)) :
    Reached source next (x :: found) ((next x).reverse ++ pending) a ↔
      Reached source next found (b :: pending) a := by
  have hbring : Reached source next found (b :: pending) x := .pending List.mem_cons_self hx
  constructor <;> intro h
  · refine h.mono (List.forall_mem_cons.2 ⟨hbring, fun _ => .found⟩) fun c hc y hsource => ?_
    rcases List.mem_append.1 hc with hc | hc
    · exact hbring.step (List.mem_reverse.1 hc) hsource
    · exact .pending (List.mem_cons_of_mem _ hc) hsource
  · refine h.mono (fun y hy => .found (List.mem_cons_of_mem _ hy)) fun c hc y hsource => ?_
    rcases List.mem_cons.1 hc with rfl | hc
    · rw [hx] at hsource
      obtain rfl : x = y := by simpa using hsource
      exact .found List.mem_cons_self
    · exact .pending (List.mem_append_right _ hc) hsource

end Reached

/-- Items that the nodes not found yet may still bring up. -/
def remaining (next : α → List β) (nodes found : List α) : Nat :=
  ((nodes.filter (· ∉ found)).map fun a => (next a).length).sum

omit [DecidableEq α] in
theorem sum_filter_add_sum_filter (p : α → Bool) (f : α → Nat) (l : List α) :
    ((l.filter p).map f).sum + ((l.filter fun a => !p a).map f).sum = (l.map f).sum := by
  induction l with
  | nil => rfl
  | cons a l ih =>
    cases h : p a <;> simp [h] <;> omega

theorem remaining_cons_le {next : α → List β} {nodes found : List α} {a : α} (ha : a ∈ nodes)
    (hnew : a ∉ found) :
    remaining next nodes (a :: found) + (next a).length ≤ remaining next nodes found := by
  have hsub : ((nodes.filter (· ∉ found)).filter (· ≠ a)) = nodes.filter (· ∉ a :: found) := by
    rw [List.filter_filter]
    apply List.filter_congr
    intro x _
    simp only [List.mem_cons, not_or, ne_eq, Bool.decide_and]
  have hmem : a ∈ nodes.filter (· ∉ found) := List.mem_filter.2 ⟨ha, by simpa using hnew⟩
  unfold remaining
  rw [← hsub]
  generalize nodes.filter (· ∉ found) = l at hmem ⊢
  induction l with
  | nil => cases hmem
  | cons x l ih =>
    rw [List.map_cons, List.sum_cons]
    have hle : ((l.filter (· ≠ a)).map fun a => (next a).length).sum ≤
        (l.map fun a => (next a).length).sum :=
      (List.filter_sublist.map _).sum_le_sum fun _ _ => Nat.zero_le _
    by_cases hx : x = a
    · subst hx
      rw [List.filter_cons_of_neg (by simp)]
      omega
    · rw [List.filter_cons_of_pos (by simpa using hx), List.map_cons, List.sum_cons]
      have := ih ((List.mem_cons.1 hmem).resolve_left fun h => hx h.symm)
      omega

/-- An item does not fail, and the node it stands for, if any, is one of the given ones. -/
def LeadsInto (source : β → Except ε (Option α)) (nodes : List α) (b : β) : Prop :=
  ∃ o, source b = .ok o ∧ ∀ a ∈ o, a ∈ nodes

/-- Where nothing fails the walk ends with all that is reached. -/
theorem drain_ok {source : β → Except ε (Option α)} {next : α → List β} {nodes : List α}
    (hnext : ∀ a ∈ nodes, ∀ b ∈ next a, LeadsInto source nodes b)
    {fuel : Nat} {found : List α} {pending : List β}
    (hfuel : remaining next nodes found + pending.length ≤ fuel)
    (hpending : ∀ b ∈ pending, LeadsInto source nodes b)
    (hclosed : ∀ a ∈ found, ∀ b ∈ next a, ∀ a', source b = .ok (some a') →
      b ∈ pending ∨ a' ∈ found) :
    ∃ all, drain source next fuel found pending = .ok all ∧
      ∀ a, a ∈ all ↔ Reached source next found pending a := by
  have hdone : ∀ found, (∀ a ∈ found, ∀ b ∈ next a, ∀ a', source b = .ok (some a') →
      b ∈ ([] : List β) ∨ a' ∈ found) → ∀ a, a ∈ found ↔ Reached source next found [] a := by
    intro found h a
    exact (Reached.nil_iff fun x hx c hc y hy =>
      (h x hx c hc y hy).resolve_left List.not_mem_nil).symm
  induction fuel generalizing found pending with
  | zero =>
    obtain rfl : pending = [] := List.eq_nil_of_length_eq_zero (by omega)
    exact ⟨found, rfl, hdone found hclosed⟩
  | succ fuel ih =>
    cases pending with
    | nil => exact ⟨found, rfl, hdone found hclosed⟩
    | cons b pending =>
      rw [List.length_cons] at hfuel
      rw [List.forall_mem_cons] at hpending
      -- an item that brings nothing new is dropped
      have hskip (hold : ∀ x, source b = .ok (some x) → x ∈ found) :
          ∃ all, drain source next fuel found pending = .ok all ∧
            ∀ a, a ∈ all ↔ Reached source next found (b :: pending) a := by
        obtain ⟨all, hall, hmem⟩ := @ih found pending (by omega) hpending.2 (by
          intro a ha c hc a' hsource
          rcases hclosed a ha c hc a' hsource with hpend | hin
          · rcases List.mem_cons.1 hpend with rfl | hpend
            · exact Or.inr (hold a' hsource)
            · exact Or.inl hpend
          · exact Or.inr hin)
        exact ⟨all, hall, fun a => (hmem a).trans (Reached.skip_iff hold)⟩
      obtain ⟨⟨o, hb, ho⟩, hpending⟩ := hpending
      cases o with
      | none =>
        simp only [drain, hb]
        exact hskip fun x hx => by simp [hb] at hx
      | some x =>
        have hnode : x ∈ nodes := ho x rfl
        by_cases hx : x ∈ found
        · simp only [drain, hb, if_pos hx]
          refine hskip fun y hy => ?_
          obtain rfl : x = y := by simpa [hb] using hy
          exact hx
        · have hless := @remaining_cons_le _ _ _ next _ _ _ hnode hx
          obtain ⟨all, hall, hmem⟩ := @ih (x :: found) ((next x).reverse ++ pending)
            (by
              rw [List.length_append, List.length_reverse]
              omega)
            (by
              intro c hc
              rcases List.mem_append.1 hc with hc | hc
              · exact hnext x hnode c (List.mem_reverse.1 hc)
              · exact hpending c hc)
            (by
              intro a ha c hc a' hsource
              rcases List.mem_cons.1 ha with rfl | ha
              · exact Or.inl (List.mem_append_left _ (List.mem_reverse.2 hc))
              rcases hclosed a ha c hc a' hsource with hpend | hin
              · rcases List.mem_cons.1 hpend with rfl | hpend
                · obtain rfl : x = a' := by simpa [hb] using hsource
                  exact Or.inr List.mem_cons_self
                · exact Or.inl (List.mem_append_right _ hpend)
              · exact Or.inr (List.mem_cons_of_mem _ hin))
          simp only [drain, hb, if_neg hx]
          exact ⟨all, hall, fun a => (hmem a).trans (Reached.take_iff hb)⟩

/-! ## Where items are the nodes -/

section Graph

variable (next : α → List α)

/-- All nodes that the pending ones lead to, the one found last first. -/
def closure (fuel : Nat) (pending : List α) : List α :=
  match drain (fun a => .ok (some a) : α → Except Empty (Option α)) next fuel [] pending with
  | .ok found => found
  | .error e => nomatch e

variable {next}

/-- With fuel for all items the closure is what can be reached. -/
theorem mem_closure_iff {nodes : List α} (hnext : ∀ a ∈ nodes, ∀ b ∈ next a, b ∈ nodes)
    {fuel : Nat} {pending : List α} (hpending : ∀ a ∈ pending, a ∈ nodes)
    (hfuel : (nodes.map fun a => (next a).length).sum + pending.length ≤ fuel) {a : α} :
    a ∈ closure next fuel pending ↔
      ∃ start ∈ pending, Relation.ReflTransGen (fun x y => y ∈ next x) start a := by
  have hnodes : ∀ b ∈ nodes, LeadsInto (fun a => .ok (some a) : α → Except Empty (Option α)) nodes b :=
    fun b hb => ⟨some b, rfl, fun c hc => by cases hc; exact hb⟩
  have hremaining : remaining next nodes [] + pending.length ≤ fuel := by
    simpa [remaining] using hfuel
  obtain ⟨all, hall, hmem⟩ := drain_ok (fun b hb c hc => hnodes c (hnext b hb c hc)) hremaining
    (fun b hb => hnodes b (hpending b hb)) (fun b hb => absurd hb List.not_mem_nil)
  rw [closure, hall]
  refine (hmem a).trans ⟨fun h => ?_, ?_⟩
  · induction h with
    | found h => exact absurd h List.not_mem_nil
    | pending hb hsource =>
        cases hsource
        exact ⟨_, hb, .refl⟩
    | step _ hb hsource ih =>
        cases hsource
        obtain ⟨start, hstart, hpath⟩ := ih
        exact ⟨start, hstart, hpath.tail hb⟩
  · rintro ⟨start, hstart, hpath⟩
    induction hpath with
    | refl => exact .pending hstart rfl
    | tail _ hb ih => exact ih.step hb rfl

end Graph

end Worklist
