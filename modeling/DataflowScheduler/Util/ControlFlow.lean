import Mathlib.Data.List.Nodup
import Mathlib.Logic.Basic

/-!
# Loops and conditionals, and the paths through them

A body is a block of ops: plain ones, loops and conditionals, which hold blocks of their own. A path
is what one execution enters, where a loop runs any number of times and a conditional goes either way.
-/

namespace ControlFlow

variable {ι α : Type}

/-- A block of ops, each with the ops that follow it in the block. -/
inductive Body (ι α : Type) where
  | done
  | leaf (id : ι) (op : α) (rest : Body ι α)
  | loop (id : ι) (body rest : Body ι α)
  | branch (id : ι) (onTrue onFalse rest : Body ι α)
  deriving DecidableEq

/-- What a path goes through: it enters an op, or leaves an arm of a conditional at its end. -/
inductive Event (ι : Type) where
  | enter (id : ι)
  | leave (id : ι) (arm : Bool)
  deriving DecidableEq

namespace Event

/-- The op that an event is about. -/
def id : Event ι → ι
  | .enter i => i
  | .leave i _ => i

@[simp] theorem id_enter (i : ι) : (enter i).id = i := rfl

@[simp] theorem id_leave (i : ι) (arm : Bool) : (leave i arm).id = i := rfl

end Event

open Event

namespace Body

/-- The ops of a block in the order of the text. -/
def ids : Body ι α → List ι
  | .done => []
  | .leaf i _ rest => i :: rest.ids
  | .loop i body rest => i :: (body.ids ++ rest.ids)
  | .branch i a b rest => i :: (a.ids ++ (b.ids ++ rest.ids))

/-- The executions of a block. -/
def Path : Body ι α → List (Event ι) → Prop
  | .done, t => t = []
  | .leaf i _ rest, t => ∃ u, Path rest u ∧ t = enter i :: u
  | .loop i body rest, t => ∃ (its : List (List (Event ι))) (u : List (Event ι)),
      (∀ it ∈ its, Path body it) ∧ Path rest u ∧ t = enter i :: (its.flatten ++ u)
  | .branch i a b rest, t => ∃ arm w u, (arm = true ∧ Path a w ∨ arm = false ∧ Path b w) ∧
      Path rest u ∧ t = enter i :: (w ++ leave i arm :: u)

/-! ### What is on a path -/

theorem exists_path (b : Body ι α) : ∃ t, b.Path t := by
  induction b with
  | done => exact ⟨[], by rw [Path]⟩
  | leaf i op rest ih =>
    obtain ⟨u, hu⟩ := ih
    exact ⟨enter i :: u, u, hu, rfl⟩
  | loop i body rest _ ih =>
    obtain ⟨u, hu⟩ := ih
    exact ⟨enter i :: u, [], u, (by simp), hu, rfl⟩
  | branch i a b rest iha _ ih =>
    obtain ⟨w, hw⟩ := iha
    obtain ⟨u, hu⟩ := ih
    exact ⟨enter i :: (w ++ leave i true :: u), true, w, u, .inl ⟨rfl, hw⟩, hu, rfl⟩

/-- A path stays within the ops of its block. -/
theorem Path.id_mem {b : Body ι α} {t : List (Event ι)} (ht : b.Path t) :
    ∀ ev ∈ t, ev.id ∈ b.ids := by
  induction b generalizing t with
  | done =>
    rw [Path] at ht
    subst ht
    simp
  | leaf i op rest ih =>
    obtain ⟨u, hu, rfl⟩ := ht
    intro ev hev
    rcases List.mem_cons.mp hev with rfl | hev
    · exact List.mem_cons_self
    · exact List.mem_cons_of_mem _ (ih hu ev hev)
  | loop i body rest ihb ih =>
    obtain ⟨its, u, hits, hu, rfl⟩ := ht
    intro ev hev
    rcases List.mem_cons.mp hev with rfl | hev
    · exact List.mem_cons_self
    apply List.mem_cons_of_mem
    rcases List.mem_append.mp hev with hev | hev
    · obtain ⟨it, hit, hev⟩ := List.mem_flatten.mp hev
      exact List.mem_append_left _ (ihb (hits it hit) ev hev)
    · exact List.mem_append_right _ (ih hu ev hev)
  | branch i a b rest iha ihb ih =>
    obtain ⟨arm, w, u, hw, hu, rfl⟩ := ht
    intro ev hev
    simp only [List.mem_cons, List.mem_append] at hev
    simp only [ids, List.mem_cons, List.mem_append]
    rcases hev with rfl | hev | rfl | hev
    · exact .inl rfl
    · rcases hw with ⟨-, hw⟩ | ⟨-, hw⟩
      · exact .inr (.inl (iha hw ev hev))
      · exact .inr (.inr (.inl (ihb hw ev hev)))
    · exact .inl rfl
    · exact .inr (.inr (.inr (ih hu ev hev)))

/-- Every op is on some path. -/
theorem exists_path_enter {b : Body ι α} {d : ι} (hd : d ∈ b.ids) :
    ∃ t, b.Path t ∧ enter d ∈ t := by
  induction b with
  | done => exact absurd hd List.not_mem_nil
  | leaf i op rest ih =>
    rcases List.mem_cons.mp hd with rfl | hd
    · obtain ⟨u, hu⟩ := exists_path rest
      exact ⟨enter d :: u, ⟨u, hu, rfl⟩, List.mem_cons_self⟩
    · obtain ⟨u, hu, hmem⟩ := ih hd
      exact ⟨enter i :: u, ⟨u, hu, rfl⟩, List.mem_cons_of_mem _ hmem⟩
  | loop i body rest ihb ih =>
    obtain ⟨u, hu⟩ := exists_path rest
    rcases List.mem_cons.mp hd with rfl | hd
    · exact ⟨enter d :: u, ⟨[], u, (by simp), hu, rfl⟩, List.mem_cons_self⟩
    rcases List.mem_append.mp hd with hd | hd
    · obtain ⟨it, hit, hmem⟩ := ihb hd
      refine ⟨enter i :: (it ++ u), ⟨[it], u, ?_, hu, by simp⟩, by simp [hmem]⟩
      exact fun it' h => List.mem_singleton.mp h ▸ hit
    · obtain ⟨u, hu, hmem⟩ := ih hd
      exact ⟨enter i :: u, ⟨[], u, (by simp), hu, rfl⟩, List.mem_cons_of_mem _ hmem⟩
  | branch i a b rest iha ihb ih =>
    obtain ⟨w, hw⟩ := exists_path a
    obtain ⟨u, hu⟩ := exists_path rest
    rcases List.mem_cons.mp hd with rfl | hd
    · exact ⟨enter d :: (w ++ leave d true :: u), ⟨true, w, u, .inl ⟨rfl, hw⟩, hu, rfl⟩,
        List.mem_cons_self⟩
    rcases List.mem_append.mp hd with hd | hd
    · obtain ⟨w, hw, hmem⟩ := iha hd
      exact ⟨enter i :: (w ++ leave i true :: u), ⟨true, w, u, .inl ⟨rfl, hw⟩, hu, rfl⟩,
        by simp [hmem]⟩
    rcases List.mem_append.mp hd with hd | hd
    · obtain ⟨w, hw, hmem⟩ := ihb hd
      exact ⟨enter i :: (w ++ leave i false :: u), ⟨false, w, u, .inr ⟨rfl, hw⟩, hu, rfl⟩,
        by simp [hmem]⟩
    · obtain ⟨u, hu, hmem⟩ := ih hd
      exact ⟨enter i :: (w ++ leave i true :: u), ⟨true, w, u, .inl ⟨rfl, hw⟩, hu, rfl⟩,
        by simp [hmem]⟩

end Body

/-! ### Two events in order -/

/-- Two elements one after the other in a list that is put together of two. -/
theorem pair_sublist_append {β : Type} {a b : β} {s t : List β} :
    [a, b].Sublist (s ++ t) ↔ [a, b].Sublist s ∨ a ∈ s ∧ b ∈ t ∨ [a, b].Sublist t := by
  constructor
  · intro h
    obtain ⟨l, r, hlr, hl, hr⟩ := List.sublist_append_iff.mp h
    match l, hlr with
    | [], hlr =>
      rw [List.nil_append] at hlr
      exact .inr (.inr (hlr ▸ hr))
    | [x], hlr =>
      rw [List.singleton_append, List.cons.injEq] at hlr
      obtain ⟨rfl, rfl⟩ := hlr
      exact .inr (.inl ⟨List.singleton_sublist.mp hl, List.singleton_sublist.mp hr⟩)
    | [x, y], hlr =>
      simp only [List.cons_append, List.nil_append, List.cons.injEq] at hlr
      obtain ⟨rfl, rfl, -⟩ := hlr
      exact .inl hl
    | x :: y :: z :: l, hlr => simp at hlr
  · rintro (h | ⟨ha, hb⟩ | h)
    · exact h.trans (List.sublist_append_left s t)
    · exact (List.singleton_sublist.mpr ha).append (List.singleton_sublist.mpr hb)
    · exact h.trans (List.sublist_append_right s t)

theorem pair_sublist_iff {β : Type} {a b : β} {t : List β} :
    [a, b].Sublist t ↔ ∃ p q r, t = p ++ a :: (q ++ b :: r) := by
  constructor
  · intro h
    obtain ⟨s, u, rfl, ha, hb⟩ := List.cons_sublist_iff.mp h
    obtain ⟨p, q, rfl⟩ := List.append_of_mem ha
    obtain ⟨q', r, rfl⟩ := List.append_of_mem (List.singleton_sublist.mp hb)
    exact ⟨p, q ++ q', r, by simp⟩
  · rintro ⟨p, q, r, rfl⟩
    apply List.Sublist.trans _ (List.sublist_append_right p _)
    apply List.Sublist.cons_cons
    exact List.singleton_sublist.mpr (List.mem_append_right q List.mem_cons_self)

theorem pair_sublist_cons {β : Type} {a b x : β} {t : List β} :
    [a, b].Sublist (x :: t) ↔ a = x ∧ b ∈ t ∨ [a, b].Sublist t := by
  show [a, b].Sublist ([x] ++ t) ↔ _
  rw [pair_sublist_append, List.mem_singleton]
  constructor
  · rintro (h | h)
    · exact absurd h.length_le (by simp)
    · exact h
  · exact .inr

namespace Body

variable [DecidableEq ι]

/-- Some path enters the second op after the first. -/
def mayPrecede (e d : ι) : Body ι α → Bool
  | .done => false
  | .leaf i _ rest => decide (e = i ∧ d ∈ rest.ids) || rest.mayPrecede e d
  | .loop i body rest =>
    decide (e ∈ i :: body.ids ∧ (d ∈ body.ids ∨ d ∈ rest.ids)) || rest.mayPrecede e d
  | .branch i a b rest =>
    decide (e = i ∧ (d ∈ a.ids ∨ d ∈ b.ids) ∨ e ∈ i :: (a.ids ++ b.ids) ∧ d ∈ rest.ids) ||
      (a.mayPrecede e d || b.mayPrecede e d) || rest.mayPrecede e d

theorem mayPrecede_of_path {b : Body ι α} {t : List (Event ι)} {e d : ι} (ht : b.Path t)
    (h : [enter e, enter d].Sublist t) : b.mayPrecede e d = true := by
  induction b generalizing t with
  | done =>
    rw [Path] at ht
    subst ht
    exact absurd h.length_le (by simp)
  | leaf i op rest ih =>
    obtain ⟨u, hu, rfl⟩ := ht
    rw [mayPrecede, Bool.or_eq_true, decide_eq_true_eq]
    rcases pair_sublist_cons.mp h with ⟨he, hd⟩ | h
    · exact .inl ⟨Event.enter.inj he, hu.id_mem _ hd⟩
    · exact .inr (ih hu h)
  | loop i body rest ihb ih =>
    obtain ⟨its, u, hits, hu, rfl⟩ := ht
    have hbody : ∀ ev ∈ its.flatten, ev.id ∈ body.ids := by
      intro ev hev
      obtain ⟨it, hit, hev⟩ := List.mem_flatten.mp hev
      exact (hits it hit).id_mem ev hev
    rw [mayPrecede, Bool.or_eq_true, decide_eq_true_eq]
    rcases pair_sublist_cons.mp h with ⟨he, hd⟩ | h
    · refine .inl ⟨Event.enter.inj he ▸ List.mem_cons_self, ?_⟩
      exact (List.mem_append.mp hd).imp (hbody _) (hu.id_mem _)
    rcases pair_sublist_append.mp h with h | ⟨he, hd⟩ | h
    · -- both in the loop, if not in one iteration then in two
      have he := hbody _ (h.subset List.mem_cons_self)
      have hd := hbody _ (h.subset (List.mem_cons_of_mem _ List.mem_cons_self))
      exact .inl ⟨List.mem_cons_of_mem _ he, .inl hd⟩
    · exact .inl ⟨List.mem_cons_of_mem _ (hbody _ he), .inr (hu.id_mem _ hd)⟩
    · exact .inr (ih hu h)
  | branch i a b rest iha ihb ih =>
    obtain ⟨arm, w, u, hw, hu, rfl⟩ := ht
    have harm : ∀ ev ∈ w, ev.id ∈ a.ids ∨ ev.id ∈ b.ids := by
      intro ev hev
      rcases hw with ⟨-, hw⟩ | ⟨-, hw⟩
      · exact .inl (hw.id_mem ev hev)
      · exact .inr (hw.id_mem ev hev)
    have hrest : enter d ∈ leave i arm :: u → d ∈ rest.ids := by
      intro hd
      rcases List.mem_cons.mp hd with hd | hd
      · exact absurd hd (by simp)
      · exact hu.id_mem _ hd
    simp only [mayPrecede, Bool.or_eq_true, decide_eq_true_eq]
    rcases pair_sublist_cons.mp h with ⟨he, hd⟩ | h
    · have hi := Event.enter.inj he
      rcases List.mem_append.mp hd with hd | hd
      · exact .inl (.inl (.inl ⟨hi, harm _ hd⟩))
      · exact .inl (.inl (.inr ⟨hi ▸ List.mem_cons_self, hrest hd⟩))
    rcases pair_sublist_append.mp h with h | ⟨he, hd⟩ | h
    · rcases hw with ⟨-, hw⟩ | ⟨-, hw⟩
      · exact .inl (.inr (.inl (iha hw h)))
      · exact .inl (.inr (.inr (ihb hw h)))
    · refine .inl (.inl (.inr ⟨List.mem_cons_of_mem _ ?_, hrest hd⟩))
      exact List.mem_append.mpr (harm _ he)
    · rcases pair_sublist_cons.mp h with ⟨he, -⟩ | h
      · exact absurd he (by simp)
      · exact .inr (ih hu h)

theorem exists_path_of_mayPrecede {b : Body ι α} {e d : ι} (h : b.mayPrecede e d = true) :
    ∃ t, b.Path t ∧ [enter e, enter d].Sublist t := by
  induction b with
  | done => exact absurd h Bool.false_ne_true
  | leaf i op rest ih =>
    rw [mayPrecede, Bool.or_eq_true, decide_eq_true_eq] at h
    rcases h with ⟨rfl, hd⟩ | h
    · obtain ⟨u, hu, hmem⟩ := exists_path_enter hd
      exact ⟨enter e :: u, ⟨u, hu, rfl⟩, pair_sublist_cons.mpr (.inl ⟨rfl, hmem⟩)⟩
    · obtain ⟨u, hu, hsub⟩ := ih h
      exact ⟨enter i :: u, ⟨u, hu, rfl⟩, pair_sublist_cons.mpr (.inr hsub)⟩
  | loop i body rest ihb ih =>
    rw [mayPrecede, Bool.or_eq_true, decide_eq_true_eq] at h
    rcases h with ⟨he, hd⟩ | h
    · -- a first iteration that enters `e`, if `e` is not the loop itself
      obtain ⟨its, hits, he⟩ : ∃ its : List (List (Event ι)), (∀ it ∈ its, body.Path it) ∧
          enter e ∈ enter i :: its.flatten := by
        rcases List.mem_cons.mp he with rfl | he
        · exact ⟨[], (by simp), List.mem_cons_self⟩
        · obtain ⟨it, hit, hmem⟩ := exists_path_enter he
          exact ⟨[it], fun it' h => List.mem_singleton.mp h ▸ hit, by simp [hmem]⟩
      rcases hd with hd | hd
      · obtain ⟨it, hit, hmem⟩ := exists_path_enter hd
        obtain ⟨u, hu⟩ := exists_path rest
        refine ⟨enter i :: ((its ++ [it]).flatten ++ u), ⟨its ++ [it], u, ?_, hu, rfl⟩, ?_⟩
        · intro it' h
          rcases List.mem_append.mp h with h | h
          · exact hits it' h
          · exact List.mem_singleton.mp h ▸ hit
        · rw [List.flatten_append, List.append_assoc, ← List.cons_append]
          exact pair_sublist_append.mpr (.inr (.inl ⟨he, by simp [hmem]⟩))
      · obtain ⟨u, hu, hmem⟩ := exists_path_enter hd
        refine ⟨enter i :: (its.flatten ++ u), ⟨its, u, hits, hu, rfl⟩, ?_⟩
        rw [← List.cons_append]
        exact pair_sublist_append.mpr (.inr (.inl ⟨he, hmem⟩))
    · obtain ⟨u, hu, hsub⟩ := ih h
      exact ⟨enter i :: u, ⟨[], u, (by simp), hu, rfl⟩, pair_sublist_cons.mpr (.inr hsub)⟩
  | branch i a b rest iha ihb ih =>
    simp only [mayPrecede, Bool.or_eq_true, decide_eq_true_eq] at h
    -- a run of one arm that enters a given op of the arms
    have harm : ∀ x, x ∈ a.ids ∨ x ∈ b.ids → ∃ arm w,
        (arm = true ∧ a.Path w ∨ arm = false ∧ b.Path w) ∧ enter x ∈ w := by
      rintro x (hx | hx)
      · obtain ⟨w, hw, hmem⟩ := exists_path_enter hx
        exact ⟨true, w, .inl ⟨rfl, hw⟩, hmem⟩
      · obtain ⟨w, hw, hmem⟩ := exists_path_enter hx
        exact ⟨false, w, .inr ⟨rfl, hw⟩, hmem⟩
    obtain ⟨u, hu⟩ := exists_path rest
    rcases h with ((⟨rfl, hd⟩ | ⟨he, hd⟩) | h | h) | h
    · obtain ⟨arm, w, hw, hmem⟩ := harm d hd
      refine ⟨enter e :: (w ++ leave e arm :: u), ⟨arm, w, u, hw, hu, rfl⟩, ?_⟩
      exact pair_sublist_cons.mpr (.inl ⟨rfl, List.mem_append_left _ hmem⟩)
    · obtain ⟨u, hu, hmem⟩ := exists_path_enter hd
      obtain ⟨arm, w, hw, he⟩ : ∃ arm w, (arm = true ∧ a.Path w ∨ arm = false ∧ b.Path w) ∧
          enter e ∈ enter i :: w := by
        rcases List.mem_cons.mp he with rfl | he
        · obtain ⟨w, hw⟩ := exists_path a
          exact ⟨true, w, .inl ⟨rfl, hw⟩, List.mem_cons_self⟩
        · obtain ⟨arm, w, hw, hmem⟩ := harm e (List.mem_append.mp he)
          exact ⟨arm, w, hw, List.mem_cons_of_mem _ hmem⟩
      refine ⟨enter i :: (w ++ leave i arm :: u), ⟨arm, w, u, hw, hu, rfl⟩, ?_⟩
      rw [← List.cons_append]
      exact pair_sublist_append.mpr (.inr (.inl ⟨he, List.mem_cons_of_mem _ hmem⟩))
    · obtain ⟨w, hw, hsub⟩ := iha h
      refine ⟨enter i :: (w ++ leave i true :: u), ⟨true, w, u, .inl ⟨rfl, hw⟩, hu, rfl⟩, ?_⟩
      exact pair_sublist_cons.mpr (.inr (pair_sublist_append.mpr (.inl hsub)))
    · obtain ⟨w, hw, hsub⟩ := ihb h
      refine ⟨enter i :: (w ++ leave i false :: u), ⟨false, w, u, .inr ⟨rfl, hw⟩, hu, rfl⟩, ?_⟩
      exact pair_sublist_cons.mpr (.inr (pair_sublist_append.mpr (.inl hsub)))
    · obtain ⟨w, hw⟩ := exists_path a
      obtain ⟨u, hu, hsub⟩ := ih h
      refine ⟨enter i :: (w ++ leave i true :: u), ⟨true, w, u, .inl ⟨rfl, hw⟩, hu, rfl⟩, ?_⟩
      refine pair_sublist_cons.mpr (.inr (pair_sublist_append.mpr (.inr (.inr ?_))))
      exact pair_sublist_cons.mpr (.inr hsub)

theorem mayPrecede_iff {b : Body ι α} {e d : ι} :
    b.mayPrecede e d = true ↔ ∃ t, b.Path t ∧ [enter e, enter d].Sublist t :=
  ⟨exists_path_of_mayPrecede, fun ⟨_, ht, h⟩ => mayPrecede_of_path ht h⟩

end Body

/-! ### Events that come first -/

theorem split_append {β : Type} {s t p q : List β} {x : β} (h : s ++ t = p ++ x :: q) :
    (∃ r, s = p ++ x :: r) ∨ ∃ r, p = s ++ r ∧ t = r ++ x :: q := by
  rcases List.append_eq_append_iff.mp h with ⟨r, hp, ht⟩ | ⟨r, hs, hq⟩
  · exact .inr ⟨r, hp, ht⟩
  · cases r with
    | nil => exact .inr ⟨[], by simpa using hs.symm, by simpa using hq.symm⟩
    | cons y r =>
      rw [List.cons_append, List.cons.injEq] at hq
      exact .inl ⟨r, hq.1 ▸ hs⟩

/-- Whenever an event happens, an op with `P` was entered before. -/
def Preceded (P : ι → Bool) (ev : Event ι) (t : List (Event ι)) : Prop :=
  ∀ p q, t = p ++ ev :: q → ∃ i, P i = true ∧ enter i ∈ p

namespace Preceded

variable {P : ι → Bool} {ev : Event ι} {s t : List (Event ι)}

theorem nil : Preceded P ev [] := fun p q h => absurd h.symm (by simp)

theorem append (hs : Preceded P ev s) (ht : Preceded P ev t) : Preceded P ev (s ++ t) := by
  intro p q h
  rcases split_append h with ⟨r, hs'⟩ | ⟨r, rfl, ht'⟩
  · exact hs p r hs'
  · obtain ⟨i, hi, hmem⟩ := ht r q ht'
    exact ⟨i, hi, List.mem_append_right s hmem⟩

theorem append_of_mem {i : ι} (hs : Preceded P ev s) (hi : P i = true) (hmem : enter i ∈ s) :
    Preceded P ev (s ++ t) := by
  intro p q h
  rcases split_append h with ⟨r, hs'⟩ | ⟨r, rfl, -⟩
  · exact hs p r hs'
  · exact ⟨i, hi, List.mem_append_left r hmem⟩

theorem flatten {ts : List (List (Event ι))} (h : ∀ t ∈ ts, Preceded P ev t) :
    Preceded P ev ts.flatten := by
  induction ts with
  | nil => exact nil
  | cons t ts ih =>
    rw [List.flatten_cons]
    apply append (h t List.mem_cons_self)
    exact ih fun t' ht' => h t' (List.mem_cons_of_mem t ht')

theorem singleton {ev' : Event ι} (h : ev' ≠ ev) : Preceded P ev [ev'] := by
  intro p q heq
  cases p with
  | nil => exact absurd (List.cons.inj heq).1 h
  | cons x p => exact absurd (List.cons.inj heq).2.symm (by simp)

theorem cons {ev' : Event ι} (h : ev' ≠ ev) (ht : Preceded P ev t) : Preceded P ev (ev' :: t) :=
  append (singleton h) ht

/-- What is not on a path need not be preceded by anything. -/
theorem of_notMem (h : ev ∉ t) : Preceded P ev t :=
  fun p q heq => absurd (by simp [heq]) h

end Preceded

namespace Body

/-- Every path enters an op with `P`. -/
def mustEnter (P : ι → Bool) : Body ι α → Bool
  | .done => false
  | .leaf i _ rest => P i || rest.mustEnter P
  | .loop i _ rest => P i || rest.mustEnter P
  | .branch i a b rest => P i || (a.mustEnter P && b.mustEnter P) || rest.mustEnter P

theorem exists_enter {P : ι → Bool} {b : Body ι α} {t : List (Event ι)}
    (h : b.mustEnter P = true) (ht : b.Path t) : ∃ i, P i = true ∧ enter i ∈ t := by
  induction b generalizing t with
  | done => exact absurd h Bool.false_ne_true
  | leaf i op rest ih =>
    obtain ⟨u, hu, rfl⟩ := ht
    rw [mustEnter, Bool.or_eq_true] at h
    rcases h with hi | h
    · exact ⟨i, hi, List.mem_cons_self⟩
    · obtain ⟨j, hj, hmem⟩ := ih h hu
      exact ⟨j, hj, List.mem_cons_of_mem _ hmem⟩
  | loop i body rest _ ih =>
    obtain ⟨its, u, hits, hu, rfl⟩ := ht
    rw [mustEnter, Bool.or_eq_true] at h
    rcases h with hi | h
    · exact ⟨i, hi, List.mem_cons_self⟩
    · obtain ⟨j, hj, hmem⟩ := ih h hu
      exact ⟨j, hj, by simp [hmem]⟩
  | branch i a b rest iha ihb ih =>
    obtain ⟨arm, w, u, hw, hu, rfl⟩ := ht
    simp only [mustEnter, Bool.or_eq_true, Bool.and_eq_true] at h
    rcases h with (hi | ⟨ha, hb⟩) | h
    · exact ⟨i, hi, List.mem_cons_self⟩
    · obtain ⟨j, hj, hmem⟩ : ∃ j, P j = true ∧ enter j ∈ w := by
        rcases hw with ⟨-, hw⟩ | ⟨-, hw⟩
        · exact iha ha hw
        · exact ihb hb hw
      exact ⟨j, hj, by simp [hmem]⟩
    · obtain ⟨j, hj, hmem⟩ := ih h hu
      exact ⟨j, hj, by simp [hmem]⟩

theorem exists_path_avoiding {P : ι → Bool} {b : Body ι α} (h : b.mustEnter P = false) :
    ∃ t, b.Path t ∧ ∀ i, enter i ∈ t → P i = false := by
  induction b with
  | done => exact ⟨[], by rw [Path], (by simp)⟩
  | leaf i op rest ih =>
    rw [mustEnter, Bool.or_eq_false_iff] at h
    obtain ⟨u, hu, hnone⟩ := ih h.2
    refine ⟨enter i :: u, ⟨u, hu, rfl⟩, fun j hj => ?_⟩
    rcases List.mem_cons.mp hj with hj | hj
    · exact Event.enter.inj hj ▸ h.1
    · exact hnone j hj
  | loop i body rest _ ih =>
    rw [mustEnter, Bool.or_eq_false_iff] at h
    obtain ⟨u, hu, hnone⟩ := ih h.2
    refine ⟨enter i :: u, ⟨[], u, (by simp), hu, rfl⟩, fun j hj => ?_⟩
    rcases List.mem_cons.mp hj with hj | hj
    · exact Event.enter.inj hj ▸ h.1
    · exact hnone j hj
  | branch i a b rest iha ihb ih =>
    simp only [mustEnter, Bool.or_eq_false_iff, Bool.and_eq_false_iff] at h
    obtain ⟨⟨hi, harms⟩, hrest⟩ := h
    obtain ⟨u, hu, hnone⟩ := ih hrest
    obtain ⟨arm, w, hw, hnone'⟩ : ∃ arm w, (arm = true ∧ a.Path w ∨ arm = false ∧ b.Path w) ∧
        ∀ j, enter j ∈ w → P j = false := by
      rcases harms with ha | hb
      · obtain ⟨w, hw, hnone'⟩ := iha ha
        exact ⟨true, w, .inl ⟨rfl, hw⟩, hnone'⟩
      · obtain ⟨w, hw, hnone'⟩ := ihb hb
        exact ⟨false, w, .inr ⟨rfl, hw⟩, hnone'⟩
    refine ⟨enter i :: (w ++ leave i arm :: u), ⟨arm, w, u, hw, hu, rfl⟩, fun j hj => ?_⟩
    simp only [List.mem_cons, List.mem_append, Event.enter.injEq, reduceCtorEq, false_or] at hj
    rcases hj with rfl | hj | hj
    · exact hi
    · exact hnone' j hj
    · exact hnone j hj

variable [DecidableEq ι]

/-- Every path that enters `d` has entered an op with `P` before. -/
def mustPrecede (P : ι → Bool) (d : ι) : Body ι α → Bool
  | .done => true
  | .leaf i _ rest => decide (i ≠ d) && (P i || rest.mustPrecede P d)
  | .loop i body rest =>
    decide (i ≠ d) && (P i || (body.mustPrecede P d && rest.mustPrecede P d))
  | .branch i a b rest => decide (i ≠ d) && (P i || (a.mustPrecede P d && b.mustPrecede P d &&
      ((a.mustEnter P && b.mustEnter P) || rest.mustPrecede P d)))

theorem preceded_of_mustPrecede {P : ι → Bool} {d : ι} {b : Body ι α} {t : List (Event ι)}
    (h : b.mustPrecede P d = true) (ht : b.Path t) : Preceded P (enter d) t := by
  induction b generalizing t with
  | done =>
    rw [Path] at ht
    exact ht ▸ Preceded.nil
  | leaf i op rest ih =>
    obtain ⟨u, hu, rfl⟩ := ht
    simp only [mustPrecede, Bool.and_eq_true, Bool.or_eq_true, decide_eq_true_eq] at h
    have hne : enter i ≠ enter d := fun he => h.1 (Event.enter.inj he)
    rcases h.2 with hi | h
    · exact Preceded.append_of_mem (Preceded.singleton hne) hi List.mem_cons_self
    · exact Preceded.cons hne (ih h hu)
  | loop i body rest ihb ih =>
    obtain ⟨its, u, hits, hu, rfl⟩ := ht
    simp only [mustPrecede, Bool.and_eq_true, Bool.or_eq_true, decide_eq_true_eq] at h
    have hne : enter i ≠ enter d := fun he => h.1 (Event.enter.inj he)
    rcases h.2 with hi | ⟨hbody, h⟩
    · exact Preceded.append_of_mem (Preceded.singleton hne) hi List.mem_cons_self
    · apply Preceded.cons hne
      exact (Preceded.flatten fun it hit => ihb hbody (hits it hit)).append (ih h hu)
  | branch i a b rest iha ihb ih =>
    obtain ⟨arm, w, u, hw, hu, rfl⟩ := ht
    simp only [mustPrecede, Bool.and_eq_true, Bool.or_eq_true, decide_eq_true_eq] at h
    have hne : enter i ≠ enter d := fun he => h.1 (Event.enter.inj he)
    rcases h.2 with hi | ⟨⟨ha, hb⟩, h⟩
    · exact Preceded.append_of_mem (Preceded.singleton hne) hi List.mem_cons_self
    apply Preceded.cons hne
    have hw' : Preceded P (enter d) w := by
      rcases hw with ⟨-, hw⟩ | ⟨-, hw⟩
      · exact iha ha hw
      · exact ihb hb hw
    rcases h with ⟨ha', hb'⟩ | h
    · obtain ⟨j, hj, hmem⟩ : ∃ j, P j = true ∧ enter j ∈ w := by
        rcases hw with ⟨-, hw⟩ | ⟨-, hw⟩
        · exact exists_enter ha' hw
        · exact exists_enter hb' hw
      exact hw'.append_of_mem hj hmem
    · exact hw'.append (Preceded.cons (by simp) (ih h hu))

theorem exists_path_unpreceded {P : ι → Bool} {d : ι} {b : Body ι α}
    (h : b.mustPrecede P d = false) :
    ∃ p q, b.Path (p ++ enter d :: q) ∧ ∀ i, enter i ∈ p → P i = false := by
  -- the ops in front of `d` on the path are entered, and have no `P`
  have hcons : ∀ {i : ι} {p : List (Event ι)}, P i = false → (∀ j, enter j ∈ p → P j = false) →
      ∀ j, enter j ∈ enter i :: p → P j = false := by
    intro i p hi hp j hj
    rcases List.mem_cons.mp hj with hj | hj
    · exact Event.enter.inj hj ▸ hi
    · exact hp j hj
  induction b with
  | done => exact absurd h.symm Bool.false_ne_true
  | leaf i op rest ih =>
    simp only [mustPrecede, Bool.and_eq_false_iff, Bool.or_eq_false_iff, decide_eq_false_iff_not,
      not_not] at h
    rcases h with rfl | ⟨hi, h⟩
    · obtain ⟨u, hu⟩ := exists_path rest
      exact ⟨[], u, ⟨u, hu, rfl⟩, (by simp)⟩
    · obtain ⟨p, q, hpath, hnone⟩ := ih h
      exact ⟨enter i :: p, q, ⟨_, hpath, rfl⟩, hcons hi hnone⟩
  | loop i body rest ihb ih =>
    simp only [mustPrecede, Bool.and_eq_false_iff, Bool.or_eq_false_iff, decide_eq_false_iff_not,
      not_not] at h
    obtain ⟨u, hu⟩ := exists_path rest
    rcases h with rfl | ⟨hi, h | h⟩
    · exact ⟨[], u, ⟨[], u, (by simp), hu, rfl⟩, (by simp)⟩
    · obtain ⟨p, q, hpath, hnone⟩ := ihb h
      refine ⟨enter i :: p, q ++ u, ⟨[p ++ enter d :: q], u, ?_, hu, by simp⟩, hcons hi hnone⟩
      exact fun it hit => List.mem_singleton.mp hit ▸ hpath
    · obtain ⟨p, q, hpath, hnone⟩ := ih h
      exact ⟨enter i :: p, q, ⟨[], _, (by simp), hpath, rfl⟩, hcons hi hnone⟩
  | branch i a b rest iha ihb ih =>
    simp only [mustPrecede, Bool.and_eq_false_iff, Bool.or_eq_false_iff, decide_eq_false_iff_not,
      not_not] at h
    obtain ⟨u, hu⟩ := exists_path rest
    rcases h with rfl | ⟨hi, (h | h) | ⟨harms, h⟩⟩
    · obtain ⟨w, hw⟩ := exists_path a
      exact ⟨[], w ++ leave i true :: u, ⟨true, w, u, .inl ⟨rfl, hw⟩, hu, rfl⟩, (by simp)⟩
    · obtain ⟨p, q, hpath, hnone⟩ := iha h
      exact ⟨enter i :: p, q ++ leave i true :: u,
        ⟨true, _, u, .inl ⟨rfl, hpath⟩, hu, by simp⟩, hcons hi hnone⟩
    · obtain ⟨p, q, hpath, hnone⟩ := ihb h
      exact ⟨enter i :: p, q ++ leave i false :: u,
        ⟨false, _, u, .inr ⟨rfl, hpath⟩, hu, by simp⟩, hcons hi hnone⟩
    · obtain ⟨p, q, hpath, hnone⟩ := ih h
      obtain ⟨arm, w, hw, hnone'⟩ : ∃ arm w, (arm = true ∧ a.Path w ∨ arm = false ∧ b.Path w) ∧
          ∀ j, enter j ∈ w → P j = false := by
        rcases harms with ha | hb
        · obtain ⟨w, hw, hnone'⟩ := exists_path_avoiding ha
          exact ⟨true, w, .inl ⟨rfl, hw⟩, hnone'⟩
        · obtain ⟨w, hw, hnone'⟩ := exists_path_avoiding hb
          exact ⟨false, w, .inr ⟨rfl, hw⟩, hnone'⟩
      refine ⟨enter i :: (w ++ leave i arm :: p), q,
        ⟨arm, w, _, hw, hpath, by simp⟩, hcons hi fun j hj => ?_⟩
      rcases List.mem_append.mp hj with hj | hj
      · exact hnone' j hj
      · rcases List.mem_cons.mp hj with hj | hj
        · exact absurd hj (by simp)
        · exact hnone j hj

theorem mustPrecede_iff {P : ι → Bool} {d : ι} {b : Body ι α} :
    b.mustPrecede P d = true ↔ ∀ t, b.Path t → Preceded P (enter d) t := by
  constructor
  · exact fun h t ht => preceded_of_mustPrecede h ht
  · intro h
    by_contra hnot
    obtain ⟨p, q, hpath, hnone⟩ := exists_path_unpreceded ((Bool.not_eq_true _).mp hnot)
    obtain ⟨i, hi, hmem⟩ := h _ hpath p q rfl
    exact absurd (hnone i hmem) (by simp [hi])

end Body

end ControlFlow
