import Mathlib.Data.List.Nodup
import Mathlib.Logic.Function.Basic

/-!
# Lists that are linked through their cells
-/

/-- The links lead from the start through exactly these cells. -/
def Linked {α : Type} (next : α → Option α) : Option α → List α → Prop
  | start, [] => start = none
  | start, a :: l => start = some a ∧ Linked next (next a) l

namespace Linked

variable {α : Type} {next next' : α → Option α} {start : Option α} {l before after : List α}
  {a prev : α}

theorem head?_eq (h : Linked next start l) : start = l.head? := by
  cases l with
  | nil => exact h
  | cons a l => exact h.1

/-- Only the links of the cells on the list matter. -/
theorem congr (h : Linked next start l) (heq : ∀ b ∈ l, next' b = next b) :
    Linked next' start l := by
  induction l generalizing start with
  | nil => exact h
  | cons b l ih =>
      refine ⟨h.1, ?_⟩
      rw [heq b List.mem_cons_self]
      exact ih h.2 fun c hc => heq c (List.mem_cons_of_mem _ hc)

theorem of_append (h : Linked next start (before ++ a :: after)) :
    Linked next (next a) after := by
  induction before generalizing start with
  | nil => exact h.2
  | cons b before ih => exact ih h.2

/-- The end of a list can be exchanged at one cell. -/
theorem relink (h : Linked next start (before ++ prev :: after)) {after' : List α}
    (hnew : Linked next' (next' prev) after') (heq : ∀ b ∈ before, next' b = next b) :
    Linked next' start (before ++ prev :: after') := by
  induction before generalizing start with
  | nil => exact ⟨h.1, hnew⟩
  | cons b before ih =>
      refine ⟨h.1, ?_⟩
      rw [heq b List.mem_cons_self]
      exact ih h.2 fun c hc => heq c (List.mem_cons_of_mem _ hc)

/-- The links determine the list. -/
theorem unique {l' : List α} (h : Linked next start l) (h' : Linked next start l') : l = l' := by
  induction l generalizing start l' with
  | nil =>
      cases l' with
      | nil => rfl
      | cons b l' => exact absurd (h.symm.trans h'.1) (by simp)
  | cons b l ih =>
      cases l' with
      | nil => exact absurd (h'.symm.trans h.1) (by simp)
      | cons c l' =>
          obtain rfl : b = c := Option.some.inj (h.1.symm.trans h'.1)
          rw [ih h.2 h'.2]

/-- A list that ends meets no cell twice. -/
theorem nodup (h : Linked next start l) : l.Nodup := by
  induction l generalizing start with
  | nil => exact List.nodup_nil
  | cons b l ih =>
      refine List.nodup_cons.mpr ⟨fun hb => ?_, ih h.2⟩
      obtain ⟨front, back, rfl⟩ := List.append_of_mem hb
      -- behind both occurrences the links lead on in the same way
      have hback : Linked next (next b) back := h.2.of_append
      have hlength := congrArg List.length (unique h.2 hback)
      rw [List.length_append, List.length_cons] at hlength
      omega

/-- What follows a front part of a list is exchanged. -/
theorem splice {start' stop : Option α} (h : Linked next start (before ++ a :: after))
    {after' : List α} (hnil : before = [] → start' = stop)
    (hcons : ∀ prev, before.getLast? = some prev → start' = start ∧ next' prev = stop)
    (heq : ∀ b ∈ before, before.getLast? ≠ some b → next' b = next b)
    (hnd : before.Nodup) (hnew : Linked next' stop after') : Linked next' start' (before ++ after') := by
  rcases List.eq_nil_or_concat before with hbefore | ⟨front, prev, hconcat⟩
  · rw [hnil hbefore, hbefore]
    exact hnew
  · rw [List.concat_eq_append] at hconcat
    subst hconcat
    obtain ⟨rfl, hprev⟩ := hcons prev List.getLast?_concat
    rw [List.append_assoc, List.singleton_append] at h ⊢
    refine h.relink (hprev ▸ hnew) fun b hb => heq b (List.mem_append_left _ hb) ?_
    rw [List.getLast?_concat]
    intro hlast
    cases hlast
    exact (List.nodup_append.mp hnd).2.2 _ hb _ (by simp) rfl

variable [DecidableEq α]

/-- A cell is taken off behind another one. -/
theorem unlink (h : Linked next start (before ++ prev :: a :: after))
    (hnd : (before ++ prev :: a :: after).Nodup) :
    Linked (Function.update (Function.update next prev (next a)) a none) start
      (before ++ prev :: after) := by
  obtain ⟨-, hrest, hdisjoint⟩ := List.nodup_append.mp hnd
  obtain ⟨hprev, ha, -⟩ : prev ∉ a :: after ∧ a ∉ after ∧ after.Nodup := by
    simpa [List.nodup_cons] using hrest
  have hne : prev ≠ a := fun heq => hprev (heq ▸ List.mem_cons_self)
  apply h.relink
  · rw [Function.update_of_ne hne, Function.update_self]
    have h' : Linked next start ((before ++ [prev]) ++ a :: after) := by simpa using h
    apply congr h'.of_append
    intro b hb
    rw [Function.update_of_ne (ne_of_mem_of_not_mem hb ha),
      Function.update_of_ne (ne_of_mem_of_not_mem (List.mem_cons_of_mem a hb) hprev)]
  · intro b hb
    rw [Function.update_of_ne (hdisjoint b hb a (by simp)),
      Function.update_of_ne (hdisjoint b hb prev (by simp))]

/-- A cell is put in behind another one. -/
theorem insert (h : Linked next start (before ++ prev :: after))
    (hnd : (before ++ prev :: after).Nodup) (hnew : a ∉ before ++ prev :: after) :
    Linked (Function.update (Function.update next prev (some a)) a (next prev)) start
      (before ++ prev :: a :: after) := by
  obtain ⟨-, hrest, hdisjoint⟩ := List.nodup_append.mp hnd
  have hprev : prev ∉ after := (List.nodup_cons.mp hrest).1
  obtain ⟨hbefore, hne, hafter⟩ : a ∉ before ∧ a ≠ prev ∧ a ∉ after := by simpa using hnew
  apply h.relink
  · rw [Function.update_of_ne hne.symm, Function.update_self]
    refine ⟨rfl, ?_⟩
    rw [Function.update_self]
    apply congr h.of_append
    intro b hb
    rw [Function.update_of_ne (ne_of_mem_of_not_mem hb hafter),
      Function.update_of_ne (ne_of_mem_of_not_mem hb hprev)]
  · intro b hb
    rw [Function.update_of_ne (ne_of_mem_of_not_mem hb hbefore),
      Function.update_of_ne (hdisjoint b hb prev (by simp))]

end Linked
