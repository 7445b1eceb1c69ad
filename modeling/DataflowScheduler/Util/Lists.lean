import Mathlib.Data.List.Nodup
import Mathlib.Data.List.Pairwise
import Mathlib.Data.List.Forall2

/-!
# Lists with keys

Entries of a list that are looked up, or grouped, by a key.
-/

namespace KeyedList

variable {α κ : Type}

/-- Where keys occur once, looking up the key of an entry finds that entry. -/
theorem find?_of_nodup [BEq κ] [LawfulBEq κ] {key : α → κ} {l : List α} (hnd : (l.map key).Nodup)
    {a : α} (ha : a ∈ l) : l.find? (fun b => key b == key a) = some a := by
  induction l with
  | nil => cases ha
  | cons b l ih =>
      rw [List.map_cons, List.nodup_cons] at hnd
      rcases List.mem_cons.mp ha with rfl | ha
      · rw [List.find?_cons_of_pos (by simp)]
      · have hne : key b ≠ key a := fun hkey => hnd.1 (hkey ▸ List.mem_map_of_mem ha)
        rw [List.find?_cons_of_neg (by simpa using hne)]
        exact ih hnd.2 ha

/-- Entries that agree on their key are related if those of each key are. -/
theorem pairwise_of_filter [DecidableEq κ] (key : α → κ) {S : α → α → Prop} {l : List α}
    (h : ∀ k, (l.filter fun a => key a = k).Pairwise S) :
    l.Pairwise fun a b => key a = key b → S a b := by
  induction l with
  | nil => exact List.Pairwise.nil
  | cons a l ih =>
      refine List.Pairwise.cons ?_ (ih fun k => ?_)
      · intro b hb hab
        have ha := h (key a)
        rw [List.filter_cons_of_pos (by simp)] at ha
        exact List.rel_of_pairwise_cons ha (List.mem_filter.mpr ⟨hb, by simp [hab]⟩)
      · exact (h k).sublist ((List.sublist_cons_self a l).filter _)

end KeyedList

/-! ## Related lists -/

/-- Every element on the right is related to one on the left. -/
theorem List.Forall₂.exists_of_mem_right {α β : Type} {S : α → β → Prop} {l : List α} {l' : List β}
    (h : List.Forall₂ S l l') {b : β} (hb : b ∈ l') : ∃ a ∈ l, S a b := by
  induction h with
  | nil => cases hb
  | cons hab _ ih =>
      rcases List.mem_cons.mp hb with rfl | hb
      · exact ⟨_, List.mem_cons_self, hab⟩
      · obtain ⟨a, ha, hab⟩ := ih hb
        exact ⟨a, List.mem_cons_of_mem _ ha, hab⟩

/-- A `mapM` that returned did so at every element. -/
theorem List.forall₂_of_mapM {α β : Type} {g : α → Option β} {l : List α} {r : List β}
    (h : l.mapM g = some r) : List.Forall₂ (fun a b => g a = some b) l r := by
  induction l generalizing r with
  | nil =>
      cases h
      exact .nil
  | cons a l ih =>
      rw [List.mapM_cons] at h
      obtain ⟨b, hb, h⟩ := Option.bind_eq_some_iff.mp h
      obtain ⟨bs, hbs, h⟩ := Option.bind_eq_some_iff.mp h
      cases h
      exact .cons hb (ih hbs)

/-- A `mapM` that failed did so at some element. -/
theorem List.exists_of_mapM_eq_none {α β : Type} {g : α → Option β} {l : List α}
    (h : l.mapM g = none) : ∃ a ∈ l, g a = none := by
  induction l with
  | nil => cases h
  | cons a l ih =>
      rw [List.mapM_cons] at h
      cases ha : g a <;> cases hl : l.mapM g <;> simp_all

/-- A `mapM` goes the same way on names that have the same values. -/
theorem List.mapM_rename {α β γ : Type} {g : α → Option γ} {g' : β → Option γ} {f : α → β} {l : List α}
    {r : List γ} (h : ∀ a ∈ l, ∀ y, g a = some y → g' (f a) = some y) (hr : l.mapM g = some r) :
    (l.map f).mapM g' = some r := by
  induction l generalizing r with
  | nil => exact hr
  | cons a l ih =>
      rw [List.mapM_cons] at hr
      obtain ⟨y, hy, hr⟩ := Option.bind_eq_some_iff.mp hr
      obtain ⟨ys, hys, hr⟩ := Option.bind_eq_some_iff.mp hr
      rw [List.map_cons, List.mapM_cons, h a List.mem_cons_self y hy,
        ih (fun a ha => h a (List.mem_cons_of_mem _ ha)) hys]
      exact hr

/-- What is related to pairs is so with the first parts of these. -/
theorem List.Forall₂.zip_left {α β γ : Type} {R : α × β → γ → Prop} {keys : List α} {vals : List β}
    {vals' : List γ} (h : List.Forall₂ R (keys.zip vals) vals') (hlen : keys.length = vals.length) :
    List.Forall₂ (fun e e' => e'.1 = e.1 ∧ R e e'.2) (keys.zip vals) (keys.zip vals') := by
  induction keys generalizing vals vals' with
  | nil => exact .nil
  | cons key keys ih =>
      cases vals with
      | nil => cases hlen
      | cons v vals =>
          cases h with
          | cons hv htail => exact .cons ⟨rfl, hv⟩ (ih htail (Nat.succ.inj hlen))

/-- A fold whose steps succeed, and keep what makes them succeed, succeeds. -/
theorem List.foldlM_eq_some {α β : Type} {f : β → α → Option β} {P : β → Prop} {l : List α} {b : β}
    (hb : P b) (hstep : ∀ b, ∀ a ∈ l, P b → ∃ b', f b a = some b' ∧ P b') :
    ∃ b', l.foldlM f b = some b' ∧ P b' := by
  induction l generalizing b with
  | nil => exact ⟨b, rfl, hb⟩
  | cons a l ih =>
      obtain ⟨b₁, hb₁, hP⟩ := hstep b a List.mem_cons_self hb
      obtain ⟨b', hb', hP'⟩ := ih hP fun b a ha => hstep b a (List.mem_cons_of_mem _ ha)
      refine ⟨b', ?_, hP'⟩
      rw [List.foldlM_cons, hb₁]
      exact hb'

/-! ## Intervals between boundaries -/

namespace Boundaries

/-- The index lies in the `k`-th interval between consecutive boundaries. -/
def Inside (l : List Nat) (k idx : Nat) : Prop :=
  ∃ lo hi, l[k]? = some lo ∧ l[k + 1]? = some hi ∧ lo ≤ idx ∧ idx < hi

theorem inside_succ {a : Nat} {l : List Nat} {k idx : Nat} :
    Inside (a :: l) (k + 1) idx ↔ Inside l k idx := Iff.rfl

/-- Between the first and the last of strictly increasing boundaries, every index lies in exactly
one interval. -/
theorem existsUnique_inside {l : List Nat} (h : l.Pairwise (· < ·)) {first last idx : Nat}
    (hfirst : l.head? = some first) (hlast : l.getLast? = some last) (hlo : first ≤ idx)
    (hhi : idx < last) : ∃! k, Inside l k idx := by
  induction l generalizing first with
  | nil => cases hfirst
  | cons a l ih =>
      cases hfirst
      cases l with
      | nil =>
          rw [List.getLast?_singleton, Option.some_inj] at hlast
          omega
      | cons b l =>
          rw [List.getLast?_cons_cons] at hlast
          by_cases hb : idx < b
          · refine ⟨0, ⟨a, b, rfl, rfl, hlo, hb⟩, ?_⟩
            rintro (_ | k) ⟨lo, hi, hget, -, hle, -⟩
            · rfl
            · have hmem : lo ∈ b :: l := List.mem_of_getElem? hget
              rcases List.mem_cons.mp hmem with rfl | hmem
              · omega
              · have := List.rel_of_pairwise_cons (List.Pairwise.of_cons h) hmem
                omega
          · obtain ⟨k, hk, huniq⟩ := ih (List.Pairwise.of_cons h) rfl hlast (by omega)
            refine ⟨k + 1, inside_succ.mpr hk, ?_⟩
            rintro (_ | k') hk'
            · obtain ⟨lo, hi, -, hget, -, hlt⟩ := hk'
              cases hget
              omega
            · rw [huniq k' (inside_succ.mp hk')]

end Boundaries
