import Mathlib.Data.List.Nodup
import Mathlib.Logic.Relation

/-!
# Depth-first walks

A walk over a graph without cycles that lists every node once, after the nodes below it. A rank that
falls along the edges says that there are no cycles, and how deep a walk can go.
-/

namespace DepthFirst

variable {α : Type} [DecidableEq α]

/-- Lists `a` after what is below it, as far as it is not listed yet. Goes down `fuel` nodes. -/
def visit (children : α → List α) : Nat → List α → α → List α
  | 0, listed, _ => listed
  | fuel + 1, listed, a =>
      if a ∈ listed then listed
      else (children a).foldl (visit children fuel) listed ++ [a]

omit [DecidableEq α] in
/-- A list that grows by nodes that are new and whose children are there already. -/
inductive Grows (children : α → List α) (listed : List α) : List α → Prop
  | refl : Grows children listed listed
  | snoc {l : List α} {a : α} (h : Grows children listed l) (hnew : a ∉ l)
      (hchildren : ∀ b ∈ children a, b ∈ l) : Grows children listed (l ++ [a])

namespace Grows

variable {children : α → List α} {l₁ l₂ l₃ : List α}

omit [DecidableEq α]

theorem trans (h₁ : Grows children l₁ l₂) (h₂ : Grows children l₂ l₃) : Grows children l₁ l₃ := by
  induction h₂ with
  | refl => exact h₁
  | snoc _ hnew hchildren ih => exact ih.snoc hnew hchildren

theorem isPrefix (h : Grows children l₁ l₂) : l₁ <+: l₂ := by
  induction h with
  | refl => exact List.prefix_refl _
  | snoc _ _ _ ih => exact ih.trans (List.prefix_append _ _)

theorem subset (h : Grows children l₁ l₂) : l₁ ⊆ l₂ := h.isPrefix.subset

/-- New nodes whose children are all there can be added in any order. -/
theorem append {extra : List α} (h : Grows children l₁ l₂) (hnd : extra.Nodup)
    (hnew : ∀ a ∈ extra, a ∉ l₂) (hchildren : ∀ a ∈ extra, ∀ b ∈ children a, b ∈ l₂) :
    Grows children l₁ (l₂ ++ extra) := by
  induction extra generalizing l₂ with
  | nil =>
      rw [List.append_nil]
      exact h
  | cons a extra ih =>
      rw [List.nodup_cons] at hnd
      rw [List.forall_mem_cons] at hnew hchildren
      rw [List.append_cons]
      apply ih (h.snoc hnew.1 hchildren.1) hnd.2
      · intro b hb hmem
        rcases List.mem_append.mp hmem with hmem | hmem
        · exact hnew.2 b hb hmem
        · exact hnd.1 (List.mem_singleton.mp hmem ▸ hb)
      · exact fun b hb c hc => List.mem_append_left _ (hchildren.2 b hb c hc)

end Grows

/-- A node that is reached along edges from another. -/
def Below (children : α → List α) (a x : α) : Prop :=
  Relation.ReflTransGen (fun b c => c ∈ children b) a x

namespace Below

variable {children : α → List α} {rank : α → Nat} {a b x : α}

omit [DecidableEq α]

theorem refl : Below children a a := Relation.ReflTransGen.refl

theorem head (h : b ∈ children a) (hx : Below children b x) : Below children a x :=
  Relation.ReflTransGen.head h hx

theorem rank_le (hrank : ∀ a, ∀ b ∈ children a, rank b < rank a) (h : Below children a x) :
    rank x ≤ rank a := by
  induction h with
  | refl => exact Nat.le_refl _
  | tail _ hc ih => exact Nat.le_trans (Nat.le_of_lt (hrank _ _ hc)) ih

/-- What is closed under the edges contains what is below its members. -/
theorem of_closed {P : α → Prop} (hclosed : ∀ b, P b → ∀ c ∈ children b, P c)
    (h : Below children a x) (ha : P a) : P x := by
  induction h with
  | refl => exact ha
  | tail _ hc ih => exact hclosed _ ih _ hc

end Below

section Visit

variable {children : α → List α} {rank : α → Nat}

omit [DecidableEq α] in
/-- Walks from several roots list all of them, and nothing that is not below one, when each does. -/
theorem foldl_spec {f : List α → α → List α} {roots : List α}
    (hf : ∀ a ∈ roots, ∀ listed, Grows children listed (f listed a) ∧ a ∈ f listed a ∧
      ∀ x ∈ f listed a, x ∈ listed ∨ Below children a x) (listed : List α) :
    Grows children listed (roots.foldl f listed) ∧ (∀ a ∈ roots, a ∈ roots.foldl f listed) ∧
      ∀ x ∈ roots.foldl f listed, x ∈ listed ∨ ∃ a ∈ roots, Below children a x := by
  induction roots generalizing listed with
  | nil => exact ⟨.refl, nofun, fun x hx => Or.inl hx⟩
  | cons a roots ih =>
      rw [List.forall_mem_cons] at hf
      obtain ⟨hgrows, ha, hbelow⟩ := hf.1 listed
      obtain ⟨hgrows', hroots, hbelow'⟩ := ih hf.2 (f listed a)
      refine ⟨hgrows.trans hgrows', ?_, ?_⟩
      · exact List.forall_mem_cons.mpr ⟨hgrows'.subset ha, hroots⟩
      · intro x hx
        rcases hbelow' x hx with hx | ⟨b, hb, hxb⟩
        · rcases hbelow x hx with hx | hx
          · exact Or.inl hx
          · exact Or.inr ⟨a, List.mem_cons_self, hx⟩
        · exact Or.inr ⟨b, List.mem_cons_of_mem _ hb, hxb⟩

variable (hrank : ∀ a, ∀ b ∈ children a, rank b < rank a)

include hrank

/-- What a walk from one node lists. -/
theorem visit_spec {fuel : Nat} {a : α} (h : rank a < fuel) (listed : List α) :
    Grows children listed (visit children fuel listed a) ∧ a ∈ visit children fuel listed a ∧
      ∀ x ∈ visit children fuel listed a, x ∈ listed ∨ Below children a x := by
  induction fuel generalizing a listed with
  | zero => exact absurd h (Nat.not_lt_zero _)
  | succ fuel ih =>
      unfold visit
      split
      · next ha => exact ⟨.refl, ha, fun x hx => Or.inl hx⟩
      · next ha =>
          obtain ⟨hgrows, hall, hbelow⟩ := foldl_spec
            (fun b hb => ih (Nat.lt_of_lt_of_le (hrank a b hb) (Nat.lt_succ_iff.mp h))) listed
          refine ⟨hgrows.snoc ?_ hall, List.mem_append_right _ (List.mem_singleton_self a), ?_⟩
          · -- What was listed on the way is of a lower rank.
            intro hmem
            rcases hbelow a hmem with hmem | ⟨b, hb, hab⟩
            · exact ha hmem
            · exact Nat.lt_irrefl _ (Nat.lt_of_le_of_lt (hab.rank_le hrank) (hrank a b hb))
          · intro x hx
            rcases List.mem_append.mp hx with hx | hx
            · rcases hbelow x hx with hx | ⟨b, hb, hbx⟩
              · exact Or.inl hx
              · exact Or.inr (hbx.head hb)
            · rw [List.mem_singleton] at hx
              exact Or.inr (hx ▸ Below.refl)

/-- What the walks from several nodes list. -/
theorem visit_foldl_spec {fuel : Nat} {roots : List α} (h : ∀ a ∈ roots, rank a < fuel)
    (listed : List α) :
    Grows children listed (roots.foldl (visit children fuel) listed) ∧
      (∀ a ∈ roots, a ∈ roots.foldl (visit children fuel) listed) ∧
      ∀ x ∈ roots.foldl (visit children fuel) listed, x ∈ listed ∨ ∃ a ∈ roots, Below children a x :=
  foldl_spec (fun a ha => visit_spec hrank (h a ha)) listed

end Visit

end DepthFirst
