import Mathlib.Data.List.Basic
import Mathlib.Data.List.Nodup
import Mathlib.Data.List.Perm.Basic

/-!
# Labelled trees

Trees with a label and a list of children at every node.
-/

/-- A node with a label and its children. -/
inductive Rose (α : Type) where
  | node (label : α) (children : List (Rose α))

namespace Rose

variable {α β : Type}

def label : Rose α → α
  | .node a _ => a

def children : Rose α → List (Rose α)
  | .node _ cs => cs

@[simp] theorem label_node (a : α) (cs : List (Rose α)) : (node a cs).label = a := rfl

@[simp] theorem children_node (a : α) (cs : List (Rose α)) : (node a cs).children = cs := rfl

/-- Induction over a tree, with the hypothesis for all children. -/
@[elab_as_elim] theorem induction {motive : Rose α → Prop}
    (step : ∀ a cs, (∀ c ∈ cs, motive c) → motive (node a cs)) (t : Rose α) : motive t := by
  have hlist : ∀ (c : Rose α) (cs : List (Rose α)), motive c → (∀ d ∈ cs, motive d) →
      ∀ d ∈ c :: cs, motive d := fun c cs hc hcs => List.forall_mem_cons.mpr ⟨hc, hcs⟩
  exact @Rose.rec α motive (fun cs => ∀ c ∈ cs, motive c) step (by simp) hlist t

mutual

/-- The labels, a node before its children. -/
def preorder : Rose α → List α
  | .node a cs => a :: preorderList cs

/-- The labels of a list of trees. -/
def preorderList : List (Rose α) → List α
  | [] => []
  | c :: cs => c.preorder ++ preorderList cs

end

mutual

/-- The labels, a node after its children. -/
def postorder : Rose α → List α
  | .node a cs => postorderList cs ++ [a]

/-- The labels of a list of trees. -/
def postorderList : List (Rose α) → List α
  | [] => []
  | c :: cs => c.postorder ++ postorderList cs

end

mutual

/-- The subtrees, a tree before those of its children. -/
def subtrees : Rose α → List (Rose α)
  | .node a cs => .node a cs :: subtreesList cs

/-- The subtrees of a list of trees. -/
def subtreesList : List (Rose α) → List (Rose α)
  | [] => []
  | c :: cs => c.subtrees ++ subtreesList cs

end

theorem preorder_node (a : α) (cs : List (Rose α)) :
    (node a cs).preorder = a :: cs.flatMap preorder := by
  rw [preorder]
  congr 1
  induction cs with
  | nil => rfl
  | cons c cs ih => simp only [preorderList, ih, List.flatMap_cons]

theorem postorder_node (a : α) (cs : List (Rose α)) :
    (node a cs).postorder = cs.flatMap postorder ++ [a] := by
  rw [postorder]
  congr 1
  induction cs with
  | nil => rfl
  | cons c cs ih => simp only [postorderList, ih, List.flatMap_cons]

theorem subtrees_node (a : α) (cs : List (Rose α)) :
    (node a cs).subtrees = node a cs :: cs.flatMap subtrees := by
  rw [subtrees]
  congr 1
  induction cs with
  | nil => rfl
  | cons c cs ih => simp only [subtreesList, ih, List.flatMap_cons]

theorem label_mem_preorder (t : Rose α) : t.label ∈ t.preorder := by
  cases t with
  | node a cs =>
    rw [preorder_node]
    exact List.mem_cons_self

theorem preorder_subset_of_mem_subtrees {s t : Rose α} (hs : s ∈ t.subtrees) :
    s.preorder ⊆ t.preorder := by
  induction t using Rose.induction with
  | step a cs ih =>
    rw [subtrees_node] at hs
    rcases List.mem_cons.mp hs with rfl | hs
    · exact fun _ h => h
    · obtain ⟨c, hc, hs⟩ := List.mem_flatMap.mp hs
      intro b hb
      rw [preorder_node]
      exact List.mem_cons_of_mem _ (List.mem_flatMap.mpr ⟨c, hc, ih c hc hs hb⟩)

/-! ## Trees with their ancestors -/

mutual

/-- Relabel every node. -/
def map (f : α → β) : Rose α → Rose β
  | .node a cs => .node (f a) (mapList f cs)

/-- Relabel every node of a list of trees. -/
def mapList (f : α → β) : List (Rose α) → List (Rose β)
  | [] => []
  | c :: cs => c.map f :: mapList f cs

end

theorem map_node (f : α → β) (a : α) (cs : List (Rose α)) :
    (node a cs).map f = node (f a) (cs.map (map f)) := by
  rw [map]
  congr 1
  induction cs with
  | nil => rfl
  | cons c cs ih => simp only [mapList, ih, List.map_cons]

@[simp] theorem label_map (f : α → β) (t : Rose α) : (t.map f).label = f t.label := by
  cases t with
  | node a cs => rw [map_node, label_node, label_node]

theorem map_map {γ : Type} (f : α → β) (g : β → γ) (t : Rose α) :
    (t.map f).map g = t.map (g ∘ f) := by
  induction t using Rose.induction with
  | step a cs ih =>
    rw [map_node, map_node, map_node, List.map_map]
    congr 1
    exact List.map_congr_left fun c hc => ih c hc

theorem map_id_of_eq {f : α → α} (hf : ∀ a, f a = a) (t : Rose α) : t.map f = t := by
  induction t using Rose.induction with
  | step a cs ih =>
    rw [map_node, hf]
    congr 1
    rw [List.map_congr_left fun c hc => ih c hc, List.map_id']

mutual

/-- The subtrees, each with the trees around it, innermost first. The trees around the whole tree are
given. -/
def withAncestors (above : List (Rose α)) : Rose α → List (Rose α × List (Rose α))
  | .node a cs => (.node a cs, above) :: withAncestorsList (.node a cs :: above) cs

/-- Those of a list of trees. -/
def withAncestorsList (above : List (Rose α)) : List (Rose α) → List (Rose α × List (Rose α))
  | [] => []
  | c :: cs => c.withAncestors above ++ withAncestorsList above cs

end

theorem withAncestors_node (above : List (Rose α)) (a : α) (cs : List (Rose α)) :
    (node a cs).withAncestors above =
      (node a cs, above) :: cs.flatMap (withAncestors (node a cs :: above)) := by
  have hlist : ∀ (above : List (Rose α)) (cs : List (Rose α)),
      withAncestorsList above cs = cs.flatMap (withAncestors above) := by
    intro above cs
    induction cs with
    | nil => rfl
    | cons c cs ih => rw [withAncestorsList, ih, List.flatMap_cons]
  rw [withAncestors, hlist]

theorem self_mem_withAncestors (above : List (Rose α)) (t : Rose α) :
    (t, above) ∈ t.withAncestors above := by
  cases t with
  | node a cs =>
    rw [withAncestors_node]
    exact List.mem_cons_self

/-- The subtrees are in pre-order. -/
theorem map_label_withAncestors (above : List (Rose α)) (t : Rose α) :
    (t.withAncestors above).map (fun s => s.1.label) = t.preorder := by
  induction t using Rose.induction generalizing above with
  | step a cs ih =>
    rw [withAncestors_node, preorder_node, List.map_cons, List.map_flatMap]
    congr 1
    exact List.flatMap_congr fun c hc => ih c hc _

/-- What is below a subtree is below the tree. -/
theorem withAncestors_subset {above : List (Rose α)} {t s : Rose α} {around : List (Rose α)}
    (hs : (s, around) ∈ t.withAncestors above) : s.withAncestors around ⊆ t.withAncestors above := by
  induction t using Rose.induction generalizing above with
  | step a cs ih =>
    rw [withAncestors_node] at hs
    rcases List.mem_cons.mp hs with h | hs
    · obtain ⟨rfl, rfl⟩ := Prod.mk.inj h
      exact List.Subset.refl _
    · obtain ⟨c, hc, hs⟩ := List.mem_flatMap.mp hs
      intro x hx
      rw [withAncestors_node]
      exact List.mem_cons_of_mem _ (List.mem_flatMap.mpr ⟨c, hc, ih c hc hs hx⟩)

/-- In the same order. -/
theorem withAncestors_sublist {above : List (Rose α)} {t s : Rose α} {around : List (Rose α)}
    (hs : (s, around) ∈ t.withAncestors above) :
    (s.withAncestors around).Sublist (t.withAncestors above) := by
  induction t using Rose.induction generalizing above with
  | step a cs ih =>
    rw [withAncestors_node] at hs
    rcases List.mem_cons.mp hs with h | hs
    · obtain ⟨rfl, rfl⟩ := Prod.mk.inj h
      exact List.Sublist.refl _
    · obtain ⟨c, hc, hs⟩ := List.mem_flatMap.mp hs
      rw [withAncestors_node, List.flatMap_def]
      apply List.Sublist.cons
      exact (ih c hc hs).trans (List.sublist_flatten_of_mem (List.mem_map_of_mem hc))

/-- A subtree is the tree itself or is below it. -/
theorem ancestors_of_mem {above around : List (Rose α)} {t s : Rose α}
    (hs : (s, around) ∈ t.withAncestors above) :
    s = t ∧ around = above ∨ ∃ between, around = between ++ t :: above := by
  induction t using Rose.induction generalizing above with
  | step a cs ih =>
    rw [withAncestors_node] at hs
    rcases List.mem_cons.mp hs with h | hs
    · exact Or.inl (Prod.mk.inj h)
    · obtain ⟨c, hc, hs⟩ := List.mem_flatMap.mp hs
      rcases ih c hc hs with ⟨rfl, rfl⟩ | ⟨between, rfl⟩
      · exact Or.inr ⟨[], rfl⟩
      · exact Or.inr ⟨between ++ [c], by simp⟩

/-- The innermost ancestor of a subtree has it below. -/
theorem parent_mem_withAncestors {above around : List (Rose α)} {t s p : Rose α}
    (hs : (s, p :: around) ∈ t.withAncestors above) (habove : above.length ≤ around.length) :
    (p, around) ∈ t.withAncestors above ∧ (s, p :: around) ∈ p.withAncestors around := by
  induction t using Rose.induction generalizing above with
  | step a cs ih =>
    have hs' := hs
    rw [withAncestors_node] at hs'
    rcases List.mem_cons.mp hs' with h | hs'
    · obtain ⟨-, rfl⟩ := Prod.mk.inj h
      exact absurd habove (by simp)
    · obtain ⟨c, hc, hs'⟩ := List.mem_flatMap.mp hs'
      rcases ancestors_of_mem hs' with ⟨rfl, h⟩ | ⟨between, h⟩
      · obtain ⟨rfl, rfl⟩ := List.cons.inj h
        exact ⟨self_mem_withAncestors _ _, hs⟩
      · have hlength := congrArg List.length h
        simp only [List.length_cons, List.length_append] at hlength
        obtain ⟨hp, hs''⟩ := ih c hc hs' (by rw [List.length_cons]; omega)
        rw [withAncestors_node]
        exact ⟨List.mem_cons_of_mem _ (List.mem_flatMap.mpr ⟨c, hc, hp⟩), hs''⟩

/-- Every ancestor of a subtree has it below. -/
theorem ancestor_mem_withAncestors {around between : List (Rose α)} {t s p : Rose α}
    (hs : (s, between ++ p :: around) ∈ t.withAncestors []) :
    (p, around) ∈ t.withAncestors [] ∧ (s, between ++ p :: around) ∈ p.withAncestors around := by
  induction between generalizing s with
  | nil => exact parent_mem_withAncestors hs (Nat.zero_le _)
  | cons q between ih =>
    obtain ⟨hq, hs'⟩ := parent_mem_withAncestors hs (Nat.zero_le _)
    obtain ⟨hp, hq'⟩ := ih hq
    exact ⟨hp, withAncestors_subset hq' hs'⟩

/-- The innermost ancestor comes before a subtree. -/
theorem parent_sublist_withAncestors {above around : List (Rose α)} {t s p : Rose α}
    (hs : (s, p :: around) ∈ t.withAncestors above) (habove : above.length ≤ around.length) :
    [(p, around), (s, p :: around)].Sublist (t.withAncestors above) := by
  obtain ⟨hp, hs⟩ := parent_mem_withAncestors hs habove
  refine List.Sublist.trans ?_ (withAncestors_sublist hp)
  cases p with
  | node a cs =>
    rw [withAncestors_node] at hs ⊢
    apply List.Sublist.cons_cons
    rcases List.mem_cons.mp hs with h | hs
    · have hlength := congrArg (fun s => s.2.length) h
      simp at hlength
    · exact List.singleton_sublist.mpr hs

/-- The innermost ancestor of a subtree has it as a child. -/
theorem mem_children_of_mem {above around : List (Rose α)} {t s p : Rose α}
    (hs : (s, p :: around) ∈ t.withAncestors above) (habove : above.length ≤ around.length) :
    s ∈ p.children := by
  obtain ⟨-, hs⟩ := parent_mem_withAncestors hs habove
  cases p with
  | node a cs =>
    rw [withAncestors_node] at hs
    rcases List.mem_cons.mp hs with h | hs
    · have hlength := congrArg (fun s => s.2.length) h
      simp at hlength
    · obtain ⟨c, hc, hs⟩ := List.mem_flatMap.mp hs
      rcases ancestors_of_mem hs with ⟨rfl, -⟩ | ⟨between, h⟩
      · exact hc
      · have hlength := congrArg List.length h
        simp only [List.length_cons, List.length_append] at hlength
        omega

/-- The subtrees are those with their ancestors. -/
theorem map_fst_withAncestors (above : List (Rose α)) (t : Rose α) :
    (t.withAncestors above).map Prod.fst = t.subtrees := by
  induction t using Rose.induction generalizing above with
  | step a cs ih =>
    rw [withAncestors_node, subtrees_node, List.map_cons, List.map_flatMap]
    congr 1
    exact List.flatMap_congr fun c hc => ih c hc _

theorem label_mem_preorder_of_mem {above around : List (Rose α)} {t s : Rose α}
    (hs : (s, around) ∈ t.withAncestors above) : s.label ∈ t.preorder := by
  rw [← map_label_withAncestors above]
  exact List.mem_map_of_mem (f := fun s : Rose α × List (Rose α) => s.1.label) hs

theorem preorder_subset_of_mem {above around : List (Rose α)} {t s : Rose α}
    (hs : (s, around) ∈ t.withAncestors above) : s.preorder ⊆ t.preorder := by
  rw [← map_label_withAncestors above t, ← map_label_withAncestors around s]
  exact List.map_subset _ (withAncestors_subset hs)

/-- Relabelling commutes with taking the subtrees. -/
theorem withAncestors_map (f : α → β) (above : List (Rose α)) (t : Rose α) :
    (t.map f).withAncestors (above.map (map f)) =
      (t.withAncestors above).map fun s => (s.1.map f, s.2.map (map f)) := by
  induction t using Rose.induction generalizing above with
  | step a cs ih =>
    rw [map_node, withAncestors_node, withAncestors_node, List.map_cons, List.map_flatMap,
      List.flatMap_map, map_node]
    congr 1
    apply List.flatMap_congr
    intro c hc
    rw [← ih c hc, List.map_cons, map_node]

/-- The labels around the first node with the property, from the root on. -/
def labelsAround (t : Rose α) (p : α → Bool) : List α :=
  ((t.withAncestors []).find? fun s => p s.1.label).elim [] fun s => (s.2.map label).reverse

theorem labelsAround_map (f : α → β) {p : α → Bool} {p' : β → Bool} (hp : ∀ a, p' (f a) = p a)
    (t : Rose α) : (t.map f).labelsAround p' = (t.labelsAround p).map f := by
  unfold labelsAround
  have hmap := withAncestors_map f [] t
  rw [List.map_nil] at hmap
  rw [hmap, List.find?_map]
  have hpred : ((fun s : Rose β × List (Rose β) => p' s.1.label) ∘
      fun s : Rose α × List (Rose α) => (s.1.map f, s.2.map (map f))) =
      fun s => p s.1.label := by
    funext s
    simp [hp]
  rw [hpred]
  cases (t.withAncestors []).find? fun s => p s.1.label with
  | none => rfl
  | some s =>
    simp only [Option.map_some, Option.elim_some, List.map_reverse, List.map_map]
    congr 1
    apply List.map_congr_left
    intro c _
    exact label_map f c

theorem exists_labelsAround {t : Rose α} {p : α → Bool} {a : α} (ha : a ∈ t.preorder)
    (hp : p a = true) : ∃ s ∈ t.withAncestors [], p s.1.label = true ∧
      t.labelsAround p = (s.2.map label).reverse := by
  rw [← map_label_withAncestors []] at ha
  obtain ⟨s, hs, rfl⟩ := List.mem_map.mp ha
  unfold labelsAround
  cases hfind : (t.withAncestors []).find? fun s => p s.1.label with
  | none => exact absurd hp (by simpa using List.find?_eq_none.mp hfind s hs)
  | some s' =>
    have hp' := List.find?_some hfind
    exact ⟨s', List.mem_of_find?_eq_some hfind, hp', rfl⟩

theorem map_congr {f g : α → β} {t : Rose α} (h : ∀ a ∈ t.preorder, f a = g a) :
    t.map f = t.map g := by
  induction t using Rose.induction with
  | step a cs ih =>
    rw [preorder_node, List.forall_mem_cons] at h
    rw [map_node, map_node, h.1]
    congr 1
    apply List.map_congr_left
    intro c hc
    exact ih c hc fun b hb => h.2 b (List.mem_flatMap.mpr ⟨c, hc, hb⟩)

theorem preorder_map (f : α → β) (t : Rose α) : (t.map f).preorder = t.preorder.map f := by
  induction t using Rose.induction with
  | step a cs ih =>
    rw [map_node, preorder_node, preorder_node, List.map_cons, List.map_flatMap, List.flatMap_map]
    congr 1
    exact List.flatMap_congr fun c hc => ih c hc

theorem subtrees_map (f : α → β) (t : Rose α) : (t.map f).subtrees = t.subtrees.map (map f) := by
  induction t using Rose.induction with
  | step a cs ih =>
    rw [map_node, subtrees_node, subtrees_node, List.map_cons, List.map_flatMap, List.flatMap_map,
      map_node]
    congr 1
    exact List.flatMap_congr fun c hc => ih c hc

/-- Both orders have the same labels. -/
theorem postorder_perm (t : Rose α) : t.postorder.Perm t.preorder := by
  induction t using Rose.induction with
  | step a cs ih =>
    rw [postorder_node, preorder_node]
    apply (List.perm_append_singleton _ _).trans
    exact (List.Perm.flatMap_left cs ih).cons a

end Rose
