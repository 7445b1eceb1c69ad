import DataflowScheduler.Util.Acyclic
import DataflowScheduler.Util.Walk

/-!
# Forests

A forest is given by the parent of each node. Between two nodes of one tree there is exactly one path
without repeated nodes: up to the lowest common ancestor, and down from there.
-/

namespace Forest

variable {α : Type} {parent : α → Option α}

/-- `b` is the parent of `a`. -/
def Up (parent : α → Option α) (a b : α) : Prop := parent a = some b

/-- `b` is `a` or an ancestor of it. -/
def Above (parent : α → Option α) : α → α → Prop := Relation.ReflTransGen (Up parent)

theorem Above.refl (a : α) : Above parent a a := Relation.ReflTransGen.refl

theorem Above.trans {a b c : α} (hab : Above parent a b) (hbc : Above parent b c) :
    Above parent a c := Relation.ReflTransGen.trans hab hbc

theorem Above.of_parent {a b : α} (h : parent a = some b) : Above parent a b :=
  Relation.ReflTransGen.single h

/-- The ancestors of a node stand in a line. -/
theorem Above.total {a x y : α} (hx : Above parent a x) (hy : Above parent a y) :
    Above parent x y ∨ Above parent y x :=
  Relation.ReflTransGen.total_of_right_unique
    (fun _ _ _ h h' => Option.some.inj (h.symm.trans h')) hx hy

/-- Nothing is above a root. -/
theorem Above.eq_of_root {a x : α} (h : Above parent a x) (hroot : parent a = none) : x = a := by
  cases Relation.ReflTransGen.cases_head h with
  | inl heq => exact heq.symm
  | inr hup =>
      obtain ⟨b, hab, -⟩ := hup
      cases hroot.symm.trans hab

/-- Neighbours are a node and its parent. -/
def Adjacent (parent : α → Option α) (a b : α) : Prop := parent a = some b ∨ parent b = some a

section

variable (hacyclic : Acyclic (Up parent))

include hacyclic

theorem Above.antisymm {a b : α} (hab : Above parent a b) (hba : Above parent b a) : a = b := by
  rcases Relation.reflTransGen_iff_eq_or_transGen.mp hab with heq | hlt
  · exact heq.symm
  · exact absurd (hlt.trans_left hba) (hacyclic a)

/-- A climb repeats no node. -/
theorem nodup_of_climb {a b : α} {l : List α} (h : Walk (Up parent) a b l) : l.Nodup := by
  induction h with
  | refl a => exact List.nodup_singleton a
  | step hab hwalk ih =>
      refine List.nodup_cons.mpr ⟨fun hmem => ?_, ih⟩
      exact hacyclic _ (Relation.TransGen.head' hab (hwalk.between hmem).1)

/-- There is only one climb to an ancestor. -/
theorem climb_unique {a b : α} {l l' : List α} (h : Walk (Up parent) a b l)
    (h' : Walk (Up parent) a b l') : l = l' := by
  induction h generalizing l' with
  | refl a =>
      cases h' with
      | refl => rfl
      | step hab hwalk => exact absurd (Relation.TransGen.head' hab hwalk.reflTransGen) (hacyclic a)
  | step hab hwalk ih =>
      cases h' with
      | refl => exact absurd (Relation.TransGen.head' hab hwalk.reflTransGen) (hacyclic _)
      | step hab' hwalk' =>
          cases hab.symm.trans hab'
          rw [ih hwalk']

/-- A climb passes everything between its ends. -/
theorem mem_climb {a b x : α} {l : List α} (h : Walk (Up parent) a b l) :
    x ∈ l ↔ Above parent a x ∧ Above parent x b := by
  refine ⟨h.between, ?_⟩
  rintro ⟨hax, hxb⟩
  obtain ⟨l₁, h₁⟩ := Walk.exists_of_reflTransGen hax
  obtain ⟨l₂, h₂⟩ := Walk.exists_of_reflTransGen hxb
  rw [climb_unique hacyclic h (h₁.append h₂)]
  exact List.mem_append_left _ (List.mem_of_getLast? h₁.getLast?)

end

/-! ## Paths between two nodes -/

/-- A path from one node to another that repeats none. -/
structure IsPath (parent : α → Option α) (source target : α) (path : List α) : Prop where
  head : path.head? = some source
  last : path.getLast? = some target
  adjacent : path.IsChain (Adjacent parent)
  nodup : path.Nodup

theorem isPath_iff {source target : α} {path : List α} :
    IsPath parent source target path ↔
      Walk (Adjacent parent) source target path ∧ path.Nodup := by
  rw [Walk.iff_isChain]
  exact ⟨fun h => ⟨⟨h.head, h.last, h.adjacent⟩, h.nodup⟩,
    fun ⟨⟨hhead, hlast, hchain⟩, hnodup⟩ => ⟨hhead, hlast, hchain, hnodup⟩⟩

/-- Two nodes are in the same tree when they have a common ancestor. -/
def SameTree (parent : α → Option α) (a b : α) : Prop :=
  ∃ top, Above parent a top ∧ Above parent b top

/-- The lowest common ancestor. -/
structure IsLowestCommonAncestor (parent : α → Option α) (a b top : α) : Prop where
  left : Above parent a top
  right : Above parent b top
  lowest : ∀ x, Above parent a x → Above parent b x → Above parent top x

/-- Up along one list and down along the other, which end at the same node. -/
def join (ups downs : List α) : List α := ups ++ downs.reverse.tail

/-- A path goes up first, and then down: after a step down, a step up would return. -/
theorem exists_join {source target : α} {path : List α}
    (h : Walk (Adjacent parent) source target path) (hnodup : path.Nodup) :
    ∃ top ups downs, Walk (Up parent) source top ups ∧ Walk (Up parent) target top downs ∧
      path = join ups downs := by
  induction h with
  | refl a => exact ⟨a, [a], [a], .refl a, .refl a, rfl⟩
  | @step a b target path hab hwalk ih =>
      obtain ⟨hnot, hnodup⟩ := List.nodup_cons.mp hnodup
      obtain ⟨top, ups, downs, hups, hdowns, rfl⟩ := ih hnodup
      cases hab with
      | inl hup => exact ⟨top, a :: ups, downs, .step hup hups, hdowns, rfl⟩
      | inr hdown =>
          cases hups with
          | refl =>
              refine ⟨a, [a], downs ++ [a], .refl a, hdowns.snoc hdown, ?_⟩
              have hne := hdowns.reverse.eq_cons
              show a :: ([b] ++ downs.reverse.tail) = [a] ++ (downs ++ [a]).reverse.tail
              rw [List.reverse_append]
              show a :: b :: downs.reverse.tail = a :: downs.reverse
              rw [← hne]
          | @step _ c _ ups hbc hrest =>
              cases hdown.symm.trans hbc
              refine absurd ?_ hnot
              rw [hrest.eq_cons]
              simp [join]

section

variable (hacyclic : Acyclic (Up parent))

include hacyclic

/-- A path turns at the lowest common ancestor: a lower one would be passed twice. -/
theorem lowest_of_nodup {source target top : α} {ups downs : List α}
    (hups : Walk (Up parent) source top ups) (hdowns : Walk (Up parent) target top downs)
    (hnodup : (join ups downs).Nodup) : IsLowestCommonAncestor parent source target top := by
  refine ⟨hups.reflTransGen, hdowns.reflTransGen, fun x hsource htarget => ?_⟩
  rcases Above.total (hups.reflTransGen : Above parent source top) hsource with hle | hle
  · exact hle
  · have hmem := (mem_climb hacyclic hups).mpr ⟨hsource, hle⟩
    have hmem' := (mem_climb hacyclic hdowns).mpr ⟨htarget, hle⟩
    rw [← List.mem_reverse, hdowns.reverse.eq_cons] at hmem'
    rcases List.mem_cons.mp hmem' with rfl | hmem'
    · exact .refl x
    · exact absurd hmem' (fun h => (List.nodup_append.mp hnodup).2.2 x hmem x h rfl)

/-- Up to the lowest common ancestor and down again is a path. -/
theorem isPath_join {source target top : α} {ups downs : List α}
    (hups : Walk (Up parent) source top ups) (hdowns : Walk (Up parent) target top downs)
    (hlowest : IsLowestCommonAncestor parent source target top) :
    IsPath parent source target (join ups downs) := by
  refine isPath_iff.mpr ⟨(hups.mono fun _ _ => .inl).append (hdowns.reverse.mono fun _ _ => .inr),
    ?_⟩
  have hdown := List.nodup_reverse.mpr (nodup_of_climb hacyclic hdowns)
  rw [hdowns.reverse.eq_cons] at hdown
  refine List.nodup_append.mpr
    ⟨nodup_of_climb hacyclic hups, (List.nodup_cons.mp hdown).2, ?_⟩
  rintro x hx _ hx' rfl
  -- a node on both sides is a common ancestor, and not above the lowest
  have hmem : x ∈ downs := by
    rw [← List.mem_reverse, hdowns.reverse.eq_cons]
    exact List.mem_cons_of_mem _ hx'
  obtain ⟨hsource, hle⟩ := hups.between hx
  have := Above.antisymm hacyclic hle (hlowest.lowest x hsource (hdowns.between hmem).1)
  exact (List.nodup_cons.mp hdown).1 (this ▸ hx')

/-- Only that is a path between the two. -/
theorem eq_join_of_isPath {source target top : α} {ups downs path : List α}
    (hups : Walk (Up parent) source top ups) (hdowns : Walk (Up parent) target top downs)
    (hlowest : IsLowestCommonAncestor parent source target top)
    (h : IsPath parent source target path) : path = join ups downs := by
  obtain ⟨hwalk, hnodup⟩ := isPath_iff.mp h
  obtain ⟨top', ups', downs', hups', hdowns', rfl⟩ := exists_join hwalk hnodup
  have hlowest' := lowest_of_nodup hacyclic hups' hdowns' hnodup
  have heq : top = top' := Above.antisymm hacyclic
    (hlowest.lowest top' hlowest'.left hlowest'.right)
    (hlowest'.lowest top hlowest.left hlowest.right)
  subst heq
  rw [climb_unique hacyclic hups hups', climb_unique hacyclic hdowns hdowns']

end

end Forest
