import DataflowScheduler.Util.Rose

/-!
# Places in lists of labelled trees

The children of a node stand at a place: the node, its siblings on both sides, and so on up to the
roots. What is said about the nodes elsewhere does not depend on the children at the place.
-/

namespace Rose

variable {α : Type}

mutual

/-- The labels, a node before its children, each with those of its children. -/
def links : Rose α → List (α × List α)
  | .node a cs => (a, cs.map label) :: linksList cs

/-- Those of a list of trees. -/
def linksList : List (Rose α) → List (α × List α)
  | [] => []
  | c :: cs => c.links ++ linksList cs

end

theorem linksList_append (ts us : List (Rose α)) :
    linksList (ts ++ us) = linksList ts ++ linksList us := by
  induction ts with
  | nil => rfl
  | cons t ts ih => rw [List.cons_append, linksList, linksList, ih, List.append_assoc]

theorem linksList_node (a : α) (cs ts : List (Rose α)) :
    linksList (node a cs :: ts) = (a, cs.map label) :: (linksList cs ++ linksList ts) := by
  rw [linksList, links, List.cons_append]

/-- The links of the trees in another order. -/
theorem linksList_perm {ts us : List (Rose α)} (h : ts.Perm us) :
    (linksList ts).Perm (linksList us) := by
  induction h with
  | nil => exact List.Perm.refl _
  | cons t _ ih => exact ih.append_left _
  | swap t u ts =>
    simp only [linksList, ← List.append_assoc]
    exact List.perm_append_comm.append_right _
  | trans _ _ ih ih' => exact ih.trans ih'

mutual

theorem map_fst_links (t : Rose α) : t.links.map Prod.fst = t.preorder := by
  cases t with
  | node a cs => rw [links, preorder, List.map_cons, map_fst_linksList cs]

theorem map_fst_linksList (ts : List (Rose α)) :
    (linksList ts).map Prod.fst = preorderList ts := by
  cases ts with
  | nil => rfl
  | cons t ts =>
      rw [linksList, preorderList, List.map_append, map_fst_links t, map_fst_linksList ts]

end

/-- A node with its siblings, but without its children. -/
structure Frame (α : Type) where
  before : List (Rose α)
  label : α
  after : List (Rose α)

/-- Put children at a place, the innermost node of which comes first. -/
def plug : List (Frame α) → List (Rose α) → List (Rose α)
  | [], cs => cs
  | f :: fs, cs => plug fs (f.before ++ node f.label cs :: f.after)

theorem plug_append (fs gs : List (Frame α)) (cs : List (Rose α)) :
    plug (fs ++ gs) cs = plug gs (plug fs cs) := by
  induction fs generalizing cs with
  | nil => rfl
  | cons f fs ih => exact ih _

theorem mem_preorderList {ts : List (Rose α)} {a : α} :
    a ∈ preorderList ts ↔ ∃ t ∈ ts, a ∈ t.preorder := by
  induction ts with
  | nil => simp [preorderList]
  | cons t ts ih => simp [preorderList, ih]

theorem preorderList_append (ts us : List (Rose α)) :
    preorderList (ts ++ us) = preorderList ts ++ preorderList us := by
  rw [← map_fst_linksList, ← map_fst_linksList, ← map_fst_linksList, linksList_append,
    List.map_append]

theorem mem_preorderList_of_postorderList {ts : List (Rose α)} {a : α}
    (ha : a ∈ postorderList ts) : a ∈ preorderList ts := by
  induction ts with
  | nil => cases ha
  | cons t ts ih =>
    rw [postorderList, List.mem_append] at ha
    rw [preorderList, List.mem_append]
    exact ha.imp (t.postorder_perm.mem_iff.mp) ih

theorem mapList_append {β : Type} (g : α → β) (ts us : List (Rose α)) :
    mapList g (ts ++ us) = mapList g ts ++ mapList g us := by
  induction ts with
  | nil => rfl
  | cons t ts ih => rw [List.cons_append, mapList, mapList, ih, List.cons_append]

theorem label_mem_preorderList {ts : List (Rose α)} {a : α} (ha : a ∈ ts.map label) :
    a ∈ preorderList ts := by
  obtain ⟨t, ht, rfl⟩ := List.mem_map.mp ha
  exact mem_preorderList.mpr ⟨t, ht, label_mem_preorder t⟩

theorem exists_plug_node (t : Rose α) {a : α} (ha : a ∈ t.preorder) (before after : List (Rose α)) :
    ∃ f fs cs, f.label = a ∧ before ++ t :: after = plug (f :: fs) cs := by
  induction t using Rose.induction generalizing before after with
  | step b ds ih =>
    rw [preorder] at ha
    rcases List.mem_cons.mp ha with rfl | ha
    · exact ⟨⟨before, a, after⟩, [], ds, rfl, rfl⟩
    · obtain ⟨d, hd, had⟩ := mem_preorderList.mp ha
      obtain ⟨front, back, rfl⟩ := List.append_of_mem hd
      obtain ⟨f, fs, cs, hf, hds⟩ := ih d hd had front back
      refine ⟨f, fs ++ [⟨before, b, after⟩], cs, hf, ?_⟩
      rw [← List.cons_append, plug_append, ← hds]
      rfl

/-- Every node has a place for its children. -/
theorem exists_plug {ts : List (Rose α)} {a : α} (ha : a ∈ preorderList ts) :
    ∃ f fs cs, f.label = a ∧ ts = plug (f :: fs) cs := by
  obtain ⟨t, ht, hat⟩ := mem_preorderList.mp ha
  obtain ⟨before, after, rfl⟩ := List.append_of_mem ht
  exact exists_plug_node t hat before after

/-- The nodes elsewhere, and the roots, stay as they are whatever the children at a place are. -/
theorem exists_links_plug (f : Frame α) (fs : List (Frame α)) :
    ∃ around roots, ∀ cs,
      (linksList (plug (f :: fs) cs)).Perm
        ((f.label, cs.map label) :: (linksList cs ++ around)) ∧
      (plug (f :: fs) cs).map label = roots := by
  induction fs generalizing f with
  | nil =>
    refine ⟨linksList f.before ++ linksList f.after,
      f.before.map label ++ f.label :: f.after.map label, fun cs => ⟨?_, ?_⟩⟩
    · show (linksList (f.before ++ node f.label cs :: f.after)).Perm _
      rw [linksList_append, linksList_node]
      apply List.perm_middle.trans
      rw [← List.append_assoc, ← List.append_assoc]
      exact (List.perm_append_comm.append_right _).cons _
    · show (f.before ++ node f.label cs :: f.after).map label = _
      rw [List.map_append, List.map_cons, label_node]
  | cons g gs ih =>
    obtain ⟨around, roots, h⟩ := ih g
    refine ⟨(g.label, f.before.map label ++ f.label :: f.after.map label) ::
      (linksList f.before ++ linksList f.after ++ around), roots, fun cs => ?_⟩
    obtain ⟨hperm, hroots⟩ := h (f.before ++ node f.label cs :: f.after)
    refine ⟨?_, hroots⟩
    apply hperm.trans
    rw [List.map_append, List.map_cons, label_node, linksList_append, linksList_node]
    have hinner : (linksList f.before ++ (f.label, cs.map label) :: (linksList cs ++
        linksList f.after) ++ around).Perm
        ((f.label, cs.map label) :: (linksList cs ++ (linksList f.before ++ linksList f.after ++
          around))) := by
      rw [List.append_assoc, List.cons_append]
      apply List.perm_middle.trans
      apply List.Perm.cons
      rw [← List.append_assoc, ← List.append_assoc, ← List.append_assoc, ← List.append_assoc]
      exact ((List.perm_append_comm).append_right _).append_right _
    apply (hinner.cons _).trans
    apply (List.Perm.swap _ _ _).trans
    apply List.Perm.cons
    exact List.perm_middle.symm

variable (f : Frame α) (fs : List (Frame α))

/-- More children at a place are more nodes. -/
theorem preorderList_plug_append (cs ds : List (Rose α)) :
    (preorderList (plug (f :: fs) (cs ++ ds))).Perm
      (preorderList (plug (f :: fs) cs) ++ preorderList ds) := by
  obtain ⟨around, roots, haround⟩ := exists_links_plug f fs
  rw [← map_fst_linksList, ← map_fst_linksList, ← map_fst_linksList]
  apply ((haround (cs ++ ds)).1.map Prod.fst).trans
  refine List.Perm.trans ?_ (((haround cs).1.map Prod.fst).append_right _).symm
  simp only [linksList_append, List.map_cons, List.map_append, List.cons_append, List.append_assoc]
  exact (List.perm_append_comm.append_left _).cons _

theorem label_mem_plug (cs : List (Rose α)) : f.label ∈ preorderList (plug (f :: fs) cs) := by
  obtain ⟨around, roots, haround⟩ := exists_links_plug f fs
  rw [← map_fst_linksList, ((haround cs).1.map Prod.fst).mem_iff]
  exact List.mem_cons_self

theorem mem_plug_of_mem {cs : List (Rose α)} {a : α} (ha : a ∈ preorderList cs) :
    a ∈ preorderList (plug (f :: fs) cs) := by
  have h := preorderList_plug_append f fs [] cs
  rw [List.nil_append] at h
  exact h.mem_iff.mpr (List.mem_append_right _ ha)

end Rose
