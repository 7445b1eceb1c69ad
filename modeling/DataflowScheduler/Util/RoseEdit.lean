import DataflowScheduler.Util.Rose

/-!
# Editing labelled trees

Nodes of a list of trees are unwrapped, which puts their children in their place, or erased with all
that is below them. Edits of single nodes, one after the other, come to one edit of the whole list as
long as a node is not edited after one around it is gone.
-/

namespace Rose

variable {α κ : Type}

/-- What happens to a node. -/
inductive Edit where
  | keep
  | unwrap
  | erase
  deriving Repr, DecidableEq

mutual

/-- Edit every node as its label says. -/
def edit (act : α → Edit) : Rose α → List (Rose α)
  | .node a cs =>
      match act a with
      | .keep => [.node a (editList act cs)]
      | .unwrap => editList act cs
      | .erase => []

/-- Edit a list of trees. -/
def editList (act : α → Edit) : List (Rose α) → List (Rose α)
  | [] => []
  | c :: cs => c.edit act ++ editList act cs

end

mutual

/-- The labels, a node before its children, each with the labels around it, innermost first. -/
def contexts (around : List α) : Rose α → List (α × List α)
  | .node a cs => (a, around) :: contextsList (a :: around) cs

/-- Those of a list of trees. -/
def contextsList (around : List α) : List (Rose α) → List (α × List α)
  | [] => []
  | c :: cs => c.contexts around ++ contextsList around cs

end

/-! ## Two edits -/

/-- One edit, and on what it keeps another. -/
def Edit.andThen : Edit → Edit → Edit
  | .keep, e => e
  | .unwrap, _ => .unwrap
  | .erase, _ => .erase

theorem editList_append (act : α → Edit) (ts us : List (Rose α)) :
    editList act (ts ++ us) = editList act ts ++ editList act us := by
  induction ts with
  | nil => rfl
  | cons t ts ih => rw [List.cons_append, editList, editList, ih, List.append_assoc]

mutual

theorem editList_edit (act act' : α → Edit) (t : Rose α) :
    editList act' (t.edit act) = t.edit fun a => (act a).andThen (act' a) := by
  cases t with
  | node a cs =>
      simp only [edit]
      cases act a with
      | keep =>
          simp only [editList, edit, List.append_nil]
          rw [editList_editList act act' cs]
          rfl
      | unwrap => exact editList_editList act act' cs
      | erase => rfl

theorem editList_editList (act act' : α → Edit) (ts : List (Rose α)) :
    editList act' (editList act ts) = editList (fun a => (act a).andThen (act' a)) ts := by
  cases ts with
  | nil => rfl
  | cons t ts =>
      rw [editList, editList_append, editList_edit act act' t, editList_editList act act' ts]
      rfl

end

mutual

theorem edit_keep {act : α → Edit} (h : ∀ a, act a = .keep) (t : Rose α) : t.edit act = [t] := by
  cases t with
  | node a cs => simp only [edit, h, editList_keep h cs]

theorem editList_keep {act : α → Edit} (h : ∀ a, act a = .keep) (ts : List (Rose α)) :
    editList act ts = ts := by
  cases ts with
  | nil => rfl
  | cons t ts =>
      rw [editList, edit_keep h t, editList_keep h ts]
      rfl

end

/-! ## What is left -/

theorem contextsList_append (around : List α) (ts us : List (Rose α)) :
    contextsList around (ts ++ us) = contextsList around ts ++ contextsList around us := by
  induction ts with
  | nil => rfl
  | cons t ts ih => rw [List.cons_append, contextsList, contextsList, ih, List.append_assoc]

mutual

theorem around_of_mem_contexts {around : List α} {t : Rose α} {c : α × List α}
    (h : c ∈ t.contexts around) : ∀ b ∈ around, b ∈ c.2 := by
  cases t with
  | node a cs =>
      rw [contexts] at h
      rcases List.mem_cons.mp h with rfl | h
      · exact fun _ hb => hb
      · exact fun b hb => around_of_mem_contextsList h b (List.mem_cons_of_mem _ hb)

/-- What is around a list of trees is around each of its nodes. -/
theorem around_of_mem_contextsList {around : List α} {ts : List (Rose α)} {c : α × List α}
    (h : c ∈ contextsList around ts) : ∀ b ∈ around, b ∈ c.2 := by
  cases ts with
  | nil => cases h
  | cons t ts =>
      rcases List.mem_append.mp h with h | h
      · exact around_of_mem_contexts h
      · exact around_of_mem_contextsList h

end

/-- A node is left when it is kept and nothing around it is erased; of what is around it, the kept
nodes are left. -/
def leftOf (act : α → Edit) (c : α × List α) : Option (α × List α) :=
  if act c.1 = .keep ∧ ∀ b ∈ c.2, act b ≠ .erase then some (c.1, c.2.filter fun b => act b = .keep)
  else none

mutual

theorem contextsList_edit (act : α → Edit) {around : List α} (h : ∀ b ∈ around, act b ≠ .erase)
    (t : Rose α) :
    contextsList (around.filter fun b => act b = .keep) (t.edit act) =
      (t.contexts around).filterMap (leftOf act) := by
  cases t with
  | node a cs =>
      rw [edit, contexts, List.filterMap_cons]
      cases hact : act a with
      | keep =>
          have hcs := @contextsList_editList act (a :: around)
            (List.forall_mem_cons.mpr ⟨by simp [hact], h⟩) cs
          rw [List.filter_cons_of_pos (by simp [hact])] at hcs
          rw [leftOf, if_pos ⟨hact, h⟩, ← hcs]
          simp [contextsList, contexts]
      | unwrap =>
          have hcs := @contextsList_editList act (a :: around)
            (List.forall_mem_cons.mpr ⟨by simp [hact], h⟩) cs
          rw [List.filter_cons_of_neg (by simp [hact])] at hcs
          rw [leftOf, if_neg (by simp [hact]), ← hcs]
      | erase =>
          rw [leftOf, if_neg (by simp [hact])]
          refine (List.filterMap_eq_nil_iff.mpr fun c hc => ?_).symm
          refine if_neg fun hleft => hleft.2 a ?_ hact
          exact around_of_mem_contextsList hc a List.mem_cons_self

/-- The nodes an edit leaves, in their order and with what is left around them. -/
theorem contextsList_editList (act : α → Edit) {around : List α}
    (h : ∀ b ∈ around, act b ≠ .erase) (ts : List (Rose α)) :
    contextsList (around.filter fun b => act b = .keep) (editList act ts) =
      (contextsList around ts).filterMap (leftOf act) := by
  cases ts with
  | nil => rfl
  | cons t ts =>
      rw [editList, contextsList_append, contextsList_edit act h t, contextsList_editList act h ts,
        contextsList, List.filterMap_append]

end

mutual

theorem map_fst_contexts (around : List α) (t : Rose α) :
    (t.contexts around).map Prod.fst = t.preorder := by
  cases t with
  | node a cs => rw [contexts, preorder, List.map_cons, map_fst_contextsList (a :: around) cs]

/-- Contexts are in pre-order. -/
theorem map_fst_contextsList (around : List α) (ts : List (Rose α)) :
    (contextsList around ts).map Prod.fst = preorderList ts := by
  cases ts with
  | nil => rfl
  | cons t ts =>
      rw [contextsList, preorderList, List.map_append, map_fst_contexts around t,
        map_fst_contextsList around ts]

end

mutual

theorem pairwise_contexts {r : α → α → Prop} {around : List α} {t : Rose α}
    (haround : ∀ b ∈ around, ∀ a ∈ t.preorder, r b a) (h : t.preorder.Pairwise r) :
    (t.contexts around).Pairwise (fun c c' => ∀ b ∈ c.2, r b c'.1) ∧ ∀ c ∈ t.contexts around,
      ∀ b ∈ c.2, r b c.1 ∧ (b ∈ around ∨ b ∈ t.preorder) := by
  cases t with
  | node a cs =>
      obtain ⟨hfirst, hrest⟩ := List.pairwise_cons.mp h
      have hbelow : ∀ b ∈ a :: around, ∀ a' ∈ preorderList cs, r b a' :=
        List.forall_mem_cons.mpr ⟨hfirst, fun b hb a' ha' =>
          haround b hb a' (List.mem_cons_of_mem _ ha')⟩
      have ih := pairwise_contextsList hbelow hrest
      refine ⟨List.pairwise_cons.mpr ⟨fun c hc b hb => haround b hb c.1 ?_, ih.1⟩,
        List.forall_mem_cons.mpr ⟨fun b hb => ⟨haround b hb a List.mem_cons_self, .inl hb⟩, ?_⟩⟩
      · rw [preorder, ← map_fst_contextsList (a :: around) cs]
        exact List.mem_cons_of_mem _ (List.mem_map_of_mem hc)
      · exact fun c hc b hb => (ih.2 c hc b hb).imp_right fun h => by grind [preorder]

/-- What holds of each node and those after it holds of what is around a node, which comes from
outside or is in the trees itself, and all that is not before that node. -/
theorem pairwise_contextsList {r : α → α → Prop} {around : List α} {ts : List (Rose α)}
    (haround : ∀ b ∈ around, ∀ a ∈ preorderList ts, r b a) (h : (preorderList ts).Pairwise r) :
    (contextsList around ts).Pairwise (fun c c' => ∀ b ∈ c.2, r b c'.1) ∧
      ∀ c ∈ contextsList around ts, ∀ b ∈ c.2, r b c.1 ∧ (b ∈ around ∨ b ∈ preorderList ts) := by
  cases ts with
  | nil => exact ⟨List.Pairwise.nil, by simp [contextsList]⟩
  | cons t ts =>
      obtain ⟨ht, hts, hcross⟩ := List.pairwise_append.mp h
      have iht := pairwise_contexts (fun b hb a ha =>
        haround b hb a (List.mem_append_left _ ha)) ht
      have ihts := pairwise_contextsList (fun b hb a ha =>
        haround b hb a (List.mem_append_right _ ha)) hts
      refine ⟨List.pairwise_append.mpr ⟨iht.1, ihts.1, fun c hc c' hc' b hb => ?_⟩, ?_⟩
      · have hlater : c'.1 ∈ preorderList ts := by
          rw [← map_fst_contextsList around]
          exact List.mem_map_of_mem hc'
        rcases (iht.2 c hc b hb).2 with hb | hb
        · exact haround b hb c'.1 (List.mem_append_right _ hlater)
        · exact hcross b hb c'.1 hlater
      · exact List.forall_mem_append.mpr
          ⟨fun c hc b hb => (iht.2 c hc b hb).imp_right (.imp_right (List.mem_append_left _)),
            fun c hc b hb => (ihts.2 c hc b hb).imp_right (.imp_right (List.mem_append_right _))⟩

end

theorem fst_mem_preorder {around : List α} {t : Rose α} {c : α × List α}
    (hc : c ∈ t.contexts around) : c.1 ∈ t.preorder := by
  rw [← map_fst_contexts around]
  exact List.mem_map_of_mem hc

/-! ## Relabelling -/

variable {β : Type}

mutual

theorem contexts_map (f : α → β) (around : List α) (t : Rose α) :
    (t.map f).contexts (around.map f) =
      (t.contexts around).map fun c => (f c.1, c.2.map f) := by
  cases t with
  | node a cs =>
      rw [map, contexts, contexts, List.map_cons, ← contextsList_map f (a :: around) cs]
      rfl

theorem contextsList_map (f : α → β) (around : List α) (ts : List (Rose α)) :
    contextsList (around.map f) (mapList f ts) =
      (contextsList around ts).map fun c => (f c.1, c.2.map f) := by
  cases ts with
  | nil => rfl
  | cons t ts =>
      rw [mapList, contextsList, contextsList, List.map_append, contexts_map f around t,
        contextsList_map f around ts]

end

mutual

theorem postorder_map (f : α → β) (t : Rose α) : (t.map f).postorder = t.postorder.map f := by
  cases t with
  | node a cs => rw [map, postorder, postorder, List.map_append, postorderList_map f cs]; rfl

theorem postorderList_map (f : α → β) (ts : List (Rose α)) :
    postorderList (mapList f ts) = (postorderList ts).map f := by
  cases ts with
  | nil => rfl
  | cons t ts =>
      rw [mapList, postorderList, postorderList, List.map_append, postorder_map f t,
        postorderList_map f ts]

end

theorem mapList_congr {f g : α → β} {ts : List (Rose α)}
    (h : ∀ a ∈ postorderList ts, f a = g a) : mapList f ts = mapList g ts := by
  induction ts with
  | nil => rfl
  | cons t ts ih =>
      rw [postorderList] at h
      rw [mapList, mapList, ih fun a ha => h a (List.mem_append_right _ ha),
        map_congr fun a ha => h a (List.mem_append_left _ ((postorder_perm t).mem_iff.mpr ha))]

theorem mapList_id {f : α → α} {ts : List (Rose α)} (h : ∀ a ∈ postorderList ts, f a = a) :
    mapList f ts = ts := by
  rw [mapList_congr h]
  induction ts with
  | nil => rfl
  | cons t ts ih =>
      rw [postorderList] at h
      rw [mapList, map_id_of_eq (fun _ => rfl) t, ih fun a ha => h a (List.mem_append_right _ ha)]

mutual

theorem mem_postorder_iff {around : List α} {t : Rose α} {a : α} :
    a ∈ t.postorder ↔ ∃ c ∈ t.contexts around, c.1 = a := by
  cases t with
  | node b cs =>
      rw [postorder, contexts, List.mem_append, @mem_postorderList_iff (b :: around),
        List.mem_singleton]
      simp only [List.mem_cons, or_and_right, exists_or, exists_eq_left]
      rw [or_comm, eq_comm]

/-- The labels in post-order are those that have contexts. -/
theorem mem_postorderList_iff {around : List α} {ts : List (Rose α)} {a : α} :
    a ∈ postorderList ts ↔ ∃ c ∈ contextsList around ts, c.1 = a := by
  cases ts with
  | nil => simp [postorderList, contextsList]
  | cons t ts =>
      rw [postorderList, contextsList, List.mem_append, @mem_postorder_iff around,
        @mem_postorderList_iff around]
      simp only [List.mem_append, or_and_right, exists_or]

end

/-! ## Editing one node after another -/

theorem postorderList_append (ts us : List (Rose α)) :
    postorderList (ts ++ us) = postorderList ts ++ postorderList us := by
  induction ts with
  | nil => rfl
  | cons t ts ih => rw [List.cons_append, postorderList, postorderList, ih, List.append_assoc]

mutual

theorem mem_postorderList_edit {act : α → Edit} {t : Rose α} {first rest : List α} {a : α}
    (h : t.postorder = first ++ a :: rest) (ha : act a = .keep)
    (hrest : ∀ b ∈ rest, act b ≠ .erase) : a ∈ postorderList (t.edit act) := by
  cases t with
  | node b cs =>
      rw [postorder] at h
      have hself : a = b → a ∈ postorderList ((node b cs).edit act) := by
        rintro rfl
        rw [edit, ha]
        simp [postorderList, postorder]
      have hbelow : act b ≠ .erase → a ∈ postorderList (editList act cs) →
          a ∈ postorderList ((node b cs).edit act) := by
        intro hb hmem
        rw [edit]
        cases hact : act b with
        | keep => simp [postorderList, postorder, hmem]
        | unwrap => exact hmem
        | erase => exact absurd hact hb
      rcases List.append_eq_append_iff.mp h with ⟨mid, -, hmid⟩ | ⟨mid, hmid, hlast⟩
      · cases mid with
        | nil => exact hself (List.cons.inj hmid).1.symm
        | cons c mid => simp at hmid
      · cases mid with
        | nil => exact hself (List.cons.inj hlast).1
        | cons c mid =>
            obtain ⟨rfl, rfl⟩ := List.cons.inj hlast
            exact hbelow (hrest b (by simp)) (mem_postorderList_editList hmid ha fun c hc =>
              hrest c (List.mem_append_left _ hc))

/-- A node is still there when none of those after it in post-order are erased, and so none around
it. -/
theorem mem_postorderList_editList {act : α → Edit} {ts : List (Rose α)} {first rest : List α}
    {a : α} (h : postorderList ts = first ++ a :: rest) (ha : act a = .keep)
    (hrest : ∀ b ∈ rest, act b ≠ .erase) : a ∈ postorderList (editList act ts) := by
  cases ts with
  | nil => simp [postorderList] at h
  | cons t ts =>
      rw [postorderList] at h
      rw [editList, postorderList_append, List.mem_append]
      rcases List.append_eq_append_iff.mp h with ⟨mid, rfl, hmid⟩ | ⟨mid, hmid, hrest'⟩
      · exact .inr (mem_postorderList_editList hmid ha hrest)
      · cases mid with
        | nil =>
            rw [List.nil_append] at hrest'
            exact .inr (mem_postorderList_editList
              (show postorderList ts = [] ++ a :: rest from hrest'.symm) ha hrest)
        | cons b mid =>
            obtain ⟨rfl, rfl⟩ := List.cons.inj hrest'
            exact .inl (mem_postorderList_edit hmid ha fun b hb =>
              hrest b (List.mem_append_left _ hb))

end

mutual

theorem postorderList_edit {act : α → Edit} (h : ∀ a, act a ≠ .erase) (t : Rose α) :
    postorderList (t.edit act) = t.postorder.filter fun a => act a = .keep := by
  cases t with
  | node a cs =>
      have hcs := postorderList_editList h cs
      rw [edit, postorder, List.filter_append, ← hcs]
      cases hact : act a with
      | keep => simp [postorderList, postorder, hact]
      | unwrap => simp [hact]
      | erase => exact absurd hact (h a)

/-- Unwrapping leaves the other nodes in their order. -/
theorem postorderList_editList {act : α → Edit} (h : ∀ a, act a ≠ .erase) (ts : List (Rose α)) :
    postorderList (editList act ts) = (postorderList ts).filter fun a => act a = .keep := by
  cases ts with
  | nil => rfl
  | cons t ts =>
      rw [editList, postorderList_append, postorderList_edit h t, postorderList_editList h ts, postorderList,
        List.filter_append]

end

mutual

theorem postorderList_edit_sublist (act : α → Edit) (t : Rose α) :
    (postorderList (t.edit act)).Sublist t.postorder := by
  cases t with
  | node a cs =>
      have hcs := postorderList_editList_sublist act cs
      rw [edit, postorder]
      cases act a with
      | keep => simpa [postorderList, postorder] using hcs.append_right [a]
      | unwrap => exact hcs.trans (List.sublist_append_left _ _)
      | erase => exact List.nil_sublist _

/-- No edit adds a node or moves one past another. -/
theorem postorderList_editList_sublist (act : α → Edit) (ts : List (Rose α)) :
    (postorderList (editList act ts)).Sublist (postorderList ts) := by
  cases ts with
  | nil => exact List.nil_sublist _
  | cons t ts =>
      rw [editList, postorderList_append, postorderList]
      exact (postorderList_edit_sublist act t).append (postorderList_editList_sublist act ts)

end

mutual

theorem edit_congr {act act' : α → Edit} {t : Rose α} (h : ∀ a ∈ t.postorder, act a = act' a) :
    t.edit act = t.edit act' := by
  cases t with
  | node a cs =>
      rw [postorder] at h
      have hcs := editList_congr fun b hb => h b (List.mem_append_left _ hb)
      rw [edit, edit, h a (by simp), hcs]

theorem editList_congr {act act' : α → Edit} {ts : List (Rose α)}
    (h : ∀ a ∈ postorderList ts, act a = act' a) : editList act ts = editList act' ts := by
  cases ts with
  | nil => rfl
  | cons t ts =>
      rw [postorderList] at h
      rw [editList, editList, edit_congr fun a ha => h a (List.mem_append_left _ ha),
        editList_congr fun a ha => h a (List.mem_append_right _ ha)]

end

variable [DecidableEq κ] (key : α → κ)

/-- Edit the node with a key. `none` when there is no such node any more. -/
def editNode (e : Edit) (ts : List (Rose α)) (k : κ) : Option (List (Rose α)) :=
  if ((postorderList ts).map key).contains k then
    some (editList (fun a => if key a = k then e else .keep) ts)
  else none

/-- Nodes that are edited in post-order are all there when their turn comes, and together that is one
edit. -/
theorem foldlM_editNode (e : Edit) {ts : List (Rose α)} {ks : List κ}
    (hnodup : ((postorderList ts).map key).Nodup)
    (hsub : ks.Sublist ((postorderList ts).map key)) :
    ks.foldlM (editNode key e) ts =
      some (editList (fun a => if key a ∈ ks then e else .keep) ts) := by
  -- the keys in `done` have been edited
  suffices haux : ∀ rest done : List κ, (done ++ rest).Sublist ((postorderList ts).map key) →
      rest.foldlM (editNode key e) (editList (fun a => if key a ∈ done then e else .keep) ts) =
        some (editList (fun a => if key a ∈ done ++ rest then e else .keep) ts) by
    have h := haux ks [] hsub
    rwa [editList_keep fun a => if_neg List.not_mem_nil] at h
  intro rest
  induction rest with
  | nil =>
      intro done _
      rw [List.append_nil]
      rfl
  | cons k rest ih =>
      intro done hsub
      obtain ⟨r₁, r₂, hsplit, hdone, hrest⟩ := List.append_sublist_iff.mp hsub
      obtain ⟨s₁, s₂, rfl, hk, -⟩ := List.cons_sublist_iff.mp hrest
      obtain ⟨u, v, rfl⟩ := List.append_of_mem hk
      have hsplit : (postorderList ts).map key = (r₁ ++ u) ++ k :: (v ++ s₂) := by
        rw [hsplit]
        simp
      rw [hsplit] at hnodup
      obtain ⟨first, _, hts, hfirst, hlast⟩ := List.map_eq_append_iff.mp hsplit
      obtain ⟨a, last, rfl, ha, hlast⟩ := List.map_eq_cons_iff.mp hlast
      -- no node that is gone stands after this one
      have hgone : ∀ l ∈ k :: (v ++ s₂), l ∉ done := fun l hl hmem =>
        (List.nodup_append.mp hnodup).2.2 l (List.mem_append_left _ (hdone.subset hmem)) l hl rfl
      have hmem : a ∈ postorderList (editList (fun a => if key a ∈ done then e else .keep) ts) := by
        refine mem_postorderList_editList hts (if_neg (hgone _ (ha ▸ List.mem_cons_self)))
          fun b hb => ?_
        have hb' : key b ∈ v ++ s₂ := hlast ▸ List.mem_map_of_mem hb
        rw [if_neg (hgone _ (List.mem_cons_of_mem _ hb'))]
        exact Edit.noConfusion
      have hedit : editNode key e (editList (fun a => if key a ∈ done then e else .keep) ts) k =
          some (editList (fun a => if key a ∈ done ++ [k] then e else .keep) ts) := by
        rw [editNode, if_pos (by simpa using ⟨a, hmem, ha⟩), editList_editList]
        congr 2
        funext b
        by_cases hb : key b ∈ done
        · rw [if_pos hb, if_pos (List.mem_append_left _ hb)]
          cases e <;> simp [Edit.andThen]
        · rw [if_neg hb]
          simp [Edit.andThen, hb]
      rw [List.foldlM_cons, hedit]
      have h := ih (done ++ [k]) (by simpa using hsub)
      rw [List.append_assoc] at h
      exact h

/-- The same for all nodes with a property, taken in post-order. -/
theorem foldlM_editNode_filter (e : Edit) {ts : List (Rose α)} (p : α → Bool)
    (hnodup : ((postorderList ts).map key).Nodup) :
    (((postorderList ts).filter p).map key).foldlM (editNode key e) ts =
      some (editList (fun a => if p a then e else .keep) ts) := by
  rw [foldlM_editNode key e hnodup (List.filter_sublist.map key)]
  congr 1
  refine editList_congr fun a ha => ?_
  have hiff : key a ∈ ((postorderList ts).filter p).map key ↔ p a = true := by
    rw [List.mem_map]
    constructor
    · rintro ⟨b, hb, hkey⟩
      obtain ⟨hb, hp⟩ := List.mem_filter.mp hb
      rwa [← List.inj_on_of_nodup_map hnodup hb ha hkey]
    · exact fun hp => ⟨a, List.mem_filter.mpr ⟨ha, hp⟩, rfl⟩
  simp only [hiff]

/-- Trees that are kept stay where they are. -/
theorem map_label_editList {act : α → Edit} {ts : List (Rose α)}
    (h : ∀ t ∈ ts, act t.label = .keep) : (editList act ts).map label = ts.map label := by
  induction ts with
  | nil => rfl
  | cons t ts ih =>
      obtain ⟨ht, hts⟩ := List.forall_mem_cons.mp h
      cases t with
      | node a cs =>
          rw [label_node] at ht
          rw [editList, List.map_append, ih hts, edit, ht]
          rfl

end Rose
