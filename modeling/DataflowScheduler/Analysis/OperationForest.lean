import DataflowScheduler.Analysis.OperationTree
import DataflowScheduler.Util.RosePlace

/-!
# Operation trees as ordered forests

Well-formed links are those of a list of trees. Inserting and unlinking on the links is inserting into
and removing from the lists of children, and all other lists of children stay as they are.
-/

namespace DataflowScheduler

namespace OperationTree

variable {tree tree' : OperationTree} {parent n : NodeRef} {before after children : List NodeRef}

/-! ## The last child -/

theorem lastFrom_eq {start last : NodeRef} {front : List NodeRef} {fuel : Nat}
    (h : Linked tree.nextSibling (some start) (front ++ [last])) (hfuel : front.length ≤ fuel) :
    tree.lastFrom fuel start = last := by
  induction front generalizing start fuel with
  | nil =>
    obtain ⟨hstart, hlast⟩ := h
    obtain rfl : start = last := Option.some.inj hstart
    cases fuel with
    | zero => rfl
    | succ fuel =>
      change tree.nextSibling start = none at hlast
      rw [lastFrom, hlast]
  | cons c front ih =>
    obtain ⟨hstart, hrest⟩ := h
    obtain rfl : start = c := Option.some.inj hstart
    obtain ⟨fuel, rfl⟩ : ∃ k, fuel = k + 1 := ⟨fuel - 1, by simp at hfuel; omega⟩
    cases hnext : tree.nextSibling start with
    | none =>
      rw [hnext] at hrest
      exact absurd hrest.head?_eq (by cases front <;> simp)
    | some next =>
      rw [hnext] at hrest
      rw [lastFrom, hnext]
      exact ih hrest (by simpa using hfuel)

theorem Children.getLastChild_eq (h : Children tree parent children) :
    tree.getLastChild parent = children.getLast? := by
  rcases List.eq_nil_or_concat children with hnil | ⟨front, last, hconcat⟩
  · subst hnil
    have hfirst : tree.firstChild parent = none := h.linked
    rw [getLastChild, hfirst]
    rfl
  · rw [List.concat_eq_append] at hconcat
    subst hconcat
    have hlength := h.length_le
    rw [List.length_append] at hlength
    cases hfirst : tree.firstChild parent with
    | none => exact absurd (hfirst.symm.trans h.linked.head?_eq) (by cases front <;> simp)
    | some first =>
      have hlinked := h.linked
      rw [hfirst] at hlinked
      rw [getLastChild, hfirst, Option.map_some, lastFrom_eq hlinked (by omega),
        List.getLast?_concat]

/-! ## Inserting at the end -/

/-- What `insertChildNode` does without a position. -/
theorem Children.insertChildNode_last (h : Children tree parent children) (hnew : n ∉ children)
    (hnext : tree.nextSibling n = none) (hlen : (children ++ [n]).length ≤ tree.nodeCount) :
    ∃ tree', tree.insertChildNode parent n none = some tree' ∧
      Children tree' parent (children ++ [n]) ∧ SameBut parent (children ++ [n]) tree tree' := by
  have hnodup : (children ++ [n]).Nodup := by
    rw [List.nodup_append]
    exact ⟨h.nodup, by simp, fun a ha b hb => by
      rw [List.mem_singleton] at hb
      exact hb ▸ ne_of_mem_of_not_mem ha hnew⟩
  have hparents : ∀ c ∈ children ++ [n],
      Function.update tree.parentNode n (some parent) c = some parent := by
    intro c hc
    by_cases hcn : c = n
    · rw [hcn, Function.update_self]
    · rw [Function.update_of_ne hcn]
      exact h.parentNode_eq c ((List.mem_append.mp hc).resolve_right (by simpa using hcn))
  have hparents' : ∀ m ∉ children ++ [n],
      Function.update tree.parentNode n (some parent) m = tree.parentNode m :=
    fun m hm => Function.update_of_ne (ne_of_mem_of_not_mem (by simp) hm).symm ..
  rcases List.eq_nil_or_concat children with hnil | ⟨front, last, hconcat⟩
  · subst hnil
    have hfirst : tree.firstChild parent = none := h.linked
    refine ⟨(tree.setFirstChild parent (some n)).setParentNode n (some parent),
      by simp [OperationTree.insertChildNode, isLeaf, hfirst], ⟨?_, hnodup, hparents, hlen⟩,
      ⟨hparents', fun m _ => rfl, fun m hm => Function.update_of_ne hm .., rfl⟩⟩
    show Linked tree.nextSibling (Function.update tree.firstChild parent (some n) parent) [n]
    rw [Function.update_self]
    exact ⟨rfl, hnext⟩
  · have hgetLast := h.getLastChild_eq
    rw [List.concat_eq_append] at hconcat
    subst hconcat
    rw [List.getLast?_concat] at hgetLast
    have hleaf : tree.isLeaf parent = false := by
      rw [isLeaf, h.linked.head?_eq]
      cases front <;> rfl
    have hlast : n ≠ last := fun heq => hnew (by simp [heq])
    refine ⟨(tree.setNextSibling last (some n)).setParentNode n (some parent),
      by simp [OperationTree.insertChildNode, hleaf, hgetLast], ⟨?_, hnodup, hparents, hlen⟩,
      ⟨hparents', fun m hm => ?_, fun m _ => rfl, rfl⟩⟩
    · show Linked (Function.update tree.nextSibling last (some n)) (tree.firstChild parent) _
      rw [List.append_assoc, List.singleton_append]
      apply h.linked.relink
      · rw [Function.update_self]
        refine ⟨rfl, ?_⟩
        rw [Function.update_of_ne hlast]
        exact hnext
      · intro b hb
        exact Function.update_of_ne ((List.nodup_append.mp h.nodup).2.2 b hb last (by simp)) ..
    · exact Function.update_of_ne (ne_of_mem_of_not_mem (by simp) hm).symm ..

/-! ## Unlinking a node from above its children -/

/-- The loop goes through the whole chain, and no further. -/
theorem adoptFrom_eq {front : List NodeRef} {last : NodeRef} {start next : Option NodeRef}
    {fuel : Nat} (h : Linked tree.nextSibling start (front ++ [last])) (hfuel : front.length < fuel)
    (hlast : last ∉ front) :
    tree.adoptFrom parent (some last) next fuel start =
      { tree with
        parentNode := fun m => if m ∈ front ++ [last] then some parent else tree.parentNode m
        nextSibling := Function.update tree.nextSibling last next } := by
  obtain ⟨fuel, rfl⟩ : ∃ k, fuel = k + 1 := ⟨fuel - 1, by omega⟩
  induction front generalizing tree start fuel with
  | nil =>
    obtain ⟨rfl, -⟩ := h
    rw [adoptFrom, if_pos rfl, setParentNode, setNextSibling]
    congr 1
    funext m
    simp [Function.update_apply]
  | cons c front ih =>
    obtain ⟨rfl, hrest⟩ := h
    have hne : c ≠ last := fun heq => hlast (heq ▸ List.mem_cons_self)
    rw [adoptFrom, if_neg (by simpa using hne)]
    have hfuel' : front.length < fuel := by simpa using hfuel
    obtain ⟨fuel, rfl⟩ : ∃ k, fuel = k + 1 := ⟨fuel - 1, by omega⟩
    have hrest' : Linked (tree.setParentNode c (some parent)).nextSibling
        ((tree.setParentNode c (some parent)).nextSibling c) (front ++ [last]) := hrest
    rw [ih hrest' (fun hmem => hlast (List.mem_cons_of_mem _ hmem)) fuel hfuel']
    rw [setParentNode]
    congr 1
    funext m
    simp only [Function.update_apply, List.cons_append, List.mem_cons]
    by_cases hm : m ∈ front ++ [last]
    · rw [if_pos hm, if_pos (Or.inr hm)]
    · rw [if_neg hm]
      by_cases hmc : m = c
      · rw [if_pos hmc, if_pos (Or.inl hmc)]
      · rw [if_neg hmc, if_neg (by tauto)]

section SetBehind

variable {prev start : Option NodeRef}

theorem setBehind_nextSibling_of_ne {m : NodeRef} (hm : prev ≠ some m) :
    (tree.setBehind parent prev start).nextSibling m = tree.nextSibling m := by
  cases prev with
  | none => rfl
  | some prev =>
    have hne : m ≠ prev := fun heq => hm (by rw [heq])
    exact Function.update_of_ne hne ..

theorem setBehind_nextSibling_self {m : NodeRef} :
    (tree.setBehind parent (some m) start).nextSibling m = start := Function.update_self ..

theorem setBehind_firstChild_of_ne {m : NodeRef} (hm : m ≠ parent) :
    (tree.setBehind parent prev start).firstChild m = tree.firstChild m := by
  cases prev with
  | none => exact Function.update_of_ne hm ..
  | some prev => rfl

@[simp] theorem setBehind_parentNode :
    (tree.setBehind parent prev start).parentNode = tree.parentNode := by
  cases prev <;> rfl

@[simp] theorem setBehind_nodeCount :
    (tree.setBehind parent prev start).nodeCount = tree.nodeCount := by
  cases prev <;> rfl

/-- The list of the parent starts with its front part and goes on with what is set behind. -/
theorem Linked.setBehind {next : NodeRef → Option NodeRef} {rest : List NodeRef}
    (h : Linked tree.nextSibling (tree.firstChild parent) (before ++ n :: after))
    (heq : ∀ b ∈ before,
      next b = (tree.setBehind parent before.getLast? start).nextSibling b)
    (hrest : Linked next start rest) :
    Linked next ((tree.setBehind parent before.getLast? start).firstChild parent)
      (before ++ rest) := by
  have hnd : before.Nodup := (List.nodup_append.mp h.nodup).1
  refine Linked.splice h ?_ ?_ ?_ hnd hrest
  · intro hnil
    subst hnil
    exact Function.update_self ..
  · intro prev hprev
    refine ⟨by rw [hprev]; rfl, ?_⟩
    rw [heq prev (List.mem_of_getLast? hprev), hprev]
    exact setBehind_nextSibling_self
  · intro b hb hlast
    rw [heq b hb]
    exact setBehind_nextSibling_of_ne hlast

end SetBehind

/-- Children of a node and of its parent are apart. -/
theorem Children.not_mem_of_child (h : Children tree parent (before ++ n :: after))
    (hn : Children tree n children) (hne : n ≠ parent) :
    ∀ c ∈ children, c ∉ before ++ n :: after := by
  intro c hc hmem
  exact hne (Option.some.inj ((hn.parentNode_eq c hc).symm.trans (h.parentNode_eq c hmem)))

/-- The links before those of the node itself are cleared. -/
theorem Children.exists_spliced (h : Children tree parent (before ++ n :: after))
    (hn : Children tree n children) (hne : n ≠ parent) :
    ∃ spliced : OperationTree, tree.unlinkNode n =
        some (((spliced.setFirstChild n none).setNextSibling n none).setParentNode n none) ∧
      Linked (Function.update spliced.nextSibling n none) (spliced.firstChild parent)
        (before ++ (children ++ after)) ∧
      (∀ m, spliced.parentNode m = if m ∈ children then some parent else tree.parentNode m) ∧
      (∀ m ∉ before ++ children, spliced.nextSibling m = tree.nextSibling m) ∧
      (∀ m ≠ parent, spliced.firstChild m = tree.firstChild m) ∧
      spliced.nodeCount = tree.nodeCount := by
  have hparent : tree.parentNode n = some parent := h.parentNode_eq n (by simp)
  have hnew : n ∉ before ++ after := (List.nodup_middle.mp h.nodup |> List.nodup_cons.mp).1
  have hnb : n ∉ before := fun hmem => hnew (List.mem_append_left _ hmem)
  have hna : n ∉ after := fun hmem => hnew (List.mem_append_right _ hmem)
  have hdisjoint := h.not_mem_of_child hn hne
  have hnc : n ∉ children := fun hmem => hdisjoint n hmem (by simp)
  have hafter : Linked tree.nextSibling (tree.nextSibling n) after := h.linked.of_append
  have hlastafter : ∀ m ∈ after, before.getLast? ≠ some m := by
    intro m hm hlast
    exact (List.nodup_append.mp h.nodup).2.2 m (List.mem_of_getLast? hlast) m
      (List.mem_cons_of_mem _ hm) rfl
  have hlastchild : ∀ m ∈ children, before.getLast? ≠ some m := by
    intro m hm hlast
    exact hdisjoint m hm (List.mem_append_left _ (List.mem_of_getLast? hlast))
  rcases List.eq_nil_or_concat children with hnil | ⟨front, last, hconcat⟩
  · subst hnil
    have hfirst : tree.firstChild n = none := hn.linked
    refine ⟨tree.setBehind parent before.getLast? (tree.nextSibling n), ?_, ?_, ?_, ?_, ?_, ?_⟩
    · rw [OperationTree.unlinkNode, hparent, h.getPrevSibling_eq]
      show some _ = some _
      rw [hfirst]
      rfl
    · apply Linked.setBehind h.linked
      · intro b hb
        exact Function.update_of_ne (ne_of_mem_of_not_mem hb hnb) ..
      · apply hafter.congr
        intro b hb
        rw [Function.update_of_ne (ne_of_mem_of_not_mem hb hna),
          setBehind_nextSibling_of_ne (hlastafter b hb)]
    · simp
    · intro m hm
      apply setBehind_nextSibling_of_ne
      intro hlast
      exact hm (List.mem_append_left _ (List.mem_of_getLast? hlast))
    · exact fun m hm => setBehind_firstChild_of_ne hm
    · simp
  · have hgetLast := hn.getLastChild_eq
    rw [List.concat_eq_append] at hconcat
    subst hconcat
    rw [List.getLast?_concat] at hgetLast
    have hlast : last ∉ front := fun hmem =>
      (List.nodup_append.mp hn.nodup).2.2 last hmem last (by simp) rfl
    have hlastb : last ∉ before := fun hmem =>
      hdisjoint last (by simp) (List.mem_append_left _ hmem)
    have hlasta : last ∉ after := fun hmem =>
      hdisjoint last (by simp) (List.mem_append_right _ (List.mem_cons_of_mem _ hmem))
    have hlength := hn.length_le
    rw [List.length_append, List.length_singleton] at hlength
    have hchain : Linked (tree.setBehind parent before.getLast? (tree.firstChild n)).nextSibling
        (tree.firstChild n) (front ++ [last]) :=
      hn.linked.congr fun b hb => setBehind_nextSibling_of_ne (hlastchild b hb)
    have hsome : (tree.firstChild n).isSome = true := by
      rw [hn.linked.head?_eq]
      cases front <;> rfl
    refine ⟨(tree.setBehind parent before.getLast? (tree.firstChild n)).adoptFrom parent (some last)
      (tree.nextSibling n) tree.nodeCount (tree.firstChild n), ?_, ?_⟩
    · rw [OperationTree.unlinkNode, hparent, h.getPrevSibling_eq]
      show some _ = some _
      rw [if_pos hsome, hgetLast]
    rw [adoptFrom_eq hchain (by omega) hlast]
    refine ⟨?_, ?_, ?_, ?_, ?_⟩
    · show Linked (Function.update (Function.update _ last (tree.nextSibling n)) n none)
        ((tree.setBehind parent before.getLast? (tree.firstChild n)).firstChild parent) _
      apply Linked.setBehind h.linked
      · intro b hb
        rw [Function.update_of_ne (ne_of_mem_of_not_mem hb hnb),
          Function.update_of_ne (ne_of_mem_of_not_mem hb hlastb)]
      · rw [List.append_assoc, List.singleton_append]
        apply hn.linked.relink
        · rw [Function.update_of_ne (ne_of_mem_of_not_mem (by simp) hnc),
            Function.update_self]
          apply hafter.congr
          intro b hb
          rw [Function.update_of_ne (ne_of_mem_of_not_mem hb hna),
            Function.update_of_ne (ne_of_mem_of_not_mem hb hlasta),
            setBehind_nextSibling_of_ne (hlastafter b hb)]
        · intro b hb
          have hb' : b ∈ front ++ [last] := List.mem_append_left _ hb
          rw [Function.update_of_ne (ne_of_mem_of_not_mem hb' hnc),
            Function.update_of_ne (ne_of_mem_of_not_mem hb hlast),
            setBehind_nextSibling_of_ne (hlastchild b hb')]
    · intro m
      show (if _ then _ else (tree.setBehind parent before.getLast? _).parentNode m) = _
      rw [setBehind_parentNode]
    · intro m hm
      show Function.update (tree.setBehind parent before.getLast? (tree.firstChild n)).nextSibling
        last (tree.nextSibling n) m = _
      have hmlast : m ≠ last := fun heq => hm (by simp [heq])
      rw [Function.update_of_ne hmlast]
      apply setBehind_nextSibling_of_ne
      intro hlast
      exact hm (List.mem_append_left _ (List.mem_of_getLast? hlast))
    · exact fun m hm => setBehind_firstChild_of_ne hm
    · exact setBehind_nodeCount
/-- What stays when a node is taken out from above its children. -/
structure Spliced (parent n : NodeRef) (before children : List NodeRef)
    (tree tree' : OperationTree) : Prop where
  parentNode_eq : ∀ m ∉ n :: children, tree'.parentNode m = tree.parentNode m
  nextSibling_eq : ∀ m ∉ before ++ n :: children, tree'.nextSibling m = tree.nextSibling m
  firstChild_eq : ∀ m ≠ parent, m ≠ n → tree'.firstChild m = tree.firstChild m
  nodeCount_eq : tree'.nodeCount = tree.nodeCount
  parentNode_self : tree'.parentNode n = none
  nextSibling_self : tree'.nextSibling n = none
  firstChild_self : tree'.firstChild n = none

/-- The children of a node take its place. -/
theorem Children.unlinkNode (h : Children tree parent (before ++ n :: after))
    (hn : Children tree n children) (hne : n ≠ parent)
    (hlen : (before ++ children ++ after).length ≤ tree.nodeCount) :
    ∃ tree', tree.unlinkNode n = some tree' ∧
      Children tree' parent (before ++ (children ++ after)) ∧
      Spliced parent n before children tree tree' := by
  have hnew : n ∉ before ++ after := (List.nodup_middle.mp h.nodup |> List.nodup_cons.mp).1
  have hnc : n ∉ children := fun hmem => h.not_mem_of_child hn hne n hmem (by simp)
  obtain ⟨spliced, hresult, hlist, hparents, hnexts, hfirsts, hcount⟩ :=
    h.exists_spliced hn hne
  refine ⟨_, hresult, ⟨?_, hlist.nodup, ?_, ?_⟩, ⟨?_, ?_, ?_, hcount, ?_, ?_, ?_⟩⟩
  · show Linked _ (Function.update spliced.firstChild n none parent) _
    rw [Function.update_of_ne hne.symm]
    exact hlist
  · intro c hc
    show Function.update spliced.parentNode n none c = _
    have hcn : c ≠ n := by
      rintro rfl
      simp only [List.mem_append] at hc hnew
      tauto
    rw [Function.update_of_ne hcn, hparents]
    split
    · rfl
    · next hcc =>
      apply h.parentNode_eq
      simp only [List.mem_append, List.mem_cons] at hc ⊢
      tauto
  · rw [List.append_assoc] at hlen
    show _ ≤ spliced.nodeCount
    rw [hcount]
    exact hlen
  · intro m hm
    show Function.update spliced.parentNode n none m = _
    rw [Function.update_of_ne (List.ne_of_not_mem_cons hm), hparents,
      if_neg (List.not_mem_of_not_mem_cons hm)]
  · intro m hm
    show Function.update spliced.nextSibling n none m = _
    rw [Function.update_of_ne (ne_of_mem_of_not_mem (by simp) hm).symm]
    apply hnexts
    intro hmem
    apply hm
    simp only [List.mem_append, List.mem_cons] at hmem ⊢
    tauto
  · intro m hm hmn
    show Function.update spliced.firstChild n none m = _
    rw [Function.update_of_ne hmn]
    exact hfirsts m hm
  · exact Function.update_self ..
  · exact Function.update_self ..
  · exact Function.update_self ..

/-! ## Links of a forest -/

/-- The links are those of a list of trees, whose roots stand on their own. -/
structure Represents (tree : OperationTree) (forest : List (Rose NodeRef)) : Prop where
  nodup : (Rose.preorderList forest).Nodup
  linked : ∀ q ∈ Rose.linksList forest, Linked tree.nextSibling (tree.firstChild q.1) q.2
  parentNode_eq : ∀ q ∈ Rose.linksList forest, ∀ c ∈ q.2, tree.parentNode c = some q.1
  root : ∀ a ∈ forest.map Rose.label, tree.parentNode a = none ∧ tree.nextSibling a = none
  length_le : (Rose.preorderList forest).length ≤ tree.nodeCount

namespace Represents

variable {forest forest' : List (Rose NodeRef)} {old new rest : List (NodeRef × List NodeRef)}

/-- Some lists of children change, the others keep their links. -/
theorem of_links (h : Represents tree forest) (hold : (Rose.linksList forest).Perm (old ++ rest))
    (hnew : (Rose.linksList forest').Perm (new ++ rest))
    (hfst : new.map Prod.fst = old.map Prod.fst)
    (hchildren : ∀ q ∈ new, Children tree' q.1 q.2)
    (hfirst : ∀ q ∈ rest, tree'.firstChild q.1 = tree.firstChild q.1)
    (hrest : ∀ q ∈ rest, ∀ c ∈ q.2,
      tree'.nextSibling c = tree.nextSibling c ∧ tree'.parentNode c = tree.parentNode c)
    (hroot : ∀ a ∈ forest'.map Rose.label,
      tree'.parentNode a = none ∧ tree'.nextSibling a = none)
    (hcount : tree'.nodeCount = tree.nodeCount) : Represents tree' forest' := by
  have hlabels : (Rose.preorderList forest').Perm (Rose.preorderList forest) := by
    rw [← Rose.map_fst_linksList, ← Rose.map_fst_linksList]
    refine (hnew.map Prod.fst).trans (List.Perm.trans ?_ (hold.map Prod.fst).symm)
    rw [List.map_append, List.map_append, hfst]
  have hmem : ∀ q ∈ rest, q ∈ Rose.linksList forest :=
    fun q hq => hold.mem_iff.mpr (List.mem_append_right _ hq)
  refine ⟨hlabels.nodup_iff.mpr h.nodup, ?_, ?_, hroot, ?_⟩
  · intro q hq
    rcases List.mem_append.mp (hnew.mem_iff.mp hq) with hq | hq
    · exact (hchildren q hq).linked
    · rw [hfirst q hq]
      exact (h.linked q (hmem q hq)).congr fun c hc => (hrest q hq c hc).1
  · intro q hq c hc
    rcases List.mem_append.mp (hnew.mem_iff.mp hq) with hq | hq
    · exact (hchildren q hq).parentNode_eq c hc
    · rw [(hrest q hq c hc).2]
      exact h.parentNode_eq q (hmem q hq) c hc
  · rw [hcount, hlabels.length_eq]
    exact h.length_le

/-- The labels of the children of a node are those of different nodes below it. -/
theorem children_length_le (ts : List (Rose NodeRef)) :
    (ts.map Rose.label).length ≤ (Rose.preorderList ts).length := by
  induction ts with
  | nil => exact Nat.le_refl _
  | cons t ts ih =>
    cases t with
    | node a cs =>
      rw [Rose.preorderList, Rose.preorder, List.map_cons, List.length_cons, List.length_append,
        List.length_cons]
      omega

variable {f : Rose.Frame NodeRef} {fs : List (Rose.Frame NodeRef)} {cs : List (Rose NodeRef)}

/-- The node of a place has the children there. -/
theorem children_of_place (h : Represents tree forest)
    (hold : (Rose.linksList forest).Perm ((parent, cs.map Rose.label) :: rest))
    (hlength : (cs.map Rose.label).length ≤ tree.nodeCount) :
    Children tree parent (cs.map Rose.label) := by
  have hmem := hold.mem_iff.mpr (List.mem_cons_self (l := rest))
  have hlinked := h.linked _ hmem
  exact ⟨hlinked, hlinked.nodup, h.parentNode_eq _ hmem, hlength⟩

/-- A node is not the parent of a root, or of another node's child. -/
theorem not_mem_children (h : Represents tree forest)
    (hold : (Rose.linksList forest).Perm (old ++ rest)) {q : NodeRef × List NodeRef}
    (hq : q ∈ rest) {c : NodeRef}
    (hc : tree.parentNode c = none ∨ ∃ p ∈ old.map Prod.fst, tree.parentNode c = some p) :
    c ∉ q.2 := by
  intro hmem
  have hparent := h.parentNode_eq q (hold.mem_iff.mpr (List.mem_append_right _ hq)) c hmem
  rcases hc with hc | ⟨p, hp, hc⟩
  · exact absurd (hc.symm.trans hparent) (by simp)
  · obtain rfl := Option.some.inj (hc.symm.trans hparent)
    have hnodup := h.nodup
    rw [← Rose.map_fst_linksList, (hold.map Prod.fst).nodup_iff, List.map_append] at hnodup
    exact (List.nodup_append.mp hnodup).2.2 _ hp _ (List.mem_map_of_mem hq) rfl

theorem fst_ne_of_mem (h : Represents tree forest)
    (hold : (Rose.linksList forest).Perm (old ++ rest)) {q : NodeRef × List NodeRef}
    (hq : q ∈ rest) {p : NodeRef} (hp : p ∈ old.map Prod.fst) : q.1 ≠ p := by
  have hnodup := h.nodup
  rw [← Rose.map_fst_linksList, (hold.map Prod.fst).nodup_iff, List.map_append] at hnodup
  exact ((List.nodup_append.mp hnodup).2.2 p hp q.1 (List.mem_map_of_mem hq)).symm

/-- The links of a list of trees are at least as many as the trees. -/
theorem length_le_links (ts : List (Rose NodeRef)) : ts.length ≤ (Rose.linksList ts).length := by
  have h := children_length_le ts
  rwa [List.length_map, ← Rose.map_fst_linksList, List.length_map] at h

theorem links_length_le (h : Represents tree forest) :
    (Rose.linksList forest).length ≤ tree.nodeCount := by
  have hlength := h.length_le
  rwa [← Rose.map_fst_linksList, List.length_map] at hlength

/-! ## Inserting a tree -/

section Insert

variable {l r : List (Rose NodeRef)} {c : Rose NodeRef} {cs' : List (Rose NodeRef)}

/-- The links while the tree still is one of the roots. -/
theorem links_insert (hplace : l ++ r = Rose.plug (f :: fs) cs) :
    ∃ rest, (Rose.linksList (l ++ c :: r)).Perm
        ([(f.label, cs.map Rose.label)] ++ (Rose.linksList cs ++ (c.links ++ rest))) ∧
      (∀ cs' : List (Rose NodeRef), (Rose.linksList (Rose.plug (f :: fs) cs')).Perm
        ([(f.label, cs'.map Rose.label)] ++ (Rose.linksList cs' ++ rest))) ∧
      ∀ cs', (Rose.plug (f :: fs) cs').map Rose.label = (l ++ r).map Rose.label := by
  obtain ⟨around, roots, haround⟩ := Rose.exists_links_plug f fs
  refine ⟨around, ?_, fun cs' => (haround cs').1, fun cs' => ?_⟩
  · have hperm : (Rose.linksList (l ++ c :: r)).Perm (c.links ++ Rose.linksList (l ++ r)) := by
      rw [Rose.linksList_append, Rose.linksList_append, Rose.linksList]
      rw [← List.append_assoc, ← List.append_assoc]
      exact List.perm_append_comm.append_right _
    apply hperm.trans
    rw [hplace]
    apply ((haround cs).1.append_left _).trans
    apply List.perm_middle.trans
    rw [← List.append_assoc]
    apply List.Perm.cons
    rw [← List.append_assoc]
    exact List.perm_append_comm.append_right _
  · rw [(haround cs').2, hplace, (haround cs).2]

/-- There is room for one more child. -/
theorem insert_length_le (h : Represents tree (l ++ c :: r))
    (hplace : l ++ r = Rose.plug (f :: fs) cs) (hcs : cs'.Perm (c :: cs)) :
    (cs'.map Rose.label).length ≤ tree.nodeCount := by
  obtain ⟨rest, hold, -⟩ := links_insert (c := c) hplace
  have hlength := h.links_length_le
  rw [hold.length_eq, List.length_append, List.length_append, List.length_append] at hlength
  have hlinks := length_le_links cs
  rw [List.length_map, hcs.length_eq, List.length_cons]
  have hc : 1 ≤ c.links.length := by
    cases c with
    | node a ds => simp [Rose.links]
  omega

theorem insert_children (h : Represents tree (l ++ c :: r))
    (hplace : l ++ r = Rose.plug (f :: fs) cs) :
    Children tree f.label (cs.map Rose.label) := by
  obtain ⟨rest, hold, -⟩ := links_insert (c := c) hplace
  apply h.children_of_place hold
  have hlength := h.insert_length_le hplace (List.Perm.refl _)
  rw [List.map_cons, List.length_cons] at hlength
  omega

/-- Roots are different nodes. -/
theorem root_nodup (hnodup : (Rose.preorderList (l ++ c :: r)).Nodup) :
    c.label ∉ (l ++ r).map Rose.label := by
  have hsub : ∀ ts : List (Rose NodeRef),
      (ts.map Rose.label).Sublist (Rose.preorderList ts) := by
    intro ts
    induction ts with
    | nil => exact List.Sublist.slnil
    | cons t ts ih =>
      cases t with
      | node a ds =>
        rw [List.map_cons, Rose.preorderList, Rose.preorder, List.cons_append]
        exact (ih.trans (List.sublist_append_right _ _)).cons_cons _
  have hlabels := hnodup.sublist (hsub (l ++ c :: r))
  rw [List.map_append, List.map_cons] at hlabels
  rw [List.map_append]
  exact (List.nodup_cons.mp (List.nodup_middle.mp hlabels)).1

theorem root_inserted (h : Represents tree (l ++ c :: r)) :
    tree.parentNode c.label = none ∧ tree.nextSibling c.label = none :=
  h.root _ (List.mem_map_of_mem (by simp))

theorem insert_not_mem (h : Represents tree (l ++ c :: r))
    (hplace : l ++ r = Rose.plug (f :: fs) cs) : c.label ∉ cs.map Rose.label := by
  intro hmem
  have hparent := (h.insert_children hplace).parentNode_eq _ hmem
  exact absurd (h.root_inserted.1.symm.trans hparent) (by simp)

/-- A root becomes one of the children of a node. -/
theorem insert (h : Represents tree (l ++ c :: r)) (hplace : l ++ r = Rose.plug (f :: fs) cs)
    (hcs : cs'.Perm (c :: cs)) (hchildren : Children tree' f.label (cs'.map Rose.label))
    (hsame : SameBut f.label (cs'.map Rose.label) tree tree') :
    Represents tree' (Rose.plug (f :: fs) cs') := by
  obtain ⟨rest, hold, hplug, hroots⟩ := links_insert (c := c) hplace
  have hchild := h.insert_children hplace
  have hlinks : (Rose.linksList cs').Perm (Rose.linksList cs ++ c.links) := by
    apply (Rose.linksList_perm hcs).trans
    rw [Rose.linksList]
    exact List.perm_append_comm
  have hnew : (Rose.linksList (Rose.plug (f :: fs) cs')).Perm
      ([(f.label, cs'.map Rose.label)] ++ (Rose.linksList cs ++ (c.links ++ rest))) := by
    refine (hplug cs').trans (List.Perm.append_left _ ?_)
    rw [← List.append_assoc]
    exact hlinks.append_right _
  have hchanged : ∀ a ∈ cs'.map Rose.label, tree.parentNode a = none ∨
      ∃ p ∈ [(f.label, cs.map Rose.label)].map Prod.fst, tree.parentNode a = some p := by
    intro a ha
    rcases List.mem_cons.mp ((hcs.map Rose.label).mem_iff.mp ha) with rfl | ha
    · exact Or.inl h.root_inserted.1
    · exact Or.inr ⟨_, List.mem_singleton_self _, hchild.parentNode_eq a ha⟩
  refine h.of_links hold hnew rfl (by simpa using hchildren) ?_ ?_ ?_ hsame.nodeCount_eq
  · intro q hq
    exact hsame.firstChild_eq _ (h.fst_ne_of_mem hold hq (List.mem_singleton_self _))
  · intro q hq a ha
    have hnot : a ∉ cs'.map Rose.label := fun hmem =>
      h.not_mem_children hold hq (hchanged a hmem) ha
    exact ⟨hsame.nextSibling_eq a hnot, hsame.parentNode_eq a hnot⟩
  · intro a ha
    rw [hroots cs'] at ha
    obtain ⟨hparent, hnext⟩ := h.root a (by
      simp only [List.map_append, List.map_cons, List.mem_append, List.mem_cons] at ha ⊢
      tauto)
    have hnot : a ∉ cs'.map Rose.label := by
      intro hmem
      rcases List.mem_cons.mp ((hcs.map Rose.label).mem_iff.mp hmem) with rfl | hmem
      · exact root_nodup h.nodup ha
      · exact absurd (hparent.symm.trans (hchild.parentNode_eq a hmem)) (by simp)
    rw [hsame.parentNode_eq a hnot, hsame.nextSibling_eq a hnot]
    exact ⟨hparent, hnext⟩

end Insert

/-! ## Taking nodes out -/

theorem unlink_parentNode_self (h : tree.unlink n = some tree') : tree'.parentNode n = none := by
  rw [OperationTree.unlink] at h
  obtain ⟨prev, -, h⟩ := Option.bind_eq_some_iff.mp h
  cases prev with
  | some prev =>
    obtain rfl := Option.some.inj h
    exact Function.update_self ..
  | none =>
    obtain ⟨parent, -, h⟩ := Option.bind_eq_some_iff.mp h
    obtain rfl := Option.some.inj h
    exact Function.update_self ..

section Unlink

variable {left right ds : List (Rose NodeRef)} {c : Rose NodeRef} {a : NodeRef}

theorem place_children (h : Represents tree (Rose.plug (f :: fs) cs)) :
    Children tree f.label (cs.map Rose.label) := by
  obtain ⟨around, roots, haround⟩ := Rose.exists_links_plug f fs
  apply h.children_of_place (haround cs).1
  have hlength := h.links_length_le
  rw [(haround cs).1.length_eq, List.length_cons, List.length_append] at hlength
  have hlinks := length_le_links cs
  rw [List.length_map]
  omega

/-- A child becomes a root, with all that is below it. -/
theorem unlink (h : Represents tree (Rose.plug (f :: fs) (left ++ c :: right))) :
    ∃ tree', tree.unlink c.label = some tree' ∧
      Represents tree' (Rose.plug (f :: fs) (left ++ right) ++ [c]) := by
  obtain ⟨around, roots, haround⟩ := Rose.exists_links_plug f fs
  have hchild := h.place_children
  rw [List.map_append, List.map_cons] at hchild
  obtain ⟨tree', hunlink, hchildren, hnext, hsame⟩ := hchild.unlink
  refine ⟨tree', hunlink, ?_⟩
  have hold : (Rose.linksList (Rose.plug (f :: fs) (left ++ c :: right))).Perm
      ([(f.label, (left ++ c :: right).map Rose.label)] ++
        (Rose.linksList (left ++ c :: right) ++ around)) := (haround (left ++ c :: right)).1
  have hnew : (Rose.linksList (Rose.plug (f :: fs) (left ++ right) ++ [c])).Perm
      ([(f.label, (left ++ right).map Rose.label)] ++
        (Rose.linksList (left ++ c :: right) ++ around)) := by
    have hmoved : (Rose.linksList (left ++ right ++ [c])).Perm
        (Rose.linksList (left ++ c :: right)) := by
      apply Rose.linksList_perm
      exact (List.perm_append_singleton _ _).trans List.perm_middle.symm
    rw [Rose.linksList_append] at hmoved ⊢
    apply ((haround (left ++ right)).1.append_right _).trans
    apply List.Perm.cons
    show (Rose.linksList (left ++ right) ++ around ++ Rose.linksList [c]).Perm
      (Rose.linksList (left ++ c :: right) ++ around)
    rw [List.append_assoc]
    apply (List.perm_append_comm.append_left _).trans
    rw [← List.append_assoc]
    exact hmoved.append_right _
  have hchanged : ∀ b ∈ left.map Rose.label ++ c.label :: right.map Rose.label,
      tree.parentNode b = none ∨ ∃ p ∈ [(f.label, (left ++ c :: right).map Rose.label)].map Prod.fst,
        tree.parentNode b = some p :=
    fun b hb => Or.inr ⟨_, List.mem_singleton_self _, hchild.parentNode_eq b hb⟩
  refine h.of_links hold hnew rfl ?_ ?_ ?_ ?_ hsame.nodeCount_eq
  · rintro q hq
    rw [List.mem_singleton.mp hq, List.map_append]
    exact hchildren
  · intro q hq
    exact hsame.firstChild_eq _ (h.fst_ne_of_mem hold hq (List.mem_singleton_self _))
  · intro q hq b hb
    have hnot : b ∉ left.map Rose.label ++ c.label :: right.map Rose.label := fun hmem =>
      h.not_mem_children hold hq (hchanged b hmem) hb
    exact ⟨hsame.nextSibling_eq b hnot, hsame.parentNode_eq b hnot⟩
  · intro b hb
    rw [List.map_append, (haround (left ++ right)).2, ← (haround (left ++ c :: right)).2] at hb
    rcases List.mem_append.mp hb with hb | hb
    · obtain ⟨hparent, hnext'⟩ := h.root b hb
      have hnot : b ∉ left.map Rose.label ++ c.label :: right.map Rose.label := by
        intro hmem
        exact absurd (hparent.symm.trans (hchild.parentNode_eq b hmem)) (by simp)
      rw [hsame.parentNode_eq b hnot, hsame.nextSibling_eq b hnot]
      exact ⟨hparent, hnext'⟩
    · rw [List.map_singleton, List.mem_singleton] at hb
      rw [hb]
      exact ⟨unlink_parentNode_self hunlink, hnext⟩

/-- The children of a node take its place, and the node is left alone. -/
theorem unlinkNode (h : Represents tree (Rose.plug (f :: fs) (left ++ .node a ds :: right))) :
    ∃ tree', tree.unlinkNode a = some tree' ∧
      Represents tree' (Rose.plug (f :: fs) (left ++ (ds ++ right)) ++ [.node a []]) := by
  obtain ⟨around, roots, haround⟩ := Rose.exists_links_plug f fs
  have hchild := h.place_children
  rw [List.map_append, List.map_cons, Rose.label_node] at hchild
  have hold : (Rose.linksList (Rose.plug (f :: fs) (left ++ .node a ds :: right))).Perm
      ([(f.label, (left ++ .node a ds :: right).map Rose.label), (a, ds.map Rose.label)] ++
        (Rose.linksList (left ++ (ds ++ right)) ++ around)) := by
    apply (haround _).1.trans
    apply List.Perm.cons
    rw [Rose.linksList_append, Rose.linksList_append, Rose.linksList_append, Rose.linksList_node]
    exact List.perm_middle.append_right _
  have hnode : Children tree a (ds.map Rose.label) := by
    apply h.children_of_place (hold.trans (List.Perm.swap _ _ _))
    have hlength := h.links_length_le
    rw [hold.length_eq, List.length_append, List.length_append, Rose.linksList_append,
      List.length_append, Rose.linksList_append, List.length_append] at hlength
    have hlinks := length_le_links ds
    rw [List.length_map]
    omega
  have hne : a ≠ f.label := by
    have hnodup := h.nodup
    rw [← Rose.map_fst_linksList, (hold.map Prod.fst).nodup_iff] at hnodup
    rintro rfl
    simp at hnodup
  have hlength : (left.map Rose.label ++ ds.map Rose.label ++ right.map Rose.label).length ≤
      tree.nodeCount := by
    have hlength := h.links_length_le
    rw [hold.length_eq, List.length_append, List.length_append] at hlength
    have hlinks := length_le_links (left ++ (ds ++ right))
    rw [List.length_append, List.length_append] at hlinks
    rw [List.length_append, List.length_append, List.length_map, List.length_map, List.length_map]
    omega
  obtain ⟨tree', hunlink, hchildren, hsame⟩ := hchild.unlinkNode hnode hne hlength
  refine ⟨tree', hunlink, ?_⟩
  have hnew : (Rose.linksList (Rose.plug (f :: fs) (left ++ (ds ++ right)) ++ [.node a []])).Perm
      ([(f.label, (left ++ (ds ++ right)).map Rose.label), (a, [])] ++
        (Rose.linksList (left ++ (ds ++ right)) ++ around)) := by
    rw [Rose.linksList_append]
    apply ((haround _).1.append_right _).trans
    apply List.Perm.cons
    exact List.perm_append_singleton _ _
  have hparents : ∀ b ∈ left.map Rose.label ++ a :: ds.map Rose.label,
      ∃ p ∈ [(f.label, (left ++ .node a ds :: right).map Rose.label),
        (a, ds.map Rose.label)].map Prod.fst, tree.parentNode b = some p := by
    intro b hb
    have hb' : b ∈ left.map Rose.label ++ a :: right.map Rose.label ∨ b ∈ ds.map Rose.label := by
      simp only [List.mem_append, List.mem_cons] at hb ⊢
      tauto
    rcases hb' with hb | hb
    · exact ⟨f.label, by simp, hchild.parentNode_eq b hb⟩
    · exact ⟨a, by simp, hnode.parentNode_eq b hb⟩
  have hchanged : ∀ b, (∀ p ∈ [(f.label, (left ++ .node a ds :: right).map Rose.label),
        (a, ds.map Rose.label)].map Prod.fst, tree.parentNode b ≠ some p) →
      tree'.nextSibling b = tree.nextSibling b ∧ tree'.parentNode b = tree.parentNode b := by
    intro b hb
    have hnot : b ∉ left.map Rose.label ++ a :: ds.map Rose.label := by
      intro hmem
      obtain ⟨p, hp, hparent⟩ := hparents b hmem
      exact hb p hp hparent
    refine ⟨hsame.nextSibling_eq b hnot, hsame.parentNode_eq b fun hmem => hnot ?_⟩
    exact List.mem_append_right _ hmem
  refine h.of_links hold hnew rfl ?_ ?_ ?_ ?_ hsame.nodeCount_eq
  · intro q hq
    rcases List.mem_cons.mp hq with rfl | hq
    · rw [List.map_append, List.map_append]
      exact hchildren
    · rw [List.mem_singleton.mp hq]
      exact ⟨hsame.firstChild_self, List.nodup_nil, by simp, Nat.zero_le _⟩
  · intro q hq
    exact hsame.firstChild_eq _ (h.fst_ne_of_mem hold hq (by simp))
      (h.fst_ne_of_mem hold hq (by simp))
  · intro q hq b hb
    apply hchanged
    intro p hp hparent
    exact h.not_mem_children hold hq (Or.inr ⟨p, hp, hparent⟩) hb
  · intro b hb
    rw [List.map_append, (haround _).2, ← (haround (left ++ .node a ds :: right)).2] at hb
    rcases List.mem_append.mp hb with hb | hb
    · obtain ⟨hparent, hnext⟩ := h.root b hb
      obtain ⟨hnext', hparent'⟩ := hchanged b fun p _ hp =>
        absurd (hparent.symm.trans hp) (by simp)
      rw [hparent', hnext']
      exact ⟨hparent, hnext⟩
    · rw [List.map_singleton, List.mem_singleton] at hb
      rw [hb]
      exact ⟨hsame.parentNode_self, hsame.nextSibling_self⟩

end Unlink

/-! ## Inserting behind, at the end and in front -/

section InsertAt

variable {l r left right : List (Rose NodeRef)} {c s : Rose NodeRef}

theorem insertChildNode_behind (h : Represents tree (l ++ c :: r))
    (hplace : l ++ r = Rose.plug (f :: fs) (left ++ s :: right)) :
    ∃ tree', tree.insertChildNode f.label c.label (some s.label) = some tree' ∧
      Represents tree' (Rose.plug (f :: fs) (left ++ s :: c :: right)) := by
  have hperm : (left ++ s :: c :: right).Perm (c :: (left ++ s :: right)) := by
    rw [List.append_cons, List.append_cons left s right]
    exact List.perm_middle
  have hchild := h.insert_children hplace
  have hnot := h.insert_not_mem hplace
  have hlength := h.insert_length_le hplace hperm
  rw [List.map_append, List.map_cons] at hchild hnot
  rw [List.map_append, List.map_cons, List.map_cons] at hlength
  obtain ⟨tree', hinsert, hchildren, hsame⟩ := hchild.insertChildNode hnot hlength
  refine ⟨tree', hinsert, h.insert hplace hperm ?_ ?_⟩
  · rw [List.map_append, List.map_cons, List.map_cons]
    exact hchildren
  · rw [List.map_append, List.map_cons, List.map_cons]
    exact hsame

theorem insertChildNode_last (h : Represents tree (l ++ c :: r))
    (hplace : l ++ r = Rose.plug (f :: fs) cs) :
    ∃ tree', tree.insertChildNode f.label c.label none = some tree' ∧
      Represents tree' (Rose.plug (f :: fs) (cs ++ [c])) ∧
      SameBut f.label ((cs ++ [c]).map Rose.label) tree tree' := by
  have hperm : (cs ++ [c]).Perm (c :: cs) := List.perm_append_singleton _ _
  have hlength := h.insert_length_le hplace hperm
  rw [List.map_append, List.map_singleton] at hlength
  obtain ⟨tree', hinsert, hchildren, hsame⟩ := (h.insert_children hplace).insertChildNode_last
    (h.insert_not_mem hplace) h.root_inserted.2 hlength
  refine ⟨tree', hinsert, h.insert hplace hperm ?_ ?_, ?_⟩
  · rw [List.map_append, List.map_singleton]
    exact hchildren
  · rw [List.map_append, List.map_singleton]
    exact hsame
  · rw [List.map_append, List.map_singleton]
    exact hsame

theorem insertAsFirstChild (h : Represents tree (l ++ c :: r))
    (hplace : l ++ r = Rose.plug (f :: fs) cs) :
    Represents (tree.insertAsFirstChild f.label c.label) (Rose.plug (f :: fs) (c :: cs)) := by
  obtain ⟨hchildren, hsame⟩ := (h.insert_children hplace).insertAsFirstChild
    (h.insert_not_mem hplace) h.root_inserted.2 (h.insert_length_le hplace (List.Perm.refl _))
  exact h.insert hplace (List.Perm.refl _) hchildren hsame

end InsertAt

/-! ## The forest of given links -/

theorem eq_of_label_eq {t t' : Rose NodeRef}
    (ht : ∀ q ∈ t.links, Linked tree.nextSibling (tree.firstChild q.1) q.2)
    (ht' : ∀ q ∈ t'.links, Linked tree.nextSibling (tree.firstChild q.1) q.2)
    (hlabel : t.label = t'.label) : t = t' := by
  induction t using Rose.induction generalizing t' with
  | step a ts ih =>
    cases t' with
    | node a' ts' =>
      obtain rfl : a = a' := hlabel
      rw [Rose.links, List.forall_mem_cons] at ht ht'
      have hlabels := Linked.unique ht.1 ht'.1
      congr 1
      -- child by child
      have hrest := ht.2
      have hrest' := ht'.2
      clear ht ht'
      induction ts generalizing ts' with
      | nil => exact (List.map_eq_nil_iff.mp hlabels.symm).symm
      | cons u us ihs =>
        cases ts' with
        | nil => cases hlabels
        | cons u' us' =>
          rw [List.map_cons, List.map_cons] at hlabels
          obtain ⟨hu, hus⟩ := List.cons.inj hlabels
          rw [Rose.linksList, List.forall_mem_append] at hrest hrest'
          rw [ih u List.mem_cons_self hrest.1 hrest'.1 hu,
            ihs (fun v hv => ih v (List.mem_cons_of_mem _ hv)) us' hus hrest.2 hrest'.2]

/-- Links represent one tree below a root. -/
theorem unique {t t' : Rose NodeRef} (h : Represents tree [t]) (h' : Represents tree [t'])
    (hlabel : t.label = t'.label) : t = t' :=
  eq_of_label_eq (fun q hq => h.linked q (by simpa [Rose.linksList] using hq))
    (fun q hq => h'.linked q (by simpa [Rose.linksList] using hq)) hlabel

end Represents

/-- Inserting puts a root among the children of any node of the other trees, behind a position, at the
end or in front. Unlinking makes a child a root, alone or with what is below it. Around the place all
lists of children stay as they are. -/
theorem operations_editForest (tree : OperationTree) (forest : List (Rose NodeRef))
    (h : Represents tree forest) :
    (∀ l r c f fs left s right, forest = l ++ c :: r →
      l ++ r = Rose.plug (f :: fs) (left ++ s :: right) →
      ∃ tree', tree.insertChildNode f.label c.label (some s.label) = some tree' ∧
        Represents tree' (Rose.plug (f :: fs) (left ++ s :: c :: right))) ∧
    (∀ l r c f fs cs, forest = l ++ c :: r → l ++ r = Rose.plug (f :: fs) cs →
      (∃ tree', tree.insertChildNode f.label c.label none = some tree' ∧
        Represents tree' (Rose.plug (f :: fs) (cs ++ [c]))) ∧
      Represents (tree.insertAsFirstChild f.label c.label) (Rose.plug (f :: fs) (c :: cs))) ∧
    (∀ f fs left c right, forest = Rose.plug (f :: fs) (left ++ c :: right) →
      ∃ tree', tree.unlink c.label = some tree' ∧
        Represents tree' (Rose.plug (f :: fs) (left ++ right) ++ [c])) ∧
    (∀ f fs left a cs right, forest = Rose.plug (f :: fs) (left ++ .node a cs :: right) →
      ∃ tree', tree.unlinkNode a = some tree' ∧
        Represents tree' (Rose.plug (f :: fs) (left ++ (cs ++ right)) ++ [.node a []])) ∧
    (∀ c ∈ forest, tree.unlinkNode c.label = some tree) ∧
    ∀ a ∈ Rose.preorderList forest, ∃ f fs cs, f.label = a ∧ forest = Rose.plug (f :: fs) cs := by
  refine ⟨?_, ?_, ?_, ?_, ?_, fun a ha => Rose.exists_plug ha⟩
  · rintro l r c f fs left s right rfl hplace
    exact h.insertChildNode_behind hplace
  · rintro l r c f fs cs rfl hplace
    obtain ⟨tree', hinsert, hrepresents, -⟩ := h.insertChildNode_last hplace
    exact ⟨⟨tree', hinsert, hrepresents⟩, h.insertAsFirstChild hplace⟩
  · rintro f fs left c right rfl
    exact h.unlink
  · rintro f fs left a cs right rfl
    exact h.unlinkNode
  · intro c hc
    have hroot := (h.root _ (List.mem_map_of_mem hc)).1
    rw [OperationTree.unlinkNode, hroot]

/-- The root 0 with the children 1 and 2, and 3 below 1. -/
def smallTree : OperationTree where
  parentNode n := if n = 1 ∨ n = 2 then some 0 else if n = 3 then some 1 else none
  firstChild n := if n = 0 then some 1 else if n = 1 then some 3 else none
  nextSibling n := if n = 1 then some 2 else none
  nodeCount := 4

/-- Taking out 1 leaves 3 in front of 2. -/
theorem smallTree_unlinkNode : ∃ tree', smallTree.unlinkNode 1 = some tree' ∧
    Represents tree' [.node 0 [.node 3 [], .node 2 []], .node 1 []] := by
  have h : Represents smallTree [.node 0 [.node 1 [.node 3 []], .node 2 []]] := by
    refine ⟨by decide, ?_, ?_, ?_, by decide⟩
    · simp [Rose.linksList, Rose.links, Linked, smallTree]
    · simp [Rose.linksList, Rose.links, smallTree]
    · simp [smallTree]
  exact (operations_editForest smallTree _ h).2.2.2.1 ⟨[], 0, []⟩ [] [] 1 [.node 3 []] [.node 2 []] rfl

end OperationTree

end DataflowScheduler
