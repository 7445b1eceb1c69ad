import DataflowScheduler.Util.ControlRegions

/-!
# Where an op stands, and edits of a body

The ops around an op, the block it stands in, and two edits: a new op put in front of an event, and an
op replaced in place. An op put in front of an event is on every path in front of every occurrence of
that event, and leaves the ops around the others as they are.
-/

namespace ControlFlow

open Event

variable {ι α : Type}

/-- A block: that of the whole body, of a loop, or an arm of a conditional. -/
inductive Place (ι : Type) where
  | top
  | inLoop (i : ι)
  | inArm (g : ι) (side : Bool)
  deriving DecidableEq

/-- An op that holds others, with the block it stands in. -/
structure Ancestor (ι : Type) where
  id : ι
  isLoop : Bool
  place : Place ι
  deriving DecidableEq

namespace Body

variable [DecidableEq ι]

/-- The block an op stands in. -/
def place (here : Place ι) (d : ι) : Body ι α → Option (Place ι)
  | .done => none
  | .leaf i _ rest => if i = d then some here else rest.place here d
  | .loop i body rest =>
    if i = d then some here else (body.place (.inLoop i) d).or (rest.place here d)
  | .branch i a b rest => if i = d then some here else
      ((a.place (.inArm i true) d).or (b.place (.inArm i false) d)).or (rest.place here d)

/-- The ops around an op, from the outermost one in. -/
def around (here : Place ι) (d : ι) : Body ι α → List (Ancestor ι)
  | .done => []
  | .leaf _ _ rest => rest.around here d
  | .loop i body rest =>
    (if d ∈ body.ids then ⟨i, true, here⟩ :: body.around (.inLoop i) d else []) ++
      rest.around here d
  | .branch i a b rest =>
    (if d ∈ a.ids then ⟨i, false, here⟩ :: a.around (.inArm i true) d else []) ++
      ((if d ∈ b.ids then ⟨i, false, here⟩ :: b.around (.inArm i false) d else []) ++
        rest.around here d)

/-- The plain ops in the order of the text. -/
def leaves : Body ι α → List ι
  | .done => []
  | .leaf i _ rest => i :: rest.leaves
  | .loop _ body rest => body.leaves ++ rest.leaves
  | .branch _ a b rest => a.leaves ++ (b.leaves ++ rest.leaves)

/-- What a plain op is. -/
def op? (d : ι) : Body ι α → Option α
  | .done => none
  | .leaf i o rest => if i = d then some o else rest.op? d
  | .loop _ body rest => (body.op? d).or (rest.op? d)
  | .branch _ a b rest => ((a.op? d).or (b.op? d)).or (rest.op? d)

/-- Replace a plain op. -/
def setOp (d : ι) (o : α) : Body ι α → Body ι α
  | .done => .done
  | .leaf i o' rest => .leaf i (if i = d then o else o') (rest.setOp d o)
  | .loop i body rest => .loop i (body.setOp d o) (rest.setOp d o)
  | .branch i a b rest => .branch i (a.setOp d o) (b.setOp d o) (rest.setOp d o)

/-- Put an op at the end of a block. -/
def snoc (s : ι) (o : α) : Body ι α → Body ι α
  | .done => .leaf s o .done
  | .leaf i o' rest => .leaf i o' (rest.snoc s o)
  | .loop i body rest => .loop i body (rest.snoc s o)
  | .branch i a b rest => .branch i a b (rest.snoc s o)

/-- Put an op in front of an event: in front of an op, or at the end of an arm. -/
def insertBefore (pos : Event ι) (s : ι) (o : α) : Body ι α → Body ι α
  | .done => .done
  | .leaf i o' rest =>
    let put := fun c => if pos = enter i then .leaf s o c else c
    put (.leaf i o' (rest.insertBefore pos s o))
  | .loop i body rest =>
    let put := fun c => if pos = enter i then .leaf s o c else c
    put (.loop i (body.insertBefore pos s o) (rest.insertBefore pos s o))
  | .branch i a b rest =>
    let put := fun c => if pos = enter i then .leaf s o c else c
    let close := fun side c => if pos = leave i side then c.snoc s o else c
    put (.branch i (close true (a.insertBefore pos s o)) (close false (b.insertBefore pos s o))
      (rest.insertBefore pos s o))

/-! ### The ops around an op -/

variable {here : Place ι} {d : ι} {b : Body ι α}

theorem around_eq_nil (hd : d ∉ b.ids) : b.around here d = [] := by
  induction b generalizing here with
  | done => rfl
  | leaf i o rest ih =>
    rw [ids, List.mem_cons, not_or] at hd
    exact ih hd.2
  | loop i body rest _ ih =>
    simp only [ids, List.mem_cons, List.mem_append, not_or] at hd
    rw [around, if_neg hd.2.1, ih hd.2.2, List.append_nil]
  | branch i a b rest _ _ ih =>
    simp only [ids, List.mem_cons, List.mem_append, not_or] at hd
    rw [around, if_neg hd.2.1, if_neg hd.2.2.1, ih hd.2.2.2, List.append_nil, List.append_nil]

theorem around_subset {k : Ancestor ι} (hk : k ∈ b.around here d) : k.id ∈ b.ids := by
  induction b generalizing here with
  | done => exact absurd hk List.not_mem_nil
  | leaf i o rest ih => exact List.mem_cons_of_mem i (ih hk)
  | loop i body rest ihb ih =>
    rw [around, List.mem_append] at hk
    rcases hk with hk | hk
    · split at hk
      · rcases List.mem_cons.mp hk with rfl | hk
        · exact List.mem_cons_self
        · exact List.mem_cons_of_mem i (List.mem_append_left _ (ihb hk))
      · exact absurd hk List.not_mem_nil
    · exact List.mem_cons_of_mem i (List.mem_append_right _ (ih hk))
  | branch i a b rest iha ihb ih =>
    rw [around, List.mem_append, List.mem_append] at hk
    simp only [ids, List.mem_cons, List.mem_append]
    rcases hk with hk | hk | hk
    · split at hk
      · rcases List.mem_cons.mp hk with rfl | hk
        · exact .inl rfl
        · exact .inr (.inl (iha hk))
      · exact absurd hk List.not_mem_nil
    · split at hk
      · rcases List.mem_cons.mp hk with rfl | hk
        · exact .inl rfl
        · exact .inr (.inr (.inl (ihb hk)))
      · exact absurd hk List.not_mem_nil
    · exact .inr (.inr (.inr (ih hk)))

theorem mem_under_loop {body rest : Body ι α} {i x j : ι} (hx : x ≠ i) :
    j ∈ (loop i body rest).under (.op x) ↔ j ∈ body.under (.op x) ∨ j ∈ rest.under (.op x) := by
  rw [under, if_neg fun h => hx (Region.op.inj h), List.mem_append]

theorem mem_under_branch {a b rest : Body ι α} {i x j : ι} (hx : x ≠ i) :
    j ∈ (branch i a b rest).under (.op x) ↔
      j ∈ a.under (.op x) ∨ j ∈ b.under (.op x) ∨ j ∈ rest.under (.op x) := by
  simp [under, hx]

theorem mem_under_leaf {rest : Body ι α} {o : α} {i x j : ι} (hj : j ∈ rest.under (.op x)) :
    j ∈ (leaf i o rest).under (.op x) :=
  List.mem_append_right _ hj

/-- An op stands in each op around it. -/
theorem mem_under_of_mem_around (hnd : b.ids.Nodup) {k : Ancestor ι} (hk : k ∈ b.around here d) :
    d ∈ b.under (.op k.id) ∧ k.id ≠ d := by
  induction b generalizing here with
  | done => exact absurd hk List.not_mem_nil
  | leaf i o rest ih => exact (ih (List.nodup_cons.mp hnd).2 hk).imp_left mem_under_leaf
  | loop i body rest ihb ih =>
    simp only [ids, List.nodup_cons, List.mem_append, not_or, List.nodup_append] at hnd
    obtain ⟨hi, hndb, hndr, -⟩ := hnd
    rw [around, List.mem_append] at hk
    rcases hk with hk | hk
    · split at hk
      · next hd =>
        rcases List.mem_cons.mp hk with rfl | hk
        · exact ⟨by simp [under, hd], fun h : i = d => hi.1 (h ▸ hd)⟩
        · have hne : k.id ≠ i := fun h => hi.1 (h ▸ around_subset hk)
          exact (ihb hndb hk).imp_left fun h => (mem_under_loop hne).mpr (.inl h)
      · exact absurd hk List.not_mem_nil
    · have hne : k.id ≠ i := fun h => hi.2 (h ▸ around_subset hk)
      exact (ih hndr hk).imp_left fun h => (mem_under_loop hne).mpr (.inr h)
  | branch i a b rest iha ihb ih =>
    simp only [ids, List.nodup_cons, List.mem_append, not_or, List.nodup_append] at hnd
    obtain ⟨hi, hnda, ⟨hndb, hndr, -⟩, -⟩ := hnd
    rw [around, List.mem_append, List.mem_append] at hk
    rcases hk with hk | hk | hk
    · split at hk
      · next hd =>
        rcases List.mem_cons.mp hk with rfl | hk
        · exact ⟨by simp [under, hd], fun h : i = d => hi.1 (h ▸ hd)⟩
        · have hne : k.id ≠ i := fun h => hi.1 (h ▸ around_subset hk)
          exact (iha hnda hk).imp_left fun h => (mem_under_branch hne).mpr (.inl h)
      · exact absurd hk List.not_mem_nil
    · split at hk
      · next hd =>
        rcases List.mem_cons.mp hk with rfl | hk
        · exact ⟨by simp [under, hd], fun h : i = d => hi.2.1 (h ▸ hd)⟩
        · have hne : k.id ≠ i := fun h => hi.2.1 (h ▸ around_subset hk)
          exact (ihb hndb hk).imp_left fun h => (mem_under_branch hne).mpr (.inr (.inl h))
      · exact absurd hk List.not_mem_nil
    · have hne : k.id ≠ i := fun h => hi.2.2 (h ▸ around_subset hk)
      exact (ih hndr hk).imp_left fun h => (mem_under_branch hne).mpr (.inr (.inr h))

theorem mem_loops_of_mem_around {k : Ancestor ι} (hk : k ∈ b.around here d)
    (hloop : k.isLoop = true) : k.id ∈ b.loops := by
  induction b generalizing here with
  | done => exact absurd hk List.not_mem_nil
  | leaf i o rest ih => exact ih hk
  | loop i body rest ihb ih =>
    rw [around, List.mem_append] at hk
    rcases hk with hk | hk
    · split at hk
      · rcases List.mem_cons.mp hk with rfl | hk
        · exact List.mem_cons_self
        · exact List.mem_cons_of_mem i (List.mem_append_left _ (ihb hk))
      · exact absurd hk List.not_mem_nil
    · exact List.mem_cons_of_mem i (List.mem_append_right _ (ih hk))
  | branch i a b rest iha ihb ih =>
    rw [around, List.mem_append, List.mem_append] at hk
    rcases hk with hk | hk | hk
    · split at hk
      · rcases List.mem_cons.mp hk with rfl | hk
        · exact absurd hloop Bool.false_ne_true
        · exact List.mem_append_left _ (iha hk)
      · exact absurd hk List.not_mem_nil
    · split at hk
      · rcases List.mem_cons.mp hk with rfl | hk
        · exact absurd hloop Bool.false_ne_true
        · exact List.mem_append_right _ (List.mem_append_left _ (ihb hk))
      · exact absurd hk List.not_mem_nil
    · exact List.mem_append_right _ (List.mem_append_right _ (ih hk))

/-- The ops around an op stand in each other. -/
theorem pairwise_around (hnd : b.ids.Nodup) :
    (b.around here d).Pairwise fun k k' => k'.id ∈ b.under (.op k.id) := by
  induction b generalizing here with
  | done => exact List.Pairwise.nil
  | leaf i o rest ih => exact (ih (List.nodup_cons.mp hnd).2).imp mem_under_leaf
  | loop i body rest ihb ih =>
    simp only [ids, List.nodup_cons, List.mem_append, not_or, List.nodup_append] at hnd
    obtain ⟨hi, hndb, hndr, hdisj⟩ := hnd
    rw [around]
    split
    · next hd =>
      rw [around_eq_nil fun h => hdisj _ hd _ h rfl, List.append_nil, List.pairwise_cons]
      constructor
      · intro k hk
        simp [under, around_subset hk]
      · refine (ihb hndb).imp_of_mem fun {k _} hk _ h => ?_
        exact (mem_under_loop fun h : k.id = i => hi.1 (h ▸ around_subset hk)).mpr (.inl h)
    · rw [List.nil_append]
      refine (ih hndr).imp_of_mem fun {k _} hk _ h => ?_
      exact (mem_under_loop fun h : k.id = i => hi.2 (h ▸ around_subset hk)).mpr (.inr h)
  | branch i a b rest iha ihb ih =>
    simp only [ids, List.nodup_cons, List.mem_append, not_or, List.nodup_append] at hnd
    obtain ⟨hi, hnda, ⟨hndb, hndr, hbr⟩, habr⟩ := hnd
    rw [around]
    by_cases hda : d ∈ a.ids
    · rw [if_pos hda, if_neg fun h => habr _ hda _ (.inl h) rfl,
        around_eq_nil (b := rest) fun h => habr _ hda _ (.inr h) rfl, List.append_nil,
        List.append_nil, List.pairwise_cons]
      constructor
      · intro k hk
        simp [under, around_subset hk]
      · refine (iha hnda).imp_of_mem fun {k _} hk _ h => ?_
        exact (mem_under_branch fun h : k.id = i => hi.1 (h ▸ around_subset hk)).mpr (.inl h)
    rw [if_neg hda, List.nil_append]
    by_cases hdb : d ∈ b.ids
    · rw [if_pos hdb, around_eq_nil (b := rest) fun h => hbr _ hdb _ h rfl, List.append_nil,
        List.pairwise_cons]
      constructor
      · intro k hk
        simp [under, around_subset hk]
      · refine (ihb hndb).imp_of_mem fun {k _} hk _ h => ?_
        exact (mem_under_branch fun h : k.id = i => hi.2.1 (h ▸ around_subset hk)).mpr (.inr (.inl h))
    · rw [if_neg hdb, List.nil_append]
      refine (ih hndr).imp_of_mem fun {k _} hk _ h => ?_
      exact (mem_under_branch fun h : k.id = i => hi.2.2 (h ▸ around_subset hk)).mpr (.inr (.inr h))

/-- An op in an arm of a conditional has the conditional around it. -/
theorem exists_around_of_mem_arm (here : Place ι) {g : ι} {side : Bool} (hd : d ∈ b.under (.arm g side)) :
    ∃ k ∈ b.around here d, k.id = g := by
  induction b generalizing here with
  | done => exact absurd hd List.not_mem_nil
  | leaf i o rest ih =>
    rw [under, if_neg (by simp)] at hd
    exact ih here hd
  | loop i body rest ihb ih =>
    rw [under, if_neg (by simp), List.mem_append] at hd
    rw [around]
    rcases hd with hd | hd
    · obtain ⟨k, hk, hg⟩ := ihb (.inLoop i) hd
      refine ⟨k, List.mem_append_left _ ?_, hg⟩
      rw [if_pos (under_subset _ body hd)]
      exact List.mem_cons_of_mem _ hk
    · obtain ⟨k, hk, hg⟩ := ih here hd
      exact ⟨k, List.mem_append_right _ hk, hg⟩
  | branch i a b rest iha ihb ih =>
    rw [under, if_neg (by simp), List.mem_append, List.mem_append] at hd
    rw [around]
    rcases hd with (hd | hd) | hd
    · split at hd
      · next hg =>
        refine ⟨⟨i, false, here⟩, ?_, (Region.arm.inj hg).1.symm⟩
        rw [if_pos hd]
        exact List.mem_append_left _ List.mem_cons_self
      · obtain ⟨k, hk, hg⟩ := iha (.inArm i true) hd
        refine ⟨k, List.mem_append_left _ ?_, hg⟩
        rw [if_pos (under_subset _ a hd)]
        exact List.mem_cons_of_mem _ hk
    · split at hd
      · next hg =>
        refine ⟨⟨i, false, here⟩, ?_, (Region.arm.inj hg).1.symm⟩
        rw [if_pos hd]
        exact List.mem_append_right _ (List.mem_append_left _ List.mem_cons_self)
      · obtain ⟨k, hk, hg⟩ := ihb (.inArm i false) hd
        refine ⟨k, List.mem_append_right _ (List.mem_append_left _ ?_), hg⟩
        rw [if_pos (under_subset _ b hd)]
        exact List.mem_cons_of_mem _ hk
    · obtain ⟨k, hk, hg⟩ := ih here hd
      exact ⟨k, List.mem_append_right _ (List.mem_append_right _ hk), hg⟩

/-! ### Plain ops -/

omit [DecidableEq ι] in
theorem leaves_subset (b : Body ι α) : b.leaves ⊆ b.ids := by
  induction b with
  | done => exact List.Subset.refl _
  | leaf i o rest ih => exact List.cons_subset_cons i ih
  | loop i body rest ihb ih =>
    intro j hj
    simp only [leaves, ids, List.mem_cons, List.mem_append] at hj ⊢
    exact .inr (hj.imp (fun h => ihb h) (fun h => ih h))
  | branch i a b rest iha ihb ih =>
    intro j hj
    simp only [leaves, ids, List.mem_cons, List.mem_append] at hj ⊢
    exact .inr (hj.imp (fun h => iha h) (Or.imp (fun h => ihb h) (fun h => ih h)))

omit [DecidableEq ι] in
theorem nodup_leaves (hnd : b.ids.Nodup) : b.leaves.Nodup := by
  have hsub : b.leaves.Sublist b.ids := by
    clear hnd
    induction b with
    | done => exact List.Sublist.refl _
    | leaf i o rest ih => exact ih.cons_cons i
    | loop i body rest ihb ih => exact (ihb.append ih).cons i
    | branch i a b rest iha ihb ih => exact (iha.append (ihb.append ih)).cons i
  exact hsub.nodup hnd

theorem mem_leaves_of_op? {o : α} (h : b.op? d = some o) : d ∈ b.leaves := by
  induction b with
  | done => exact absurd h (by simp [op?])
  | leaf i o' rest ih =>
    rw [op?] at h
    split at h
    · next hi => exact hi ▸ List.mem_cons_self
    · exact List.mem_cons_of_mem i (ih h)
  | loop i body rest ihb ih =>
    rcases Option.or_eq_some_iff.mp h with h | ⟨-, h⟩
    · exact List.mem_append_left _ (ihb h)
    · exact List.mem_append_right _ (ih h)
  | branch i a b rest iha ihb ih =>
    rcases Option.or_eq_some_iff.mp h with h | ⟨-, h⟩
    · rcases Option.or_eq_some_iff.mp h with h | ⟨-, h⟩
      · exact List.mem_append_left _ (iha h)
      · exact List.mem_append_right _ (List.mem_append_left _ (ihb h))
    · exact List.mem_append_right _ (List.mem_append_right _ (ih h))

/-- There is nothing inside a plain op. -/
theorem under_of_mem_leaves (hnd : b.ids.Nodup) (hd : d ∈ b.leaves) : b.under (.op d) = [d] := by
  induction b with
  | done => exact absurd hd List.not_mem_nil
  | leaf i o rest ih =>
    rw [ids, List.nodup_cons] at hnd
    rw [under]
    rcases List.mem_cons.mp hd with rfl | hd
    · rw [if_pos rfl, under_eq_nil hnd.1, List.append_nil]
    · have hne : d ≠ i := fun h => hnd.1 (h ▸ leaves_subset rest hd)
      rw [if_neg fun h => hne (Region.op.inj h), List.nil_append, ih hnd.2 hd]
  | loop i body rest ihb ih =>
    simp only [ids, List.nodup_cons, List.mem_append, not_or, List.nodup_append] at hnd
    obtain ⟨hi, hndb, hndr, hdisj⟩ := hnd
    rw [under]
    rcases List.mem_append.mp hd with hd | hd
    · have hd' := leaves_subset body hd
      rw [if_neg fun h : Region.op d = .op i => hi.1 (Region.op.inj h ▸ hd'), ihb hndb hd,
        under_eq_nil fun h => hdisj _ hd' _ h rfl, List.append_nil]
    · have hd' := leaves_subset rest hd
      rw [if_neg fun h : Region.op d = .op i => hi.2 (Region.op.inj h ▸ hd'), ih hndr hd,
        under_eq_nil fun h => hdisj _ h _ hd' rfl, List.nil_append]
  | branch i a b rest iha ihb ih =>
    simp only [ids, List.nodup_cons, List.mem_append, not_or, List.nodup_append] at hnd
    obtain ⟨hi, hnda, ⟨hndb, hndr, hbr⟩, habr⟩ := hnd
    simp only [under, reduceCtorEq, ↓reduceIte]
    simp only [leaves, List.mem_append] at hd
    rcases hd with hd | hd | hd
    · have hd' := leaves_subset a hd
      rw [if_neg fun h : Region.op d = .op i => hi.1 (Region.op.inj h ▸ hd'), iha hnda hd,
        under_eq_nil (b := b) fun h => habr _ hd' _ (.inl h) rfl,
        under_eq_nil fun h => habr _ hd' _ (.inr h) rfl, List.append_nil, List.append_nil]
    · have hd' := leaves_subset b hd
      rw [if_neg fun h : Region.op d = .op i => hi.2.1 (Region.op.inj h ▸ hd'), ihb hndb hd,
        under_eq_nil (b := a) fun h => habr _ h _ (.inl hd') rfl,
        under_eq_nil fun h => hbr _ hd' _ h rfl, List.append_nil, List.nil_append]
    · have hd' := leaves_subset rest hd
      rw [if_neg fun h : Region.op d = .op i => hi.2.2 (Region.op.inj h ▸ hd'), ih hndr hd,
        under_eq_nil (b := a) fun h => habr _ h _ (.inr hd') rfl,
        under_eq_nil (b := b) fun h => hbr _ h _ hd' rfl, List.append_nil, List.nil_append]

omit [DecidableEq ι] in
theorem notMem_leaves_of_mem_loops (hnd : b.ids.Nodup) (hd : d ∈ b.loops) : d ∉ b.leaves := by
  induction b with
  | done => exact List.not_mem_nil
  | leaf i o rest ih =>
    rw [ids, List.nodup_cons] at hnd
    intro h
    rcases List.mem_cons.mp h with rfl | h
    · exact hnd.1 (loops_subset rest hd)
    · exact ih hnd.2 hd h
  | loop i body rest ihb ih =>
    simp only [ids, List.nodup_cons, List.mem_append, not_or, List.nodup_append] at hnd
    obtain ⟨hi, hndb, hndr, hdisj⟩ := hnd
    simp only [loops, leaves, List.mem_cons, List.mem_append] at hd ⊢
    rintro (h | h)
    · rcases hd with rfl | hd | hd
      · exact hi.1 (leaves_subset body h)
      · exact ihb hndb hd h
      · exact hdisj _ (leaves_subset body h) _ (loops_subset rest hd) rfl
    · rcases hd with rfl | hd | hd
      · exact hi.2 (leaves_subset rest h)
      · exact hdisj _ (loops_subset body hd) _ (leaves_subset rest h) rfl
      · exact ih hndr hd h
  | branch i a b rest iha ihb ih =>
    simp only [ids, List.nodup_cons, List.mem_append, not_or, List.nodup_append] at hnd
    obtain ⟨hi, hnda, ⟨hndb, hndr, hbr⟩, habr⟩ := hnd
    simp only [loops, leaves, List.mem_append] at hd ⊢
    rintro (h | h | h)
    · have h' := leaves_subset a h
      rcases hd with hd | hd | hd
      · exact iha hnda hd h
      · exact habr _ h' _ (.inl (loops_subset b hd)) rfl
      · exact habr _ h' _ (.inr (loops_subset rest hd)) rfl
    · have h' := leaves_subset b h
      rcases hd with hd | hd | hd
      · exact habr _ (loops_subset a hd) _ (.inl h') rfl
      · exact ihb hndb hd h
      · exact hbr _ h' _ (loops_subset rest hd) rfl
    · have h' := leaves_subset rest h
      rcases hd with hd | hd | hd
      · exact habr _ (loops_subset a hd) _ (.inr h') rfl
      · exact hbr _ (loops_subset b hd) _ h' rfl
      · exact ih hndr hd h

/-! ### What stands in a block is entered before the end of the block -/

/-- The blocks within a body are those of its ops. -/
theorem place_eq_or {pl : Place ι} (h : b.place here d = some pl) :
    pl = here ∨ ∃ i ∈ b.ids, pl = .inLoop i ∨ ∃ side, pl = .inArm i side := by
  induction b generalizing here with
  | done => exact absurd h (by simp [place])
  | leaf i o rest ih =>
    rw [place] at h
    split at h
    · exact .inl (Option.some.inj h).symm
    · refine (ih h).imp_right fun ⟨j, hj, hpl⟩ => ⟨j, List.mem_cons_of_mem i hj, hpl⟩
  | loop i body rest ihb ih =>
    rw [place] at h
    split at h
    · exact .inl (Option.some.inj h).symm
    · rcases Option.or_eq_some_iff.mp h with h | ⟨-, h⟩
      · rcases ihb h with rfl | ⟨j, hj, hpl⟩
        · exact .inr ⟨i, List.mem_cons_self, .inl rfl⟩
        · exact .inr ⟨j, by simp [ids, hj], hpl⟩
      · refine (ih h).imp_right fun ⟨j, hj, hpl⟩ => ⟨j, by simp [ids, hj], hpl⟩
  | branch i a b rest iha ihb ih =>
    rw [place] at h
    split at h
    · exact .inl (Option.some.inj h).symm
    · rcases Option.or_eq_some_iff.mp h with h | ⟨-, h⟩
      · rcases Option.or_eq_some_iff.mp h with h | ⟨-, h⟩
        · rcases iha h with rfl | ⟨j, hj, hpl⟩
          · exact .inr ⟨i, List.mem_cons_self, .inr ⟨true, rfl⟩⟩
          · exact .inr ⟨j, by simp [ids, hj], hpl⟩
        · rcases ihb h with rfl | ⟨j, hj, hpl⟩
          · exact .inr ⟨i, List.mem_cons_self, .inr ⟨false, rfl⟩⟩
          · exact .inr ⟨j, by simp [ids, hj], hpl⟩
      · refine (ih h).imp_right fun ⟨j, hj, hpl⟩ => ⟨j, by simp [ids, hj], hpl⟩

theorem enter_mem_of_place {t : List (Event ι)} (h : b.place here d = some here)
    (hhere : ∀ i ∈ b.ids, here ≠ .inLoop i ∧ ∀ side, here ≠ .inArm i side) (ht : b.Path t) :
    enter d ∈ t := by
  induction b generalizing t with
  | done => exact absurd h (by simp [place])
  | leaf i o rest ih =>
    obtain ⟨u, hu, rfl⟩ := ht
    rw [place] at h
    split at h
    · next hi => exact hi ▸ List.mem_cons_self
    · exact List.mem_cons_of_mem _ (ih h (fun j hj => hhere j (List.mem_cons_of_mem i hj)) hu)
  | loop i body rest _ ih =>
    obtain ⟨its, u, hits, hu, rfl⟩ := ht
    rw [place] at h
    split at h
    · next hi => exact hi ▸ List.mem_cons_self
    · rcases Option.or_eq_some_iff.mp h with h | ⟨-, h⟩
      · exfalso
        rcases place_eq_or h with hpl | ⟨j, hj, hpl | ⟨side, hpl⟩⟩
        · exact (hhere i List.mem_cons_self).1 hpl
        · exact (hhere j (by simp [ids, hj])).1 hpl
        · exact (hhere j (by simp [ids, hj])).2 side hpl
      · have hmem := ih h (fun j hj => hhere j (by simp [ids, hj])) hu
        simp [hmem]
  | branch i a b rest _ _ ih =>
    obtain ⟨arm, w, u, hw, hu, rfl⟩ := ht
    rw [place] at h
    split at h
    · next hi => exact hi ▸ List.mem_cons_self
    · rcases Option.or_eq_some_iff.mp h with h | ⟨-, h⟩
      · exfalso
        rcases Option.or_eq_some_iff.mp h with h | ⟨-, h⟩
        · rcases place_eq_or h with hpl | ⟨j, hj, hpl | ⟨side, hpl⟩⟩
          · exact (hhere i List.mem_cons_self).2 true hpl
          · exact (hhere j (by simp [ids, hj])).1 hpl
          · exact (hhere j (by simp [ids, hj])).2 side hpl
        · rcases place_eq_or h with hpl | ⟨j, hj, hpl | ⟨side, hpl⟩⟩
          · exact (hhere i List.mem_cons_self).2 false hpl
          · exact (hhere j (by simp [ids, hj])).1 hpl
          · exact (hhere j (by simp [ids, hj])).2 side hpl
      · have hmem := ih h (fun j hj => hhere j (by simp [ids, hj])) hu
        simp [hmem]

/-- What stands in an arm is entered before the arm is left. -/
theorem preceded_leave_of_place {P : ι → Bool} {g : ι} {side : Bool} {t : List (Event ι)}
    (hnd : b.ids.Nodup) (h : b.place here d = some (.inArm g side)) (hhere : here ≠ .inArm g side)
    (hd : P d = true) (ht : b.Path t) : Preceded P (leave g side) t := by
  -- the arm is left nowhere else
  have hout : ∀ {c : Body ι α} {u : List (Event ι)}, c.Path u → g ∉ c.ids →
      Preceded P (leave g side) u :=
    fun hu hg => Preceded.of_notMem fun hmem => hg (hu.id_mem _ hmem)
  have hin : ∀ {c : Body ι α} {pl : Place ι}, c.place pl d = some (.inArm g side) →
      pl ≠ .inArm g side → g ∈ c.ids := by
    intro c pl hpl hne
    rcases place_eq_or hpl with heq | ⟨j, hj, heq | ⟨side', heq⟩⟩
    · exact absurd heq.symm hne
    · exact absurd heq (by simp)
    · exact (Place.inArm.inj heq).1 ▸ hj
  induction b generalizing here t with
  | done => exact absurd h (by simp [place])
  | leaf i o rest ih =>
    obtain ⟨u, hu, rfl⟩ := ht
    rw [place] at h
    split at h
    · exact absurd (Option.some.inj h) hhere
    · exact Preceded.cons (by simp) (ih (List.nodup_cons.mp hnd).2 h hhere hu)
  | loop i body rest ihb ih =>
    obtain ⟨its, u, hits, hu, rfl⟩ := ht
    simp only [ids, List.nodup_cons, List.mem_append, not_or, List.nodup_append] at hnd
    obtain ⟨hi, hndb, hndr, hdisj⟩ := hnd
    have hself : enter i ≠ leave g side := (by simp)
    apply Preceded.cons hself
    rw [place] at h
    split at h
    · exact absurd (Option.some.inj h) hhere
    rcases Option.or_eq_some_iff.mp h with h | ⟨-, h⟩
    · apply (Preceded.flatten fun it hit => ihb hndb h (by simp) (hits it hit)).append
      exact hout hu fun hmem => hdisj _ (hin h (by simp)) _ hmem rfl
    · apply Preceded.append _ (ih hndr h hhere hu)
      refine Preceded.flatten fun it hit => hout (hits it hit) fun hmem => ?_
      exact hdisj _ hmem _ (hin h hhere) rfl
  | branch i a b rest iha ihb ih =>
    obtain ⟨arm, w, u, hw, hu, rfl⟩ := ht
    simp only [ids, List.nodup_cons, List.mem_append, not_or, List.nodup_append] at hnd
    obtain ⟨hi, hnda, ⟨hndb, hndr, hbr⟩, habr⟩ := hnd
    have hself : enter i ≠ leave g side := (by simp)
    apply Preceded.cons hself
    rw [place] at h
    split at h
    · exact absurd (Option.some.inj h) hhere
    rcases Option.or_eq_some_iff.mp h with h | ⟨-, h⟩
    · rcases Option.or_eq_some_iff.mp h with h | ⟨-, h⟩
      · by_cases hfirst : (Place.inArm i true) = .inArm g side
        · -- the op stands in the first arm
          obtain ⟨rfl, rfl⟩ := Place.inArm.inj hfirst
          have hrest := hout hu hi.2.2
          rcases hw with ⟨rfl, hw⟩ | ⟨rfl, hw⟩
          · refine Preceded.append_of_mem (hout hw hi.1) hd (enter_mem_of_place h ?_ hw)
            exact fun j hj => ⟨(by simp), fun side' heq => hi.1 ((Place.inArm.inj heq).1 ▸ hj)⟩
          · exact (hout hw hi.2.1).append (Preceded.cons (by simp) hrest)
        · have hg := hin h hfirst
          have hrest := hout hu fun hmem => habr _ hg _ (.inr hmem) rfl
          have hcons : Preceded P (leave g side) (leave i arm :: u) :=
            Preceded.cons (fun heq => hi.1 ((Event.leave.inj heq).1 ▸ hg)) hrest
          rcases hw with ⟨rfl, hw⟩ | ⟨rfl, hw⟩
          · exact (iha hnda h hfirst hw).append hcons
          · exact (hout hw fun hmem => habr _ hg _ (.inl hmem) rfl).append hcons
      · by_cases hsecond : (Place.inArm i false) = .inArm g side
        · -- the op stands in the second arm
          obtain ⟨rfl, rfl⟩ := Place.inArm.inj hsecond
          have hrest := hout hu hi.2.2
          rcases hw with ⟨rfl, hw⟩ | ⟨rfl, hw⟩
          · exact (hout hw hi.1).append (Preceded.cons (by simp) hrest)
          · refine Preceded.append_of_mem (hout hw hi.2.1) hd (enter_mem_of_place h ?_ hw)
            exact fun j hj => ⟨(by simp), fun side' heq => hi.2.1 ((Place.inArm.inj heq).1 ▸ hj)⟩
        · have hg := hin h hsecond
          have hrest := hout hu fun hmem => hbr _ hg _ hmem rfl
          have hcons : Preceded P (leave g side) (leave i arm :: u) :=
            Preceded.cons (fun heq => hi.2.1 ((Event.leave.inj heq).1 ▸ hg)) hrest
          rcases hw with ⟨rfl, hw⟩ | ⟨rfl, hw⟩
          · exact (hout hw fun hmem => habr _ hmem _ (.inl hg) rfl).append hcons
          · exact (ihb hndb h hsecond hw).append hcons
    · have hg := hin h hhere
      have hcons : Preceded P (leave g side) (leave i arm :: u) :=
        Preceded.cons (fun heq => hi.2.2 ((Event.leave.inj heq).1 ▸ hg)) (ih hndr h hhere hu)
      apply Preceded.append _ hcons
      rcases hw with ⟨rfl, hw⟩ | ⟨rfl, hw⟩
      · exact hout hw fun hmem => habr _ hmem _ (.inr hg) rfl
      · exact hout hw fun hmem => hbr _ hmem _ hg rfl

/-! ### The paths of an edited body -/

/-- A path with an op put in front of an event. -/
def expand (pos : Event ι) (s : ι) (ev : Event ι) : List (Event ι) :=
  if pos = ev then [enter s, ev] else [ev]

variable {pos : Event ι} {s : ι} {o : α}

theorem exists_map_of_forall {β γ : Type} {P : β → Prop} {f : β → γ} {l : List γ}
    (h : ∀ y ∈ l, ∃ x, P x ∧ y = f x) : ∃ l' : List β, (∀ x ∈ l', P x) ∧ l = l'.map f := by
  induction l with
  | nil => exact ⟨[], (by simp), rfl⟩
  | cons y l ih =>
    obtain ⟨x, hx, rfl⟩ := h y List.mem_cons_self
    obtain ⟨l', hl', rfl⟩ := ih fun z hz => h z (List.mem_cons_of_mem _ hz)
    refine ⟨x :: l', fun z hz => ?_, rfl⟩
    rcases List.mem_cons.mp hz with rfl | hz
    · exact hx
    · exact hl' z hz

theorem flatten_map_flatMap {β γ : Type} (f : β → List γ) (ls : List (List β)) :
    (ls.map (List.flatMap f)).flatten = ls.flatten.flatMap f := by
  induction ls with
  | nil => rfl
  | cons l ls ih => rw [List.map_cons, List.flatten_cons, ih, List.flatten_cons, List.flatMap_append]

omit [DecidableEq ι] in
theorem path_snoc {t : List (Event ι)} :
    (b.snoc s o).Path t ↔ ∃ u, b.Path u ∧ t = u ++ [enter s] := by
  induction b generalizing t with
  | done => simp [snoc, Path]
  | leaf i o' rest ih =>
    simp only [snoc, Path, ih]
    constructor
    · rintro ⟨_, ⟨u, hu, rfl⟩, rfl⟩
      exact ⟨_, ⟨u, hu, rfl⟩, rfl⟩
    · rintro ⟨_, ⟨u, hu, rfl⟩, rfl⟩
      exact ⟨_, ⟨u, hu, rfl⟩, rfl⟩
  | loop i body rest _ ih =>
    simp only [snoc, Path, ih]
    constructor
    · rintro ⟨its, _, hits, ⟨u, hu, rfl⟩, rfl⟩
      exact ⟨_, ⟨its, u, hits, hu, rfl⟩, by simp⟩
    · rintro ⟨_, ⟨its, u, hits, hu, rfl⟩, rfl⟩
      exact ⟨its, _, hits, ⟨u, hu, rfl⟩, by simp⟩
  | branch i a b rest _ _ ih =>
    simp only [snoc, Path, ih]
    constructor
    · rintro ⟨arm, w, _, hw, ⟨u, hu, rfl⟩, rfl⟩
      exact ⟨_, ⟨arm, w, u, hw, hu, rfl⟩, by simp⟩
    · rintro ⟨_, ⟨arm, w, u, hw, hu, rfl⟩, rfl⟩
      exact ⟨arm, w, _, hw, ⟨u, hu, rfl⟩, by simp⟩

/-- In front of a block that begins with `i`. -/
theorem path_put {i : ι} {c : Body ι α} {Q : List (Event ι) → Prop} {t : List (Event ι)}
    (hc : ∀ t, c.Path t ↔ ∃ v, Q v ∧ t = enter i :: v) :
    (if pos = enter i then leaf s o c else c).Path t ↔
      ∃ v, Q v ∧ t = expand pos s (enter i) ++ v := by
  rw [expand]
  split
  · simp only [Path, hc]
    constructor
    · rintro ⟨_, ⟨v, hv, rfl⟩, rfl⟩
      exact ⟨v, hv, rfl⟩
    · rintro ⟨v, hv, rfl⟩
      exact ⟨_, ⟨v, hv, rfl⟩, rfl⟩
  · exact hc t

/-- At the end of an arm. -/
theorem path_close {i : ι} {side : Bool} {c : Body ι α} {t : List (Event ι)} :
    (∃ w, (if pos = leave i side then c.snoc s o else c).Path w ∧ t = w ++ [leave i side]) ↔
      ∃ w, c.Path w ∧ t = w ++ expand pos s (leave i side) := by
  rw [expand]
  split
  · simp only [path_snoc]
    constructor
    · rintro ⟨_, ⟨w, hw, rfl⟩, rfl⟩
      exact ⟨w, hw, by simp⟩
    · rintro ⟨w, hw, rfl⟩
      exact ⟨_, ⟨w, hw, rfl⟩, by simp⟩
  · rfl

/-- **Insertion**: an op put in front of an event is on every path in front of each occurrence. -/
theorem path_insertBefore {t : List (Event ι)} :
    (b.insertBefore pos s o).Path t ↔ ∃ u, b.Path u ∧ t = u.flatMap (expand pos s) := by
  induction b generalizing t with
  | done => simp [insertBefore, Path]
  | leaf i o' rest ih =>
    rw [insertBefore, path_put (Q := fun v => ∃ u, rest.Path u ∧ v = u.flatMap (expand pos s))
      fun t => by simp only [Path, ih]]
    constructor
    · rintro ⟨_, ⟨u, hu, rfl⟩, rfl⟩
      exact ⟨_, ⟨u, hu, rfl⟩, rfl⟩
    · rintro ⟨_, ⟨u, hu, rfl⟩, rfl⟩
      exact ⟨_, ⟨u, hu, rfl⟩, rfl⟩
  | loop i body rest ihb ih =>
    rw [insertBefore, path_put (Q := fun v => ∃ (its : List (List (Event ι))) (u : List (Event ι)),
      (∀ it ∈ its, body.Path it) ∧ rest.Path u ∧ v = (its.flatten ++ u).flatMap (expand pos s))]
    · constructor
      · rintro ⟨_, ⟨its, u, hits, hu, rfl⟩, rfl⟩
        exact ⟨_, ⟨its, u, hits, hu, rfl⟩, rfl⟩
      · rintro ⟨_, ⟨its, u, hits, hu, rfl⟩, rfl⟩
        exact ⟨_, ⟨its, u, hits, hu, rfl⟩, rfl⟩
    · intro t
      simp only [Path, ih, ihb]
      constructor
      · rintro ⟨_, _, hits, ⟨u, hu, rfl⟩, rfl⟩
        obtain ⟨its, hits', rfl⟩ := exists_map_of_forall hits
        exact ⟨_, ⟨its, u, hits', hu, rfl⟩, by rw [flatten_map_flatMap, List.flatMap_append]⟩
      · rintro ⟨_, ⟨its, u, hits, hu, rfl⟩, rfl⟩
        refine ⟨its.map (List.flatMap (expand pos s)), _, ?_, ⟨u, hu, rfl⟩, ?_⟩
        · intro it hit
          obtain ⟨it', hit', rfl⟩ := List.mem_map.mp hit
          exact ⟨it', hits it' hit', rfl⟩
        · rw [flatten_map_flatMap, List.flatMap_append]
  | branch i a b rest iha ihb ih =>
    rw [insertBefore, path_put (Q := fun v => ∃ arm w u, (arm = true ∧ a.Path w ∨ arm = false ∧
      b.Path w) ∧ rest.Path u ∧ v = (w ++ leave i arm :: u).flatMap (expand pos s))]
    · constructor
      · rintro ⟨_, ⟨arm, w, u, hw, hu, rfl⟩, rfl⟩
        exact ⟨_, ⟨arm, w, u, hw, hu, rfl⟩, rfl⟩
      · rintro ⟨_, ⟨arm, w, u, hw, hu, rfl⟩, rfl⟩
        exact ⟨_, ⟨arm, w, u, hw, hu, rfl⟩, rfl⟩
    · intro t
      have hside : ∀ {side : Bool} {c : Body ι α}, (∀ {t}, (c.insertBefore pos s o).Path t ↔
          ∃ u, c.Path u ∧ t = u.flatMap (expand pos s)) → ∀ x,
          (∃ w, (if pos = leave i side then (c.insertBefore pos s o).snoc s o
            else c.insertBefore pos s o).Path w ∧ x = w ++ [leave i side]) ↔
          ∃ w, c.Path w ∧ x = (w ++ [leave i side]).flatMap (expand pos s) := by
        intro side c hc x
        rw [path_close]
        simp only [hc]
        constructor
        · rintro ⟨_, ⟨w, hw, rfl⟩, rfl⟩
          exact ⟨w, hw, by simp⟩
        · rintro ⟨w, hw, rfl⟩
          exact ⟨_, ⟨w, hw, rfl⟩, by simp⟩
      have hsplit : ∀ (w u : List (Event ι)) (arm : Bool),
          w ++ leave i arm :: u = (w ++ [leave i arm]) ++ u := fun w u arm => by simp
      simp only [Path, ih]
      constructor
      · rintro ⟨arm, w, _, hw, ⟨u, hu, rfl⟩, rfl⟩
        rcases hw with ⟨rfl, hw⟩ | ⟨rfl, hw⟩
        · obtain ⟨w', hw', heq⟩ := (hside iha _).mp ⟨w, hw, rfl⟩
          exact ⟨_, ⟨true, w', u, .inl ⟨rfl, hw'⟩, hu, rfl⟩,
            by rw [hsplit w, heq, ← List.flatMap_append, ← hsplit]⟩
        · obtain ⟨w', hw', heq⟩ := (hside ihb _).mp ⟨w, hw, rfl⟩
          exact ⟨_, ⟨false, w', u, .inr ⟨rfl, hw'⟩, hu, rfl⟩,
            by rw [hsplit w, heq, ← List.flatMap_append, ← hsplit]⟩
      · rintro ⟨_, ⟨arm, w, u, hw, hu, rfl⟩, rfl⟩
        rcases hw with ⟨rfl, hw⟩ | ⟨rfl, hw⟩
        · obtain ⟨w', hw', heq⟩ := (hside iha _).mpr ⟨w, hw, rfl⟩
          exact ⟨true, w', _, .inl ⟨rfl, hw'⟩, ⟨u, hu, rfl⟩,
            by rw [hsplit w, List.flatMap_append, heq, ← hsplit]⟩
        · obtain ⟨w', hw', heq⟩ := (hside ihb _).mpr ⟨w, hw, rfl⟩
          exact ⟨false, w', _, .inr ⟨rfl, hw'⟩, ⟨u, hu, rfl⟩,
            by rw [hsplit w, List.flatMap_append, heq, ← hsplit]⟩

/-- A path with ops put in front of several events. -/
def expandAll (ins : List (Event ι × ι)) (ev : Event ι) : List (Event ι) :=
  (ins.filter (·.1 = ev)).map (enter ·.2) ++ [ev]

/-- One more op is put in front of an event that is in the text already. -/
theorem flatMap_expandAll {ins : List (Event ι × ι)} (hpos : ∀ c ∈ ins, pos ≠ enter c.2)
    (t : List (Event ι)) :
    (t.flatMap (expandAll ins)).flatMap (expand pos s) = t.flatMap (expandAll (ins ++ [(pos, s)])) := by
  rw [List.flatMap_assoc]
  congr 1
  funext ev
  have hkept : ((ins.filter (·.1 = ev)).map (enter ·.2)).flatMap (expand pos s) =
      (ins.filter (·.1 = ev)).map (enter ·.2) := by
    rw [List.flatMap_map]
    have hone : ∀ c ∈ ins.filter (·.1 = ev), expand pos s (enter c.2) = [enter c.2] := by
      intro c hc
      rw [expand, if_neg (hpos c (List.mem_filter.mp hc).1)]
    rw [List.map_eq_flatMap]
    exact List.flatMap_congr hone
  rw [expandAll, List.flatMap_append, hkept, expandAll, List.filter_append, List.map_append,
    List.append_assoc, List.flatMap_singleton, expand]
  congr 1
  by_cases h : pos = ev
  · simp [h]
  · simp [h]

/-- An event of an expanded path belongs to one of the path. -/
theorem split_flatMap {β γ : Type} {f : β → List γ} {u : List β} {p q : List γ} {y : γ}
    (h : u.flatMap f = p ++ y :: q) : ∃ u₁ x u₂ s₁ s₂, u = u₁ ++ x :: u₂ ∧ f x = s₁ ++ y :: s₂ ∧
      p = u₁.flatMap f ++ s₁ ∧ q = s₂ ++ u₂.flatMap f := by
  induction u generalizing p with
  | nil => exact absurd h.symm (by simp)
  | cons x u ih =>
    rw [List.flatMap_cons] at h
    rcases split_append h with ⟨r, hr⟩ | ⟨r, rfl, hr⟩
    · refine ⟨[], x, u, p, r, rfl, hr, rfl, ?_⟩
      rw [hr, List.append_assoc, List.append_cancel_left_eq, List.cons_append, List.cons.injEq] at h
      exact h.2.symm
    · obtain ⟨u₁, z, u₂, s₁, s₂, rfl, hz, rfl, rfl⟩ := ih hr
      exact ⟨x :: u₁, z, u₂, s₁, s₂, rfl, hz, by simp, rfl⟩

/-! ### What an edit leaves as it is -/

theorem path_setOp {t : List (Event ι)} : (b.setOp d o).Path t ↔ b.Path t := by
  induction b generalizing t with
  | done => rfl
  | leaf i o' rest ih => simp only [setOp, Path, ih]
  | loop i body rest ihb ih => simp only [setOp, Path, ihb, ih]
  | branch i a b rest iha ihb ih => simp only [setOp, Path, iha, ihb, ih]

theorem ids_setOp : (b.setOp d o).ids = b.ids := by
  induction b with
  | done => rfl
  | leaf i o' rest ih => rw [setOp, ids, ids, ih]
  | loop i body rest ihb ih => rw [setOp, ids, ids, ihb, ih]
  | branch i a b rest iha ihb ih => rw [setOp, ids, ids, iha, ihb, ih]

theorem place_setOp {x : ι} : (b.setOp d o).place here x = b.place here x := by
  induction b generalizing here with
  | done => rfl
  | leaf i o' rest ih => rw [setOp, place, place, ih]
  | loop i body rest ihb ih => rw [setOp, place, place, ihb, ih]
  | branch i a b rest iha ihb ih => rw [setOp, place, place, iha, ihb, ih]

theorem around_setOp {x : ι} : (b.setOp d o).around here x = b.around here x := by
  induction b generalizing here with
  | done => rfl
  | leaf i o' rest ih => exact ih
  | loop i body rest ihb ih => rw [setOp, around, around, ihb, ih, ids_setOp]
  | branch i a b rest iha ihb ih => rw [setOp, around, around, iha, ihb, ih, ids_setOp, ids_setOp]

theorem op?_setOp {x : ι} : (b.setOp d o).op? x = (b.op? x).map fun o' => if x = d then o else o' := by
  induction b with
  | done => rfl
  | leaf i o' rest ih =>
    rw [setOp, op?, op?, ih]
    split
    · next hi => rw [hi, Option.map_some]
    · rfl
  | loop i body rest ihb ih => rw [setOp, op?, op?, ihb, ih, Option.map_or]
  | branch i a b rest iha ihb ih =>
    rw [setOp, op?, op?, iha, ihb, ih, Option.map_or, Option.map_or]

section Insertion

variable {x : ι} (hx : x ≠ s)

include hx

omit [DecidableEq ι] in
theorem mem_ids_snoc : x ∈ (b.snoc s o).ids ↔ x ∈ b.ids := by
  induction b with
  | done => simp [snoc, ids, hx]
  | leaf i o' rest ih => simp [snoc, ids, ih]
  | loop i body rest _ ih => simp [snoc, ids, ih]
  | branch i a b rest _ _ ih => simp [snoc, ids, ih]

theorem place_snoc : (b.snoc s o).place here x = b.place here x := by
  induction b with
  | done => simp [snoc, place, hx.symm]
  | leaf i o' rest ih => rw [snoc, place, place, ih]
  | loop i body rest _ ih => rw [snoc, place, place, ih]
  | branch i a b rest _ _ ih => rw [snoc, place, place, ih]

omit hx in
theorem around_snoc : (b.snoc s o).around here x = b.around here x := by
  induction b with
  | done => rfl
  | leaf i o' rest ih => exact ih
  | loop i body rest _ ih => rw [snoc, around, around, ih]
  | branch i a b rest _ _ ih => rw [snoc, around, around, ih]

theorem op?_snoc : (b.snoc s o).op? x = b.op? x := by
  induction b with
  | done => simp [snoc, op?, hx.symm]
  | leaf i o' rest ih => rw [snoc, op?, op?, ih]
  | loop i body rest _ ih => rw [snoc, op?, op?, ih]
  | branch i a b rest _ _ ih => rw [snoc, op?, op?, ih]

theorem mem_ids_insertBefore : x ∈ (b.insertBefore pos s o).ids ↔ x ∈ b.ids := by
  have hput : ∀ (i : ι) (c : Body ι α),
      x ∈ (if pos = enter i then leaf s o c else c).ids ↔ x ∈ c.ids := by
    intro i c
    split
    · rw [ids, List.mem_cons, or_iff_right hx]
    · rfl
  have hclose : ∀ (i : ι) (side : Bool) (c : Body ι α),
      x ∈ (if pos = leave i side then c.snoc s o else c).ids ↔ x ∈ c.ids := by
    intro i side c
    split
    · exact mem_ids_snoc hx
    · rfl
  induction b with
  | done => rfl
  | leaf i o' rest ih => simp only [insertBefore, hput, ids, List.mem_cons, ih]
  | loop i body rest ihb ih =>
    simp only [insertBefore, hput, ids, List.mem_cons, List.mem_append, ihb, ih]
  | branch i a b rest iha ihb ih =>
    simp only [insertBefore, hput, ids, List.mem_cons, List.mem_append, hclose, iha, ihb, ih]

theorem place_insertBefore : (b.insertBefore pos s o).place here x = b.place here x := by
  have hput : ∀ (i : ι) (c : Body ι α) (here : Place ι),
      (if pos = enter i then leaf s o c else c).place here x = c.place here x := by
    intro i c here
    split
    · rw [place, if_neg hx.symm]
    · rfl
  have hclose : ∀ (i : ι) (side : Bool) (c : Body ι α) (here : Place ι),
      (if pos = leave i side then c.snoc s o else c).place here x = c.place here x := by
    intro i side c here
    split
    · exact place_snoc hx
    · rfl
  induction b generalizing here with
  | done => rfl
  | leaf i o' rest ih => simp only [insertBefore, hput, place, ih]
  | loop i body rest ihb ih => simp only [insertBefore, hput, place, ihb, ih]
  | branch i a b rest iha ihb ih => simp only [insertBefore, hput, place, hclose, iha, ihb, ih]

theorem around_insertBefore : (b.insertBefore pos s o).around here x = b.around here x := by
  have hput : ∀ (i : ι) (c : Body ι α) (here : Place ι),
      (if pos = enter i then leaf s o c else c).around here x = c.around here x := by
    intro i c here
    split
    · rfl
    · rfl
  have hclose : ∀ (i : ι) (side : Bool) (c : Body ι α) (here : Place ι),
      (if pos = leave i side then c.snoc s o else c).around here x = c.around here x := by
    intro i side c here
    split
    · exact around_snoc
    · rfl
  have hids : ∀ (i : ι) (side : Bool) (c : Body ι α),
      x ∈ (if pos = leave i side then c.snoc s o else c).ids ↔ x ∈ c.ids := by
    intro i side c
    split
    · exact mem_ids_snoc hx
    · rfl
  induction b generalizing here with
  | done => rfl
  | leaf i o' rest ih => simp only [insertBefore, hput, around, ih]
  | loop i body rest ihb ih =>
    simp only [insertBefore, hput, around, mem_ids_insertBefore hx, ihb, ih]
  | branch i a b rest iha ihb ih =>
    simp only [insertBefore, hput, around, hids, hclose, mem_ids_insertBefore hx, iha, ihb, ih]

theorem op?_insertBefore : (b.insertBefore pos s o).op? x = b.op? x := by
  have hput : ∀ (i : ι) (c : Body ι α),
      (if pos = enter i then leaf s o c else c).op? x = c.op? x := by
    intro i c
    split
    · rw [op?, if_neg hx.symm]
    · rfl
  have hclose : ∀ (i : ι) (side : Bool) (c : Body ι α),
      (if pos = leave i side then c.snoc s o else c).op? x = c.op? x := by
    intro i side c
    split
    · exact op?_snoc hx
    · rfl
  induction b with
  | done => rfl
  | leaf i o' rest ih => simp only [insertBefore, hput, op?, ih]
  | loop i body rest ihb ih => simp only [insertBefore, hput, op?, ihb, ih]
  | branch i a b rest iha ihb ih => simp only [insertBefore, hput, op?, hclose, iha, ihb, ih]

end Insertion

end Body

end ControlFlow
