import DataflowScheduler.Util.ControlFlow

/-!
# Regions of a body, and ops put in front of an event

A region is an op with all inside it, or an arm of a conditional. What a path does in a region is one
stretch of it, which begins where the op is entered or ends where the arm is left. An op put in front
of an event is on every path in front of every occurrence of that event.
-/

namespace ControlFlow

open Event

variable {ι α : Type}

/-- An op with the ops inside it, or an arm of a conditional. -/
inductive Region (ι : Type) where
  | op (x : ι)
  | arm (g : ι) (side : Bool)
  deriving DecidableEq

/-- The stretch of a path that is spent in a region, given what is done inside. -/
def Region.run : Region ι → List (Event ι) → List (Event ι)
  | .op x, u => enter x :: u
  | .arm g side, u => u ++ [leave g side]

namespace Body

/-- The loops of a block. -/
def loops : Body ι α → List ι
  | .done => []
  | .leaf _ _ rest => rest.loops
  | .loop i body rest => i :: (body.loops ++ rest.loops)
  | .branch _ a b rest => a.loops ++ (b.loops ++ rest.loops)

variable [DecidableEq ι]

/-- The ops of a region. -/
def under (r : Region ι) : Body ι α → List ι
  | .done => []
  | .leaf i _ rest => (if r = .op i then [i] else []) ++ rest.under r
  | .loop i body rest => (if r = .op i then i :: body.ids else body.under r) ++ rest.under r
  | .branch i a b rest =>
    (if r = .op i then i :: (a.ids ++ b.ids) else
      (if r = .arm i true then a.ids else a.under r) ++
        (if r = .arm i false then b.ids else b.under r)) ++ rest.under r

theorem under_subset (r : Region ι) (b : Body ι α) : b.under r ⊆ b.ids := by
  induction b with
  | done => exact List.Subset.refl _
  | leaf i op rest ih =>
    intro j hj
    rcases List.mem_append.mp hj with hj | hj
    · split at hj
      · exact List.mem_singleton.mp hj ▸ List.mem_cons_self
      · exact absurd hj List.not_mem_nil
    · exact List.mem_cons_of_mem i (ih hj)
  | loop i body rest ihb ih =>
    intro j hj
    rcases List.mem_append.mp hj with hj | hj
    · split at hj
      · exact (List.mem_append_left _ hj : j ∈ (i :: body.ids) ++ rest.ids)
      · exact List.mem_cons_of_mem i (List.mem_append_left _ (ihb hj))
    · exact List.mem_cons_of_mem i (List.mem_append_right _ (ih hj))
  | branch i a b rest iha ihb ih =>
    intro j hj
    simp only [ids, List.mem_cons, List.mem_append]
    simp only [under, List.mem_append] at hj
    rcases hj with hj | hj
    · split at hj
      · exact (List.mem_cons.mp hj).imp_right fun h => (List.mem_append.mp h).imp_right .inl
      · rcases List.mem_append.mp hj with hj | hj
        · split at hj
          · exact .inr (.inl hj)
          · exact .inr (.inl (iha hj))
        · split at hj
          · exact .inr (.inr (.inl hj))
          · exact .inr (.inr (.inl (ihb hj)))
    · exact .inr (.inr (.inr (ih hj)))

/-- **The stretches of a region**: what is closed under composition holds of every path if it holds of
the events outside of the region and of the stretches spent in it. -/
theorem Path.induction_under {P : List (Event ι) → Prop} {r : Region ι} (nil : P [])
    (append : ∀ s t, P s → P t → P (s ++ t)) {b : Body ι α} {t : List (Event ι)} (hnd : b.ids.Nodup)
    (event : ∀ ev, ev.id ∈ b.ids → ev.id ∉ b.under r →
      (∀ g side, r = .arm g side → ev ≠ leave g side) → P [ev])
    (run : ∀ u, (∀ ev ∈ u, ev.id ∈ b.under r) → P (r.run u)) (ht : b.Path t) : P t := by
  have hflatten : ∀ ts : List (List (Event ι)), (∀ t ∈ ts, P t) → P ts.flatten := by
    intro ts
    induction ts with
    | nil => exact fun _ => nil
    | cons t ts ih =>
      intro h
      rw [List.flatten_cons]
      exact append _ _ (h t List.mem_cons_self) (ih fun t' ht' => h t' (List.mem_cons_of_mem t ht'))
  induction b generalizing t with
  | done =>
    rw [Path] at ht
    exact ht ▸ nil
  | leaf i op rest ih =>
    obtain ⟨u, hu, rfl⟩ := ht
    rw [ids, List.nodup_cons] at hnd
    have hrest : P u := by
      apply ih hnd.2 _ _ hu
      · intro ev hev hnot
        apply event ev (List.mem_cons_of_mem i hev)
        rw [under, List.mem_append, not_or]
        refine ⟨?_, hnot⟩
        split
        · intro h
          exact hnd.1 (List.mem_singleton.mp h ▸ hev)
        · exact List.not_mem_nil
      · intro u hu
        exact run u fun ev hev => List.mem_append_right _ (hu ev hev)
    apply append [enter i] u _ hrest
    by_cases hr : r = .op i
    · subst hr
      exact run [] (by simp)
    · refine event _ List.mem_cons_self ?_ fun _ _ _ => (by simp)
      rw [under, if_neg hr, List.nil_append]
      exact fun h => hnd.1 (under_subset r rest h)
  | loop i body rest ihb ih =>
    obtain ⟨its, u, hits, hu, rfl⟩ := ht
    simp only [ids, List.nodup_cons, List.mem_append, not_or, List.nodup_append] at hnd
    obtain ⟨hi, hndb, hndr, hdisj⟩ := hnd
    have hrest : P u := by
      apply ih hndr _ _ hu
      · intro ev hev hnot
        apply event ev (List.mem_cons_of_mem i (List.mem_append_right _ hev))
        rw [under, List.mem_append, not_or]
        refine ⟨?_, hnot⟩
        split
        · rw [List.mem_cons, not_or]
          exact ⟨fun h => hi.2 (h ▸ hev), fun h => hdisj _ h _ hev rfl⟩
        · exact fun h => hdisj _ (under_subset r body h) _ hev rfl
      · intro u hu
        exact run u fun ev hev => List.mem_append_right _ (hu ev hev)
    by_cases hr : r = .op i
    · subst hr
      rw [← List.cons_append]
      refine append _ u (run _ fun ev hev => ?_) hrest
      obtain ⟨it, hit, hev⟩ := List.mem_flatten.mp hev
      rw [under, if_pos rfl]
      exact List.mem_append_left _ (List.mem_cons_of_mem i ((hits it hit).id_mem ev hev))
    · have hsub : ∀ t, body.Path t → P t := by
        intro t ht
        apply ihb hndb _ _ ht
        · intro ev hev hnot
          apply event ev (List.mem_cons_of_mem i (List.mem_append_left _ hev))
          rw [under, if_neg hr, List.mem_append, not_or]
          exact ⟨hnot, fun h => hdisj _ hev _ (under_subset r rest h) rfl⟩
        · intro u hu
          apply run u
          intro ev hev
          rw [under, if_neg hr]
          exact List.mem_append_left _ (hu ev hev)
      apply append [enter i] _ _ (append _ u (hflatten its fun it hit => hsub it (hits it hit)) hrest)
      refine event _ List.mem_cons_self ?_ fun _ _ _ => (by simp)
      rw [under, if_neg hr, List.mem_append, not_or]
      exact ⟨fun h => hi.1 (under_subset r body h), fun h => hi.2 (under_subset r rest h)⟩
  | branch i a b rest iha ihb ih =>
    obtain ⟨arm, w, u, hw, hu, rfl⟩ := ht
    simp only [ids, List.nodup_cons, List.mem_append, not_or, List.nodup_append] at hnd
    obtain ⟨hi, hnda, ⟨hndb, hndr, hbr⟩, habr⟩ := hnd
    have hrest : P u := by
      apply ih hndr _ _ hu
      · intro ev hev hnot
        apply event ev (by simp [ids, hev])
        intro h
        have hmem := under_subset r (.branch i a b .done) (a := ev.id)
        rw [under, List.mem_append] at h
        rcases h with h | h
        · simp only [ids, under, List.append_nil, List.mem_cons, List.mem_append] at hmem
          rcases hmem h with h | h | h
          · exact hi.2.2 (h ▸ hev)
          · exact habr _ h _ (.inr hev) rfl
          · exact hbr _ h _ hev rfl
        · exact hnot h
      · intro u hu
        exact run u fun ev hev => List.mem_append_right _ (hu ev hev)
    have hsplit : enter i :: (w ++ leave i arm :: u) = (enter i :: (w ++ [leave i arm])) ++ u := by
      simp
    rw [hsplit]
    apply append _ u _ hrest
    by_cases hr : r = .op i
    · subst hr
      refine run _ fun ev hev => ?_
      rw [under, if_pos rfl]
      apply List.mem_append_left
      rcases List.mem_append.mp hev with hev | hev
      · rcases hw with ⟨-, hw⟩ | ⟨-, hw⟩
        · exact List.mem_cons_of_mem i (List.mem_append_left _ (hw.id_mem ev hev))
        · exact List.mem_cons_of_mem i (List.mem_append_right _ (hw.id_mem ev hev))
      · rw [List.mem_singleton.mp hev]
        exact List.mem_cons_self
    have hself : ∀ ev : Event ι, ev.id = i → (∀ g side, r = .arm g side → ev ≠ leave g side) →
        P [ev] := by
      intro ev hev
      apply event ev (hev ▸ List.mem_cons_self)
      rw [hev, under, if_neg hr]
      simp only [List.mem_append, not_or]
      refine ⟨⟨?_, ?_⟩, fun h => hi.2.2 (under_subset r rest h)⟩
      · split
        · exact hi.1
        · exact fun h => hi.1 (under_subset r a h)
      · split
        · exact hi.2.1
        · exact fun h => hi.2.1 (under_subset r b h)
    apply append [enter i] _ (hself _ rfl fun _ _ _ => (by simp))
    have hleave : ∀ side, r ≠ .arm i side → P [leave i side] := by
      intro side hside
      apply hself _ rfl
      intro g side' hg heq
      obtain ⟨rfl, rfl⟩ := Event.leave.inj heq
      exact hside hg
    rcases hw with ⟨rfl, hw⟩ | ⟨rfl, hw⟩
    · by_cases hside : r = .arm i true
      · subst hside
        apply run w
        intro ev hev
        rw [under, if_neg hr, if_pos rfl]
        exact List.mem_append_left _ (List.mem_append_left _ (hw.id_mem ev hev))
      · apply append w _ _ (hleave true hside)
        apply iha hnda _ _ hw
        · intro ev hev hnot
          apply event ev (by simp [ids, hev])
          rw [under, if_neg hr, if_neg hside]
          simp only [List.mem_append, not_or]
          refine ⟨⟨hnot, ?_⟩, fun h => habr _ hev _ (.inr (under_subset r rest h)) rfl⟩
          split
          · exact fun h => habr _ hev _ (.inl h) rfl
          · exact fun h => habr _ hev _ (.inl (under_subset r b h)) rfl
        · intro u hu
          apply run u
          intro ev hev
          rw [under, if_neg hr, if_neg hside]
          exact List.mem_append_left _ (List.mem_append_left _ (hu ev hev))
    · by_cases hside : r = .arm i false
      · subst hside
        apply run w
        intro ev hev
        rw [under, if_neg hr, if_pos rfl]
        exact List.mem_append_left _ (List.mem_append_right _ (hw.id_mem ev hev))
      · apply append w _ _ (hleave false hside)
        apply ihb hndb _ _ hw
        · intro ev hev hnot
          apply event ev (by simp [ids, hev])
          rw [under, if_neg hr, if_neg hside]
          simp only [List.mem_append, not_or]
          refine ⟨⟨?_, hnot⟩, fun h => hbr _ hev _ (under_subset r rest h) rfl⟩
          split
          · exact fun h => habr _ h _ (.inl hev) rfl
          · exact fun h => habr _ (under_subset r a h) _ (.inl hev) rfl
        · intro u hu
          apply run u
          intro ev hev
          rw [under, if_neg hr, if_neg hside]
          exact List.mem_append_left _ (List.mem_append_right _ (hu ev hev))

/-! ### Through the beginning of an op, through the end of an arm -/

/-- Before `d` the path entered `x` and stayed inside. -/
theorem Path.entered {b : Body ι α} {t p s : List (Event ι)} {d x : ι} (hnd : b.ids.Nodup)
    (ht : b.Path t) (hd : d ∈ b.under (.op x)) (h : t = p ++ enter d :: s) :
    ∃ p' u, p ++ [enter d] = p' ++ enter x :: u ∧ ∀ ev ∈ u, ev.id ∈ b.under (.op x) := by
  have hall := Path.induction_under (r := .op x) (P := fun t => ∀ p s, t = p ++ enter d :: s →
    ∃ p' u, p ++ [enter d] = p' ++ enter x :: u ∧ ∀ ev ∈ u, ev.id ∈ b.under (.op x))
    ?_ ?_ hnd ?_ ?_ ht
  · exact hall p s h
  · exact fun p s h => absurd h.symm (by simp)
  · intro t t' ih ih' p s h
    rcases split_append h with ⟨r, ht⟩ | ⟨r, rfl, ht⟩
    · exact ih p r ht
    · obtain ⟨p', u, hp, hu⟩ := ih' r s ht
      exact ⟨t ++ p', u, by rw [List.append_assoc, hp, List.append_assoc], hu⟩
  · intro ev _ hnot _ p s h
    cases p with
    | nil =>
      obtain ⟨rfl, -⟩ := List.cons.inj h
      exact absurd hd hnot
    | cons y p => exact absurd (List.cons.inj h).2.symm (by simp)
  · intro u hu p s h
    cases p with
    | nil =>
      obtain ⟨hx, -⟩ := List.cons.inj h
      exact ⟨[], [], by rw [hx, List.nil_append], (by simp)⟩
    | cons y p =>
      obtain ⟨rfl, rfl⟩ := List.cons.inj h
      refine ⟨[], p ++ [enter d], rfl, fun ev hev => hu ev ?_⟩
      rcases List.mem_append.mp hev with hev | hev
      · exact List.mem_append_left _ hev
      · exact List.mem_append_right _ (List.mem_singleton.mp hev ▸ List.mem_cons_self)

/-- To get into an op from outside of it a path enters it. -/
theorem Path.enter_between {b : Body ι α} {t p q s : List (Event ι)} {e d x : ι} (hnd : b.ids.Nodup)
    (ht : b.Path t) (hd : d ∈ b.under (.op x)) (he : e ∉ b.under (.op x)) (hex : e ≠ x)
    (h : t = p ++ enter e :: (q ++ enter d :: s)) : enter x ∈ q ++ [enter d] := by
  obtain ⟨p', u, hp, hu⟩ := ht.entered (p := p ++ enter e :: q) (s := s) hnd hd (by rw [h]; simp)
  have hsplit : p' ++ enter x :: u = p ++ enter e :: (q ++ [enter d]) := by
    rw [← hp]
    simp
  rcases split_append hsplit with ⟨r, rfl⟩ | ⟨r, -, hr⟩
  · rw [List.append_assoc, List.append_cancel_left_eq, List.cons_append, List.cons.injEq] at hsplit
    exact hsplit.2 ▸ List.mem_append_right r List.mem_cons_self
  · -- `e` would be inside
    exfalso
    have hmem : enter e ∈ enter x :: u := hr ▸ List.mem_append_right r List.mem_cons_self
    rcases List.mem_cons.mp hmem with h | h
    · exact hex (Event.enter.inj h)
    · exact he (hu _ h)

/-- To get out of an arm a path leaves it at its end. -/
theorem Path.leave_between {b : Body ι α} {t p q s : List (Event ι)} {e d g : ι} {side : Bool}
    (hnd : b.ids.Nodup) (ht : b.Path t) (he : e ∈ b.under (.arm g side))
    (hd : d ∉ b.under (.arm g side)) (h : t = p ++ enter e :: (q ++ enter d :: s)) :
    leave g side ∈ q := by
  have hall := Path.induction_under (r := .arm g side) (P := fun t => ∀ p s, t = p ++ enter e :: s →
    ∃ u s', s = u ++ leave g side :: s' ∧ ∀ ev ∈ u, ev.id ∈ b.under (.arm g side))
    ?_ ?_ hnd ?_ ?_ ht
  · obtain ⟨u, s', hs, hu⟩ := hall p _ h
    rcases split_append hs with ⟨r, rfl⟩ | ⟨r, rfl, hr⟩
    · exact List.mem_append_right _ List.mem_cons_self
    · cases r with
      | nil => exact absurd (List.cons.inj hr).1 (by simp)
      | cons y r =>
        obtain ⟨rfl, -⟩ := List.cons.inj hr
        exact absurd (hu _ (List.mem_append_right q List.mem_cons_self)) hd
  · exact fun p s h => absurd h.symm (by simp)
  · intro t t' ih ih' p s h
    rcases split_append h with ⟨r, rfl⟩ | ⟨r, rfl, ht⟩
    · obtain ⟨u, s', rfl, hu⟩ := ih p r rfl
      rw [List.append_assoc, List.append_cancel_left_eq, List.cons_append, List.cons.injEq] at h
      exact ⟨u, s' ++ t', by rw [← h.2]; simp, hu⟩
    · exact ih' r s ht
  · intro ev _ hnot _ p s h
    cases p with
    | nil =>
      obtain ⟨rfl, -⟩ := List.cons.inj h
      exact absurd he hnot
    | cons y p => exact absurd (List.cons.inj h).2.symm (by simp)
  · intro u hu p s h
    rcases split_append h with ⟨r, rfl⟩ | ⟨r, rfl, hr⟩
    · refine ⟨r, [], ?_, fun ev hev => hu ev (by simp [hev])⟩
      rw [Region.run, List.append_assoc, List.append_cancel_left_eq, List.cons_append,
        List.cons.injEq] at h
      exact h.2.symm
    · cases r with
      | nil => exact absurd (List.cons.inj hr).1 (by simp)
      | cons y r => exact absurd (List.cons.inj hr).2.symm (by simp)

/-! ### Around them -/

theorem under_eq_nil {x : ι} {b : Body ι α} (hx : x ∉ b.ids) : b.under (.op x) = [] := by
  induction b with
  | done => rfl
  | leaf i op rest ih =>
    rw [ids, List.mem_cons, not_or] at hx
    rw [under, if_neg (by simpa using hx.1), ih hx.2, List.append_nil]
  | loop i body rest ihb ih =>
    simp only [ids, List.mem_cons, List.mem_append, not_or] at hx
    rw [under, if_neg (by simpa using hx.1), ihb hx.2.1, ih hx.2.2, List.append_nil]
  | branch i a b rest iha ihb ih =>
    simp only [ids, List.mem_cons, List.mem_append, not_or] at hx
    rw [under, if_neg (by simpa using hx.1), if_neg (by simp), if_neg (by simp), iha hx.2.1, ihb hx.2.2.1,
      ih hx.2.2.2, List.append_nil, List.append_nil]

omit [DecidableEq ι] in
theorem loops_subset (b : Body ι α) : b.loops ⊆ b.ids := by
  induction b with
  | done => exact List.Subset.refl _
  | leaf i op rest ih => exact List.subset_cons_of_subset i ih
  | loop i body rest ihb ih =>
    intro j hj
    simp only [loops, ids, List.mem_cons, List.mem_append] at hj ⊢
    exact hj.imp_right (Or.imp (fun h => ihb h) (fun h => ih h))
  | branch i a b rest iha ihb ih =>
    intro j hj
    simp only [loops, ids, List.mem_cons, List.mem_append] at hj ⊢
    exact .inr (hj.imp (fun h => iha h) (Or.imp (fun h => ihb h) (fun h => ih h)))

/-- Two ops of a loop follow each other in either order, with the loop not entered in between. -/
theorem exists_path_within {b : Body ι α} {e d x : ι} (hnd : b.ids.Nodup) (hx : x ∈ b.loops)
    (he : e ∈ b.under (.op x)) (hd : d ∈ b.under (.op x)) (hex : e ≠ x) (hdx : d ≠ x) :
    ∃ p q s, b.Path (p ++ enter e :: (q ++ enter d :: s)) ∧ enter x ∉ q := by
  induction b with
  | done => exact absurd hx List.not_mem_nil
  | leaf i op rest ih =>
    rw [ids, List.nodup_cons] at hnd
    have hne : Region.op x ≠ .op i := by
      intro h
      exact hnd.1 (Region.op.inj h ▸ loops_subset rest hx)
    rw [under, if_neg hne, List.nil_append] at he hd
    obtain ⟨p, q, s, hpath, hnot⟩ := ih hnd.2 hx he hd
    exact ⟨enter i :: p, q, s, ⟨_, hpath, rfl⟩, hnot⟩
  | loop i body rest ihb ih =>
    simp only [ids, List.nodup_cons, List.mem_append, not_or, List.nodup_append] at hnd
    obtain ⟨hi, hndb, hndr, hdisj⟩ := hnd
    obtain ⟨u, hu⟩ := exists_path rest
    by_cases hr : i = x
    · subst hr
      rw [under, if_pos rfl, under_eq_nil hi.2, List.append_nil] at he hd
      obtain ⟨t, ht, hmem⟩ := exists_path_enter ((List.mem_cons.mp he).resolve_left hex)
      obtain ⟨t', ht', hmem'⟩ := exists_path_enter ((List.mem_cons.mp hd).resolve_left hdx)
      obtain ⟨p, q, rfl⟩ := List.append_of_mem hmem
      obtain ⟨p', q', rfl⟩ := List.append_of_mem hmem'
      refine ⟨enter i :: p, q ++ p', q' ++ u, ⟨[p ++ enter e :: q, p' ++ enter d :: q'], u, ?_, hu,
        by simp⟩, ?_⟩
      · intro it hit
        simp only [List.mem_cons, List.not_mem_nil, or_false] at hit
        rcases hit with rfl | rfl
        · exact ht
        · exact ht'
      · intro hmem
        rcases List.mem_append.mp hmem with hmem | hmem
        · exact hi.1 (ht.id_mem (enter i) (by simp [hmem]))
        · exact hi.1 (ht'.id_mem (enter i) (by simp [hmem]))
    · have hne : Region.op x ≠ .op i := fun h => hr (Region.op.inj h).symm
      rw [under, if_neg hne] at he hd
      simp only [loops, List.mem_cons, List.mem_append] at hx
      rcases hx with hx | hx | hx
      · exact absurd hx.symm hr
      · rw [under_eq_nil fun h => hdisj _ (loops_subset body hx) _ h rfl, List.append_nil] at he hd
        obtain ⟨p, q, s, hpath, hnot⟩ := ihb hndb hx he hd
        refine ⟨enter i :: p, q, s ++ u, ⟨[p ++ enter e :: (q ++ enter d :: s)], u, ?_, hu,
          by simp⟩, hnot⟩
        exact fun it hit => List.mem_singleton.mp hit ▸ hpath
      · rw [under_eq_nil fun h => hdisj _ h _ (loops_subset rest hx) rfl, List.nil_append] at he hd
        obtain ⟨p, q, s, hpath, hnot⟩ := ih hndr hx he hd
        exact ⟨enter i :: p, q, s, ⟨[], _, (by simp), hpath, rfl⟩, hnot⟩
  | branch i a b rest iha ihb ih =>
    simp only [ids, List.nodup_cons, List.mem_append, not_or, List.nodup_append] at hnd
    obtain ⟨hi, hnda, ⟨hndb, hndr, hbr⟩, habr⟩ := hnd
    obtain ⟨u, hu⟩ := exists_path rest
    obtain ⟨w, hw⟩ := exists_path a
    simp only [loops, List.mem_append] at hx
    have hne : Region.op x ≠ .op i := by
      intro h
      obtain rfl := Region.op.inj h
      rcases hx with hx | hx | hx
      · exact hi.1 (loops_subset a hx)
      · exact hi.2.1 (loops_subset b hx)
      · exact hi.2.2 (loops_subset rest hx)
    rw [under, if_neg hne, if_neg (by simp), if_neg (by simp)] at he hd
    rcases hx with hx | hx | hx
    · have hxa := loops_subset a hx
      rw [under_eq_nil (x := x) (b := b) fun h => habr _ hxa _ (.inl h) rfl,
        under_eq_nil (x := x) (b := rest) fun h => habr _ hxa _ (.inr h) rfl, List.append_nil,
        List.append_nil] at he hd
      obtain ⟨p, q, s, hpath, hnot⟩ := iha hnda hx he hd
      exact ⟨enter i :: p, q, s ++ leave i true :: u, ⟨true, _, u, .inl ⟨rfl, hpath⟩, hu, by simp⟩,
        hnot⟩
    · have hxb := loops_subset b hx
      rw [under_eq_nil (x := x) (b := a) fun h => habr _ h _ (.inl hxb) rfl,
        under_eq_nil (x := x) (b := rest) fun h => hbr _ hxb _ h rfl, List.append_nil,
        List.nil_append] at he hd
      obtain ⟨p, q, s, hpath, hnot⟩ := ihb hndb hx he hd
      exact ⟨enter i :: p, q, s ++ leave i false :: u, ⟨false, _, u, .inr ⟨rfl, hpath⟩, hu, by simp⟩,
        hnot⟩
    · have hxr := loops_subset rest hx
      rw [under_eq_nil (x := x) (b := a) fun h => habr _ h _ (.inr hxr) rfl,
        under_eq_nil (x := x) (b := b) fun h => hbr _ h _ hxr rfl, List.append_nil,
        List.nil_append] at he hd
      obtain ⟨p, q, s, hpath, hnot⟩ := ih hndr hx he hd
      exact ⟨enter i :: (w ++ leave i true :: p), q, s, ⟨true, w, _, .inl ⟨rfl, hw⟩, hpath, by simp⟩,
        hnot⟩

/-- An arm can be kept out of: with the other arm taken instead, what is outside of it stays. -/
theorem exists_path_outside {b : Body ι α} {g : ι} {side : Bool} {keep : Event ι → Bool}
    (hnd : b.ids.Nodup) (hkeep : ∀ ev, keep ev = true → ev.id ∉ b.under (.arm g side))
    (hleave : keep (leave g side) = false) {t : List (Event ι)} (ht : b.Path t) :
    ∃ t', b.Path t' ∧ leave g side ∉ t' ∧ (t.filter keep).Sublist t' := by
  induction b generalizing t with
  | done =>
    rw [Path] at ht
    subst ht
    exact ⟨[], by rw [Path], List.not_mem_nil, List.Sublist.refl _⟩
  | leaf i op rest ih =>
    obtain ⟨u, hu, rfl⟩ := ht
    obtain ⟨u', hu', hnot, hsub⟩ := ih (List.nodup_cons.mp hnd).2
      (fun ev hev h => hkeep ev hev (List.mem_append_right _ h)) hu
    refine ⟨enter i :: u', ⟨u', hu', rfl⟩, by simp [hnot], ?_⟩
    rw [List.filter_cons]
    split
    · exact hsub.cons_cons _
    · exact hsub.cons _
  | loop i body rest ihb ih =>
    obtain ⟨its, u, hits, hu, rfl⟩ := ht
    simp only [ids, List.nodup_cons, List.nodup_append] at hnd
    obtain ⟨u', hu', hnot, hsub⟩ := ih hnd.2.2.1
      (fun ev hev h => hkeep ev hev (List.mem_append_right _ h)) hu
    obtain ⟨its', hits', hnots, hsubs⟩ : ∃ its' : List (List (Event ι)),
        (∀ it ∈ its', body.Path it) ∧ leave g side ∉ its'.flatten ∧
          (its.flatten.filter keep).Sublist its'.flatten := by
      clear hu
      induction its with
      | nil => exact ⟨[], (by simp), List.not_mem_nil, List.Sublist.refl _⟩
      | cons it its ihs =>
        obtain ⟨it', hit', hnot', hsub'⟩ := ihb hnd.2.1
          (fun ev hev h => hkeep ev hev (List.mem_append_left _ (by simpa using h)))
          (hits it List.mem_cons_self)
        obtain ⟨its', hits', hnots, hsubs⟩ := ihs fun it h => hits it (List.mem_cons_of_mem _ h)
        refine ⟨it' :: its', ?_, ?_, ?_⟩
        · intro t h
          rcases List.mem_cons.mp h with rfl | h
          · exact hit'
          · exact hits' t h
        · rw [List.flatten_cons, List.mem_append, not_or]
          exact ⟨hnot', hnots⟩
        · rw [List.flatten_cons, List.flatten_cons, List.filter_append]
          exact hsub'.append hsubs
    refine ⟨enter i :: (its'.flatten ++ u'), ⟨its', u', hits', hu', rfl⟩, ?_, ?_⟩
    · simp only [List.mem_cons, List.mem_append, reduceCtorEq, false_or, not_or]
      exact ⟨hnots, hnot⟩
    · rw [List.filter_cons, List.filter_append]
      split
      · exact (hsubs.append hsub).cons_cons _
      · exact (hsubs.append hsub).cons _
  | branch i a b rest iha ihb ih =>
    obtain ⟨arm, w, u, hw, hu, rfl⟩ := ht
    simp only [ids, List.nodup_cons, List.nodup_append] at hnd
    obtain ⟨hi, hnda, ⟨hndb, hndr, hbr⟩, habr⟩ := hnd
    obtain ⟨u', hu', hnot, hsub⟩ := ih hndr
      (fun ev hev h => hkeep ev hev (List.mem_append_right _ h)) hu
    -- each arm can be gone through, unless it is the one to avoid
    have hthrough : ∀ arm w, (arm = true ∧ a.Path w ∨ arm = false ∧ b.Path w) →
        Region.arm g side ≠ .arm i arm → ∃ w', (arm = true ∧ a.Path w' ∨ arm = false ∧ b.Path w') ∧
          leave g side ∉ w' ∧ (w.filter keep).Sublist w' := by
      clear hw
      rintro arm w (⟨rfl, hw⟩ | ⟨rfl, hw⟩) hne
      · obtain ⟨w', hw', hnot', hsub'⟩ := iha hnda
          (fun ev hev h => hkeep ev hev (by simp only [under, if_neg hne]; simp [h])) hw
        exact ⟨w', .inl ⟨rfl, hw'⟩, hnot', hsub'⟩
      · obtain ⟨w', hw', hnot', hsub'⟩ := ihb hndb
          (fun ev hev h => hkeep ev hev (by simp only [under, if_neg hne]; simp [h])) hw
        exact ⟨w', .inr ⟨rfl, hw'⟩, hnot', hsub'⟩
    by_cases heq : Region.arm g side = .arm i arm
    · obtain ⟨rfl, rfl⟩ := Region.arm.inj heq
      -- nothing in the arm is kept
      have hnone : w.filter keep = [] := by
        rw [List.filter_eq_nil_iff]
        intro ev hev hk
        apply hkeep ev hk
        rcases hw with ⟨rfl, hw⟩ | ⟨rfl, hw⟩
        · simp [under, hw.id_mem ev hev]
        · simp [under, hw.id_mem ev hev]
      obtain ⟨w₀, hw₀⟩ : ∃ w, (!side) = true ∧ a.Path w ∨
          (!side) = false ∧ b.Path w := by
        cases side with
        | false => exact (exists_path a).imp fun w hw => .inl ⟨rfl, hw⟩
        | true => exact (exists_path b).imp fun w hw => .inr ⟨rfl, hw⟩
      obtain ⟨w', hw', hnot', -⟩ := hthrough (!side) w₀ hw₀ (by simp)
      refine ⟨enter g :: (w' ++ leave g (!side) :: u'), ⟨!side, w', u', hw', hu', rfl⟩, ?_, ?_⟩
      · simp [hnot', hnot]
      · rw [List.filter_cons, List.filter_append, hnone, List.nil_append, List.filter_cons, hleave,
          if_neg Bool.false_ne_true]
        have hsub' : (u.filter keep).Sublist (w' ++ leave g (!side) :: u') :=
          (hsub.cons _).trans (List.sublist_append_right _ _)
        split
        · exact hsub'.cons_cons _
        · exact hsub'.cons _
    · obtain ⟨w', hw', hnot', hsub'⟩ := hthrough arm w hw heq
      refine ⟨enter i :: (w' ++ leave i arm :: u'), ⟨arm, w', u', hw', hu', rfl⟩, ?_, ?_⟩
      · simp only [List.mem_cons, List.mem_append, reduceCtorEq, false_or, not_or]
        refine ⟨hnot', fun h => heq ?_, hnot⟩
        rw [(Event.leave.inj h).1, (Event.leave.inj h).2]
      · have hrest : ((leave i arm :: u).filter keep).Sublist (leave i arm :: u') := by
          rw [List.filter_cons]
          split
          · exact hsub.cons_cons _
          · exact hsub.cons _
        rw [List.filter_cons, List.filter_append]
        split
        · exact (hsub'.append hrest).cons_cons _
        · exact (hsub'.append hrest).cons _

/-! ### What must come before an op, and before what is inside -/

theorem mustPrecede_of_notMem {P : ι → Bool} {d : ι} {b : Body ι α} (hd : d ∉ b.ids) :
    b.mustPrecede P d = true := by
  rw [mustPrecede_iff]
  intro t ht p q h
  exact absurd (ht.id_mem (enter d) (by simp [h])) hd

theorem mustPrecede_of_forall {P : ι → Bool} {d : ι} {b : Body ι α} (hd : d ∈ b.ids)
    (h : ∀ i ∈ b.ids, P i = false) : b.mustPrecede P d = false := by
  by_contra hnot
  obtain ⟨t, ht, hmem⟩ := exists_path_enter hd
  obtain ⟨p, q, rfl⟩ := List.append_of_mem hmem
  obtain ⟨i, hi, hmem⟩ := preceded_of_mustPrecede ((Bool.not_eq_false _).mp hnot) ht p q rfl
  exact absurd (h i (ht.id_mem (enter i) (by simp [hmem]))) (by simp [hi])

theorem mem_of_mem_under {d x : ι} {b : Body ι α} (hd : d ∈ b.under (.op x)) : x ∈ b.ids := by
  by_contra h
  rw [under_eq_nil h] at hd
  exact List.not_mem_nil hd

/-- What has to come before an op has to come before all inside it, if it is not inside itself. -/
theorem mustPrecede_under {P : ι → Bool} {d x : ι} {b : Body ι α} (hnd : b.ids.Nodup)
    (hd : d ∈ b.under (.op x)) (hP : ∀ i ∈ b.under (.op x), P i = false) :
    b.mustPrecede P x = b.mustPrecede P d := by
  by_cases hdx : d = x
  · rw [hdx]
  induction b with
  | done => exact absurd hd List.not_mem_nil
  | leaf i op rest ih =>
    rw [ids, List.nodup_cons] at hnd
    have hne : i ≠ x := by
      rintro rfl
      rw [under, if_pos rfl, under_eq_nil hnd.1] at hd
      exact hdx (List.mem_singleton.mp hd)
    have hne' : Region.op x ≠ .op i := fun h => hne (Region.op.inj h).symm
    rw [under, if_neg hne', List.nil_append] at hd hP
    have hid : i ≠ d := fun h => hnd.1 (h ▸ under_subset _ rest hd)
    rw [mustPrecede, mustPrecede, ih hnd.2 hd hP, decide_eq_true hne, decide_eq_true hid]
  | loop i body rest ihb ih =>
    simp only [ids, List.nodup_cons, List.mem_append, not_or, List.nodup_append] at hnd
    obtain ⟨hi, hndb, hndr, hdisj⟩ := hnd
    by_cases hx : i = x
    · subst hx
      rw [under, if_pos rfl, under_eq_nil hi.2, List.append_nil] at hd hP
      have hd := (List.mem_cons.mp hd).resolve_left hdx
      rw [mustPrecede, mustPrecede, hP i List.mem_cons_self, Bool.false_or,
        mustPrecede_of_forall hd fun j hj => hP j (List.mem_cons_of_mem i hj)]
      simp
    have hne : Region.op x ≠ .op i := fun h => hx (Region.op.inj h).symm
    rw [under, if_neg hne] at hd hP
    have hid : i ≠ d := by
      rintro rfl
      rcases List.mem_append.mp hd with hd | hd
      · exact hi.1 (under_subset _ body hd)
      · exact hi.2 (under_subset _ rest hd)
    rw [mustPrecede, mustPrecede, decide_eq_true hx, decide_eq_true hid]
    congr 2
    rcases List.mem_append.mp hd with hd | hd
    · rw [ihb hndb hd fun j hj => hP j (List.mem_append_left _ hj),
        mustPrecede_of_notMem fun h => hdisj _ (mem_of_mem_under hd) _ h rfl,
        mustPrecede_of_notMem fun h => hdisj _ (under_subset _ body hd) _ h rfl]
    · rw [ih hndr hd fun j hj => hP j (List.mem_append_right _ hj),
        mustPrecede_of_notMem (b := body) fun h => hdisj _ h _ (mem_of_mem_under hd) rfl,
        mustPrecede_of_notMem (b := body) fun h => hdisj _ h _ (under_subset _ rest hd) rfl]
  | branch i a b rest iha ihb ih =>
    simp only [ids, List.nodup_cons, List.mem_append, not_or, List.nodup_append] at hnd
    obtain ⟨hi, hnda, ⟨hndb, hndr, hbr⟩, habr⟩ := hnd
    by_cases hx : i = x
    · subst hx
      rw [under, if_pos rfl, under_eq_nil hi.2.2, List.append_nil] at hd hP
      have hd := List.mem_append.mp ((List.mem_cons.mp hd).resolve_left hdx)
      have hfalse : mustPrecede P d a = false ∨ mustPrecede P d b = false := by
        rcases hd with hd | hd
        · exact .inl (mustPrecede_of_forall hd fun j hj => hP j (by simp [hj]))
        · exact .inr (mustPrecede_of_forall hd fun j hj => hP j (by simp [hj]))
      rw [mustPrecede, mustPrecede, hP i List.mem_cons_self, Bool.false_or]
      rcases hfalse with h | h
      · simp [h]
      · simp [h]
    have hne : Region.op x ≠ .op i := fun h => hx (Region.op.inj h).symm
    rw [under, if_neg hne, if_neg (by simp), if_neg (by simp)] at hd hP
    simp only [List.mem_append] at hd hP
    have hid : i ≠ d := by
      rintro rfl
      rcases hd with (hd | hd) | hd
      · exact hi.1 (under_subset _ a hd)
      · exact hi.2.1 (under_subset _ b hd)
      · exact hi.2.2 (under_subset _ rest hd)
    rw [mustPrecede, mustPrecede, decide_eq_true hx, decide_eq_true hid]
    congr 2
    rcases hd with (hd | hd) | hd
    · have hx := mem_of_mem_under hd
      have hd' := under_subset _ a hd
      rw [iha hnda hd fun j hj => hP j (.inl (.inl hj)),
        mustPrecede_of_notMem (b := b) fun h => habr _ hx _ (.inl h) rfl,
        mustPrecede_of_notMem (b := b) fun h => habr _ hd' _ (.inl h) rfl,
        mustPrecede_of_notMem (b := rest) fun h => habr _ hx _ (.inr h) rfl,
        mustPrecede_of_notMem (b := rest) fun h => habr _ hd' _ (.inr h) rfl]
    · have hx := mem_of_mem_under hd
      have hd' := under_subset _ b hd
      rw [ihb hndb hd fun j hj => hP j (.inl (.inr hj)),
        mustPrecede_of_notMem (b := a) fun h => habr _ h _ (.inl hx) rfl,
        mustPrecede_of_notMem (b := a) fun h => habr _ h _ (.inl hd') rfl,
        mustPrecede_of_notMem (b := rest) fun h => hbr _ hx _ h rfl,
        mustPrecede_of_notMem (b := rest) fun h => hbr _ hd' _ h rfl]
    · have hx := mem_of_mem_under hd
      have hd' := under_subset _ rest hd
      rw [ih hndr hd fun j hj => hP j (.inr hj),
        mustPrecede_of_notMem (b := a) fun h => habr _ h _ (.inr hx) rfl,
        mustPrecede_of_notMem (b := a) fun h => habr _ h _ (.inr hd') rfl,
        mustPrecede_of_notMem (b := b) fun h => hbr _ h _ hx rfl,
        mustPrecede_of_notMem (b := b) fun h => hbr _ h _ hd' rfl]

/-- What is inside an op inside `x` is inside `x`. -/
theorem under_mono {x y : ι} {b : Body ι α} (hnd : b.ids.Nodup) (hy : y ∈ b.under (.op x)) :
    b.under (.op y) ⊆ b.under (.op x) := by
  by_cases hyx : y = x
  · rw [hyx]
    exact List.Subset.refl _
  induction b with
  | done => exact absurd hy List.not_mem_nil
  | leaf i op rest ih =>
    rw [ids, List.nodup_cons] at hnd
    have hne : i ≠ x := by
      rintro rfl
      rw [under, if_pos rfl, under_eq_nil hnd.1] at hy
      exact hyx (List.mem_singleton.mp hy)
    have hne' : Region.op x ≠ .op i := fun h => hne (Region.op.inj h).symm
    rw [under, if_neg hne', List.nil_append] at hy
    have hiy : Region.op y ≠ .op i := fun h => hnd.1 (Region.op.inj h ▸ under_subset _ rest hy)
    rw [under, if_neg hiy, List.nil_append, under, if_neg hne', List.nil_append]
    exact ih hnd.2 hy
  | loop i body rest ihb ih =>
    simp only [ids, List.nodup_cons, List.mem_append, not_or, List.nodup_append] at hnd
    obtain ⟨hi, hndb, hndr, hdisj⟩ := hnd
    intro j hj
    rw [under] at hy hj ⊢
    by_cases hx : i = x
    · subst hx
      rw [if_pos rfl, under_eq_nil hi.2, List.append_nil] at hy ⊢
      have hy := (List.mem_cons.mp hy).resolve_left hyx
      rw [if_neg fun h => hyx (Region.op.inj h),
        under_eq_nil (b := rest) fun h => hdisj _ hy _ h rfl, List.append_nil] at hj
      exact List.mem_cons_of_mem i (under_subset _ body hj)
    have hne : Region.op x ≠ .op i := fun h => hx (Region.op.inj h).symm
    rw [if_neg hne] at hy ⊢
    have hiy : Region.op y ≠ .op i := by
      intro h
      obtain rfl := Region.op.inj h
      rcases List.mem_append.mp hy with hy | hy
      · exact hi.1 (under_subset _ body hy)
      · exact hi.2 (under_subset _ rest hy)
    rw [if_neg hiy] at hj
    rcases List.mem_append.mp hy with hy | hy
    · rw [under_eq_nil (b := rest) fun h => hdisj _ (under_subset _ body hy) _ h rfl,
        List.append_nil] at hj
      exact List.mem_append_left _ (ihb hndb hy hj)
    · rw [under_eq_nil (b := body) fun h => hdisj _ h _ (under_subset _ rest hy) rfl,
        List.nil_append] at hj
      exact List.mem_append_right _ (ih hndr hy hj)
  | branch i a b rest iha ihb ih =>
    simp only [ids, List.nodup_cons, List.mem_append, not_or, List.nodup_append] at hnd
    obtain ⟨hi, hnda, ⟨hndb, hndr, hbr⟩, habr⟩ := hnd
    intro j hj
    simp only [under, reduceCtorEq, ↓reduceIte] at hy hj ⊢
    by_cases hx : i = x
    · subst hx
      rw [if_pos rfl, under_eq_nil hi.2.2, List.append_nil] at hy ⊢
      have hy := (List.mem_cons.mp hy).resolve_left hyx
      rw [if_neg fun h => hyx (Region.op.inj h), List.append_assoc] at hj
      apply List.mem_cons_of_mem i
      rcases List.mem_append.mp hj with hj | hj
      · exact List.mem_append_left _ (under_subset _ a hj)
      rcases List.mem_append.mp hj with hj | hj
      · exact List.mem_append_right _ (under_subset _ b hj)
      · exfalso
        rcases List.mem_append.mp hy with hy | hy
        · exact habr _ hy _ (.inr (mem_of_mem_under hj)) rfl
        · exact hbr _ hy _ (mem_of_mem_under hj) rfl
    have hne : Region.op x ≠ .op i := fun h => hx (Region.op.inj h).symm
    rw [if_neg hne] at hy ⊢
    have hiy : Region.op y ≠ .op i := by
      intro h
      obtain rfl := Region.op.inj h
      simp only [List.mem_append] at hy
      rcases hy with (hy | hy) | hy
      · exact hi.1 (under_subset _ a hy)
      · exact hi.2.1 (under_subset _ b hy)
      · exact hi.2.2 (under_subset _ rest hy)
    rw [if_neg hiy] at hj
    simp only [List.mem_append] at hy hj ⊢
    rcases hy with (hy | hy) | hy
    · have hya := under_subset _ a hy
      rcases hj with (hj | hj) | hj
      · exact .inl (.inl (iha hnda hy hj))
      · exact absurd rfl (habr _ hya _ (.inl (mem_of_mem_under hj)))
      · exact absurd rfl (habr _ hya _ (.inr (mem_of_mem_under hj)))
    · have hyb := under_subset _ b hy
      rcases hj with (hj | hj) | hj
      · exact absurd rfl (habr _ (mem_of_mem_under hj) _ (.inl hyb))
      · exact .inl (.inr (ihb hndb hy hj))
      · exact absurd rfl (hbr _ hyb _ (mem_of_mem_under hj))
    · have hyr := under_subset _ rest hy
      rcases hj with (hj | hj) | hj
      · exact absurd rfl (habr _ (mem_of_mem_under hj) _ (.inr hyr))
      · exact absurd rfl (hbr _ (mem_of_mem_under hj) _ hyr)
      · exact .inr (ih hndr hy hj)

end Body

end ControlFlow
