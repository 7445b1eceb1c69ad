import Mathlib.Logic.Relation
import Mathlib.Logic.Function.Basic
import Mathlib.Data.List.Nodup
import Mathlib.Data.List.Pairwise

/-!
# Strongly connected components

Components of a relation numbered in reverse topological order, the reachability of the components
computed from the numbers, and the transitive reduction of the relation between the components.
-/

open Relation (ReflTransGen TransGen)

/-- Each of the two elements reaches the other. -/
def SameComponent {α : Type} (r : α → α → Prop) (a b : α) : Prop :=
  ReflTransGen r a b ∧ ReflTransGen r b a

namespace SameComponent

variable {α : Type} {r : α → α → Prop} {a b c : α}

theorem refl (a : α) : SameComponent r a a := ⟨.refl, .refl⟩

theorem symm (h : SameComponent r a b) : SameComponent r b a := ⟨h.2, h.1⟩

end SameComponent

/-- An element of a third component is on a path. -/
def ImpliedEdge {α : Type} (r : α → α → Prop) (a b : α) : Prop :=
  ∃ m, ReflTransGen r a m ∧ ReflTransGen r m b ∧ ¬SameComponent r a m ∧ ¬SameComponent r m b

/-- The edges that no path through a third component implies. -/
def KeptEdge {α : Type} (r : α → α → Prop) (a b : α) : Prop :=
  r a b ∧ (SameComponent r a b ∨ ¬ImpliedEdge r a b)

/-- What an iterator over the components emits, started from a root: the components of what the root
reaches, each after the ones it reaches. -/
structure EmitsComponents {α : Type} (r : α → α → Prop) (root : α) (components : List (List α)) :
    Prop where
  mem_flatten : ∀ a, a ∈ components.flatten ↔ ReflTransGen r root a
  ne_nil : ∀ c ∈ components, c ≠ []
  mem_iff : ∀ c ∈ components, ∀ a ∈ c, ∀ b, b ∈ c ↔ SameComponent r a b
  nodup : components.flatten.Nodup
  successorsFirst : ∀ before c after, components = before ++ c :: after → ∀ a ∈ c, ∀ b, r a b →
    b ∈ before.flatten ∨ b ∈ c

/-- Components do not overlap. -/
theorem EmitsComponents.eq_of_mem {α : Type} {r : α → α → Prop} {root : α}
    {components : List (List α)} (h : EmitsComponents r root components) {c d : List α}
    (hc : c ∈ components) (hd : d ∈ components) {a : α} (hac : a ∈ c) (had : a ∈ d) : c = d := by
  have : Std.Symm (List.Disjoint (α := α)) := ⟨fun _ _ hdisjoint _ ha hb => hdisjoint hb ha⟩
  by_contra hne
  exact (List.nodup_flatten.mp h.nodup).2.forall hc hd hne hac had

/-- What a component reaches was emitted before, or is in the component. -/
theorem EmitsComponents.mem_of_reaches {α : Type} {r : α → α → Prop} {root : α}
    {components before after : List (List α)} {c : List α}
    (h : EmitsComponents r root components) (hsplit : components = before ++ c :: after) {a b : α}
    (ha : a ∈ c) (hab : ReflTransGen r a b) : b ∈ before.flatten ∨ b ∈ c := by
  have hclosed : ∀ x y, x ∈ (before ++ [c]).flatten → r x y → y ∈ (before ++ [c]).flatten := by
    intro x y hx hxy
    obtain ⟨d, hd, hxd⟩ := List.mem_flatten.mp hx
    obtain ⟨before', after', hsplit'⟩ := List.append_of_mem hd
    have hcomponents : components = before' ++ d :: (after' ++ after) := by
      rw [hsplit, List.append_cons, hsplit', List.append_assoc, List.cons_append]
    rw [hsplit', List.flatten_append, List.flatten_cons]
    rcases h.successorsFirst before' d _ hcomponents x hxd y hxy with hy | hy
    · exact List.mem_append_left _ hy
    · exact List.mem_append_right _ (List.mem_append_left _ hy)
  have hb : b ∈ (before ++ [c]).flatten := by
    induction hab with
    | refl => simp [ha]
    | tail _ hxy ih => exact hclosed _ _ ih hxy
  rwa [List.flatten_append, List.flatten_singleton, List.mem_append] at hb

section Singletons

variable {α : Type} [DecidableEq α] {r : α → α → Prop} {l : List α}

theorem List.idxOf_lt_of_mem_takeWhile {a b : α} (h : b ∈ l.takeWhile (· != a)) :
    l.idxOf b < l.idxOf a := by
  induction l with
  | nil => cases h
  | cons x l ih =>
      by_cases hxa : x = a
      · rw [hxa, List.takeWhile_cons_of_neg (by simp)] at h
        cases h
      · rw [List.takeWhile_cons_of_pos (by simpa using hxa)] at h
        rw [List.idxOf_cons_ne _ hxa]
        by_cases hxb : x = b
        · rw [hxb, List.idxOf_cons_self]
          exact Nat.succ_pos _
        · rw [List.idxOf_cons_ne _ hxb]
          exact Nat.succ_lt_succ (ih ((List.mem_cons.mp h).resolve_left (Ne.symm hxb)))

/-- Elements each after the ones it is related to are components of their own. -/
theorem EmitsComponents.of_takeWhile {root : α} (hnodup : l.Nodup)
    (hfirst : ∀ a ∈ l, ∀ b, r a b → b ∈ l.takeWhile (· != a)) (hroot : root ∈ l)
    (hreach : ∀ a ∈ l, ReflTransGen r root a) : EmitsComponents r root (l.map fun a => [a]) := by
  have hclosed : ∀ {a b}, a ∈ l → ReflTransGen r a b → b ∈ l ∧ l.idxOf b ≤ l.idxOf a := by
    intro a b ha hab
    induction hab with
    | refl => exact ⟨ha, Nat.le_refl _⟩
    | tail _ hbc ih =>
        have hmem := hfirst _ ih.1 _ hbc
        exact ⟨(List.takeWhile_sublist _).subset hmem,
          Nat.le_trans (Nat.le_of_lt (List.idxOf_lt_of_mem_takeWhile hmem)) ih.2⟩
  have hflatten : ∀ m : List α, (m.map fun a => [a]).flatten = m := by
    intro m
    induction m with
    | nil => rfl
    | cons a m ih => rw [List.map_cons, List.flatten_cons, ih, List.singleton_append]
  refine ⟨fun a => ?_, ?_, ?_, ?_, ?_⟩
  · rw [hflatten]
    exact ⟨hreach a, fun h => (hclosed hroot h).1⟩
  · intro c hc
    obtain ⟨a, -, rfl⟩ := List.mem_map.mp hc
    exact List.cons_ne_nil _ _
  · intro c hc a ha b
    obtain ⟨a', hmem, rfl⟩ := List.mem_map.mp hc
    rw [List.mem_singleton] at ha ⊢
    subst ha
    constructor
    · rintro rfl
      exact .refl _
    · rintro ⟨hab, hba⟩
      obtain ⟨hb, hle⟩ := hclosed hmem hab
      have hidx := Nat.le_antisymm hle (hclosed hb hba).2
      exact (List.idxOf_inj hb).mp hidx
  · rwa [hflatten]
  · intro before c after hsplit a ha b hab
    obtain ⟨before', after', rfl, rfl, hafter⟩ := List.map_eq_append_iff.mp hsplit
    obtain ⟨c', after'', rfl, rfl, -⟩ := List.map_eq_cons_iff.mp hafter
    rw [List.mem_singleton] at ha
    subst ha
    have hmem := hfirst a (by simp) b hab
    have hbefore : ∀ x ∈ before', (x != a) = true := by
      intro x hx
      rw [bne_iff_ne]
      exact (List.nodup_append.mp hnodup).2.2 x hx a List.mem_cons_self
    rw [List.takeWhile_append_of_pos hbefore, List.takeWhile_cons_of_neg (by simp),
      List.append_nil] at hmem
    rw [hflatten]
    exact .inl hmem

end Singletons

/-! ## Numbers of components -/

/-- Numbers given to components so far. -/
structure ComponentNumbers (α : Type) where
  numberOf : α → Option Nat
  count : Nat

namespace ComponentNumbers

variable {α : Type} [DecidableEq α]

def empty : ComponentNumbers α := ⟨fun _ => none, 0⟩

/-- Give the next number to a component, unless it has one. -/
def add (n : ComponentNumbers α) (component : List α) : ComponentNumbers α :=
  match component with
  | [] => n
  | front :: rest =>
      if (n.numberOf front).isSome then n
      else ⟨fun a => if a ∈ front :: rest then some n.count else n.numberOf a, n.count + 1⟩

/-- Number what a root reaches, unless it is numbered. -/
def addFrom (components : α → List (List α)) (n : ComponentNumbers α) (root : α) :
    ComponentNumbers α :=
  if (n.numberOf root).isSome then n else (components root).foldl add n

/-- Number what the roots reach. -/
def ofRoots (components : α → List (List α)) (roots : List α) : ComponentNumbers α :=
  roots.foldl (addFrom components) empty

/-- Numbers go down along the relation, and two elements have the same exactly if they are in the same
component. -/
structure Valid (r : α → α → Prop) (n : ComponentNumbers α) : Prop where
  closed : ∀ a b i, n.numberOf a = some i → r a b → ∃ j ≤ i, n.numberOf b = some j
  same : ∀ a b i, n.numberOf a = some i → (n.numberOf b = some i ↔ SameComponent r a b)
  lt_count : ∀ a i, n.numberOf a = some i → i < n.count

variable {r : α → α → Prop} {n : ComponentNumbers α}

omit [DecidableEq α] in
theorem valid_empty : Valid r (empty : ComponentNumbers α) := ⟨nofun, nofun, nofun⟩

theorem add_of_some {front : α} {rest : List α} (h : (n.numberOf front).isSome) :
    n.add (front :: rest) = n := if_pos h

theorem add_of_none {front : α} {rest : List α} (h : n.numberOf front = none) :
    n.add (front :: rest) =
      ⟨fun a => if a ∈ front :: rest then some n.count else n.numberOf a, n.count + 1⟩ :=
  if_neg (by simp [h])

/-- What is numbered stays as it is. -/
theorem numberOf_add {a : α} {i : Nat} (hvalid : Valid r n) {c : List α}
    (hc : ∀ a ∈ c, ∀ b, b ∈ c ↔ SameComponent r a b) (h : n.numberOf a = some i) :
    (n.add c).numberOf a = some i := by
  cases c with
  | nil => exact h
  | cons front rest =>
      cases hfront : n.numberOf front with
      | some j =>
          rw [add_of_some (by simp [hfront])]
          exact h
      | none =>
          rw [add_of_none hfront]
          have hnew : a ∉ front :: rest := by
            intro ha
            have hsame := (hc a ha front).mp List.mem_cons_self
            rw [(hvalid.same a front i h).mpr hsame] at hfront
            cases hfront
          show (if a ∈ front :: rest then _ else _) = _
          rw [if_neg hnew, h]

/-- A component whose successors are numbered can be numbered. -/
theorem valid_add (hvalid : Valid r n) {c : List α}
    (hc : ∀ a ∈ c, ∀ b, b ∈ c ↔ SameComponent r a b)
    (hsucc : ∀ a ∈ c, ∀ b, r a b → (n.numberOf b).isSome ∨ b ∈ c) :
    Valid r (n.add c) ∧ ∀ a ∈ c, ((n.add c).numberOf a).isSome := by
  cases c with
  | nil => exact ⟨hvalid, nofun⟩
  | cons front rest =>
      cases hfront : n.numberOf front with
      | some j =>
          rw [add_of_some (by simp [hfront])]
          refine ⟨hvalid, fun a ha => ?_⟩
          rw [(hvalid.same front a j hfront).mpr ((hc front List.mem_cons_self a).mp ha)]
          rfl
      | none =>
          rw [add_of_none hfront]
          generalize hcomp : front :: rest = c at hc hsucc
          have hmem : front ∈ c := hcomp ▸ List.mem_cons_self
          -- nothing of the component has a number yet
          have hnone : ∀ a ∈ c, n.numberOf a = none := by
            intro a ha
            cases hnum : n.numberOf a with
            | none => rfl
            | some i =>
                rw [(hvalid.same a front i hnum).mpr ((hc a ha front).mp hmem)] at hfront
                cases hfront
          refine ⟨⟨?_, ?_, ?_⟩, fun a ha => ?_⟩
          · intro a b i ha hab
            by_cases hac : a ∈ c
            · simp only [hac, if_true] at ha
              cases ha
              rcases hsucc a hac b hab with hb | hb
              · obtain ⟨j, hj⟩ := Option.isSome_iff_exists.mp hb
                have hbc : b ∉ c := by
                  intro hbc
                  rw [hnone b hbc] at hj
                  cases hj
                refine ⟨j, Nat.le_of_lt (hvalid.lt_count b j hj), ?_⟩
                simp only [hbc, if_false, hj]
              · refine ⟨n.count, Nat.le_refl _, ?_⟩
                simp only [hb, if_true]
            · simp only [hac, if_false] at ha
              obtain ⟨j, hj, hb⟩ := hvalid.closed a b i ha hab
              have hbc : b ∉ c := by
                intro hbc
                rw [hnone b hbc] at hb
                cases hb
              refine ⟨j, hj, ?_⟩
              simp only [hbc, if_false, hb]
          · intro a b i ha
            by_cases hac : a ∈ c
            · simp only [hac, if_true] at ha
              cases ha
              rw [← hc a hac b]
              by_cases hbc : b ∈ c
              · simp only [hbc, if_true]
              · simp only [hbc, if_false, iff_false]
                intro hb
                exact Nat.lt_irrefl _ (hvalid.lt_count b _ hb)
            · simp only [hac, if_false] at ha
              rw [← hvalid.same a b i ha]
              by_cases hbc : b ∈ c
              · have hne : n.count ≠ i := Nat.ne_of_gt (hvalid.lt_count a i ha)
                simp [hbc, hne, hnone b hbc]
              · simp only [hbc, if_false]
          · intro a i ha
            by_cases hac : a ∈ c
            · simp only [hac, if_true] at ha
              cases ha
              exact Nat.lt_succ_self _
            · simp only [hac, if_false] at ha
              exact Nat.lt_succ_of_lt (hvalid.lt_count a i ha)
          · simp only [ha, if_true, Option.isSome_some]

/-- Numbers given stay given. -/
def Extends (n n' : ComponentNumbers α) : Prop :=
  ∀ a i, n.numberOf a = some i → n'.numberOf a = some i

omit [DecidableEq α] in
theorem Extends.isSome {n n' : ComponentNumbers α} (h : Extends n n') {a : α}
    (ha : (n.numberOf a).isSome) : (n'.numberOf a).isSome := by
  obtain ⟨i, hi⟩ := Option.isSome_iff_exists.mp ha
  rw [h a i hi]
  rfl

/-- Components emitted in reverse topological order are all numbered. -/
theorem valid_foldl_add {components : List (List α)} (hvalid : Valid r n)
    (hcomp : ∀ c ∈ components, ∀ a ∈ c, ∀ b, b ∈ c ↔ SameComponent r a b)
    (hsucc : ∀ before c after, components = before ++ c :: after →
      ∀ a ∈ c, ∀ b, r a b → (n.numberOf b).isSome ∨ b ∈ before.flatten ∨ b ∈ c) :
    Valid r (components.foldl add n) ∧ Extends n (components.foldl add n) ∧
      ∀ a ∈ components.flatten, ((components.foldl add n).numberOf a).isSome := by
  induction components generalizing n with
  | nil => exact ⟨hvalid, fun _ _ h => h, nofun⟩
  | cons c components ih =>
      have hc := hcomp c List.mem_cons_self
      have hready : ∀ a ∈ c, ∀ b, r a b → (n.numberOf b).isSome ∨ b ∈ c := by
        intro a ha b hab
        rcases hsucc [] c components rfl a ha b hab with hb | hb | hb
        · exact .inl hb
        · cases hb
        · exact .inr hb
      obtain ⟨hvalid', hnumbered⟩ := valid_add hvalid hc hready
      have hextends : Extends n (n.add c) := fun a i h => numberOf_add hvalid hc h
      have hsucc' : ∀ before d after, components = before ++ d :: after → ∀ a ∈ d, ∀ b, r a b →
          ((n.add c).numberOf b).isSome ∨ b ∈ before.flatten ∨ b ∈ d := by
        intro before d after hsplit a ha b hab
        rcases hsucc (c :: before) d after (by rw [hsplit, List.cons_append]) a ha b hab with
          hb | hb | hb
        · exact .inl (hextends.isSome hb)
        · rcases List.mem_append.mp (List.flatten_cons ▸ hb) with hb | hb
          · exact .inl (hnumbered b hb)
          · exact .inr (.inl hb)
        · exact .inr (.inr hb)
      obtain ⟨hall, hkept, hrest⟩ :=
        ih hvalid' (fun d hd => hcomp d (List.mem_cons_of_mem _ hd)) hsucc'
      refine ⟨hall, fun a i h => hkept a i (hextends a i h), fun a ha => ?_⟩
      rcases List.mem_append.mp (List.flatten_cons ▸ ha) with ha | ha
      · exact hkept.isSome (hnumbered a ha)
      · exact hrest a ha

/-- From each root, what it reaches is numbered. -/
theorem valid_addFrom {components : α → List (List α)} {root : α} (hvalid : Valid r n)
    (hemits : EmitsComponents r root (components root)) :
    Valid r (addFrom components n root) ∧ Extends n (addFrom components n root) ∧
      ((addFrom components n root).numberOf root).isSome := by
  unfold addFrom
  split
  · next hroot => exact ⟨hvalid, fun _ _ h => h, hroot⟩
  · obtain ⟨hall, hkept, hnumbered⟩ := valid_foldl_add hvalid hemits.mem_iff
      fun before c after hsplit a ha b hab =>
        .inr (hemits.successorsFirst before c after hsplit a ha b hab)
    exact ⟨hall, hkept, hnumbered root ((hemits.mem_flatten root).mpr .refl)⟩

/-- **All roots are numbered**, whatever was reached from which of them. -/
theorem valid_ofRoots {components : α → List (List α)} {roots : List α}
    (hemits : ∀ root ∈ roots, EmitsComponents r root (components root)) :
    Valid r (ofRoots components roots) ∧
      ∀ root ∈ roots, ((ofRoots components roots).numberOf root).isSome := by
  have hfold : ∀ (l : List α) (m : ComponentNumbers α), (∀ root ∈ l, root ∈ roots) → Valid r m →
      Valid r (l.foldl (addFrom components) m) ∧ Extends m (l.foldl (addFrom components) m) ∧
        ∀ root ∈ l, ((l.foldl (addFrom components) m).numberOf root).isSome := by
    intro l
    induction l with
    | nil => exact fun m _ hm => ⟨hm, fun _ _ h => h, nofun⟩
    | cons root l ih =>
        intro m hl hm
        obtain ⟨hm', hextends, hroot⟩ := valid_addFrom hm (hemits root (hl root List.mem_cons_self))
        obtain ⟨hall, hkept, hrest⟩ := ih _ (fun a ha => hl a (List.mem_cons_of_mem _ ha)) hm'
        refine ⟨hall, fun a i h => hkept a i (hextends a i h), fun a ha => ?_⟩
        rcases List.mem_cons.mp ha with rfl | ha
        · exact hkept.isSome hroot
        · exact hrest a ha
  obtain ⟨hall, -, hroots⟩ := hfold roots empty (fun _ h => h) valid_empty
  exact ⟨hall, hroots⟩

end ComponentNumbers

/-! ## The order of the numbers -/

/-- A rank goes down along the relation, and stays the same only within a component. -/
structure ComponentRank {α : Type} (r : α → α → Prop) (rank : α → Nat) : Prop where
  le : ∀ a b, r a b → rank b ≤ rank a
  same : ∀ a b, ReflTransGen r a b → rank a = rank b → ReflTransGen r b a

namespace ComponentRank

variable {α : Type} {r : α → α → Prop} {rank : α → Nat}

theorem le_of_reaches (h : ComponentRank r rank) {a b : α} (hab : ReflTransGen r a b) :
    rank b ≤ rank a := by
  induction hab with
  | refl => exact Nat.le_refl _
  | tail _ hbc ih => exact Nat.le_trans (h.le _ _ hbc) ih

theorem eq_iff (h : ComponentRank r rank) {a b : α} (hab : ReflTransGen r a b) :
    rank a = rank b ↔ SameComponent r a b := by
  constructor
  · intro heq
    exact ⟨hab, h.same a b hab heq⟩
  · intro hsame
    exact Nat.le_antisymm (h.le_of_reaches hsame.2) (h.le_of_reaches hsame.1)

/-- The numbers of the components are such a rank. -/
theorem of_valid [DecidableEq α] {n : ComponentNumbers α} (h : n.Valid r)
    (hnumbered : ∀ a b, r a b → (n.numberOf a).isSome) :
    ComponentRank r fun a => (n.numberOf a).getD 0 := by
  constructor
  · intro a b hab
    obtain ⟨i, hi⟩ := Option.isSome_iff_exists.mp (hnumbered a b hab)
    obtain ⟨j, hj, hb⟩ := h.closed a b i hi hab
    rw [hi, hb]
    exact hj
  · intro a b hab heq
    cases hnum : n.numberOf a with
    | none =>
        rcases ReflTransGen.cases_head hab with rfl | ⟨c, hac, -⟩
        · exact .refl
        · have hc := hnumbered a c hac
          rw [hnum] at hc
          cases hc
    | some i =>
        obtain ⟨j, hj, hb⟩ : ∃ j ≤ i, n.numberOf b = some j := by
          clear heq
          induction hab with
          | refl => exact ⟨i, Nat.le_refl _, hnum⟩
          | tail _ hbc ih =>
              obtain ⟨j, hj, hb⟩ := ih
              obtain ⟨k, hk, hc⟩ := h.closed _ _ j hb hbc
              exact ⟨k, Nat.le_trans hk hj, hc⟩
        simp only [hnum, hb, Option.getD_some] at heq
        subst heq
        exact ((h.same a b i hnum).mp hb).2

/-! ### Reduction -/

/-- The reduction reaches what the relation reaches. -/
theorem reaches_keptEdge (h : ComponentRank r rank) {a b : α} :
    ReflTransGen (KeptEdge r) a b ↔ ReflTransGen r a b := by
  classical
  -- an implied edge has a path whose edges all span fewer ranks
  have hedge : ∀ n a b, r a b → rank a - rank b ≤ n → ReflTransGen (KeptEdge r) a b := by
    intro n
    induction n using Nat.strongRecOn with
    | _ n ih =>
        intro a b hab hn
        by_cases hkept : SameComponent r a b ∨ ¬ImpliedEdge r a b
        · exact .single ⟨hab, hkept⟩
        · push Not at hkept
          obtain ⟨-, m, ham, hmb, ham', hmb'⟩ := hkept
          have hlt : rank m < rank a :=
            Nat.lt_of_le_of_ne (h.le_of_reaches ham) fun heq => ham' ((h.eq_iff ham).mp heq.symm)
          have hlt' : rank b < rank m :=
            Nat.lt_of_le_of_ne (h.le_of_reaches hmb) fun heq => hmb' ((h.eq_iff hmb).mp heq.symm)
          have hpath : ∀ {x y}, ReflTransGen r x y → rank x ≤ rank a → rank b ≤ rank y →
              rank x - rank y < n → ReflTransGen (KeptEdge r) x y := by
            intro x y hxy hx hy hlt
            induction hxy with
            | refl => exact .refl
            | @tail y z hxy hyz ihxy =>
                have hle := h.le y z hyz
                have hle' := h.le_of_reaches hxy
                exact (ihxy (by omega) (by omega)).trans (ih _ hlt y z hyz (by omega))
          exact (hpath ham (Nat.le_refl _) (by omega) (by omega)).trans
            (hpath hmb (by omega) (Nat.le_refl _) (by omega))
  constructor
  · intro hab
    exact ReflTransGen.mono (fun x y (hxy : KeptEdge r x y) => hxy.1) a b hab
  · intro hab
    induction hab with
    | refl => exact .refl
    | tail _ hbc ih => exact ih.trans (hedge _ _ _ hbc (Nat.le_refl _))

theorem sameComponent_keptEdge (h : ComponentRank r rank) {a b : α} :
    SameComponent (KeptEdge r) a b ↔ SameComponent r a b :=
  and_congr h.reaches_keptEdge h.reaches_keptEdge

theorem impliedEdge_keptEdge (h : ComponentRank r rank) {a b : α} :
    ImpliedEdge (KeptEdge r) a b ↔ ImpliedEdge r a b := by
  simp only [ImpliedEdge, h.reaches_keptEdge, h.sameComponent_keptEdge]

/-- **Reducing twice** is reducing once. -/
theorem keptEdge_keptEdge (h : ComponentRank r rank) {a b : α} :
    KeptEdge (KeptEdge r) a b ↔ KeptEdge r a b := by
  show KeptEdge r a b ∧ (SameComponent (KeptEdge r) a b ∨ ¬ImpliedEdge (KeptEdge r) a b) ↔ _
  rw [h.sameComponent_keptEdge, h.impliedEdge_keptEdge, and_iff_left_iff_imp]
  exact fun hkept => hkept.2

end ComponentRank

/-! ## Reachability of the numbers -/

/-- What is reachable from each number, and what is reachable from one of its successors. -/
structure NumberReachability where
  implied : Nat → Nat → Bool
  reachable : Nat → Nat → Bool

namespace NumberReachability

/-- Visit a number whose successors were visited. -/
def visit (count : Nat) (successors : Nat → Nat → Bool) (t : NumberReachability) (k : Nat) :
    NumberReachability :=
  let implied := fun target => (List.range count).any fun s => successors k s && t.reachable s target
  ⟨Function.update t.implied k implied,
    Function.update t.reachable k fun target => implied target || successors k target⟩

theorem visit_reachable (count : Nat) (successors : Nat → Nat → Bool) (t : NumberReachability)
    (k : Nat) : (t.visit count successors k).reachable k = fun target =>
      ((List.range count).any fun s => successors k s && t.reachable s target) ||
        successors k target := Function.update_self ..

theorem visit_implied (count : Nat) (successors : Nat → Nat → Bool) (t : NumberReachability)
    (k : Nat) : (t.visit count successors k).implied k = fun target =>
      (List.range count).any fun s => successors k s && t.reachable s target :=
  Function.update_self ..

theorem visit_reachable_of_ne (count : Nat) (successors : Nat → Nat → Bool)
    (t : NumberReachability) {k a : Nat} (h : a ≠ k) :
    (t.visit count successors k).reachable a = t.reachable a := Function.update_of_ne h ..

theorem visit_implied_of_ne (count : Nat) (successors : Nat → Nat → Bool)
    (t : NumberReachability) {k a : Nat} (h : a ≠ k) :
    (t.visit count successors k).implied a = t.implied a := Function.update_of_ne h ..

/-- Visit all numbers. -/
def compute (count : Nat) (successors : Nat → Nat → Bool) : NumberReachability :=
  (List.range count).foldl (visit count successors) ⟨fun _ _ => false, fun _ _ => false⟩

/-- The tables are right for the numbers below `k`. -/
structure RightBelow (successors : Nat → Nat → Bool) (k : Nat) (t : NumberReachability) : Prop where
  reachable : ∀ a < k, ∀ b, t.reachable a b ↔ TransGen (fun x y => successors x y) a b
  implied : ∀ a < k, ∀ b, t.implied a b ↔
    ∃ s, successors a s ∧ TransGen (fun x y => successors x y) s b

theorem RightBelow.visit {count k : Nat} {successors : Nat → Nat → Bool} {t : NumberReachability}
    (h : RightBelow successors k t) (hlt : ∀ a b, successors a b → b < a) (hk : k < count) :
    RightBelow successors (k + 1) (t.visit count successors k) := by
  have himplied : ∀ b, ((List.range count).any fun s => successors k s && t.reachable s b) ↔
      ∃ s, successors k s ∧ TransGen (fun x y => successors x y) s b := by
    intro b
    rw [List.any_eq_true]
    constructor
    · rintro ⟨s, -, hs⟩
      rw [Bool.and_eq_true] at hs
      exact ⟨s, hs.1, (h.reachable s (hlt k s hs.1) b).mp hs.2⟩
    · rintro ⟨s, hs, hsb⟩
      have hsk := hlt k s hs
      refine ⟨s, List.mem_range.mpr (by omega), ?_⟩
      rw [hs, (h.reachable s hsk b).mpr hsb]
      rfl
  constructor
  · intro a ha b
    by_cases hak : a = k
    · subst hak
      rw [visit_reachable, Bool.or_eq_true, himplied, TransGen.head'_iff]
      constructor
      · rintro (⟨s, hs, hsb⟩ | hab)
        · exact ⟨s, hs, hsb.to_reflTransGen⟩
        · exact ⟨b, hab, .refl⟩
      · rintro ⟨s, hs, hsb⟩
        rcases Relation.reflTransGen_iff_eq_or_transGen.mp hsb with rfl | hsb
        · exact .inr hs
        · exact .inl ⟨s, hs, hsb⟩
    · rw [visit_reachable_of_ne _ _ _ hak]
      exact h.reachable a (by omega) b
  · intro a ha b
    by_cases hak : a = k
    · subst hak
      rw [visit_implied]
      exact himplied b
    · rw [visit_implied_of_ne _ _ _ hak]
      exact h.implied a (by omega) b

theorem rightBelow_compute {count : Nat} {successors : Nat → Nat → Bool}
    (hlt : ∀ a b, successors a b → b < a) :
    RightBelow successors count (compute count successors) := by
  have hprefix : ∀ k ≤ count, RightBelow successors k
      ((List.range k).foldl (visit count successors) ⟨fun _ _ => false, fun _ _ => false⟩) := by
    intro k
    induction k with
    | zero => exact fun _ => ⟨nofun, nofun⟩
    | succ k ih =>
        intro hk
        rw [List.range_succ, List.foldl_append]
        exact (ih (by omega)).visit hlt hk
  exact hprefix count (Nat.le_refl _)

end NumberReachability

/-! ## The numbers of the relation -/

/-- A table has the edges between different ranks. -/
structure NumbersEdges {α : Type} (r : α → α → Prop) (rank : α → Nat) (nodes : α → Prop)
    (successors : Nat → Nat → Bool) : Prop extends ComponentRank r rank where
  isNode : ∀ a b, r a b → nodes a ∧ nodes b
  component : ∀ a b, nodes a → nodes b → rank a = rank b → SameComponent r a b
  successors_iff : ∀ i j, successors i j ↔ i ≠ j ∧ ∃ a b, r a b ∧ rank a = i ∧ rank b = j

namespace NumbersEdges

variable {α : Type} {r : α → α → Prop} {rank : α → Nat} {nodes : α → Prop}
  {successors : Nat → Nat → Bool}

theorem lt (h : NumbersEdges r rank nodes successors) {i j : Nat} (hij : successors i j) : j < i := by
  obtain ⟨hne, a, b, hab, rfl, rfl⟩ := (h.successors_iff i j).mp hij
  exact Nat.lt_of_le_of_ne (h.le a b hab) hne.symm

theorem nodes_of_reaches (h : NumbersEdges r rank nodes successors) {a b : α} (ha : nodes a)
    (hab : ReflTransGen r a b) : nodes b := by
  cases hab with
  | refl => exact ha
  | tail _ hcb => exact (h.isNode _ _ hcb).2

/-- Numbers are reachable from each other as the elements of different components are. -/
theorem transGen_iff (h : NumbersEdges r rank nodes successors) {a b : α} (ha : nodes a)
    (hb : nodes b) : TransGen (fun i j => successors i j) (rank a) (rank b) ↔
      ReflTransGen r a b ∧ rank a ≠ rank b := by
  constructor
  · intro hab
    have hpath : ∀ {j}, TransGen (fun i j => successors i j) (rank a) j →
        j < rank a ∧ ∃ c, nodes c ∧ rank c = j ∧ ReflTransGen r a c := by
      intro j hj
      induction hj with
      | single hj =>
          obtain ⟨-, x, y, hxy, hx, hy⟩ := (h.successors_iff _ _).mp hj
          have hax := (h.component a x ha (h.isNode x y hxy).1 hx.symm).1
          exact ⟨h.lt hj, y, (h.isNode x y hxy).2, hy, hax.tail hxy⟩
      | tail _ hj ih =>
          obtain ⟨hlt, c, hc, hrank, hac⟩ := ih
          obtain ⟨-, x, y, hxy, hx, hy⟩ := (h.successors_iff _ _).mp hj
          have hcx := (h.component c x hc (h.isNode x y hxy).1 (hrank.trans hx.symm)).1
          exact ⟨Nat.lt_trans (h.lt hj) hlt, y, (h.isNode x y hxy).2, hy, (hac.trans hcx).tail hxy⟩
    obtain ⟨hlt, c, hc, hrank, hac⟩ := hpath hab
    exact ⟨hac.trans (h.component c b hc hb hrank).1, Nat.ne_of_gt hlt⟩
  · rintro ⟨hab, hne⟩
    clear hb
    induction hab with
    | refl => exact absurd rfl hne
    | @tail c b hac hcb ih =>
        by_cases hcb' : rank c = rank b
        · rw [← hcb']
          exact ih (hcb'.symm ▸ hne)
        · have hedge : successors (rank c) (rank b) :=
            (h.successors_iff _ _).mpr ⟨hcb', c, b, hcb, rfl, rfl⟩
          by_cases hca : rank a = rank c
          · rw [hca]
            exact .single hedge
          · exact (ih hca).tail hedge

/-- A number reachable from a successor is that of an edge that a third component implies. -/
theorem implied_iff (h : NumbersEdges r rank nodes successors) {a b : α} (ha : nodes a)
    (hb : nodes b) : (∃ s, successors (rank a) s ∧ TransGen (fun i j => successors i j) s (rank b)) ↔
      ImpliedEdge r a b := by
  constructor
  · rintro ⟨s, hs, hsb⟩
    obtain ⟨hne, x, y, hxy, hx, rfl⟩ := (h.successors_iff _ _).mp hs
    obtain ⟨hxnode, hy⟩ := h.isNode x y hxy
    have hay := (h.component a x ha hxnode hx.symm).1.tail hxy
    obtain ⟨hyb, hneb⟩ := (h.transGen_iff hy hb).mp hsb
    exact ⟨y, hay, hyb, fun hsame => hne ((h.eq_iff hay).mpr hsame),
      fun hsame => hneb ((h.eq_iff hyb).mpr hsame)⟩
  · rintro ⟨m, ham, hmb, ham', hmb'⟩
    have hm := h.nodes_of_reaches ha ham
    have hfirst := (h.transGen_iff ha hm).mpr ⟨ham, fun heq => ham' ((h.eq_iff ham).mp heq)⟩
    have hsecond := (h.transGen_iff hm hb).mpr ⟨hmb, fun heq => hmb' ((h.eq_iff hmb).mp heq)⟩
    obtain ⟨s, hs, hsm⟩ := TransGen.head'_iff.mp hfirst
    exact ⟨s, hs, TransGen.trans_right hsm hsecond⟩

end NumbersEdges
