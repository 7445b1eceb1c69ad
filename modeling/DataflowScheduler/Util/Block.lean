import Mathlib.Tactic.Common

/-!
# Blocks of operations

A block is run operation by operation: each reads values bound before it and binds new ones. What is
said about a block here is what stays the same when operations are taken out of it.
-/

namespace Block

/-- The values an operation reads and the values it binds. -/
class Shape (O : Type) where
  reads : O → List Nat
  defs : O → List Nat

open Shape

abbrev Env (V : Type) := Nat → V

/-- Bind a list of values. What has no word in `ys` is bound to the default. -/
def Env.bind {V : Type} [Inhabited V] (env : Env V) (vs : List Nat) (ys : List V) : Env V :=
  fun v => if v ∈ vs then ys.getD (vs.idxOf v) default else env v

section Bind

variable {V : Type} [Inhabited V] {env : Env V} {vs : List Nat} {ys : List V} {v : Nat}

theorem Env.bind_of_mem (h : v ∈ vs) : env.bind vs ys v = ys.getD (vs.idxOf v) default := if_pos h

theorem Env.bind_of_notMem (h : v ∉ vs) : env.bind vs ys v = env v := if_neg h

/-- Binding the same words keeps environments equal where they were. -/
theorem Env.bind_congr {env' : Env V} (h : v ∉ vs → env v = env' v) :
    env.bind vs ys v = env'.bind vs ys v := by
  by_cases hv : v ∈ vs
  · rw [Env.bind_of_mem hv, Env.bind_of_mem hv]
  · rw [Env.bind_of_notMem hv, Env.bind_of_notMem hv, h hv]

end Bind

/-! ## Scopes -/

section Scope

variable {O : Type} [Shape O]

/-- Every value is bound once, and read only after it is. `Γ` is bound before the block. -/
def Scoped : List Nat → List O → Prop
  | _, [] => True
  | Γ, o :: ops =>
      (∀ v ∈ reads o, v ∈ Γ) ∧ (∀ v ∈ defs o, v ∉ Γ) ∧ (defs o).Nodup ∧ Scoped (defs o ++ Γ) ops

instance Scoped.decidable : ∀ (Γ : List Nat) (ops : List O), Decidable (Scoped Γ ops)
  | _, [] => isTrue trivial
  | Γ, o :: ops =>
      have := Scoped.decidable (defs o ++ Γ) ops
      inferInstanceAs (Decidable (_ ∧ _ ∧ _ ∧ _))

namespace Scoped

variable {Γ : List Nat} {ops : List O} {o d d' : O} {v : Nat}

theorem def_notMem (h : Scoped Γ ops) (hd : d ∈ ops) (hv : v ∈ defs d) : v ∉ Γ := by
  induction ops generalizing Γ with
  | nil => cases hd
  | cons o ops ih =>
    obtain ⟨-, hdefs, -, hrest⟩ := h
    rcases List.mem_cons.1 hd with rfl | hd
    · exact hdefs v hv
    · exact fun hmem => ih hrest hd (List.mem_append_right _ hmem)

/-- What is read is bound before the block or by an operation of it. -/
theorem reads_bound (h : Scoped Γ ops) (ho : o ∈ ops) (hv : v ∈ reads o) :
    v ∈ Γ ∨ ∃ d ∈ ops, v ∈ defs d := by
  induction ops generalizing Γ with
  | nil => cases ho
  | cons a ops ih =>
    obtain ⟨hreads, -, -, hrest⟩ := h
    rcases List.mem_cons.1 ho with rfl | ho
    · exact Or.inl (hreads v hv)
    rcases ih hrest ho with hmem | ⟨d, hd, hvd⟩
    · rcases List.mem_append.1 hmem with hva | hmem
      · exact Or.inr ⟨a, List.mem_cons_self, hva⟩
      · exact Or.inl hmem
    · exact Or.inr ⟨d, List.mem_cons_of_mem _ hd, hvd⟩

theorem def_unique (h : Scoped Γ ops) (hd : d ∈ ops) (hd' : d' ∈ ops) (hv : v ∈ defs d)
    (hv' : v ∈ defs d') : d = d' := by
  induction ops generalizing Γ with
  | nil => cases hd
  | cons a ops ih =>
    obtain ⟨-, -, -, hrest⟩ := h
    rcases List.mem_cons.1 hd with hda | hin <;> rcases List.mem_cons.1 hd' with hda' | hin'
    · rw [hda, hda']
    · subst hda
      exact absurd (List.mem_append_left _ hv) (def_notMem hrest hin' hv')
    · subst hda'
      exact absurd (List.mem_append_left _ hv') (def_notMem hrest hin hv)
    · exact ih hrest hin hin'

/-- No operation reads what it binds itself. -/
theorem notMem_self (h : Scoped Γ ops) (ho : o ∈ ops) (hv : v ∈ reads o) : v ∉ defs o := by
  induction ops generalizing Γ with
  | nil => cases ho
  | cons a ops ih =>
    obtain ⟨hreads, hdefs, -, hrest⟩ := h
    rcases List.mem_cons.1 ho with rfl | ho
    · exact fun hmem => hdefs v hmem (hreads v hv)
    · exact ih hrest ho

/-- No operation reads what a later one binds. -/
theorem pairwise (h : Scoped Γ ops) : ops.Pairwise fun x y => ∀ v ∈ reads x, v ∉ defs y := by
  induction ops generalizing Γ with
  | nil => exact List.Pairwise.nil
  | cons a ops ih =>
    obtain ⟨hreads, -, -, hrest⟩ := h
    refine List.Pairwise.cons ?_ (ih hrest)
    intro y hy v hv hmem
    exact def_notMem hrest hy hmem (List.mem_append_right _ (hreads v hv))

end Scoped

end Scope

/-! ## Runs -/

/-- What an operation gives: the words it binds, the world after it, and what is seen of it. -/
structure Outcome (V W E : Type) where
  results : List V
  world : W
  event : E

/-- What the operations do. An operation depends on the values it reads and on the world. -/
structure Machine (O V W E : Type) [Shape O] where
  step : O → Env V → W → Outcome V W E
  step_congr : ∀ (o : O) (env env' : Env V) (w : W), (∀ v ∈ reads o, env v = env' v) →
    step o env w = step o env' w

section Run

variable {O V W E : Type} [Shape O] [Inhabited V]

/-- What is seen of the operations in turn, and the world after the last one. -/
def Machine.run (M : Machine O V W E) : List O → Env V → W → List E × W
  | [], _, w => ([], w)
  | o :: ops, env, w =>
      let s := M.step o env w
      let rest := M.run ops (env.bind (defs o) s.results) s.world
      (s.event :: rest.1, rest.2)

variable {M : Machine O V W E}

theorem Machine.run_cons (o : O) (ops : List O) (env : Env V) (w : W) :
    M.run (o :: ops) env w =
      ((M.step o env w).event ::
        (M.run ops (env.bind (defs o) (M.step o env w).results) (M.step o env w).world).1,
      (M.run ops (env.bind (defs o) (M.step o env w).results) (M.step o env w).world).2) := rfl

/-- A block after another is run in the environment and the world that the first one leaves. -/
theorem Machine.exists_run_append (ops later : List O) (env : Env V) (w : W) :
    ∃ env', (M.run (ops ++ later) env w).1 =
      (M.run ops env w).1 ++ (M.run later env' (M.run ops env w).2).1 := by
  induction ops generalizing env w with
  | nil => exact ⟨env, rfl⟩
  | cons o ops ih =>
    obtain ⟨env', h⟩ := ih (env.bind (defs o) (M.step o env w).results) (M.step o env w).world
    refine ⟨env', ?_⟩
    rw [List.cons_append, Machine.run_cons, Machine.run_cons, h]
    rfl

/-- The operations that stay read values of `K` and what operations that stay bind. -/
def ReadsKept (keep : O → Bool) (K : List Nat) (ops : List O) : Prop :=
  ∀ o ∈ ops, keep o = true → ∀ v ∈ reads o, v ∈ K ∨ ∃ d ∈ ops, keep d = true ∧ v ∈ defs d

namespace ReadsKept

variable {keep : O → Bool} {Γ K : List Nat} {o : O} {ops : List O}

theorem head (h : ReadsKept keep K (o :: ops)) (hscope : Scoped Γ (o :: ops)) (ho : keep o = true) :
    ∀ v ∈ reads o, v ∈ K := by
  intro v hv
  refine (h o List.mem_cons_self ho v hv).resolve_right ?_
  rintro ⟨d, hd, -, hvd⟩
  exact hscope.def_notMem hd hvd (hscope.1 v hv)

theorem tail_of_keep (h : ReadsKept keep K (o :: ops)) : ReadsKept keep (defs o ++ K) ops := by
  intro a ha hkeep v hv
  rcases h a (List.mem_cons_of_mem _ ha) hkeep v hv with hK | ⟨d, hd, hkd, hvd⟩
  · exact Or.inl (List.mem_append_right _ hK)
  rcases List.mem_cons.1 hd with rfl | hd
  · exact Or.inl (List.mem_append_left _ hvd)
  · exact Or.inr ⟨d, hd, hkd, hvd⟩

theorem tail_of_drop (h : ReadsKept keep K (o :: ops)) (ho : keep o = false) :
    ReadsKept keep K ops := by
  intro a ha hkeep v hv
  rcases h a (List.mem_cons_of_mem _ ha) hkeep v hv with hK | ⟨d, hd, hkd, hvd⟩
  · exact Or.inl hK
  rcases List.mem_cons.1 hd with rfl | hd
  · rw [ho] at hkd
    cases hkd
  · exact Or.inr ⟨d, hd, hkd, hvd⟩

end ReadsKept

/-- Operations can be taken out of a block when they leave the world alone and those that stay read
nothing of them. Of what is bound before the block only `K` has to stay. -/
theorem Machine.run_filter {keep : O → Bool} {kept : E → Bool} {Γ K : List Nat} {ops : List O}
    (hkept : ∀ o ∈ ops, ∀ env w, kept (M.step o env w).event = keep o)
    (hworld : ∀ o ∈ ops, keep o = false → ∀ env w, (M.step o env w).world = w)
    (hscope : Scoped Γ ops) (hK : K ⊆ Γ) (hreads : ReadsKept keep K ops)
    {env env' : Env V} (hagree : ∀ v ∈ K, env v = env' v) (w : W) :
    M.run (ops.filter keep) env' w = ((M.run ops env w).1.filter kept, (M.run ops env w).2) := by
  induction ops generalizing Γ K env env' w with
  | nil => rfl
  | cons o ops ih =>
    rw [List.forall_mem_cons] at hkept hworld
    obtain ⟨-, hnew, -, hrest⟩ := id hscope
    cases ho : keep o with
    | true =>
      have hstep : M.step o env' w = M.step o env w :=
        M.step_congr o env' env w fun v hv => (hagree v (hreads.head hscope ho v hv)).symm
      have hK' : defs o ++ K ⊆ defs o ++ Γ := List.append_subset.2
        ⟨List.subset_append_left _ _, fun v hv => List.mem_append_right _ (hK hv)⟩
      have hagree' : ∀ v ∈ defs o ++ K, env.bind (defs o) (M.step o env w).results v =
          env'.bind (defs o) (M.step o env w).results v := by
        intro v hv
        exact Env.bind_congr fun hout => hagree v ((List.mem_append.1 hv).resolve_left hout)
      rw [List.filter_cons_of_pos ho, Machine.run_cons, Machine.run_cons,
        List.filter_cons_of_pos ((hkept.1 env w).trans ho), hstep,
        ih hkept.2 hworld.2 hrest hK' hreads.tail_of_keep hagree' _]
    | false =>
      have hout : kept (M.step o env w).event = false := (hkept.1 env w).trans ho
      have hagree' : ∀ v ∈ K, env.bind (defs o) (M.step o env w).results v = env' v := by
        intro v hv
        rw [Env.bind_of_notMem fun hmem => hnew v hmem (hK hv)]
        exact hagree v hv
      rw [List.filter_cons_of_neg (by simp [ho]), Machine.run_cons,
        List.filter_cons_of_neg (by simp [hout]),
        ih hkept.2 hworld.2 hrest (fun v hv => List.mem_append_right _ (hK hv))
          (hreads.tail_of_drop ho) hagree' w, hworld.1 ho env w]

end Run

end Block
