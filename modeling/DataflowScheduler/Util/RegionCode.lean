import Mathlib.Logic.Function.Basic
import Mathlib.Data.List.Basic
import Mathlib.Data.List.Range

/-!
# Code with regions

Operations read values, bind values and have regions: blocks with arguments that end by yielding
values. What an operation means is a parameter; it is given what its regions compute. Code is cloned
through a mapping of values, with new names for everything that is bound.
-/

namespace RegionCode

abbrev ValueId := Nat

mutual

/-- An operation with its regions, and the operations behind it. -/
inductive Code (N : Type) where
  | nil
  | op (name : N) (operands results : List ValueId) (regions : Regions N) (rest : Code N)

/-- Regions with one block each. `yields` are the operands of the terminator. -/
inductive Regions (N : Type) where
  | nil
  | region (arguments : List ValueId) (body : Code N) (yields : List ValueId) (rest : Regions N)

end

/-- The values in scope. -/
abbrev Env (α : Type) := ValueId → α

/-- Bind a list of values. A word that is missing reads as the default. -/
def Env.bind {α : Type} [Inhabited α] (env : Env α) : List ValueId → List α → Env α
  | [], _ => env
  | v :: vs, ws => Env.bind (Function.update env v (ws.headD default)) vs ws.tail

/-- What a region makes of its arguments and the state. -/
abbrev RegionFn (α σ : Type) := List α → σ → List α × σ

/-- What operations compute, from their operands and regions. -/
abbrev Sem (N α σ : Type) := N → List α → List (RegionFn α σ) → σ → List α × σ

section Defs

variable {N α σ : Type} [Inhabited α]

mutual

/-- Run the code: the environment after its last operation, and the state. -/
def Code.exec (sem : Sem N α σ) : Code N → Env α → σ → Env α × σ
  | .nil, env, s => (env, s)
  | .op name operands results regions rest, env, s =>
      let r := sem name (operands.map env) (regions.exec sem env) s
      rest.exec sem (env.bind results r.1) r.2

/-- What regions compute inside an environment. -/
def Regions.exec (sem : Sem N α σ) : Regions N → Env α → List (RegionFn α σ)
  | .nil, _ => []
  | .region arguments body yields rest, env =>
      (fun ws s =>
        let b := body.exec sem (env.bind arguments ws) s
        (yields.map b.1, b.2)) :: rest.exec sem env

end

/-- The values the code binds outside of regions. -/
def Code.defs : Code N → List ValueId
  | .nil => []
  | .op _ _ results _ rest => results ++ rest.defs

mutual

/-- All values the code or a region in it binds. -/
def Code.allDefs : Code N → List ValueId
  | .nil => []
  | .op _ _ results regions rest => regions.allDefs ++ (results ++ rest.allDefs)

def Regions.allDefs : Regions N → List ValueId
  | .nil => []
  | .region arguments body _ rest => arguments ++ (body.allDefs ++ rest.allDefs)

end

mutual

/-- All values the code or a region in it reads, as often as it does. -/
def Code.uses : Code N → List ValueId
  | .nil => []
  | .op _ operands _ regions rest => operands ++ (regions.uses ++ rest.uses)

def Regions.uses : Regions N → List ValueId
  | .nil => []
  | .region _ body yields rest => body.uses ++ (yields ++ rest.uses)

end

mutual

/-- Read other values in all places. -/
def Code.mapUses (f : ValueId → ValueId) : Code N → Code N
  | .nil => .nil
  | .op name operands results regions rest =>
      .op name (operands.map f) results (regions.mapUses f) (rest.mapUses f)

def Regions.mapUses (f : ValueId → ValueId) : Regions N → Regions N
  | .nil => .nil
  | .region arguments body yields rest =>
      .region arguments (body.mapUses f) (yields.map f) (rest.mapUses f)

end

mutual

/-- Every value is bound before it is read and not bound again where it is visible. -/
def Code.Scoped : List ValueId → Code N → Prop
  | _, .nil => True
  | Γ, .op _ operands results regions rest =>
      (∀ v ∈ operands, v ∈ Γ) ∧ (∀ v ∈ results, v ∉ Γ) ∧ regions.Scoped Γ ∧
        rest.Scoped (results ++ Γ)

def Regions.Scoped : List ValueId → Regions N → Prop
  | _, .nil => True
  | Γ, .region arguments body yields rest =>
      (∀ v ∈ arguments, v ∉ Γ) ∧ body.Scoped (arguments ++ Γ) ∧
        (∀ v ∈ yields, v ∈ body.defs ++ (arguments ++ Γ)) ∧ rest.Scoped Γ

end

end Defs

/-! ## Mappings of values -/

/-- A mapping from values to those that take their place. -/
abbrev IRMapping := ValueId → Option ValueId

namespace IRMapping

def lookupOrDefault (m : IRMapping) (v : ValueId) : ValueId := (m v).getD v

def map (m : IRMapping) (v w : ValueId) : IRMapping := Function.update m v (some w)

/-- Map values one by one, as long as there are both. -/
def mapAll (m : IRMapping) : List ValueId → List ValueId → IRMapping
  | v :: vs, w :: ws => mapAll (m.map v w) vs ws
  | _, _ => m

variable {m : IRMapping} {vs ws : List ValueId} {v : ValueId}

theorem mapAll_of_notMem (h : v ∉ vs) : m.mapAll vs ws v = m v := by
  induction vs generalizing m ws with
  | nil => rfl
  | cons x vs ih =>
    cases ws with
    | nil => rfl
    | cons w ws =>
      have hx : v ≠ x := List.ne_of_not_mem_cons h
      show (m.map x w).mapAll vs ws v = m v
      rw [ih (List.not_mem_of_not_mem_cons h)]
      exact Function.update_of_ne hx ..

theorem isSome_mapAll (h : v ∈ vs) (hlen : vs.length ≤ ws.length) :
    (m.mapAll vs ws v).isSome = true := by
  induction vs generalizing m ws with
  | nil => cases h
  | cons x vs ih =>
    cases ws with
    | nil => simp at hlen
    | cons w ws =>
      show ((m.map x w).mapAll vs ws v).isSome = true
      by_cases hvs : v ∈ vs
      · exact ih hvs (by simpa using hlen)
      · have hx : v = x := (List.mem_cons.mp h).resolve_right hvs
        rw [mapAll_of_notMem hvs, hx]
        show (Function.update m x (some w) x).isSome = true
        rw [Function.update_self]
        rfl

/-- Different values are mapped to those at their places. -/
theorem mapAll_getElem (hnodup : vs.Nodup) {i : Nat} (hi : i < vs.length) (hi' : i < ws.length) :
    m.mapAll vs ws vs[i] = some ws[i] := by
  induction vs generalizing m ws i with
  | nil => simp at hi
  | cons x vs ih =>
    obtain ⟨hx, hvs⟩ := List.nodup_cons.mp hnodup
    cases ws with
    | nil => simp at hi'
    | cons w ws =>
      cases i with
      | zero =>
        show (m.map x w).mapAll vs ws x = some w
        rw [mapAll_of_notMem hx]
        exact Function.update_self ..
      | succ i => exact ih hvs (by simpa using hi) (by simpa using hi')

/-- What is left over is not mapped. -/
theorem mapAll_append (hlen : vs.length = ws.length) (us : List ValueId) :
    m.mapAll vs (ws ++ us) = m.mapAll vs ws := by
  induction vs generalizing m ws with
  | nil =>
    cases ws with
    | nil => cases us <;> rfl
    | cons w ws => simp at hlen
  | cons x vs ih =>
    cases ws with
    | nil => simp at hlen
    | cons w ws => exact ih (by simpa using hlen)

theorem mapM_eq_some (h : ∀ v ∈ vs, (m v).isSome = true) :
    vs.mapM m = some (vs.map m.lookupOrDefault) := by
  induction vs with
  | nil => rfl
  | cons v vs ih =>
    rw [List.forall_mem_cons] at h
    obtain ⟨w, hw⟩ := Option.isSome_iff_exists.mp h.1
    rw [List.mapM_cons, ih h.2, hw, List.map_cons, lookupOrDefault, hw]
    rfl

theorem isSome_of_mapM (h : vs.mapM m = some ws) : ∀ v ∈ vs, (m v).isSome = true := by
  induction vs generalizing ws with
  | nil => simp
  | cons v vs ih =>
    rw [List.mapM_cons] at h
    obtain ⟨w, hw, h⟩ := Option.bind_eq_some_iff.mp h
    obtain ⟨us, hus, -⟩ := Option.bind_eq_some_iff.mp h
    exact List.forall_mem_cons.mpr ⟨by rw [hw]; rfl, ih hus⟩

theorem lookupOrDefault_congr {m' : IRMapping} (h : m' v = m v) :
    m'.lookupOrDefault v = m.lookupOrDefault v := by
  rw [lookupOrDefault, lookupOrDefault, h]

end IRMapping

/-! ## Cloning -/

variable {N : Type}

mutual

/-- `clone`: what the code reads is looked up, what it binds is new and is mapped. Names from the
given one on are free. -/
def Code.clone : Code N → IRMapping → ValueId → Code N × IRMapping × ValueId
  | .nil, m, next => (.nil, m, next)
  | .op name operands results regions rest, m, next =>
      let r := regions.clone m next
      let new := List.range' r.2.2 results.length
      let c := rest.clone (r.2.1.mapAll results new) (r.2.2 + results.length)
      (.op name (operands.map m.lookupOrDefault) new r.1 c.1, c.2)

/-- `cloneInto` for all regions of an operation. -/
def Regions.clone : Regions N → IRMapping → ValueId → Regions N × IRMapping × ValueId
  | .nil, m, next => (.nil, m, next)
  | .region arguments body yields rest, m, next =>
      let new := List.range' next arguments.length
      let b := body.clone (m.mapAll arguments new) (next + arguments.length)
      let r := rest.clone b.2.1 b.2.2
      (.region new b.1 (yields.map b.2.1.lookupOrDefault) r.1, r.2)

end

mutual

theorem Code.le_clone (c : Code N) (m : IRMapping) (next : ValueId) : next ≤ (c.clone m next).2.2 := by
  cases c with
  | nil => exact Nat.le_refl _
  | op name operands results regions rest =>
    rw [Code.clone]
    exact (Regions.le_clone regions m next).trans
      ((Nat.le_add_right _ _).trans (Code.le_clone rest _ _))

theorem Regions.le_clone (rs : Regions N) (m : IRMapping) (next : ValueId) :
    next ≤ (rs.clone m next).2.2 := by
  cases rs with
  | nil => exact Nat.le_refl _
  | region arguments body yields rest =>
    rw [Regions.clone]
    exact (Nat.le_add_right _ _).trans
      ((Code.le_clone body _ _).trans (Regions.le_clone rest _ _))

end

mutual

theorem Code.clone_of_notMem (c : Code N) (m : IRMapping) (next : ValueId) {v : ValueId}
    (h : v ∉ c.allDefs) : (c.clone m next).2.1 v = m v := by
  cases c with
  | nil => rfl
  | op name operands results regions rest =>
    rw [Code.allDefs, List.mem_append, List.mem_append, not_or, not_or] at h
    rw [Code.clone]
    show (Code.clone rest _ _).2.1 v = m v
    rw [Code.clone_of_notMem rest _ _ h.2.2, IRMapping.mapAll_of_notMem h.2.1,
      Regions.clone_of_notMem regions m next h.1]

/-- Nothing is mapped but what the code binds. -/
theorem Regions.clone_of_notMem (rs : Regions N) (m : IRMapping) (next : ValueId) {v : ValueId}
    (h : v ∉ rs.allDefs) : (rs.clone m next).2.1 v = m v := by
  cases rs with
  | nil => rfl
  | region arguments body yields rest =>
    rw [Regions.allDefs, List.mem_append, List.mem_append, not_or, not_or] at h
    rw [Regions.clone]
    show (Regions.clone rest _ _).2.1 v = m v
    rw [Regions.clone_of_notMem rest _ _ h.2.2, Code.clone_of_notMem body _ _ h.2.1,
      IRMapping.mapAll_of_notMem h.1]

end

mutual

theorem Code.clone_isSome_of_isSome (c : Code N) (m : IRMapping) (next : ValueId) {v : ValueId}
    (h : (m v).isSome = true) : ((c.clone m next).2.1 v).isSome = true := by
  cases c with
  | nil => exact h
  | op name operands results regions rest =>
    rw [Code.clone]
    apply Code.clone_isSome_of_isSome rest
    by_cases hv : v ∈ results
    · exact IRMapping.isSome_mapAll hv (by simp)
    · rw [IRMapping.mapAll_of_notMem hv]
      exact Regions.clone_isSome_of_isSome regions m next h

theorem Regions.clone_isSome_of_isSome (rs : Regions N) (m : IRMapping) (next : ValueId)
    {v : ValueId} (h : (m v).isSome = true) : ((rs.clone m next).2.1 v).isSome = true := by
  cases rs with
  | nil => exact h
  | region arguments body yields rest =>
    rw [Regions.clone]
    apply Regions.clone_isSome_of_isSome rest
    apply Code.clone_isSome_of_isSome body
    by_cases hv : v ∈ arguments
    · exact IRMapping.isSome_mapAll hv (by simp)
    · rwa [IRMapping.mapAll_of_notMem hv]

end

/-- What the code binds is mapped. -/
theorem Code.clone_isSome_of_mem (c : Code N) (m : IRMapping) (next : ValueId) {v : ValueId}
    (h : v ∈ c.defs) : ((c.clone m next).2.1 v).isSome = true := by
  cases c with
  | nil => cases h
  | op name operands results regions rest =>
    rw [Code.clone]
    rw [Code.defs, List.mem_append] at h
    by_cases hrest : v ∈ rest.defs
    · exact Code.clone_isSome_of_mem rest _ _ hrest
    · apply Code.clone_isSome_of_isSome rest
      exact IRMapping.isSome_mapAll (h.resolve_right hrest) (by simp)

/-- What the clone binds is new. -/
theorem Code.le_of_mem_clone_defs (c : Code N) (m : IRMapping) (next : ValueId) {v : ValueId}
    (h : v ∈ (c.clone m next).1.defs) : next ≤ v := by
  cases c with
  | nil => cases h
  | op name operands results regions rest =>
    have hle := Regions.le_clone regions m next
    rw [Code.clone, Code.defs] at h
    rcases List.mem_append.mp h with h | h
    · exact hle.trans (List.mem_range'_1.mp h).1
    · have := Code.le_of_mem_clone_defs rest _ _ h
      exact hle.trans ((Nat.le_add_right _ _).trans this)

/-! ## What a clone computes -/

section Exec

variable {α σ : Type} [Inhabited α] {sem : Sem N α σ} {Γ : List ValueId} {m : IRMapping}
  {env env' : Env α} {next : ValueId}

namespace Env

variable {vs ws : List ValueId} {words : List α} {v : ValueId}

theorem bind_of_notMem (h : v ∉ vs) : env.bind vs words v = env v := by
  induction vs generalizing env words with
  | nil => rfl
  | cons x vs ih =>
    have hx : v ≠ x := List.ne_of_not_mem_cons h
    show Env.bind (Function.update env x (words.headD default)) vs words.tail v = env v
    rw [ih (List.not_mem_of_not_mem_cons h), Function.update_of_ne hx]

theorem bind_append (hlen : vs.length = words.length) (us : List ValueId) (more : List α) :
    env.bind (vs ++ us) (words ++ more) = (env.bind vs words).bind us more := by
  induction vs generalizing env words with
  | nil =>
    cases words with
    | nil => rfl
    | cons w words => simp at hlen
  | cons x vs ih =>
    cases words with
    | nil => simp at hlen
    | cons w words => exact ih (by simpa using hlen)

/-- Different values have the words they are bound to. -/
theorem map_bind (hnodup : vs.Nodup) (hlen : vs.length = words.length) :
    vs.map (env.bind vs words) = words := by
  induction vs generalizing env words with
  | nil =>
    cases words with
    | nil => rfl
    | cons w words => simp at hlen
  | cons x vs ih =>
    cases words with
    | nil => simp at hlen
    | cons w words =>
      obtain ⟨hx, hvs⟩ := List.nodup_cons.mp hnodup
      rw [List.map_cons]
      congr 1
      · show Env.bind (Function.update env x w) vs words x = w
        rw [bind_of_notMem hx, Function.update_self]
      · exact ih hvs (by simpa using hlen)

end Env

/-- A scope reads the same through the mapping. -/
def Reads (Γ : List ValueId) (m : IRMapping) (env env' : Env α) : Prop :=
  ∀ v ∈ Γ, env' (m.lookupOrDefault v) = env v

/-- The images of a scope are not new. -/
def Below (Γ : List ValueId) (m : IRMapping) (next : ValueId) : Prop :=
  ∀ v ∈ Γ, m.lookupOrDefault v < next

omit [Inhabited α] in
theorem Reads.map_eq (h : Reads Γ m env env') {vs : List ValueId} (hsub : ∀ v ∈ vs, v ∈ Γ) :
    (vs.map m.lookupOrDefault).map env' = vs.map env := by
  rw [List.map_map]
  exact List.map_congr_left fun v hv => h v (hsub v hv)

omit [Inhabited α] in
theorem Reads.mono {Δ : List ValueId} (h : Reads Γ m env env') (hsub : ∀ v ∈ Δ, v ∈ Γ) :
    Reads Δ m env env' := fun v hv => h v (hsub v hv)

theorem Below.mono {Δ : List ValueId} (h : Below Γ m next) (hsub : ∀ v ∈ Δ, v ∈ Γ) :
    Below Δ m next := fun v hv => h v (hsub v hv)

theorem Below.le {next' : ValueId} (h : Below Γ m next) (hle : next ≤ next') : Below Γ m next' :=
  fun v hv => Nat.lt_of_lt_of_le (h v hv) hle

omit [Inhabited α] in
/-- Only what is mapped for the scope matters. -/
theorem Reads.congr {m' : IRMapping} (h : Reads Γ m env env') (heq : ∀ v ∈ Γ, m' v = m v) :
    Reads Γ m' env env' := by
  intro v hv
  rw [IRMapping.lookupOrDefault_congr (heq v hv)]
  exact h v hv

theorem Below.congr {m' : IRMapping} (h : Below Γ m next) (heq : ∀ v ∈ Γ, m' v = m v) :
    Below Γ m' next := by
  intro v hv
  rw [IRMapping.lookupOrDefault_congr (heq v hv)]
  exact h v hv

/-- New values on one side are not read. -/
theorem Reads.bind_new (h : Reads Γ m env env') (hbelow : Below Γ m next) {us : List ValueId}
    (hus : ∀ u ∈ us, next ≤ u) (words : List α) : Reads Γ m env (env'.bind us words) := by
  intro v hv
  rw [Env.bind_of_notMem]
  · exact h v hv
  · intro hmem
    exact Nat.lt_irrefl _ (Nat.lt_of_lt_of_le (hbelow v hv) (hus _ hmem))

/-- The same words are bound to values and to new ones that they are mapped to. -/
theorem Reads.bind (h : Reads Γ m env env') (hbelow : Below Γ m next) (vs : List ValueId)
    (words : List α) :
    Reads (vs ++ Γ) (m.mapAll vs (List.range' next vs.length)) (env.bind vs words)
        (env'.bind (List.range' next vs.length) words) ∧
      Below (vs ++ Γ) (m.mapAll vs (List.range' next vs.length)) (next + vs.length) := by
  induction vs generalizing Γ m env env' next words with
  | nil => exact ⟨h, hbelow⟩
  | cons x vs ih =>
    have hreads : Reads (x :: Γ) (m.map x next) (Function.update env x (words.headD default))
        (Function.update env' next (words.headD default)) := by
      intro v hv
      rw [IRMapping.lookupOrDefault, IRMapping.map]
      by_cases hvx : v = x
      · subst hvx
        rw [Function.update_self, Function.update_self]
        exact Function.update_self ..
      · have hv' := (List.mem_cons.mp hv).resolve_left hvx
        rw [Function.update_of_ne hvx, Function.update_of_ne hvx, Function.update_of_ne]
        · exact h v hv'
        · exact Nat.ne_of_lt (hbelow v hv')
    have hbelow' : Below (x :: Γ) (m.map x next) (next + 1) := by
      intro v hv
      rw [IRMapping.lookupOrDefault, IRMapping.map]
      by_cases hvx : v = x
      · subst hvx
        rw [Function.update_self]
        exact Nat.lt_succ_self _
      · rw [Function.update_of_ne hvx]
        exact Nat.lt_succ_of_lt (hbelow v ((List.mem_cons.mp hv).resolve_left hvx))
    obtain ⟨hreads', hbelow''⟩ := ih hreads hbelow' words.tail
    have hsub : ∀ v ∈ x :: vs ++ Γ, v ∈ vs ++ x :: Γ := by
      intro v hv
      simp only [List.cons_append, List.mem_cons, List.mem_append] at hv ⊢
      tauto
    refine ⟨hreads'.mono hsub, (hbelow''.mono hsub).le ?_⟩
    exact Nat.le_of_eq (Nat.add_right_comm next 1 vs.length)

mutual

theorem Code.notMem_allDefs (c : Code N) {Γ : List ValueId} (hc : c.Scoped Γ) {v : ValueId}
    (hv : v ∈ Γ) : v ∉ c.allDefs := by
  cases c with
  | nil => exact List.not_mem_nil
  | op name operands results regions rest =>
    obtain ⟨-, hresults, hregions, hrest⟩ := hc
    rw [Code.allDefs, List.mem_append, List.mem_append, not_or, not_or]
    exact ⟨Regions.notMem_allDefs regions hregions hv, fun h => hresults v h hv,
      Code.notMem_allDefs rest hrest (List.mem_append_right _ hv)⟩

/-- Scoped code binds nothing that is in scope. -/
theorem Regions.notMem_allDefs (rs : Regions N) {Γ : List ValueId} (hrs : rs.Scoped Γ)
    {v : ValueId} (hv : v ∈ Γ) : v ∉ rs.allDefs := by
  cases rs with
  | nil => exact List.not_mem_nil
  | region arguments body yields rest =>
    obtain ⟨harguments, hbody, -, hrest⟩ := hrs
    rw [Regions.allDefs, List.mem_append, List.mem_append, not_or, not_or]
    exact ⟨fun h => harguments v h hv,
      Code.notMem_allDefs body hbody (List.mem_append_right _ hv),
      Regions.notMem_allDefs rest hrest hv⟩

end

mutual

/-- **A clone does what the code does**, and binds the same words to the values that take the places
of those that the code binds. -/
theorem Code.clone_exec (c : Code N) {Γ : List ValueId} {m : IRMapping} {env env' : Env α}
    {next : ValueId} (hc : c.Scoped Γ) (h : Reads Γ m env env') (hbelow : Below Γ m next) (s : σ) :
    ((c.clone m next).1.exec sem env' s).2 = (c.exec sem env s).2 ∧
      Reads (c.defs ++ Γ) (c.clone m next).2.1 (c.exec sem env s).1
        ((c.clone m next).1.exec sem env' s).1 := by
  cases c with
  | nil => exact ⟨rfl, h⟩
  | op name operands results regions rest =>
    obtain ⟨hoperands, -, hregions, hrest⟩ := hc
    have hsame : ∀ v ∈ Γ, (regions.clone m next).2.1 v = m v := fun v hv =>
      Regions.clone_of_notMem regions m next (Regions.notMem_allDefs regions hregions hv)
    have hregionsEq := Regions.clone_exec regions hregions h hbelow
    have hr : sem name ((operands.map m.lookupOrDefault).map env')
        ((regions.clone m next).1.exec sem env') s =
        sem name (operands.map env) (regions.exec sem env) s := by
      rw [h.map_eq hoperands, hregionsEq]
    obtain ⟨hreads, hbelow'⟩ := Reads.bind (h.congr hsame)
      ((hbelow.le (Regions.le_clone regions m next)).congr hsame) results
      (sem name (operands.map env) (regions.exec sem env) s).1
    obtain ⟨hstate, hreads'⟩ := Code.clone_exec rest hrest hreads hbelow'
      (sem name (operands.map env) (regions.exec sem env) s).2
    rw [Code.clone, Code.exec, Code.exec, Code.defs]
    simp only [hr]
    refine ⟨hstate, hreads'.mono fun v hv => ?_⟩
    simp only [List.mem_append] at hv ⊢
    tauto

/-- Cloned regions compute the same. -/
theorem Regions.clone_exec (rs : Regions N) {Γ : List ValueId} {m : IRMapping} {env env' : Env α}
    {next : ValueId} (hrs : rs.Scoped Γ) (h : Reads Γ m env env') (hbelow : Below Γ m next) :
    (rs.clone m next).1.exec sem env' = rs.exec sem env := by
  cases rs with
  | nil => rfl
  | region arguments body yields rest =>
    obtain ⟨harguments, hbody, hyields, hrest⟩ := hrs
    rw [Regions.clone, Regions.exec, Regions.exec]
    congr 1
    · funext words s
      obtain ⟨hreads, hbelow'⟩ := h.bind hbelow arguments words
      obtain ⟨hstate, hreads'⟩ := Code.clone_exec body hbody hreads hbelow' s
      show (_, _) = _
      rw [hreads'.map_eq hyields, hstate]
    · have hsame : ∀ v ∈ Γ, (body.clone (m.mapAll arguments (List.range' next arguments.length))
          (next + arguments.length)).2.1 v = m v := by
        intro v hv
        rw [Code.clone_of_notMem body _ _
          (Code.notMem_allDefs body hbody (List.mem_append_right _ hv)),
          IRMapping.mapAll_of_notMem fun hmem => harguments v hmem hv]
      exact Regions.clone_exec rest hrest (h.congr hsame)
        ((hbelow.le ((Nat.le_add_right _ _).trans (Code.le_clone body _ _))).congr hsame)

end

/-- Values the code does not bind keep their word. -/
theorem Code.exec_of_notMem_defs (c : Code N) {env : Env α} {v : ValueId} (h : v ∉ c.defs)
    (s : σ) : (c.exec sem env s).1 v = env v := by
  cases c with
  | nil => rfl
  | op name operands results regions rest =>
    rw [Code.defs, List.mem_append, not_or] at h
    rw [Code.exec]
    show (rest.exec sem _ _).1 v = env v
    rw [Code.exec_of_notMem_defs rest h.2, Env.bind_of_notMem h.1]

end Exec

/-! ## Reading other values -/

mutual

theorem Code.uses_mapUses (f : ValueId → ValueId) (c : Code N) :
    (c.mapUses f).uses = c.uses.map f := by
  cases c with
  | nil => rfl
  | op name operands results regions rest =>
    rw [Code.mapUses, Code.uses, Code.uses, List.map_append, List.map_append,
      Regions.uses_mapUses f regions, Code.uses_mapUses f rest]

theorem Regions.uses_mapUses (f : ValueId → ValueId) (rs : Regions N) :
    (rs.mapUses f).uses = rs.uses.map f := by
  cases rs with
  | nil => rfl
  | region arguments body yields rest =>
    rw [Regions.mapUses, Regions.uses, Regions.uses, List.map_append, List.map_append,
      Code.uses_mapUses f body, Regions.uses_mapUses f rest]

end

end RegionCode
