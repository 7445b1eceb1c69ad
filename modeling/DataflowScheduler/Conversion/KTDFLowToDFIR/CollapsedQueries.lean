import DataflowScheduler.Conversion.KTDFLowToDFIR.QueryMapArithCollapse
import DataflowScheduler.Util.Lists

/-!
# Collapsed queries

What the rewrites match is read off the ops before the one that is replaced, and the query that is
built gives what the op gave.
-/

namespace DataflowScheduler

namespace QueryMapArithCollapse

open Definitions

/-! ## Values that the patterns look at -/

section

variable {uniform : UniformDialect} {interp : Nat → List Val → Option Val}
  {scope : List ValueId} {before rest : List Op} {env : ValueId → Option Val}

/-- The word of a value of index type. -/
def word (env : ValueId → Option Val) (v : ValueId) : BitVec 64 := ((env v).bind Val.index?).getD 0

/-- What defines a value that is in scope behind some ops is one of these. -/
theorem getDefiningOp_spec (h : Scoped (language uniform interp) scope (before ++ rest))
    {v : ValueId} {op : Op} (hv : v ∈ scope ++ before.map Op.result)
    (hop : getDefiningOp (before ++ rest) v = some op) :
    run (language uniform interp) env before v =
        op.eval uniform interp (run (language uniform interp) env before) ∧
      ∀ u ∈ op.operands, u ∈ scope ++ before.map Op.result := by
  have hresult : op.result = v := by
    have := List.find?_some hop
    exact of_decide_eq_true this
  obtain ⟨hbefore, hrest⟩ := scoped_append.mp h
  have hmem : op ∈ before := by
    rcases List.mem_append.mp (List.mem_of_find?_eq_some hop) with hmem | hmem
    · exact hmem
    · exact absurd (List.mem_map_of_mem hmem) (hresult ▸ hrest.notMem hv)
  refine ⟨hresult ▸ hbefore.run_eq hmem env, fun u hu => ?_⟩
  obtain ⟨first, last, rfl⟩ := List.append_of_mem hmem
  have hoperand := (scoped_append.mp hbefore).2.1 u hu
  rcases List.mem_append.mp hoperand with hoperand | hoperand
  · exact List.mem_append_left _ hoperand
  · rw [List.map_append]
    exact List.mem_append_right _ (List.mem_append_left _ hoperand)

theorem getConstantIntValue_spec (h : Scoped (language uniform interp) scope (before ++ rest))
    {v : ValueId} {c : BitVec 64} (hv : v ∈ scope ++ before.map Op.result)
    (hc : getConstantIntValue (before ++ rest) v = some c) :
    run (language uniform interp) env before v = some (.index c) := by
  unfold getConstantIntValue at hc
  split at hc
  · next hop =>
      cases hc
      exact (getDefiningOp_spec h hv hop).1
  · cases hc

theorem getQueryMap_spec (h : Scoped (language uniform interp) scope (before ++ rest))
    {v : ValueId} {q : ValueId × ValueId} (hv : v ∈ scope ++ before.map Op.result)
    (hq : getQueryMap (before ++ rest) v = some q) :
    run (language uniform interp) env before v =
        (Op.queryMap v q.1 q.2).eval uniform interp (run (language uniform interp) env before) ∧
      q.1 ∈ scope ++ before.map Op.result ∧ q.2 ∈ scope ++ before.map Op.result := by
  unfold getQueryMap at hq
  split at hq
  · next hop =>
      cases hq
      obtain ⟨hvalue, hoperands⟩ := @getDefiningOp_spec _ _ _ _ _ env h _ _ hv hop
      exact ⟨hvalue, hoperands _ (by simp [Op.operands]), hoperands _ (by simp [Op.operands])⟩
  · cases hq

/-- The entries of a mapping of constants, at run time. -/
theorem entries_of_constants {env : ValueId → Option Val} {constant : ValueId → Option (BitVec 64)}
    {entries : List (ValueId × ValueId)} {words : List (BitVec 64 × BitVec 64)}
    {vals : List (BitVec 64)}
    (hwords : entries.mapM (fun e => do
      let key ← (env e.1).bind Val.index?
      let value ← (env e.2).bind Val.index?
      some (key, value)) = some words)
    (hvals : entries.mapM (fun e => constant e.2) = some vals)
    (hconstant : ∀ e ∈ entries, ∀ c, constant e.2 = some c → env e.2 = some (.index c)) :
    words = ((entries.map Prod.fst).zip vals).map (fun e => (word env e.1, e.2)) ∧
      ∀ e ∈ entries, (env e.1).bind Val.index? = some (word env e.1) := by
  have hentries := List.forall₂_of_mapM hwords
  have hconstants := List.forall₂_of_mapM hvals
  clear hwords hvals
  induction hentries generalizing vals with
  | nil =>
      cases hconstants
      exact ⟨rfl, fun e he => by cases he⟩
  | @cons e w entries words hentry _ ih =>
      cases hconstants with
      | @cons _ c _ vals hc hvals =>
          obtain ⟨heq, hkeys⟩ := ih (fun e he => hconstant e (List.mem_cons_of_mem _ he)) hvals
          obtain ⟨key, hkey, hentry⟩ := Option.bind_eq_some_iff.mp hentry
          obtain ⟨value, hvalue, hentry⟩ := Option.bind_eq_some_iff.mp hentry
          cases hentry
          have hword : word env e.1 = key := by
            rw [word, hkey]
            rfl
          rw [hconstant e List.mem_cons_self c hc] at hvalue
          cases hvalue
          constructor
          · rw [List.map_cons, List.zip_cons_cons, List.map_cons, ← heq, hword]
          · intro e' he'
            rcases List.mem_cons.mp he' with heq' | he'
            · rw [heq', hword]
              exact hkey
            · exact hkeys e' he'

/-- An entry of a mapping with a constant value is one at run time. -/
theorem mem_of_entry {env : ValueId → Option Val} {entries : List (ValueId × ValueId)}
    {words : List (BitVec 64 × BitVec 64)} {key v : ValueId} {c : BitVec 64}
    (hwords : entries.mapM (fun e => do
      let key ← (env e.1).bind Val.index?
      let value ← (env e.2).bind Val.index?
      some (key, value)) = some words)
    (hmem : (key, v) ∈ entries) (hv : env v = some (.index c)) : (word env key, c) ∈ words := by
  have hentries := List.forall₂_of_mapM hwords
  clear hwords
  induction hentries with
  | nil => cases hmem
  | @cons e w entries words hentry _ ih =>
      rcases List.mem_cons.mp hmem with heq | hmem
      · obtain ⟨k, hk, hentry⟩ := Option.bind_eq_some_iff.mp hentry
        obtain ⟨value, hvalue, hentry⟩ := Option.bind_eq_some_iff.mp hentry
        rw [← heq] at hk hvalue
        rw [hv] at hvalue
        cases hvalue
        cases hentry
        have hword : word env key = k := by
          rw [word, hk]
          rfl
        rw [hword]
        exact List.mem_cons_self
      · exact List.mem_cons_of_mem _ (ih hmem)

/-- A mapping that an op defines reads what is in scope, and has its entries at run time. -/
theorem getMapping_spec (h : Scoped (language uniform interp) scope (before ++ rest))
    {v : ValueId} {entries : List (ValueId × ValueId)} (hv : v ∈ scope ++ before.map Op.result)
    (hentries : getMapping (before ++ rest) v = some entries) :
    (∀ e ∈ entries,
      e.1 ∈ scope ++ before.map Op.result ∧ e.2 ∈ scope ++ before.map Op.result) ∧
    ∀ words, (run (language uniform interp) env before v).bind Val.mapping? = some words →
      entries.mapM (fun e => do
        let key ← (run (language uniform interp) env before e.1).bind Val.index?
        let value ← (run (language uniform interp) env before e.2).bind Val.index?
        some (key, value)) = some words := by
  unfold getMapping at hentries
  split at hentries
  · next hop =>
      cases hentries
      obtain ⟨hvalue, hoperands⟩ := @getDefiningOp_spec _ _ _ _ _ env h _ _ hv hop
      constructor
      · intro e he
        constructor <;> apply hoperands <;> exact List.mem_flatMap.mpr ⟨e, he, by simp⟩
      · intro words hwords
        rw [hvalue] at hwords
        obtain ⟨m, hm, hwords⟩ := Option.bind_eq_some_iff.mp hwords
        obtain ⟨words', hwords', hm⟩ := Option.bind_eq_some_iff.mp hm
        cases hm
        cases hwords
        exact hwords'
  · cases hentries

/-- The entries that a query picks one of, and the word of its key. -/
theorem query_of_eval {env : ValueId → Option Val} {r map key : ValueId} {a : BitVec 64}
    (h : ((Op.queryMap r map key).eval uniform interp env).bind Val.index? = some a) :
    ∃ words k, (env map).bind Val.mapping? = some words ∧ (env key).bind Val.index? = some k ∧
      uniform.queryMap words k = some a := by
  obtain ⟨x, hx, ha⟩ := Option.bind_eq_some_iff.mp h
  obtain ⟨words, hwords, hx⟩ := Option.bind_eq_some_iff.mp hx
  obtain ⟨k, hk, hx⟩ := Option.bind_eq_some_iff.mp hx
  obtain ⟨w, hw, heq⟩ := Option.map_eq_some_iff.mp hx
  rw [← heq] at ha
  cases ha
  exact ⟨words, k, hwords, hk, hw⟩

end

/-! ## The folded query -/

section

variable {uniform : UniformDialect} {interp : Nat → List Val → Option Val}
  {scope : List Nat} {next : Nat} {env : ValueId → Option Val}

theorem result_foldedConstants (next : Nat) (entries : List (ValueId × BitVec 64)) :
    (foldedConstants next entries).map Op.result = List.range' next entries.length := by
  induction entries generalizing next with
  | nil => rfl
  | cons e entries ih =>
      rw [foldedConstants, List.map_cons, ih, List.length_cons, List.range'_succ]
      rfl

theorem result_buildFoldedQuery (next : Nat) (folded : Folded) :
    (buildFoldedQuery next folded).map Op.result =
      List.range' next (folded.entries.length + 2) := by
  rw [buildFoldedQuery, List.map_append, result_foldedConstants, List.range'_concat,
    List.range'_concat, List.append_assoc]
  simp [Op.result, Nat.add_assoc]

theorem scoped_foldedConstants (hlt : ∀ v ∈ scope, v < next) (entries : List (ValueId × BitVec 64)) :
    Scoped (language uniform interp) scope (foldedConstants next entries) := by
  induction entries generalizing scope next with
  | nil => trivial
  | cons e entries ih =>
      refine ⟨fun v hv => (by cases hv), fun hmem => Nat.lt_irrefl _ (hlt _ hmem), ih ?_⟩
      intro v hv
      rcases List.mem_append.mp hv with hv | hv
      · exact Nat.lt_succ_of_lt (hlt v hv)
      · rw [List.mem_singleton.mp hv]
        exact Nat.lt_succ_self _

/-- The values of the mapping are the constants. -/
theorem mem_foldedEntries {entries : List (ValueId × BitVec 64)} {e : ValueId × ValueId}
    (he : e ∈ foldedEntries next entries) :
    e.1 ∈ entries.map Prod.fst ∧ e.2 ∈ List.range' next entries.length := by
  induction entries generalizing next with
  | nil => cases he
  | cons e' entries ih =>
      rw [foldedEntries] at he
      rw [List.length_cons, List.range'_succ]
      rcases List.mem_cons.mp he with heq | he
      · rw [heq]
        exact ⟨by simp, by simp⟩
      · obtain ⟨hkey, hvalue⟩ := ih he
        exact ⟨List.mem_cons_of_mem _ hkey, List.mem_cons_of_mem _ hvalue⟩

theorem scoped_buildFoldedQuery {folded : Folded} (hlt : ∀ v ∈ scope, v < next)
    (hkeys : ∀ e ∈ folded.entries, e.1 ∈ scope) (hkey : folded.key ∈ scope) :
    Scoped (language uniform interp) scope (buildFoldedQuery next folded) := by
  rw [buildFoldedQuery, scoped_append]
  have hresults : (foldedConstants next folded.entries).map (language uniform interp).result =
      List.range' next folded.entries.length := result_foldedConstants next folded.entries
  have hbelow : ∀ v ∈ scope ++ List.range' next folded.entries.length,
      v < next + folded.entries.length := by
    intro v hv
    rcases List.mem_append.mp hv with hv | hv
    · have := hlt v hv
      omega
    · obtain ⟨i, hi, heq⟩ := List.mem_range'.mp hv
      omega
  rw [hresults]
  refine ⟨scoped_foldedConstants hlt _, ?_, ?_, ?_, ?_, trivial⟩
  · intro v hv
    obtain ⟨e, he, hv⟩ := List.mem_flatMap.mp hv
    obtain ⟨hfirst, hsecond⟩ := mem_foldedEntries he
    rcases List.mem_cons.mp hv with heq | hv
    · obtain ⟨e', he', heq'⟩ := List.mem_map.mp hfirst
      rw [heq, ← heq']
      exact List.mem_append_left _ (hkeys e' he')
    · rw [List.mem_singleton.mp hv]
      exact List.mem_append_right _ hsecond
  · exact fun hmem => Nat.lt_irrefl _ (hbelow _ hmem)
  · intro v hv
    rcases List.mem_cons.mp hv with heq | hv
    · rw [heq]
      exact List.mem_append_right _ (List.mem_singleton_self _)
    · rw [List.mem_singleton.mp hv]
      exact List.mem_append_left _ (List.mem_append_left _ hkey)
  · intro hmem
    rcases List.mem_append.mp hmem with hmem | hmem
    · have := hbelow _ hmem
      have : next + folded.entries.length + 1 < next + folded.entries.length := this
      omega
    · have : next + folded.entries.length + 1 = next + folded.entries.length :=
        List.mem_singleton.mp hmem
      omega

/-- The mapping of the folded query, at run time. -/
theorem mapM_foldedEntries {env : ValueId → Option Val} {entries : List (ValueId × BitVec 64)}
    (hconstants : ∀ op ∈ foldedConstants next entries, env op.result = op.eval uniform interp env)
    {words : ValueId → BitVec 64}
    (hkeys : ∀ e ∈ entries, (env e.1).bind Val.index? = some (words e.1)) :
    ((foldedEntries next entries).mapM fun e => do
      let key ← (env e.1).bind Val.index?
      let value ← (env e.2).bind Val.index?
      some (key, value)) = some (entries.map fun e => (words e.1, e.2)) := by
  induction entries generalizing next with
  | nil => rfl
  | cons e entries ih =>
      have hvalue : env next = some (.index e.2) := hconstants (.constant next e.2) (by
        rw [foldedConstants]
        exact List.mem_cons_self)
      rw [foldedEntries, List.mapM_cons, hkeys e List.mem_cons_self, hvalue,
        ih (fun op hop => hconstants op (List.mem_cons_of_mem _ hop))
          fun e he => hkeys e (List.mem_cons_of_mem _ he)]
      rfl

/-- The folded query gives what a query of the folded values gives. -/
theorem run_buildFoldedQuery {folded : Folded} (hlt : ∀ v ∈ scope, v < next)
    (hkeys : ∀ e ∈ folded.entries, e.1 ∈ scope ∧ (env e.1).bind Val.index? = some (word env e.1))
    (hkey : folded.key ∈ scope) {k : BitVec 64} (hk : (env folded.key).bind Val.index? = some k) :
    run (language uniform interp) env (buildFoldedQuery next folded)
        (next + folded.entries.length + 1) =
      (uniform.queryMap (folded.entries.map fun e => (word env e.1, e.2)) k).map Val.index := by
  have hscoped : Scoped (language uniform interp) scope (buildFoldedQuery next folded) :=
    scoped_buildFoldedQuery hlt (fun e he => (hkeys e he).1) hkey
  have hvalue : ∀ op ∈ buildFoldedQuery next folded,
      run (language uniform interp) env (buildFoldedQuery next folded) op.result =
        op.eval uniform interp (run (language uniform interp) env (buildFoldedQuery next folded)) :=
    fun op hop => hscoped.run_eq hop env
  have hold : ∀ v ∈ scope,
      run (language uniform interp) env (buildFoldedQuery next folded) v = env v := fun v hv =>
    run_of_notMem (hscoped.notMem hv)
  generalize run (language uniform interp) env (buildFoldedQuery next folded) = env' at *
  have hmapping : env' (next + folded.entries.length) =
      some (.mapping (folded.entries.map fun e => (word env e.1, e.2))) := by
    have hop := hvalue (.defImmutableMapping (next + folded.entries.length)
      (foldedEntries next folded.entries)) (by simp [buildFoldedQuery])
    have hentries := @mapM_foldedEntries uniform interp next env' folded.entries
      (fun op hmem => hvalue op (List.mem_append_left _ hmem)) (word env)
      (fun e he => (hold e.1 (hkeys e he).1).symm ▸ (hkeys e he).2)
    rw [Op.eval, hentries] at hop
    exact hop
  have hop := hvalue (.queryMap (next + folded.entries.length + 1) (next + folded.entries.length)
    folded.key) (by simp [buildFoldedQuery])
  rw [Op.eval, hmapping, hold folded.key hkey, hk] at hop
  exact hop

end

/-! ## What the patterns fold -/

/-- Where an op is defined, the folded value is its result. -/
theorem evalBinop_of_evalArith {kind : BinOp} {a b x : BitVec 64} (h : evalArith kind a b = some x) :
    evalBinop kind a b = x := by
  cases kind with
  | addi => exact Option.some.inj h
  | subi => exact Option.some.inj h
  | muli => exact Option.some.inj h
  | divui => grind [evalArith, evalBinop]
  | divsi => grind [evalArith, evalBinop]
  | remui => grind [evalArith, evalBinop]

theorem queryAndConstant_spec {ops : List Op} {lhs rhs : ValueId} {q : ValueId × ValueId}
    {queryIsLhs : Bool} {cst : BitVec 64}
    (h : queryAndConstant ops lhs rhs = some (q, queryIsLhs, cst)) :
    (queryIsLhs = true ∧ getQueryMap ops lhs = some q ∧ getConstantIntValue ops rhs = some cst) ∨
      (queryIsLhs = false ∧ getQueryMap ops rhs = some q ∧
        getConstantIntValue ops lhs = some cst) := by
  unfold queryAndConstant at h
  split at h
  · next q' hlhs =>
      obtain ⟨c, hc, heq⟩ := Option.map_eq_some_iff.mp h
      cases heq
      exact .inl ⟨rfl, hlhs, hc⟩
  · obtain ⟨q', hrhs, h⟩ := Option.bind_eq_some_iff.mp h
    obtain ⟨c, hc, heq⟩ := Option.map_eq_some_iff.mp h
    cases heq
    exact .inr ⟨rfl, hrhs, hc⟩

/-- `FoldConstIntoQuery` folds the values of one mapping, on the side of the query. -/
theorem foldConstIntoQuery_spec {ops : List Op} {kind : BinOp} {lhs rhs : ValueId} {folded : Folded}
    (h : foldConstIntoQuery ops kind lhs rhs = some folded) :
    ∃ q cst map vals f, getMapping ops q.1 = some map ∧ allConstantValues ops map = some vals ∧
      folded = ⟨(map.map Prod.fst).zip (vals.map f), q.2⟩ ∧
      ((getQueryMap ops lhs = some q ∧ getConstantIntValue ops rhs = some cst ∧
          f = fun v => evalBinop kind v cst) ∨
        (getQueryMap ops rhs = some q ∧ getConstantIntValue ops lhs = some cst ∧
          f = fun v => evalBinop kind cst v)) := by
  obtain ⟨⟨q, queryIsLhs, cst⟩, hq, h⟩ := Option.bind_eq_some_iff.mp h
  obtain ⟨map, hmap, h⟩ := Option.bind_eq_some_iff.mp h
  obtain ⟨vals, hvals, h⟩ := Option.bind_eq_some_iff.mp h
  refine ⟨q, cst, map, vals, _, hmap, hvals, (Option.some.inj h).symm, ?_⟩
  rcases queryAndConstant_spec hq with ⟨rfl, hquery, hcst⟩ | ⟨rfl, hquery, hcst⟩
  · exact .inl ⟨hquery, hcst, rfl⟩
  · exact .inr ⟨hquery, hcst, rfl⟩

/-- `MergeQueriesSameKey` folds the values that two mappings have for one key. -/
theorem mergeQueriesSameKey_spec {uniform : UniformDialect} {ops : List Op} {kind : BinOp}
    {lhs rhs : ValueId} {folded : Folded}
    (h : mergeQueriesSameKey uniform ops kind lhs rhs = some folded) :
    ∃ qa qb mapA mapB valsA vals, getQueryMap ops lhs = some qa ∧ getQueryMap ops rhs = some qb ∧
      qa.2 = qb.2 ∧ getMapping ops qa.1 = some mapA ∧ getMapping ops qb.1 = some mapB ∧
      allConstantValues ops mapA = some valsA ∧
      List.Forall₂ (fun a v => ∃ bval bc, (a.1, bval) ∈ mapB ∧
        getConstantIntValue ops bval = some bc ∧ v = evalBinop kind a.2 bc)
        ((mapA.map Prod.fst).zip valsA) vals ∧
      folded = ⟨(mapA.map Prod.fst).zip vals, qa.2⟩ := by
  obtain ⟨qa, hqa, h⟩ := Option.bind_eq_some_iff.mp h
  obtain ⟨qb, hqb, h⟩ := Option.bind_eq_some_iff.mp h
  split at h
  · cases h
  · next hkey =>
      obtain ⟨mapA, hmapA, h⟩ := Option.bind_eq_some_iff.mp h
      obtain ⟨mapB, hmapB, h⟩ := Option.bind_eq_some_iff.mp h
      obtain ⟨valsA, hvalsA, h⟩ := Option.bind_eq_some_iff.mp h
      obtain ⟨vals, hvals, h⟩ := Option.bind_eq_some_iff.mp h
      refine ⟨qa, qb, mapA, mapB, valsA, vals, hqa, hqb, not_not.mp hkey, hmapA, hmapB, hvalsA, ?_,
        (Option.some.inj h).symm⟩
      refine (List.forall₂_of_mapM hvals).imp fun a v hv => ?_
      obtain ⟨bval, hbval, hv⟩ := Option.bind_eq_some_iff.mp hv
      obtain ⟨bc, hbc, hv⟩ := Option.bind_eq_some_iff.mp hv
      exact ⟨bval, bc, uniform.getValue_mem _ _ _ hbval, hbc, (Option.some.inj hv).symm⟩

/-- What a value of an op is the query of, in the values before the op. -/
structure Folded.Queries (uniform : UniformDialect) (env : ValueId → Option Val) (folded : Folded)
    (x : BitVec 64) : Prop where
  keys : ∀ e ∈ folded.entries, (env e.1).bind Val.index? = some (word env e.1)
  query : ∃ k, (env folded.key).bind Val.index? = some k ∧
    uniform.queryMap (folded.entries.map fun e => (word env e.1, e.2)) k = some x

section

variable {uniform : UniformDialect} {interp : Nat → List Val → Option Val}
  {scope : List Nat} {before rest : List Op} {env : ValueId → Option Val} {kind : BinOp}
  {lhs rhs : ValueId} {folded : Folded}

/-- A folded query reads what is in scope. -/
theorem mem_of_folded (h : Scoped (language uniform interp) scope (before ++ rest))
    (hlhs : lhs ∈ scope ++ before.map Op.result) (hrhs : rhs ∈ scope ++ before.map Op.result)
    (hfolded : foldConstIntoQuery (before ++ rest) kind lhs rhs = some folded ∨
      mergeQueriesSameKey uniform (before ++ rest) kind lhs rhs = some folded) :
    (∀ e ∈ folded.entries, e.1 ∈ scope ++ before.map Op.result) ∧
      folded.key ∈ scope ++ before.map Op.result := by
  have hquery : ∀ {v : ValueId} {q : ValueId × ValueId} {map : List (ValueId × ValueId)}
      {vals : List (BitVec 64)}, v ∈ scope ++ before.map Op.result →
      getQueryMap (before ++ rest) v = some q → getMapping (before ++ rest) q.1 = some map →
      (∀ e ∈ (map.map Prod.fst).zip vals, e.1 ∈ scope ++ before.map Op.result) ∧
        q.2 ∈ scope ++ before.map Op.result := by
    intro v q map vals hv hq hmap
    obtain ⟨-, hmapScope, hkeyScope⟩ := @getQueryMap_spec _ _ _ _ _ (fun _ => none) h _ _ hv hq
    have hentries := (@getMapping_spec _ _ _ _ _ (fun _ => none) h _ _ hmapScope hmap).1
    refine ⟨fun e he => ?_, hkeyScope⟩
    obtain ⟨e', he', heq⟩ := List.mem_map.mp (List.of_mem_zip he).1
    exact heq ▸ (hentries e' he').1
  rcases hfolded with hfold | hmerge
  · obtain ⟨q, cst, map, vals, f, hmap, -, rfl, ⟨hq, -⟩ | ⟨hq, -⟩⟩ := foldConstIntoQuery_spec hfold
    · exact hquery hlhs hq hmap
    · exact hquery hrhs hq hmap
  · obtain ⟨qa, qb, mapA, mapB, valsA, vals, hqa, -, -, hmapA, -, -, -, rfl⟩ :=
      mergeQueriesSameKey_spec hmerge
    exact hquery hlhs hqa hmapA

/-- A mapping with other values for the same keys is queried for what it has where the mapping has
the value that is queried. -/
theorem queryMap_of_forall₂ {words words' : List (BitVec 64 × BitVec 64)} {k a x : BitVec 64}
    (h : List.Forall₂ (fun e e' => e'.1 = e.1 ∧ (e.1 = k → e.2 = a → e'.2 = x)) words words')
    (hquery : uniform.queryMap words k = some a) : uniform.queryMap words' k = some x := by
  rw [uniform.queryMap_eq_some] at hquery ⊢
  obtain ⟨⟨e, he, hek⟩, hall⟩ := hquery
  constructor
  · obtain ⟨e', he', hkey, -⟩ := (List.Forall₂.flip h).exists_of_mem_right he
    exact ⟨e', he', hkey.trans hek⟩
  · intro e' he' hk
    obtain ⟨e, he, hkey, hvalue⟩ := h.exists_of_mem_right he'
    have hek : e.1 = k := hkey.symm.trans hk
    exact hvalue hek (hall e he hek)

/-- The query of a mapping of constants: its entries at run time, and the key. -/
theorem constantQuery_spec (h : Scoped (language uniform interp) scope (before ++ rest))
    {v : Nat} (hv : v ∈ scope ++ before.map Op.result) {q : ValueId × ValueId}
    {map : List (ValueId × ValueId)} {vals : List (BitVec 64)} {a : BitVec 64}
    (hq : getQueryMap (before ++ rest) v = some q) (hmap : getMapping (before ++ rest) q.1 = some map)
    (hvals : allConstantValues (before ++ rest) map = some vals)
    (ha : (run (language uniform interp) env before v).bind Val.index? = some a) :
    (∀ e ∈ map, (run (language uniform interp) env before e.1).bind Val.index? =
        some (word (run (language uniform interp) env before) e.1)) ∧
      ∃ k, (run (language uniform interp) env before q.2).bind Val.index? = some k ∧
        uniform.queryMap (((map.map Prod.fst).zip vals).map fun e =>
          (word (run (language uniform interp) env before) e.1, e.2)) k = some a := by
  obtain ⟨hvalue, hmapScope, -⟩ := getQueryMap_spec h hv hq
  obtain ⟨hentries, hwords⟩ := getMapping_spec h hmapScope hmap
  rw [hvalue] at ha
  obtain ⟨words, k, hm, hk, hquery⟩ := query_of_eval ha
  obtain ⟨heq, hkeys⟩ := entries_of_constants (hwords words hm) hvals fun e he c hc =>
    getConstantIntValue_spec h (hentries e he).2 hc
  exact ⟨hkeys, k, hk, heq ▸ hquery⟩

/-- **The folded query has the result of the op**, where the op is defined. -/
theorem queries_of_foldConstIntoQuery
    (h : Scoped (language uniform interp) scope (before ++ rest))
    (hlhs : lhs ∈ scope ++ before.map Op.result) (hrhs : rhs ∈ scope ++ before.map Op.result)
    (hfold : foldConstIntoQuery (before ++ rest) kind lhs rhs = some folded) {a b x : BitVec 64}
    (ha : (run (language uniform interp) env before lhs).bind Val.index? = some a)
    (hb : (run (language uniform interp) env before rhs).bind Val.index? = some b)
    (hx : evalArith kind a b = some x) :
    folded.Queries uniform (run (language uniform interp) env before) x := by
  obtain ⟨q, cst, map, vals, f, hmap, hvals, rfl, hside⟩ := foldConstIntoQuery_spec hfold
  have hresult := evalBinop_of_evalArith hx
  -- whichever operand is the query, the fold takes its value to the result
  have hquery : ∃ y, (∀ e ∈ map, (run (language uniform interp) env before e.1).bind Val.index? =
        some (word (run (language uniform interp) env before) e.1)) ∧
      (∃ k, (run (language uniform interp) env before q.2).bind Val.index? = some k ∧
        uniform.queryMap (((map.map Prod.fst).zip vals).map fun e =>
          (word (run (language uniform interp) env before) e.1, e.2)) k = some y) ∧ f y = x := by
    rcases hside with ⟨hq, hcst, rfl⟩ | ⟨hq, hcst, rfl⟩
    · obtain ⟨hkeys, hk⟩ := constantQuery_spec h hlhs hq hmap hvals ha
      rw [getConstantIntValue_spec h hrhs hcst] at hb
      cases hb
      exact ⟨a, hkeys, hk, hresult⟩
    · obtain ⟨hkeys, hk⟩ := constantQuery_spec h hrhs hq hmap hvals hb
      rw [getConstantIntValue_spec h hlhs hcst] at ha
      cases ha
      exact ⟨b, hkeys, hk, hresult⟩
  obtain ⟨y, hkeys, ⟨k, hk, hy⟩, hf⟩ := hquery
  constructor
  · intro e he
    obtain ⟨e', he', heq⟩ := List.mem_map.mp (List.of_mem_zip he).1
    exact heq ▸ hkeys e' he'
  · refine ⟨k, hk, queryMap_of_forall₂ ?_ hy⟩
    show List.Forall₂ _ _ (((map.map Prod.fst).zip (vals.map f)).map _)
    rw [List.zip_map_right, List.map_map, List.forall₂_map_left_iff, List.forall₂_map_right_iff,
      List.forall₂_same]
    exact fun e _ => ⟨rfl, fun _ hey => (congrArg f hey).trans hf⟩

theorem queries_of_mergeQueriesSameKey
    (h : Scoped (language uniform interp) scope (before ++ rest))
    (hlhs : lhs ∈ scope ++ before.map Op.result) (hrhs : rhs ∈ scope ++ before.map Op.result)
    (hmerge : mergeQueriesSameKey uniform (before ++ rest) kind lhs rhs = some folded)
    {a b x : BitVec 64}
    (ha : (run (language uniform interp) env before lhs).bind Val.index? = some a)
    (hb : (run (language uniform interp) env before rhs).bind Val.index? = some b)
    (hx : evalArith kind a b = some x) :
    folded.Queries uniform (run (language uniform interp) env before) x := by
  obtain ⟨qa, qb, mapA, mapB, valsA, vals, hqa, hqb, hsame, hmapA, hmapB, hvalsA, hvals, rfl⟩ :=
    mergeQueriesSameKey_spec hmerge
  have hlen : (mapA.map Prod.fst).length = valsA.length := by
    rw [List.length_map]
    exact (List.forall₂_of_mapM hvalsA).length_eq
  obtain ⟨hkeys, k, hk, hqueryA⟩ := constantQuery_spec h hlhs hqa hmapA hvalsA ha
  -- the values of the other mapping are looked up by key, and are what its query picks
  obtain ⟨hvalueB, hmapBScope, -⟩ := getQueryMap_spec h hrhs hqb
  obtain ⟨hentriesB, hwordsB⟩ := getMapping_spec h hmapBScope hmapB
  rw [hvalueB] at hb
  obtain ⟨wordsB, k', hmB, hk', hqueryB⟩ := query_of_eval hb
  have hkk : k' = k := by
    rw [← hsame, hk] at hk'
    exact (Option.some.inj hk').symm
  rw [hkk, uniform.queryMap_eq_some] at hqueryB
  constructor
  · intro e he
    obtain ⟨e', he', heq⟩ := List.mem_map.mp (List.of_mem_zip he).1
    exact heq ▸ hkeys e' he'
  · refine ⟨k, hk, queryMap_of_forall₂ ?_ hqueryA⟩
    rw [List.forall₂_map_left_iff, List.forall₂_map_right_iff]
    refine (hvals.zip_left hlen).imp ?_
    rintro e e' ⟨hkey, bval, bc, hmem, hbc, hv⟩
    refine ⟨by rw [hkey], fun hek hea => ?_⟩
    have hbval := @getConstantIntValue_spec _ _ _ _ _ env h _ _ (hentriesB _ hmem).2 hbc
    have hbcb : bc = b := hqueryB.2 _ (mem_of_entry (hwordsB wordsB hmB) hmem hbval) hek
    rw [hv, hea, hbcb]
    exact evalBinop_of_evalArith hx

end

/-! ## Runs of rewrites -/

theorem isBinop_rename (f : ValueId → ValueId) (op : Op) : (op.rename f).isBinop = op.isBinop := by
  cases op <;> rfl

theorem binops_foldedConstants (next : ValueId) (entries : List (ValueId × BitVec 64)) :
    (foldedConstants next entries).countP Op.isBinop = 0 := by
  induction entries generalizing next with
  | nil => rfl
  | cons e entries ih =>
      rw [foldedConstants, List.countP_cons_of_neg (by simp [Op.isBinop])]
      exact ih _

theorem binops_buildFoldedQuery (next : ValueId) (folded : Folded) :
    (buildFoldedQuery next folded).countP Op.isBinop = 0 := by
  rw [buildFoldedQuery, List.countP_append, binops_foldedConstants]
  rfl

/-- A rewrite takes one `arith` op away. -/
theorem Rewrite.binops_eq {uniform : UniformDialect} {program program' : Program}
    (h : Rewrite uniform program program') : program'.binops + 1 = program.binops := by
  cases h with
  | mk before after kind r lhs rhs next root folded h =>
      have hafter : ∀ f : ValueId → ValueId,
          (after.map (Op.rename f)).countP Op.isBinop = after.countP Op.isBinop := by
        intro f
        rw [List.countP_map]
        exact List.countP_congr fun op _ => by simp [isBinop_rename]
      show List.countP _ (_ ++ (_ ++ _)) + 1 = List.countP _ (_ ++ _)
      rw [List.countP_append, List.countP_append, List.countP_append, binops_buildFoldedQuery,
        hafter, List.countP_cons_of_pos (by rfl)]
      omega

section

variable {uniform : UniformDialect} {interp : Nat → List Val → Option Val} {scope : List Nat}

/-- An expression over values that are defined outside: every op reads what is in scope and defines
a new value. -/
structure Program.InScope (uniform : UniformDialect) (interp : Nat → List Val → Option Val)
    (scope : List Nat) (program : Program) : Prop where
  ops : Scoped (language uniform interp) scope program.ops
  lt_next : ∀ v ∈ scope ++ program.ops.map Op.result, v < program.next
  root : program.root ∈ scope ++ program.ops.map Op.result

/-- An op that is defined reads two words. -/
theorem eval_binop {env : ValueId → Option Val} {kind : BinOp} {r lhs rhs : ValueId} {x : Val}
    (h : (Op.binop kind r lhs rhs).eval uniform interp env = some x) :
    ∃ a b w, (env lhs).bind Val.index? = some a ∧ (env rhs).bind Val.index? = some b ∧
      evalArith kind a b = some w ∧ x = .index w := by
  obtain ⟨a, ha, h⟩ := Option.bind_eq_some_iff.mp h
  obtain ⟨b, hb, h⟩ := Option.bind_eq_some_iff.mp h
  obtain ⟨w, hw, h⟩ := Option.map_eq_some_iff.mp h
  exact ⟨a, b, w, ha, hb, hw, h.symm⟩

/-- **One rewrite** keeps the scope of the expression, and its value where that is defined. -/
theorem Rewrite.keeps {program program' : Program} (hstep : Rewrite uniform program program')
    (h : program.InScope uniform interp scope) :
    program'.InScope uniform interp scope ∧ ∀ env x, program.eval uniform interp env = some x →
      program'.eval uniform interp env = some x := by
  cases hstep with
  | mk before after kind r lhs rhs next root folded hfolded =>
      obtain ⟨hops, hlt, hroot⟩ := h
      obtain ⟨hbefore, hoperands, hrest⟩ := scoped_append.mp hops
      have hlhs : lhs ∈ scope ++ before.map Op.result := hoperands lhs (by simp [language, Op.operands])
      have hrhs : rhs ∈ scope ++ before.map Op.result := hoperands rhs (by simp [language, Op.operands])
      obtain ⟨hkeys, hkey⟩ := mem_of_folded hops hlhs hrhs hfolded
      have hbelow : ∀ v ∈ scope ++ before.map Op.result, v < next := fun v hv => hlt v (by
        rw [List.map_append, ← List.append_assoc]
        exact List.mem_append_left _ hv)
      have hreplaces : Replaces (language uniform interp) scope before after
          (buildFoldedQuery next folded) (.binop kind r lhs rhs) (next + folded.entries.length + 1)
          next := by
        refine ⟨hops, hlt, scoped_buildFoldedQuery hbelow hkeys hkey, ?_, ?_⟩
        · intro v hv
          have hmem : v ∈ (buildFoldedQuery next folded).map Op.result := hv
          rw [result_buildFoldedQuery] at hmem
          grind [List.mem_range']
        · show _ ∈ (buildFoldedQuery next folded).map Op.result
          rw [result_buildFoldedQuery]
          grind [List.mem_range']
      have hresults : (before ++ (buildFoldedQuery next folded ++
          after.map (Op.rename (replace r (next + folded.entries.length + 1))))).map Op.result =
          before.map Op.result ++ (List.range' next (folded.entries.length + 2) ++
            after.map Op.result) := by
        rw [List.map_append, List.map_append, result_buildFoldedQuery, List.map_map]
        congr 2
        exact List.map_congr_left fun op _ => Op.result_rename _ op
      rw [List.map_append, List.map_cons] at hlt hroot
      refine ⟨⟨hreplaces.replaced_inScope, ?_, ?_⟩, ?_⟩
      · intro v hv
        show v < next + folded.entries.length + 2
        rw [hresults] at hv
        have := hlt v
        grind [List.mem_range']
      · show replace r _ root ∈ _
        rw [hresults]
        by_cases heq : root = r
        · rw [heq, replace_self]
          grind [List.mem_range']
        · rw [replace_of_ne heq]
          have hr : (Op.binop kind r lhs rhs).result = r := rfl
          grind
      · intro env x hx
        refine hreplaces.run_eq ?_ root (by simpa [language] using hroot) x hx
        intro y hy
        have hy : (Op.binop kind r lhs rhs).eval uniform interp
          (run (language uniform interp) env before) = some y := hy
        obtain ⟨a, b, w, ha, hb, hw, rfl⟩ := eval_binop hy
        have hqueries : folded.Queries uniform (run (language uniform interp) env before) w := by
          rcases hfolded with hfold | hmerge
          · exact queries_of_foldConstIntoQuery hops hlhs hrhs hfold ha hb hw
          · exact queries_of_mergeQueriesSameKey hops hlhs hrhs hmerge ha hb hw
        obtain ⟨k, hk, hquery⟩ := hqueries.query
        rw [run_buildFoldedQuery hbelow (fun e he => ⟨hkeys e he, hqueries.keys e he⟩) hkey hk,
          hquery]
        rfl

/-- **Collapsing keeps what an expression is worth**: after any number of rewrites in any order, the
expression has the value that it had, if that is defined. Each of them takes an `arith` op away, so
that rewriting ends. -/
theorem rewrites_keepValue {n : Nat} {program program' : Program}
    (h : program.InScope uniform interp scope) (hrewrites : Rewrites uniform n program program') :
    (∀ env x, program.eval uniform interp env = some x →
      program'.eval uniform interp env = some x) ∧
    n + program'.binops = program.binops ∧
    WellFounded fun next previous => Rewrite uniform previous next := by
  refine ⟨?_, ?_, ?_⟩
  · induction hrewrites with
    | refl => exact fun env x hx => hx
    | step hstep _ ih =>
        obtain ⟨hscope, hkeep⟩ := hstep.keeps h
        exact fun env x hx => ih hscope env x (hkeep env x hx)
  · induction hrewrites with
    | refl => exact Nat.zero_add _
    | step hstep _ ih =>
        have hbinops := hstep.binops_eq
        have hrest := ih (hstep.keeps h).1
        omega
  · apply Subrelation.wf _ (measure Program.binops).wf
    intro next previous hstep
    have hbinops := hstep.binops_eq
    show next.binops < previous.binops
    omega

end

/-! ### A share of an allocation, and its start -/

/-- Lookups that take the first entry of a key. -/
def getValueOf (entries : List (ValueId × ValueId)) (key : ValueId) : Option ValueId :=
  (entries.find? fun e => e.1 = key).map Prod.snd

def queryMapOf (entries : List (BitVec 64 × BitVec 64)) (key : BitVec 64) : Option (BitVec 64) :=
  (entries.find? fun e => e.1 = key).bind fun e =>
    if entries.all fun e' => e'.1 ≠ key ∨ e'.2 = e.2 then some e.2 else none

theorem getValueOf_mem (entries : List (ValueId × ValueId)) (key v : ValueId)
    (h : getValueOf entries key = some v) : (key, v) ∈ entries := by
  obtain ⟨e, he, hv⟩ := Option.map_eq_some_iff.mp h
  have hkey : e.1 = key := by simpa using List.find?_some he
  rw [← hkey, ← hv]
  exact List.mem_of_find?_eq_some he

theorem queryMapOf_eq_some (entries : List (BitVec 64 × BitVec 64)) (key v : BitVec 64) :
    queryMapOf entries key = some v ↔
      (∃ e ∈ entries, e.1 = key) ∧ ∀ e ∈ entries, e.1 = key → e.2 = v := by
  have hall (w : BitVec 64) : (entries.all fun e => decide (e.1 ≠ key ∨ e.2 = w)) = true ↔
      ∀ e ∈ entries, e.1 = key → e.2 = w := by
    simp only [List.all_eq_true, decide_eq_true_eq, ne_eq, ← imp_iff_not_or]
  constructor
  · intro h
    obtain ⟨e, he, h⟩ := Option.bind_eq_some_iff.mp h
    have hkey : e.1 = key := by simpa using List.find?_some he
    refine ⟨⟨e, List.mem_of_find?_eq_some he, hkey⟩, ?_⟩
    split at h
    · next hthen =>
        rw [← Option.some.inj h]
        exact (hall e.2).mp hthen
    · cases h
  · intro h
    obtain ⟨⟨e, he, hkey⟩, hv⟩ := h
    have hsome : (entries.find? fun e => e.1 = key).isSome :=
      List.find?_isSome.mpr ⟨e, he, by simpa using hkey⟩
    obtain ⟨e', he'⟩ := Option.isSome_iff_exists.mp hsome
    have hmem := List.mem_of_find?_eq_some he'
    have hkey' : e'.1 = key := by simpa using List.find?_some he'
    rw [queryMapOf, he', Option.bind_some, hv e' hmem hkey', if_pos ((hall v).mpr hv)]

def firstEntry : UniformDialect where
  getValue := getValueOf
  queryMap := queryMapOf
  getValue_mem := getValueOf_mem
  queryMap_eq_some := queryMapOf_eq_some

/-- The queries of two mappings of the devices `1` and `2` with key `0`: the sizes of an allocation
that six share, and where it starts. -/
def shareProgram : Program where
  ops := [.constant 3 100, .constant 4 200, .defImmutableMapping 5 [(1, 3), (2, 4)],
    .queryMap 6 5 0, .constant 7 6, .defImmutableMapping 8 [(2, 4), (1, 7)], .queryMap 9 8 0,
    .binop .divui 10 6 7, .binop .addi 11 10 9]
  next := 12
  root := 11

theorem shareProgram_rewrites : Rewrites firstEntry 2 shareProgram
    ⟨[.constant 3 100, .constant 4 200, .defImmutableMapping 5 [(1, 3), (2, 4)],
      .queryMap 6 5 0, .constant 7 6, .defImmutableMapping 8 [(2, 4), (1, 7)], .queryMap 9 8 0,
      .constant 12 16, .constant 13 33, .defImmutableMapping 14 [(1, 12), (2, 13)],
      .queryMap 15 14 0, .constant 16 22, .constant 17 233,
      .defImmutableMapping 18 [(1, 16), (2, 17)], .queryMap 19 18 0], 20, 19⟩ := by
  refine .step (.mk (shareProgram.ops.take 7) [.binop .addi 11 10 9] .divui 10 6 7 12 11
    ⟨[(1, 16), (2, 33)], 0⟩ (.inl rfl)) (.step (.mk (shareProgram.ops.take 7 ++
      [.constant 12 16, .constant 13 33, .defImmutableMapping 14 [(1, 12), (2, 13)],
        .queryMap 15 14 0]) [] .addi 11 15 9 16 11 ⟨[(1, 22), (2, 233)], 0⟩ (.inr rfl)) (.refl _))

theorem shareProgram_inScope (interp : Nat → List Val → Option Val) :
    shareProgram.InScope firstEntry interp [0, 1, 2] where
  ops := by simp [Scoped, shareProgram, language, Op.operands, Op.result]
  lt_next := by decide
  root := by decide

theorem rewrites_keepValue_share : ∃ program',
    Rewrites firstEntry 2 shareProgram program' ∧
    (∀ env x, shareProgram.eval firstEntry (fun _ _ => none) env = some x →
      program'.eval firstEntry (fun _ _ => none) env = some x) ∧
    2 + program'.binops = shareProgram.binops ∧
    WellFounded fun next previous => Rewrite firstEntry previous next :=
  ⟨_, shareProgram_rewrites,
    rewrites_keepValue (shareProgram_inScope fun _ _ => none) shareProgram_rewrites⟩

end QueryMapArithCollapse

end DataflowScheduler
