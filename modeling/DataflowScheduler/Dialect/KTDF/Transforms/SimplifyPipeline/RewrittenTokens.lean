import DataflowScheduler.Dialect.KTDF.Transforms.SimplifyPipeline

/-!
# The edges of rewritten tokens

After `rewriteTokens` the edges over local tokens are those that were to be kept, every stage with a
consumer outputs one local token of its own, and tokens with other users are where they were.
-/

namespace DataflowScheduler

namespace SimplifyPipeline

/-- An edge: a token that one stage outputs and the other awaits, and that nothing else uses. -/
def LocalEdge (p : Pipeline) (producer consumer : StageId) : Prop :=
  producer ∈ p.stages ∧ consumer ∈ p.stages ∧ ∃ token, isLocalToken p token = true ∧
    token ∈ p.dependsOut producer ∧ token ∈ p.dependsIn consumer

/-- The edges over local tokens are enumerated. -/
def Enumerates (p : Pipeline) (edges : ConsumerEdges) : Prop :=
  ∀ stage ∈ p.stages, ∀ token consumer, isLocalToken p token = true →
    ((token, consumer) ∈ edges stage ↔
      token ∈ p.dependsOut stage ∧ consumer ∈ p.stages ∧ token ∈ p.dependsIn consumer)

/-- Tokens in use exist. -/
structure Pipeline.Valid (p : Pipeline) : Prop where
  dependsIn : ∀ stage ∈ p.stages, ∀ token ∈ p.dependsIn stage, token < p.nextToken
  dependsOut : ∀ stage ∈ p.stages, ∀ token ∈ p.dependsOut stage, token < p.nextToken
  usedElsewhere : ∀ token, p.usedElsewhere token = true → token < p.nextToken

variable {p : Pipeline} {edges : ConsumerEdges} {keep : StageId → StageId → Bool}

theorem mem_keptEdges (hedges : Enumerates p edges) {a b : StageId} :
    (a, b) ∈ keptEdges p edges keep ↔ LocalEdge p a b ∧ keep a b = true := by
  simp only [keptEdges, List.mem_flatMap, List.mem_map, List.mem_filter, Bool.and_eq_true,
    Prod.mk.injEq]
  constructor
  · rintro ⟨stage, hstage, ⟨token, consumer⟩, ⟨hedge, hlocal, hkeep⟩, rfl, rfl⟩
    obtain ⟨hout, hconsumer, hin⟩ := (hedges stage hstage token consumer hlocal).mp hedge
    exact ⟨⟨hstage, hconsumer, token, hlocal, hout, hin⟩, hkeep⟩
  · rintro ⟨⟨ha, hb, token, hlocal, hout, hin⟩, hkeep⟩
    exact ⟨a, ha, (token, b), ⟨(hedges a ha token b hlocal).mpr ⟨hout, hb, hin⟩, hlocal, hkeep⟩,
      rfl, rfl⟩

theorem mem_producersOf {kept : List (StageId × StageId)} {a b : StageId} :
    a ∈ producersOf kept b ↔ (a, b) ∈ kept := by
  simp only [producersOf, SetVector.mem_ofList, List.mem_map, List.mem_filter, beq_iff_eq]
  constructor
  · rintro ⟨⟨a', b'⟩, ⟨hmem, rfl⟩, rfl⟩
    exact hmem
  · intro hmem
    exact ⟨(a, b), ⟨hmem, rfl⟩, rfl⟩

theorem mem_producers {kept : List (StageId × StageId)} {a : StageId} :
    a ∈ (consumersOf kept).flatMap (producersOf kept) ↔ ∃ b, (a, b) ∈ kept := by
  simp only [List.mem_flatMap, mem_producersOf, consumersOf, SetVector.mem_ofList, List.mem_map]
  constructor
  · rintro ⟨b, -, hmem⟩
    exact ⟨b, hmem⟩
  · rintro ⟨b, hmem⟩
    exact ⟨b, ⟨(a, b), hmem, rfl⟩, hmem⟩

/-! ## Tokens of producers -/

theorem findUniqueToken_eq_some {a : StageId} {token : Token} (h : findUniqueToken p a = some token) :
    token ∈ p.dependsOut a ∧ isLocalToken p token = true ∧
      ∀ stage ∈ p.stages, token ∈ p.dependsOut stage → stage = a := by
  have hfound := List.find?_some h
  rw [Bool.and_eq_true] at hfound
  refine ⟨List.mem_of_find?_eq_some h, hfound.1, fun stage hstage hout => ?_⟩
  have hunique := List.all_eq_true.mp hfound.2 stage hstage
  rw [Bool.or_eq_true, beq_iff_eq] at hunique
  rcases hunique with rfl | hnot
  · rfl
  · rw [Bool.not_eq_true', ← Bool.not_eq_true, List.contains_iff_mem] at hnot
    exact absurd hout hnot

/-- Where a producer has a token, it is the first one unique to it, or a new one if it has none; no two
producers have the same. -/
structure UniqueOut.Right (p : Pipeline) (unique : UniqueOut) : Prop where
  token : ∀ a token, unique.tokenOf a = some token → a ∈ p.stages ∧ token < unique.nextToken ∧
    (findUniqueToken p a = some token ∨ (findUniqueToken p a = none ∧ p.nextToken ≤ token))
  injective : ∀ a b token, unique.tokenOf a = some token → unique.tokenOf b = some token → a = b
  le : p.nextToken ≤ unique.nextToken

theorem UniqueOut.tokenOf_assign_self (unique : UniqueOut) (a : StageId) (token next : Token) :
    (unique.assign a token next).tokenOf a = some token := Function.update_self ..

theorem UniqueOut.tokenOf_assign_of_ne (unique : UniqueOut) {a b : StageId} (token next : Token)
    (h : b ≠ a) : (unique.assign a token next).tokenOf b = unique.tokenOf b :=
  Function.update_of_ne h ..

theorem UniqueOut.isSome_assign (unique : UniqueOut) {a b : StageId} (token next : Token)
    (h : (unique.tokenOf b).isSome) : ((unique.assign a token next).tokenOf b).isSome := by
  by_cases hba : b = a
  · rw [hba, tokenOf_assign_self]
    rfl
  · rwa [tokenOf_assign_of_ne _ _ _ hba]

/-- A producer can get a token that no other has. -/
theorem UniqueOut.Right.assign {unique : UniqueOut} (h : unique.Right p) {a : StageId}
    {token next : Token} (ha : a ∈ p.stages) (hnew : ∀ b, unique.tokenOf b = some token → b = a)
    (htoken : token < next) (hnext : unique.nextToken ≤ next)
    (hfound : findUniqueToken p a = some token ∨ (findUniqueToken p a = none ∧ p.nextToken ≤ token)) :
    (unique.assign a token next).Right p := by
  refine ⟨fun b t hb => ?_, fun b c t hb hc => ?_, Nat.le_trans h.le hnext⟩
  · by_cases hba : b = a
    · subst hba
      rw [tokenOf_assign_self] at hb
      cases hb
      exact ⟨ha, htoken, hfound⟩
    · rw [tokenOf_assign_of_ne _ _ _ hba] at hb
      obtain ⟨hmem, hlt, hfound'⟩ := h.token b t hb
      exact ⟨hmem, Nat.lt_of_lt_of_le hlt hnext, hfound'⟩
  · by_cases hba : b = a <;> by_cases hca : c = a
    · rw [hba, hca]
    · rw [hba, tokenOf_assign_self] at hb
      cases hb
      rw [tokenOf_assign_of_ne _ _ _ hca] at hc
      rw [hba, hnew c hc]
    · rw [hca, tokenOf_assign_self] at hc
      cases hc
      rw [tokenOf_assign_of_ne _ _ _ hba] at hb
      rw [hca, hnew b hb]
    · rw [tokenOf_assign_of_ne _ _ _ hba] at hb
      rw [tokenOf_assign_of_ne _ _ _ hca] at hc
      exact h.injective b c t hb hc

theorem UniqueOut.Right.add {unique : UniqueOut} (h : unique.Right p) (hvalid : p.Valid)
    {a : StageId} (ha : a ∈ p.stages) :
    (unique.add p a).Right p ∧ ((unique.add p a).tokenOf a).isSome ∧
      (∀ b, (unique.tokenOf b).isSome → ((unique.add p a).tokenOf b).isSome) := by
  unfold UniqueOut.add
  split
  · next hsome => exact ⟨h, hsome, fun _ hb => hb⟩
  · split
    · next token hfind =>
        obtain ⟨hout, -, hunique⟩ := findUniqueToken_eq_some hfind
        have hold : token < p.nextToken := hvalid.dependsOut a ha token hout
        refine ⟨h.assign ha ?_ (Nat.lt_of_lt_of_le hold h.le) (Nat.le_refl _) (.inl hfind), ?_,
          fun _ hb => unique.isSome_assign _ _ hb⟩
        · -- a token that another producer has is unique to that one, or was created
          intro b hb
          obtain ⟨hbmem, -, hfound | ⟨-, hfresh⟩⟩ := h.token b token hb
          · exact hunique b hbmem (findUniqueToken_eq_some hfound).1
          · exact absurd hold (Nat.not_lt.mpr hfresh)
        · rw [tokenOf_assign_self]
          rfl
    · next hfind =>
        refine ⟨h.assign ha ?_ (Nat.lt_succ_self _) (Nat.le_succ _) (.inr ⟨hfind, h.le⟩), ?_,
          fun _ hb => unique.isSome_assign _ _ hb⟩
        · intro b hb
          exact absurd (h.token b _ hb).2.1 (Nat.lt_irrefl _)
        · rw [tokenOf_assign_self]
          rfl

/-- Where every producer has a token unique to it, none is created. -/
theorem UniqueOut.nextToken_add {unique : UniqueOut} {a : StageId}
    (h : (findUniqueToken p a).isSome) : (unique.add p a).nextToken = unique.nextToken := by
  unfold UniqueOut.add
  split
  · rfl
  · split
    · rfl
    · next hfind =>
        rw [hfind] at h
        cases h

theorem uniqueOut_right (hvalid : p.Valid) {kept : List (StageId × StageId)}
    (hkept : ∀ edge ∈ kept, edge.1 ∈ p.stages) :
    (uniqueOut p kept).Right p ∧ ∀ a b, (a, b) ∈ kept → ((uniqueOut p kept).tokenOf a).isSome := by
  have hfold : ∀ (l : List StageId) (unique : UniqueOut), (∀ a ∈ l, a ∈ p.stages) →
      unique.Right p → (l.foldl (UniqueOut.add p) unique).Right p ∧
        (∀ a ∈ l, ((l.foldl (UniqueOut.add p) unique).tokenOf a).isSome) ∧
        ∀ a, (unique.tokenOf a).isSome → ((l.foldl (UniqueOut.add p) unique).tokenOf a).isSome := by
    intro l
    induction l with
    | nil => exact fun unique _ h => ⟨h, nofun, fun _ ha => ha⟩
    | cons a l ih =>
        intro unique hl h
        obtain ⟨hadd, hself, hothers⟩ := h.add hvalid (hl a List.mem_cons_self)
        obtain ⟨hright, hmem, hstay⟩ := ih _ (fun b hb => hl b (List.mem_cons_of_mem _ hb)) hadd
        refine ⟨hright, fun b hb => ?_, fun b hb => hstay b (hothers b hb)⟩
        rcases List.mem_cons.mp hb with rfl | hb
        · exact hstay b hself
        · exact hmem b hb
  obtain ⟨hright, hmem, -⟩ := hfold ((consumersOf kept).flatMap (producersOf kept))
    ⟨fun _ => none, p.nextToken⟩
    (fun a ha => by
      obtain ⟨b, hab⟩ := mem_producers.mp ha
      exact hkept _ hab)
    ⟨nofun, nofun, Nat.le_refl _⟩
  exact ⟨hright, fun a b hab => hmem a (mem_producers.mpr ⟨b, hab⟩)⟩

/-- Only producers get tokens. -/
theorem mem_kept_of_tokenOf {kept : List (StageId × StageId)} {a : StageId}
    (h : ((uniqueOut p kept).tokenOf a).isSome) : ∃ b, (a, b) ∈ kept := by
  have hfold : ∀ (l : List StageId) (unique : UniqueOut),
      ((l.foldl (UniqueOut.add p) unique).tokenOf a).isSome → (unique.tokenOf a).isSome ∨ a ∈ l := by
    intro l
    induction l with
    | nil => exact fun unique h => .inl h
    | cons b l ih =>
        intro unique h
        by_cases hab : a = b
        · exact .inr (hab ▸ List.mem_cons_self)
        · refine (ih _ h).imp (fun hadd => ?_) (List.mem_cons_of_mem _)
          unfold UniqueOut.add at hadd
          split at hadd
          · exact hadd
          · split at hadd
            · rwa [UniqueOut.tokenOf_assign_of_ne _ _ _ hab] at hadd
            · rwa [UniqueOut.tokenOf_assign_of_ne _ _ _ hab] at hadd
  rcases hfold _ _ h with hnone | hmem
  · cases hnone
  · exact mem_producers.mp hmem

theorem uniqueOut_nextToken {kept : List (StageId × StageId)}
    (h : ∀ a b, (a, b) ∈ kept → (findUniqueToken p a).isSome) :
    (uniqueOut p kept).nextToken = p.nextToken := by
  have hfold : ∀ (l : List StageId) (unique : UniqueOut), (∀ a ∈ l, (findUniqueToken p a).isSome) →
      (l.foldl (UniqueOut.add p) unique).nextToken = unique.nextToken := by
    intro l
    induction l with
    | nil => exact fun _ _ => rfl
    | cons a l ih =>
        intro unique hl
        show (l.foldl (UniqueOut.add p) (unique.add p a)).nextToken = _
        rw [ih _ fun b hb => hl b (List.mem_cons_of_mem _ hb),
          UniqueOut.nextToken_add (hl a List.mem_cons_self)]
  refine hfold _ _ fun a ha => ?_
  obtain ⟨b, hab⟩ := mem_producers.mp ha
  exact h a b hab

/-! ## The rewritten lists -/

theorem mem_mergeTokens {current target : List Token} {token : Token} :
    token ∈ mergeTokens p current target ↔
      (token ∈ current ∧ isLocalToken p token = false) ∨ token ∈ target := by
  rw [mergeTokens, SetVector.mem_insertAll, SetVector.mem_ofList, List.mem_filter, Bool.or_eq_true,
    Bool.not_eq_true', List.contains_iff_mem]
  tauto

theorem nodup_mergeTokens (current target : List Token) : (mergeTokens p current target).Nodup :=
  SetVector.nodup_insertAll (SetVector.nodup_ofList _) _

/-- A list that is merged already stays. -/
theorem mergeTokens_eq_self {current target : List Token} (hnodup : current.Nodup)
    (hmem : ∀ token ∈ current, isLocalToken p token = true → token ∈ target)
    (htarget : ∀ token ∈ target, token ∈ current) : mergeTokens p current target = current := by
  have hfilter : current.filter (fun token => !isLocalToken p token || target.contains token) =
      current := by
    rw [List.filter_eq_self]
    intro token htoken
    rw [Bool.or_eq_true, Bool.not_eq_true', List.contains_iff_mem]
    cases hlocal : isLocalToken p token with
    | false => exact .inl rfl
    | true => exact .inr (hmem token htoken hlocal)
  rw [mergeTokens, hfilter, SetVector.ofList_of_nodup hnodup, SetVector.insertAll_of_subset htarget]

theorem mem_inTarget {kept : List (StageId × StageId)} {unique : UniqueOut} {stage : StageId}
    {token : Token} : token ∈ inTarget kept unique stage ↔
      ∃ a, (a, stage) ∈ kept ∧ unique.tokenOf a = some token := by
  simp only [inTarget, List.mem_filterMap, mem_producersOf]

/-- The tokens of producers have no users outside. -/
theorem isLocalToken_of_tokenOf (hvalid : p.Valid) {unique : UniqueOut} (h : unique.Right p)
    {a : StageId} {token : Token} (ha : unique.tokenOf a = some token) :
    isLocalToken p token = true := by
  obtain ⟨-, -, hfound | ⟨-, hfresh⟩⟩ := h.token a token ha
  · exact (findUniqueToken_eq_some hfound).2.1
  · rw [isLocalToken, Bool.not_eq_true', ← Bool.not_eq_true]
    intro hused
    exact absurd (hvalid.usedElsewhere token hused) (Nat.not_lt.mpr hfresh)

/-! ## The rewritten pipeline -/

section Rewritten

theorem stages_rewriteTokens : (rewriteTokens p edges keep).1.stages = p.stages := rfl

theorem isLocalToken_rewriteTokens (token : Token) :
    isLocalToken (rewriteTokens p edges keep).1 token = isLocalToken p token := rfl

theorem dependsIn_rewriteTokens {stage : StageId} (h : stage ∈ p.stages) :
    (rewriteTokens p edges keep).1.dependsIn stage = mergeTokens p (p.dependsIn stage)
      (inTarget (keptEdges p edges keep) (uniqueOut p (keptEdges p edges keep)) stage) := if_pos h

theorem dependsOut_rewriteTokens {stage : StageId} (h : stage ∈ p.stages) :
    (rewriteTokens p edges keep).1.dependsOut stage = mergeTokens p (p.dependsOut stage)
      ((uniqueOut p (keptEdges p edges keep)).tokenOf stage).toList := if_pos h

theorem dependsIn_of_notMem {stage : StageId} (h : stage ∉ p.stages) :
    (rewriteTokens p edges keep).1.dependsIn stage = p.dependsIn stage := if_neg h

theorem dependsOut_of_notMem {stage : StageId} (h : stage ∉ p.stages) :
    (rewriteTokens p edges keep).1.dependsOut stage = p.dependsOut stage := if_neg h

theorem mem_dependsOut_rewriteTokens {stage : StageId} (h : stage ∈ p.stages) {token : Token} :
    token ∈ (rewriteTokens p edges keep).1.dependsOut stage ↔
      (token ∈ p.dependsOut stage ∧ isLocalToken p token = false) ∨
      (uniqueOut p (keptEdges p edges keep)).tokenOf stage = some token := by
  rw [dependsOut_rewriteTokens h, mem_mergeTokens, Option.mem_toList]

variable (hvalid : p.Valid) (hedges : Enumerates p edges)

include hedges

theorem mem_stages_of_kept (keep : StageId → StageId → Bool) :
    ∀ edge ∈ keptEdges p edges keep, edge.1 ∈ p.stages :=
  fun _ hmem => ((mem_keptEdges hedges).mp hmem).1.1

theorem mem_dependsIn_rewriteTokens {stage : StageId} (h : stage ∈ p.stages) {token : Token} :
    token ∈ (rewriteTokens p edges keep).1.dependsIn stage ↔
      (token ∈ p.dependsIn stage ∧ isLocalToken p token = false) ∨
      ∃ a, (LocalEdge p a stage ∧ keep a stage = true) ∧
        (uniqueOut p (keptEdges p edges keep)).tokenOf a = some token := by
  rw [dependsIn_rewriteTokens h, mem_mergeTokens, mem_inTarget]
  simp only [mem_keptEdges hedges]

include hvalid

/-- **The edges are those to keep.** -/
theorem localEdge_rewriteTokens {a b : StageId} :
    LocalEdge (rewriteTokens p edges keep).1 a b ↔ LocalEdge p a b ∧ keep a b = true := by
  obtain ⟨hright, hsome⟩ := uniqueOut_right hvalid (mem_stages_of_kept hedges keep)
  constructor
  · rintro ⟨ha, hb, token, hlocal, hout, hin⟩
    rw [isLocalToken_rewriteTokens] at hlocal
    rw [stages_rewriteTokens] at ha hb
    rcases (mem_dependsOut_rewriteTokens ha).mp hout with ⟨-, hforeign⟩ | hout
    · rw [hlocal] at hforeign
      cases hforeign
    · rcases (mem_dependsIn_rewriteTokens hedges hb).mp hin with ⟨-, hforeign⟩ | ⟨c, hc, hin⟩
      · rw [hlocal] at hforeign
        cases hforeign
      · rw [hright.injective a c token hout hin]
        exact hc
  · intro hkept
    obtain ⟨token, htoken⟩ := Option.isSome_iff_exists.mp
      (hsome a b ((mem_keptEdges hedges).mpr hkept))
    refine ⟨hkept.1.1, hkept.1.2.1, token, isLocalToken_of_tokenOf hvalid hright htoken, ?_, ?_⟩
    · exact (mem_dependsOut_rewriteTokens hkept.1.1).mpr (.inr htoken)
    · exact (mem_dependsIn_rewriteTokens hedges hkept.1.2.1).mpr (.inr ⟨a, hkept, htoken⟩)

end Rewritten

/-- Tokens with other users are where they were. -/
structure SameForeignTokens (p q : Pipeline) : Prop where
  stages : q.stages = p.stages
  usedElsewhere : q.usedElsewhere = p.usedElsewhere
  dependsIn : ∀ stage token, isLocalToken p token = false →
    (token ∈ q.dependsIn stage ↔ token ∈ p.dependsIn stage)
  dependsOut : ∀ stage token, isLocalToken p token = false →
    (token ∈ q.dependsOut stage ↔ token ∈ p.dependsOut stage)

theorem sameForeignTokens_rewriteTokens (hvalid : p.Valid) (hedges : Enumerates p edges) :
    SameForeignTokens p (rewriteTokens p edges keep).1 := by
  obtain ⟨hright, -⟩ := uniqueOut_right hvalid (mem_stages_of_kept hedges keep)
  have hforeign : ∀ a token, isLocalToken p token = false →
      (uniqueOut p (keptEdges p edges keep)).tokenOf a ≠ some token := by
    intro a token htoken ha
    rw [isLocalToken_of_tokenOf hvalid hright ha] at htoken
    cases htoken
  refine ⟨rfl, rfl, fun stage token htoken => ?_, fun stage token htoken => ?_⟩
  · by_cases hstage : stage ∈ p.stages
    · rw [mem_dependsIn_rewriteTokens hedges hstage]
      constructor
      · rintro (⟨hmem, -⟩ | ⟨a, -, ha⟩)
        · exact hmem
        · exact absurd ha (hforeign a token htoken)
      · exact fun hmem => .inl ⟨hmem, htoken⟩
    · rw [dependsIn_of_notMem hstage]
  · by_cases hstage : stage ∈ p.stages
    · rw [mem_dependsOut_rewriteTokens hstage]
      constructor
      · rintro (⟨hmem, -⟩ | ha)
        · exact hmem
        · exact absurd ha (hforeign stage token htoken)
      · exact fun hmem => .inl ⟨hmem, htoken⟩
    · rw [dependsOut_of_notMem hstage]

/-! ## Normal tokens -/

/-- A stage outputs a local token only for a consumer, then just the one, which is unique to it; a local
token is awaited only if a stage outputs it; nothing is repeated. -/
structure Pipeline.Normal (q : Pipeline) : Prop where
  consumed : ∀ a ∈ q.stages, ∀ token ∈ q.dependsOut a, isLocalToken q token = true →
    ∃ b, LocalEdge q a b
  single : ∀ a ∈ q.stages, ∀ token ∈ q.dependsOut a, ∀ token' ∈ q.dependsOut a,
    isLocalToken q token = true → isLocalToken q token' = true → token = token'
  unique : ∀ a ∈ q.stages, ∀ b ∈ q.stages, ∀ token, isLocalToken q token = true →
    token ∈ q.dependsOut a → token ∈ q.dependsOut b → a = b
  produced : ∀ b ∈ q.stages, ∀ token ∈ q.dependsIn b, isLocalToken q token = true →
    ∃ a ∈ q.stages, token ∈ q.dependsOut a
  nodup : ∀ stage ∈ q.stages, (q.dependsIn stage).Nodup ∧ (q.dependsOut stage).Nodup

section Normal

variable (hvalid : p.Valid) (hedges : Enumerates p edges)

include hvalid hedges

theorem valid_rewriteTokens : (rewriteTokens p edges keep).1.Valid := by
  obtain ⟨hright, -⟩ := uniqueOut_right hvalid (mem_stages_of_kept hedges keep)
  refine ⟨fun stage (hstage : stage ∈ p.stages) token hmem => ?_,
    fun stage (hstage : stage ∈ p.stages) token hmem => ?_, fun token hused => ?_⟩
  · rcases (mem_dependsIn_rewriteTokens hedges hstage).mp hmem with ⟨hmem, -⟩ | ⟨a, -, ha⟩
    · exact Nat.lt_of_lt_of_le (hvalid.dependsIn stage hstage token hmem) hright.le
    · exact (hright.token a token ha).2.1
  · rcases (mem_dependsOut_rewriteTokens hstage).mp hmem with ⟨hmem, -⟩ | ha
    · exact Nat.lt_of_lt_of_le (hvalid.dependsOut stage hstage token hmem) hright.le
    · exact (hright.token stage token ha).2.1
  · exact Nat.lt_of_lt_of_le (hvalid.usedElsewhere token hused) hright.le

theorem normal_rewriteTokens : (rewriteTokens p edges keep).1.Normal := by
  obtain ⟨hright, -⟩ := uniqueOut_right hvalid (mem_stages_of_kept hedges keep)
  -- the local tokens that a stage outputs are those of `unique_out`
  have hout : ∀ a ∈ p.stages, ∀ token ∈ (rewriteTokens p edges keep).1.dependsOut a,
      isLocalToken p token = true →
        (uniqueOut p (keptEdges p edges keep)).tokenOf a = some token := by
    intro a ha token hmem hlocal
    rcases (mem_dependsOut_rewriteTokens ha).mp hmem with ⟨-, hforeign⟩ | hout
    · rw [hlocal] at hforeign
      cases hforeign
    · exact hout
  constructor
  · intro a (ha : a ∈ p.stages) token hmem hlocal
    have htoken := hout a ha token hmem hlocal
    obtain ⟨b, hab⟩ := mem_kept_of_tokenOf (by rw [htoken]; rfl)
    exact ⟨b, (localEdge_rewriteTokens hvalid hedges).mpr ((mem_keptEdges hedges).mp hab)⟩
  · intro a (ha : a ∈ p.stages) token hmem token' hmem' hlocal hlocal'
    have htoken := hout a ha token hmem hlocal
    rw [hout a ha token' hmem' hlocal'] at htoken
    exact (Option.some.inj htoken).symm
  · intro a (ha : a ∈ p.stages) b (hb : b ∈ p.stages) token hlocal hmem hmem'
    exact hright.injective a b token (hout a ha token hmem hlocal) (hout b hb token hmem' hlocal)
  · intro b (hb : b ∈ p.stages) token hmem hlocal
    rcases (mem_dependsIn_rewriteTokens hedges hb).mp hmem with ⟨-, hforeign⟩ | ⟨a, hab, ha⟩
    · rw [isLocalToken_rewriteTokens] at hlocal
      rw [hlocal] at hforeign
      cases hforeign
    · exact ⟨a, hab.1.1, (mem_dependsOut_rewriteTokens hab.1.1).mpr (.inr ha)⟩
  · intro stage (hstage : stage ∈ p.stages)
    rw [dependsIn_rewriteTokens hstage, dependsOut_rewriteTokens hstage]
    exact ⟨nodup_mergeTokens _ _, nodup_mergeTokens _ _⟩

/-- Of normal tokens, the one a stage outputs is the one it already has. -/
theorem tokenOf_of_normal (hnormal : p.Normal) {a b : StageId}
    (hkept : LocalEdge p a b ∧ keep a b = true) {token : Token}
    (hlocal : isLocalToken p token = true) (hmem : token ∈ p.dependsOut a) :
    (uniqueOut p (keptEdges p edges keep)).tokenOf a = some token ∧
      (findUniqueToken p a).isSome := by
  obtain ⟨hright, hsome⟩ := uniqueOut_right hvalid (mem_stages_of_kept hedges keep)
  have ha := hkept.1.1
  have hfind : (findUniqueToken p a).isSome := by
    rw [findUniqueToken, List.find?_isSome]
    refine ⟨token, hmem, ?_⟩
    rw [hlocal, Bool.true_and, isUniqueTo, List.all_eq_true]
    intro stage hstage
    rw [Bool.or_eq_true, beq_iff_eq, Bool.not_eq_true', ← Bool.not_eq_true, List.contains_iff_mem]
    by_cases hout : token ∈ p.dependsOut stage
    · exact .inl (hnormal.unique stage hstage a ha token hlocal hout hmem)
    · exact .inr hout
  refine ⟨?_, hfind⟩
  obtain ⟨other, hother⟩ := Option.isSome_iff_exists.mp
    (hsome a b ((mem_keptEdges hedges).mpr hkept))
  obtain ⟨-, -, hfound | ⟨hnone, -⟩⟩ := hright.token a other hother
  · obtain ⟨hout, hotherlocal, -⟩ := findUniqueToken_eq_some hfound
    rw [hother, hnormal.single a ha other hout token hmem hotherlocal hlocal]
  · rw [hnone] at hfind
    cases hfind

/-- **Normal tokens stay**, if all edges are kept. -/
theorem rewriteTokens_of_normal (hnormal : p.Normal)
    (hkeep : ∀ a b, LocalEdge p a b → keep a b = true) : rewriteTokens p edges keep = (p, false) := by
  obtain ⟨hright, hsome⟩ := uniqueOut_right hvalid (mem_stages_of_kept hedges keep)
  have hout : ∀ stage ∈ p.stages, mergeTokens p (p.dependsOut stage)
      ((uniqueOut p (keptEdges p edges keep)).tokenOf stage).toList = p.dependsOut stage := by
    intro stage hstage
    refine mergeTokens_eq_self (hnormal.nodup stage hstage).2 (fun token hmem hlocal => ?_)
      fun token hmem => ?_
    · obtain ⟨b, hab⟩ := hnormal.consumed stage hstage token hmem hlocal
      rw [Option.mem_toList]
      exact (tokenOf_of_normal hvalid hedges hnormal ⟨hab, hkeep _ _ hab⟩ hlocal hmem).1
    · rw [Option.mem_toList] at hmem
      obtain ⟨b, hab⟩ := mem_kept_of_tokenOf (Option.isSome_iff_exists.mpr ⟨token, hmem⟩)
      have hkept := (mem_keptEdges hedges).mp hab
      obtain ⟨-, -, own, hlocal, hown, -⟩ := hkept.1
      have htoken := (tokenOf_of_normal hvalid hedges hnormal hkept hlocal hown).1
      rw [Option.mem_def.mp hmem] at htoken
      rwa [Option.some.inj htoken]
  have hin : ∀ stage ∈ p.stages, mergeTokens p (p.dependsIn stage)
      (inTarget (keptEdges p edges keep) (uniqueOut p (keptEdges p edges keep)) stage) =
        p.dependsIn stage := by
    intro stage hstage
    refine mergeTokens_eq_self (hnormal.nodup stage hstage).1 (fun token hmem hlocal => ?_)
      fun token hmem => ?_
    · obtain ⟨a, ha, hmem'⟩ := hnormal.produced stage hstage token hmem hlocal
      have hab : LocalEdge p a stage := ⟨ha, hstage, token, hlocal, hmem', hmem⟩
      have hkept := And.intro hab (hkeep _ _ hab)
      exact mem_inTarget.mpr ⟨a, (mem_keptEdges hedges).mpr hkept,
        (tokenOf_of_normal hvalid hedges hnormal hkept hlocal hmem').1⟩
    · obtain ⟨a, hab, ha⟩ := mem_inTarget.mp hmem
      have hkept := (mem_keptEdges hedges).mp hab
      obtain ⟨-, -, own, hlocal, hown, hawaited⟩ := hkept.1
      have htoken := (tokenOf_of_normal hvalid hedges hnormal hkept hlocal hown).1
      rw [ha] at htoken
      rwa [Option.some.inj htoken]
  have hnext : (uniqueOut p (keptEdges p edges keep)).nextToken = p.nextToken := by
    refine uniqueOut_nextToken fun a b hab => ?_
    have hkept := (mem_keptEdges hedges).mp hab
    obtain ⟨-, -, own, hlocal, hown, -⟩ := hkept.1
    exact (tokenOf_of_normal hvalid hedges hnormal hkept hlocal hown).2
  have hrewritten : ∀ stage ∈ p.stages, rewrittenTokens p (keptEdges p edges keep) stage =
      (p.dependsIn stage, p.dependsOut stage) := by
    intro stage hstage
    exact Prod.ext (hin stage hstage) (hout stage hstage)
  refine Prod.ext ?_ ?_
  · show Pipeline.mk _ _ _ _ _ = p
    cases p with
    | mk stages dependsIn dependsOut usedElsewhere nextToken =>
        rw [Pipeline.mk.injEq]
        refine ⟨rfl, funext fun stage => ?_, funext fun stage => ?_, rfl, hnext⟩
        · split
          · next hstage => exact congrArg Prod.fst (hrewritten stage hstage)
          · rfl
        · split
          · next hstage => exact congrArg Prod.snd (hrewritten stage hstage)
          · rfl
  · show (p.stages.any fun stage => rewrittenTokens p (keptEdges p edges keep) stage !=
      (p.dependsIn stage, p.dependsOut stage)) = false
    rw [List.any_eq_false]
    intro stage hstage
    rw [hrewritten stage hstage, bne_self_eq_false]
    exact Bool.false_ne_true

end Normal

end SimplifyPipeline

end DataflowScheduler
