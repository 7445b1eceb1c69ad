import Mathlib.Data.List.Perm.Subperm
import DataflowScheduler.Util.Lists
import DataflowScheduler.Conversion.KTDFLowToDFIR.SignalLowering

/-!
# Peers of the units of a signal

Each program unit finds the peers of its units from the corelets it sees: where it pairs corelets,
it sends to one unit of a type, else to all units of that type on its core. The sends of one side
match the receives of the other if both sides choose alike.
-/

namespace DataflowScheduler

namespace SignalLowering

variable {R : Type} [DecidableEq R]

/-! ## Signals of units -/

/-- A resource type of some operand. -/
def IsSignalType (signalUnits : List (QueryMap R)) (resourceType : R) : Prop :=
  ∃ signalUnit ∈ signalUnits, signalUnit.getUnitResourceType = some resourceType

/-- A signal over unit query maps, and the units of the program unit of each type: an operand maps
core ids to the units of one type and corelet, there is one operand for each corelet of a type, and
the program unit of a type holds all of its units. -/
structure UnitsOf (signalUnits : List (QueryMap R)) (units : R → List (GetUnit R)) : Prop where
  nonempty : ∀ signalUnit ∈ signalUnits, signalUnit.entries ≠ []
  resourceType : ∀ signalUnit ∈ signalUnits, ∀ unit ∈ signalUnit.values,
    signalUnit.getUnitResourceType = some unit.resourceType
  key : ∀ signalUnit ∈ signalUnits, ∀ entry ∈ signalUnit.entries,
    entry.1.isSome ∧ entry.1 = entry.2.core
  coreletId : ∀ signalUnit ∈ signalUnits, ∀ unit ∈ signalUnit.values,
    ∀ unit' ∈ signalUnit.values, unit.coreletId = unit'.coreletId
  distinct : signalUnits.Pairwise fun signalUnit signalUnit' =>
    ∀ unit ∈ signalUnit.values, ∀ unit' ∈ signalUnit'.values,
      unit.resourceType = unit'.resourceType → unit.coreletId ≠ unit'.coreletId
  mem_units : ∀ resourceType unit, unit ∈ units resourceType ↔
    unit.resourceType = resourceType ∧ ∃ signalUnit ∈ signalUnits, unit ∈ signalUnit.values

variable {signalUnits : List (QueryMap R)} {units : R → List (GetUnit R)} {T U : R}

omit [DecidableEq R] in
theorem mem_values {queryMap : QueryMap R} {unit : GetUnit R} :
    unit ∈ queryMap.values ↔ ∃ key, (key, unit) ∈ queryMap.entries := by
  simp [QueryMap.values]

omit [DecidableEq R] in
/-- Two units of one operand on one core are the same. -/
theorem UnitsOf.eq_of_core (h : UnitsOf signalUnits units) {signalUnit : QueryMap R}
    (hmem : signalUnit ∈ signalUnits) {unit unit' : GetUnit R} (hunit : unit ∈ signalUnit.values)
    (hunit' : unit' ∈ signalUnit.values) (hcore : unit.core = unit'.core) : unit = unit' := by
  have htype : some unit.resourceType = some unit'.resourceType :=
    (h.resourceType signalUnit hmem unit hunit).symm.trans
      (h.resourceType signalUnit hmem unit' hunit')
  have hcorelet := h.coreletId signalUnit hmem unit hunit unit' hunit'
  obtain ⟨type, core, corelet⟩ := unit
  obtain ⟨type', core', corelet'⟩ := unit'
  cases htype
  cases hcore
  cases hcorelet
  rfl

omit [DecidableEq R] in
/-- The unit that an operand has for a core is the one on that core. -/
theorem UnitsOf.valueAt_eq_some (h : UnitsOf signalUnits units) {signalUnit : QueryMap R}
    (hmem : signalUnit ∈ signalUnits) {core : Int} {unit : GetUnit R} :
    signalUnit.valueAt core = some unit ↔ unit ∈ signalUnit.values ∧ unit.core = some core := by
  have hfound : ∀ entry, signalUnit.entries.find? (fun entry => entry.1 = some core) = some entry →
      entry.2 ∈ signalUnit.values ∧ entry.2.core = some core := by
    intro entry hfind
    have hentry := List.mem_of_find?_eq_some hfind
    have hkey := List.find?_some hfind
    rw [decide_eq_true_eq] at hkey
    exact ⟨List.mem_map_of_mem hentry, (h.key signalUnit hmem entry hentry).2 ▸ hkey⟩
  unfold QueryMap.valueAt
  constructor
  · intro hvalue
    obtain ⟨entry, hfind, rfl⟩ := Option.map_eq_some_iff.mp hvalue
    exact hfound entry hfind
  · rintro ⟨hunit, hcore⟩
    obtain ⟨key, hentry⟩ := mem_values.mp hunit
    have hkey : key = some core := (h.key signalUnit hmem _ hentry).2.trans hcore
    have hsome : (signalUnit.entries.find? fun entry => entry.1 = some core).isSome := by
      rw [List.find?_isSome]
      exact ⟨_, hentry, by simp [hkey]⟩
    obtain ⟨entry, hfind⟩ := Option.isSome_iff_exists.mp hsome
    obtain ⟨hvalue, hcore'⟩ := hfound entry hfind
    rw [hfind, Option.map_some, h.eq_of_core hmem hvalue hunit (hcore'.trans hcore.symm)]

/-! ## Peers on a core -/

/-- The peers that the operands have for the core of a unit. -/
def peersOnCore (signalUnits : List (QueryMap R)) (unit : GetUnit R) : List (GetUnit R) :=
  signalUnits.filterMap fun signalUnit => unit.core.bind signalUnit.valueAt

/-- The mapping of an operand has for a unit what the operand has for its core. -/
theorem query_buildSignalQueryMap {programUnit : List (GetUnit R)} {signalUnit : QueryMap R}
    {mapping : UnitMapping R} (h : buildSignalQueryMap programUnit signalUnit = .ok mapping)
    {unit : GetUnit R} (hunit : unit ∈ programUnit) :
    UnitMapping.query mapping unit = unit.core.bind signalUnit.valueAt ∧
      (unit.core.bind signalUnit.valueAt).isSome := by
  have hall := Except.mapM_eq_ok h
  clear h
  induction hall with
  | nil => cases hunit
  | @cons unit' entry _ _ hentry _ ih =>
      unfold signalEntry at hentry
      split at hentry
      · next peer hpeer =>
          cases hentry
          unfold UnitMapping.query
          by_cases heq : unit' = unit
          · rw [List.find?_cons_of_pos (by simp [heq]), Option.map_some, ← heq, hpeer]
            exact ⟨rfl, rfl⟩
          · rw [List.find?_cons_of_neg (by simp [heq])]
            exact ih ((List.mem_cons.mp hunit).resolve_left fun hunit => heq hunit.symm)
      · cases hentry

/-- The mappings of some operands lead to their peers on the core of a unit. -/
theorem filterMap_query {programUnit : List (GetUnit R)} {group : List (QueryMap R)}
    {mappings : List (UnitMapping R)}
    (h : group.mapM (buildSignalQueryMap programUnit) = .ok mappings)
    {unit : GetUnit R} (hunit : unit ∈ programUnit) :
    mappings.filterMap (UnitMapping.query · unit) = peersOnCore group unit ∧
      ∀ signalUnit ∈ group, (unit.core.bind signalUnit.valueAt).isSome := by
  have hall := Except.mapM_eq_ok h
  clear h
  induction hall with
  | nil => exact ⟨rfl, nofun⟩
  | cons hmapping _ ih =>
      obtain ⟨hquery, hsome⟩ := query_buildSignalQueryMap hmapping hunit
      refine ⟨?_, ?_⟩
      · rw [peersOnCore, List.filterMap_cons, List.filterMap_cons, hquery, ih.1]
        rfl
      · intro signalUnit hmem
        rcases List.mem_cons.mp hmem with rfl | hmem
        · exact hsome
        · exact ih.2 signalUnit hmem

omit [DecidableEq R] in
theorem UnitsOf.mem_peersOnCore (h : UnitsOf signalUnits units) {group : List (QueryMap R)}
    (hsub : ∀ signalUnit ∈ group, signalUnit ∈ signalUnits) {unit peer : GetUnit R} :
    peer ∈ peersOnCore group unit ↔
      (∃ signalUnit ∈ group, peer ∈ signalUnit.values) ∧ peer.core = unit.core := by
  unfold peersOnCore
  rw [List.mem_filterMap]
  constructor
  · rintro ⟨signalUnit, hmem, hvalue⟩
    obtain ⟨core, hcore, hvalue⟩ := Option.bind_eq_some_iff.mp hvalue
    obtain ⟨hpeer, hpeerCore⟩ := (h.valueAt_eq_some (hsub _ hmem)).mp hvalue
    exact ⟨⟨signalUnit, hmem, hpeer⟩, hpeerCore.trans hcore.symm⟩
  · rintro ⟨⟨signalUnit, hmem, hpeer⟩, hcore⟩
    obtain ⟨key, hentry⟩ := mem_values.mp hpeer
    obtain ⟨hsome, hkey⟩ := h.key signalUnit (hsub _ hmem) _ hentry
    obtain ⟨core, rfl⟩ := Option.isSome_iff_exists.mp hsome
    refine ⟨signalUnit, hmem, ?_⟩
    rw [← hcore, ← hkey, Option.bind_some]
    exact (h.valueAt_eq_some (hsub _ hmem)).mpr ⟨hpeer, hkey.symm⟩

omit [DecidableEq R] in
theorem UnitsOf.nodup_peersOnCore (h : UnitsOf signalUnits units) {group : List (QueryMap R)}
    (hsub : group.Sublist signalUnits) (unit : GetUnit R) : (peersOnCore group unit).Nodup := by
  refine List.Pairwise.filterMap _ ?_ (List.Pairwise.and_mem.mp (h.distinct.sublist hsub))
  rintro signalUnit signalUnit' ⟨hmem, hmem', hdistinct⟩ peer hpeer peer' hpeer' rfl
  obtain ⟨core, hcore, hvalue⟩ := Option.bind_eq_some_iff.mp hpeer
  obtain ⟨core', hcore', hvalue'⟩ := Option.bind_eq_some_iff.mp hpeer'
  have hvalue := ((h.valueAt_eq_some (hsub.subset hmem)).mp hvalue).1
  have hvalue' := ((h.valueAt_eq_some (hsub.subset hmem')).mp hvalue').1
  exact hdistinct peer hvalue peer hvalue' rfl rfl

/-! ## Peers on a corelet -/

/-- Every corelet of the one side is a corelet of the other. -/
def CoversCorelets (own peers : List (GetUnit R)) : Prop :=
  ∀ unit ∈ own, ∃ peer ∈ peers, peer.coreletId = unit.coreletId

/-- A unit type that is sent to corelet by corelet. -/
def PairsCorelets (own peers : List (GetUnit R)) : Prop :=
  hasCorelets own = true ∧ CoversCorelets own peers

omit [DecidableEq R] in
theorem hasCorelets_iff {l : List (GetUnit R)} :
    hasCorelets l = true ↔ ∃ unit ∈ l, ∃ unit' ∈ l, unit.coreletId ≠ unit'.coreletId := by
  have hnodup := List.nodup_dedup (l.map GetUnit.coreletId)
  have hmem : ∀ corelet, corelet ∈ (l.map GetUnit.coreletId).dedup ↔
      ∃ unit ∈ l, unit.coreletId = corelet := by simp
  unfold hasCorelets
  rw [decide_eq_true_eq]
  constructor
  · intro hlength
    generalize (l.map GetUnit.coreletId).dedup = corelets at hnodup hmem hlength
    obtain _ | ⟨a, _ | ⟨b, rest⟩⟩ := corelets
    · simp at hlength
    · simp at hlength
    · obtain ⟨unit, hunit, rfl⟩ := (hmem a).mp (by simp)
      obtain ⟨unit', hunit', rfl⟩ := (hmem b).mp (by simp)
      refine ⟨unit, hunit, unit', hunit', ?_⟩
      intro heq
      rw [List.nodup_cons] at hnodup
      exact hnodup.1 (heq ▸ List.mem_cons_self)
  · rintro ⟨unit, hunit, unit', hunit', hne⟩
    have hpair : [unit.coreletId, unit'.coreletId].length ≤
        (l.map GetUnit.coreletId).dedup.length := by
      apply List.Subperm.length_le
      apply List.Nodup.subperm
      · simpa using hne
      · intro corelet hcorelet
        rw [hmem]
        simp only [List.mem_cons, List.not_mem_nil, or_false] at hcorelet
        rcases hcorelet with rfl | rfl
        · exact ⟨unit, hunit, rfl⟩
        · exact ⟨unit', hunit', rfl⟩
    exact hpair

/-- The first unit of a group on a corelet. -/
def firstOnCorelet (group : List (QueryMap R)) (corelet : Int) : Option (GetUnit R) :=
  (group.flatMap QueryMap.values).find? fun peer => peer.coreletId = corelet

/-- The peers that a group gives a unit. -/
def groupPeers (programUnit : List (GetUnit R)) (group : List (QueryMap R)) (unit : GetUnit R) :
    List (GetUnit R) :=
  let clToPeer := group.flatMap QueryMap.values
  if programUnit.all fun unit => clToPeer.any fun peer => peer.coreletId = unit.coreletId then
    (firstOnCorelet group unit.coreletId).toList
  else peersOnCore group unit

omit [DecidableEq R] in
theorem coversCorelets_iff {own peers : List (GetUnit R)} :
    (own.all fun unit => peers.any fun peer => peer.coreletId = unit.coreletId) = true ↔
      CoversCorelets own peers := by
  simp [CoversCorelets]

/-- A mapping that has at most one entry for each unit. -/
theorem query_filterMap {l : List (GetUnit R)} {f : GetUnit R → Option (GetUnit R)}
    {unit : GetUnit R} (hunit : unit ∈ l) :
    UnitMapping.query (l.filterMap fun unit => (f unit).map fun peer => (unit, peer)) unit =
      f unit := by
  induction l with
  | nil => cases hunit
  | cons unit' l ih =>
      rw [List.filterMap_cons]
      by_cases heq : unit' = unit
      · subst heq
        cases hpeer : f unit' with
        | some peer =>
            rw [Option.map_some]
            unfold UnitMapping.query
            rw [List.find?_cons_of_pos (by simp), Option.map_some]
        | none =>
            rw [Option.map_none]
            by_cases hmem : unit' ∈ l
            · rw [ih hmem, hpeer]
            · unfold UnitMapping.query
              rw [Option.map_eq_none_iff, List.find?_eq_none]
              rintro entry hentry hkey
              rw [decide_eq_true_eq] at hkey
              obtain ⟨unit₁, hunit₁, hsome⟩ := List.mem_filterMap.mp hentry
              obtain ⟨peer, -, rfl⟩ := Option.map_eq_some_iff.mp hsome
              exact hmem (hkey ▸ hunit₁)
      · have hrest := ih ((List.mem_cons.mp hunit).resolve_left fun hunit => heq hunit.symm)
        cases hpeer : f unit' with
        | some peer =>
            rw [Option.map_some]
            unfold UnitMapping.query at hrest ⊢
            rw [List.find?_cons_of_neg (by simp [heq])]
            exact hrest
        | none => exact hrest

theorem filterMap_groupMappings {programUnit : List (GetUnit R)} {group : List (QueryMap R)}
    {mappings : List (UnitMapping R)} (h : groupMappings programUnit group = .ok mappings)
    {unit : GetUnit R} (hunit : unit ∈ programUnit) :
    mappings.filterMap (UnitMapping.query · unit) = groupPeers programUnit group unit ∧
      (¬CoversCorelets programUnit (group.flatMap QueryMap.values) →
        ∀ signalUnit ∈ group, (unit.core.bind signalUnit.valueAt).isSome) := by
  unfold groupMappings at h
  unfold groupPeers
  dsimp only at h ⊢
  split at h
  · next hcovers =>
      cases h
      refine ⟨?_, fun hnot => absurd (coversCorelets_iff.mp hcovers) hnot⟩
      rw [if_pos hcovers, List.filterMap_cons, query_filterMap hunit]
      unfold firstOnCorelet
      cases (group.flatMap QueryMap.values).find? fun peer => peer.coreletId = unit.coreletId with
      | none => rfl
      | some peer => rfl
  · next hcovers =>
      rw [if_neg hcovers]
      obtain ⟨hpeers, hsome⟩ := filterMap_query h hunit
      exact ⟨hpeers, fun _ => hsome⟩

theorem mem_resourceTypes {group : List (QueryMap R)} :
    T ∈ resourceTypes group ↔ IsSignalType group T := by
  simp [resourceTypes, IsSignalType]

theorem mem_ofType {group : List (QueryMap R)} {signalUnit : QueryMap R} :
    signalUnit ∈ ofType T group ↔
      signalUnit ∈ group ∧ signalUnit.getUnitResourceType = some T := by
  simp [ofType]

/-- The mappings of all groups lead to the peers of each. -/
theorem filterMap_groups {programUnit : List (GetUnit R)} {types : List R}
    {group : R → List (QueryMap R)} {mappings : List (List (UnitMapping R))}
    (h : types.mapM (fun T => groupMappings programUnit (group T)) = .ok mappings)
    {unit : GetUnit R} (hunit : unit ∈ programUnit) :
    mappings.flatten.filterMap (UnitMapping.query · unit) =
        types.flatMap (fun T => groupPeers programUnit (group T) unit) ∧
      ∀ T ∈ types, ¬CoversCorelets programUnit ((group T).flatMap QueryMap.values) →
        ∀ signalUnit ∈ group T, (unit.core.bind signalUnit.valueAt).isSome := by
  have hall := Except.mapM_eq_ok h
  clear h
  induction hall with
  | nil => exact ⟨rfl, nofun⟩
  | cons hmappings _ ih =>
      obtain ⟨hpeers, hsome⟩ := filterMap_groupMappings hmappings hunit
      refine ⟨?_, ?_⟩
      · rw [List.flatten_cons, List.filterMap_append, List.flatMap_cons, ih.1, hpeers]
      · intro T hT
        rcases List.mem_cons.mp hT with rfl | hT
        · exact hsome
        · exact ih.2 T hT

/-! ## The peers of a unit -/

/-- The operands of other types. -/
def othersOf (T : R) (signalUnits : List (QueryMap R)) : List (QueryMap R) :=
  signalUnits.filter fun signalUnit => signalUnit.getUnitResourceType ≠ some T

theorem findCurrentUnitQueryMap_spec {programUnit : List (GetUnit R)}
    {operands : List (QueryMap R)} {queryMap : QueryMap R}
    (h : findCurrentUnitQueryMap programUnit operands = .ok queryMap) :
    queryMap ∈ operands ∧ ∃ unit ∈ queryMap.values, unit ∈ programUnit := by
  induction operands with
  | nil => cases h
  | cons operand operands ih =>
      rw [findCurrentUnitQueryMap] at h
      split at h
      · cases h
      · next key firstUnit rest hentries =>
          split at h
          · next hmem =>
              cases h
              refine ⟨List.mem_cons_self, firstUnit, ?_, hmem⟩
              rw [mem_values, hentries]
              exact ⟨key, List.mem_cons_self⟩
          · obtain ⟨hoperand, hunit⟩ := ih h
            exact ⟨List.mem_cons_of_mem _ hoperand, hunit⟩

/-- The program unit of a type has the same mappings for its sends and receives, to units of the
other types. -/
theorem lowerSignal_eq (h : UnitsOf signalUnits units) {lowered : LoweredSignal R}
    (hlower : lowerSignal signalUnits (units T) = .ok lowered) :
    ∃ mappings, lowered = ⟨mappings, mappings⟩ ∧
      otherQueryMaps (units T) (othersOf T signalUnits) = .ok mappings := by
  unfold lowerSignal at hlower
  split at hlower
  · cases hlower
  · obtain ⟨current, hcurrent, hlower⟩ := Except.bind_eq_ok.mp hlower
    obtain ⟨hmem, unit, hvalue, hunit⟩ := findCurrentUnitQueryMap_spec hcurrent
    have htype : current.getUnitResourceType = some T := by
      rw [h.resourceType current hmem unit hvalue, ((h.mem_units T unit).mp hunit).1]
    rw [htype] at hlower
    dsimp only at hlower
    split at hlower
    · cases hlower
    · obtain ⟨mappings, hmappings, hlower⟩ := Except.bind_eq_ok.mp hlower
      cases hlower
      refine ⟨mappings, rfl, ?_⟩
      have hothers : (signalUnits.filter fun signalUnit =>
          signalUnit ≠ current ∧ signalUnit.getUnitResourceType ≠ some T) =
            othersOf T signalUnits := by
        apply List.filter_congr
        intro signalUnit _
        rw [decide_eq_decide]
        refine ⟨And.right, fun hne => ⟨?_, hne⟩⟩
        rintro rfl
        exact hne htype
      rw [← hothers]
      exact hmappings

/-- The peers of a unit of type `T`: of a type that is paired corelet by corelet one unit of its
corelet, of another type the units of its core. -/
structure PeersOf (signalUnits : List (QueryMap R)) (units : R → List (GetUnit R)) (T : R)
    (unit : GetUnit R) (peers : List (GetUnit R)) : Prop where
  nodup : peers.Nodup
  other : ∀ peer ∈ peers, peer.resourceType ≠ T ∧ peer ∈ units peer.resourceType
  onCore : ∀ U, U ≠ T → ¬PairsCorelets (units T) (units U) → ∀ peer ∈ units U,
    peer ∈ peers ↔ peer.core = unit.core
  existsOnCore : ∀ U, U ≠ T → ¬PairsCorelets (units T) (units U) → units U ≠ [] →
    ∃ peer ∈ units U, peer.core = unit.core
  onCorelet : ∀ U, U ≠ T → PairsCorelets (units T) (units U) →
    ∃ first ∈ units U, first.coreletId = unit.coreletId ∧
      firstOnCorelet (ofType U (othersOf T signalUnits)) unit.coreletId = some first ∧
        ∀ peer ∈ units U, peer ∈ peers ↔ peer = first

omit [DecidableEq R] in
theorem UnitsOf.mem_units' (h : UnitsOf signalUnits units) {unit : GetUnit R} {U : R} :
    unit ∈ units U ↔ ∃ signalUnit ∈ signalUnits, signalUnit.getUnitResourceType = some U ∧
      unit ∈ signalUnit.values := by
  rw [h.mem_units]
  constructor
  · rintro ⟨rfl, signalUnit, hmem, hvalue⟩
    exact ⟨signalUnit, hmem, h.resourceType signalUnit hmem unit hvalue, hvalue⟩
  · rintro ⟨signalUnit, hmem, htype, hvalue⟩
    rw [h.resourceType signalUnit hmem unit hvalue] at htype
    exact ⟨Option.some.inj htype, signalUnit, hmem, hvalue⟩

theorem UnitsOf.mem_othersOf (h : UnitsOf signalUnits units) {unit : GetUnit R} :
    (∃ signalUnit ∈ othersOf T signalUnits, unit ∈ signalUnit.values) ↔
      unit.resourceType ≠ T ∧ unit ∈ units unit.resourceType := by
  rw [h.mem_units]
  constructor
  · rintro ⟨signalUnit, hmem, hvalue⟩
    obtain ⟨hmem, hne⟩ := List.mem_filter.mp hmem
    rw [decide_eq_true_eq, h.resourceType signalUnit hmem unit hvalue] at hne
    exact ⟨fun heq => hne (congrArg some heq), rfl, signalUnit, hmem, hvalue⟩
  · rintro ⟨hne, -, signalUnit, hmem, hvalue⟩
    refine ⟨signalUnit, List.mem_filter.mpr ⟨hmem, ?_⟩, hvalue⟩
    rw [decide_eq_true_eq, h.resourceType signalUnit hmem unit hvalue]
    exact fun heq => hne (Option.some.inj heq)

/-- The units of the operands of another type. -/
theorem UnitsOf.mem_ofType (h : UnitsOf signalUnits units) (hne : U ≠ T) {unit : GetUnit R} :
    (∃ signalUnit ∈ ofType U (othersOf T signalUnits), unit ∈ signalUnit.values) ↔
      unit ∈ units U := by
  rw [h.mem_units']
  constructor
  · rintro ⟨signalUnit, hmem, hvalue⟩
    obtain ⟨hmem, htype⟩ := SignalLowering.mem_ofType.mp hmem
    exact ⟨signalUnit, List.mem_of_mem_filter hmem, htype, hvalue⟩
  · rintro ⟨signalUnit, hmem, htype, hvalue⟩
    refine ⟨signalUnit, SignalLowering.mem_ofType.mpr ⟨List.mem_filter.mpr ⟨hmem, ?_⟩, htype⟩, hvalue⟩
    rw [decide_eq_true_eq, htype]
    exact fun heq => hne (Option.some.inj heq)

/-- Where types are paired corelet by corelet, the corelet-aware path is taken. -/
theorem UnitsOf.peersHaveCorelets (h : UnitsOf signalUnits units) (hne : U ≠ T)
    (hpairs : PairsCorelets (units T) (units U)) :
    peersHaveCorelets (othersOf T signalUnits) = true := by
  obtain ⟨unit, hunit, unit', hunit', hcorelet⟩ := hasCorelets_iff.mp hpairs.1
  obtain ⟨peer, hpeer, hpeerCorelet⟩ := hpairs.2 unit hunit
  obtain ⟨peer', hpeer', hpeerCorelet'⟩ := hpairs.2 unit' hunit'
  have hmem : ∀ peer ∈ units U,
      peer ∈ (ofType U (othersOf T signalUnits)).flatMap QueryMap.values := by
    intro peer hpeer
    exact List.mem_flatMap.mpr ((h.mem_ofType hne).mpr hpeer)
  unfold SignalLowering.peersHaveCorelets
  rw [List.any_eq_true]
  refine ⟨U, ?_, hasCorelets_iff.mpr ⟨peer, hmem peer hpeer, peer', hmem peer' hpeer', ?_⟩⟩
  · obtain ⟨signalUnit, hmem, -⟩ := (h.mem_ofType hne).mpr hpeer
    obtain ⟨hmem, htype⟩ := SignalLowering.mem_ofType.mp hmem
    exact mem_resourceTypes.mpr ⟨signalUnit, hmem, htype⟩
  · rwa [hpeerCorelet, hpeerCorelet']

theorem UnitsOf.coversCorelets_ofType (h : UnitsOf signalUnits units) (hne : U ≠ T) :
    CoversCorelets (units T) ((ofType U (othersOf T signalUnits)).flatMap QueryMap.values) ↔
      CoversCorelets (units T) (units U) := by
  have hmem : ∀ peer, peer ∈ (ofType U (othersOf T signalUnits)).flatMap QueryMap.values ↔
      peer ∈ units U := fun peer => List.mem_flatMap.trans (h.mem_ofType hne)
  unfold CoversCorelets
  simp only [hmem]

/-- An operand that has a unit for the core of another unit. -/
theorem UnitsOf.exists_of_isSome (h : UnitsOf signalUnits units) (hne : U ≠ T) {unit : GetUnit R}
    (hsome : ∀ signalUnit ∈ ofType U (othersOf T signalUnits),
      (unit.core.bind signalUnit.valueAt).isSome) (hunits : units U ≠ []) :
    ∃ peer ∈ units U, peer.core = unit.core := by
  obtain ⟨peer, hpeer⟩ := List.exists_mem_of_ne_nil _ hunits
  obtain ⟨signalUnit, hmem, -⟩ := (h.mem_ofType hne).mpr hpeer
  obtain ⟨peer', hpeer'⟩ := Option.isSome_iff_exists.mp (hsome signalUnit hmem)
  obtain ⟨core, hcore, hvalue⟩ := Option.bind_eq_some_iff.mp hpeer'
  have hsignalUnit := List.mem_of_mem_filter (List.mem_of_mem_filter hmem)
  obtain ⟨hvalue, hcore'⟩ := (h.valueAt_eq_some hsignalUnit).mp hvalue
  exact ⟨peer', (h.mem_ofType hne).mp ⟨signalUnit, hmem, hvalue⟩, hcore'.trans hcore.symm⟩

/-- The peers that the operands of another type give a unit on the corelet-aware path. -/
theorem UnitsOf.mem_groupPeers (h : UnitsOf signalUnits units) (hne : U ≠ T) {unit : GetUnit R}
    (hunit : unit ∈ units T) :
    (¬CoversCorelets (units T) (units U) → ∀ peer,
        peer ∈ groupPeers (units T) (ofType U (othersOf T signalUnits)) unit ↔
          peer ∈ units U ∧ peer.core = unit.core) ∧
      (CoversCorelets (units T) (units U) →
        ∃ first ∈ units U, first.coreletId = unit.coreletId ∧
          firstOnCorelet (ofType U (othersOf T signalUnits)) unit.coreletId = some first ∧
            groupPeers (units T) (ofType U (othersOf T signalUnits)) unit = [first]) := by
  have hmem : ∀ peer, peer ∈ (ofType U (othersOf T signalUnits)).flatMap QueryMap.values ↔
      peer ∈ units U := fun peer => List.mem_flatMap.trans (h.mem_ofType hne)
  have hcovers := h.coversCorelets_ofType hne
  unfold groupPeers
  dsimp only
  constructor
  · intro hnot peer
    rw [if_neg fun hall => hnot (hcovers.mp (coversCorelets_iff.mp hall)),
      h.mem_peersOnCore, h.mem_ofType hne]
    intro signalUnit hsignalUnit
    exact List.mem_of_mem_filter (List.mem_of_mem_filter hsignalUnit)
  · intro hcov
    rw [if_pos (coversCorelets_iff.mpr (hcovers.mpr hcov))]
    obtain ⟨peer, hpeer, hcorelet⟩ := hcovers.mpr hcov unit hunit
    have hsome : (((ofType U (othersOf T signalUnits)).flatMap QueryMap.values).find?
        fun peer => peer.coreletId = unit.coreletId).isSome := by
      rw [List.find?_isSome]
      exact ⟨peer, hpeer, by simp [hcorelet]⟩
    obtain ⟨first, hfind⟩ := Option.isSome_iff_exists.mp hsome
    refine ⟨first, (hmem first).mp (List.mem_of_find?_eq_some hfind), ?_, hfind, ?_⟩
    · simpa using List.find?_some hfind
    · rw [show firstOnCorelet _ _ = _ from hfind]
      rfl

/-- What the operands of a type give a unit are units of that type, each once. -/
theorem UnitsOf.groupPeers_spec (h : UnitsOf signalUnits units) (hne : U ≠ T) {unit : GetUnit R}
    (hunit : unit ∈ units T) :
    (groupPeers (units T) (ofType U (othersOf T signalUnits)) unit).Nodup ∧
      ∀ peer ∈ groupPeers (units T) (ofType U (othersOf T signalUnits)) unit, peer ∈ units U := by
  obtain ⟨hcore, hcorelet⟩ := h.mem_groupPeers hne hunit
  by_cases hcovers : CoversCorelets (units T) (units U)
  · obtain ⟨first, hfirst, -, -, heq⟩ := hcorelet hcovers
    rw [heq]
    refine ⟨List.nodup_singleton first, ?_⟩
    intro peer hpeer
    exact List.mem_singleton.mp hpeer ▸ hfirst
  · refine ⟨?_, fun peer hpeer => ((hcore hcovers peer).mp hpeer).1⟩
    unfold groupPeers
    dsimp only
    split
    · cases firstOnCorelet _ _ with
      | none => exact List.nodup_nil
      | some first => exact List.nodup_singleton first
    · exact h.nodup_peersOnCore (List.filter_sublist.trans List.filter_sublist) unit

/-- The sends of a unit of type `T` go to its peers. -/
theorem UnitsOf.peersOf_sendsTo (h : UnitsOf signalUnits units) {lowered : LoweredSignal R}
    (hlower : lowerSignal signalUnits (units T) = .ok lowered) {unit : GetUnit R}
    (hunit : unit ∈ units T) : PeersOf signalUnits units T unit (lowered.sendsTo unit) := by
  obtain ⟨mappings, rfl, hmappings⟩ := lowerSignal_eq h hlower
  have hothers : ∀ signalUnit ∈ othersOf T signalUnits, signalUnit ∈ signalUnits :=
    fun signalUnit hmem => List.mem_of_mem_filter hmem
  show PeersOf signalUnits units T unit (mappings.filterMap (UnitMapping.query · unit))
  unfold otherQueryMaps at hmappings
  split at hmappings
  · next haware =>
      -- one group for each other type
      rw [Bool.and_eq_true] at haware
      obtain ⟨groups, hgroups, hmappings⟩ := Except.bind_eq_ok.mp hmappings
      cases hmappings
      obtain ⟨hpeers, hsome⟩ := filterMap_groups hgroups hunit
      rw [hpeers]
      have htypes : ∀ U ∈ resourceTypes (othersOf T signalUnits), U ≠ T := by
        rintro U hU rfl
        obtain ⟨signalUnit, hmem, htype⟩ := mem_resourceTypes.mp hU
        simpa [htype] using (List.mem_filter.mp hmem).2
      have hmem : ∀ peer, peer ∈ (resourceTypes (othersOf T signalUnits)).flatMap (fun U =>
          groupPeers (units T) (ofType U (othersOf T signalUnits)) unit) ↔
            peer.resourceType ≠ T ∧ peer ∈ groupPeers (units T)
              (ofType peer.resourceType (othersOf T signalUnits)) unit := by
        intro peer
        rw [List.mem_flatMap]
        constructor
        · rintro ⟨U, hU, hpeer⟩
          obtain rfl := ((h.mem_units U peer).mp
            ((h.groupPeers_spec (htypes U hU) hunit).2 peer hpeer)).1
          exact ⟨htypes _ hU, hpeer⟩
        · rintro ⟨hne, hpeer⟩
          refine ⟨peer.resourceType, ?_, hpeer⟩
          obtain ⟨signalUnit, hmem, -⟩ := (h.mem_ofType hne).mpr
            ((h.groupPeers_spec hne hunit).2 peer hpeer)
          exact mem_resourceTypes.mpr ⟨signalUnit, SignalLowering.mem_ofType.mp hmem⟩
      refine ⟨?_, ?_, ?_, ?_, ?_⟩
      · rw [List.nodup_flatMap]
        refine ⟨fun U hU => (h.groupPeers_spec (htypes U hU) hunit).1, ?_⟩
        have hnodup : (resourceTypes (othersOf T signalUnits)).Nodup :=
          List.nodup_reverse.mpr (List.nodup_dedup _)
        refine (List.Pairwise.and_mem.mp hnodup).imp ?_
        rintro U U' ⟨hU, hU', hne⟩ peer hpeer hpeer'
        apply hne
        rw [← ((h.mem_units U peer).mp ((h.groupPeers_spec (htypes U hU) hunit).2 peer hpeer)).1,
          ← ((h.mem_units U' peer).mp ((h.groupPeers_spec (htypes U' hU') hunit).2 peer hpeer')).1]
      · intro peer hpeer
        obtain ⟨hne, hpeer⟩ := (hmem peer).mp hpeer
        exact ⟨hne, (h.groupPeers_spec hne hunit).2 peer hpeer⟩
      · intro U hne hnot peer hpeer
        have htype := ((h.mem_units U peer).mp hpeer).1
        have hcovers : ¬CoversCorelets (units T) (units U) := fun hcovers => hnot ⟨haware.1, hcovers⟩
        rw [hmem, htype, (h.mem_groupPeers hne hunit).1 hcovers]
        simp [hne, hpeer]
      · intro U hne hnot hunits
        have hcovers : ¬CoversCorelets (units T) (units U) := fun hcovers => hnot ⟨haware.1, hcovers⟩
        refine h.exists_of_isSome hne ?_ hunits
        apply hsome U
        · obtain ⟨peer, hpeer⟩ := List.exists_mem_of_ne_nil _ hunits
          obtain ⟨signalUnit, hmem, -⟩ := (h.mem_ofType hne).mpr hpeer
          exact mem_resourceTypes.mpr ⟨signalUnit, SignalLowering.mem_ofType.mp hmem⟩
        · rwa [h.coversCorelets_ofType hne]
      · intro U hne hpairs
        obtain ⟨first, hfirst, hcorelet, hfind, heq⟩ := (h.mem_groupPeers hne hunit).2 hpairs.2
        refine ⟨first, hfirst, hcorelet, hfind, ?_⟩
        intro peer hpeer
        have htype := ((h.mem_units U peer).mp hpeer).1
        rw [hmem, htype, heq, List.mem_singleton]
        simp [hne]
  · next haware =>
      obtain ⟨hpeers, hsome⟩ := filterMap_query hmappings hunit
      rw [hpeers]
      refine ⟨h.nodup_peersOnCore List.filter_sublist unit, ?_, ?_, ?_, ?_⟩
      · intro peer hpeer
        rw [h.mem_peersOnCore hothers, h.mem_othersOf] at hpeer
        exact hpeer.1
      · intro U hne _ peer hpeer
        obtain rfl := ((h.mem_units U peer).mp hpeer).1
        rw [h.mem_peersOnCore hothers, h.mem_othersOf]
        simp [hne, hpeer]
      · intro U hne _ hunits
        refine h.exists_of_isSome hne ?_ hunits
        exact fun signalUnit hmem => hsome signalUnit (List.mem_of_mem_filter hmem)
      · intro U hne hpairs
        rw [Bool.and_eq_true] at haware
        exact absurd ⟨hpairs.1, h.peersHaveCorelets hne hpairs⟩ haware

/-! ## Both sides of a signal -/

/-- The lowerings of a signal in the program units of its types match: every send of one unit is
received by the other and every receive was sent, once each, and units of one core talk. -/
structure SignalsMatch (signalUnits : List (QueryMap R)) (units : R → List (GetUnit R))
    (lowered : R → LoweredSignal R) : Prop where
  received : ∀ T, IsSignalType signalUnits T → ∀ unit ∈ units T,
    ∀ peer ∈ (lowered T).sendsTo unit,
      ((lowered peer.resourceType).recvsFrom peer).count unit = 1
  sent : ∀ T, IsSignalType signalUnits T → ∀ unit ∈ units T,
    ∀ peer ∈ (lowered T).recvsFrom unit,
      ((lowered peer.resourceType).sendsTo peer).count unit = 1
  once : ∀ T, IsSignalType signalUnits T → ∀ unit ∈ units T, ((lowered T).sendsTo unit).Nodup
  sameCore : ∀ T, IsSignalType signalUnits T → ∀ unit ∈ units T,
    ∀ peer ∈ (lowered T).sendsTo unit, peer.core = unit.core

/-- A type with several corelets, all of which another type has too, has the same corelets as that
type, and for each corelet all units of both types are on one core. -/
def CoreletsAligned (units : R → List (GetUnit R)) : Prop :=
  ∀ T U, T ≠ U → PairsCorelets (units T) (units U) → CoversCorelets (units U) (units T) ∧
    ∀ unit ∈ units T, ∀ peer ∈ units U, unit.coreletId = peer.coreletId → unit.core = peer.core

omit [DecidableEq R] in
theorem PairsCorelets.hasCorelets {own peers : List (GetUnit R)} (h : PairsCorelets own peers) :
    SignalLowering.hasCorelets peers = true := by
  obtain ⟨unit, hunit, unit', hunit', hcorelet⟩ := hasCorelets_iff.mp h.1
  obtain ⟨peer, hpeer, hpeerCorelet⟩ := h.2 unit hunit
  obtain ⟨peer', hpeer', hpeerCorelet'⟩ := h.2 unit' hunit'
  exact hasCorelets_iff.mpr ⟨peer, hpeer, peer', hpeer', by rwa [hpeerCorelet, hpeerCorelet']⟩

omit [DecidableEq R] in
theorem UnitsOf.isSignalType (h : UnitsOf signalUnits units) {unit : GetUnit R}
    (hunit : unit ∈ units T) : IsSignalType signalUnits T := by
  obtain ⟨signalUnit, hmem, htype, -⟩ := h.mem_units'.mp hunit
  exact ⟨signalUnit, hmem, htype⟩

/-- The peers of every unit, in the program units of all types. -/
def AllPeers (signalUnits : List (QueryMap R)) (units : R → List (GetUnit R))
    (peers : R → GetUnit R → List (GetUnit R)) : Prop :=
  ∀ T, ∀ unit ∈ units T, PeersOf signalUnits units T unit (peers T unit)

section AllPeers

variable {peers : R → GetUnit R → List (GetUnit R)}

/-- Where peers are mutual, types that are paired corelet by corelet are aligned. -/
theorem AllPeers.coreletsAligned (hpeers : AllPeers signalUnits units peers)
    (hunits : UnitsOf signalUnits units)
    (hmutual : ∀ T, ∀ unit ∈ units T, ∀ peer ∈ peers T unit, unit ∈ peers peer.resourceType peer)
    (hcore : ∀ T, ∀ unit ∈ units T, ∀ peer ∈ peers T unit, peer.core = unit.core) :
    CoreletsAligned units := by
  have htype : ∀ {T unit}, unit ∈ units T → unit.resourceType = T :=
    fun hunit => ((hunits.mem_units _ _).mp hunit).1
  intro T U hne hpairs
  -- a unit of `U` is a peer of the unit of `T` that it has as a peer
  have hback : ∀ unit ∈ units T, ∀ peer ∈ units U, unit ∈ peers U peer → peer ∈ peers T unit := by
    intro unit hunit peer hpeer hmem
    have hmem := hmutual U peer hpeer unit hmem
    rwa [htype hunit] at hmem
  have hcovers : CoversCorelets (units U) (units T) := by
    by_contra hnot
    have hpairs' : ¬PairsCorelets (units U) (units T) := fun hpairs' => hnot hpairs'.2
    obtain ⟨peer, hpeer, hfree⟩ : ∃ peer ∈ units U, ∀ unit ∈ units T,
        unit.coreletId ≠ peer.coreletId := by simpa [CoversCorelets] using hnot
    have hsome : units T ≠ [] := by
      obtain ⟨unit, hunit, -⟩ := hasCorelets_iff.mp hpairs.1
      exact List.ne_nil_of_mem hunit
    obtain ⟨unit, hunit, hcore'⟩ := (hpeers U peer hpeer).existsOnCore T hne hpairs' hsome
    have hmem := hback unit hunit peer hpeer
      (((hpeers U peer hpeer).onCore T hne hpairs' unit hunit).mpr hcore')
    obtain ⟨first, -, hcorelet, -, hfirst⟩ := (hpeers T unit hunit).onCorelet U hne.symm hpairs
    rw [hfirst peer hpeer] at hmem
    exact hfree unit hunit (hmem ▸ hcorelet.symm)
  refine ⟨hcovers, ?_⟩
  intro unit hunit peer hpeer hcorelet
  have hpairs' : PairsCorelets (units U) (units T) := ⟨hpairs.hasCorelets, hcovers⟩
  obtain ⟨first, hfirst, -, hfind, hmem⟩ := (hpeers T unit hunit).onCorelet U hne.symm hpairs
  obtain ⟨unit', hunit', hcorelet', -, hmem'⟩ := (hpeers U peer hpeer).onCorelet T hne hpairs'
  obtain ⟨first', -, -, hfind', hmem''⟩ := (hpeers T unit' hunit').onCorelet U hne.symm hpairs
  have hunitPeer : unit' ∈ peers U peer := (hmem' unit' hunit').mpr rfl
  -- the first unit on the corelet is `peer`
  have hpeerFirst : peer = first := by
    have heq := (hmem'' peer hpeer).mp (hback unit' hunit' peer hpeer hunitPeer)
    rw [hcorelet', ← hcorelet, hfind] at hfind'
    rw [heq, ← Option.some.inj hfind']
  rw [hpeerFirst]
  exact (hcore T unit hunit first ((hmem first hfirst).mpr rfl)).symm

/-- Where types that are paired corelet by corelet are aligned, peers are mutual and on one core. -/
theorem AllPeers.mutual (hpeers : AllPeers signalUnits units peers)
    (hunits : UnitsOf signalUnits units) (haligned : CoreletsAligned units) {unit peer : GetUnit R}
    (hunit : unit ∈ units T) (hpeer : peer ∈ peers T unit) :
    unit ∈ peers peer.resourceType peer ∧ peer.core = unit.core := by
  obtain ⟨hne, hmem⟩ := (hpeers T unit hunit).other peer hpeer
  generalize hU : peer.resourceType = U at hne hmem ⊢
  by_cases hpairs : PairsCorelets (units T) (units U)
  · obtain ⟨hcovers, hcore⟩ := haligned T U hne.symm hpairs
    have hpairs' : PairsCorelets (units U) (units T) := ⟨hpairs.hasCorelets, hcovers⟩
    obtain ⟨first, hfirst, hcorelet, -, hiff⟩ := (hpeers T unit hunit).onCorelet U hne hpairs
    obtain rfl := (hiff peer hmem).mp hpeer
    have hcore' := hcore unit hunit peer hmem hcorelet.symm
    refine ⟨?_, hcore'.symm⟩
    obtain ⟨unit', hunit', hcorelet', -, hiff'⟩ := (hpeers U peer hmem).onCorelet T hne.symm hpairs'
    rw [hiff' unit hunit]
    have hcore'' := hcore unit' hunit' peer hmem hcorelet'
    obtain ⟨type, core, corelet⟩ := unit
    obtain ⟨type', core', corelet'⟩ := unit'
    obtain rfl : type = T := ((hunits.mem_units _ _).mp hunit).1
    obtain rfl : type' = type := ((hunits.mem_units _ _).mp hunit').1
    obtain rfl : core = core' := hcore'.trans hcore''.symm
    obtain rfl : corelet' = corelet := hcorelet'.trans hcorelet
    rfl
  · have hcore := ((hpeers T unit hunit).onCore U hne hpairs peer hmem).mp hpeer
    have hpairs' : ¬PairsCorelets (units U) (units T) :=
      fun hpairs' => hpairs ⟨hpairs'.hasCorelets, (haligned U T hne hpairs').1⟩
    exact ⟨((hpeers U peer hmem).onCore T hne.symm hpairs' unit hunit).mpr hcore.symm, hcore⟩

end AllPeers

/-- **The lowerings of a signal match exactly if corelets are aligned**: for any number of types,
cores and corelets, with the signal lowered in the program unit of every type. -/
theorem lowerSignal_match_iff (hunits : UnitsOf signalUnits units) {lowered : R → LoweredSignal R}
    (hlower : ∀ T, IsSignalType signalUnits T → lowerSignal signalUnits (units T) = .ok (lowered T)) :
    SignalsMatch signalUnits units lowered ↔ CoreletsAligned units := by
  have hpeers : AllPeers signalUnits units fun T => (lowered T).sendsTo := fun T unit hunit =>
    hunits.peersOf_sendsTo (hlower T (hunits.isSignalType hunit)) hunit
  have hsame : ∀ T, IsSignalType signalUnits T → (lowered T).recvsFrom = (lowered T).sendsTo := by
    intro T hT
    obtain ⟨mappings, heq, -⟩ := lowerSignal_eq hunits (hlower T hT)
    rw [heq]
    rfl
  have htype : ∀ {T unit peer}, unit ∈ units T → peer ∈ (lowered T).sendsTo unit →
      IsSignalType signalUnits peer.resourceType ∧ peer ∈ units peer.resourceType := by
    intro T unit peer hunit hpeer
    have hmem := ((hpeers T unit hunit).other peer hpeer).2
    exact ⟨hunits.isSignalType hmem, hmem⟩
  constructor
  · intro hmatch
    refine hpeers.coreletsAligned hunits ?_ ?_
    · intro T unit hunit peer hpeer
      have hcount := hmatch.received T (hunits.isSignalType hunit) unit hunit peer hpeer
      rw [hsame _ (htype hunit hpeer).1] at hcount
      exact List.count_pos_iff.mp (by omega)
    · exact fun T unit hunit => hmatch.sameCore T (hunits.isSignalType hunit) unit hunit
  · intro haligned
    have hcount : ∀ T, ∀ unit ∈ units T, ∀ peer ∈ (lowered T).sendsTo unit,
        ((lowered peer.resourceType).sendsTo peer).count unit = 1 := by
      intro T unit hunit peer hpeer
      apply List.count_eq_one_of_mem
      · exact (hpeers _ peer (htype hunit hpeer).2).nodup
      · exact (hpeers.mutual hunits haligned hunit hpeer).1
    refine ⟨?_, ?_, ?_, ?_⟩
    · intro T _ unit hunit peer hpeer
      rw [hsame _ (htype hunit hpeer).1]
      exact hcount T unit hunit peer hpeer
    · intro T hT unit hunit peer hpeer
      rw [hsame T hT] at hpeer
      exact hcount T unit hunit peer hpeer
    · exact fun T _ unit hunit => (hpeers T unit hunit).nodup
    · exact fun T _ unit hunit peer hpeer => (hpeers.mutual hunits haligned hunit hpeer).2

/-- The units of each type that a signal names, as the operands of their program unit. -/
def programUnits (signalUnits : List (QueryMap R)) (T : R) : List (GetUnit R) :=
  (signalUnits.flatMap QueryMap.values).filter fun unit => unit.resourceType = T

/-- The operands of a type with the given corelets, on the given cores. -/
def operandsOf (resourceType : Nat) (corelets cores : List Int) : List (QueryMap Nat) :=
  corelets.map fun corelet =>
    ⟨cores.map fun core => (some core, ⟨resourceType, some core, corelet⟩)⟩

/-- Two types with two corelets each and one without corelets, on one core. -/
def oneCoreSignal : List (QueryMap Nat) :=
  operandsOf 0 [0, 1] [0] ++ operandsOf 1 [0, 1] [0] ++ operandsOf 2 [0] [0]

theorem unitsOf_oneCoreSignal : UnitsOf oneCoreSignal (programUnits oneCoreSignal) where
  nonempty := by decide
  resourceType := by decide
  key := by decide
  coreletId := by decide
  distinct := by decide
  mem_units T unit := by
    rw [programUnits, List.mem_filter, List.mem_flatMap, decide_eq_true_eq, and_comm]

/-- What the signal becomes in the program unit of each type. -/
def loweredOf (signalUnits : List (QueryMap Nat)) (T : Nat) : LoweredSignal Nat :=
  ((lowerSignal signalUnits (programUnits signalUnits T)).toOption).getD ⟨[], []⟩

theorem lowerSignal_match_iff_oneCore :
    SignalsMatch oneCoreSignal (programUnits oneCoreSignal) (loweredOf oneCoreSignal) ↔
      CoreletsAligned (programUnits oneCoreSignal) := by
  refine lowerSignal_match_iff unitsOf_oneCoreSignal ?_
  rintro T ⟨signalUnit, hmem, htype⟩
  have hcases : T = 0 ∨ T = 1 ∨ T = 2 := by
    revert T
    revert signalUnit
    decide
  rcases hcases with rfl | rfl | rfl
  · rfl
  · rfl
  · rfl

/-- Two types with two corelets each, on two cores. -/
def twoCoreSignal : List (QueryMap Nat) := operandsOf 0 [0, 1] [0, 1] ++ operandsOf 1 [0, 1] [0, 1]

/-- The unit of type 0 on core 1 and corelet 0 sends to the unit of type 1 on core 0. -/
theorem not_signalsMatch :
    UnitsOf twoCoreSignal (programUnits twoCoreSignal) ∧
      (∀ T, IsSignalType twoCoreSignal T → lowerSignal twoCoreSignal (programUnits twoCoreSignal T) =
        .ok (loweredOf twoCoreSignal T)) ∧
      ¬SignalsMatch twoCoreSignal (programUnits twoCoreSignal) (loweredOf twoCoreSignal) := by
  refine ⟨?_, ?_, ?_⟩
  · constructor
    case mem_units =>
      intro T unit
      rw [programUnits, List.mem_filter, List.mem_flatMap, decide_eq_true_eq, and_comm]
    all_goals decide
  · rintro T ⟨signalUnit, hmem, htype⟩
    have hcases : T = 0 ∨ T = 1 := by
      revert T
      revert signalUnit
      decide
    rcases hcases with rfl | rfl
    · rfl
    · rfl
  · intro hmatch
    have hcore := hmatch.sameCore 0 ⟨_, List.mem_cons_self, rfl⟩ ⟨0, some 1, 0⟩ (by decide)
      ⟨1, some 0, 0⟩ (by decide)
    cases hcore

end SignalLowering

end DataflowScheduler
