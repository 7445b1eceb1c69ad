import Mathlib.Data.List.Dedup
import DataflowScheduler.Util.Except

/-!
# Lowering of signals

A `ktdf_lowering.signal` names units of several resource types, one query map for each corelet of a
type. Its copy in each program unit becomes a `dataflow.sync_send` to and a `dataflow.sync_recv`
from the peers of the unit that executes it. Each program unit finds its peers on its own.
-/

namespace DataflowScheduler

namespace SignalLowering

variable {R : Type}

/-! ## Units and query maps -/

/-- The result of a `dataflow.get_unit`. -/
structure GetUnit (R : Type) where
  /-- The unit type in upper case, as `getUnitResourceType` has it. -/
  resourceType : R
  /-- The `core` attribute. -/
  core : Option Int
  /-- What `getCoreletId` returns. -/
  coreletId : Int
  deriving Repr, DecidableEq

/-- A `uniform.query_map` of core ids: the entries of its `uniform.def_immutable_mapping`. A key that
is not a constant is `none`. -/
structure QueryMap (R : Type) where
  entries : List (Option Int × GetUnit R)
  deriving Repr, DecidableEq

/-- `getUnitResourceType`. -/
def QueryMap.getUnitResourceType (queryMap : QueryMap R) : Option R :=
  queryMap.entries.head?.map fun entry => entry.2.resourceType

/-- A mapping whose keys are units, queried by the unit that executes. -/
abbrev UnitMapping (R : Type) := List (GetUnit R × GetUnit R)

/-- Why the pattern fails. -/
inductive SignalError where
  /-- "signal operation must have at least 2 unit operands" -/
  | tooFewUnits
  /-- "def_immutable_mapping must have at least one value" -/
  | noValue
  /-- "signal must include at least one query_map whose first mapping result is in the current
  program_unit" -/
  | notInProgramUnit
  /-- "getUnitTypeFromQueryMap failed" -/
  | noResourceType
  /-- "failed to build query map for signal operand" -/
  | noQueryMap
  deriving Repr, DecidableEq

/-! ## The pattern -/

variable [DecidableEq R]

/-- `findCurrentUnitQueryMap`. -/
def findCurrentUnitQueryMap (programUnitOperands : List (GetUnit R)) :
    List (QueryMap R) → Except SignalError (QueryMap R)
  | [] => .error .notInProgramUnit
  | signalUnit :: signalUnits =>
      match signalUnit.entries with
      | [] => .error .noValue
      | (_, firstUnit) :: _ =>
          if firstUnit ∈ programUnitOperands then .ok signalUnit
          else findCurrentUnitQueryMap programUnitOperands signalUnits

omit [DecidableEq R] in
/-- The unit that a query map has for a core. -/
def QueryMap.valueAt (queryMap : QueryMap R) (core : Int) : Option (GetUnit R) :=
  (queryMap.entries.find? fun entry => entry.1 = some core).map Prod.snd

omit [DecidableEq R] in
/-- The entry of `buildSignalQueryMap` for a unit of the program unit. -/
def signalEntry (signalQueryMap : QueryMap R) (unit : GetUnit R) :
    Except SignalError (GetUnit R × GetUnit R) :=
  match unit.core.bind signalQueryMap.valueAt with
  | some peer => .ok (unit, peer)
  | none => .error .noQueryMap

omit [DecidableEq R] in
/-- `UniformInfra::buildSignalQueryMap`. -/
def buildSignalQueryMap (programUnit : List (GetUnit R)) (signalQueryMap : QueryMap R) :
    Except SignalError (UnitMapping R) :=
  programUnit.mapM (signalEntry signalQueryMap)

/-- More than one distinct corelet. -/
def hasCorelets (units : List (GetUnit R)) : Bool :=
  1 < (units.map GetUnit.coreletId).dedup.length

/-- The units that the operands of a signal map to. -/
def QueryMap.values (queryMap : QueryMap R) : List (GetUnit R) := queryMap.entries.map Prod.snd

/-- The operands of a resource type. -/
def ofType (resourceType : R) (signalUnits : List (QueryMap R)) : List (QueryMap R) :=
  signalUnits.filter fun signalUnit => signalUnit.getUnitResourceType = some resourceType

/-- The resource types of some operands, in the order they are found. -/
def resourceTypes (signalUnits : List (QueryMap R)) : List R :=
  (signalUnits.filterMap QueryMap.getUnitResourceType).reverse.dedup.reverse

/-- `peers_have_corelets`: some peer type has more than one distinct corelet. -/
def peersHaveCorelets (otherSignalUnits : List (QueryMap R)) : Bool :=
  (resourceTypes otherSignalUnits).any fun resourceType =>
    hasCorelets ((ofType resourceType otherSignalUnits).flatMap QueryMap.values)

/-- The mapping of one group of peers on the corelet-aware path: each unit to the first peer on its
corelet, or, where some corelet has no peer, a mapping for each operand. -/
def groupMappings (programUnit : List (GetUnit R)) (group : List (QueryMap R)) :
    Except SignalError (List (UnitMapping R)) :=
  let clToPeer := group.flatMap QueryMap.values
  if programUnit.all fun unit => clToPeer.any fun peer => peer.coreletId = unit.coreletId then
    .ok [programUnit.filterMap fun unit =>
      (clToPeer.find? fun peer => peer.coreletId = unit.coreletId).map fun peer => (unit, peer)]
  else group.mapM (buildSignalQueryMap programUnit)

/-- `other_query_maps`. -/
def otherQueryMaps (programUnit : List (GetUnit R)) (otherSignalUnits : List (QueryMap R)) :
    Except SignalError (List (UnitMapping R)) :=
  if hasCorelets programUnit && peersHaveCorelets otherSignalUnits then do
    let mappings ← (resourceTypes otherSignalUnits).mapM fun resourceType =>
      groupMappings programUnit (ofType resourceType otherSignalUnits)
    .ok mappings.flatten
  else otherSignalUnits.mapM (buildSignalQueryMap programUnit)

/-- What a signal becomes: the query maps of the `dataflow.sync_send` operations, then those of the
`dataflow.sync_recv` operations. -/
structure LoweredSignal (R : Type) where
  sends : List (UnitMapping R)
  recvs : List (UnitMapping R)

/-- `LowerSignalPattern::matchAndRewrite`, in the program unit of the given units. -/
def lowerSignal (signalUnits : List (QueryMap R)) (programUnit : List (GetUnit R)) :
    Except SignalError (LoweredSignal R) :=
  if signalUnits.length < 2 then .error .tooFewUnits
  else do
    let currUnitQueryMap ← findCurrentUnitQueryMap programUnit signalUnits
    match currUnitQueryMap.getUnitResourceType with
    | none => .error .noResourceType
    | some currResourceType =>
        if signalUnits.any fun signalUnit => signalUnit.getUnitResourceType.isNone then
          .error .noResourceType
        else do
          let otherSignalUnits := signalUnits.filter fun signalUnit =>
            signalUnit ≠ currUnitQueryMap ∧ signalUnit.getUnitResourceType ≠ some currResourceType
          let mappings ← otherQueryMaps programUnit otherSignalUnits
          .ok ⟨mappings, mappings⟩

/-! ## Execution -/

/-- `uniform.query_map`: what the mapping has for a unit. -/
def UnitMapping.query (mapping : UnitMapping R) (unit : GetUnit R) : Option (GetUnit R) :=
  (mapping.find? fun entry => entry.1 = unit).map Prod.snd

/-- The peers that a unit sends to, one for each `dataflow.sync_send`. -/
def LoweredSignal.sendsTo (lowered : LoweredSignal R) (unit : GetUnit R) : List (GetUnit R) :=
  lowered.sends.filterMap fun mapping => UnitMapping.query mapping unit

/-- The peers that a unit receives from, one for each `dataflow.sync_recv`. -/
def LoweredSignal.recvsFrom (lowered : LoweredSignal R) (unit : GetUnit R) : List (GetUnit R) :=
  lowered.recvs.filterMap fun mapping => UnitMapping.query mapping unit

end SignalLowering

end DataflowScheduler
