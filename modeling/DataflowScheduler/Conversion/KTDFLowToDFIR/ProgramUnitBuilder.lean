import DataflowScheduler.Conversion.KTDFLowToDFIR.SignalLowering
import DataflowScheduler.Util.RoseEdit

/-!
# Program units

`buildProgramUnits` clones the work of a function into a program unit for each resource type. In each
clone the `execute_on` ops of the type are unwrapped, those of other types are erased with what is in
them, and so are the signals of other types. What reads the compute tile id reads the core of the
executing unit instead.

An op with several regions has a node for each of them. A clone keeps the names of the ops and of the
values it defines, so a name means the op of the unit in a unit, and the original in the function.
-/

namespace DataflowScheduler

namespace ProgramUnitBuilder

open SignalLowering (GetUnit QueryMap)

variable {R : Type}

abbrev OpId := Nat

abbrev ValueId := Nat

/-- The ops the builder tells apart. -/
inductive OpKind where
  /-- `ktdf_lowering.execute_on` -/
  | executeOn
  /-- `ktdf_lowering.signal` -/
  | signal
  /-- `ktdp.get_compute_tile_id` -/
  | getComputeTileId
  | other
  deriving Repr, DecidableEq

/-- An operand: a value, or the result of the query that a program unit starts with. -/
inductive Operand where
  | value (v : ValueId)
  | coreId
  deriving Repr, DecidableEq

/-- An op without its regions. -/
structure OpInfo where
  id : OpId
  kind : OpKind
  operands : List Operand
  results : List ValueId
  deriving Repr, DecidableEq

/-- An op with what is in its regions. -/
abbrev Op := Rose OpInfo

/-- What defines a value, as far as units go. -/
inductive Definition (R : Type) where
  | getUnit (unit : GetUnit R)
  | queryMap (mapping : QueryMap R)
  | other
  deriving Repr, DecidableEq

/-- `getUnitResourceType`. -/
def Definition.getUnitResourceType : Definition R → Option R
  | .getUnit unit => some unit.resourceType
  | .queryMap mapping => mapping.getUnitResourceType
  | .other => none

/-- The type of a unit operand. -/
def unitTypeOf (definition : ValueId → Definition R) : Operand → Option R
  | .value v => (definition v).getUnitResourceType
  | .coreId => none

/-- A `dataflow.program_unit`: its unit operands, the mapping its query reads, and its body. -/
structure ProgramUnit where
  units : List ValueId
  coreMap : Option (List (ValueId × Int))
  body : List Op

/-- A function: the values that define units, the ops of the prelude, which have no regions, the work
ops and the program units. -/
structure Func (R : Type) where
  definition : ValueId → Definition R
  preludeOps : List OpInfo
  workOps : List Op
  programUnits : List ProgramUnit

/-- Why the builder stops. -/
inductive BuildError where
  /-- "ktdflowering-to-dfir: could not resolve component type for unit operand" -/
  | unresolvedUnit (op : OpId)
  /-- "program_unit operand must be defined by dataflow.get_unit" -/
  | notGetUnit
  /-- "dataflow.get_unit must have 'core' attribute" -/
  | noCore
  /-- An op is used that has been erased: undefined behaviour. -/
  | gone
  deriving Repr, DecidableEq

/-! ## Filtering -/

variable [DecidableEq R]

/-- `anyOperandHasType`. Operands after the first of the type are not looked at. -/
def anyOperandHasType (definition : ValueId → Definition R) (target : R) (op : OpId) :
    List Operand → Except BuildError Bool
  | [] => .ok false
  | u :: opUnits =>
      match unitTypeOf definition u with
      | none => .error (.unresolvedUnit op)
      | some rt => if rt = target then .ok true
          else anyOperandHasType definition target op opUnits

/-- A walk over the ops of one kind: which apply to the type, and which do not. -/
def classify (definition : ValueId → Definition R) (target : R) (kind : OpKind) :
    List OpInfo → Except BuildError (List OpId × List OpId)
  | [] => .ok ([], [])
  | op :: ops =>
      if op.kind = kind then do
        let applies ← anyOperandHasType definition target op.id op.operands
        let (applicable, nonApplicable) ← classify definition target kind ops
        if applies then .ok (op.id :: applicable, nonApplicable)
        else .ok (applicable, op.id :: nonApplicable)
      else classify definition target kind ops

/-- Splice out or erase the ops of a list, one after the other. -/
def editOps (edit : Rose.Edit) (body : List Op) (ops : List OpId) : Except BuildError (List Op) :=
  match ops.foldlM (Rose.editNode OpInfo.id edit) body with
  | some body => .ok body
  | none => .error .gone

/-- `filterAndUnwrapKTDFLoweringOps`. A walk visits an op after what is in it. -/
def filterAndUnwrapKTDFLoweringOps (definition : ValueId → Definition R) (target : R)
    (body : List Op) : Except BuildError (List Op) := do
  let (applicableExecs, nonApplicableExecs) ←
    classify definition target .executeOn (Rose.postorderList body)
  let body ← editOps .unwrap body applicableExecs
  let body ← editOps .erase body nonApplicableExecs
  let (_, signalsToErase) ← classify definition target .signal (Rose.postorderList body)
  editOps .erase body signalsToErase

/-! ## Core queries -/

/-- Whether an op reads a value. -/
def OpInfo.reads (op : OpInfo) (v : ValueId) : Bool := op.operands.contains (.value v)

/-- The single results of the compute tile ids of these ops. -/
def tileIdValues (ops : List OpInfo) : List ValueId :=
  ops.filterMap fun op => match op.kind, op.results with
    | .getComputeTileId, [v] => some v
    | _, _ => none

/-- Redirect the uses of the given values to the core query. -/
def OpInfo.redirect (tileIds : List ValueId) (op : OpInfo) : OpInfo :=
  { op with operands := op.operands.map fun
      | .value v => if v ∈ tileIds then .coreId else .value v
      | .coreId => .coreId }

/-- The core map of the operands of a program unit. The constants of its values are shared by the
whole function, here they are numbers. -/
def coreEntries (definition : ValueId → Definition R) :
    List ValueId → Except BuildError (List (ValueId × Int))
  | [] => .ok []
  | puOp :: units =>
      match definition puOp with
      | .getUnit unit =>
          match unit.core with
          | some core => do
              let entries ← coreEntries definition units
              .ok ((puOp, core) :: entries)
          | none => .error .noCore
      | _ => .error .notGetUnit

/-- `replaceComputeTileIdWithCoreQuery`. Of the tile ids of the function, only those of the prelude
and those of the unit itself have uses in the unit. -/
def replaceComputeTileIdWithCoreQuery (definition : ValueId → Definition R)
    (preludeOps : List OpInfo) (programUnit : ProgramUnit) : Except BuildError ProgramUnit :=
  let ops := Rose.postorderList programUnit.body
  let tileIds := (tileIdValues (preludeOps ++ ops)).filter fun v => ops.any fun op => op.reads v
  if tileIds.isEmpty then .ok programUnit
  else do
    let entries ← coreEntries definition programUnit.units
    .ok { programUnit with
      coreMap := some entries
      body := Rose.mapList (OpInfo.redirect tileIds) programUnit.body }

/-! ## The builder -/

/-- A compute tile id none of the given ops reads. -/
def OpInfo.isDeadTileId (readers : List OpInfo) (op : OpInfo) : Bool :=
  op.kind = .getComputeTileId && op.results.all fun v => readers.all fun reader => !reader.reads v

/-- Erase the dead compute tile ids of a body whose values only the body reads. -/
def eraseDeadTileIds (body : List Op) : Except BuildError (List Op) :=
  let ops := Rose.postorderList body
  editOps .erase body ((ops.filter (OpInfo.isDeadTileId ops)).map OpInfo.id)

/-- One round of the loop over the components. -/
def buildProgramUnit (func : Func R) (component : R × List ValueId) :
    Except BuildError ProgramUnit := do
  let body ← filterAndUnwrapKTDFLoweringOps func.definition component.1 func.workOps
  replaceComputeTileIdWithCoreQuery func.definition func.preludeOps ⟨component.2, none, body⟩

/-- Erase the work ops, which must still be there, the last one first. -/
def eraseWorkOps (left : List Op) : List Op → Except BuildError Unit
  | [] => .ok ()
  | op :: workOps => do
      eraseWorkOps left workOps
      if (left.map fun op => op.label.id).contains op.label.id then .ok () else .error .gone

/-- `buildProgramUnits`. -/
def buildProgramUnits (func : Func R) (components : List (R × List ValueId)) :
    Except BuildError (Func R) :=
  if components.isEmpty then .ok func
  else do
    let programUnits ← components.mapM (buildProgramUnit func)
    -- The dead tile ids of the prelude, of the original work ops and of each unit.
    let readers := func.preludeOps ++ Rose.postorderList func.workOps ++
      programUnits.flatMap fun unit => Rose.postorderList unit.body
    let preludeOps := func.preludeOps.filter fun op => !op.isDeadTileId readers
    let workOps ← eraseDeadTileIds func.workOps
    let programUnits ← programUnits.mapM fun unit => do
      let body ← eraseDeadTileIds unit.body
      .ok { unit with body := body }
    eraseWorkOps workOps func.workOps
    .ok { func with
      preludeOps := preludeOps
      workOps := []
      programUnits := func.programUnits ++ programUnits }

end ProgramUnitBuilder

end DataflowScheduler
