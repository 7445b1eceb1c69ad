import DataflowScheduler.Conversion.KTIRToScheduleIR.SplitRuns
import DataflowScheduler.Util.Writes

/-!
# What a split group executes

The meaning of the operations of both halves: values on a grid element, memories counted in entries,
and the addresses an indirect access goes to, before and after the rewrite. Arithmetic is exact.
-/

namespace DataflowScheduler

namespace IndirectComputeGroupSplit

open RowMajor Strides

variable {R G : Type}

/-! ## Values -/

/-- What an operation computes on a grid element. The operations the pass only clones are given by
`other`. -/
def Operation.apply (other : Nat → G → List Int → Int) (g : G) : Operation → List Int → Int
  | .muli, [a, b] => a * b
  | .divsi, [a, b] => a.tdiv b
  | .other id, operands => other id g operands
  | .muli, _ => 0
  | .divsi, _ => 0

mutual

/-- The value of a value, in an environment of block arguments. -/
def Value.eval (other : Nat → G → List Int → Int) (env : BlockArgument → Int) (g : G) : Value → Int
  | .blockArgument arg => env arg
  | .constant c => c
  | .result op operands => op.apply other g (evalAll other env g operands)

def evalAll (other : Nat → G → List Int → Int) (env : BlockArgument → Int) (g : G) :
    List Value → List Int
  | [] => []
  | v :: vs => v.eval other env g :: evalAll other env g vs

end

def OpFoldResult.eval (ν : Value → Int) : OpFoldResult → Int
  | .attr c => c
  | .value v => ν v

/-! ## Memories -/

/-- The memories, entry by entry. -/
abbrev Memory (R : Type) := MemorySpace R × Int → Int

variable (ν : Value → Int)

/-- The strides of a view, static and dynamic. -/
def ConstructMemoryViewOp.strideValues (view : ConstructMemoryViewOp R) : List Int :=
  (getMixedValues view.staticStrides view.strides).map (OpFoldResult.eval ν)

/-- Where the element at some subscripts lies. -/
def ConstructMemoryViewOp.location (view : ConstructMemoryViewOp R) (subscripts : List Int) :
    MemorySpace R × Int :=
  (view.memorySpace, ν view.offset + distance subscripts (view.strideValues ν))

/-- The indices of a view. -/
def ConstructMemoryViewOp.indices (view : ConstructMemoryViewOp R) : List (List Int) :=
  (points view.type.getShape).map fun index => index.map Int.ofNat

/-- What an operation writes, from the memory it finds. -/
def Op.writes (mem : Memory R) : Op R → List ((MemorySpace R × Int) × Int)
  | .idx32ToAddr source target base stride => source.indices.map fun i =>
      (target.location ν i, ν base + mem (source.location ν i) * ν stride)
  | .copy source target => source.indices.map fun i => (target.location ν i, mem (source.location ν i))
  | _ => []

/-- Run operations one after the other. -/
def execAll [DecidableEq R] (mem : Memory R) (ops : List (Op R)) : Memory R :=
  ops.foldl (fun m op => Writes.store m (op.writes ν m)) mem

/-! ## Accesses -/

/-- The results of a map at the unified variables. -/
def mapValues (vars : List Int) (map : Affine.Map) : List Int :=
  map.eval (fun k => vars.getD k 0) (fun _ => 0)

def MemRef.read (mem : Memory R) : MemRef R → List Int → Int
  | .constructMemoryView view, subscripts => mem (view.location ν subscripts)
  | .other _, _ => 0

/-- The subscripts into the base: a direct one is the value of its map, an indirect one what the next
index memref holds at the values of its map. -/
def subscripts (vars : List Int) (read : MemRef R → List Int → Int) :
    List Bool → List Affine.Map → List (MemRef R) → List Int
  | true :: kinds, map :: maps, memref :: memrefs =>
      read memref (mapValues vars map) :: subscripts vars read kinds maps memrefs
  | false :: kinds, map :: maps, memrefs =>
      (mapValues vars map).headD 0 :: subscripts vars read kinds maps memrefs
  | _, _, _ => []

/-- The values of the captured and intermediate variables at a point of the variable space. -/
def ConstructIndirectAccessTilesOp.variables (op : ConstructIndirectAccessTilesOp R)
    (point : List Int) : List Int :=
  op.capturedVariables.map ν ++ point

/-- The element an indirect access goes to at a point. -/
def ConstructIndirectAccessTilesOp.element (op : ConstructIndirectAccessTilesOp R)
    (mem : Memory R) (point : List Int) : Int :=
  match op.base with
  | .constructMemoryView view =>
      (view.location ν (subscripts (op.variables ν point) (MemRef.read ν mem)
        op.perDimSubscriptKinds op.perDimSubscriptMaps op.indirectMemrefs)).2
  | .other _ => 0

/-- The byte a lowered indirect access goes to: the words of the buffer's entry, and the direct
subscripts times their strides. -/
def ConstructIndirectAccessTileOp.byte (op : ConstructIndirectAccessTileOp R) (mem : Memory R)
    (elemBytes wordSize : Nat) (point : List Int) : Int :=
  let vars := op.capturedVariables.map ν ++ point
  let entry := mem (op.indAddrBufMemref.location ν
    (op.indAddrBufDimPositions.map fun position => vars.getD position 0))
  let directs := op.perDimSubscriptMaps.map fun map => (mapValues vars map).headD 0
  entry * wordSize + (op.base.location ν directs).2 * elemBytes

/-- The byte that the first lowered access among the operations goes to. -/
def accessedByte [DecidableEq R] (elemBytes wordSize : Nat) (point : List Int) :
    Memory R → List (Op R) → Option Int
  | _, [] => none
  | mem, .constructIndirectAccessTile op :: _ => some (op.byte ν mem elemBytes wordSize point)
  | mem, op :: ops => accessedByte elemBytes wordSize point (Writes.store mem (op.writes ν mem)) ops

/-! ## Running both halves -/

/-- One execution of the rewritten function's access: the grid element it runs on, and the block
arguments at that moment. -/
structure Execution (G : Type) where
  element : G
  env : BlockArgument → Int

/-- The entry block's arguments are what the call passes. -/
def Execution.Passes (arguments : List Int) (x : Execution G) : Prop :=
  ∀ n, x.env ⟨0, n⟩ = arguments.getD n 0

variable (other : Nat → G → List Int → Int)

def Execution.eval (x : Execution G) (v : Value) : Int := v.eval other x.env x.element

/-- The block arguments of a function called with `arguments`. -/
def entryBlock (arguments : List Int) (arg : BlockArgument) : Int :=
  if arg.block = 0 then arguments.getD arg.number 0 else 0

/-- The memory after the resolving function ran on the grid elements, one after the other. -/
def afterIdxToAddr [DecidableEq R] (idxToAddr : List (Op R)) (arguments : List Int)
    (order : List G) (mem : Memory R) : Memory R :=
  order.foldl (fun m w => execAll (Value.eval other (entryBlock arguments) w) m idxToAddr) mem

/-- The memory after some executions of the rewritten access. -/
def afterAccesses [DecidableEq R] (inserted : List (Op R)) (done : List (Execution G))
    (mem : Memory R) : Memory R :=
  done.foldl (fun m y => execAll (y.eval other) m inserted) mem

end IndirectComputeGroupSplit

end DataflowScheduler
