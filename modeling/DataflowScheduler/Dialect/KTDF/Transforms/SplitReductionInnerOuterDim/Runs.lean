import DataflowScheduler.Dialect.KTDF.Transforms.SplitReductionInnerOuterDim.Combiner
import DataflowScheduler.Util.Reduction

/-!
# Runs of a reduction

A result that is accumulated by one operation is, at each of its elements, a fold over the points of
the loops that the output map sends there.
-/

namespace SplitReductionInnerOuterDim

open RowMajor StraightLine Reduction

variable {V : Type}

/-- The accumulating operation as a function of two values. -/
def Accumulation.binary (a : Accumulation) (interp : String → List V → V) (x y : V) : V :=
  interp a.op [x, y]

theorem Accumulation.apply_eq {a : Accumulation} {interp : String → List V → V} {neutral : V}
    {T : V → Prop} (hlaws : Accumulator (a.binary interp) neutral T) {x y : V} (hx : T x)
    (hy : T y) : a.apply interp x y = a.binary interp x y := by
  unfold apply
  split
  · rfl
  · exact hlaws.comm y x hy hx

/-- Whichever side the running value is on, the values total up. -/
theorem Accumulation.foldl_apply {a : Accumulation} {interp : String → List V → V} {neutral : V}
    {T : V → Prop} (hlaws : Accumulator (a.binary interp) neutral T) {l : List V}
    (hl : ∀ x ∈ l, T x) {start : V} (hstart : T start) :
    l.foldl (a.apply interp) start = total (a.binary interp) start l := by
  induction l generalizing start with
  | nil => rfl
  | cons x l ih =>
    have hx := hl x List.mem_cons_self
    show l.foldl _ (a.apply interp start x) = _
    rw [a.apply_eq hlaws hstart hx]
    exact ih (fun y hy => hl y (List.mem_cons_of_mem _ hy)) (hlaws.closed _ _ hstart hx)

/-! ## The fold of a result -/

variable [Inhabited V]

/-- Points that write another element, or another result, do not matter. -/
theorem run_eq_foldl {g : GenericOp} {interp : String → List V → V} {inputs : Nat → Tensor V}
    {r : Nat} {f : V → List Nat → V}
    (hstep : ∀ outputs, ∀ i ∈ points g.sizes,
      g.body.yielded interp (g.arguments inputs outputs i) r =
        f (outputs r (select (g.output_maps.getD r []) i)) i)
    (outputs : Nat → Tensor V) (o : List Nat) :
    g.run interp inputs outputs r o =
      ((points g.sizes).filter fun i => select (g.output_maps.getD r []) i = o).foldl f
        (outputs r o) := by
  unfold GenericOp.run
  generalize points g.sizes = l at hstep
  induction l generalizing outputs with
  | nil => rfl
  | cons i l ih =>
    rw [List.foldl_cons, ih _ fun outputs j hj => hstep outputs j (List.mem_cons_of_mem _ hj)]
    by_cases ho : select (g.output_maps.getD r []) i = o
    · have hnext : g.step interp inputs outputs i r o = f (outputs r o) i := by
        rw [GenericOp.step, if_pos ho.symm, hstep outputs i List.mem_cons_self, ho]
      rw [hnext, List.filter_cons_of_pos (by simpa using ho)]
      rfl
    · have hnext : g.step interp inputs outputs i r o = outputs r o := by
        rw [GenericOp.step, if_neg fun h => ho h.symm]
      rw [hnext, List.filter_cons_of_neg (by simpa using ho)]

/-! ## The source -/

/-- What an element of the input contributes. -/
def Accumulation.contributed (a : Accumulation) (b : Body) (interp : String → List V → V) (x : V) :
    V :=
  a.contribution.value (fun _ => x) (values interp (fun _ => x) [] b.lines)

theorem yielded_eq {b : Body} (hordered : Ordered b.lines) {r : Nat} {a : Accumulation}
    (hacc : b.Accumulates 1 r a) (interp : String → List V → V) (arguments : Nat → V) :
    b.yielded interp arguments r =
      a.apply interp (arguments (1 + r)) (a.contributed b interp (arguments 0)) := by
  obtain ⟨j, hyield, hline, hreads⟩ := hacc
  have hvalue : a.contribution.value arguments (values interp arguments [] b.lines) =
      a.contributed b interp (arguments 0) := by
    apply value_congr_reads
    intro k hk
    have hlt := hreads k hk
    obtain rfl : k = 0 := by omega
    rfl
  simp only [Body.yielded, hyield]
  rw [value_line_eq hordered hline, ← hvalue]
  exact a.map_operands interp _ _ _

/-- The result of a generic with the body of the source, over one input, from neutral outputs. -/
theorem run_eq_total {g : GenericOp} {input_map : List Nat} (hinput : g.input_maps = [input_map])
    {interp : String → List V → V} {r : Nat} {a : Accumulation} (hordered : Ordered g.body.lines)
    (hacc : g.body.Accumulates 1 r a) {neutral : Nat → V} {T : V → Prop}
    (hlaws : Accumulator (a.binary interp) (neutral r) T) {x : Nat → Tensor V}
    (htyped : ∀ i ∈ points g.sizes, T (a.contributed g.body interp (x 0 (select input_map i))))
    (o : List Nat) :
    g.run interp x (fun r _ => neutral r) r o =
      total (a.binary interp) (neutral r)
        (((points g.sizes).filter fun i => select (g.output_maps.getD r []) i = o).map fun i =>
          a.contributed g.body interp (x 0 (select input_map i))) := by
  have hstep : ∀ outputs, ∀ i ∈ points g.sizes,
      g.body.yielded interp (g.arguments x outputs i) r =
        a.apply interp (outputs r (select (g.output_maps.getD r []) i))
          (a.contributed g.body interp (x 0 (select input_map i))) := by
    intro outputs i _
    rw [yielded_eq hordered hacc]
    simp [GenericOp.arguments, hinput]
  rw [run_eq_foldl (f := fun running i => a.apply interp running
    (a.contributed g.body interp (x 0 (select input_map i)))) hstep, ← a.foldl_apply hlaws _ hlaws.neutral_mem, List.foldl_map]
  intro v hv
  obtain ⟨i, hi, rfl⟩ := List.mem_map.1 hv
  exact htyped i (List.mem_of_mem_filter hi)

end SplitReductionInnerOuterDim
