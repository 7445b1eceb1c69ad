import DataflowScheduler.Dialect.KTDF.Transforms.SplitReductionInnerOuterDim.Rows

/-!
# The result of the two generics

Where a unary operation computes what an element contributes, the second generic totals what that
operation makes of the partial results. The two generics compute the result of the source when that
leaves the totals alone.
-/

namespace SplitReductionInnerOuterDim

open RowMajor StraightLine Reduction

variable {V : Type} [Inhabited V]

section

variable {g : GenericOp} {input_map : List Nat} {info : CandidateInfo} {body : Body}
  {interp : String → List V → V} {a : Nat → Accumulation} {neutral : Nat → V}
  {T : Nat → V → Prop} {D : V → Prop}

/-- Any rows are those of some input. -/
theorem Splits.exists_rows (h : Splits g input_map info body interp a neutral T D) {r : Nat}
    (hr : r < g.output_maps.length) {o : List Nat}
    (ho : o ∈ points (select (g.output_maps.getLastD []) g.sizes)) {rows : List (List V)}
    (hlen : rows.length = g.sizes.getD info.inner_dim 0)
    (hrows : ∀ row ∈ rows, row.length = (select info.outer_dims g.sizes).prod ∧ ∀ x ∈ row, D x) :
    ((totalled g info o).map fun k => (a r).partialResult g.body interp (neutral r)
        (row g input_map info (Partitioned.ofRows g input_map info rows) k)) =
      rows.map ((a r).partialResult g.body interp (neutral r)) := by
  have hp := h.partitioned
  have hD := hp.ofRows_mem hlen hrows
  calc _ = ((totalled g info o).map
          (·.getD ((keptDims g info).idxOf info.inner_dim) 0)).map fun j =>
            (a r).partialResult g.body interp (neutral r) (rows.getD j []) := by
        rw [List.map_map]
        apply List.map_congr_left
        intro k hk
        have hkept := Partitioned.totalled_mem hk
        have hj : k.getD ((keptDims g info).idxOf info.inner_dim) 0 < rows.length := by
          rw [hlen]
          exact getD_lt_of_select hkept hp.inner_mem_kept
        have hget : rows.getD (k.getD ((keptDims g info).idxOf info.inner_dim) 0) [] =
            rows[k.getD ((keptDims g info).idxOf info.inner_dim) 0] := by
          rw [List.getD_eq_getElem?_getD, List.getElem?_eq_getElem hj, Option.getD_some]
        have hperm := hp.row_ofRows hkept hget (hrows _ (List.getElem_mem hj)).1
        show _ = (a r).partialResult _ _ _ (rows.getD _ [])
        rw [hget]
        exact total_perm (h.laws r hr) (hperm.map _)
          (h.contributions_mem hr (Splits.row_mem hD k))
    _ = (List.range rows.length).map fun j =>
          (a r).partialResult g.body interp (neutral r) (rows.getD j []) := by
        rw [hp.totalled_inner ho, hlen]
    _ = rows.map ((a r).partialResult g.body interp (neutral r)) := by
        apply List.ext_getElem (by simp)
        intro j hj hj'
        rw [List.length_map] at hj'
        simp [hj']

/-- **The results are kept when the unary operations are idle.** -/
theorem Splits.keepsResult_iff (h : Splits g input_map info body interp a neutral T D)
    (hsame : ∀ map ∈ g.output_maps, map = g.output_maps.getLastD []) :
    KeepsResult g (firstGeneric g info) (secondGeneric g info body) interp neutral D ↔
      0 ∈ select (g.output_maps.getLastD []) g.sizes ∨
      ∀ r < g.output_maps.length, (a r).Idle g.body interp (neutral r) D
        (g.sizes.getD info.inner_dim 0) (select info.outer_dims g.sizes).prod := by
  have hp := h.partitioned
  have hmap : ∀ r < g.output_maps.length,
      g.output_maps.getD r [] = g.output_maps.getLastD [] := by
    intro r hr
    apply hsame
    simp [hr]
  have hin : g.input_maps.headD [] = input_map := by rw [hp.input, List.headD_cons]
  unfold KeepsResult
  rw [hin]
  constructor
  · intro hkeeps
    by_cases hzero : 0 ∈ select (g.output_maps.getLastD []) g.sizes
    · exact .inl hzero
    right
    -- an element of the output, and the input with the given rows
    have hne : points (select (g.output_maps.getLastD []) g.sizes) ≠ [] := by
      rw [points_ne_nil]
      intro s hs
      apply Nat.pos_of_ne_zero
      rintro rfl
      exact hzero hs
    obtain ⟨o, ho⟩ := List.exists_mem_of_ne_nil _ hne
    intro r hr
    rw [Accumulation.idle_iff]
    intro rows hlen hrows
    have hx := hp.ofRows_mem hlen hrows
    rw [← h.exists_rows hr ho hlen hrows, ← h.keeps_iff hsame hr hx]
    exact hkeeps _ hx r hr o (by rwa [hmap r hr])
  · rintro (hzero | hidle) x hx r hr o ho
    · rw [hmap r hr] at ho
      have hempty := points_ne_nil.1 (List.ne_nil_of_mem ho) 0 hzero
      exact absurd hempty (Nat.lt_irrefl 0)
    · rw [hmap r hr] at ho
      rw [h.keeps_iff hsame hr hx]
      have hright := Accumulation.idle_iff.1 (hidle r hr)
        ((totalled g info o).map (row g input_map info x)) (by simp [hp.length_totalled ho]) ?_
      · rwa [List.map_map] at hright
      · intro row hrow
        obtain ⟨k, hk, rfl⟩ := List.mem_map.1 hrow
        exact ⟨hp.length_row x (Partitioned.totalled_mem hk), Splits.row_mem hx k⟩

end

/-- How many partial results make up a result. -/
def GenericOp.innerSize (g : GenericOp) : Nat := g.sizes.getD ((collectReductionDims g).getLastD 0) 0

/-- How many elements make up a partial result. -/
def GenericOp.outerSize (g : GenericOp) : Nat :=
  (select (collectReductionDims g).dropLast g.sizes).prod

/-- Floating-point operations, on exact numbers. -/
def exactArithmetic : String → List Int → Int
  | "arith.addf", [x, y] => x + y
  | "arith.mulf", [x, y] => x * y
  | "arith.negf", [x] => -x
  | _, _ => 0

/-- Sums up what `contribution` makes of the elements of each column. -/
def sumOf (contribution : Line String Nat) : GenericOp where
  iterator_types := [.parallel, .reduction, .reduction]
  sizes := [2, 3, 2]
  input_maps := [[1, 0, 2]]
  output_maps := [[0]]
  body := ⟨[contribution, ⟨"arith.addf", [.given 1, .line 0]⟩], [.line 1]⟩

def summing : Accumulation := ⟨"arith.addf", true, .line 0⟩

theorem sumOf_wellFormed {contribution : Line String Nat}
    (h : ∀ u ∈ contribution.operands, u.Within 0) : (sumOf contribution).WellFormed where
  sizes_length := rfl
  has_output := by simp [sumOf]
  map_lt := by simp [sumOf]
  map_nodup := by simp [sumOf]
  covered := by
    show ∀ d < 3, ∃ map ∈ [[1, 0, 2], [0]], d ∈ map
    decide
  parallel := by
    intro d hd
    match d with
    | 0 => simp [sumOf]
    | 1 => simp [sumOf] at hd
    | 2 => simp [sumOf] at hd
    | d + 3 => simp [sumOf] at hd
  reduction := by
    intro d hd
    match d with
    | 0 => simp [sumOf] at hd
    | 1 => simp [sumOf]
    | 2 => simp [sumOf]
    | d + 3 => simp [sumOf] at hd
  yields_length := rfl
  ordered := by
    intro j l hj
    match j with
    | 0 =>
      obtain rfl : contribution = l := by simpa [sumOf] using hj
      exact h
    | 1 =>
      obtain rfl : ⟨"arith.addf", [.given 1, .line 0]⟩ = l := by simpa [sumOf] using hj
      simp [Operand.Within]
    | j + 2 => simp [sumOf] at hj

theorem summing_laws : Accumulator (summing.binary exactArithmetic) 0 fun _ => True where
  neutral_mem := trivial
  closed := fun _ _ _ _ => trivial
  neutral_op := fun x _ => Int.zero_add x
  comm := fun x y _ _ => Int.add_comm x y
  assoc := fun x y z _ _ _ => Int.add_assoc x y z

def squared : Line String Nat := ⟨"arith.mulf", [.given 0, .given 0]⟩

def negated : Line String Nat := ⟨"arith.negf", [.given 0]⟩

/-- The candidate of both: the last dimension is as long as a vector of two. -/
def columns : CandidateInfo := ⟨2, [1]⟩

/-- The second generic of a sum of squares adds up the partial sums. -/
def addsPartial : Body := ⟨[⟨"arith.addf", [.given 1, .given 0]⟩], [.line 0]⟩

/-- That of a sum of negated elements negates the partial sums. -/
def addsNegated : Body :=
  ⟨[⟨"arith.negf", [.given 0]⟩, ⟨"arith.addf", [.given 1, .line 0]⟩], [.line 1]⟩

theorem sumOf_accumulates {contribution : Line String Nat}
    (h : reads (sumOf contribution).body.lines (.line 0) = [0] ∨
      reads (sumOf contribution).body.lines (.line 0) = [0, 0]) :
    ∀ r < (sumOf contribution).output_maps.length,
      (sumOf contribution).body.Accumulates 1 r summing := by
  intro r hr
  obtain rfl : r = 0 := by simpa [sumOf] using hr
  refine ⟨1, rfl, rfl, ?_⟩
  show ∀ k ∈ reads _ (Operand.line 0), k < 1
  rcases h with h | h
  · simp [h]
  · simp [h]

end SplitReductionInnerOuterDim
