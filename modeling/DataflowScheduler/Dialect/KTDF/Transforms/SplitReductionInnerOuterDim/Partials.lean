import DataflowScheduler.Dialect.KTDF.Transforms.SplitReductionInnerOuterDim.Loops

/-!
# Partial results

The first generic computes a partial result for each row of the input. The source totals these, and
the second generic what its combiner makes of them.
-/

namespace SplitReductionInnerOuterDim

open RowMajor StraightLine Reduction

variable {V : Type} [Inhabited V]

/-- For all inputs with elements in `D`, the second generic makes the results of the first into those
of the source. -/
def KeepsResult (g g1 g2 : GenericOp) (interp : String → List V → V) (neutral : Nat → V)
    (D : V → Prop) : Prop :=
  ∀ x : Tensor V, (∀ i ∈ points (select (g.input_maps.headD []) g.sizes), D (x i)) →
    ∀ r < g.output_maps.length, ∀ o ∈ points (select (g.output_maps.getD r []) g.sizes),
      g2.run interp (g1.run interp (fun _ => x) fun r _ => neutral r) (fun r _ => neutral r) r o =
        g.run interp (fun _ => x) (fun r _ => neutral r) r o

/-! ## Partial results -/

/-- The partial result of some elements. -/
def Accumulation.partialResult (a : Accumulation) (b : Body) (interp : String → List V → V)
    (neutral : V) (row : List V) : V :=
  total (a.binary interp) neutral (row.map (a.contributed b interp))

/-- The second generic totals the partial results right. -/
def Accumulation.TotalsRight (a : Accumulation) (b : Body) (interp : String → List V → V)
    (neutral : V) (partials : List V) : Prop :=
  partials.foldl (fun running v => a.apply interp running (a.again b interp v)) neutral =
    partials.foldl (a.apply interp) neutral

/-- The unary operation that computes the contributions, if one does, may be applied to the partial
results of `n` rows of `m` elements each once more, and they total the same. -/
def Accumulation.Idle (a : Accumulation) (b : Body) (interp : String → List V → V) (neutral : V)
    (D : V → Prop) (n m : Nat) : Prop :=
  ∀ op, b.through a.contribution = some op →
    ∀ rows : List (List V), rows.length = n →
      (∀ row ∈ rows, row.length = m ∧ ∀ x ∈ row, D x) →
      (rows.map (a.partialResult b interp neutral)).foldl
          (fun running v => a.apply interp running (interp op [v])) neutral =
        (rows.map (a.partialResult b interp neutral)).foldl (a.apply interp) neutral

theorem Accumulation.idle_iff {a : Accumulation} {b : Body} {interp : String → List V → V}
    {neutral : V} {D : V → Prop} {n m : Nat} :
    a.Idle b interp neutral D n m ↔
      ∀ rows : List (List V), rows.length = n →
        (∀ row ∈ rows, row.length = m ∧ ∀ x ∈ row, D x) →
        a.TotalsRight b interp neutral (rows.map (a.partialResult b interp neutral)) := by
  unfold Idle TotalsRight again
  cases b.through a.contribution with
  | none => simp
  | some op => simp

/-! ## The elements of a result -/

/-- What the two generics are made of. -/
structure Splits (g : GenericOp) (input_map : List Nat) (info : CandidateInfo) (body : Body)
    (interp : String → List V → V) (a : Nat → Accumulation) (neutral : Nat → V)
    (T : Nat → V → Prop) (D : V → Prop) : Prop where
  partitioned : Partitioned g input_map info
  accumulates : ∀ r < g.output_maps.length, g.body.Accumulates 1 r (a r)
  built : Built V g.body a g.output_maps.length g.output_maps.length body
  laws : ∀ r < g.output_maps.length, Accumulator ((a r).binary interp) (neutral r) (T r)
  typed : ∀ r < g.output_maps.length, ∀ x, D x → T r ((a r).contributed g.body interp x)

/-- The points that the second generic totals for the element `o` of the result `r`. -/
def totalled (g : GenericOp) (info : CandidateInfo) (o : List Nat) : List (List Nat) :=
  (points (select (keptDims g info) g.sizes)).filter fun k =>
    select ((g.output_maps.getLastD []).map ((keptDims g info).idxOf ·)) k = o

/-- The elements of the input that make up the partial result for such a point. -/
def row (g : GenericOp) (input_map : List Nat) (info : CandidateInfo) (x : Tensor V)
    (k : List Nat) : List V :=
  ((points (select input_map g.sizes)).filter fun l =>
    select ((input_map.filter (· ∉ info.outer_dims)).map (input_map.idxOf ·)) l =
      select ((input_map.filter (· ∉ info.outer_dims)).map ((keptDims g info).idxOf ·)) k).map x

namespace Partitioned

variable {g : GenericOp} {input_map : List Nat} {info : CandidateInfo}

theorem points_perm (h : Partitioned g input_map info) (o : List Nat) :
    (((points g.sizes).filter fun i => select (g.output_maps.getLastD []) i = o).map fun i =>
      (select (keptDims g info) i, select input_map i)).Perm
      (nested g.sizes (keptDims g info) input_map (g.output_maps.getLastD []) o) :=
  nested_perm h.input_nodup kept_nodup (fun _ => h.kept_lt) (fun _ => h.input_lt)
    (fun _ => h.kept_or_input) (h.output_subset_kept h.last_mem)

omit [Inhabited V] in
/-- Inside each point that the second generic totals, one row is swept. -/
theorem nested_rows (h : Partitioned g input_map info) (x : Tensor V) (o : List Nat) (f : V → V) :
    (nested g.sizes (keptDims g info) input_map (g.output_maps.getLastD []) o).map
        (fun p => f (x p.2)) =
      (totalled g info o).flatMap fun k => (row g input_map info x k).map f := by
  unfold nested totalled row
  rw [h.shared_eq, List.map_flatMap]
  simp only [List.map_map, Function.comp_def]

end Partitioned

namespace Splits

variable {g : GenericOp} {input_map : List Nat} {info : CandidateInfo} {body : Body}
  {interp : String → List V → V} {a : Nat → Accumulation} {neutral : Nat → V}
  {T : Nat → V → Prop} {D : V → Prop} {r : Nat} {x : Tensor V}

omit [Inhabited V] in
theorem row_mem (hx : ∀ i ∈ points (select input_map g.sizes), D (x i)) (k : List Nat) :
    ∀ v ∈ row g input_map info x k, D v := by
  intro v hv
  obtain ⟨l, hl, rfl⟩ := List.mem_map.1 hv
  exact hx l (List.mem_of_mem_filter hl)

theorem contributions_mem (h : Splits g input_map info body interp a neutral T D)
    (hr : r < g.output_maps.length) {row : List V} (hrow : ∀ v ∈ row, D v) :
    ∀ v ∈ row.map ((a r).contributed g.body interp), T r v := by
  intro v hv
  obtain ⟨y, hy, rfl⟩ := List.mem_map.1 hv
  exact h.typed r hr y (hrow y hy)

theorem partialResult_mem (h : Splits g input_map info body interp a neutral T D)
    (hr : r < g.output_maps.length) {row : List V} (hrow : ∀ v ∈ row, D v) :
    T r ((a r).partialResult g.body interp (neutral r) row) :=
  total_mem (h.laws r hr) (h.contributions_mem hr hrow) (h.laws r hr).neutral_mem

/-- The first generic computes the partial results. -/
theorem first_run (h : Splits g input_map info body interp a neutral T D)
    (hr : r < g.output_maps.length) (hx : ∀ i ∈ points (select input_map g.sizes), D (x i))
    (k : List Nat) :
    (firstGeneric g info).run interp (fun _ => x) (fun r _ => neutral r) r
        (select ((input_map.filter (· ∉ info.outer_dims)).map ((keptDims g info).idxOf ·)) k) =
      (a r).partialResult g.body interp (neutral r) (row g input_map info x k) := by
  have hp := h.partitioned
  have hin : (firstGeneric g info).input_maps = [List.range input_map.length] := by
    simp [firstGeneric, hp.input]
  have hsizes : (firstGeneric g info).sizes = select input_map g.sizes := by
    simp [firstGeneric, hp.input]
  have hself : ∀ l ∈ points (select input_map g.sizes),
      select (List.range input_map.length) l = l := by
    intro l hl
    have hlen := length_of_mem_points hl
    apply ext_getD (by simpa using hlen.symm)
    intro n hn
    rw [getD_select (by simpa using hn), List.getElem_range]
  rw [run_eq_total hin (a := a r) hp.wellFormed.ordered (h.accumulates r hr) (h.laws r hr),
    hp.first_output_maps hr, hsizes]
  · unfold Accumulation.partialResult row
    rw [List.map_map]
    congr 1
    apply List.map_congr_left
    intro l hl
    rw [hself l (List.mem_of_mem_filter hl)]
    rfl
  · intro l hl
    rw [hsizes] at hl
    rw [hself l hl]
    exact h.typed r hr _ (hx l hl)

/-- The source totals the partial results. -/
theorem source_run (h : Splits g input_map info body interp a neutral T D)
    (hsame : ∀ map ∈ g.output_maps, map = g.output_maps.getLastD [])
    (hr : r < g.output_maps.length) (hx : ∀ i ∈ points (select input_map g.sizes), D (x i))
    (o : List Nat) :
    g.run interp (fun _ => x) (fun r _ => neutral r) r o =
      ((totalled g info o).map fun k =>
        (a r).partialResult g.body interp (neutral r) (row g input_map info x k)).foldl
          ((a r).apply interp) (neutral r) := by
  have hp := h.partitioned
  have hmap : g.output_maps.getD r [] = g.output_maps.getLastD [] := by
    apply hsame
    simp [hr]
  have hinput : ∀ i ∈ points g.sizes, D (x (select input_map i)) :=
    fun i hi => hx _ (select_mem_points hi fun _ => hp.input_lt)
  rw [run_eq_total hp.input hp.wellFormed.ordered (h.accumulates r hr) (h.laws r hr)
    fun i hi => h.typed r hr _ (hinput i hi), hmap]
  have hperm := (hp.points_perm o).map fun p => (a r).contributed g.body interp (x p.2)
  rw [List.map_map] at hperm
  have hrows : ∀ k ∈ totalled g info o,
      ∀ v ∈ (row g input_map info x k).map ((a r).contributed g.body interp), T r v :=
    fun k _ => h.contributions_mem hr (row_mem hx k)
  have hpartials : ∀ v ∈ (totalled g info o).map fun k =>
      (a r).partialResult g.body interp (neutral r) (row g input_map info x k), T r v := by
    intro v hv
    obtain ⟨k, -, rfl⟩ := List.mem_map.1 hv
    exact h.partialResult_mem hr (row_mem hx k)
  rw [(a r).foldl_apply (h.laws r hr) hpartials (h.laws r hr).neutral_mem]
  -- every element of the input is in one row, and the rows total up to all
  calc total ((a r).binary interp) (neutral r)
        (((points g.sizes).filter fun i => select (g.output_maps.getLastD []) i = o).map fun i =>
          (a r).contributed g.body interp (x (select input_map i)))
      = total ((a r).binary interp) (neutral r) ((totalled g info o).flatMap fun k =>
          (row g input_map info x k).map ((a r).contributed g.body interp)) := by
        have helements := hperm.trans (.of_eq (hp.nested_rows (V := V) x o _))
        apply total_perm (h.laws r hr) helements
        intro v hv
        obtain ⟨k, hk, hv⟩ := List.mem_flatMap.1 (helements.mem_iff.1 hv)
        exact hrows k hk v hv
    _ = _ := total_flatMap (h.laws r hr) hrows

/-- The second generic totals what the combiner makes of them. -/
theorem second_run (h : Splits g input_map info body interp a neutral T D)
    (hr : r < g.output_maps.length) (inputs : Nat → Tensor V) (o : List Nat) :
    (secondGeneric g info body).run interp inputs (fun r _ => neutral r) r o =
      ((totalled g info o).map fun k =>
        inputs r
          (select ((input_map.filter (· ∉ info.outer_dims)).map ((keptDims g info).idxOf ·)) k)).foldl
          (fun running v => (a r).apply interp running ((a r).again g.body interp v))
          (neutral r) := by
  obtain ⟨operand, hyield, -, hcombines⟩ := h.built.combines r hr
  have hinputs : (secondGeneric g info body).input_maps.length = g.output_maps.length := by
    simp [secondGeneric]
  have hstep : ∀ outputs, ∀ k ∈ points (secondGeneric g info body).sizes,
      (secondGeneric g info body).body.yielded interp
          ((secondGeneric g info body).arguments inputs outputs k) r =
        (a r).apply interp
          (outputs r (select ((secondGeneric g info body).output_maps.getD r []) k))
          ((a r).again g.body interp (inputs r
            (select ((secondGeneric g info body).input_maps.getD r []) k))) := by
    intro outputs k _
    show body.yielded _ _ _ = _
    simp only [Body.yielded, hyield]
    have hcarried : ¬ g.output_maps.length + r < g.output_maps.length := by omega
    rw [hcombines]
    simp [GenericOp.arguments, hinputs, hr, hcarried]
  rw [run_eq_foldl (f := fun running k => (a r).apply interp running ((a r).again g.body interp
      (inputs r (select ((secondGeneric g info body).input_maps.getD r []) k)))) hstep,
    List.foldl_map, h.partitioned.second_input_maps body hr,
    Partitioned.second_output_maps body hr]
  rfl

/-- The two results agree where the partial results are totalled right. -/
theorem keeps_iff (h : Splits g input_map info body interp a neutral T D)
    (hsame : ∀ map ∈ g.output_maps, map = g.output_maps.getLastD [])
    (hr : r < g.output_maps.length) (hx : ∀ i ∈ points (select input_map g.sizes), D (x i))
    (o : List Nat) :
    (secondGeneric g info body).run interp
        ((firstGeneric g info).run interp (fun _ => x) fun r _ => neutral r)
        (fun r _ => neutral r) r o =
      g.run interp (fun _ => x) (fun r _ => neutral r) r o ↔
    (a r).TotalsRight g.body interp (neutral r) ((totalled g info o).map fun k =>
      (a r).partialResult g.body interp (neutral r) (row g input_map info x k)) := by
  rw [h.second_run hr, h.source_run hsame hr hx o, Accumulation.TotalsRight]
  simp only [h.first_run hr hx]

end Splits

end SplitReductionInnerOuterDim
