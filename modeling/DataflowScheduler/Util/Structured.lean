import Mathlib.Data.List.Forall2
import Mathlib.Data.Int.Init

/-!
# Structured operations on tensors

Tensors with their strided slices, and the loops of a structured operation: at every point of an
iteration space each output is read and written at one element. Running such loops on slices that
hold everything they access, and putting the slices back, is running them on the whole.
-/

namespace Structured

abbrev Index := List Int

/-- What some of the elements of a dimension are. -/
structure Range where
  offset : Int
  size : Nat
  stride : Int
  deriving Repr, DecidableEq

namespace Range

/-- Where element `k` of the range is. -/
def element (r : Range) (k : Int) : Int := r.offset + k * r.stride

/-- Which element of the range `i` is. -/
def locate (r : Range) (i : Int) : Option Int :=
  let k := (i - r.offset) / r.stride
  if r.element k = i ∧ 0 ≤ k ∧ k < r.size then some k else none

/-- All elements are in the dimension. -/
def Fits (r : Range) (extent : Nat) : Prop :=
  r.size = 0 ∨ 0 ≤ r.offset ∧ r.element (r.size - 1) < extent

instance (r : Range) (extent : Nat) : Decidable (r.Fits extent) :=
  inferInstanceAs (Decidable (_ ∨ _))

variable {r : Range} {i k : Int}

theorem locate_element (hstride : r.stride ≠ 0) (hk : 0 ≤ k ∧ k < r.size) :
    r.locate (r.element k) = some k := by
  have hdiv : (r.element k - r.offset) / r.stride = k := by
    rw [element, Int.add_comm, Int.add_sub_cancel]
    exact Int.mul_ediv_cancel k hstride
  rw [locate, hdiv]
  exact if_pos ⟨rfl, hk⟩

theorem locate_eq_some (h : r.locate i = some k) : r.element k = i ∧ 0 ≤ k ∧ k < r.size := by
  rw [locate] at h
  split at h
  · next hcond =>
    obtain rfl := Option.some.inj h
    exact hcond
  · cases h

end Range

/-! ## Tensors -/

/-- The index is in a tensor of this shape. -/
def Inside (shape : List Nat) (index : Index) : Prop :=
  List.Forall₂ (fun (i : Int) (n : Nat) => 0 ≤ i ∧ i < n) index shape

/-- The elements that a slice has at the ranges. -/
def elements (ranges : List Range) (index : Index) : Index :=
  List.zipWith Range.element ranges index

/-- The index in the slice of an element of the tensor. -/
def locate : List Range → Index → Option Index
  | [], [] => some []
  | r :: ranges, i :: index =>
      (r.locate i).bind fun k => (locate ranges index).map (k :: ·)
  | _, _ => none

theorem locate_elements {ranges : List Range} {index : Index} (hstride : ∀ r ∈ ranges, r.stride ≠ 0)
    (h : Inside (ranges.map Range.size) index) : locate ranges (elements ranges index) = some index := by
  induction ranges generalizing index with
  | nil =>
    cases h
    rfl
  | cons r ranges ih =>
    rw [List.forall_mem_cons] at hstride
    cases h with
    | cons hk hindex =>
      show ((r.locate (r.element _)).bind fun k =>
        (locate ranges (elements ranges _)).map (k :: ·)) = _
      rw [Range.locate_element hstride.1 hk, ih hstride.2 hindex]
      rfl

theorem locate_eq_some {ranges : List Range} {index index' : Index}
    (h : locate ranges index = some index') :
    Inside (ranges.map Range.size) index' ∧ elements ranges index' = index := by
  induction ranges generalizing index index' with
  | nil =>
    cases index with
    | nil =>
      obtain rfl := Option.some.inj h
      exact ⟨.nil, rfl⟩
    | cons i index => cases h
  | cons r ranges ih =>
    cases index with
    | nil => cases h
    | cons i index =>
      obtain ⟨k, hk, hrest⟩ := Option.bind_eq_some_iff.mp h
      obtain ⟨rest, hlocate, rfl⟩ := Option.map_eq_some_iff.mp hrest
      obtain ⟨hinside, hrest⟩ := ih hlocate
      obtain ⟨helement, hbounds⟩ := Range.locate_eq_some hk
      refine ⟨.cons hbounds hinside, ?_⟩
      show r.element k :: elements ranges rest = _
      rw [helement, hrest]

structure Tensor (α : Type) where
  shape : List Nat
  get : Index → α

namespace Tensor

variable {α : Type} {s s' t : Tensor α}

/-- The tensors have the same elements. -/
def Same (s t : Tensor α) : Prop :=
  s.shape = t.shape ∧ ∀ index, Inside t.shape index → s.get index = t.get index

theorem Same.refl (t : Tensor α) : t.Same t := ⟨rfl, fun _ _ => rfl⟩

theorem Same.trans (h : s.Same s') (h' : s'.Same t) : s.Same t :=
  ⟨h.1.trans h'.1, fun index hindex => (h.2 index (h'.1 ▸ hindex)).trans (h'.2 index hindex)⟩

/-- The slice of a tensor. -/
def extract (t : Tensor α) (ranges : List Range) : Tensor α where
  shape := ranges.map Range.size
  get := fun index => t.get (elements ranges index)

/-- The tensor with a slice put into it. -/
def insert (t : Tensor α) (ranges : List Range) (slice : Tensor α) : Tensor α where
  shape := t.shape
  get := fun index => (locate ranges index).elim (t.get index) slice.get

/-- Only the elements of the slice matter. -/
theorem Same.insert {ranges : List Range} {slice slice' : Tensor α} (h : slice.Same slice')
    (hshape : slice'.shape = ranges.map Range.size) (t : Tensor α) :
    (t.insert ranges slice).Same (t.insert ranges slice') := by
  refine ⟨rfl, fun index _ => ?_⟩
  show (Structured.locate ranges index).elim _ slice.get =
    (Structured.locate ranges index).elim _ slice'.get
  cases hlocate : Structured.locate ranges index with
  | none => rfl
  | some index' => exact h.2 index' (hshape ▸ (locate_eq_some hlocate).1)

end Tensor

/-! ## Loops -/

/-- What a structured operation does at a point: where it accesses each output, and what it writes
there when it has read what the outputs hold there. -/
structure Kernel (π ι κ α : Type) where
  index : π → ι → κ
  value : π → (ι → α) → ι → α

namespace Kernel

variable {π ι κ κ' α : Type} [DecidableEq κ] [DecidableEq κ']

def step (k : Kernel π ι κ α) (outs : ι → κ → α) (p : π) : ι → κ → α :=
  fun i j =>
    if j = k.index p i then k.value p (fun i => outs i (k.index p i)) i else outs i j

/-- The loops over the points. -/
def run (k : Kernel π ι κ α) (points : List π) (outs : ι → κ → α) : ι → κ → α :=
  points.foldl k.step outs

variable {k : Kernel π ι κ α} {k' : Kernel π ι κ' α} {points : List π} {i : ι}

/-- An element that is not accessed keeps its value. -/
theorem run_unwritten {j : κ} (h : ∀ p ∈ points, k.index p i ≠ j) (outs : ι → κ → α) :
    k.run points outs i j = outs i j := by
  induction points generalizing outs with
  | nil => rfl
  | cons p points ih =>
    rw [List.forall_mem_cons] at h
    show k.run points (k.step outs p) i j = _
    rw [ih h.2, step, if_neg (Ne.symm h.1)]

/-- An output to which what is read is written back keeps its values. -/
theorem run_unchanged (h : ∀ p ∈ points, ∀ args, k.value p args i = args i) (outs : ι → κ → α) :
    k.run points outs i = outs i := by
  induction points generalizing outs with
  | nil => rfl
  | cons p points ih =>
    rw [List.forall_mem_cons] at h
    show k.run points (k.step outs p) i = _
    rw [ih h.2]
    funext j
    rw [step]
    split
    · next heq => rw [h.1, heq]
    · rfl

/-- Loops that only see parts of the outputs: what they make of the parts is what is made of the
whole. -/
theorem run_embedded (k : Kernel π ι κ α) (k' : Kernel π ι κ' α)
    (embed : ι → κ' → κ) (part : ι → κ' → Prop)
    (hinj : ∀ i j j', part i j → part i j' → embed i j = embed i j' → j = j')
    (hindex : ∀ p ∈ points, ∀ i, part i (k'.index p i) ∧ embed i (k'.index p i) = k.index p i)
    (hvalue : ∀ p ∈ points, ∀ args, k'.value p args = k.value p args)
    (outs : ι → κ → α) (outs' : ι → κ' → α)
    (houts : ∀ i j, part i j → outs' i j = outs i (embed i j)) :
    ∀ i j, part i j → k'.run points outs' i j = k.run points outs i (embed i j) := by
  apply List.foldl_rel (f := k'.step) (g := k.step)
    (r := fun outs' outs => ∀ i j, part i j → outs' i j = outs i (embed i j)) houts
  intro p hp outs' outs houts i j hj
  have hargs : (fun i => outs' i (k'.index p i)) = fun i => outs i (k.index p i) := by
    funext i
    rw [houts i _ (hindex p hp i).1, (hindex p hp i).2]
  rw [step, step, hvalue p hp, hargs]
  by_cases heq : j = k'.index p i
  · rw [if_pos heq, if_pos (heq ▸ (hindex p hp i).2)]
  · rw [if_neg heq, houts i j hj, if_neg]
    intro hembed
    rw [← (hindex p hp i).2] at hembed
    exact heq (hinj i j _ hj (hindex p hp i).1 hembed)

/-- Loops over fewer outputs: the others are left as they are. -/
theorem run_dropped {k' : Kernel π ι κ α} (kept : ι → Prop)
    {outs outs' : ι → κ → α} (hindex : ∀ p ∈ points, ∀ i, k'.index p i = k.index p i)
    (hdropped : ∀ i, ¬ kept i → ∀ p ∈ points, ∀ args, k.value p args i = args i)
    (hvalue : ∀ p ∈ points, ∀ args args', (∀ i, kept i → args' i = args i) →
      (∀ i, ¬ kept i → args i = outs i (k.index p i)) →
      ∀ i, kept i → k'.value p args' i = k.value p args i)
    (houts : ∀ i, kept i → outs' i = outs i) :
    ∀ i, kept i → k'.run points outs' i = k.run points outs i := by
  have hrun : (∀ i, kept i → points.foldl k'.step outs' i = points.foldl k.step outs i) ∧
      ∀ i, ¬ kept i → points.foldl k.step outs i = outs i := by
    apply List.foldl_rel (f := k'.step) (g := k.step)
      (r := fun now' now => (∀ i, kept i → now' i = now i) ∧ ∀ i, ¬ kept i → now i = outs i)
      ⟨houts, fun _ _ => rfl⟩
    rintro p hp now' now ⟨hkept, hothers⟩
    constructor
    · intro i hi
      funext j
      have hargs := hvalue p hp (fun i => now i (k.index p i)) (fun i => now' i (k'.index p i))
        (fun i hi => by rw [hindex p hp i, hkept i hi]) (fun i hi => by rw [hothers i hi]) i hi
      rw [step, step, hargs, hindex p hp i, hkept i hi]
    · intro i hi
      funext j
      rw [step, hdropped i hi p hp, hothers i hi]
      split
      · next heq => rw [heq]
      · rfl
  exact hrun.1

end Kernel

end Structured
