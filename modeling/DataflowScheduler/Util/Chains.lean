import DataflowScheduler.Util.TopologicalOrder
import Mathlib.Data.List.Chain
import Mathlib.Data.Nat.ModEq

/-!
# Chains cut into blocks

Each element has at most one next one. A sweep over all elements that takes up an element unless an
earlier one covers it, and covers the `k` elements from there on, takes up the elements at a depth
divisible by `k`.
-/

namespace Chains

variable {α κ : Type} {next : α → Option α}

/-- The element that stands `n` steps behind. -/
def stepsTo (next : α → Option α) : Nat → α → Option α
  | 0, a => some a
  | n + 1, a => (next a).bind (stepsTo next n)

/-- The first `n` elements from one on. -/
def chain (next : α → Option α) : Nat → α → List α
  | 0, _ => []
  | n + 1, a => a :: ((next a).map (chain next n)).getD []

theorem chain_succ_of_none {a : α} (h : next a = none) (n : Nat) : chain next (n + 1) a = [a] := by
  rw [chain, h]
  rfl

theorem chain_succ_of_some {a b : α} (h : next a = some b) (n : Nat) :
    chain next (n + 1) a = a :: chain next n b := by
  rw [chain, h]
  rfl

theorem length_chain_le (n : Nat) (a : α) : (chain next n a).length ≤ n := by
  induction n generalizing a with
  | zero => exact Nat.le_refl 0
  | succ n ih =>
      cases h : next a with
      | none =>
          rw [chain_succ_of_none h, List.length_singleton]
          omega
      | some b =>
          rw [chain_succ_of_some h, List.length_cons]
          have := ih b
          omega

theorem getElem?_chain {n i : Nat} (hi : i < n) (a : α) :
    (chain next n a)[i]? = stepsTo next i a := by
  induction n generalizing i a with
  | zero => cases hi
  | succ n ih =>
      cases i with
      | zero => rw [chain, List.getElem?_cons_zero, stepsTo]
      | succ i =>
          cases h : next a with
          | none =>
              rw [chain_succ_of_none h, stepsTo, h]
              rfl
          | some b =>
              rw [chain_succ_of_some h, stepsTo, h, List.getElem?_cons_succ, ih (by omega)]
              rfl

theorem mem_chain {n : Nat} {a x : α} :
    x ∈ chain next n a ↔ ∃ i < n, stepsTo next i a = some x := by
  rw [List.mem_iff_getElem?]
  constructor
  · intro h
    obtain ⟨i, hget⟩ := h
    have hi : i < n := by
      have := (List.getElem?_eq_some_iff.mp hget).1
      have := @length_chain_le _ next n a
      omega
    exact ⟨i, hi, (getElem?_chain hi a).symm.trans hget⟩
  · intro h
    obtain ⟨i, hi, hsteps⟩ := h
    exact ⟨i, (getElem?_chain hi a).trans hsteps⟩

theorem stepsTo_add (m n : Nat) (a : α) :
    stepsTo next (m + n) a = (stepsTo next m a).bind (stepsTo next n) := by
  induction m generalizing a with
  | zero => simp [stepsTo]
  | succ m ih =>
      rw [Nat.succ_add, stepsTo, stepsTo, Option.bind_assoc]
      congr 1
      funext b
      exact ih b

theorem stepsTo_succ (n : Nat) (a : α) :
    stepsTo next (n + 1) a = (stepsTo next n a).bind next := by
  rw [stepsTo_add]
  congr 1
  funext b
  rw [stepsTo]
  cases next b <;> rfl

theorem isChain_chain (n : Nat) (a : α) :
    (chain next n a).IsChain fun x y => next x = some y := by
  induction n generalizing a with
  | zero => exact List.IsChain.nil
  | succ n ih =>
      cases h : next a with
      | none =>
          rw [chain_succ_of_none h]
          exact List.IsChain.singleton a
      | some b =>
          rw [chain_succ_of_some h]
          have hb := ih b
          cases n with
          | zero => exact List.IsChain.singleton a
          | succ n =>
              rw [chain] at hb ⊢
              exact List.isChain_cons_cons.mpr ⟨h, hb⟩

theorem isChain_of_infix_chain {part : List α} {n : Nat} {a : α} (h : part <:+: chain next n a) :
    part.IsChain fun x y => next x = some y := by
  obtain ⟨before, after, heq⟩ := h
  have hchain : (chain next n a).IsChain _ := isChain_chain n a
  rw [← heq] at hchain
  exact hchain.left_of_append.right_of_append

/-! ## All chains of a list -/

/-- The list has all elements of its chains, an element behind the ones it is next to, and each has
a depth in its chain. -/
structure Ranked (next : α → Option α) (l : List α) (depth : α → Nat) : Prop where
  nodup : l.Nodup
  mem_next : ∀ a ∈ l, ∀ b, next a = some b → b ∈ l
  inj : ∀ a b c, next a = some c → next b = some c → a = b
  predecessorsFirst : PredecessorsFirst (fun a b => next a = some b) l
  depth_next : ∀ a b, next a = some b → depth b = depth a + 1
  exists_prev : ∀ b ∈ l, depth b ≠ 0 → ∃ a, next a = some b

namespace Ranked

variable {l : List α} {depth : α → Nat} {k : Nat} {a b : α}

theorem depth_stepsTo (h : Ranked next l depth) {n : Nat} (hab : stepsTo next n a = some b) :
    depth b = depth a + n := by
  induction n generalizing a with
  | zero =>
      cases hab
      rfl
  | succ n ih =>
      obtain ⟨c, hac, hcb⟩ := Option.bind_eq_some_iff.mp hab
      rw [ih hcb, h.depth_next a c hac]
      omega

theorem mem_stepsTo (h : Ranked next l depth) {n : Nat} (ha : a ∈ l)
    (hab : stepsTo next n a = some b) : b ∈ l := by
  induction n generalizing a with
  | zero =>
      cases hab
      exact ha
  | succ n ih =>
      obtain ⟨c, hac, hcb⟩ := Option.bind_eq_some_iff.mp hab
      exact ih (h.mem_next a ha c hac) hcb

theorem stepsTo_inj (h : Ranked next l depth) {n : Nat} {c : α}
    (hac : stepsTo next n a = some c) (hbc : stepsTo next n b = some c) : a = b := by
  induction n generalizing c with
  | zero =>
      cases hac
      cases hbc
      rfl
  | succ n ih =>
      rw [stepsTo_succ] at hac hbc
      obtain ⟨x, hax, hxc⟩ := Option.bind_eq_some_iff.mp hac
      obtain ⟨y, hby, hyc⟩ := Option.bind_eq_some_iff.mp hbc
      obtain rfl := h.inj x y c hxc hyc
      exact ih hax hby

/-- What is next to an element comes behind it. -/
theorem mem_of_next (h : Ranked next l depth) (hb : b ∈ l) (hab : next a = some b) : a ∈ l := by
  obtain ⟨first, rest, hl⟩ := List.append_of_mem hb
  rw [hl]
  exact List.mem_append_left _ (h.predecessorsFirst first b rest hl a hab)

/-- Going back along a chain, as far as it reaches. -/
theorem exists_stepsTo (h : Ranked next l depth) {n : Nat} (hb : b ∈ l) (hn : n ≤ depth b) :
    ∃ a ∈ l, stepsTo next n a = some b := by
  induction n generalizing b with
  | zero => exact ⟨b, hb, rfl⟩
  | succ n ih =>
      obtain ⟨c, hcb⟩ := h.exists_prev b hb (by omega)
      have hc := h.mem_of_next hb hcb
      have hdepth := h.depth_next c b hcb
      obtain ⟨a, ha, hac⟩ := ih hc (by omega)
      refine ⟨a, ha, ?_⟩
      rw [stepsTo_succ, hac]
      exact hcb

/-- A block that an element is in starts at a depth divisible by the size of blocks. -/
theorem mem_chain_iff (h : Ranked next l depth) (hk : depth a % k = 0) :
    b ∈ chain next k a ↔ 0 < k ∧ stepsTo next (depth b % k) a = some b := by
  rw [mem_chain]
  constructor
  · intro hmem
    obtain ⟨i, hi, hab⟩ := hmem
    refine ⟨by omega, ?_⟩
    rw [h.depth_stepsTo hab, Nat.add_mod, hk, Nat.zero_add, Nat.mod_mod, Nat.mod_eq_of_lt hi]
    exact hab
  · intro hmem
    exact ⟨_, Nat.mod_lt _ hmem.1, hmem.2⟩

/-- **Each element is in exactly one block.** -/
theorem existsUnique_mem_chain (h : Ranked next l depth) (hk : 0 < k) (hb : b ∈ l) :
    ∃! a, (a ∈ l ∧ depth a % k = 0) ∧ b ∈ chain next k a := by
  obtain ⟨a, ha, hab⟩ := h.exists_stepsTo hb (Nat.mod_le (depth b) k)
  have hdepth := h.depth_stepsTo hab
  have hstart : depth a % k = 0 := by
    have : (depth a + depth b % k) % k = (0 + depth b % k) % k := by
      rw [← hdepth, Nat.zero_add, Nat.mod_mod]
    exact Nat.ModEq.add_right_cancel' _ this
  refine ⟨a, ⟨⟨ha, hstart⟩, (h.mem_chain_iff hstart).mpr ⟨hk, hab⟩⟩, fun a' ha' => ?_⟩
  exact h.stepsTo_inj ((h.mem_chain_iff ha'.1.2).mp ha'.2).2 hab

/-- An element is covered from in front of it exactly if no block starts at it. -/
theorem covered_iff (h : Ranked next l depth) (hk : 0 < k) {first rest : List α}
    (hl : l = first ++ b :: rest) :
    (∃ a ∈ first, depth a % k = 0 ∧ b ∈ chain next k a) ↔ depth b % k ≠ 0 := by
  have hb : b ∈ l := by rw [hl]; simp
  constructor
  · intro hcovered hstart
    obtain ⟨a, ha, hak, hmem⟩ := hcovered
    obtain ⟨-, hab⟩ := (h.mem_chain_iff hak).mp hmem
    rw [hstart] at hab
    cases hab
    have hnd := hl ▸ h.nodup
    exact (List.nodup_append.mp hnd).2.2 _ ha _ List.mem_cons_self rfl
  · intro hinside
    obtain ⟨a, ⟨⟨ha, hak⟩, hmem⟩, -⟩ := h.existsUnique_mem_chain hk hb
    refine ⟨a, ?_, hak, hmem⟩
    obtain ⟨-, hab⟩ := (h.mem_chain_iff hak).mp hmem
    -- every element on the way is in front of the next one
    have hfirst : ∀ (n : Nat) (c : α), stepsTo next n a = some c → 0 < n →
        ∀ first rest, l = first ++ c :: rest → a ∈ first := by
      intro n
      induction n with
      | zero => exact fun _ _ hpos => absurd hpos (Nat.lt_irrefl 0)
      | succ n ih =>
          intro c hac _ first rest hl
          rw [stepsTo_succ] at hac
          obtain ⟨x, hax, hxc⟩ := Option.bind_eq_some_iff.mp hac
          have hx := h.predecessorsFirst first c rest hl x hxc
          cases n with
          | zero =>
              cases hax
              exact hx
          | succ n =>
              obtain ⟨before, after, hsplit⟩ := List.append_of_mem hx
              rw [hsplit, List.append_assoc] at hl
              have := ih x hax (Nat.succ_pos n) before _ hl
              rw [hsplit]
              exact List.mem_append_left _ this
    exact hfirst _ b hab (Nat.pos_of_ne_zero hinside) first rest hl

/-- The elements of a chain have different depths. -/
theorem nodup_chain (h : Ranked next l depth) (k : Nat) (a : α) : (chain next k a).Nodup := by
  apply List.nodup_iff_getElem?_ne_getElem?.mpr
  intro i j hij hj heq
  have hlen := @length_chain_le _ next k a
  rw [getElem?_chain (by omega), getElem?_chain (by omega)] at heq
  have hget := List.getElem?_eq_getElem hj
  rw [getElem?_chain (by omega)] at hget
  rw [hget] at heq
  have := h.depth_stepsTo hget
  have := h.depth_stepsTo heq
  omega

theorem mem_of_mem_chain (h : Ranked next l depth) (ha : a ∈ l) (hb : b ∈ chain next k a) :
    b ∈ l := by
  obtain ⟨i, -, hab⟩ := mem_chain.mp hb
  exact h.mem_stepsTo ha hab

/-- The blocks have all elements, once each. -/
theorem flatMap_chain_perm (h : Ranked next l depth) (hk : 0 < k) :
    ((l.filter fun a => depth a % k = 0).flatMap (chain next k)).Perm l := by
  have hmem : ∀ a ∈ l.filter (fun a => depth a % k = 0), a ∈ l ∧ depth a % k = 0 := by
    intro a ha
    obtain ⟨ha, hak⟩ := List.mem_filter.mp ha
    exact ⟨ha, of_decide_eq_true hak⟩
  apply (List.perm_ext_iff_of_nodup _ h.nodup).mpr
  · intro b
    rw [List.mem_flatMap]
    constructor
    · intro hb
      obtain ⟨a, ha, hmemb⟩ := hb
      exact h.mem_of_mem_chain (hmem a ha).1 hmemb
    · intro hb
      obtain ⟨a, ⟨⟨ha, hak⟩, hmemb⟩, -⟩ := h.existsUnique_mem_chain hk hb
      exact ⟨a, List.mem_filter.mpr ⟨ha, decide_eq_true hak⟩, hmemb⟩
  · rw [List.nodup_flatMap]
    constructor
    · exact fun a _ => h.nodup_chain k a
    · apply (h.nodup.filter _).imp_of_mem
      intro a a' ha ha' hne b hb hb'
      have hbl := h.mem_of_mem_chain (hmem a ha).1 hb
      exact hne ((h.existsUnique_mem_chain hk hbl).unique ⟨hmem a ha, hb⟩ ⟨hmem a' ha', hb'⟩)

/-- Neighbours in all blocks are related exactly if all neighbours are between which no block
starts. -/
theorem forall_isChain_iff (h : Ranked next l depth) (hk : 0 < k) {r : α → α → Prop} :
    (∀ a ∈ l.filter (fun a => depth a % k = 0), (chain next k a).IsChain r) ↔
      ∀ x ∈ l, ∀ y, next x = some y → depth y % k ≠ 0 → r x y := by
  constructor
  · intro hall x hx y hxy hinside
    have hy := h.mem_next x hx y hxy
    obtain ⟨a, ⟨⟨ha, hak⟩, hmem⟩, -⟩ := h.existsUnique_mem_chain hk hy
    obtain ⟨-, hay⟩ := (h.mem_chain_iff hak).mp hmem
    obtain ⟨n, hn⟩ : ∃ n, depth y % k = n + 1 := ⟨depth y % k - 1, by omega⟩
    have hlt : n + 1 < k := hn ▸ Nat.mod_lt _ hk
    rw [hn] at hay
    have hax : stepsTo next n a = some x := by
      have hay' := hay
      rw [stepsTo_succ] at hay'
      obtain ⟨z, haz, hzy⟩ := Option.bind_eq_some_iff.mp hay'
      exact haz.trans (congrArg some (h.inj z x y hzy hxy))
    have hchain := List.isChain_iff_getElem.mp
      (hall a (List.mem_filter.mpr ⟨ha, decide_eq_true hak⟩))
    rw [← getElem?_chain hlt a] at hay
    rw [← getElem?_chain (by omega : n < k) a] at hax
    obtain ⟨hy', hyeq⟩ := List.getElem?_eq_some_iff.mp hay
    obtain ⟨hx', hxeq⟩ := List.getElem?_eq_some_iff.mp hax
    rw [← hxeq, ← hyeq]
    exact hchain n hy'
  · intro hall a ha
    obtain ⟨ha, hak⟩ := List.mem_filter.mp ha
    have hak := of_decide_eq_true hak
    apply List.isChain_iff_getElem.mpr
    intro i hi
    have hlen := @length_chain_le _ next k a
    have hx : stepsTo next i a = some (chain next k a)[i] :=
      (getElem?_chain (by omega : i < k) a).symm.trans (List.getElem?_eq_getElem _)
    have hy : stepsTo next (i + 1) a = some (chain next k a)[i + 1] :=
      (getElem?_chain (by omega : i + 1 < k) a).symm.trans (List.getElem?_eq_getElem _)
    have hxy : next (chain next k a)[i] = some (chain next k a)[i + 1] := by
      rw [stepsTo_succ, hx] at hy
      exact hy
    apply hall _ (h.mem_stepsTo ha hx) _ hxy
    rw [h.depth_stepsTo hy, Nat.add_mod, hak, Nat.zero_add, Nat.mod_mod, Nat.mod_eq_of_lt (by omega)]
    omega

end Ranked

end Chains
