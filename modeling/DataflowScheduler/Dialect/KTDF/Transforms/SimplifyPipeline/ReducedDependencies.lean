import DataflowScheduler.Dialect.KTDF.Transforms.SimplifyPipeline.RewrittenTokens

/-!
# Reduced dependencies

`reduceDependencies` keeps the edges of the transitive reduction over the strongly connected components,
and does nothing the second time. The numbers of the components are a rank of the edges whatever the
roots were visited in, so the library of components says which numbers imply an edge.
-/

namespace DataflowScheduler

namespace SimplifyPipeline

open Relation (ReflTransGen)

/-- The components that the iterator emits from each stage. -/
def EmitsSccs (p : Pipeline) (sccs : StageId → List (List StageId)) : Prop :=
  ∀ root ∈ p.stages, EmitsComponents (LocalEdge p) root (sccs root)

/-- Every stage with a consumer outputs one local token, which no other stage outputs. -/
def HasOwnTokens (p : Pipeline) : Prop :=
  ∀ a ∈ p.stages, (∃ b, LocalEdge p a b) → ∃ token,
    (p.dependsOut a).filter (isLocalToken p) = [token] ∧
      ∀ b ∈ p.stages, token ∈ p.dependsOut b → b = a

variable {p : Pipeline} {edges : ConsumerEdges} {sccs : StageId → List (List StageId)}

theorem mem_localConsumers (hedges : Enumerates p edges) {a b : StageId} (ha : a ∈ p.stages) :
    b ∈ localConsumers p edges a ↔ LocalEdge p a b := by
  simp only [localConsumers, List.mem_map, List.mem_filter]
  constructor
  · rintro ⟨⟨token, consumer⟩, ⟨hmem, hlocal⟩, rfl⟩
    obtain ⟨hout, hconsumer, hin⟩ := (hedges a ha token consumer hlocal).mp hmem
    exact ⟨ha, hconsumer, token, hlocal, hout, hin⟩
  · rintro ⟨-, hb, token, hlocal, hout, hin⟩
    exact ⟨(token, b), ⟨(hedges a ha token b hlocal).mpr ⟨hout, hb, hin⟩, hlocal⟩, rfl⟩

theorem successors_eq_true (hedges : Enumerates p edges) {i j : Nat} :
    successors p edges sccs i j = true ↔
      i ≠ j ∧ ∃ a b, LocalEdge p a b ∧ sccOf p sccs a = i ∧ sccOf p sccs b = j := by
  simp only [successors, List.any_eq_true, Bool.and_eq_true, beq_iff_eq, bne_iff_ne]
  constructor
  · rintro ⟨a, ha, b, hb, ⟨hi, hj⟩, hne⟩
    exact ⟨hne, a, b, (mem_localConsumers hedges ha).mp hb, hi, hj⟩
  · rintro ⟨hne, a, b, hab, hi, hj⟩
    exact ⟨a, hab.1, b, (mem_localConsumers hedges hab.1).mpr hab, ⟨hi, hj⟩, hne⟩

/-- The numbers of the components rank the edges. -/
theorem numbersEdges (hedges : Enumerates p edges) (hsccs : EmitsSccs p sccs) :
    NumbersEdges (LocalEdge p) (sccOf p sccs) (· ∈ p.stages)
      fun i j => successors p edges sccs i j := by
  obtain ⟨hnumbers, hnumbered⟩ := ComponentNumbers.valid_ofRoots hsccs
  have hrank : ComponentRank (LocalEdge p) (sccOf p sccs) :=
    ComponentRank.of_valid hnumbers fun a _ hab => hnumbered a hab.1
  refine { hrank with isNode := ?_, component := ?_, successors_iff := ?_ }
  · exact fun a b hab => ⟨hab.1, hab.2.1⟩
  · intro a b ha hb heq
    obtain ⟨i, hi⟩ := Option.isSome_iff_exists.mp (hnumbered a ha)
    obtain ⟨j, hj⟩ := Option.isSome_iff_exists.mp (hnumbered b hb)
    rw [sccOf, sccOf, hi, hj, Option.getD_some, Option.getD_some] at heq
    subst heq
    exact (hnumbers.same a b i hi).mp hj
  · exact fun i j => successors_eq_true hedges

/-- An edge is dropped exactly if a path through a third component implies it. -/
theorem keep_eq_true (hedges : Enumerates p edges) (hsccs : EmitsSccs p sccs) {a b : StageId}
    (hab : LocalEdge p a b) :
    (sccOf p sccs a == sccOf p sccs b ||
      !(NumberReachability.compute (ComponentNumbers.ofRoots sccs p.stages).count
        (successors p edges sccs)).implied (sccOf p sccs a) (sccOf p sccs b)) = true ↔
      SameComponent (LocalEdge p) a b ∨ ¬ImpliedEdge (LocalEdge p) a b := by
  have hnumbers := numbersEdges hedges hsccs
  have hlt : sccOf p sccs a < (ComponentNumbers.ofRoots sccs p.stages).count := by
    obtain ⟨hvalid, hnumbered⟩ := ComponentNumbers.valid_ofRoots hsccs
    obtain ⟨i, hi⟩ := Option.isSome_iff_exists.mp (hnumbered a hab.1)
    rw [sccOf, hi]
    exact hvalid.lt_count a i hi
  have hclosure : NumberReachability.RightBelow _ (ComponentNumbers.ofRoots sccs p.stages).count _ :=
    NumberReachability.rightBelow_compute fun _ _ h => hnumbers.lt h
  rw [Bool.or_eq_true, beq_iff_eq, Bool.not_eq_true', ← Bool.not_eq_true,
    hclosure.implied _ hlt, hnumbers.implied_iff hab.1 hab.2.1, hnumbers.eq_iff (.single hab)]

theorem localEdge_reduceDependencies (hvalid : p.Valid) (hedges : Enumerates p edges)
    (hsccs : EmitsSccs p sccs) {a b : StageId} :
    LocalEdge (reduceDependencies p edges sccs).1 a b ↔ KeptEdge (LocalEdge p) a b := by
  rw [reduceDependencies, localEdge_rewriteTokens hvalid hedges]
  exact and_congr_right fun hab => keep_eq_true hedges hsccs hab

/-- Reduced dependencies stay. -/
theorem reduceDependencies_of_kept (hvalid : p.Valid) (hnormal : p.Normal)
    (hedges : Enumerates p edges) (hsccs : EmitsSccs p sccs)
    (hkept : ∀ a b, LocalEdge p a b → KeptEdge (LocalEdge p) a b) :
    reduceDependencies p edges sccs = (p, false) := by
  apply rewriteTokens_of_normal hvalid hedges hnormal
  intro a b hab
  exact (keep_eq_true hedges hsccs hab).mpr (hkept a b hab).2

theorem Pipeline.Normal.hasOwnTokens (h : p.Normal) : HasOwnTokens p := by
  rintro a ha ⟨b, -, -, token, hlocal, hout, -⟩
  refine ⟨token, ?_, fun c hc hmem => h.unique c hc a ha token hlocal hmem hout⟩
  apply List.eq_singleton_of_nodup
  · exact (h.nodup a ha).2.filter _
  · exact List.mem_filter.mpr ⟨hout, hlocal⟩
  · intro other hother
    rw [List.mem_filter] at hother
    exact h.single a ha other hother.1 token hout hother.2 hlocal

/-- **`reduceDependencies` is the transitive reduction** over the components, and `normalizeTokens` keeps
all edges. Tokens with other users stay where they are, after both every stage with a consumer has one
token of its own, and reducing again changes nothing. -/
theorem reduceDependencies_reduces (hvalid : p.Valid) (hedges : Enumerates p edges)
    (hsccs : EmitsSccs p sccs) :
    ((∀ a b, LocalEdge (reduceDependencies p edges sccs).1 a b ↔ KeptEdge (LocalEdge p) a b) ∧
      SameForeignTokens p (reduceDependencies p edges sccs).1 ∧
      HasOwnTokens (reduceDependencies p edges sccs).1 ∧
      ∀ edges' sccs', Enumerates (reduceDependencies p edges sccs).1 edges' →
        EmitsSccs (reduceDependencies p edges sccs).1 sccs' →
        reduceDependencies (reduceDependencies p edges sccs).1 edges' sccs' =
          ((reduceDependencies p edges sccs).1, false)) ∧
    (∀ a b, LocalEdge (normalizeTokens p edges).1 a b ↔ LocalEdge p a b) ∧
      SameForeignTokens p (normalizeTokens p edges).1 ∧ HasOwnTokens (normalizeTokens p edges).1 := by
  have hlocal : ∀ a b, LocalEdge (reduceDependencies p edges sccs).1 a b ↔ KeptEdge (LocalEdge p) a b :=
    fun a b => localEdge_reduceDependencies hvalid hedges hsccs
  have hnormal : (reduceDependencies p edges sccs).1.Normal := normal_rewriteTokens hvalid hedges
  have hvalid' : (reduceDependencies p edges sccs).1.Valid := valid_rewriteTokens hvalid hedges
  refine ⟨⟨hlocal, sameForeignTokens_rewriteTokens hvalid hedges, hnormal.hasOwnTokens, ?_⟩, ?_,
    sameForeignTokens_rewriteTokens hvalid hedges,
    (normal_rewriteTokens hvalid hedges).hasOwnTokens⟩
  · intro edges' sccs' hedges' hsccs'
    apply reduceDependencies_of_kept hvalid' hnormal hedges' hsccs'
    intro a b hab
    -- the edges that are left are those of the reduction of the reduction
    have hrank := (numbersEdges hedges hsccs).toComponentRank
    have hsame : LocalEdge (reduceDependencies p edges sccs).1 = KeptEdge (LocalEdge p) :=
      funext fun a => funext fun b => propext (hlocal a b)
    rw [hsame] at hab ⊢
    exact hrank.keptEdge_keptEdge.mpr hab
  · intro a b
    rw [normalizeTokens, localEdge_rewriteTokens hvalid hedges, and_iff_left rfl]

/-- Stage 0 is a producer of stages 1 and 2 with one token, stage 1 one of stage 2, and token 2 is used by
a stage of another pipeline too. -/
def chainedPipeline : Pipeline where
  stages := [0, 1, 2]
  dependsIn := fun stage => if stage = 1 then [0] else if stage = 2 then [0, 1, 2, 0] else []
  dependsOut := fun stage => if stage = 0 then [0, 2] else if stage = 1 then [1] else []
  usedElsewhere := fun token => token == 2
  nextToken := 3

def chainedEdges : ConsumerEdges := fun stage =>
  if stage = 0 then [(0, 1), (0, 2), (2, 2)] else if stage = 1 then [(1, 2)] else []

def chainedSccs : StageId → List (List StageId) := fun stage =>
  if stage = 0 then [[2], [1], [0]] else if stage = 1 then [[2], [1]] else [[2]]

example : ((reduceDependencies chainedPipeline chainedEdges chainedSccs).1.dependsIn 2,
    (reduceDependencies chainedPipeline chainedEdges chainedSccs).1.dependsOut 0) =
      ([1, 2], [0, 2]) := by decide

theorem chainedPipeline_enumerates : Enumerates chainedPipeline chainedEdges := by
  intro stage hstage token consumer _
  have hforward : ∀ stage ∈ chainedPipeline.stages, ∀ edge ∈ chainedEdges stage,
      edge.1 ∈ chainedPipeline.dependsOut stage ∧ edge.2 ∈ chainedPipeline.stages ∧
        edge.1 ∈ chainedPipeline.dependsIn edge.2 := by decide
  have hbackward : ∀ stage ∈ chainedPipeline.stages, ∀ token ∈ chainedPipeline.dependsOut stage,
      ∀ consumer ∈ chainedPipeline.stages, token ∈ chainedPipeline.dependsIn consumer →
        (token, consumer) ∈ chainedEdges stage := by decide
  constructor
  · exact hforward stage hstage (token, consumer)
  · rintro ⟨hout, hconsumer, hin⟩
    exact hbackward stage hstage token hout consumer hconsumer hin

theorem chainedPipeline_valid : chainedPipeline.Valid := by
  refine ⟨by decide, by decide, fun token hused => ?_⟩
  rw [beq_iff_eq.mp hused]
  decide

theorem chainedPipeline_emitsSccs : EmitsSccs chainedPipeline chainedSccs := by
  have hedge : ∀ a b, LocalEdge chainedPipeline a b → a < b ∧ b < 3 := by
    rintro a b ⟨ha, hb, token, -, hout, hin⟩
    have hlt : ∀ a ∈ chainedPipeline.stages, ∀ b ∈ chainedPipeline.stages,
        ∀ token ∈ chainedPipeline.dependsOut a, token ∈ chainedPipeline.dependsIn b →
          a < b ∧ b < 3 := by decide
    exact hlt a ha b hb token hout hin
  have h01 : LocalEdge chainedPipeline 0 1 := ⟨by decide, by decide, 0, by decide⟩
  have h12 : LocalEdge chainedPipeline 1 2 := ⟨by decide, by decide, 1, by decide⟩
  -- every list of components is one that goes down
  have hdown : ∀ l : List StageId, l.Nodup →
      (∀ a ∈ l, ∀ b < 3, a < b → b ∈ l.takeWhile (· != a)) →
      ∀ root ∈ l, (∀ a ∈ l, ReflTransGen (LocalEdge chainedPipeline) root a) →
        EmitsComponents (LocalEdge chainedPipeline) root (l.map fun a => [a]) := by
    intro l hnodup hfirst root hroot hreach
    refine EmitsComponents.of_takeWhile hnodup (fun a ha b hab => ?_) hroot hreach
    exact hfirst a ha b (hedge a b hab).2 (hedge a b hab).1
  intro root hroot
  simp only [chainedPipeline, List.mem_cons, List.not_mem_nil, or_false] at hroot
  rcases hroot with rfl | rfl | rfl
  · refine hdown [2, 1, 0] (by decide) (by decide) 0 (by decide) fun a ha => ?_
    simp only [List.mem_cons, List.not_mem_nil, or_false] at ha
    rcases ha with rfl | rfl | rfl
    · exact (ReflTransGen.single h01).tail h12
    · exact .single h01
    · exact .refl
  · refine hdown [2, 1] (by decide) (by decide) 1 (by decide) fun a ha => ?_
    simp only [List.mem_cons, List.not_mem_nil, or_false] at ha
    rcases ha with rfl | rfl
    · exact .single h12
    · exact .refl
  · refine hdown [2] (by decide) (by decide) 2 (by decide) fun a ha => ?_
    rw [List.mem_singleton.mp ha]

theorem chainedPipeline_reduced :
    (∀ a b, LocalEdge (reduceDependencies chainedPipeline chainedEdges chainedSccs).1 a b ↔
      KeptEdge (LocalEdge chainedPipeline) a b) ∧
    HasOwnTokens (reduceDependencies chainedPipeline chainedEdges chainedSccs).1 := by
  have hreduced := (reduceDependencies_reduces chainedPipeline_valid chainedPipeline_enumerates
    chainedPipeline_emitsSccs).1
  exact ⟨hreduced.1, hreduced.2.2.1⟩

end SimplifyPipeline

end DataflowScheduler
