import DataflowScheduler.Dialect.KTDF.Transforms.StageCoarsening.Dependencies
import DataflowScheduler.Transforms.Utils.LegalizedTrees

/-!
# The tree that is handed to the correction

Distributing, sinking and legalizing move the nodes of the tree. Apart from the loops of the nest they
are still there, and stages keep their dependencies. So the correction starts from the dependencies of
the pipelines that were read in.
-/

namespace StageCoarsening

open PipelineTreeLegalizer

variable {α : Type} {f : NodeInfo → Option α} {tree cs : List Tree} {t : Tree}

/-! ## Moving nodes -/

theorem attributes_cons : attributes f (t :: cs) = attributes f [t] ++ attributes f cs :=
  @attributes_append [t] cs α f

theorem unlinkList_perm_of {op : OpId} {s : Tree} {rest : List Tree}
    (hcs : ∀ c ∈ cs, ∀ (s : Tree) (rest : List Tree), unlink op c = some (s, rest) →
      (attributes f (s :: rest)).Perm (attributes f [c]))
    (h : unlinkList op cs = some (s, rest)) : (attributes f (s :: rest)).Perm (attributes f cs) := by
  induction cs generalizing rest with
  | nil => cases h
  | cons c cs ih =>
    rw [List.forall_mem_cons] at hcs
    rw [unlinkList] at h
    rw [@attributes_cons α f cs c]
    cases hc : unlink op c with
    | some r =>
      simp only [hc, Option.some.injEq, Prod.mk.injEq] at h
      obtain ⟨rfl, rfl⟩ := h
      rw [← List.cons_append, attributes_append]
      exact (hcs.1 _ _ hc).append_right _
    | none =>
      simp only [hc, Option.map_eq_some_iff, Prod.mk.injEq] at h
      obtain ⟨r, hr, rfl, rfl⟩ := h
      have hrest := ih hcs.2 hr
      rw [attributes_cons] at hrest ⊢
      rw [@attributes_cons α f r.2 c, ← List.append_assoc]
      apply (List.perm_append_comm.append_right _).trans
      rw [List.append_assoc]
      exact hrest.append_left _

/-- A node that is taken out, and what is left. -/
theorem unlink_perm {op : OpId} {s : Tree} {rest : List Tree} (h : unlink op t = some (s, rest)) :
    (attributes f (s :: rest)).Perm (attributes f [t]) := by
  induction t using Rose.induction generalizing s rest with
  | step i cs ih =>
    rw [unlink] at h
    split at h
    · simp only [Option.some.injEq, Prod.mk.injEq] at h
      obtain ⟨rfl, rfl⟩ := h
      exact List.Perm.refl _
    · simp only [Option.map_eq_some_iff, Prod.mk.injEq] at h
      obtain ⟨r, hr, rfl, rfl⟩ := h
      have hrest := unlinkList_perm_of (fun c hc s rest => ih c hc) hr
      rw [attributes_cons] at hrest ⊢
      rw [attributes_node, attributes_node, ← List.append_assoc]
      apply (List.perm_append_comm.append_right _).trans
      rw [List.append_assoc]
      exact hrest.append_left _

theorem unlinkList_perm {op : OpId} {s : Tree} {rest : List Tree}
    (h : unlinkList op cs = some (s, rest)) : (attributes f (s :: rest)).Perm (attributes f cs) :=
  unlinkList_perm_of (fun _ _ _ _ => unlink_perm) h

theorem unlinkNodeList_eq_flatMap (op : OpId) : unlinkNodeList op cs = cs.flatMap (unlinkNode op) := by
  induction cs with
  | nil => rfl
  | cons c cs ih => rw [unlinkNodeList, ih, List.flatMap_cons]

theorem attributes_flatMap (g : Tree → List Tree) :
    attributes f (cs.flatMap g) = cs.flatMap fun c => attributes f (g c) := by
  unfold attributes
  rw [List.flatMap_assoc, List.filterMap_flatMap]

/-- Without a loop, what is read off the other nodes stays. -/
theorem unlinkNode_sublist (op : OpId) :
    (attributes f (unlinkNode op t)).Sublist (attributes f [t]) := by
  induction t using Rose.induction with
  | step i cs ih =>
    rw [unlinkNode]
    split
    · rw [attributes_node]
      exact List.sublist_append_right _ _
    · rw [attributes_node, attributes_node, unlinkNodeList_eq_flatMap, attributes_flatMap,
        @attributes_eq_flatMap cs]
      exact (List.Sublist.flatMap_right cs ih).append_left _

theorem unlinkNodeList_sublist (op : OpId) :
    (attributes f (unlinkNodeList op cs)).Sublist (attributes f cs) := by
  rw [unlinkNodeList_eq_flatMap, attributes_flatMap, @attributes_eq_flatMap cs]
  exact List.Sublist.flatMap_right cs fun _ _ => unlinkNode_sublist op

/-- Nothing that loops do not have is lost. -/
theorem unlinkNode_attributes (hloop : ∀ i : NodeInfo, i.kind = .loop → f i = none) (op : OpId) :
    attributes f (unlinkNode op t) = attributes f [t] := by
  induction t using Rose.induction with
  | step i cs ih =>
    rw [unlinkNode]
    by_cases hi : i.operation = some op ∧ i.kind = .loop
    · rw [if_pos hi, attributes_node, hloop i hi.2]
      rfl
    · rw [if_neg hi, attributes_node, attributes_node, unlinkNodeList_eq_flatMap,
        attributes_flatMap, @attributes_eq_flatMap cs]
      congr 1
      exact List.flatMap_congr ih

theorem unlinkNodeList_attributes (hloop : ∀ i : NodeInfo, i.kind = .loop → f i = none) (op : OpId) :
    attributes f (unlinkNodeList op cs) = attributes f cs := by
  rw [unlinkNodeList_eq_flatMap, attributes_flatMap, @attributes_eq_flatMap cs]
  exact List.flatMap_congr fun c _ => unlinkNode_attributes hloop op

theorem changeChildrenList_eq_map (op : OpId) (g : List Tree → List Tree) :
    changeChildrenList op g cs = cs.map (changeChildren op g) := by
  induction cs with
  | nil => rfl
  | cons c cs ih => rw [changeChildrenList, ih, List.map_cons]

theorem changeChildren_perm {g : List Tree → List Tree}
    (hg : ∀ cs, (attributes f (g cs)).Perm (attributes f cs)) (op : OpId) :
    (attributes f [changeChildren op g t]).Perm (attributes f [t]) := by
  induction t using Rose.induction with
  | step i cs ih =>
    rw [changeChildren]
    split
    · rw [attributes_node, attributes_node]
      exact (hg cs).append_left _
    · rw [attributes_node, attributes_node, changeChildrenList_eq_map, @attributes_eq_flatMap cs,
        attributes_eq_flatMap, List.flatMap_map]
      exact (List.Perm.flatMap_left cs ih).append_left _

theorem changeChildrenList_perm {g : List Tree → List Tree}
    (hg : ∀ cs, (attributes f (g cs)).Perm (attributes f cs)) (op : OpId) :
    (attributes f (changeChildrenList op g cs)).Perm (attributes f cs) := by
  rw [changeChildrenList_eq_map, @attributes_eq_flatMap cs, attributes_eq_flatMap, List.flatMap_map]
  exact List.Perm.flatMap_left cs fun _ _ => changeChildren_perm hg op

/-! ## Distributing and sinking -/

theorem moveStage_perm (state : List Tree × List Tree) (stage : OpId) :
    (attributes f ((moveStage state stage).1 ++ (moveStage state stage).2)).Perm
      (attributes f (state.1 ++ state.2)) := by
  unfold moveStage
  cases hunlink : unlinkList stage state.1 with
  | none => exact List.Perm.refl _
  | some r =>
    obtain ⟨node, children⟩ := r
    have hperm := @unlinkList_perm α f _ _ _ _ hunlink
    rw [attributes_cons] at hperm
    simp only [attributes_append]
    rw [← List.append_assoc]
    apply List.perm_append_comm.trans
    rw [← List.append_assoc]
    exact hperm.append_right _

theorem moveStages_perm (stages : List OpId) (state : List Tree × List Tree) :
    (attributes f ((stages.foldl moveStage state).1 ++ (stages.foldl moveStage state).2)).Perm
      (attributes f (state.1 ++ state.2)) := by
  induction stages generalizing state with
  | nil => exact List.Perm.refl _
  | cons stage stages ih => exact (ih _).trans (moveStage_perm state stage)

/-- New loops have nothing that created nodes do not have. -/
theorem attributes_newLoopNest (hf : ForCreated f) (loopNest : List OpId) (body : List Tree) :
    attributes f (newLoopNest loopNest body) = attributes f body := by
  unfold newLoopNest
  induction loopNest with
  | nil => rfl
  | cons op loopNest ih =>
    rw [List.foldr_cons, attributes_node, ih, hf _ ⟨rfl, rfl⟩]
    rfl

theorem distributeGroup_perm (hf : ForCreated f) (loopNest stages : List OpId) :
    (attributes f (distributeGroup loopNest cs stages)).Perm (attributes f cs) := by
  unfold distributeGroup
  split
  · exact List.Perm.refl _
  · rw [attributes_append, attributes_newLoopNest hf, ← attributes_append]
    have hperm := @moveStages_perm α f stages (cs, [])
    rwa [List.append_nil] at hperm

theorem foldl_perm {g : List Tree → List OpId → List Tree}
    (hg : ∀ cs stages, (attributes f (g cs stages)).Perm (attributes f cs))
    (groups : List (List OpId)) (cs : List Tree) :
    (attributes f (groups.foldl g cs)).Perm (attributes f cs) := by
  induction groups generalizing cs with
  | nil => exact List.Perm.refl _
  | cons stages groups ih => exact (ih _).trans (hg cs stages)

theorem distributed_perm (hf : ForCreated f) (candidate : TransformCandidate) :
    (attributes f (changeChildrenList candidate.pipeline (fun children =>
      candidate.groups.foldl (distributeGroup candidate.loopNest) children) tree)).Perm
        (attributes f tree) :=
  changeChildrenList_perm
    (fun cs => foldl_perm (fun _ => distributeGroup_perm hf candidate.loopNest) candidate.groups cs) _

theorem sinkIntoStage_perm (stage : OpId) :
    (attributes f (sinkIntoStage cs stage)).Perm (attributes f cs) := by
  have hsplit : cs.takeWhile (fun c => (unlink stage c).isNone) ++
      cs.dropWhile (fun c => (unlink stage c).isNone) = cs := List.takeWhile_append_dropWhile
  unfold sinkIntoStage
  dsimp only
  split
  · exact List.Perm.refl _
  next nest behind hdrop =>
    split
    · exact List.Perm.refl _
    next info below loops hunlink =>
      -- The stage with the loops has what the nest had.
      have hsunk : (attributes f [.node info (below ++ loops)]).Perm (attributes f [nest]) := by
        have hperm := @unlink_perm α f _ _ _ _ hunlink
        rw [attributes_cons, attributes_node] at hperm
        rw [attributes_node, attributes_append, ← List.append_assoc]
        exact hperm
      rw [hdrop] at hsplit
      conv_rhs => rw [← hsplit]
      split
      next hbefore =>
        rw [hbefore, List.nil_append, attributes_append, @attributes_cons α f behind nest]
        exact List.perm_append_comm.trans (hsunk.append_right _)
      next =>
        rw [attributes_append, attributes_append, attributes_cons, @attributes_cons α f behind nest]
        exact (hsunk.append_right _).append_left _

theorem sinkGroup_perm (stages : List OpId) :
    (attributes f (sinkGroup cs stages)).Perm (attributes f cs) := by
  unfold sinkGroup
  split
  · exact sinkIntoStage_perm _
  · exact List.Perm.refl _

theorem sinkIntoSingleStage_perm (candidate : TransformCandidate) :
    (attributes f (sinkIntoSingleStage candidate tree)).Perm (attributes f tree) :=
  changeChildrenList_perm (fun cs => foldl_perm (fun _ => sinkGroup_perm) candidate.groups cs) _

/-! ## Distributing, sinking and legalizing -/

/-- The tree that the legalizer is run on. -/
def restructure (candidate : TransformCandidate) (tree : List Tree) : List Tree :=
  sinkIntoSingleStage candidate (distributeAndSinkIntoPipeline candidate tree)

theorem names_restructure (candidate : TransformCandidate) (h : (names tree).Nodup) :
    (names (restructure candidate tree)).Nodup := by
  have hloops : ∀ (loops : List OpId) (cs : List Tree), (names cs).Nodup →
      (names (loops.foldl (fun tree op => unlinkNodeList op tree) cs)).Nodup := by
    intro loops
    induction loops with
    | nil => exact fun _ hcs => hcs
    | cons op loops ih => exact fun cs hcs => ih _ (hcs.sublist (unlinkNodeList_sublist op))
  unfold restructure
  have hsink : (names (sinkIntoSingleStage candidate
      (distributeAndSinkIntoPipeline candidate tree))).Perm
        (names (distributeAndSinkIntoPipeline candidate tree)) := sinkIntoSingleStage_perm candidate
  rw [hsink.nodup_iff]
  apply hloops
  have hdistributed : (names (changeChildrenList candidate.pipeline (fun children =>
      candidate.groups.foldl (distributeGroup candidate.loopNest) children) tree)).Perm (names tree) :=
    distributed_perm forCreated_name candidate
  rwa [hdistributed.nodup_iff]

theorem restructure_perm (hf : ForCreated f) (hloop : ∀ i : NodeInfo, i.kind = .loop → f i = none)
    (candidate : TransformCandidate) :
    (attributes f (restructure candidate tree)).Perm (attributes f tree) := by
  have hloops : ∀ (loops : List OpId) (cs : List Tree),
      attributes f (loops.foldl (fun tree op => unlinkNodeList op tree) cs) = attributes f cs := by
    intro loops
    induction loops with
    | nil => exact fun _ => rfl
    | cons op loops ih =>
      intro cs
      rw [List.foldl_cons, ih, unlinkNodeList_attributes hloop]
  unfold restructure
  apply (sinkIntoSingleStage_perm candidate).trans
  unfold distributeAndSinkIntoPipeline
  dsimp only
  rw [hloops]
  exact distributed_perm hf candidate

end StageCoarsening
