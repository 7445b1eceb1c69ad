import DataflowScheduler.Conversion.KTIRToScheduleIR.IndirectComputeGroupSplit
import DataflowScheduler.Util.Except

/-!
# Runs of the split

What one candidate does to the state, and from it what a run over all candidates does: which bytes
the tracker hands out, and which functions, modules and calls stay as they are.
-/

namespace DataflowScheduler

namespace IndirectComputeGroupSplit

variable {R : Type}

/-- The views of the address buffer an operation has. -/
def Op.addrBufViews : Op R → List (ConstructMemoryViewOp R)
  | .idx32ToAddr _ target _ _ => [target]
  | .copy source _ => [source]
  | _ => []

/-- The calls of the input in a list of modules. -/
def callSites (modules : List (ModuleOp R)) : List (Nat × String × List Value) :=
  modules.flatMap fun m => m.ops.filterMap Op.asCallSite

/-- A module is as it was, apart from the functions that were split. -/
def KeptModule (splits : List (Split R)) (m m' : ModuleOp R) : Prop :=
  m'.id = m.id ∧ m'.symName = m.symName ∧
    ∀ f ∈ m.funcs, (∀ split ∈ splits, ¬ (split.candidate.module = m.id ∧
      split.candidate.func.name = f.name)) → f ∈ m'.funcs

/-- Modules are told apart by their ids, and the functions of a module by their names. -/
structure WellFormed (top : List (ModuleOp R)) : Prop where
  ids : (top.map ModuleOp.id).Nodup
  names : ∀ m ∈ top, (m.funcs.map FuncOp.name).Nodup

/-- The call of the tracker that a split made. -/
def Split.call (split : Split R) : TrackerCall R :=
  .allocate split.allocation.resource split.allocation.sizeInBytes split.allocation.alignment

/-! ## One candidate -/

/-- An accepted index memref is one view, of the type that is kept. -/
theorem analyzeIndexMemref_ok {op : ConstructIndirectAccessTilesOp R} {info : AddressBufferInfo R}
    {idx : ConstructMemoryViewOp R × MemRefType} (h : analyzeIndexMemref op info = .ok idx) :
    op.indirectMemrefs = [.constructMemoryView idx.1] ∧ idx.2 = idx.1.type ∧ idx.1.strides = [] ∧
      idx.1.staticStrides.all Option.isSome := by
  unfold analyzeIndexMemref at h
  split at h
  · cases h
  · cases h
  · next memref hmemref =>
      dsimp only at h
      split at h
      · cases h
      · cases memref with
        | other type => cases h
        | constructMemoryView view =>
            dsimp only [MemRef.getDefiningOp] at h
            split at h
            · cases h
            · split at h
              · cases h
              · next hstrides =>
                  cases h
                  rw [not_or, not_not, not_not] at hstrides
                  exact ⟨hmemref, rfl, hstrides⟩

/-- What is behind an accepted candidate. -/
theorem analyzeCandidate_ok {builder : Affine.Builder} {info : AddressBufferInfo R}
    {orchestrator : OrchestratorInfo} {op : CandidateOp R} {candidate : SplitCandidate R}
    (h : analyzeCandidate builder info orchestrator op = .ok candidate) :
    candidate.module = op.module ∧ candidate.func = op.func ∧
      candidate.idxType = candidate.idxView.type := by
  unfold analyzeCandidate at h
  obtain ⟨idx, hidx, h⟩ := Except.bind_eq_ok.mp h
  obtain ⟨indirDim, -, h⟩ := Except.bind_eq_ok.mp h
  obtain ⟨baseView, -, h⟩ := Except.bind_eq_ok.mp h
  obtain ⟨stride, -, h⟩ := Except.bind_eq_ok.mp h
  obtain ⟨elemBytes, -, h⟩ := Except.bind_eq_ok.mp h
  obtain ⟨wordSize, -, h⟩ := Except.bind_eq_ok.mp h
  obtain ⟨-, -, h⟩ := Except.bind_eq_ok.mp h
  obtain ⟨-, -, h⟩ := Except.bind_eq_ok.mp h
  obtain ⟨positions, -, h⟩ := Except.bind_eq_ok.mp h
  cases h
  refine ⟨rfl, rfl, ?_⟩
  exact (analyzeIndexMemref_ok hidx).2.1

/-- What a split is: an aligned allocation of as many entries as the index view has elements, and the
two halves over it. -/
structure Split.Over (info : AddressBufferInfo R) (split : Split R) (bytes : BitVec 32)
    (address : SizeT) (id : Nat) (name : String) : Prop where
  entry : tryGetSizeInBytes info.computeType = some bytes
  aligned : address % bytes.setWidth 64 = 0
  allocation : split.allocation = ⟨info.globalResource,
    BitVec.ofNat 64 split.candidate.idxType.getNumElements * bytes.setWidth 64,
    bytes.setWidth 64, address⟩
  idxToAddr : split.idxToAddr = buildIdxToAddrModule id name split.candidate
    (address / bytes.setWidth 64) info.computeType
  inserted : split.inserted = gatherScatterOps split.candidate (address / bytes.setWidth 64) info

/-- A candidate that is split gets its bytes from the tracker, and then the modules are rewritten. -/
theorem splitCandidate_ok [DecidableEq R] {uniqued : List String → String → String}
    {info : AddressBufferInfo R} {orchestrator : OrchestratorInfo} {candidate : SplitCandidate R}
    {s s' : State R} {split : Split R}
    (h : splitCandidate uniqued info orchestrator candidate s = (.ok split, s')) :
    split.candidate = candidate ∧
      (∃ bytes address id name, split.Over info bytes address id name ∧
        s'.modules = rewriteModules orchestrator candidate name split.idxToAddr split.inserted
          s.modules) ∧
      s.tracker.allocate split.allocation.resource split.allocation.sizeInBytes
        split.allocation.alignment = (.ok split.allocation.address, s'.tracker) := by
  unfold splitCandidate at h
  split at h
  · cases h
  · next bytes hbytes =>
      dsimp only at h
      split at h
      · cases h
      · next address tracker halloc =>
          split at h
          · cases h
          · next haligned =>
              cases h
              exact ⟨rfl, ⟨bytes, address, _, _, ⟨hbytes, not_not.mp haligned, rfl, rfl, rfl⟩, rfl⟩,
                halloc⟩

/-- A candidate that fails leaves the modules alone. -/
theorem splitCandidate_error [DecidableEq R] {uniqued : List String → String → String} {info : AddressBufferInfo R}
    {orchestrator : OrchestratorInfo} {candidate : SplitCandidate R} {s s' : State R}
    {e : SplitError R}
    (h : splitCandidate uniqued info orchestrator candidate s = (.error e, s')) :
    s'.modules = s.modules := by
  unfold splitCandidate at h
  split at h
  · cases h
    rfl
  · dsimp only at h
    split at h
    · cases h
      rfl
    · split at h
      · cases h
        rfl
      · cases h

/-! ## The modules along a run -/

/-- An operation that is no call of the input is replaced by such operations. -/
theorem callSites_mapOps {f : Op R → List (Op R)}
    (hf : ∀ op, (f op).filterMap Op.asCallSite = op.asCallSite.toList) (func : FuncOp R) :
    (func.mapOps f).ops.filterMap Op.asCallSite = func.ops.filterMap Op.asCallSite := by
  unfold FuncOp.ops FuncOp.mapOps
  cases func.body with
  | none => rfl
  | some ops =>
      show (ops.flatMap f).filterMap Op.asCallSite = ops.filterMap Op.asCallSite
      induction ops with
      | nil => rfl
      | cons op ops ih =>
          rw [List.flatMap_cons, List.filterMap_append, hf, ih]
          cases h : op.asCallSite with
          | none => simp [h]
          | some call => simp [h]

theorem callSites_replaceIndirectOp {inserted : List (Op R)}
    (h : inserted.filterMap Op.asCallSite = []) (op : Op R) :
    (replaceIndirectOp inserted op).filterMap Op.asCallSite = op.asCallSite.toList := by
  cases op with
  | constructIndirectAccessTiles op => exact h
  | call site callee operands => cases site <;> rfl
  | constructIndirectAccessTile op => rfl
  | idx32ToAddr source target base stride => rfl
  | copy source target => rfl
  | other id => rfl

theorem callSites_insertCall (target : Nat) (callee : String) (operands : List Value) (op : Op R) :
    (insertCall target callee operands op).filterMap Op.asCallSite = op.asCallSite.toList := by
  cases op with
  | call site callee' operands' =>
      cases site with
      | none => rfl
      | some site =>
          by_cases hsite : site = target
          · rw [insertCall, if_pos hsite]
            rfl
          · rw [insertCall, if_neg hsite]
            rfl
  | constructIndirectAccessTiles op => rfl
  | constructIndirectAccessTile op => rfl
  | idx32ToAddr source target base stride => rfl
  | copy source target => rfl
  | other id => rfl

theorem callSites_insertBefore {id : Nat} {new : ModuleOp R}
    (h : new.ops.filterMap Op.asCallSite = []) (modules : List (ModuleOp R)) :
    callSites (insertBefore id new modules) = callSites modules := by
  induction modules with
  | nil => rfl
  | cons m modules ih =>
      unfold insertBefore
      split
      · show new.ops.filterMap Op.asCallSite ++ callSites (m :: modules) = callSites (m :: modules)
        rw [h, List.nil_append]
      · show m.ops.filterMap Op.asCallSite ++ callSites (insertBefore id new modules) =
          m.ops.filterMap Op.asCallSite ++ callSites modules
        rw [ih]

theorem callSites_map {f : ModuleOp R → ModuleOp R}
    (hf : ∀ m, (f m).ops.filterMap Op.asCallSite = m.ops.filterMap Op.asCallSite)
    (modules : List (ModuleOp R)) : callSites (modules.map f) = callSites modules := by
  unfold callSites
  rw [List.flatMap_map]
  exact List.flatMap_congr fun m _ => hf m

/-- The calls of a module are those of its functions. -/
theorem callSites_funcs {funcs : List (FuncOp R)} {f : FuncOp R → FuncOp R}
    (hf : ∀ func, (f func).ops.filterMap Op.asCallSite = func.ops.filterMap Op.asCallSite) :
    ((funcs.map f).flatMap FuncOp.ops).filterMap Op.asCallSite =
      (funcs.flatMap FuncOp.ops).filterMap Op.asCallSite := by
  induction funcs with
  | nil => rfl
  | cons func funcs ih =>
      rw [List.map_cons, List.flatMap_cons, List.flatMap_cons, List.filterMap_append,
        List.filterMap_append, hf, ih]

theorem callSites_rewriteGatherScatterModule {inserted : List (Op R)}
    (h : inserted.filterMap Op.asCallSite = []) (candidate : SplitCandidate R) (m : ModuleOp R) :
    (rewriteGatherScatterModule candidate inserted m).ops.filterMap Op.asCallSite =
      m.ops.filterMap Op.asCallSite := by
  unfold rewriteGatherScatterModule
  split
  · apply callSites_funcs
    intro func
    split
    · exact callSites_mapOps (callSites_replaceIndirectOp h) func
    · rfl
  · rfl

theorem callSites_updateOrchestrator (orchestrator : OrchestratorInfo)
    (candidate : SplitCandidate R) (name : String) (m : ModuleOp R) :
    (updateOrchestrator orchestrator candidate name m).ops.filterMap Op.asCallSite =
      m.ops.filterMap Op.asCallSite := by
  unfold updateOrchestrator
  split
  · rfl
  · split
    · dsimp only [ModuleOp.ops]
      split
      · exact callSites_funcs (callSites_mapOps (callSites_insertCall _ _ _))
      · -- The declaration that is added has no operations.
        rw [List.flatMap_append, List.filterMap_append,
          callSites_funcs (callSites_mapOps (callSites_insertCall _ _ _))]
        simp [FuncOp.ops]
    · rfl

/-- The rewrite changes no call of the input. -/
theorem callSites_rewriteModules {idxToAddr : ModuleOp R} {inserted : List (Op R)}
    (hnew : idxToAddr.ops.filterMap Op.asCallSite = [])
    (hinserted : inserted.filterMap Op.asCallSite = []) (orchestrator : OrchestratorInfo)
    (candidate : SplitCandidate R) (name : String) (modules : List (ModuleOp R)) :
    callSites (rewriteModules orchestrator candidate name idxToAddr inserted modules) =
      callSites modules := by
  unfold rewriteModules
  rw [callSites_map (callSites_updateOrchestrator orchestrator candidate name),
    callSites_map (callSites_rewriteGatherScatterModule hinserted candidate),
    callSites_insertBefore hnew]

theorem mem_insertBefore {id : Nat} {new m : ModuleOp R} {modules : List (ModuleOp R)}
    (h : m ∈ modules) : m ∈ insertBefore id new modules := by
  induction modules with
  | nil => cases h
  | cons m₀ modules ih =>
      unfold insertBefore
      split
      · exact List.mem_cons_of_mem _ h
      · rcases List.mem_cons.mp h with rfl | h
        · exact List.mem_cons_self
        · exact List.mem_cons_of_mem _ (ih h)

/-- A module other than the orchestrator keeps all functions but that of the candidate. -/
theorem rewriteModules_keeps {orchestrator : OrchestratorInfo} {modules : List (ModuleOp R)}
    {m : ModuleOp R} (hm : m ∈ modules) (horch : orchestrator.module ≠ some m.id)
    (candidate : SplitCandidate R) (name : String) (idxToAddr : ModuleOp R)
    (inserted : List (Op R)) :
    ∃ m' ∈ rewriteModules orchestrator candidate name idxToAddr inserted modules,
      m'.id = m.id ∧ m'.symName = m.symName ∧
      ∀ f ∈ m.funcs, ¬ (candidate.module = m.id ∧ candidate.func.name = f.name) → f ∈ m'.funcs := by
  have hsame : ∀ m₁ : ModuleOp R, m₁.id = m.id →
      updateOrchestrator orchestrator candidate name m₁ = m₁ := by
    intro m₁ hid
    unfold updateOrchestrator
    split
    · rfl
    · rw [hid, if_neg horch]
  have hid : (rewriteGatherScatterModule candidate inserted m).id = m.id := by
    unfold rewriteGatherScatterModule
    split <;> rfl
  refine ⟨rewriteGatherScatterModule candidate inserted m, ?_, hid, ?_, ?_⟩
  · unfold rewriteModules
    rw [List.mem_map]
    exact ⟨_, List.mem_map_of_mem (mem_insertBefore hm), hsame _ hid⟩
  · unfold rewriteGatherScatterModule
    split <;> rfl
  · intro f hf hother
    unfold rewriteGatherScatterModule
    split
    · next heq =>
        rw [List.mem_map]
        refine ⟨f, hf, if_neg ?_⟩
        intro hname
        exact hother ⟨heq.symm, hname.symm⟩
    · exact hf

/-! ## Runs -/

section Runs

variable [DecidableEq R] {uniqued : List String → String → String} {builder : Affine.Builder}
  {info : AddressBufferInfo R} {orchestrator : OrchestratorInfo}

/-- One step of the loop: it fails and leaves the modules alone, or splits and goes on. -/
theorem splitAll_cons (op : CandidateOp R) (ops : List (CandidateOp R)) (s : State R) :
    (∃ e s', splitAll uniqued builder info orchestrator (op :: ops) s = ⟨[], some ⟨op, e, s⟩, s'⟩ ∧
      s'.modules = s.modules) ∨
    ∃ candidate split s', analyzeCandidate builder info orchestrator op = .ok candidate ∧
      splitCandidate uniqued info orchestrator candidate s = (.ok split, s') ∧
      splitAll uniqued builder info orchestrator (op :: ops) s =
        { splitAll uniqued builder info orchestrator ops s' with
          splits := split :: (splitAll uniqued builder info orchestrator ops s').splits } := by
  rw [splitAll]
  cases hanalyze : analyzeCandidate builder info orchestrator op with
  | error e => exact Or.inl ⟨e, s, rfl, rfl⟩
  | ok candidate =>
      dsimp only
      rcases hsplit : splitCandidate uniqued info orchestrator candidate s with ⟨e | split, s'⟩
      · exact Or.inl ⟨e, s', rfl, splitCandidate_error hsplit⟩
      · exact Or.inr ⟨candidate, split, s', rfl, hsplit, rfl⟩

/-- Every split of a run is one, of a candidate that was accepted. -/
theorem splitAll_splits (ops : List (CandidateOp R)) (s : State R) :
    ∀ split ∈ (splitAll uniqued builder info orchestrator ops s).splits,
      (∃ op ∈ ops, analyzeCandidate builder info orchestrator op = .ok split.candidate) ∧
      ∃ bytes address id name, split.Over info bytes address id name := by
  induction ops generalizing s with
  | nil =>
      intro split hmem
      simp [splitAll] at hmem
  | cons op ops ih =>
      rcases splitAll_cons op ops s with ⟨e, s', heq, -⟩ | ⟨candidate, split, s', hok, hsplit, heq⟩
      · rw [heq]
        intro split hmem
        simp at hmem
      · rw [heq]
        intro split' hmem
        rcases List.mem_cons.mp hmem with rfl | hmem
        · obtain ⟨hcandidate, ⟨bytes, address, id, name, hover, -⟩, -⟩ := splitCandidate_ok hsplit
          exact ⟨⟨op, List.mem_cons_self, hcandidate ▸ hok⟩, bytes, address, id, name, hover⟩
        · obtain ⟨⟨op', hop', hok'⟩, hover⟩ := ih s' split' hmem
          exact ⟨⟨op', List.mem_cons_of_mem _ hop', hok'⟩, hover⟩

/-- The history of the tracker holds the allocations of a run, newest first. -/
theorem splitAll_history (ops : List (CandidateOp R)) {s : State R} {h : History R}
    (hs : h.tracker = s.tracker) {splits : List (Split R)}
    (hsplits : splits = (splitAll uniqued builder info orchestrator ops s).splits) :
    (h.run (splits.map Split.call)).granted = (splits.map Split.allocation).reverse ++ h.granted ∧
      (h.run (splits.map Split.call)).live info.globalResource =
        (splits.map Split.allocation).reverse ++ h.live info.globalResource := by
  induction ops generalizing s h splits with
  | nil =>
      subst hsplits
      exact ⟨rfl, rfl⟩
  | cons op ops ih =>
      rcases splitAll_cons op ops s with ⟨e, s', heq, -⟩ | ⟨candidate, split, s', hok, hsplit, heq⟩
      · rw [heq] at hsplits
        subst hsplits
        exact ⟨rfl, rfl⟩
      · rw [heq] at hsplits
        subst hsplits
        obtain ⟨-, ⟨bytes, address, id, name, hover, -⟩, halloc⟩ := splitCandidate_ok hsplit
        have hresource : split.allocation.resource = info.globalResource := by
          rw [hover.allocation]
        have hstep : h.step split.call = h.record s'.tracker split.allocation := by
          simp only [Split.call, History.step, hs, halloc]
        dsimp only
        rw [List.map_cons, List.map_cons, History.run_cons, hstep]
        obtain ⟨hgranted, hlive⟩ := ih (s := s') (h := h.record s'.tracker split.allocation) rfl rfl
        rw [hgranted, hlive]
        simp [History.record, hresource]

/-- A run changes no call of the input. -/
theorem splitAll_callSites (ops : List (CandidateOp R)) (s : State R) :
    callSites (splitAll uniqued builder info orchestrator ops s).state.modules =
      callSites s.modules := by
  induction ops generalizing s with
  | nil => rfl
  | cons op ops ih =>
      rcases splitAll_cons op ops s with ⟨e, s', heq, hsame⟩ | ⟨candidate, split, s', -, hsplit, heq⟩
      · rw [heq]
        exact congrArg callSites hsame
      · rw [heq]
        obtain ⟨-, ⟨bytes, address, id, name, hover, hmodules⟩, -⟩ := splitCandidate_ok hsplit
        show callSites (splitAll uniqued builder info orchestrator ops s').state.modules = _
        rw [ih, hmodules, callSites_rewriteModules]
        · rw [hover.idxToAddr]
          rfl
        · rw [hover.inserted]
          rfl

/-- A run keeps all functions but those of the candidates it split. -/
theorem splitAll_keeps (ops : List (CandidateOp R)) {s : State R} {m : ModuleOp R}
    (hm : m ∈ s.modules) (horch : orchestrator.module ≠ some m.id) :
    ∃ m' ∈ (splitAll uniqued builder info orchestrator ops s).state.modules,
      KeptModule (splitAll uniqued builder info orchestrator ops s).splits m m' := by
  induction ops generalizing s m with
  | nil => exact ⟨m, hm, rfl, rfl, fun f hf _ => hf⟩
  | cons op ops ih =>
      rcases splitAll_cons op ops s with ⟨e, s', heq, hsame⟩ | ⟨candidate, split, s', -, hsplit, heq⟩
      · rw [heq]
        exact ⟨m, hsame ▸ hm, rfl, rfl, fun f hf _ => hf⟩
      · rw [heq]
        obtain ⟨hcandidate, ⟨bytes, address, id, name, -, hmodules⟩, -⟩ := splitCandidate_ok hsplit
        obtain ⟨m₁, hm₁, hid₁, hname₁, hkeep₁⟩ :=
          rewriteModules_keeps hm horch candidate name split.idxToAddr split.inserted
        rw [← hmodules] at hm₁
        obtain ⟨m₂, hm₂, hid₂, hname₂, hkeep₂⟩ := ih hm₁ (hid₁ ▸ horch)
        refine ⟨m₂, hm₂, hid₂.trans hid₁, hname₂.trans hname₁, fun f hf hother => ?_⟩
        have hf₁ : f ∈ m₁.funcs := hkeep₁ f hf (hcandidate ▸ hother split List.mem_cons_self)
        refine hkeep₂ f hf₁ fun split' hmem => ?_
        rw [hid₁]
        exact hother split' (List.mem_cons_of_mem _ hmem)

/-- What tells the function of a candidate apart. -/
def CandidateOp.key (op : CandidateOp R) : Nat × String := (op.module, op.func.name)

/-- Where a run fails, it has left the modules as it found them, and the candidate it fails at is none
of those it split. -/
theorem splitAll_failed (ops : List (CandidateOp R)) {s : State R}
    (hkeys : (ops.map CandidateOp.key).Nodup) {failure : Failure R}
    (h : (splitAll uniqued builder info orchestrator ops s).failure = some failure) :
    failure.candidate ∈ ops ∧
      (splitAll uniqued builder info orchestrator ops s).state.modules = failure.found.modules ∧
      ∀ split ∈ (splitAll uniqued builder info orchestrator ops s).splits,
        (split.candidate.module, split.candidate.func.name) ≠ failure.candidate.key := by
  induction ops generalizing s with
  | nil => simp [splitAll] at h
  | cons op ops ih =>
      rw [List.map_cons, List.nodup_cons] at hkeys
      rcases splitAll_cons op ops s with ⟨e, s', heq, hsame⟩ | ⟨candidate, split, s', hok, hsplit, heq⟩
      · rw [heq] at h ⊢
        cases h
        exact ⟨List.mem_cons_self, hsame, fun split hmem => by simp at hmem⟩
      · rw [heq] at h ⊢
        obtain ⟨hmem, hmodules, hother⟩ := ih hkeys.2 h
        refine ⟨List.mem_cons_of_mem _ hmem, hmodules, fun split' hsplit' => ?_⟩
        rcases List.mem_cons.mp hsplit' with rfl | hsplit'
        · obtain ⟨hmodule, hfunc, -⟩ := analyzeCandidate_ok hok
          rw [(splitCandidate_ok hsplit).1, hmodule, hfunc]
          intro heq'
          exact hkeys.1 (List.mem_map.mpr ⟨_, hmem, heq'.symm⟩)
        · exact hother split' hsplit'

end Runs

/-! ## Before the first candidate -/

theorem collectFromFuncs_ok {id : Nat} {funcs : List (FuncOp R)} {ops : List (CandidateOp R)}
    (h : collectFromFuncs id funcs = .ok ops) :
    (ops.map CandidateOp.key).Sublist (funcs.map fun f => (id, f.name)) ∧
      ∀ op ∈ ops, op.module = id ∧ op.func ∈ funcs := by
  induction funcs generalizing ops with
  | nil =>
      cases h
      exact ⟨.slnil, nofun⟩
  | cons func funcs ih =>
      unfold collectFromFuncs at h
      split at h
      · obtain ⟨hsub, hmem⟩ := ih h
        exact ⟨hsub.cons _, fun op hop => ⟨(hmem op hop).1, List.mem_cons_of_mem _ (hmem op hop).2⟩⟩
      · cases hrest : collectFromFuncs id funcs with
        | error e =>
            rw [hrest] at h
            cases h
        | ok rest =>
            rw [hrest] at h
            cases h
            obtain ⟨hsub, hmem⟩ := ih hrest
            refine ⟨hsub.cons_cons _, fun op hop => ?_⟩
            rcases List.mem_cons.mp hop with rfl | hop
            · exact ⟨rfl, List.mem_cons_self⟩
            · exact ⟨(hmem op hop).1, List.mem_cons_of_mem _ (hmem op hop).2⟩
      · cases h

/-- The candidates are functions of different names or modules, none of them the orchestrator's. -/
theorem collectCandidateOps_ok {top : List (ModuleOp R)} {ops : List (CandidateOp R)}
    (h : collectCandidateOps top = .ok ops) :
    (ops.map CandidateOp.key).Sublist
        (top.flatMap fun m => m.funcs.map fun f => (m.id, f.name)) ∧
      ∀ op ∈ ops, ∃ m ∈ top, m.id = op.module ∧ m.symName ≠ none ∧ op.func ∈ m.funcs := by
  induction top generalizing ops with
  | nil =>
      cases h
      exact ⟨.slnil, nofun⟩
  | cons child top ih =>
      unfold collectCandidateOps at h
      split at h
      · obtain ⟨hsub, hmem⟩ := ih h
        refine ⟨hsub.trans (List.sublist_append_right _ _), fun op hop => ?_⟩
        obtain ⟨m, hm, hrest⟩ := hmem op hop
        exact ⟨m, List.mem_cons_of_mem _ hm, hrest⟩
      · next horch =>
          obtain ⟨here, hhere, h⟩ := Except.bind_eq_ok.mp h
          obtain ⟨there, hthere, h⟩ := Except.bind_eq_ok.mp h
          cases h
          obtain ⟨hsub₁, hmem₁⟩ := collectFromFuncs_ok hhere
          obtain ⟨hsub₂, hmem₂⟩ := ih hthere
          rw [List.map_append]
          refine ⟨hsub₁.append hsub₂, fun op hop => ?_⟩
          rcases List.mem_append.mp hop with hop | hop
          · refine ⟨child, List.mem_cons_self, (hmem₁ op hop).1.symm, ?_, (hmem₁ op hop).2⟩
            intro hnone
            rw [isOrchestratorModule, hnone] at horch
            exact horch rfl
          · obtain ⟨m, hm, hrest⟩ := hmem₂ op hop
            exact ⟨m, List.mem_cons_of_mem _ hm, hrest⟩

theorem WellFormed.nodup_keys {top : List (ModuleOp R)} (h : WellFormed top) :
    (top.flatMap fun m => m.funcs.map fun f => (m.id, f.name)).Nodup := by
  rw [List.nodup_flatMap]
  constructor
  · intro m hm
    have hnames := h.names m hm
    have hmap : (m.funcs.map fun f => (m.id, f.name)) =
        (m.funcs.map FuncOp.name).map (Prod.mk m.id) := by
      rw [List.map_map]
      rfl
    rw [hmap]
    exact hnames.map fun a b hab => (Prod.mk.inj hab).2
  · have hids := h.ids
    rw [List.Nodup, List.pairwise_map] at hids
    refine hids.imp fun {a b} hab key ha hb => ?_
    obtain ⟨f, -, rfl⟩ := List.mem_map.mp ha
    obtain ⟨g, -, hg⟩ := List.mem_map.mp hb
    exact hab (Prod.mk.inj hg).1.symm

/-- A module with a name is not the orchestrator. -/
theorem resolveOrchestrator_ok {top : List (ModuleOp R)} {orchestrator : OrchestratorInfo}
    (hwf : WellFormed top) (h : resolveOrchestrator top = .ok orchestrator) {m : ModuleOp R}
    (hm : m ∈ top) (hname : m.symName ≠ none) : orchestrator.module ≠ some m.id := by
  unfold resolveOrchestrator at h
  split at h
  · cases h
    nofun
  · next m₀ hfind =>
      dsimp only at h
      split at h
      · cases h
      · cases h
        intro heq
        have hid : m₀.id = m.id := Option.some.inj heq
        have hsame : m₀ = m :=
          List.inj_on_of_nodup_map hwf.ids (List.mem_of_find?_eq_some hfind) hm hid
        have horch := List.find?_some hfind
        rw [hsame, isOrchestratorModule, Option.isNone_iff_eq_none] at horch
        exact hname horch

end IndirectComputeGroupSplit

end DataflowScheduler
