import DataflowScheduler.Transforms.PathExpansion.Planner

/-!
# What planning a transfer changes

Steps 2, 2b and 3 change the plan in three ways. They own more specs (`SpecsGrow`), they point one
side of an operation's transfer at a new buffer or FIFO (`RewritesSide`), and they give a hop stage a
transfer (`AddsHop`). Each function of the steps is shown to be such a change once, and what a plan
keeps is read off from the changes.
-/

namespace DataflowScheduler

namespace PathExpansion

variable {R : Type}

/-! ## Specs -/

/-- More specs are owned; a FIFO stays one. -/
structure SpecsGrow (plan plan' : PathExpansionPlan R) : Prop where
  stageInfo : plan'.stageInfo = plan.stageInfo
  transfers : plan'.transfers = plan.transfers
  changed : plan'.changed = plan.changed
  isFifo : ∀ (ref : SpecRef) (spec : PrivateResourceSpec R), plan.specs[ref]? = some spec →
    ∃ spec' : PrivateResourceSpec R, plan'.specs[ref]? = some spec' ∧ spec'.isFifo = spec.isFifo

theorem specsGrow_addSpec (plan : PathExpansionPlan R) (spec : PrivateResourceSpec R) :
    SpecsGrow plan (plan.addSpec spec).2 where
  stageInfo := rfl
  transfers := rfl
  changed := rfl
  isFifo ref spec' h := by
    refine ⟨spec', ?_, rfl⟩
    have hlt := (List.getElem?_eq_some_iff.mp h).1
    rw [PathExpansionPlan.addSpec, List.getElem?_append_left hlt]
    exact h

theorem getElem?_addSpec (plan : PathExpansionPlan R) (spec : PrivateResourceSpec R) :
    (plan.addSpec spec).2.specs[(plan.addSpec spec).1]? = some spec := by
  simp [PathExpansionPlan.addSpec]

theorem specsGrow_pushSlot (plan : PathExpansionPlan R) (ref : SpecRef) (numElements : Int) :
    SpecsGrow plan (plan.pushSlot ref numElements) where
  stageInfo := rfl
  transfers := rfl
  changed := rfl
  isFifo ref' spec h := by
    refine ⟨if ref = ref' then spec.pushSlot numElements else spec, ?_, ?_⟩
    · rw [PathExpansionPlan.pushSlot, List.getElem?_modify, h]
      rfl
    · split
      · exact spec.isFifo_pushSlot numElements
      · rfl

theorem getSpec_eq_ok {plan : PathExpansionPlan R} {ref : SpecRef} {spec : PrivateResourceSpec R} :
    plan.getSpec ref = .ok spec ↔ plan.specs[ref]? = some spec := by
  unfold PathExpansionPlan.getSpec
  cases plan.specs[ref]? with
  | none => simp
  | some spec' => simp

theorem getTransfer_eq_ok {plan : PathExpansionPlan R} {ref : TransferRef}
    {transfer : TransferMaterializationInfo R} :
    plan.getTransfer ref = .ok transfer ↔ plan.transfers[ref]? = some transfer := by
  unfold PathExpansionPlan.getTransfer
  cases plan.transfers[ref]? with
  | none => simp
  | some transfer' => simp

/-- The spec that a pointer stands for is a FIFO. -/
def SpecIsFifo (plan : PathExpansionPlan R) (ref : SpecRef) (isFifo : Bool) : Prop :=
  ∃ spec, plan.specs[ref]? = some spec ∧ spec.isFifo = isFifo

theorem SpecIsFifo.mono {plan plan' : PathExpansionPlan R} {ref : SpecRef} {isFifo : Bool}
    (h : SpecIsFifo plan ref isFifo) (hgrow : SpecsGrow plan plan') :
    SpecIsFifo plan' ref isFifo := by
  obtain ⟨spec, hspec, hfifo⟩ := h
  obtain ⟨spec', hspec', hfifo'⟩ := hgrow.isFifo ref spec hspec
  exact ⟨spec', hspec', hfifo'.trans hfifo⟩

/-- The FIFOs across boundaries are FIFOs. -/
def BoundaryFifos.Valid (fifos : BoundaryFifos R) (plan : PathExpansionPlan R) : Prop :=
  ∀ key ref, fifos.specs key = some ref → SpecIsFifo plan ref true

theorem BoundaryFifos.Valid.mono {fifos : BoundaryFifos R} {plan plan' : PathExpansionPlan R}
    (h : fifos.Valid plan) (hgrow : SpecsGrow plan plan') : fifos.Valid plan' :=
  fun key ref hget => (h key ref hget).mono hgrow

section Fifos

variable [DecidableEq R]

omit [DecidableEq R] in
theorem BoundaryFifos.specsGrow_addSlot (fifos : BoundaryFifos R) (plan : PathExpansionPlan R)
    (key : FifoKey R) (numElements : Int) (elementType : Opaque) :
    SpecsGrow plan (fifos.addSlot plan key numElements elementType).2 := by
  unfold BoundaryFifos.addSlot
  cases fifos.specs key with
  | none => exact specsGrow_addSpec _ _
  | some ref => exact specsGrow_pushSlot plan ref numElements

omit [DecidableEq R] in
theorem BoundaryFifos.specIsFifo_addSlot {fifos : BoundaryFifos R} {plan : PathExpansionPlan R}
    (hvalid : fifos.Valid plan) (key : FifoKey R) (numElements : Int) (elementType : Opaque) :
    SpecIsFifo (fifos.addSlot plan key numElements elementType).2
      (fifos.addSlot plan key numElements elementType).1 true := by
  unfold BoundaryFifos.addSlot
  cases hkey : fifos.specs key with
  | none => exact ⟨_, getElem?_addSpec _ _, rfl⟩
  | some ref => exact (hvalid key ref hkey).mono (specsGrow_pushSlot plan ref numElements)

theorem BoundaryFifos.Valid.use {fifos : BoundaryFifos R} {plan : PathExpansionPlan R}
    (h : fifos.Valid plan) {key : FifoKey R} {ref : SpecRef} (href : SpecIsFifo plan ref true) :
    (fifos.use key ref).Valid plan := by
  intro key' ref' hget
  change Function.update fifos.specs key (some ref) key' = some ref' at hget
  rw [Function.update_apply] at hget
  split at hget
  · cases hget
    exact href
  · exact h key' ref' hget

theorem BoundaryFifos.specsGrow_get {fifos fifos' : BoundaryFifos R}
    {plan plan' : PathExpansionPlan R} {flow : DataFlow R} {src dest : R} {tile : Tile}
    {mirrorSlot : Bool} {ref : SpecRef} {slot : Nat}
    (h : fifos.get plan flow src dest tile mirrorSlot = .ok (ref, slot, fifos', plan')) :
    SpecsGrow plan plan' := by
  unfold BoundaryFifos.get at h
  split at h
  · cases h
    exact specsGrow_addSpec _ _
  · split at h
    · cases h
    · obtain ⟨_, -, h⟩ := Except.bind_eq_ok.mp h
      obtain ⟨_, -, h⟩ := Except.bind_eq_ok.mp h
      cases h
      exact fifos.specsGrow_addSlot plan _ _ _
    · cases h

/-- `BoundaryFifos::get` returns a FIFO. -/
theorem BoundaryFifos.get_spec {fifos fifos' : BoundaryFifos R} {plan plan' : PathExpansionPlan R}
    {flow : DataFlow R} {src dest : R} {tile : Tile} {mirrorSlot : Bool} {ref : SpecRef}
    {slot : Nat} (h : fifos.get plan flow src dest tile mirrorSlot = .ok (ref, slot, fifos', plan'))
    (hvalid : fifos.Valid plan) : fifos'.Valid plan' ∧ SpecIsFifo plan' ref true := by
  unfold BoundaryFifos.get at h
  split at h
  · cases h
    exact ⟨hvalid.mono (specsGrow_addSpec _ _), _, getElem?_addSpec _ _, rfl⟩
  · split at h
    · cases h
    · obtain ⟨_, -, h⟩ := Except.bind_eq_ok.mp h
      obtain ⟨_, -, h⟩ := Except.bind_eq_ok.mp h
      cases h
      have hfifo := BoundaryFifos.specIsFifo_addSlot hvalid (fifoKey flow src dest)
      exact ⟨(hvalid.mono (fifos.specsGrow_addSlot plan _ _ _)).use (hfifo _ _), hfifo _ _⟩
    · cases h

/-- Whether the place is a FIFO. -/
def BoundaryPlace.isFifo : BoundaryPlace R → Bool
  | memory _ => false
  | fifo .. => true

theorem specsGrow_placeResource {state : EndsState R} {flow : DataFlow R} {place : BoundaryPlace R}
    {tile : Tile} {mirrorSlot : Bool} {ref : SpecRef} {slot : Nat} {fifos' : BoundaryFifos R}
    {plan' : PathExpansionPlan R}
    (h : placeResource state flow place tile mirrorSlot = .ok (ref, slot, fifos', plan')) :
    SpecsGrow state.plan plan' := by
  cases place with
  | memory memory =>
      cases h
      exact specsGrow_addSpec _ _
  | fifo src dest => exact BoundaryFifos.specsGrow_get h

/-- The buffer or FIFO of a boundary is a FIFO exactly if the place is. -/
theorem placeResource_spec {state : EndsState R} {flow : DataFlow R} {place : BoundaryPlace R}
    {tile : Tile} {mirrorSlot : Bool} {ref : SpecRef} {slot : Nat} {fifos' : BoundaryFifos R}
    {plan' : PathExpansionPlan R}
    (h : placeResource state flow place tile mirrorSlot = .ok (ref, slot, fifos', plan'))
    (hvalid : state.fifos.Valid state.plan) :
    fifos'.Valid plan' ∧ SpecIsFifo plan' ref place.isFifo := by
  cases place with
  | memory memory =>
      cases h
      exact ⟨hvalid.mono (specsGrow_addSpec _ _), _, getElem?_addSpec _ _, rfl⟩
  | fifo src dest => exact BoundaryFifos.get_spec h hvalid

end Fifos

/-! ## One side of an operation's transfer -/

/-- A change that points one side of the transfer of an operation somewhere else. -/
structure SideChange (R : Type) where
  /-- What was planned for the stage. -/
  info : StageMaterializationInfo R
  kind : StageKind
  ref : TransferRef
  isNew : Bool
  /-- The transfer before its side is written. -/
  transfer : TransferMaterializationInfo R
  side : TransferSide R

namespace SideChange

/-- What is planned for the stage afterwards. -/
def info' (change : SideChange R) : StageMaterializationInfo R :=
  { change.info with
    kind := change.kind
    transfers :=
      if change.isNew then change.info.transfers ++ [change.ref] else change.info.transfers }

/-- The transfer afterwards. -/
def transfer' (change : SideChange R) (sourceSide : Bool) : TransferMaterializationInfo R :=
  change.transfer.setSide sourceSide change.side

end SideChange

/-- A transfer made from an operation, with nothing replaced yet. -/
structure TransferMaterializationInfo.FreshFor (transfer : TransferMaterializationInfo R)
    (op : Op R) : Prop where
  template : transfer.templateOp = some op
  mode : transfer.transferMode = op.transferMode
  resource : ∀ sourceSide, (transfer.side sourceSide).resource = none

/-- The plan changes in one side of the transfer of `op`, which is found or created. -/
structure SideChange.Applies (change : SideChange R) (plan plan' : PathExpansionPlan R)
    (stage : StageRef) (op : Op R) (sourceSide : Bool) : Prop where
  info_eq : change.info = (plan.stageInfo stage).getD .default
  stageInfo : plan'.stageInfo = Function.update plan.stageInfo stage (some change.info')
  resource : change.side.resource.isSome
  found : change.isNew = false → findTransferForOp plan change.info op = some change.ref ∧
    plan.transfers[change.ref]? = some change.transfer ∧
      plan'.transfers = plan.transfers.set change.ref (change.transfer' sourceSide)
  new : change.isNew = true → change.ref = plan.transfers.length ∧ change.transfer.FreshFor op ∧
    plan'.transfers = plan.transfers ++ [change.transfer' sourceSide]
  kind_cases : change.kind = change.info.kind ∧ change.kind ≠ .preserveOriginal ∨
    change.kind = .adaptFifoKinds ∨
      change.info.kind = .preserveOriginal ∧ change.kind = .adaptTransfer
  kind_of_isFifoOp : op.isFifoOp → change.kind = .adaptFifoKinds
  specs : ∀ ref isFifo, SpecIsFifo plan ref isFifo → SpecIsFifo plan' ref isFifo

theorem findTransferForOp_congr {plan plan' : PathExpansionPlan R}
    (h : plan'.transfers = plan.transfers) (info : StageMaterializationInfo R) (op : Op R) :
    findTransferForOp plan' info op = findTransferForOp plan info op := by
  rw [findTransferForOp, findTransferForOp, h]

theorem setSide_setSide (transfer : TransferMaterializationInfo R) (sourceSide : Bool)
    (side side' : TransferSide R) :
    (transfer.setSide sourceSide side).setSide sourceSide side' =
      transfer.setSide sourceSide side' := by
  cases sourceSide with
  | false => rfl
  | true => rfl

@[simp]
theorem side_setSide (transfer : TransferMaterializationInfo R) (sourceSide : Bool)
    (side : TransferSide R) : (transfer.setSide sourceSide side).side sourceSide = side := by
  cases sourceSide with
  | false => rfl
  | true => rfl

/-- A transfer made from a template keeps its operands. -/
theorem freshFor_createFromTemplate {op : Op R} {edge : EdgeInfo} {source dest : Option R}
    {transfer : TransferMaterializationInfo R}
    (h : createFromTemplate op edge source dest = .ok transfer) : transfer.FreshFor op := by
  obtain ⟨sourceSide, hsource, h⟩ := Except.bind_eq_ok.mp h
  obtain ⟨destSide, hdest, h⟩ := Except.bind_eq_ok.mp h
  cases h
  obtain ⟨_, -, hsource⟩ := Except.bind_eq_ok.mp hsource
  obtain ⟨_, -, hdest⟩ := Except.bind_eq_ok.mp hdest
  cases hsource
  cases hdest
  refine ⟨rfl, rfl, fun sourceSide => ?_⟩
  cases sourceSide with
  | false => rfl
  | true => rfl

/-- Retargeting a side sets its resource and nothing else of the transfer. -/
theorem retargetSide_spec {transfer transfer' : TransferMaterializationInfo R} {op : Op R}
    {sourceSide : Bool} {ref : SpecRef} {spec : PrivateResourceSpec R} {slot : Nat}
    (h : retargetSide transfer op sourceSide ref spec slot = .ok transfer') :
    ∃ side, transfer' = transfer.setSide sourceSide side ∧ side.resource = some ref := by
  obtain ⟨operand, -, h⟩ := Except.bind_eq_ok.mp h
  split at h
  · cases h
    exact ⟨_, rfl, rfl⟩
  · obtain ⟨side, hside, h⟩ := Except.bind_eq_ok.mp h
    cases h
    refine ⟨side, rfl, ?_⟩
    obtain ⟨sizes, -, hside⟩ := Except.bind_eq_ok.mp hside
    split at hside
    · cases hside
      rfl
    · cases hside
      rfl

/-- Specs may be owned before the change. -/
theorem SideChange.Applies.of_specsGrow {change : SideChange R}
    {plan plan₁ plan' : PathExpansionPlan R} {stage : StageRef} {op : Op R} {sourceSide : Bool}
    (h : change.Applies plan₁ plan' stage op sourceSide) (hgrow : SpecsGrow plan plan₁) :
    change.Applies plan plan' stage op sourceSide where
  info_eq := hgrow.stageInfo ▸ h.info_eq
  stageInfo := hgrow.stageInfo ▸ h.stageInfo
  resource := h.resource
  found hnew := by
    obtain ⟨hfind, hget, hset⟩ := h.found hnew
    rw [hgrow.transfers] at hget hset
    exact ⟨findTransferForOp_congr hgrow.transfers _ _ ▸ hfind, hget, hset⟩
  new hnew := hgrow.transfers ▸ h.new hnew
  kind_cases := h.kind_cases
  kind_of_isFifoOp := h.kind_of_isFifoOp
  specs ref isFifo hspec := h.specs ref isFifo (hspec.mono hgrow)

/-- The transfer of an operation is found, or a fresh one is registered, perhaps with the side
written. -/
def Obtains (plan plan₁ : PathExpansionPlan R) (stage : StageRef) (op : Op R) (sourceSide : Bool)
    (info : StageMaterializationInfo R) (ref : TransferRef) : Prop :=
  (findTransferForOp plan info op = some ref ∧ plan₁ = plan) ∨
    ∃ (fresh : TransferMaterializationInfo R) (side : TransferSide R), fresh.FreshFor op ∧
      plan.pushTransfer stage info (fresh.setSide sourceSide side) = (ref, plan₁)

theorem setSide_side (transfer : TransferMaterializationInfo R) (sourceSide : Bool) :
    transfer.setSide sourceSide (transfer.side sourceSide) = transfer := by
  cases sourceSide with
  | false => rfl
  | true => rfl

/-- Writing the side of the transfer that was obtained is a change of one side. -/
theorem Obtains.applies {plan plan₁ : PathExpansionPlan R} {stage : StageRef} {op : Op R}
    {sourceSide : Bool} {info info₁ : StageMaterializationInfo R} {ref : TransferRef}
    (h : Obtains plan plan₁ stage op sourceSide info ref)
    (hinfo : info = (plan.stageInfo stage).getD .default)
    {transfer : TransferMaterializationInfo R} (hget : plan₁.transfers[ref]? = some transfer)
    {side : TransferSide R} (hside : side.resource.isSome)
    (hinfo₁ : plan₁.stageInfo stage = some info₁) {kind : StageKind}
    (hkind : kind = info₁.kind ∧ kind ≠ .preserveOriginal ∨ kind = .adaptFifoKinds ∨
      info₁.kind = .preserveOriginal ∧ kind = .adaptTransfer)
    (hfifo : op.isFifoOp → kind = .adaptFifoKinds) :
    ∃ change : SideChange R, change.ref = ref ∧ change.kind = kind ∧ change.side = side ∧
      change.transfer' sourceSide = transfer.setSide sourceSide side ∧
      change.Applies plan ((plan₁.setTransfer ref (transfer.setSide sourceSide side)).setStageInfo
        stage { info₁ with kind := kind }) stage op sourceSide := by
  rcases h with ⟨hfind, rfl⟩ | ⟨fresh, side₀, hfresh, hpush⟩
  · rw [hinfo₁, Option.getD_some] at hinfo
    subst hinfo
    exact ⟨⟨info, kind, ref, false, transfer, side⟩, rfl, rfl, rfl, rfl,
      by rw [hinfo₁, Option.getD_some], rfl, hside, fun _ => ⟨hfind, hget, rfl⟩, nofun, hkind, hfifo,
      fun _ _ hspec => hspec⟩
  · cases hpush
    have hinfo₁' : { info with transfers := info.transfers ++ [plan.transfers.length] } = info₁ := by
      simpa [PathExpansionPlan.pushTransfer, PathExpansionPlan.setStageInfo] using hinfo₁
    subst hinfo₁'
    have hget' : fresh.setSide sourceSide side₀ = transfer := by
      simpa [PathExpansionPlan.pushTransfer, PathExpansionPlan.addTransfer,
        PathExpansionPlan.setStageInfo] using hget
    subst hget'
    rw [setSide_setSide]
    refine ⟨⟨info, kind, plan.transfers.length, true, fresh, side⟩, rfl, rfl, rfl, rfl, hinfo, ?_,
      hside, nofun, fun _ => ⟨rfl, hfresh, ?_⟩, hkind, hfifo, fun _ _ hspec => hspec⟩
    · exact Function.update_idem ..
    · simp [PathExpansionPlan.setTransfer, PathExpansionPlan.setStageInfo, SideChange.transfer']

theorem kind_adaptTransfers (info : StageMaterializationInfo R) :
    info.adaptTransfers = { info with kind := info.adaptTransfers.kind } ∧
      (info.adaptTransfers.kind = info.kind ∧ info.adaptTransfers.kind ≠ .preserveOriginal ∨
        info.kind = .preserveOriginal ∧ info.adaptTransfers.kind = .adaptTransfer) := by
  unfold StageMaterializationInfo.adaptTransfers
  split
  · next h => exact ⟨rfl, .inr ⟨h, rfl⟩⟩
  · next h => exact ⟨rfl, .inl ⟨rfl, h⟩⟩

theorem kind_adaptFifos (info : StageMaterializationInfo R) (isFifoOp : Bool) :
    info.adaptFifos isFifoOp = { info with kind := (info.adaptFifos isFifoOp).kind } ∧
      ((info.adaptFifos isFifoOp).kind = info.kind ∧
          (info.adaptFifos isFifoOp).kind ≠ .preserveOriginal ∨
        (info.adaptFifos isFifoOp).kind = .adaptFifoKinds) ∧
      (isFifoOp → (info.adaptFifos isFifoOp).kind = .adaptFifoKinds) := by
  unfold StageMaterializationInfo.adaptFifos
  split
  · exact ⟨rfl, .inr rfl, fun _ => rfl⟩
  · next h =>
      rw [not_or] at h
      exact ⟨rfl, .inl ⟨rfl, h.1⟩, fun hfifo => absurd hfifo h.2⟩

/-! ## The ends of a flow -/

section Ends

variable [DecidableEq R]

omit [DecidableEq R] in
theorem transferMode_of_not_isDataTransfer {op : Op R} (h : op.isDataTransfer = false) :
    op.transferMode = .copy := by
  obtain ⟨id, kind, body⟩ := op
  cases kind with
  | dataTransfer => cases h
  | indDataTransfer => rfl
  | readFromFifo => rfl
  | writeToFifo => rfl
  | other => rfl

omit [DecidableEq R] in
theorem not_isDataTransfer_of_isFifoOp {op : Op R} (h : op.isFifoOp = true) :
    op.isDataTransfer = false := by
  obtain ⟨id, kind, body⟩ := op
  cases kind with
  | dataTransfer => cases h
  | indDataTransfer => cases h
  | readFromFifo => rfl
  | writeToFifo => rfl
  | other => cases h

omit [DecidableEq R] in
/-- What `createFromFifoOp` fills in besides the FIFO. -/
theorem createFromFifoOp_eq {op : Op R} (h : op.isDataTransfer = false) (edge : EdgeInfo)
    (source dest : Option R) (ref : SpecRef) (slot : Nat) (isRead : Bool) :
    ∃ (fresh : TransferMaterializationInfo R) (side : TransferSide R), fresh.FreshFor op ∧
      side.resource = some ref ∧
      createFromFifoOp op edge source dest ref slot isRead = fresh.setSide isRead side := by
  refine ⟨⟨some op, edge, source, dest, .copy, .unset, .unset⟩, _, ⟨rfl, ?_, ?_⟩, rfl, rfl⟩
  · exact (transferMode_of_not_isDataTransfer h).symm
  · intro sourceSide
    cases sourceSide with
    | false => rfl
    | true => rfl

/-- What adapting an operation to the place at a boundary does. -/
structure AdaptsSide (change : SideChange R) (state state' : EndsState R) (stage : StageRef)
    (op : Op R) (sourceSide isFifo : Bool) (flowIdx k : Nat) : Prop where
  applies : change.Applies state.plan state'.plan stage op sourceSide
  valid : state'.fifos.Valid state'.plan
  flows : state'.flows = setCarrier state.flows flowIdx k change.side
  isFifo : ∃ ref, change.side.resource = some ref ∧ SpecIsFifo state'.plan ref isFifo

theorem adaptFifoOp_spec {state state' : EndsState R} {stage : StageRef} {op : Op R}
    {flow : DataFlow R} {flowIdx k : Nat} {fifoSrc fifoDest : R} {sourceSide : Bool}
    {edge : EdgeInfo} {resources : Option R × Option R}
    (h : adaptFifoOp state stage op flow flowIdx k fifoSrc fifoDest sourceSide edge resources =
      .ok state') (hvalid : state.fifos.Valid state.plan) (hop : op.isFifoOp) :
    ∃ change : SideChange R, change.isNew = true ∧
      AdaptsSide change state state' stage op sourceSide true flowIdx k := by
  obtain ⟨⟨ref, slot, fifos, plan⟩, hget, h⟩ := Except.bind_eq_ok.mp h
  obtain ⟨info, hinfo, h⟩ := Except.bind_eq_ok.mp h
  rw [PathExpansionPlan.getStageInfo_eq_ok] at hinfo
  have hgrow := BoundaryFifos.specsGrow_get hget
  obtain ⟨hvalid', hspec⟩ := BoundaryFifos.get_spec hget hvalid
  obtain ⟨fresh, side, hfresh, hside, hcreate⟩ := createFromFifoOp_eq
    (not_isDataTransfer_of_isFifoOp hop) edge resources.1 resources.2 ref slot sourceSide
  cases h
  rw [hcreate]
  have happly : SideChange.Applies ⟨info, .adaptFifoKinds, plan.transfers.length, true, fresh, side⟩
      plan (plan.pushTransfer stage { info with kind := .adaptFifoKinds }
        (fresh.setSide sourceSide side)).2 stage op sourceSide :=
    { info_eq := by rw [hinfo, Option.getD_some]
      stageInfo := rfl
      resource := by rw [hside]; rfl
      found := nofun
      new := fun _ => ⟨rfl, hfresh, rfl⟩
      kind_cases := .inr (.inl rfl)
      kind_of_isFifoOp := fun _ => rfl
      specs := fun _ _ hspec => hspec }
  exact ⟨_, rfl, happly.of_specsGrow hgrow, hvalid', by rw [side_setSide], ref, hside, hspec⟩

omit [DecidableEq R] in
theorem transferFor_obtains {plan plan₁ : PathExpansionPlan R} {stage : StageRef} {op : Op R}
    {edge : EdgeInfo} {resources : Option R × Option R} {ref : TransferRef} (sourceSide : Bool)
    (h : transferFor plan stage op edge resources = .ok (ref, plan₁)) :
    ∃ info, plan.stageInfo stage = some info ∧
      Obtains plan plan₁ stage op sourceSide info ref := by
  obtain ⟨info, hinfo, h⟩ := Except.bind_eq_ok.mp h
  rw [PathExpansionPlan.getStageInfo_eq_ok] at hinfo
  refine ⟨info, hinfo, ?_⟩
  split at h
  · next hfind =>
      cases h
      exact .inl ⟨hfind, rfl⟩
  · obtain ⟨transfer, hcreate, h⟩ := Except.bind_eq_ok.mp h
    refine .inr ⟨transfer, transfer.side sourceSide, freshFor_createFromTemplate hcreate, ?_⟩
    rw [setSide_side]
    cases h
    rfl

theorem adaptTransferOp_spec {state state' : EndsState R} {stage : StageRef} {op : Op R}
    {flow : DataFlow R} {flowIdx k : Nat} {place : BoundaryPlace R} {sourceSide : Bool}
    {edge : EdgeInfo} {resources : Option R × Option R}
    (h : adaptTransferOp state stage op flow flowIdx k place sourceSide edge resources = .ok state')
    (hvalid : state.fifos.Valid state.plan) (hop : op.isFifoOp = false) :
    ∃ change : SideChange R,
      AdaptsSide change state state' stage op sourceSide place.isFifo flowIdx k := by
  obtain ⟨tile, -, h⟩ := Except.bind_eq_ok.mp h
  split at h
  · cases h
  · obtain ⟨⟨spec, slot, fifos, plan₀⟩, hplace, h⟩ := Except.bind_eq_ok.mp h
    obtain ⟨⟨ref, plan₁⟩, hobtain, h⟩ := Except.bind_eq_ok.mp h
    obtain ⟨transfer, htransfer, h⟩ := Except.bind_eq_ok.mp h
    obtain ⟨resource, -, h⟩ := Except.bind_eq_ok.mp h
    obtain ⟨transfer', hretarget, h⟩ := Except.bind_eq_ok.mp h
    obtain ⟨info₁, hinfo₁, h⟩ := Except.bind_eq_ok.mp h
    have hgrow := specsGrow_placeResource hplace
    obtain ⟨hvalid₀, hspec⟩ := placeResource_spec hplace hvalid
    obtain ⟨info, hinfo, hobtains⟩ := transferFor_obtains sourceSide hobtain
    rw [getTransfer_eq_ok] at htransfer
    rw [PathExpansionPlan.getStageInfo_eq_ok] at hinfo₁
    obtain ⟨side, rfl, hside⟩ := retargetSide_spec hretarget
    obtain ⟨hadapt, hkind⟩ := kind_adaptTransfers info₁
    have hnot : op.isFifoOp → info₁.adaptTransfers.kind = .adaptFifoKinds := by simp [hop]
    obtain ⟨change, -, -, hchange, -, happly⟩ := hobtains.applies (by rw [hinfo, Option.getD_some])
      htransfer (by rw [hside]; rfl) hinfo₁ (hkind.imp id .inr) hnot
    rw [← hadapt] at happly
    cases h
    refine ⟨change, happly.of_specsGrow hgrow, ?_, ?_, spec, hchange ▸ hside, ?_⟩
    · exact fun key ref hget => happly.specs ref true (hvalid₀ key ref hget)
    · rw [hchange, side_setSide]
    · exact happly.specs spec _ hspec

/-- The boundary at an end of a flow. -/
def endBoundary (flow : DataFlow R) (isProducer : Bool) : Nat :=
  if isProducer then 0 else flow.chain.length

/-- An end of a flow either uses the carrier as it is, or has one side of its transfer pointed at
the place there. -/
theorem adaptEnd_cases {archGraph : RoutingGraph R} {stage : StageRef} {op : Op R}
    {state state' : EndsState R} {flowIdx : Nat} {isProducer : Bool}
    (h : adaptEnd archGraph stage op state flowIdx isProducer = .ok state')
    (hvalid : state.fifos.Valid state.plan) :
    ∃ flow place, state.flows[flowIdx]? = some flow ∧
      boundaryPlace archGraph flow (endBoundary flow isProducer) = .ok place ∧
      (carrierInPlace flow place = true ∧ SpecsGrow state.plan state'.plan ∧
          state'.fifos.Valid state'.plan ∧ (∃ carrier, state'.flows =
            setCarrier state.flows flowIdx (endBoundary flow isProducer) carrier) ∨
        carrierInPlace flow place = false ∧ ∃ change : SideChange R,
          (op.isFifoOp → change.isNew = true) ∧
          AdaptsSide change state state' stage op (!isProducer) place.isFifo flowIdx
            (endBoundary flow isProducer)) := by
  unfold adaptEnd at h
  split at h
  · cases h
  · next flow hflow =>
      obtain ⟨info, hinfo, h⟩ := Except.bind_eq_ok.mp h
      obtain ⟨place, hplace, h⟩ := Except.bind_eq_ok.mp h
      refine ⟨flow, place, hflow, hplace, ?_⟩
      split at h
      · next hin =>
          obtain ⟨side, -, h⟩ := Except.bind_eq_ok.mp h
          obtain ⟨⟨ref, plan⟩, hcreate, h⟩ := Except.bind_eq_ok.mp h
          have hgrow : SpecsGrow state.plan plan := by
            unfold PathExpansionPlan.createExistingValue at hcreate
            split at hcreate
            · cases hcreate
              exact specsGrow_addSpec _ _
            · cases hcreate
          cases h
          exact .inl ⟨hin, hgrow, hvalid.mono hgrow, _, rfl⟩
      · next hnot =>
          rw [Bool.not_eq_true] at hnot
          obtain ⟨edge, -, h⟩ := Except.bind_eq_ok.mp h
          refine .inr ⟨hnot, ?_⟩
          split at h
          · split at h
            · cases h
            · next hop =>
                rw [Bool.not_eq_true] at hop
                obtain ⟨change, hchange⟩ := adaptTransferOp_spec h hvalid hop
                exact ⟨change, by simp [hop], hchange⟩
          · split at h
            · cases h
            · split at h
              · next hop =>
                  obtain ⟨change, hnew, hchange⟩ := adaptFifoOp_spec h hvalid hop
                  exact ⟨change, fun _ => hnew, hchange⟩
              · next hop =>
                  rw [Bool.not_eq_true] at hop
                  obtain ⟨change, hchange⟩ := adaptTransferOp_spec h hvalid hop
                  exact ⟨change, by simp [hop], hchange⟩

/-- What every end of a flow keeps, `adaptFlowEnds` keeps. -/
theorem adaptFlowEnds_induction {archGraph : RoutingGraph R} {P : EndsState R → Prop}
    {pipeline : StagePipeline R} {stages : List StageRef} {state state' : EndsState R}
    (h : adaptFlowEnds pipeline stages archGraph state = .ok state')
    (hstart : P { state with flows := state.flows.map DataFlow.resizeCarriers })
    (hstep : ∀ stage ∈ stages, ∀ stageOp, pipeline.operation stage = some stageOp →
      ∀ op ∈ endOps stageOp, ∀ flowEnd ∈ opEnds (state.flows.map DataFlow.resizeCarriers) op,
        ∀ state₁ state₂, P state₁ →
          adaptEnd archGraph stage op state₁ flowEnd.1 flowEnd.2 = .ok state₂ → P state₂) :
    P state' := by
  refine Except.foldlM_induction h hstart fun state₁ stage hstage state₂ hP h₁ => ?_
  unfold adaptStage at h₁
  split at h₁
  · cases h₁
    exact hP
  · next stageOp hop =>
      refine Except.foldlM_induction h₁ hP fun state₃ op hmem state₄ hP h₃ => ?_
      exact Except.foldlM_induction h₃ hP fun state₅ flowEnd hend state₆ hP h₅ =>
        hstep stage hstage stageOp hop op hmem flowEnd hend state₅ state₆ hP h₅

/-! ## FIFOs between original stages -/

omit [DecidableEq R] in
theorem endpointTransfer_obtains {plan plan₁ : PathExpansionPlan R} {endpoint : FifoEndpoint R}
    {info : StageMaterializationInfo R} {edge : EdgeInfo} {resources : Option R × Option R}
    {fifoSpec : SpecRef} {slotIdx : Nat} {isConsumer : Bool} {ref : TransferRef}
    (h : endpointTransfer plan endpoint info edge resources fifoSpec slotIdx isConsumer =
      .ok (ref, plan₁)) :
    Obtains plan plan₁ endpoint.stage endpoint.op isConsumer info ref := by
  unfold endpointTransfer at h
  split at h
  · next hfind =>
      cases h
      exact .inl ⟨hfind, rfl⟩
  · split at h
    · obtain ⟨transfer, hcreate, h⟩ := Except.bind_eq_ok.mp h
      refine .inr ⟨transfer, transfer.side isConsumer, freshFor_createFromTemplate hcreate, ?_⟩
      rw [setSide_side]
      cases h
      rfl
    · next hop =>
        rw [Bool.not_eq_true] at hop
        obtain ⟨fresh, side, hfresh, -, hcreate⟩ := createFromFifoOp_eq hop edge resources.1
          resources.2 fifoSpec slotIdx isConsumer
        refine .inr ⟨fresh, side, hfresh, ?_⟩
        rw [← hcreate]
        cases h
        rfl

omit [DecidableEq R] in
/-- `retargetEndpoint` changes one side of the endpoint's transfer. -/
theorem retargetEndpoint_spec {plan plan' : PathExpansionPlan R} {endpoint : FifoEndpoint R}
    {edge : EdgeInfo} {units : R × R} {fifoSpec : SpecRef} {slotIdx : Nat} {isConsumer : Bool}
    (h : retargetEndpoint plan endpoint edge units fifoSpec slotIdx isConsumer = .ok plan') :
    ∃ change : SideChange R, change.side.resource = some fifoSpec ∧
      change.Applies plan plan' endpoint.stage endpoint.op isConsumer := by
  obtain ⟨⟨ref, plan₁⟩, hobtain, h⟩ := Except.bind_eq_ok.mp h
  obtain ⟨transfer, htransfer, h⟩ := Except.bind_eq_ok.mp h
  obtain ⟨info₁, hinfo₁, h⟩ := Except.bind_eq_ok.mp h
  rw [getTransfer_eq_ok] at htransfer
  rw [PathExpansionPlan.getStageInfo_eq_ok] at hinfo₁
  obtain ⟨hadapt, hkind, hfifo⟩ := kind_adaptFifos info₁ (!endpoint.op.isDataTransfer)
  have hop : endpoint.op.isFifoOp →
      (info₁.adaptFifos !endpoint.op.isDataTransfer).kind = .adaptFifoKinds := by
    intro hop
    exact hfifo (by rw [not_isDataTransfer_of_isFifoOp hop]; rfl)
  have hside : TransferSide.resource
      { transfer.side isConsumer with resource := some fifoSpec, slotIndex := slotIdx } =
        some fifoSpec := rfl
  obtain ⟨change, -, -, hchange, -, happly⟩ := (endpointTransfer_obtains hobtain).applies rfl
    htransfer (Option.isSome_of_eq_some hside) hinfo₁ (hkind.imp id .inl) hop
  rw [← hadapt] at happly
  cases h
  exact ⟨change, by rw [hchange], happly⟩

/-- What retargeting an endpoint keeps, and owning one more spec, retyping FIFOs keeps. -/
theorem retypeFifos_induction_addSpec {archGraph : RoutingGraph R} {P : PathExpansionPlan R → Prop}
    {endpoints : FifoEndpoints R} {plan plan' : PathExpansionPlan R}
    {retyped : List (Value R)}
    (h : retypeFifosBetweenOriginalStages endpoints archGraph plan = .ok (plan', retyped))
    (hstart : P plan)
    (hadd : ∀ (plan₁ : PathExpansionPlan R) (spec : PrivateResourceSpec R), P plan₁ →
      P (plan₁.addSpec spec).2)
    (hslot : ∀ allocs, endpoints.producers.foldlM (classifySlot endpoints plan) [] = .ok allocs →
      ∀ alloc ∈ allocs, alloc.needsRetype → ∀ slot ∈ alloc.slots,
        ∀ fifoSpec numSlots units plan₁ plan₂, P plan₁ →
          retypeSlot archGraph fifoSpec numSlots units plan₁ slot = .ok plan₂ → P plan₂) :
    P plan' := by
  obtain ⟨allocs, hallocs, h⟩ := Except.bind_eq_ok.mp h
  obtain ⟨_, hfold, hend⟩ := Except.bind_eq_ok.mp h
  cases hend
  refine Except.foldlM_induction hfold hstart fun plan₁ alloc halloc plan₂ hP h₁ => ?_
  unfold retypeAlloc at h₁
  split at h₁
  · cases h₁
    exact hP
  · next hneeds =>
      rw [Bool.not_eq_true', Bool.not_eq_false] at hneeds
      split at h₁
      · cases h₁
        exact hP
      · split at h₁
        · cases h₁
        · obtain ⟨⟨elementsPerSlot, elementType⟩, -, h₁⟩ := Except.bind_eq_ok.mp h₁
          refine Except.foldlM_induction h₁ (hadd _ _ hP) ?_
          exact fun plan₃ slot hmem plan₄ hP h₃ =>
            hslot allocs hallocs alloc halloc hneeds slot hmem _ _ _ plan₃ plan₄ hP h₃

/-- What retargeting an endpoint keeps, retyping FIFOs keeps. Specs may be owned in between. -/
theorem retypeFifos_induction {archGraph : RoutingGraph R} {P : PathExpansionPlan R → Prop}
    {endpoints : FifoEndpoints R} {plan plan' : PathExpansionPlan R}
    {retyped : List (Value R)}
    (h : retypeFifosBetweenOriginalStages endpoints archGraph plan = .ok (plan', retyped))
    (hstart : P plan)
    (hgrow : ∀ plan₁ plan₂, P plan₁ → SpecsGrow plan₁ plan₂ → P plan₂)
    (hslot : ∀ allocs, endpoints.producers.foldlM (classifySlot endpoints plan) [] = .ok allocs →
      ∀ alloc ∈ allocs, alloc.needsRetype → ∀ slot ∈ alloc.slots,
        ∀ fifoSpec numSlots units plan₁ plan₂, P plan₁ →
          retypeSlot archGraph fifoSpec numSlots units plan₁ slot = .ok plan₂ → P plan₂) :
    P plan' :=
  retypeFifos_induction_addSpec h hstart
    (fun plan₁ spec hP => hgrow _ _ hP (specsGrow_addSpec plan₁ spec)) hslot

omit [DecidableEq R] in
/-- Both ends of a slot are retargeted, one after the other. -/
theorem retypeSlot_cases [DecidableEq R] {archGraph : RoutingGraph R} {fifoSpec : SpecRef}
    {numSlots : Nat} {units : R × R} {plan plan' : PathExpansionPlan R} {slot : SlotToRetype R}
    (h : retypeSlot archGraph fifoSpec numSlots units plan slot = .ok plan') :
    ∃ plan₁, ∃ change change' : SideChange R,
      change.Applies plan plan₁ slot.producer.stage slot.producer.op false ∧
        change'.Applies plan₁ plan' slot.consumer.stage slot.consumer.op true ∧
          change.side.resource = some fifoSpec ∧ change'.side.resource = some fifoSpec := by
  obtain ⟨_, -, h⟩ := Except.bind_eq_ok.mp h
  obtain ⟨edge, -, h⟩ := Except.bind_eq_ok.mp h
  obtain ⟨plan₁, hproducer, h⟩ := Except.bind_eq_ok.mp h
  obtain ⟨change, hside, happly⟩ := retargetEndpoint_spec hproducer
  obtain ⟨change', hside', happly'⟩ := retargetEndpoint_spec h
  exact ⟨plan₁, change, change', happly, happly', hside, hside'⟩

end Ends

/-! ## Hop stages -/

theorem fillSide_spec {plan : PathExpansionPlan R} {side side' : TransferSide R}
    (h : fillSide plan side = .ok side') :
    side.resource.isSome ∧ side'.resource = side.resource := by
  unfold fillSide at h
  split at h
  · cases h
  · next ref hresource =>
      obtain ⟨spec, -, h⟩ := Except.bind_eq_ok.mp h
      obtain ⟨sizes, -, h⟩ := Except.bind_eq_ok.mp h
      cases h
      exact ⟨by rw [hresource]; rfl, rfl⟩

/-- The transfer of a hop stage: no template, and new buffers, FIFOs or existing memrefs on both
sides. -/
structure TransferMaterializationInfo.IsHop (transfer : TransferMaterializationInfo R) : Prop where
  template : transfer.templateOp = none
  mode : transfer.transferMode = .copy
  resource : ∀ sourceSide, (transfer.side sourceSide).resource.isSome

/-- A hop stage gets one more transfer, from the carrier before it to the carrier after it. -/
theorem hopTransfer_spec {archGraph : RoutingGraph R} {flow : DataFlow R} {k : Nat}
    {planned planned' : PathExpansionPlan R × List TransferRef}
    (h : hopTransfer archGraph flow planned k = .ok planned') :
    ∃ stage info, ∃ transfer : TransferMaterializationInfo R, flow.chain[k]? = some stage ∧
      planned.1.stageInfo stage = some info ∧ transfer.IsHop ∧
        planned'.1 = (planned.1.pushTransfer stage info transfer).2 ∧
        planned'.2 = planned.2 ++ [planned.1.transfers.length] := by
  unfold hopTransfer at h
  split at h
  · next source dest stage _ _ _ _ hstage _ _ =>
      obtain ⟨_, -, h⟩ := Except.bind_eq_ok.mp h
      obtain ⟨_, -, h⟩ := Except.bind_eq_ok.mp h
      obtain ⟨transfer, hcreate, h⟩ := Except.bind_eq_ok.mp h
      obtain ⟨info, hinfo, h⟩ := Except.bind_eq_ok.mp h
      rw [PathExpansionPlan.getStageInfo_eq_ok] at hinfo
      obtain ⟨source', hsource, hcreate⟩ := Except.bind_eq_ok.mp hcreate
      obtain ⟨dest', hdest, hcreate⟩ := Except.bind_eq_ok.mp hcreate
      cases hcreate
      cases h
      refine ⟨stage, info, _, hstage, hinfo, ⟨rfl, rfl, fun sourceSide => ?_⟩, rfl, rfl⟩
      cases sourceSide with
      | false =>
          obtain ⟨hsome, heq⟩ := fillSide_spec hdest
          exact heq ▸ hsome
      | true =>
          obtain ⟨hsome, heq⟩ := fillSide_spec hsource
          exact heq ▸ hsome
  · cases h

/-- Only modes of transfers change. -/
structure SameButModes (plan plan' : PathExpansionPlan R) : Prop where
  stageInfo : plan'.stageInfo = plan.stageInfo
  specs : plan'.specs = plan.specs
  transfers : plan'.transfers.map (fun t => { t with transferMode := .copy }) =
    plan.transfers.map fun t => { t with transferMode := .copy }

theorem sameButModes_setTransferMode (plan : PathExpansionPlan R) (ref : TransferRef)
    (mode : TransferMode) : SameButModes plan (plan.setTransferMode ref mode) where
  stageInfo := rfl
  specs := rfl
  transfers := by
    refine List.ext_getElem? fun i => ?_
    simp only [PathExpansionPlan.setTransferMode, List.getElem?_map, List.getElem?_modify]
    cases plan.transfers[i]? with
    | none => rfl
    | some t =>
        by_cases href : ref = i
        · simp [href]
        · simp [href]

theorem SameButModes.trans {plan₁ plan₂ plan₃ : PathExpansionPlan R}
    (h₁₂ : SameButModes plan₁ plan₂) (h₂₃ : SameButModes plan₂ plan₃) : SameButModes plan₁ plan₃ :=
  ⟨h₂₃.stageInfo.trans h₁₂.stageInfo, h₂₃.specs.trans h₁₂.specs,
    h₂₃.transfers.trans h₁₂.transfers⟩

theorem sameButModes_assignTransferMode (plan : PathExpansionPlan R) (flow : DataFlow R)
    (transfers : List TransferRef) (producerTransfer : Option TransferRef) :
    SameButModes plan (assignTransferMode plan flow transfers producerTransfer) := by
  unfold assignTransferMode
  split
  · exact ⟨rfl, rfl, rfl⟩
  · split
    · exact ⟨rfl, rfl, rfl⟩
    · refine SameButModes.trans ?_ (sameButModes_setTransferMode _ _ _)
      split
      · split
        · exact sameButModes_setTransferMode _ _ _
        · exact ⟨rfl, rfl, rfl⟩
      · exact ⟨rfl, rfl, rfl⟩

/-- What setting an inner carrier, giving a hop stage its transfer and assigning modes keep, populating the
hop stages keeps. -/
theorem populateHopStageTransfers_induction_place [DecidableEq R] {archGraph : RoutingGraph R}
    {P : EndsState R → Prop} {state state' : EndsState R}
    (h : populateHopStageTransfers archGraph state = .ok state') (hstart : P state)
    (hcarrier : ∀ s₀ flow₀ flowIdx, P s₀ → s₀.flows[flowIdx]? = some flow₀ →
      ∀ k ∈ List.range' 1 (flow₀.chain.length - 1), ∀ s flow place tile ref slot fifos plan carrier,
        P s → s.flows[flowIdx]? = some flow →
          placeResource s flow place tile false = .ok (ref, slot, fifos, plan) →
            P ⟨plan, setCarrier s.flows flowIdx k carrier, fifos, s.hops⟩)
    (hhop : ∀ s flow stage info transfer, P s → flow ∈ s.flows → stage ∈ flow.chain →
      s.plan.stageInfo stage = some info → transfer.IsHop →
        P { s with plan := (s.plan.pushTransfer stage info transfer).2 })
    (hmode : ∀ s plan hops, P s → SameButModes s.plan plan →
      P { s with plan := plan, hops := hops }) : P state' := by
  refine Except.foldlM_induction h hstart fun state₁ flowIdx _ state₂ hP h₁ => ?_
  unfold populateFlow at h₁
  split at h₁
  · cases h₁
  · next flow₀ hflow₀ =>
    split at h₁
    · cases h₁
      exact hP
    · obtain ⟨state₃, hinner, h₁⟩ := Except.bind_eq_ok.mp h₁
      have hP₃ : P state₃ := by
        obtain ⟨tile, -, hinner⟩ := Except.bind_eq_ok.mp hinner
        split at hinner
        · refine Except.foldlM_induction hinner hP fun s k hk s' hPs h => ?_
          unfold innerCarrier at h
          split at h
          · cases h
          · next flow hflow =>
            obtain ⟨place, -, h⟩ := Except.bind_eq_ok.mp h
            obtain ⟨⟨spec, slot, fifos, plan⟩, hplace, h⟩ := Except.bind_eq_ok.mp h
            obtain ⟨resource, -, h⟩ := Except.bind_eq_ok.mp h
            obtain ⟨carrier, -, h⟩ := Except.bind_eq_ok.mp h
            cases h
            exact hcarrier state₁ flow₀ flowIdx hP hflow₀ k hk s flow place _ spec slot fifos plan
              carrier hPs hflow hplace
        · split at hinner
          · cases hinner
          · cases hinner
            exact hP
      split at h₁
      · cases h₁
      · next flow hflow =>
          obtain ⟨⟨plan, hops⟩, hhops, h₁⟩ := Except.bind_eq_ok.mp h₁
          obtain ⟨info, -, hhops⟩ := Except.bind_eq_ok.mp hhops
          obtain ⟨⟨plan₄, transfers⟩, hfold, hhops⟩ := Except.bind_eq_ok.mp hhops
          have hP₄ : P { state₃ with plan := plan₄ } := by
            refine Except.foldlM_induction (P := fun planned => P { state₃ with plan := planned.1 })
              hfold hP₃ fun planned k _ planned' hP h => ?_
            obtain ⟨stage, info, transfer, hstage, hinfo, htransfer, hplan, -⟩ := hopTransfer_spec h
            rw [hplan]
            exact hhop { state₃ with plan := planned.1 } flow stage info transfer hP
              (List.mem_of_getElem? hflow) (List.mem_of_getElem? hstage) hinfo htransfer
          cases hhops
          cases h₁
          exact hmode { state₃ with plan := plan₄ } _ _ hP₄ (sameButModes_assignTransferMode ..)

/-- What setting a carrier, giving a hop stage its transfer and assigning modes keep, populating the
hop stages keeps. -/
theorem populateHopStageTransfers_induction [DecidableEq R] {archGraph : RoutingGraph R}
    {P : EndsState R → Prop} {state state' : EndsState R}
    (h : populateHopStageTransfers archGraph state = .ok state') (hstart : P state)
    (hcarrier : ∀ s plan fifos flowIdx k carrier, P s → SpecsGrow s.plan plan →
      P ⟨plan, setCarrier s.flows flowIdx k carrier, fifos, s.hops⟩)
    (hhop : ∀ s flow stage info transfer, P s → flow ∈ s.flows → stage ∈ flow.chain →
      s.plan.stageInfo stage = some info → transfer.IsHop →
        P { s with plan := (s.plan.pushTransfer stage info transfer).2 })
    (hmode : ∀ s plan hops, P s → SameButModes s.plan plan →
      P { s with plan := plan, hops := hops }) : P state' :=
  populateHopStageTransfers_induction_place h hstart
    (fun _ _ _ _ _ _ _ _ _ _ _ _ _ _ _ _ hP _ hplace =>
      hcarrier _ _ _ _ _ _ hP (specsGrow_placeResource hplace)) hhop hmode

end PathExpansion

end DataflowScheduler
