import Crabka.Kraft.Log.Divergence
import Crabka.Metadata.ReservationRuns

/-!
# A leader serves a Fetch

`Inbound::Fetch` in `on_inbound` of `crates/raft/src/kraft/controller.rs`, with `execute`, `advance_and_apply`,
`maybe_snapshot_and_prune` and `write_downgrade_snapshot_and_prune`. A Fetch that the core accepts keeps the log end
and never lowers the high watermark; only batches below a snapshot are pruned (`fetch_keeps_log`). For one that
diverges, `execute` runs the `TruncateTo` that is meant for the follower on the leader's log (`fetch_shortens_log`).
-/

namespace Crabka.Kraft
open Metadata List
open KraftLog hiding rec

/-! ## The engine -/

/-- What the disk and a pending removal of the leader decide: how many of the pending downgrade snapshots are written,
whether the periodic one is, and whether the node still leads. -/
structure AdvanceOutcome where
  downgradesWritten : ℕ := 0
  checkpointWritten : Bool := true
  stillLeader : Bool := true

/-- What serving a Fetch reads or writes. `downgradeEnds` are the ends of the committed `metadata.version` downgrades
whose snapshot is not written: first that of `downgrade_snapshot_pending`, then those that the replay after it finds
again. `checkpoints` are the ends of all written snapshots. -/
structure ServingEngine where
  core : QuorumStateMachine
  leader : LeaderEngine
  snapshotIntervalRecords : ℕ := 0
  lastSnapshotEndOffset : ℤ := 0
  downgradeEnds : List ℤ := []
  checkpoints : List ℤ := []

/-- The batches of a log that a reader can see. -/
def KraftLog.stored {ρ : Type} (log : KraftLog ρ) : List (RecordBatch ρ) :=
  log.batchesFrom log.logStartOffset

/-- The record lowers the finalized `metadata.version`. -/
def isMetadataVersionDowngrade (I : MetadataImage) : MetadataRecord → Bool
  | .v1FeatureLevel f =>
    f.name == metadataVersionFeature && I.finalizedMetadataVersion.any (f.level < ·)
  | _ => false

def committedDowngrade (scan : Scan) (I : MetadataImage) (kr : KraftMetadataRecord) : Bool :=
  match fromKraft scan kr I with
  | .ok rec => I.accepts rec && isMetadataVersionDowngrade I rec
  | .error _ => false

def downgradesIn (scan : Scan) : MetadataImage → List (ℤ × KraftMetadataRecord) → List ℤ
  | _, [] => []
  | I, (offset, kr) :: rest =>
    (if committedDowngrade scan I kr then [offset + 1] else []) ++
      downgradesIn scan (commitValue scan I kr).1 rest

namespace ServingEngine
variable (scan : Scan) (env : AdvanceOutcome) (e : ServingEngine)

abbrev log : KraftLog KraftMetadataRecord := e.leader.log

/-- `write_checkpoint` and `prune_to_snapshot`. -/
def pruneToSnapshot (endOffset : ℤ) : ServingEngine :=
  { e with
    leader := { e.leader with log := e.log.pruneTo endOffset }
    lastSnapshotEndOffset := endOffset
    checkpoints := e.checkpoints ++ [endOffset] }

/-- `committed_records_since_snapshot`, negative differences being zero. -/
def committedRecordsSinceSnapshot : ℕ := (e.log.hwm - e.lastSnapshotEndOffset).toNat

def maybeSnapshotAndPrune : ServingEngine :=
  if !e.downgradeEnds.isEmpty || e.snapshotIntervalRecords == 0 || !env.stillLeader then e
  else if e.snapshotIntervalRecords ≤ e.committedRecordsSinceSnapshot && env.checkpointWritten then
    e.pruneToSnapshot e.log.hwm
  else e

/-- `retry_pending_downgrade_snapshot`: one snapshot after the other, until one cannot be written. The
reload of the image is left out. -/
def retryPendingDowngradeSnapshot : ServingEngine :=
  let pruned := (e.downgradeEnds.take env.downgradesWritten).foldl pruneToSnapshot e
  { pruned with downgradeEnds := e.downgradeEnds.drop env.downgradesWritten }

/-- The downgrades that an advance to `newHwm` commits. -/
def newDowngrades (newHwm : ℤ) : List ℤ :=
  downgradesIn scan e.leader.image <|
    (e.leader.batchesBetween e.log.hwm (e.log.advanceHwm newHwm).hwm).flatMap fun b =>
      b.records.map fun r => (b.baseOffset + r.offsetDelta, r.payload)

/-- The engine after the records of an advance were applied, before snapshots are written. -/
def applied (newHwm : ℤ) : ServingEngine :=
  { e with
    leader := e.leader.advanceAndApply scan newHwm
    downgradeEnds := e.downgradeEnds ++ e.newDowngrades scan newHwm }

def advanceAndApply (newHwm : ℤ) : ServingEngine :=
  let retried := if (e.newDowngrades scan newHwm).isEmpty then e.applied scan newHwm
    else (e.applied scan newHwm).retryPendingDowngradeSnapshot env
  retried.maybeSnapshotAndPrune env

/-- `execute` for the actions that a Fetch can give. -/
def executeOne (a : Action) : ServingEngine :=
  match a with
  | .advanceHighWatermark n => e.advanceAndApply scan env n
  | .truncateTo point =>
    match e.log.truncateTo point.offset with
    | .ok log => { e with leader := { e.leader with log } }
    | .error _ => e
  | _ => e

/-- `on_inbound` for a Fetch, up to the answer. -/
def onInboundFetch (src : NodeId) (fetchEpoch : ℕ) (fetchOffset : ℤ) : ServingEngine :=
  let out := e.core.onEvent (.receiveFetch src fetchEpoch fetchOffset) e.log.view 0
  out.2.foldl (executeOne scan env) { e with core := out.1 }

/-- The offsets that snapshots written in an advance to `newHwm` can end at. -/
def snapshotEnds (newHwm : ℤ) : List ℤ := newHwm :: (e.downgradeEnds ++ e.newDowngrades scan newHwm)

/-! ## What stays of the log -/

/-- `e'` has the batches of `e`, and starts where `e` does or at the end of a snapshot written since, all of which end
at the given offsets. -/
structure Pruned (e e' : ServingEngine) (ends : List ℤ) : Prop where
  base : e'.log.base = e.log.base
  batches : e'.log.batches = e.log.batches
  hwm : e'.log.hwm = e.log.hwm
  written : ∃ ws, e'.checkpoints = e.checkpoints ++ ws ∧ ws ⊆ ends ∧
    (e'.log.logStartOffset = e.log.logStartOffset ∨ e'.log.logStartOffset ∈ ws)

variable {scan env e} {e' e'' : ServingEngine} {ends : List ℤ}

lemma Pruned.refl (e : ServingEngine) (ends : List ℤ) : Pruned e e ends :=
  ⟨rfl, rfl, rfl, [], (append_nil _).symm, nil_subset _, .inl rfl⟩

lemma Pruned.trans (h : Pruned e e' ends) (h' : Pruned e' e'' ends) : Pruned e e'' ends where
  base := h'.base.trans h.base
  batches := h'.batches.trans h.batches
  hwm := h'.hwm.trans h.hwm
  written := by
    obtain ⟨ws, hws, hsub, hstart⟩ := h.written
    obtain ⟨ws', hws', hsub', hstart'⟩ := h'.written
    refine ⟨ws ++ ws', by rw [hws', hws, append_assoc], append_subset.mpr ⟨hsub, hsub'⟩, ?_⟩
    rcases hstart' with heq | hmem
    · rw [heq]
      exact hstart.imp_right (mem_append_left _)
    · exact .inr (mem_append_right _ hmem)

lemma pruned_pruneToSnapshot {endOffset : ℤ} (hmem : endOffset ∈ ends) :
    Pruned e (e.pruneToSnapshot endOffset) ends := by
  have hlog : (e.pruneToSnapshot endOffset).log = e.log.pruneTo endOffset := rfl
  have hstart : (e.log.pruneTo endOffset).logStartOffset = e.log.logStartOffset ∨
      (e.log.pruneTo endOffset).logStartOffset = endOffset := by
    unfold pruneTo
    split
    · exact .inl rfl
    · rename_i hlt
      have hbase : e.log.base ≤ e.log.logStartOffset := by
        unfold logStartOffset
        split
        · exact le_max_left _ _
        · exact le_rfl
      exact .inr (max_eq_right (hbase.trans (not_le.mp hlt).le))
  have hkept : (e.log.pruneTo endOffset).base = e.log.base ∧
      (e.log.pruneTo endOffset).batches = e.log.batches ∧
      (e.log.pruneTo endOffset).hwm = e.log.hwm := by
    unfold pruneTo
    split <;> exact ⟨rfl, rfl, rfl⟩
  refine ⟨hkept.1, hkept.2.1, hkept.2.2, [endOffset], rfl, cons_subset.mpr ⟨hmem, nil_subset _⟩, ?_⟩
  rw [hlog]
  exact hstart.imp_right mem_singleton.mpr

lemma Pruned.logEndOffset_eq (h : Pruned e e' ends) : e'.log.logEndOffset = e.log.logEndOffset := by
  unfold logEndOffset
  rw [h.batches, h.base]

lemma Pruned.stored (h : Pruned e e' ends) : ∃ ws, e'.checkpoints = e.checkpoints ++ ws ∧
    ws ⊆ ends ∧ ∀ b ∈ e.log.stored, b ∈ e'.log.stored ∨ ∃ n ∈ ws, b.lastOffset < n := by
  obtain ⟨ws, hws, hsub, hstart⟩ := h.written
  refine ⟨ws, hws, hsub, fun b hb => ?_⟩
  obtain ⟨hmem, hge⟩ := mem_filter.mp hb
  rcases hstart with heq | hend
  · left
    unfold KraftLog.stored KraftLog.batchesFrom
    rwa [heq, h.batches]
  · by_cases hlast : e'.log.logStartOffset ≤ b.lastOffset
    · exact .inl (mem_filter.mpr ⟨h.batches ▸ hmem, decide_eq_true hlast⟩)
    · exact .inr ⟨_, hend, not_le.mp hlast⟩

lemma pruned_foldl (es : List ℤ) (hsub : es ⊆ ends) (e : ServingEngine) :
    Pruned e (es.foldl pruneToSnapshot e) ends := by
  induction es generalizing e with
  | nil => exact .refl _ _
  | cons n es ih =>
    obtain ⟨hn, hes⟩ := cons_subset.mp hsub
    exact (pruned_pruneToSnapshot hn).trans (ih hes (e.pruneToSnapshot n))

lemma pruned_retry (hsub : e.downgradeEnds ⊆ ends) :
    Pruned e (e.retryPendingDowngradeSnapshot env) ends :=
  have h := pruned_foldl (e.downgradeEnds.take env.downgradesWritten) (fun _ hn => hsub (mem_of_mem_take hn)) e
  ⟨h.base, h.batches, h.hwm, h.written⟩

lemma pruned_maybeSnapshot (hmem : e.log.hwm ∈ ends) : Pruned e (e.maybeSnapshotAndPrune env) ends := by
  unfold maybeSnapshotAndPrune
  split
  · exact .refl _ _
  · split
    · exact pruned_pruneToSnapshot hmem
    · exact .refl _ _

lemma log_advanceAndApply (l : LeaderEngine) (newHwm : ℤ) :
    (l.advanceAndApply scan newHwm).log = l.log.advanceHwm newHwm :=
  (LeaderEngine.applied_applyBatches { l with log := l.log.advanceHwm newHwm }
    (l.batchesBetween l.log.hwm (l.log.advanceHwm newHwm).hwm)).log

lemma hwm_advanceHwm_self (log : KraftLog KraftMetadataRecord) (n : ℤ) :
    (log.advanceHwm (log.advanceHwm n).hwm).hwm = (log.advanceHwm n).hwm := by
  unfold advanceHwm
  simp only
  omega

lemma pruned_advanceAndApply (scan : Scan) (env : AdvanceOutcome) (e : ServingEngine) (newHwm : ℤ) :
    Pruned (e.applied scan newHwm) (e.advanceAndApply scan env newHwm)
      (e.snapshotEnds scan (e.log.advanceHwm newHwm).hwm) := by
  have hfound : e.newDowngrades scan (e.log.advanceHwm newHwm).hwm = e.newDowngrades scan newHwm := by
    unfold newDowngrades
    rw [hwm_advanceHwm_self]
  have hlog : (e.applied scan newHwm).log = e.log.advanceHwm newHwm :=
    log_advanceAndApply e.leader newHwm
  have hsub : (e.applied scan newHwm).downgradeEnds ⊆ e.snapshotEnds scan (e.log.advanceHwm newHwm).hwm := by
    intro n hn
    unfold snapshotEnds
    rw [hfound]
    exact mem_cons_of_mem _ hn
  have hretried : Pruned (e.applied scan newHwm) (if (e.newDowngrades scan newHwm).isEmpty then
      e.applied scan newHwm else (e.applied scan newHwm).retryPendingDowngradeSnapshot env)
      (e.snapshotEnds scan (e.log.advanceHwm newHwm).hwm) := by
    split
    · exact .refl _ _
    · exact pruned_retry hsub
  refine hretried.trans (pruned_maybeSnapshot ?_)
  rw [hretried.hwm, hlog]
  exact mem_cons_self

lemma handleFetch_of_accepted {m : QuorumStateMachine} (hlead : m.role.isLeader)
    {view : LogView} {fetchEpoch : ℕ} {fetchOffset : ℤ}
    (hagree : QuorumStateMachine.divergence view fetchEpoch fetchOffset = none) (src : NodeId) :
    (m.handleFetch view src fetchEpoch fetchOffset).2 = [] ∨
      ∃ n, (m.handleFetch view src fetchEpoch fetchOffset).2 = [.advanceHighWatermark n] := by
  unfold QuorumStateMachine.handleFetch
  cases hrole : m.role with
  | leader replicas hwm start =>
    simp only [hagree]
    split
    · exact .inr ⟨_, rfl⟩
    · exact .inl rfl
  | _ =>
    rw [hrole] at hlead
    cases hlead

end ServingEngine

/-- **A Fetch that the leader accepts takes nothing from its log** but what a snapshot that is written
in the same step covers: the log end stays, the high watermark does not move back, and every batch is
still there or ends below such a snapshot. -/
theorem fetch_keeps_log (scan : Scan) (env : AdvanceOutcome) (e : ServingEngine)
    (hlead : e.core.role.isLeader = true) (src : NodeId) (fetchEpoch : ℕ) (fetchOffset : ℤ)
    (hagree : QuorumStateMachine.divergence e.log.view fetchEpoch fetchOffset = none) :
    let e' := e.onInboundFetch scan env src fetchEpoch fetchOffset
    e'.log.logEndOffset = e.log.logEndOffset ∧ e.log.hwm ≤ e'.log.hwm ∧
      ∃ written, e'.checkpoints = e.checkpoints ++ written ∧
        written ⊆ e.snapshotEnds scan e'.log.hwm ∧
        ∀ b ∈ e.log.stored, b ∈ e'.log.stored ∨ ∃ n ∈ written, b.lastOffset < n := by
  have hout : e.core.onEvent (.receiveFetch src fetchEpoch fetchOffset) e.log.view 0 =
      e.core.handleFetch e.log.view src fetchEpoch fetchOffset := rfl
  simp only [ServingEngine.onInboundFetch, hout]
  rcases ServingEngine.handleFetch_of_accepted hlead hagree src with hnone | ⟨n, hone⟩
  · rw [hnone]
    exact ⟨rfl, le_rfl, [], (append_nil _).symm, nil_subset _, fun b hb => .inl hb⟩
  · rw [hone]
    let e₁ : ServingEngine :=
      { e with core := (e.core.handleFetch e.log.view src fetchEpoch fetchOffset).1 }
    have hpruned := ServingEngine.pruned_advanceAndApply scan env e₁ n
    have hlog : (e₁.applied scan n).log = e.log.advanceHwm n :=
      ServingEngine.log_advanceAndApply e.leader n
    have hhwm : (e₁.advanceAndApply scan env n).log.hwm = (e.log.advanceHwm n).hwm :=
      hpruned.hwm.trans (congrArg hwm hlog)
    obtain ⟨written, hwritten, hsub, hstored⟩ := hpruned.stored
    rw [hlog] at hstored
    have hend := hpruned.logEndOffset_eq
    rw [hlog] at hend
    simp only [foldl_cons, foldl_nil, ServingEngine.executeOne]
    refine ⟨hend, hhwm ▸ le_max_left _ _, written, hwritten, ?_, hstored⟩
    rwa [hhwm]

/-- The leader of epoch `3`, with a batch of epoch `1` and one of its own that is not committed. -/
def servingLeader (snapshotIntervalRecords : ℕ) : ServingEngine where
  core := exampleLeader
  leader :=
    { image := MetadataImage.new 0
      log := ((({} : KraftLog KraftMetadataRecord).append (metadataRecordBatch 1 [.noOp])).1.append
        (metadataRecordBatch 3 [.noOp])).1 }
  snapshotIntervalRecords := snapshotIntervalRecords

/-- A follower that has both batches is accepted, and they are committed. -/
theorem fetch_keeps_log_committed :
    let e' := (servingLeader 0).onInboundFetch Scan.keyOrder {} 2 3 2
    e'.log.logEndOffset = (servingLeader 0).log.logEndOffset ∧ e'.log.hwm = 2 ∧
      e'.log.stored.map (·.baseOffset) = [0, 1] :=
  ⟨(fetch_keeps_log Scan.keyOrder {} (servingLeader 0) (by decide) 2 3 2 (by decide +kernel)).1,
    by decide +kernel, by decide +kernel⟩

/-- With a snapshot for every record, the same Fetch leaves no batch in the leader's log. And a Fetch
that claims the second offset for epoch `1` cuts the leader's own batch off. -/
theorem fetch_shortens_log :
    (servingLeader 1).log.stored.length = 2 ∧
      ((servingLeader 1).onInboundFetch Scan.keyOrder {} 2 3 2).log.stored = [] ∧
      (servingLeader 1).log.logEndOffset = 2 ∧
      ((servingLeader 1).onInboundFetch Scan.keyOrder {} 2 1 2).log.logEndOffset = 1 :=
  ⟨by decide +kernel, by decide +kernel⟩

end Crabka.Kraft
