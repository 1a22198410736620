import Crabka.Found.Runs
import Crabka.Log.Recovery

/-!
# Reopening a log

Closing a log leaves the segments and the snapshots, from which `Log::open` builds it again. It builds the log that was
closed (`reopen_eq_live`) when every batch is regular and fits the window that recovery reads, and no marker ends the
transaction that holds the last stable offset while another one is open (`reopen_moves_lso`). A batch that does not fit
makes the open fail (`reopen_fails`).
-/

namespace Crabka.Log
open List hiding getElem?_filter
open Found
open Std (ExtTreeMap)
open Tracked LeaderEpochCheckpoint PartitionLog
namespace PartitionLog
variable {cfg : LogConfig} {log : PartitionLog}

/-! ## The last stable offset -/

/-- The offset before which every transaction is decided. -/
def IsStable (pending : ExtTreeMap ℤ ℤ) (logEnd x : ℤ) : Prop :=
  (∀ pid : ℤ, pending[pid]? = none) ∧ x = logEnd ∨
    (∃ pid : ℤ, pending[pid]? = some x) ∧ ∀ (pid : ℤ) o, pending[pid]? = some o → x ≤ o

lemma isEmpty_iff_forall {ν : Type} {m : ExtTreeMap ℤ ν} : m.isEmpty ↔ ∀ k : ℤ, m[k]? = none := by
  rw [ExtTreeMap.isEmpty_iff]
  constructor
  · rintro rfl k
    simp
  · intro h
    refine ExtTreeMap.ext_getElem? fun {k} => ?_
    rw [h k]
    simp

variable {t : Tracked}

lemma stableOffset_eq_of_isStable {logEnd x : ℤ} (h : IsStable t.pending logEnd x) : stableOffset t logEnd = x := by
  unfold stableOffset
  rcases h with ⟨hnone, rfl⟩ | ⟨⟨pid, hpid⟩, hmin⟩
  · have hnil : t.pending.toList = [] := by
      rw [eq_nil_iff_forall_not_mem]
      rintro ⟨k, v⟩ hmem
      rw [mem_toList, hnone k] at hmem
      cases hmem
    rw [hnil]
    rfl
  · have hmin' : (t.pending.toList.map Prod.snd).min? = some x := by
      refine List.min?_eq_some_iff.mpr ⟨mem_map.mpr ⟨(pid, x), (mem_toList _).mpr hpid, rfl⟩, ?_⟩
      intro o ho
      obtain ⟨⟨k, v⟩, hmem, rfl⟩ := mem_map.mp ho
      exact hmin k v ((mem_toList _).mp hmem)
    rw [hmin']
    rfl

/-! ## Appends -/

/-- A marker does not end the transaction that holds the last stable offset while another is open. -/
def Releases (log : PartitionLog) (b : Batch) : Prop :=
  b.control.isSome = true → log.tracked.pending[b.producerId]? = some log.lso →
    (log.tracked.pending.erase b.producerId).isEmpty = true

def Fits (cfg : LogConfig) (b : Batch) : Prop := b.size + cfg.indexInterval ≤ recoveryWindow

instance (log : PartitionLog) (b : Batch) : Decidable (log.Releases b) :=
  inferInstanceAs (Decidable (_ → _ → _))

instance (cfg : LogConfig) (b : Batch) : Decidable (Fits cfg b) :=
  inferInstanceAs (Decidable (_ ≤ _))

/-- The books of a log are in step with its batches. -/
structure InStep (log : PartitionLog) : Prop where
  layout : log.Layout
  snapshots : log.Snapshots
  snapshotsLe : ∀ (offset : ℤ) state, log.snapshots[offset]? = some state → offset ≤ log.logEndOffset
  anchored : ∀ seg ∈ (log.segments ++ [log.active]).tail, ∃ state, log.snapshots[seg.base]? = some state
  tracked : log.tracked = trackOf log.batches
  below : ∀ (pid : ℤ) o, log.tracked.pending[pid]? = some o → o < log.logEndOffset
  epochs : ∀ e ∈ log.epochCheckpoint, e.startOffset < log.logEndOffset

/-- What a run keeps of a live log: trackers in step with the batches, the last stable offset, and batches that
recovery can read. -/
structure Inv (cfg : LogConfig) (log : PartitionLog) : Prop extends InStep log where
  stable : IsStable log.tracked.pending log.logEndOffset log.lso
  regular : ∀ b ∈ log.batches, b.Regular
  fits : ∀ b ∈ log.batches, Fits cfg b

lemma batches_roll (log : PartitionLog) : log.roll.batches = log.batches := by simp [batches, roll]

lemma Layout.roll (h : log.Layout) : log.roll.Layout := by
  unfold Layout at *
  refine segChain_append.mpr ⟨h, ?_, trivial, trivial⟩
  show log.logEndOffset = _
  exact Layout.logEndOffset_eq h

lemma logEndOffset_roll (log : PartitionLog) : log.roll.logEndOffset = log.logEndOffset := by
  simp [roll, logEndOffset, Segment.lastOffset]

lemma Layout.takeWhile_logEndOffset (h : log.Layout) :
    log.batches.takeWhile (·.lastOffset < log.logEndOffset) = log.batches := by
  rw [takeWhile_eq_self_iff]
  intro b hb
  have := h.laid.last_lt_endOf b hb
  rw [← h.logEndOffset_eq] at this
  simpa using this

lemma InStep.roll (h : log.InStep) : log.roll.InStep := by
  have hget : ∀ offset : ℤ, log.roll.snapshots[offset]? =
      if offset = log.logEndOffset then
        some (log.snapshots[log.logEndOffset]?.getD log.tracked.producerState)
      else log.snapshots[offset]? := fun offset => getElem?_upsert _ _ _ _ _
  have hnew : log.snapshots[log.logEndOffset]?.getD log.tracked.producerState = log.tracked.producerState := by
    cases hs : log.snapshots[log.logEndOffset]? with
    | none => rfl
    | some state =>
      rw [Option.getD_some, h.snapshots.right _ state hs le_rfl, h.layout.takeWhile_logEndOffset, h.tracked]
  have hend := logEndOffset_roll log
  have hnonneg : 0 ≤ log.logEndOffset := by
    rw [h.layout.logEndOffset_eq]
    exact h.layout.laid.start_le_endOf
  exact {
    layout := h.layout.roll
    snapshots :=
      { nonneg := fun offset state hs => by
          rw [hget] at hs
          split_ifs at hs with heq
          · exact heq ▸ hnonneg
          · exact h.snapshots.nonneg offset state hs
        right := fun offset state hs hle => by
          rw [hget, hnew] at hs
          rw [hend] at hle
          rw [batches_roll]
          split_ifs at hs with heq
          · cases hs
            rw [heq, h.layout.takeWhile_logEndOffset, h.tracked]
          · exact h.snapshots.right offset state hs hle }
    snapshotsLe := fun offset state hs => by
      rw [hget] at hs
      rw [hend]
      split_ifs at hs with heq
      · exact heq.le
      · exact h.snapshotsLe offset state hs
    anchored := by
      intro seg hseg
      have hseg' : seg ∈ (log.segments ++ [log.active]).tail ++ [({ base := log.logEndOffset } : Segment)] := by
        have htail : ((log.segments ++ [log.active]) ++
            [({ base := log.logEndOffset } : Segment)]).tail =
            (log.segments ++ [log.active]).tail ++ [({ base := log.logEndOffset } : Segment)] :=
          tail_append_of_ne_nil (by simp)
        exact htail ▸ hseg
      rw [hget]
      split
      · exact ⟨_, rfl⟩
      · rename_i hne
        rcases mem_snoc.mp hseg' with hin | hin
        · exact h.anchored seg hin
        · exact absurd (congrArg Segment.base hin) hne
    tracked := by
      rw [batches_roll]
      exact h.tracked
    below := by
      rw [hend]
      exact h.below
    epochs := by
      rw [hend]
      exact h.epochs }

lemma Inv.roll (h : Inv cfg log) : Inv cfg log.roll where
  toInStep := h.toInStep.roll
  stable := by
    rw [logEndOffset_roll]
    exact h.stable
  regular := by
    rw [batches_roll]
    exact h.regular
  fits := by
    rw [batches_roll]
    exact h.fits

lemma batches_write (log : PartitionLog) (b : Batch) (t : Tracked) : (log.write b t).batches = log.batches ++ [b] := by
  simp [batches, write]

lemma logEndOffset_write (log : PartitionLog) (b : Batch) (t : Tracked) :
    (log.write b t).logEndOffset = b.lastOffset + 1 := by
  simp [write, logEndOffset, Segment.lastOffset]

variable {b : Batch}

lemma Layout.write (h : log.Layout) (hb : b.baseOffset = log.logEndOffset)
    (t : Tracked) : (log.write b t).Layout := by
  have hsplit := segChain_append.mp h
  refine segChain_append.mpr ⟨hsplit.1, hsplit.2.1, laid_append.mpr ⟨hsplit.2.2.1, ?_, trivial⟩, trivial⟩
  rw [hb, logEndOffset_active, h.active_base]
  rfl

lemma startOffset_lt_noteEpoch {entries : LeaderEpochCheckpoint} {stop stop' epoch base : ℤ}
    (h : ∀ e ∈ entries, e.startOffset < stop) (hle : stop ≤ stop') (hbase : base < stop') :
    ∀ e ∈ entries.noteEpoch epoch base, e.startOffset < stop' := by
  intro e he
  unfold noteEpoch appendTo at he
  have hold : e ∈ entries → e.startOffset < stop' := fun hin => (h e hin).trans_le hle
  split at he
  · split at he
    · exact hold he
    · rcases mem_snoc.mp he with hin | hin
      · exact hold hin
      · rwa [hin]
  · exact hold he

lemma pending_note {pid o : ℤ} (h : (t.note b).pending[pid]? = some o) :
    t.pending[pid]? = some o ∨ b.inTransaction ∧ o = b.baseOffset ∧ t.pending[pid]? = none := by
  unfold note at h
  cases hc : b.control with
  | some c =>
    rw [hc] at h
    simp only at h
    rw [getElem?_erase] at h
    split at h
    · cases h
    · exact .inl h
  | none =>
    rw [hc] at h
    simp only at h
    split_ifs at h with htxn
    · rw [openTransaction, getElem?_upsert] at h
      split_ifs at h with heq
      · cases hp : t.pending[b.producerId]? with
        | some first =>
          rw [hp] at h
          exact .inl (heq ▸ hp ▸ h)
        | none =>
          rw [hp] at h
          refine .inr ⟨?_, (Option.some.inj h).symm, heq ▸ hp⟩
          simpa [Batch.inTransaction, hc] using htxn
      · exact .inl h
    · exact .inl h

lemma pending_note_of_some {pid o : ℤ} (h : t.pending[pid]? = some o)
    (hkeep : b.control = none ∨ pid ≠ b.producerId) : (t.note b).pending[pid]? = some o := by
  unfold note
  cases hc : b.control with
  | some c =>
    simp only
    rwa [getElem?_erase, if_neg (hkeep.resolve_left (by rw [hc]; simp))]
  | none =>
    simp only
    split
    · rw [openTransaction, getElem?_upsert]
      split_ifs with heq
      · rw [← heq, h]
        rfl
      · exact h
    · exact h

lemma IsStable.note (h : IsStable log.tracked.pending log.logEndOffset log.lso)
    (hbelow : ∀ (pid : ℤ) o, log.tracked.pending[pid]? = some o → o < log.logEndOffset)
    (hb : b.baseOffset = log.logEndOffset) (hrel : log.Releases b) :
    IsStable (log.tracked.note b).pending (b.lastOffset + 1)
      (log.advanceLso b.inTransaction (log.tracked.note b) (b.lastOffset + 1)) := by
  unfold advanceLso
  cases htxn : b.inTransaction with
  | true =>
    rw [if_pos rfl]
    obtain ⟨⟨hc, ht⟩, hpid⟩ : (b.control = none ∧ b.isTransactional) ∧ 0 ≤ b.producerId := by
      simpa [Batch.inTransaction] using htxn
    rcases h with ⟨hnone, hlso⟩ | ⟨⟨pid, hpid'⟩, hmin⟩
    · -- The batch opens the only transaction.
      refine .inr ⟨⟨b.producerId, ?_⟩, fun pid o ho => ?_⟩
      · simp only [Tracked.note, hc, ht, hpid, decide_true, Bool.and_true, if_true,
          openTransaction]
        rw [getElem?_upsert, if_pos rfl, hnone, hlso, hb]
        rfl
      · rcases pending_note ho with hold | ⟨-, rfl, -⟩
        · rw [hnone] at hold
          cases hold
        · rw [hlso, hb]
    · refine .inr ⟨⟨pid, pending_note_of_some hpid' (.inl hc)⟩, fun pid' o ho => ?_⟩
      rcases pending_note ho with hold | ⟨-, rfl, -⟩
      · exact hmin pid' o hold
      · have := hbelow pid _ hpid'
        omega
  | false =>
    rw [if_neg Bool.false_ne_true]
    have hold : ∀ (pid : ℤ) o, (log.tracked.note b).pending[pid]? = some o →
        log.tracked.pending[pid]? = some o := by
      intro pid o ho
      rcases pending_note ho with hold | ⟨hin, -⟩
      · exact hold
      · rw [htxn] at hin
        cases hin
    split
    · rename_i hempty
      exact .inl ⟨isEmpty_iff_forall.mp hempty, rfl⟩
    · rename_i hopen
      rcases h with ⟨hnone, -⟩ | ⟨⟨pid, hpid⟩, hmin⟩
      · refine absurd (isEmpty_iff_forall.mpr fun k => ?_) hopen
        cases hk : (log.tracked.note b).pending[k]? with
        | none => rfl
        | some o =>
          have := hold k o hk
          rw [hnone] at this
          cases this
      · refine .inr ⟨⟨pid, pending_note_of_some hpid ?_⟩, fun pid' o ho => hmin pid' o (hold pid' o ho)⟩
        -- The transaction that holds the offset is not the one that ends.
        cases hc : b.control with
        | none => exact .inl rfl
        | some c =>
          refine .inr fun heq => hopen ?_
          have := hrel (by rw [hc]; rfl) (heq ▸ hpid)
          simpa [Tracked.note, hc] using this

lemma exists_base_eq (segs : List Segment) {active active' : Segment}
    (hbase : active.base = active'.base) {seg : Segment} (hseg : seg ∈ (segs ++ [active']).tail) :
    ∃ seg' ∈ (segs ++ [active]).tail, seg'.base = seg.base := by
  cases segs with
  | nil => cases hseg
  | cons first rest =>
    rw [cons_append, tail_cons] at hseg ⊢
    rcases mem_snoc.mp hseg with hin | hin
    · exact ⟨seg, mem_append_left _ hin, rfl⟩
    · exact ⟨active, mem_append_cons_self, by
        rw [hin, hbase]⟩

lemma InStep.write (h : log.InStep) (hb : b.baseOffset = log.logEndOffset) :
    (log.write b (log.tracked.note b)).InStep := by
  have hend := logEndOffset_write log b (log.tracked.note b)
  have hbs := batches_write log b (log.tracked.note b)
  have hlt : log.logEndOffset < b.lastOffset + 1 := by
    have := b.base_le_last
    omega
  exact {
    layout := h.layout.write hb _
    snapshots :=
      { nonneg := h.snapshots.nonneg
        right := fun offset state hs _ => by
          have hle := h.snapshotsLe offset state hs
          rw [hbs, h.snapshots.right offset state hs hle, takeWhile_append]
          split_ifs with hall
          · rw [takeWhile_cons_of_neg, append_nil]
            · exact congrArg (fun l => (trackOf l).producerState)
                (takeWhile_sublist _ |>.eq_of_length hall)
            · simp only [decide_eq_true_eq]
              omega
          · rfl }
    snapshotsLe := fun offset state hs => by
      rw [hend]
      exact (h.snapshotsLe offset state hs).trans hlt.le
    anchored := fun seg hseg => by
      have hactive : log.active.base = (log.write b (log.tracked.note b)).active.base := rfl
      obtain ⟨seg', hseg', hbase⟩ := exists_base_eq log.segments hactive hseg
      rw [← hbase]
      exact h.anchored seg' hseg'
    tracked := by
      rw [hbs, trackOf_snoc, ← h.tracked]
      rfl
    below := fun pid o ho => by
      rw [hend]
      rcases pending_note ho with hold | ⟨-, rfl, -⟩
      · exact (h.below pid o hold).trans hlt
      · rwa [hb]
    epochs := by
      rw [hend]
      exact startOffset_lt_noteEpoch h.epochs hlt.le (by rw [hb]; exact hlt) }

lemma InStep.append (h : log.InStep) (cfg : LogConfig) (b : Batch) : (log.append cfg b).InStep := by
  unfold PartitionLog.append rollIfFull
  split
  · exact h.roll.write rfl
  · exact h.write rfl

lemma forall_mem_write {P : Batch → Prop} (h : ∀ b ∈ log.batches, P b) (hb : P b)
    (t : Tracked) : ∀ x ∈ (log.write b t).batches, P x := by
  rw [batches_write]
  intro x hx
  rcases mem_snoc.mp hx with hin | hin
  · exact h x hin
  · exact hin ▸ hb

lemma Inv.write (h : Inv cfg log) (hb : b.baseOffset = log.logEndOffset)
    (hregular : b.Regular) (hfits : Fits cfg b) (hrel : log.Releases b) :
    Inv cfg (log.write b (log.tracked.note b)) where
  toInStep := h.toInStep.write hb
  stable := by
    rw [logEndOffset_write]
    exact h.stable.note h.below hb hrel
  regular := forall_mem_write h.regular hregular _
  fits := forall_mem_write h.fits hfits _

lemma regular_atBase (h : b.Regular) (base : ℤ) : (b.atBase base).Regular :=
  ⟨h.sequence, h.epoch, h.coordinator⟩

/-- An append keeps the invariant, on both paths and over a roll. -/
lemma Inv.append (h : Inv cfg log) (hregular : b.Regular) (hfits : Fits cfg b)
    (hrel : log.Releases b) : Inv cfg (log.append cfg b) := by
  unfold PartitionLog.append rollIfFull
  split
  · exact h.roll.write rfl (regular_atBase hregular _) hfits hrel
  · exact h.write rfl (regular_atBase hregular _) hfits hrel

lemma appendVerbatim_eq_append (hdata : b.control = none) : log.appendVerbatim cfg b = log.append cfg b := by
  simp only [appendVerbatim, append]
  rwa [noteVerbatim_eq_note]

/-! ## Reopening -/

/-- The snapshots that are left when files go missing. -/
def withSnapshots (log : PartitionLog) (keep : ℤ → Bool) : PartitionLog :=
  { log with snapshots := log.snapshots.filter fun offset _ => keep offset }

lemma getElem?_withSnapshots {keep : ℤ → Bool} {offset : ℤ} {state : ProducerState}
    (h : (log.withSnapshots keep).snapshots[offset]? = some state) :
    log.snapshots[offset]? = some state := by
  unfold withSnapshots at h
  rw [getElem?_filter] at h
  exact (Option.filter_eq_some_iff.mp h).1

/-- **Reopening gives the log back**, whatever other snapshots are left, with the last stable offset computed anew. -/
theorem InStep.reopen (h : log.InStep) (hregular : ∀ b ∈ log.batches, b.Regular)
    (hfits : ∀ b ∈ log.batches, Fits cfg b) (keep : ℤ → Bool)
    (hkeep : log.segments = [] ∨ keep log.active.base) :
    (log.withSnapshots keep).reopen cfg =
      .ok { log.withSnapshots keep with lso := stableOffset log.tracked log.logEndOffset } := by
  have hanchor : (log.withSnapshots keep).Anchored := by
    rcases hkeep with hnil | hkept
    · exact .inl hnil
    · by_cases hs : log.segments = []
      · exact .inl hs
      · obtain ⟨state, hget⟩ := h.anchored log.active (by
          rw [tail_append_of_ne_nil hs]
          exact mem_append_cons_self)
        refine .inr ⟨state, ?_⟩
        show (log.snapshots.filter _)[log.active.base]? = _
        rw [getElem?_filter, hget]
        simp [hkept]
  have hepochs : log.epochCheckpoint.truncateTo log.logEndOffset = log.epochCheckpoint := by
    unfold LeaderEpochCheckpoint.truncateTo
    rw [filter_eq_self]
    exact fun e he => by simpa using h.epochs e he
  have hsnap : (log.withSnapshots keep).Snapshots :=
    { nonneg := fun o st hs => h.snapshots.nonneg o st (getElem?_withSnapshots hs)
      right := fun o st hs => h.snapshots.right o st (getElem?_withSnapshots hs) }
  have hkept : (log.withSnapshots keep).snapshots.filter
      (fun offset _ => offset ≤ log.logEndOffset) = (log.withSnapshots keep).snapshots :=
    filter_eq_self_iff.mpr fun o st hs => by
      simpa using h.snapshotsLe o st (getElem?_withSnapshots hs)
  have hrebuild := rebuild_eq cfg
    { log.withSnapshots keep with
      tracked := {}, lso := log.logEndOffset, epochCheckpoint := log.epochCheckpoint }
    h.layout ⟨hsnap.nonneg, hsnap.right⟩ hanchor hregular
    (fun b hb => hfits b (by rw [batches_eq]; exact mem_append_right _ hb))
  unfold PartitionLog.reopen
  show rebuild cfg { log.withSnapshots keep with
    tracked := {}, lso := log.logEndOffset,
    epochCheckpoint := log.epochCheckpoint.truncateTo log.logEndOffset } = _
  rw [hepochs, hrebuild]
  show Except.ok { log.withSnapshots keep with
    tracked := trackOf log.batches
    snapshots := (log.withSnapshots keep).snapshots.filter fun offset _ => offset ≤ log.logEndOffset
    lso := stableOffset (trackOf log.batches) log.logEndOffset } = _
  rw [hkept, ← h.tracked]
  rfl

lemma Inv.reopen (h : Inv cfg log) (keep : ℤ → Bool) (hkeep : log.segments = [] ∨ keep log.active.base) :
    (log.withSnapshots keep).reopen cfg = .ok (log.withSnapshots keep) := by
  rw [h.toInStep.reopen h.regular h.fits keep hkeep, stableOffset_eq_of_isStable h.stable]
  rfl

/-! ## Runs -/

/-- The calls of a live log. -/
inductive LogStep where
  /-- `append` or `append_at`. -/
  | append (b : Batch)
  /-- `append_verbatim`; control batches take the other path. -/
  | appendVerbatim (b : Batch)
  | reopen
  deriving DecidableEq

def sys (cfg : LogConfig) : Sys PartitionLog LogStep where
  enabled log
    | .append _ => True
    | .appendVerbatim b => b.control = none
    | .reopen => ((log.reopen cfg).toOption).isSome
  next log
    | .append b => log.append cfg b
    | .appendVerbatim b => log.appendVerbatim cfg b
    | .reopen => ((log.reopen cfg).toOption).getD log

instance (cfg : LogConfig) (log : PartitionLog) (l : LogStep) :
    Decidable ((sys cfg).enabled log l) := by
  cases l <;> unfold sys <;> infer_instance

/-- The batch is regular, fits the window of recovery, and does not end the transaction that holds the last stable
offset while another is open. -/
def Proper (cfg : LogConfig) (log : PartitionLog) : LogStep → Prop
  | .append b | .appendVerbatim b => b.Regular ∧ Fits cfg b ∧ log.Releases b
  | .reopen => True

instance (cfg : LogConfig) (log : PartitionLog) (l : LogStep) : Decidable (Proper cfg log l) := by
  cases l <;> unfold Proper <;> infer_instance

lemma inStep_empty : ({} : PartitionLog).InStep where
  layout := ⟨rfl, trivial, trivial⟩
  snapshots :=
    { nonneg := nofun
      right := nofun }
  snapshotsLe := nofun
  anchored := nofun
  tracked := rfl
  below := nofun
  epochs := nofun

lemma inv_empty (cfg : LogConfig) : Inv cfg {} where
  toInStep := inStep_empty
  stable := .inl ⟨fun _ => by simp, rfl⟩
  regular := nofun
  fits := nofun

lemma withSnapshots_true (log : PartitionLog) : log.withSnapshots (fun _ => true) = log := by
  unfold withSnapshots
  rw [filter_eq_self_iff.mpr fun _ _ _ => rfl]

/-- Every step of a proper run keeps the invariant. -/
lemma Inv.step (h : Inv cfg log) {l : LogStep} (hen : (sys cfg).enabled log l)
    (hok : Proper cfg log l) : Inv cfg ((sys cfg).next log l) := by
  cases l with
  | append b => exact h.append hok.1 hok.2.1 hok.2.2
  | appendVerbatim b =>
    show Inv cfg (log.appendVerbatim cfg b)
    rw [appendVerbatim_eq_append hen]
    exact h.append hok.1 hok.2.1 hok.2.2
  | reopen =>
    have hsame := h.reopen (fun _ => true) (.inr rfl)
    rw [withSnapshots_true] at hsame
    show Inv cfg ((log.reopen cfg).toOption.getD log)
    rwa [hsame]

lemma inv_of_run (hrun : (sys cfg).Run (Proper cfg) {} log) : Inv cfg log :=
  hrun.preserves (fun _ _ h hen hok => h.step hen hok) (inv_empty cfg)

/-- **Recovery gives the live log back.** In every state of a proper run, opening the directory
succeeds and yields the log that was closed, whatever snapshots are left besides that of the active
segment. -/
theorem reopen_eq_live (hrun : (sys cfg).Run (Proper cfg) {} log) (keep : ℤ → Bool)
    (hkeep : log.segments = [] ∨ keep log.active.base = true) :
    (log.withSnapshots keep).reopen cfg = .ok (log.withSnapshots keep) :=
  (inv_of_run hrun).reopen keep hkeep

def smallSegments : LogConfig := { segmentSize := 150, indexInterval := 4096 }

def txnBatch (pid : ℤ) : Batch :=
  { producerId := pid, producerEpoch := 0, baseSequence := 0, isTransactional := true, size := 100 }

def marker (pid type : ℤ) : Batch :=
  { producerId := pid, producerEpoch := 0, isTransactional := true
    control := some ⟨some type, some 0⟩, size := 78 }

/-- A transaction over two segments, and another one behind it. -/
theorem reopen_eq_live_rolled :
    let log := (sys smallSegments).execs {}
      [.append (txnBatch 1), .appendVerbatim (txnBatch 1), .append (txnBatch 2), .append (marker 2 0)]
    (log.withSnapshots fun _ => true).reopen smallSegments = .ok (log.withSnapshots fun _ => true) :=
  reopen_eq_live Sys.run_of_runsOk _ (.inr rfl)

/-- The first of two open transactions commits. The last stable offset stays at its first batch, and
reopening moves it to the other. -/
theorem reopen_moves_lso :
    let steps := [.append (txnBatch 1), .append (txnBatch 2), .append (marker 1 1)]
    let log := (sys smallSegments).execs {} steps
    (sys smallSegments).AnyRun {} log ∧ log.lso = 0 ∧ (log.reopen smallSegments).toOption.map lso = some 1 :=
  ⟨Sys.run_of_runs, by decide +kernel⟩

/-- A batch larger than the recovery window: the log cannot be opened again. -/
example :
    let log := (sys smallSegments).execs {} [.append { size := recoveryWindow + 1 }]
    (sys smallSegments).AnyRun {} log ∧ (log.reopen smallSegments).toOption = none :=
  ⟨Sys.run_of_runs, by decide +kernel⟩

/-! ## The two append paths -/

/-- `append_verbatim` of any bytes. The header fields do not tell a control batch. -/
def appendVerbatimBytes (cfg : LogConfig) (log : PartitionLog) (b : Batch) : PartitionLog :=
  let rolled := log.rollIfFull cfg
  let placed := b.atBase rolled.logEndOffset
  let tracked := rolled.tracked.noteVerbatim placed
  { rolled with
    active := { rolled.active with batches := rolled.active.batches ++ [placed] }
    tracked := tracked
    lso := rolled.advanceLso (b.isTransactional && 0 ≤ b.producerId) tracked (placed.lastOffset + 1)
    epochCheckpoint := rolled.epochCheckpoint.noteEpoch b.leaderEpoch placed.baseOffset }

def reencoded (log : PartitionLog) (size : ℕ) : PartitionLog :=
  { log with active := { log.active with
      batches := log.active.batches.dropLast ++
        (log.active.batches.getLast?.map fun b => { b with size }).toList } }

lemma append_size (size : ℕ) : log.append cfg { b with size } = (log.append cfg b).reencoded size := by
  unfold append reencoded write
  simp only [dropLast_concat, getLast?_concat]
  rfl

lemma appendVerbatimBytes_eq_append (hdata : b.control = none) :
    log.appendVerbatimBytes cfg b = log.append cfg b := by
  rw [← appendVerbatim_eq_append hdata]
  simp [appendVerbatimBytes, appendVerbatim, write, abortedBy, Batch.aborts, Batch.inTransaction, Batch.atBase, hdata]

/-- **The two append paths agree** on batches that are not control batches, also when the encoded size of the
last one differs. Batches are compared by their headers. -/
theorem appends_eq_verbatim (cfg : LogConfig) (log : PartitionLog) {bs : List Batch}
    (hdata : ∀ b ∈ bs, b.control = none) {b : Batch} (hb : b.control = none) (size : ℕ) :
    bs.foldl (append cfg) log = bs.foldl (appendVerbatimBytes cfg) log ∧
      (bs.foldl (append cfg) log).append cfg { b with size } =
        ((bs.foldl (appendVerbatimBytes cfg) log).appendVerbatimBytes cfg b).reencoded size := by
  have hsame : bs.foldl (append cfg) log = bs.foldl (appendVerbatimBytes cfg) log := by
    induction bs generalizing log with
    | nil => rfl
    | cons c bs ih =>
      rw [foldl_cons, foldl_cons, appendVerbatimBytes_eq_append (hdata c mem_cons_self)]
      exact ih _ fun d hd => hdata d (mem_cons_of_mem _ hd)
  rw [append_size, hsame, appendVerbatimBytes_eq_append hb]
  exact ⟨rfl, rfl⟩

theorem appends_eq_verbatim_twice :
    [txnBatch 1, txnBatch 1].foldl (append smallSegments) {} =
      [txnBatch 1, txnBatch 1].foldl (appendVerbatimBytes smallSegments) {} :=
  (appends_eq_verbatim smallSegments {} (by decide) (rfl : (txnBatch 1).control = none) 1).1

/-- A commit marker that is appended verbatim leaves its transaction open. -/
theorem verbatim_marker_differs :
    let log := append smallSegments {} (txnBatch 1)
    (log.append smallSegments (marker 1 1)).lso = 2 ∧
      (log.appendVerbatimBytes smallSegments (marker 1 1)).lso = 0 := by decide +kernel

end PartitionLog
end Crabka.Log
