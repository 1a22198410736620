import Crabka.Log.EpochCheckpoint
import Crabka.Kraft.Core.Types

/-!
# The metadata log

`crates/raft/src/kraft/log.rs` over `crates/log/src/log.rs`: the sequence of record batches from the base of the first
segment, the leader-epoch checkpoint and the high watermark. Segment files are not visible at this level. Offsets are
`i64` and leader epochs `i32` (`ℤ`); a batch occupies `last_offset_delta + 1` offsets.
-/

namespace Crabka.Kraft
open Crabka.Log List

/-! ## Record batches -/

/-- A record: its offset within the batch, and its key and value as `ρ`. -/
structure Record (ρ : Type) where
  offsetDelta : ℕ
  payload : ρ
  deriving DecidableEq, Repr

/-- `RecordBatch`, with the header fields that the metadata log reads. -/
structure RecordBatch (ρ : Type) where
  baseOffset : ℤ := 0
  partitionLeaderEpoch : ℤ
  lastOffsetDelta : ℕ
  isControlBatch : Bool := false
  records : List (Record ρ)
  deriving DecidableEq, Repr

/-- `i32::MAX`, where the epochs of a log end. -/
def i32Max : ℤ := 2 ^ 31 - 1

namespace RecordBatch
variable {ρ : Type}

def count (b : RecordBatch ρ) : ℕ := b.lastOffsetDelta + 1

def lastOffset (b : RecordBatch ρ) : ℤ := b.baseOffset + b.lastOffsetDelta

def atBase (b : RecordBatch ρ) (base : ℤ) : RecordBatch ρ := { b with baseOffset := base }

/-- A batch as the writers of the metadata log build it: a known epoch and one record for each of
its offsets. -/
structure WellFormed (b : RecordBatch ρ) : Prop where
  known : 0 ≤ b.partitionLeaderEpoch
  epoch_le : b.partitionLeaderEpoch ≤ i32Max
  full : b.records.length = b.count

end RecordBatch

/-! ## The log -/

/-- The errors of `crabka_log::LogError` that the operations below return. -/
inductive LogError where
  | offsetMismatch (expected actual : ℤ)
  | offsetTooLow (requested logStart : ℤ)
  deriving DecidableEq, Repr

/-- `KraftLog`. `base` is the base offset of the first segment. -/
structure KraftLog (ρ : Type) where
  base : ℤ := 0
  startOffsetOverride : Option ℤ := none
  batches : List (RecordBatch ρ) := []
  epochCheckpoint : LeaderEpochCheckpoint := []
  hwm : ℤ := 0
  deriving DecidableEq

namespace KraftLog
variable {ρ : Type} (log : KraftLog ρ)

def logStartOffset : ℤ := match log.startOffsetOverride with
  | some o => max log.base o
  | none => log.base

def logEndOffset : ℤ := match log.batches.getLast? with
  | some b => b.lastOffset + 1
  | none => log.base

/-- The write shared by `append` and `append_at`, with the epoch bookkeeping after it. -/
def write (b : RecordBatch ρ) (base : ℤ) : KraftLog ρ :=
  { log with
    batches := log.batches ++ [b.atBase base]
    epochCheckpoint := log.epochCheckpoint.noteEpoch b.partitionLeaderEpoch base }

/-- `append`: the log assigns the next offset, and returns it. -/
def append (b : RecordBatch ρ) : KraftLog ρ × ℤ :=
  (log.write b log.logEndOffset, log.logEndOffset)

/-- The batches a reader sees from `offset` on (`read_decoded`, all read windows together). -/
def batchesFrom (offset : ℤ) : List (RecordBatch ρ) :=
  log.batches.filter (offset ≤ ·.lastOffset)

/-- `advance_hwm`: monotonic, and never past the log end. -/
def advanceHwm (newHwm : ℤ) : KraftLog ρ :=
  { log with hwm := max log.hwm (min newHwm log.logEndOffset) }

/-- `Log::truncate_to`: whole batches go, so the new end may be below `offset`. -/
def truncateLog (offset : ℤ) : Except LogError (KraftLog ρ) :=
  if log.logEndOffset ≤ offset then .ok log
  else if offset < log.logStartOffset then .error (.offsetTooLow offset log.logStartOffset)
  else
    let cut := { log with batches := log.batches.takeWhile (·.lastOffset < offset) }
    .ok { cut with epochCheckpoint := log.epochCheckpoint.truncateTo cut.logEndOffset }

/-- `truncate_to`, which also clamps the high watermark. -/
def truncateTo (offset : ℤ) : Except LogError (KraftLog ρ) := do
  let cut ← log.truncateLog offset
  return { cut with hwm := min cut.hwm offset }

/-- `prune_to`: the log start moves up. The trim that follows finds nothing to do, as the log start is at its target. -/
def pruneTo (endOffset : ℤ) : KraftLog ρ :=
  if endOffset ≤ log.logStartOffset then log
  else { log with startOffsetOverride := some endOffset }

/-- `impl LogView for KraftLog`. The core counts epochs in `u32`; an epoch above `i32::MAX` is
unknown to the log. -/
def view : LogView where
  endOffset := log.logEndOffset
  lastEpoch := (log.epochCheckpoint.latestEpoch.getD 0).toNat
  endOffsetForEpoch epoch :=
    if (epoch : ℤ) ≤ i32Max then
      let off := log.epochCheckpoint.endOffsetForEpoch epoch log.logEndOffset
      if off = undefinedOffset then none else some off
    else none

/-! ## Logs built by appending -/

def ofBatches (bs : List (RecordBatch ρ)) : KraftLog ρ :=
  bs.foldl (fun log b => (log.append b).1) {}

end KraftLog

structure LogRecord (ρ : Type) where
  epoch : ℤ
  payload : ρ
  deriving DecidableEq, Repr

def RecordBatch.logRecords {ρ : Type} (b : RecordBatch ρ) : List (LogRecord ρ) :=
  b.records.map fun r => ⟨b.partitionLeaderEpoch, r.payload⟩

/-- The batches written to a log from offset `0`, with leader epochs that do not decrease. -/
structure History (ρ : Type) where
  batches : List (RecordBatch ρ)
  wellFormed : ∀ b ∈ batches, b.WellFormed
  sorted : batches.Pairwise fun a b => a.partitionLeaderEpoch ≤ b.partitionLeaderEpoch

namespace History
variable {ρ : Type} (H : History ρ)

def log : KraftLog ρ := .ofBatches H.batches

def records : List (LogRecord ρ) := H.batches.flatMap (·.logRecords)

def epochs : List ℤ := H.records.map (·.epoch)

end History

/-! ## What the log knows of its history -/

section
variable {ρ : Type}

lemma RecordBatch.epochs_logRecords {b : RecordBatch ρ} (h : b.WellFormed) :
    b.logRecords.map (·.epoch) = List.replicate b.count b.partitionLeaderEpoch := by
  rw [logRecords, map_map, ← h.full, eq_replicate_iff]
  simp

lemma KraftLog.ofBatches_mirrors {bs : List (RecordBatch ρ)} (hwf : ∀ b ∈ bs, b.WellFormed)
    (hs : bs.Pairwise fun a b => a.partitionLeaderEpoch ≤ b.partitionLeaderEpoch) :
    (KraftLog.ofBatches bs).epochCheckpoint.Mirrors
        ((bs.flatMap (·.logRecords)).map (·.epoch)) ∧
      (KraftLog.ofBatches bs).logEndOffset = (bs.flatMap (·.logRecords)).length := by
  induction bs using List.reverseRecOn with
  | nil => exact ⟨LeaderEpochCheckpoint.Mirrors.nil, rfl⟩
  | append_singleton bs b ih =>
    obtain ⟨hsorted, -, hlast⟩ := pairwise_append.mp hs
    obtain ⟨hmirror, hend⟩ := ih (fun x hx => hwf x (by simp [hx])) hsorted
    have hb : b.WellFormed := hwf b (by simp)
    set log := KraftLog.ofBatches bs with hlog
    have hstep : KraftLog.ofBatches (bs ++ [b]) = log.write b log.logEndOffset := by
      rw [KraftLog.ofBatches, foldl_append]
      rfl
    have hle : ∀ e ∈ (bs.flatMap (·.logRecords)).map (·.epoch), e ≤ b.partitionLeaderEpoch := by
      intro e he
      obtain ⟨r, hr, rfl⟩ := mem_map.mp he
      obtain ⟨a, ha, hra⟩ := mem_flatMap.mp hr
      obtain ⟨r', -, rfl⟩ := mem_map.mp hra
      exact hlast a ha b (by simp)
    rw [hstep, flatMap_append, flatMap_singleton, map_append, RecordBatch.epochs_logRecords hb]
    constructor
    · have := hmirror.noteEpoch hb.known hle b.lastOffsetDelta
      rwa [length_map, ← hend] at this
    · have hlen : b.logRecords.length = b.lastOffsetDelta + 1 := by
        rw [RecordBatch.logRecords, length_map, hb.full, RecordBatch.count]
      simp only [KraftLog.write, KraftLog.logEndOffset, List.getLast?_append_cons, List.getLast?_singleton]
      rw [length_append, hlen, RecordBatch.lastOffset, RecordBatch.atBase]
      simp only [KraftLog.logEndOffset] at hend
      rw [hend]
      push_cast
      omega

namespace History
variable (H : History ρ)

lemma logEndOffset_log : H.log.logEndOffset = H.records.length :=
  (KraftLog.ofBatches_mirrors H.wellFormed H.sorted).2

lemma mirrors : H.log.epochCheckpoint.Mirrors H.epochs :=
  (KraftLog.ofBatches_mirrors H.wellFormed H.sorted).1

lemma epoch_bounds {e : ℤ} (he : e ∈ H.epochs) : 0 ≤ e ∧ e ≤ i32Max := by
  obtain ⟨r, hr, rfl⟩ := mem_map.mp he
  obtain ⟨b, hb, hrb⟩ := mem_flatMap.mp hr
  obtain ⟨r', -, rfl⟩ := mem_map.mp hrb
  exact ⟨(H.wellFormed b hb).known, (H.wellFormed b hb).epoch_le⟩

lemma epochs_sorted : H.epochs.Pairwise (· ≤ ·) := by
  rw [epochs, records, pairwise_map, pairwise_flatMap]
  refine ⟨fun b _ => ?_, H.sorted.imp fun {a b} hab x hx y hy => ?_⟩
  · rw [RecordBatch.logRecords, pairwise_map]
    exact pairwise_of_forall fun _ _ => le_rfl
  · obtain ⟨_, -, rfl⟩ := mem_map.mp hx
    obtain ⟨_, -, rfl⟩ := mem_map.mp hy
    exact hab

lemma lastEpoch_view : (H.log.view.lastEpoch : ℤ) = (H.epochs.getLast?).getD 0 := by
  simp only [KraftLog.view]
  rw [H.mirrors.latestEpoch_eq, Found.max?_eq_getLast? H.epochs_sorted]
  cases hlast : H.epochs.getLast? with
  | none => rfl
  | some e => exact Int.toNat_of_nonneg (H.epoch_bounds (mem_of_getLast? hlast)).1

/-- **The end offset of an epoch** is known exactly for the epochs of the log's own records. -/
theorem endOffsetForEpoch_view (e : ℕ) :
    H.log.view.endOffsetForEpoch e =
      if (e : ℤ) ∈ H.epochs then some (H.epochs.countP (· ≤ (e : ℤ)) : ℤ) else none := by
  have hlen : H.log.logEndOffset = (H.epochs.length : ℤ) := by
    rw [H.logEndOffset_log, epochs, length_map]
  simp only [KraftLog.view, hlen, H.mirrors.endOffsetForEpoch_eq]
  by_cases hmem : (e : ℤ) ∈ H.epochs
  · have hdefined : (H.epochs.countP (· ≤ (e : ℤ)) : ℤ) ≠ undefinedOffset := by
      unfold undefinedOffset
      omega
    rw [if_pos (H.epoch_bounds hmem).2]
    simp only [if_pos hmem, if_neg hdefined]
  · simp [hmem]

end History
end
end Crabka.Kraft
