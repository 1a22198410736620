import Crabka.Found.Maps
import Crabka.Log.EpochCheckpoint
import Crabka.Log.TxnIndex

/-!
# The log of a partition

`crates/log/src/log.rs` with `segment.rs` and `producer_snapshot.rs`: segments with their batches and
aborted-transaction indexes, producers and transactions, the last stable offset, the leader-epoch checkpoint and the
producer snapshots on disk. A batch carries the header fields that the log reads and its size; the sparse offset index
is a function of the batches. Offsets, producer ids and times are `i64` (`ℤ`). Stamps, time indexes and trimming from
the start are left out.
-/

namespace Crabka.Log
open Found
open Std (ExtTreeMap)

/-! ## Batches -/

/-- What is read from a control record: the type in its key (`0` aborts, `1` commits) and the
coordinator epoch in its value. -/
structure Control where
  type : Option ℤ
  coordinatorEpoch : Option ℤ
  deriving DecidableEq, Repr

/-- `RecordBatch`, the header. -/
structure Batch where
  baseOffset : ℤ := 0
  lastOffsetDelta : ℕ := 0
  leaderEpoch : ℤ := 0
  producerId : ℤ := -1
  producerEpoch : ℤ := -1
  baseSequence : ℤ := -1
  maxTimestamp : ℤ := 0
  isTransactional : Bool := false
  control : Option Control := none
  size : ℕ
  deriving DecidableEq, Repr

namespace Batch
variable (b : Batch)

def lastOffset : ℤ := b.baseOffset + b.lastOffsetDelta

def atBase (base : ℤ) : Batch := { b with baseOffset := base }

/-- The batches that open a transaction or belong to one. -/
def inTransaction : Bool := b.control.isNone && b.isTransactional && 0 ≤ b.producerId

def aborts : Bool := (b.control.bind Control.type) == some 0

end Batch

/-! ## Producers and transactions -/

/-- `ProducerSnapshotEntry`; the producer id is the key. -/
structure ProducerSnapshotEntry where
  producerEpoch : ℤ
  lastSequence : ℤ := -1
  lastOffset : ℤ := -1
  offsetDelta : ℕ := 0
  timestamp : ℤ := -1
  coordinatorEpoch : ℤ := -1
  currentTxnFirstOffset : Option ℤ := none
  deriving DecidableEq, Repr

/-- The producer state, as it is kept in memory and in a snapshot. -/
abbrev ProducerState := ExtTreeMap ℤ ProducerSnapshotEntry

structure Tracked where
  producerState : ProducerState := ∅
  pending : ExtTreeMap ℤ ℤ := ∅
  coordinatorEpochs : ExtTreeMap ℤ ℤ := ∅
  deriving DecidableEq

/-- The entry of a data batch: `update_data_producer_entry`, with the sequence and the last offset of
`data_producer_tail`. -/
def dataEntry (b : Batch) (isTransactional : Bool) (entry : ProducerSnapshotEntry) :
    ProducerSnapshotEntry :=
  { entry with
    producerEpoch := b.producerEpoch
    lastSequence := (b.baseSequence + b.lastOffsetDelta) % 2 ^ 31
    lastOffset := b.lastOffset
    offsetDelta := b.lastOffsetDelta
    timestamp := b.maxTimestamp
    currentTxnFirstOffset :=
      if isTransactional && entry.currentTxnFirstOffset.isNone then some b.baseOffset
      else entry.currentTxnFirstOffset }

/-- The entry of a control batch. A new epoch clears what is kept about the data. -/
def controlEntry (b : Batch) (c : Control) (entry : ProducerSnapshotEntry) : ProducerSnapshotEntry :=
  let cleared := if entry.producerEpoch ≠ b.producerEpoch then
    { entry with lastSequence := -1, lastOffset := -1, offsetDelta := 0 } else entry
  { cleared with
    producerEpoch := b.producerEpoch
    timestamp := b.maxTimestamp
    currentTxnFirstOffset := none
    coordinatorEpoch := c.coordinatorEpoch.getD entry.coordinatorEpoch }

/-- `update_data_producer_entry`; nothing is kept about a batch without a sequence. -/
def updateDataProducerEntry (state : ProducerState) (b : Batch) (isTransactional : Bool) :
    ProducerState :=
  if b.producerId < 0 ∨ b.baseSequence < 0 then state
  else upsert state b.producerId { producerEpoch := b.producerEpoch } (dataEntry b isTransactional)

def updateOwnedProducerEntry (state : ProducerState) (b : Batch) : ProducerState :=
  if b.producerId < 0 then state
  else match b.control with
    | some c => upsert state b.producerId { producerEpoch := b.producerEpoch } (controlEntry b c)
    | none => updateDataProducerEntry state b b.isTransactional

/-- `entry(pid).or_insert(base)`. -/
def openTransaction (pending : ExtTreeMap ℤ ℤ) (pid base : ℤ) : ExtTreeMap ℤ ℤ :=
  upsert pending pid base id

def noteCoordinator (epochs : ExtTreeMap ℤ ℤ) (pid : ℤ) (c : Control) : ExtTreeMap ℤ ℤ :=
  match c.coordinatorEpoch with
  | some epoch => if 0 ≤ pid then epochs.insert pid epoch else epochs
  | none => epochs

namespace Tracked
variable (t : Tracked)

/-- The bookkeeping of `append_preserving_offset`. -/
def note (b : Batch) : Tracked where
  producerState := updateOwnedProducerEntry t.producerState b
  pending := match b.control with
    | some _ => t.pending.erase b.producerId
    | none =>
      if b.isTransactional && 0 ≤ b.producerId then
        openTransaction t.pending b.producerId b.baseOffset
      else t.pending
  coordinatorEpochs := match b.control with
    | some c => noteCoordinator t.coordinatorEpochs b.producerId c
    | none => t.coordinatorEpochs

/-- The bookkeeping of `append_verbatim_preserving_offset`. -/
def noteVerbatim (b : Batch) : Tracked :=
  let isTransactional := b.isTransactional && 0 ≤ b.producerId
  { t with
    producerState := updateDataProducerEntry t.producerState b isTransactional
    pending := if isTransactional then openTransaction t.pending b.producerId b.baseOffset
      else t.pending }

/-- `apply_recovered_batch_state`. -/
def applyRecovered (b : Batch) : Tracked :=
  if b.producerId < 0 then t
  else
    { producerState := updateOwnedProducerEntry t.producerState b
      pending := match b.control with
        | some _ => t.pending.erase b.producerId
        | none => if b.isTransactional then openTransaction t.pending b.producerId b.baseOffset
            else t.pending
      coordinatorEpochs := match b.control with
        | some c => noteCoordinator t.coordinatorEpochs b.producerId c
        | none => t.coordinatorEpochs }

def ofSnapshot (state : ProducerState) : Tracked where
  producerState := state
  pending := state.filterMap fun _ e => e.currentTxnFirstOffset
  coordinatorEpochs := state.filterMap fun _ e =>
    if 0 ≤ e.coordinatorEpoch then some e.coordinatorEpoch else none

end Tracked

/-! ## Segments -/

/-- `Segment`, with the contents of its `.txnindex`. -/
structure Segment where
  base : ℤ
  batches : List Batch := []
  txnIndex : TxnIndex := []
  deriving DecidableEq

namespace Segment
variable (seg : Segment)

def lastOffset : ℤ := match seg.batches.getLast? with
  | some b => b.lastOffset
  | none => seg.base - 1

def size : ℕ := (seg.batches.map Batch.size).sum

/-- The batches from the last index entry at or before `offset`. The first batch has an entry, and each one that
starts `interval` bytes or more after the last entry; `gap` is that distance, `floor` what follows the last entry
passed. -/
def floorFrom (interval : ℕ) (offset : ℤ) : List Batch → ℕ → List Batch → List Batch
  | [], _, floor => floor
  | b :: bs, gap, floor =>
    if interval ≤ gap then
      if b.baseOffset ≤ offset then floorFrom interval offset bs b.size (b :: bs) else floor
    else floorFrom interval offset bs (gap + b.size) floor

/-- Decoding the buffer of a read: complete batches only, and those at or past `offset` are kept until
they fill `maxBytes`. -/
def decodeWithin (offset : ℤ) (maxBytes : ℕ) : List Batch → ℕ → ℕ → List Batch
  | [], _, _ => []
  | b :: bs, buffer, total =>
    if buffer < b.size then []
    else if b.lastOffset < offset then decodeWithin offset maxBytes bs (buffer - b.size) total
    else b :: if maxBytes ≤ total + b.size then []
      else decodeWithin offset maxBytes bs (buffer - b.size) (total + b.size)

/-- `read_with_buffer_cap`. -/
def readFrom (interval : ℕ) (offset : ℤ) (maxBytes : ℕ) : List Batch :=
  if seg.lastOffset < offset then []
  else decodeWithin offset maxBytes (floorFrom interval offset seg.batches interval seg.batches)
    maxBytes 0

/-- `truncate_to_relative`: the batches below `offset`. The `.txnindex` stays. -/
def truncateTo (offset : ℤ) : Segment :=
  { seg with batches := seg.batches.takeWhile (·.lastOffset < offset) }

end Segment

/-! ## The log -/

/-- The part of `LogConfig` that is read here. -/
structure LogConfig where
  segmentSize : ℕ
  indexInterval : ℕ
  segmentSize_pos : 0 < segmentSize := by decide
  deriving DecidableEq

inductive LogError where
  | corrupt
  | offsetTooLow
  deriving DecidableEq, Repr

/-- `Log`. -/
structure PartitionLog where
  segments : List Segment := []
  active : Segment := { base := 0 }
  tracked : Tracked := {}
  lso : ℤ := 0
  epochCheckpoint : LeaderEpochCheckpoint := []
  snapshots : ExtTreeMap ℤ ProducerState := ∅
  deriving DecidableEq

namespace PartitionLog
variable (cfg : LogConfig) (log : PartitionLog)

def logEndOffset : ℤ := log.active.lastOffset + 1

def logStartOffset : ℤ := ((log.segments ++ [log.active]).head?.map Segment.base).getD 0

def batches : List Batch := (log.segments ++ [log.active]).flatMap Segment.batches

def abortedInRange (start stop : ℤ) : List AbortedTxn :=
  TxnIndex.abortedInRange log.active.txnIndex start stop

/-- `producer_snapshot::write`: a snapshot that exists is kept. -/
def writeSnapshot (snapshots : ExtTreeMap ℤ ProducerState) (offset : ℤ) (state : ProducerState) :
    ExtTreeMap ℤ ProducerState :=
  upsert snapshots offset state id

/-- `roll_active_segment`. -/
def roll : PartitionLog :=
  { log with
    segments := log.segments ++ [log.active]
    active := { base := log.logEndOffset }
    snapshots := writeSnapshot log.snapshots log.logEndOffset log.tracked.producerState }

def rollIfFull : PartitionLog := if cfg.segmentSize ≤ log.active.size then log.roll else log

def abortedBy (b : Batch) : List AbortedTxn :=
  if b.aborts then
    match log.tracked.pending[b.producerId]? with
    | some start => [⟨start, b.lastOffset, b.producerId⟩]
    | none => []
  else []

/-- The last stable offset moves to the log end when no transaction is open after the batch, and stays
where it is otherwise. -/
def advanceLso (inTransaction : Bool) (tracked : Tracked) (logEnd : ℤ) : ℤ :=
  if inTransaction then log.lso
  else if tracked.pending.isEmpty then logEnd else log.lso

/-- A batch at its offset, written to the active segment. -/
def write (b : Batch) (tracked : Tracked) : PartitionLog :=
  { log with
    active :=
      { log.active with
        batches := log.active.batches ++ [b]
        txnIndex := log.active.txnIndex ++ log.abortedBy b }
    tracked := tracked
    lso := log.advanceLso b.inTransaction tracked (b.lastOffset + 1)
    epochCheckpoint := log.epochCheckpoint.noteEpoch b.leaderEpoch b.baseOffset }

/-- `append` and `append_at`: the log end is the batch's offset. -/
def append (b : Batch) : PartitionLog :=
  let rolled := log.rollIfFull cfg
  let placed := b.atBase rolled.logEndOffset
  rolled.write placed (rolled.tracked.note placed)

/-- `append_verbatim`, for data batches. -/
def appendVerbatim (b : Batch) : PartitionLog :=
  let rolled := log.rollIfFull cfg
  let placed := b.atBase rolled.logEndOffset
  rolled.write placed (rolled.tracked.noteVerbatim placed)

/-! ### Reading and recovery -/

/-- The loop of `read` over the sealed segments: the batches, the next offset, and the budget that is
left. -/
def readSealed (interval : ℕ) : List Segment → ℤ → ℕ → List Batch × ℤ × ℕ
  | [], current, remaining => ([], current, remaining)
  | seg :: segs, current, remaining =>
    if seg.lastOffset < current then readSealed interval segs current remaining
    else
      match (seg.readFrom interval current remaining).getLast? with
      | none => readSealed interval segs current remaining
      | some last =>
        let bs := seg.readFrom interval current remaining
        let left := remaining - (bs.map Batch.size).sum
        if left = 0 then (bs, last.lastOffset + 1, 0)
        else
          let rest := readSealed interval segs (last.lastOffset + 1) left
          (bs ++ rest.1, rest.2)

/-- `read`, at or above the log start. -/
def read (offset : ℤ) (maxSize : ℕ) : List Batch :=
  if log.logEndOffset ≤ offset then []
  else
    let (bs, current, remaining) := readSealed cfg.indexInterval log.segments offset maxSize
    if (0 < remaining ∨ bs = []) ∧ current ≤ log.active.lastOffset then
      bs ++ log.active.readFrom cfg.indexInterval current (max remaining 1)
    else bs

/-- What `producer_snapshot::read` accepts. -/
def validEntry (e : ProducerSnapshotEntry) : Bool :=
  0 ≤ e.producerEpoch && !(e.lastOffset < 0 && 0 ≤ e.lastSequence) &&
    !(0 ≤ e.lastOffset && (e.lastSequence < 0 || e.lastOffset < e.offsetDelta))

def validSnapshot (state : ProducerState) : Bool :=
  state.toList.all fun (pid, e) => 0 ≤ pid && validEntry e

/-- `latest_at_or_before`: the last readable snapshot up to `stop`; those after it are removed. -/
def latestAtOrBefore (stop : ℤ) : Option (ℤ × ProducerState) :=
  log.snapshots.toList.reverse.find? fun (offset, state) => offset ≤ stop && validSnapshot state

/-- The snapshots that `latest_at_or_before` leaves. -/
def snapshotsUpTo (stop : ℤ) : ExtTreeMap ℤ ProducerState :=
  match log.latestAtOrBefore stop with
  | some (latest, _) => log.snapshots.filter fun offset _ => offset ≤ latest
  | none => ∅

/-- The batches of one read, with the boundary snapshots that are missing. -/
def replayBatches : List Batch → List ℤ → Tracked → ExtTreeMap ℤ ProducerState →
    List ℤ × Tracked × ExtTreeMap ℤ ProducerState
  | [], boundaries, t, snapshots => (boundaries, t, snapshots)
  | b :: bs, boundaries, t, snapshots =>
    let t' := t.applyRecovered b
    let covered := boundaries.filter (· ≤ b.lastOffset + 1)
    replayBatches bs (boundaries.filter (b.lastOffset + 1 < ·)) t'
      (covered.foldl (fun m offset => writeSnapshot m offset t'.producerState) snapshots)

def recoveryWindow : ℕ := 2 ^ 20

/-- The loop of `rebuild_producer_and_transaction_state`; every round advances, so `fuel` bounds the offsets left. -/
def replay : ℕ → ℤ → List ℤ → Tracked → ExtTreeMap ℤ ProducerState →
    Except LogError (Tracked × ExtTreeMap ℤ ProducerState)
  | 0, next, _, t, snapshots =>
    if next < log.logEndOffset then .error .corrupt else .ok (t, snapshots)
  | fuel + 1, next, boundaries, t, snapshots =>
    if next < log.logEndOffset then
      match (log.read cfg next recoveryWindow).getLast? with
      | none => .error .corrupt
      | some last =>
        if last.lastOffset + 1 ≤ next then .error .corrupt
        else
          let (boundaries', t', snapshots') :=
            replayBatches (log.read cfg next recoveryWindow) boundaries t snapshots
          replay fuel (last.lastOffset + 1) boundaries' t' snapshots'
    else .ok (t, snapshots)

/-- The first offset of the oldest open transaction, or the log end. -/
def stableOffset (t : Tracked) (logEnd : ℤ) : ℤ := (t.pending.toList.map Prod.snd).min?.getD logEnd

/-- `rebuild_producer_and_transaction_state`. Pending stamps, and the errors of their rebuild, are left out. -/
def rebuild : Except LogError PartitionLog := do
  let stop := log.logEndOffset
  let start := log.logStartOffset
  let (t, next) := match log.latestAtOrBefore stop with
    | some (offset, state) => (Tracked.ofSnapshot state, max offset start)
    | none => ({}, start)
  let bases := (log.segments ++ [log.active]).map Segment.base
  let boundaries := bases.tail.filter (next < ·)
  let (t', snapshots) ←
    log.replay cfg (stop - next).toNat next boundaries t (log.snapshotsUpTo stop)
  return { log with tracked := t', snapshots := snapshots, lso := stableOffset t' stop }

/-- `Log::open` over the files of a log. -/
def reopen : Except LogError PartitionLog :=
  let stop := log.logEndOffset
  { log with tracked := {}, lso := stop, epochCheckpoint := log.epochCheckpoint.truncateTo stop }
    |>.rebuild cfg

/-! ### Truncation -/

/-- The segments after those at or past `offset` are dropped and the last one is cut. -/
def cutSegments (offset : ℤ) : PartitionLog :=
  match (log.segments ++ [log.active]).reverse.dropWhile (offset ≤ ·.base) with
  | [] => { log with segments := [], active := { base := offset } }
  | seg :: below => { log with segments := below.reverse, active := seg.truncateTo offset }

def truncateTo (offset : ℤ) : Except LogError PartitionLog :=
  if log.logEndOffset ≤ offset then .ok log
  else if offset < log.logStartOffset then .error .offsetTooLow
  else do
    let snapshots := if log.segments.isEmpty then log.snapshots
      else log.snapshots.filter fun s _ => s ≤ offset
    let cut := { log.cutSegments offset with snapshots := snapshots }
    let rebuilt ← if log.tracked.producerState.isEmpty then .ok cut else cut.rebuild cfg
    return { rebuilt with
      lso := min rebuilt.lso rebuilt.logEndOffset
      epochCheckpoint := rebuilt.epochCheckpoint.truncateTo rebuilt.logEndOffset }

end PartitionLog
end Crabka.Log
