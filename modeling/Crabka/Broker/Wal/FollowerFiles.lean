import Crabka.Found.Runs

/-!
# The files of a WAL follower

`FollowerLog` on the level of file operations: the `.log` files, the range checkpoint with its backup and temporary
file, `append`, `trim_to` and `reset_to` as sequences of file operations, and `open_at` on what a crash leaves. Data is
lost by whole batches, as `recover_active_tail` cuts a torn one. Of the `.index` files there is the last entry that
survives a crash, from which the recovery of the active segment scans; snapshot files and the overflow of offsets are
left out.
-/

namespace Crabka.Broker.Wal.Follower
open Found

/-- What `split_batches` returns: a batch with its offsets, at least one. -/
structure Batch where
  baseOffset : ℤ
  lastOffset : ℤ
  bytes : List UInt8
  nonempty : baseOffset ≤ lastOffset
  deriving DecidableEq

structure LogConfig where
  segmentSize : ℕ
  flushOnAppend : Bool
  segmentSize_pos : 0 < segmentSize

/-! ## Files -/

/-- A `.log` file, named by its base offset: the data that has been synced and the data after it. -/
structure SegmentFile where
  base : ℤ
  /-- Batches at the beginning of the file that the last recovery has not found. -/
  stale : List Batch := []
  synced : List Batch := []
  unsynced : List Batch := []
  deriving DecidableEq

def endFrom (base : ℤ) (batches : List Batch) : ℤ :=
  (batches.getLast?.map (·.lastOffset + 1)).getD base

namespace SegmentFile

def batches (seg : SegmentFile) : List Batch := seg.synced ++ seg.unsynced

def endOffset (seg : SegmentFile) : ℤ := endFrom seg.base seg.batches

def file (seg : SegmentFile) : List Batch := seg.stale ++ seg.batches

def size (seg : SegmentFile) : ℕ := (seg.file.map (·.bytes.length)).sum

def flush (seg : SegmentFile) : SegmentFile := { seg with synced := seg.batches, unsynced := [] }

/-- `truncate_to_relative`, with the absolute offset. -/
def truncate (offset : ℤ) (seg : SegmentFile) : SegmentFile :=
  { seg with synced := seg.batches.takeWhile (·.lastOffset < offset), unsynced := [] }

/-- What a crash leaves: all that was synced, and some of the rest. -/
def crash (kept : ℤ → ℕ) (seg : SegmentFile) : SegmentFile :=
  { seg with synced := seg.synced ++ seg.unsynced.take (kept seg.base), unsynced := [] }

/-- `recover_active_tail` scans from the batch of the last index entry. If the file ends before or inside that batch,
none is found and the segment counts as empty. -/
def recoverActiveTail (indexed : ℕ) (seg : SegmentFile) : SegmentFile :=
  if seg.file.length < indexed then { seg with stale := seg.file, synced := [], unsynced := [] }
  else { seg with stale := [], synced := seg.file, unsynced := [] }

end SegmentFile

inductive SegmentOp where
  | create (base : ℤ)
  | write (base : ℤ) (batch : Batch)
  | sync (base : ℤ)
  | remove (base : ℤ)
  deriving DecidableEq

/-- The directory is listed by base offsets, as `Log::open` sorts it. -/
def SegmentOp.apply (segments : List SegmentFile) : SegmentOp → List SegmentFile
  | .create base => segments.orderedInsert (fun a b => a.base ≤ b.base) { base }
  | .write base batch =>
    segments.map fun s => if s.base = base then { s with unsynced := s.unsynced ++ [batch] } else s
  | .sync base => segments.map fun s => if s.base = base then s.flush else s
  | .remove base => segments.filter (·.base ≠ base)

structure DurableRange where
  start : ℤ
  stop : ℤ
  deriving DecidableEq

/-- The checkpoint, its backup and the temporary file, each as the numbers it contains. -/
structure CheckpointFiles where
  checkpoint : Option (List ℤ) := none
  backup : Option (List ℤ) := none
  temporary : Option (List ℤ) := none
  deriving DecidableEq

/-- The operations of `write_durable_offset`; removing the backup and renaming the checkpoint test that the file
exists. -/
inductive CheckpointOp where
  | createTemporary
  | write (range : DurableRange)
  | removeBackup
  | renameToBackup
  | renameTemporary
  deriving DecidableEq

def CheckpointOp.apply (files : CheckpointFiles) : CheckpointOp → CheckpointFiles
  | .createTemporary => { files with temporary := some [] }
  | .write range => { files with temporary := some [range.start, range.stop] }
  | .removeBackup => { files with backup := none }
  | .renameToBackup =>
    match files.checkpoint with
    | some offsets => { files with checkpoint := none, backup := some offsets }
    | none => files
  | .renameTemporary => { files with checkpoint := files.temporary, temporary := none }

def writeDurableOffset (range : DurableRange) : List CheckpointOp :=
  [.createTemporary, .write range, .removeBackup, .renameToBackup, .renameTemporary, .removeBackup]

/-- What `recover_durable_offset` reads. -/
def CheckpointFiles.reading (files : CheckpointFiles) : Option (List ℤ) := files.checkpoint.or files.backup

/-- The files of a follower. -/
structure Disk where
  segments : List SegmentFile := []
  files : CheckpointFiles := {}
  /-- After a crash: which batch of the active segment its last index entry is of; 0 without an entry. -/
  indexed : ℕ := 0
  deriving DecidableEq

/-- One operation on the files. -/
inductive FileOp where
  | segment (op : SegmentOp)
  | checkpoint (op : CheckpointOp)
  deriving DecidableEq

def FileOp.apply (disk : Disk) : FileOp → Disk
  | .segment op => { disk with segments := op.apply disk.segments }
  | .checkpoint op => { disk with files := op.apply disk.files }

/-! ## The log -/

def firstBase (segments : List SegmentFile) : ℤ := (segments.head?.map SegmentFile.base).getD 0

def logStartOffset (segments : List SegmentFile) (startOverride : Option ℤ) : ℤ :=
  match startOverride with
  | some offset => max (firstBase segments) offset
  | none => firstBase segments

def logEndOffset (segments : List SegmentFile) : ℤ :=
  (segments.getLast?.map SegmentFile.endOffset).getD 0

/-- `append_verbatim_preserving_offset`: the active segment is rolled when it is full. -/
def appendVerbatim (config : LogConfig) (segments : List SegmentFile) (batch : Batch) : List SegmentOp :=
  match segments.getLast? with
  | none => []
  | some active =>
    let roll := decide (config.segmentSize ≤ active.size)
    let base := if roll then active.endOffset else active.base
    (if roll then [.sync active.base, .create base] else []) ++ .write base batch ::
      if config.flushOnAppend then [.sync base] else []

/-- The loop of `sync_replica_blocking`, and whether it comes to its end. -/
def appendBatches (config : LogConfig) (segments : List SegmentFile) : List Batch → List SegmentOp × Bool
  | [] => ([], true)
  | batch :: batches =>
    let stop := logEndOffset segments
    if stop ≤ batch.baseOffset then
      if batch.baseOffset ≠ stop then ([], false)
      else
        let ops := appendVerbatim config segments batch
        let rest := appendBatches config (ops.foldl SegmentOp.apply segments) batches
        (ops ++ rest.1, rest.2)
    else if stop < batch.lastOffset + 1 then ([], false)
    else appendBatches config segments batches

/-- `Log::sync`. -/
def syncAll (segments : List SegmentFile) : List SegmentOp := segments.map (.sync ·.base)

/-- The sealed segments that lie before the target. -/
def droppedBases (target : ℤ) : List SegmentFile → List ℤ
  | s :: t :: rest => if t.base ≤ target then s.base :: droppedBases target (t :: rest) else []
  | [_] | [] => []

/-- `trim_to_offset`: the segments to remove, and the start override after it. -/
def trimToOffset (segments : List SegmentFile) (startOverride : Option ℤ) (target : ℤ) : List ℤ × Option ℤ :=
  let target := min target (logEndOffset segments)
  if target ≤ logStartOffset segments startOverride then ([], startOverride)
  else
    let dropped := droppedBases target segments
    let first := firstBase (segments.filter (·.base ∉ dropped))
    (dropped, if first < target then some target else startOverride)

/-- The last of the segments that are left becomes the active one; there is always one. -/
def promote (offset : ℤ) (kept : List SegmentFile) : List SegmentFile :=
  match kept.getLast? with
  | some last => kept.dropLast ++ [last.truncate offset]
  | none => [{ base := offset }]

/-- `truncate_to`, for an offset inside the log. -/
def truncateTo (segments : List SegmentFile) (offset : ℤ) : List SegmentFile :=
  if logEndOffset segments ≤ offset then segments
  else promote offset (segments.takeWhile (·.base < offset))

/-! ## The follower -/

/-- The follower in memory. -/
structure FollowerLog where
  disk : Disk
  startOverride : Option ℤ
  deriving DecidableEq

namespace FollowerLog
variable (log : FollowerLog)

def startOffset : ℤ := logStartOffset log.disk.segments log.startOverride

def endOffset : ℤ := logEndOffset log.disk.segments

def batches : List Batch := log.disk.segments.flatMap SegmentFile.batches

end FollowerLog

/-- The calls of a follower. -/
inductive Operation where
  | append (requested leaderEnd : ℤ) (records : Option (List Batch))
  | trimTo (offset : ℤ)
  | resetTo (offset : ℤ)

/-- The offset after the batches if each starts where the one before it ends. -/
def expectedEnd : ℤ → List Batch → Option ℤ
  | expected, [] => some expected
  | expected, batch :: batches =>
    if batch.baseOffset ≠ expected then none else expectedEnd (batch.lastOffset + 1) batches

/-- What an operation does: its operations on segments, then the range it checkpoints; a refused operation
does nothing. -/
structure Plan where
  segmentOps : List SegmentOp := []
  range : Option DurableRange := none
  startOverride : Option ℤ

def Plan.fileOps (plan : Plan) : List FileOp :=
  plan.segmentOps.map .segment ++ (plan.range.toList.flatMap writeDurableOffset).map .checkpoint

def appendPlan (config : LogConfig) (log : FollowerLog) (requested leaderEnd : ℤ)
    (records : Option (List Batch)) : Plan :=
  match records with
  | none => { startOverride := log.startOverride }
  | some batches =>
    match expectedEnd requested batches with
    | none => { startOverride := log.startOverride }
    | some expected =>
      if log.endOffset ≠ requested ∨ leaderEnd < expected then { startOverride := log.startOverride }
      else
        let (ops, done) := appendBatches config log.disk.segments batches
        let segments := ops.foldl SegmentOp.apply log.disk.segments
        if done then
          { segmentOps := ops ++ syncAll segments
            range :=
              if logEndOffset segments = expected then
                some { start := logStartOffset segments log.startOverride, stop := expected }
              else none
            startOverride := log.startOverride }
        else { segmentOps := ops, startOverride := log.startOverride }

def trimPlan (log : FollowerLog) (offset : ℤ) : Plan :=
  if offset ≤ log.startOffset ∨ offset < 0 then { startOverride := log.startOverride }
  else
    let (dropped, startOverride) := trimToOffset log.disk.segments log.startOverride offset
    let segments := log.disk.segments.filter (·.base ∉ dropped)
    { segmentOps := dropped.map .remove ++ syncAll segments
      range := some { start := logStartOffset segments startOverride, stop := logEndOffset segments }
      startOverride }

def resetPlan (log : FollowerLog) (offset : ℤ) : Plan :=
  if offset < 0 then { startOverride := log.startOverride }
  else
    { segmentOps :=
        -- sealed segments from the last one on, then the active one
        log.disk.segments.dropLast.reverse.map (.remove ·.base) ++
          log.disk.segments.getLast?.toList.map (.remove ·.base) ++ [.create offset, .sync offset]
      range := some { start := offset, stop := offset }
      startOverride := none }

def plan (config : LogConfig) (log : FollowerLog) : Operation → Plan
  | .append requested leaderEnd records => appendPlan config log requested leaderEnd records
  | .trimTo offset => trimPlan log offset
  | .resetTo offset => resetPlan log offset

/-- The log after an operation that comes to its end. -/
def complete (config : LogConfig) (log : FollowerLog) (op : Operation) : FollowerLog where
  disk := (plan config log op).fileOps.foldl FileOp.apply log.disk
  startOverride := (plan config log op).startOverride

/-! ## A crash and the recovery -/

/-- The disk when the process stops after a number of file operations. -/
def crashed (config : LogConfig) (log : FollowerLog) (op : Operation) (k : ℕ) (kept : ℤ → ℕ) (indexed : ℕ) : Disk :=
  let disk := ((plan config log op).fileOps.take k).foldl FileOp.apply log.disk
  { disk with segments := disk.segments.map (SegmentFile.crash kept), indexed }

/-- The segments that `Log::open` finds; the last one is active. -/
def openSegments (disk : Disk) : List SegmentFile :=
  match disk.segments.getLast? with
  | some active => disk.segments.dropLast ++ [active.recoverActiveTail disk.indexed]
  | none => [{ base := 0 }]

/-- `recover_durable_offset`, the range it works with. -/
def readDurable (files : CheckpointFiles) (start : ℤ) : Except String DurableRange :=
  match files.reading with
  | none => .ok { start, stop := start }
  | some [start, stop] => .ok { start, stop }
  | some _ => .error "expected two offsets"

def openAt (disk : Disk) : Except String FollowerLog :=
  let segments := openSegments disk
  let start := logStartOffset segments none
  let stop := logEndOffset segments
  match readDurable disk.files start with
  | .error e => .error e
  | .ok durable =>
    if start ≤ durable.start ∧ durable.start ≤ stop ∧ durable.start ≤ durable.stop ∧
        durable.stop ≤ stop then
      if durable.start < 0 then .error "trim_to_offset: target must be >= 0"
      else
        let segments := truncateTo segments durable.stop
        let (dropped, startOverride) := trimToOffset segments none durable.start
        .ok
          { disk :=
              { segments := (segments.filter (·.base ∉ dropped)).map SegmentFile.flush
                files := (writeDurableOffset durable).foldl CheckpointOp.apply disk.files }
            startOverride }
    else
      let durableStart := durable.start
      let durableStop := durable.stop
      .error s!"WAL durable range {durableStart}..{durableStop} is outside recovered range {start}..{stop}"

def fresh : FollowerLog where
  disk := { segments := [{ base := 0 }], files := { checkpoint := some [0, 0] } }
  startOverride := none

example : openAt {} = .ok fresh := by rfl

end Crabka.Broker.Wal.Follower
