import Crabka.Found.Maps
import Crabka.Found.Reads
import Crabka.Found.Runs

/-!
# The share-state persister

`crates/broker/src/share_coordinator`: the delivery state of every `(group, topic, partition)` in memory, the snapshot
and update records of the `__share_group_state` partitions, and their replay. A record is the value it encodes; its
offset counts all records of the partition, of which those from `start` on are left.
-/

namespace Crabka.Broker.Share.Persister
open Std (ExtTreeMap)
open Found

/-! ## State of one share partition -/

abbrev ShareKey := String × ℕ × ℤ

instance : Std.TransOrd ShareKey := inferInstance

structure StateBatch where
  firstOffset : ℤ
  lastOffset : ℤ
  deliveryState : ℤ
  deliveryCount : ℤ
  deriving DecidableEq, Repr

structure ShareSnapshotValue where
  snapshotEpoch : ℤ
  stateEpoch : ℤ
  leaderEpoch : ℤ
  startOffset : ℤ
  deliveryCompleteCount : ℤ
  stateBatches : List StateBatch
  deriving DecidableEq, Repr

structure ShareUpdateValue where
  snapshotEpoch : ℤ
  leaderEpoch : ℤ
  startOffset : ℤ
  deliveryCompleteCount : ℤ
  stateBatches : List StateBatch
  deriving DecidableEq, Repr

structure SharePartitionState where
  stateEpoch : ℤ := 0
  leaderEpoch : ℤ := 0
  startOffset : ℤ := 0
  deliveryCompleteCount : ℤ := 0
  stateBatches : List StateBatch := []
  snapshotEpoch : ℤ := 0
  lastSnapshotOffset : ℕ := 0
  updatesSinceSnapshot : ℕ := 0
  deriving DecidableEq, Repr

namespace SharePartitionState
variable (st : SharePartitionState)

def applySnapshot (v : ShareSnapshotValue) : SharePartitionState :=
  { st with
    snapshotEpoch := v.snapshotEpoch
    stateEpoch := v.stateEpoch
    leaderEpoch := v.leaderEpoch
    startOffset := v.startOffset
    deliveryCompleteCount := v.deliveryCompleteCount
    stateBatches := v.stateBatches
    updatesSinceSnapshot := 0 }

/-- The loop of `merge_batches` over the written batches. -/
def upsertBatches (startOffset : ℤ) (batches written : List StateBatch) : List StateBatch :=
  written.foldl (fun acc w => if w.lastOffset < startOffset then acc
    else acc.filter (fun b => b.firstOffset ≠ w.firstOffset) ++ [w]) batches

def mergeBatches (newStart : ℤ) (written : List StateBatch) : SharePartitionState :=
  let startOffset := if newStart > st.startOffset then newStart else st.startOffset
  let retained := st.stateBatches.filter fun b => startOffset ≤ b.lastOffset
  { st with
    startOffset
    stateBatches := (upsertBatches startOffset retained written).insertionSort
      fun a b => a.firstOffset ≤ b.firstOffset }

def applyUpdate (v : ShareUpdateValue) : SharePartitionState :=
  { { st with leaderEpoch := v.leaderEpoch }.mergeBatches v.startOffset v.stateBatches with
    deliveryCompleteCount := v.deliveryCompleteCount
    updatesSinceSnapshot := st.updatesSinceSnapshot + 1 }

def toSnapshot : ShareSnapshotValue where
  snapshotEpoch := st.snapshotEpoch + 1
  stateEpoch := st.stateEpoch
  leaderEpoch := st.leaderEpoch
  startOffset := st.startOffset
  deliveryCompleteCount := st.deliveryCompleteCount
  stateBatches := st.stateBatches

end SharePartitionState

/-- What a caller of `read` uses of a state. -/
structure StateView where
  stateEpoch : ℤ
  leaderEpoch : ℤ
  startOffset : ℤ
  deliveryCompleteCount : ℤ
  stateBatches : List StateBatch
  deriving DecidableEq, Repr

def SharePartitionState.view (st : SharePartitionState) : StateView :=
  ⟨st.stateEpoch, st.leaderEpoch, st.startOffset, st.deliveryCompleteCount, st.stateBatches⟩

/-! ## The log -/

/-- A record of `__share_group_state`. -/
inductive StateRecord where
  | tombstone (key : ShareKey)
  | snapshot (key : ShareKey) (value : ShareSnapshotValue)
  | update (key : ShareKey) (value : ShareUpdateValue)
  deriving DecidableEq, Repr

def StateRecord.key : StateRecord → ShareKey
  | .tombstone key | .snapshot key _ | .update key _ => key

/-- One partition: all records that it ever had, and the offset that it starts at. -/
structure StateLog where
  records : List StateRecord := []
  start : ℕ := 0
  deriving DecidableEq, Repr

def StateLog.written (log : StateLog) : List (ℕ × StateRecord) := log.records.mapIdx fun i r => (i, r)

def StateLog.stored (log : StateLog) : List (ℕ × StateRecord) := log.written.drop log.start

/-! ## The coordinator -/

/-- What the coordinator is configured with; `partitionOf` is `state_partition_for`, the buffer of the reader has
`recovery_read_max` bytes. -/
structure ShareConfig where
  partitionOf : ShareKey → ℕ
  snapshotUpdateRecordsPerSnapshot : ℕ
  reader : Reader (ℕ × StateRecord)

/-- `ShareCoordinator` with the partitions that it leads. -/
structure Coordinator where
  state : ExtTreeMap ShareKey SharePartitionState := ∅
  logs : ℕ → StateLog := fun _ => {}

namespace Coordinator
variable (config : ShareConfig) (s : Coordinator)

/-- `persist_record`, when the append succeeds. -/
def persistRecord (r : StateRecord) : Coordinator :=
  { s with
    logs := Function.update s.logs (config.partitionOf r.key)
      { s.logs (config.partitionOf r.key) with
        records := (s.logs (config.partitionOf r.key)).records ++ [r] } }

def nextOffset (key : ShareKey) : ℕ := (s.logs (config.partitionOf key)).records.length

def setState (key : ShareKey) (st : SharePartitionState) : Coordinator :=
  { s with state := s.state.insert key st }

/-- `initialize`. -/
def initializeState (key : ShareKey) (stateEpoch startOffset : ℤ) (persists : Bool) : Coordinator :=
  if s.state[key]?.any (fun st => stateEpoch ≤ st.stateEpoch) then s
  else
    let snapshot : ShareSnapshotValue := ⟨0, stateEpoch, 0, startOffset, 0, []⟩
    if persists then
      (s.persistRecord config (.snapshot key snapshot)).setState key
        { ({} : SharePartitionState).applySnapshot snapshot with
          lastSnapshotOffset := s.nextOffset config key }
    else s

/-- The smallest snapshot offset of the live keys of a partition, `redundant_offset`. -/
def redundantOffset (p : ℕ) : Option ℕ :=
  ((s.state.toList.filter fun e => config.partitionOf e.1 = p).map fun e => e.2.lastSnapshotOffset).min?

/-- `maybe_prune`; `trims` says whether the trim of the log succeeds. -/
def maybePrune (p : ℕ) (trims : Bool) : Coordinator :=
  match s.redundantOffset config p with
  | none => s
  | some redundant =>
    if (s.logs p).start < redundant ∧ trims = true then
      { s with
        logs := Function.update s.logs p { s.logs p with start := min redundant (s.logs p).records.length } }
    else s

structure WriteCall where
  stateEpoch : ℤ
  leaderEpoch : ℤ
  startOffset : ℤ
  deliveryCompleteCount : ℤ
  batches : List StateBatch
  deriving DecidableEq, Repr

def WriteCall.passes (c : WriteCall) (st : SharePartitionState) : Prop :=
  st.stateEpoch ≤ c.stateEpoch ∧ st.leaderEpoch ≤ c.leaderEpoch

instance (c : WriteCall) (st : SharePartitionState) : Decidable (c.passes st) := by
  unfold WriteCall.passes
  infer_instance

def WriteCall.update (c : WriteCall) (st : SharePartitionState) : ShareUpdateValue :=
  ⟨st.snapshotEpoch, c.leaderEpoch, c.startOffset, c.deliveryCompleteCount, c.batches⟩

def WriteCall.applied (c : WriteCall) (st : SharePartitionState) : SharePartitionState :=
  { st with stateEpoch := c.stateEpoch }.applyUpdate (c.update st)

def folds (st : SharePartitionState) : Prop :=
  config.snapshotUpdateRecordsPerSnapshot ≤ st.updatesSinceSnapshot

instance (st : SharePartitionState) : Decidable (folds config st) := by
  unfold folds
  infer_instance

/-- The snapshot fold of `write`. -/
def foldSnapshot (key : ShareKey) (st : SharePartitionState) (trims : Bool) : Coordinator :=
  ((s.persistRecord config (.snapshot key st.toSnapshot)).setState key
    { st.applySnapshot st.toSnapshot with
      lastSnapshotOffset := s.nextOffset config key }).maybePrune config (config.partitionOf key) trims

/-- `write`. The state changes in memory before the update is appended. -/
def write (key : ShareKey) (c : WriteCall) (persists foldPersists trims : Bool) : Coordinator :=
  let st := s.state[key]?.getD {}
  if c.passes st then
    let st' := c.applied st
    let s' := s.setState key st'
    if persists then
      let s'' := s'.persistRecord config (.update key (c.update st))
      if folds config st' ∧ foldPersists = true then s''.foldSnapshot config key st' trims else s''
    else s'
  else s.setState key st

def delete (key : ShareKey) (persists : Bool) : Coordinator :=
  if persists then
    { s.persistRecord config (.tombstone key) with state := s.state.erase key }
  else s

/-- One record of the replay: `replay_value` and the tombstone case before it. -/
def replayRecord (state : ExtTreeMap ShareKey SharePartitionState) (x : ℕ × StateRecord) :
    ExtTreeMap ShareKey SharePartitionState :=
  match x.2 with
  | .tombstone key => state.erase key
  | .snapshot key value =>
    state.insert key { (state[key]?.getD {}).applySnapshot value with lastSnapshotOffset := x.1 }
  | .update key value => state.insert key ((state[key]?.getD {}).applyUpdate value)

/-- `replay_led_partitions` of a fresh coordinator that leads the partitions in `led`; each partition is read up to the
first read that returns nothing. -/
def recover (led : List ℕ) : ExtTreeMap ShareKey SharePartitionState :=
  led.foldl (fun state p => (config.reader.readFrom (s.logs p).written (s.logs p).start).foldl replayRecord state) ∅

end Coordinator

/-- A call; the flags say which appends and trims succeed. -/
inductive ShareCall where
  | initializeState (key : ShareKey) (stateEpoch startOffset : ℤ) (persists : Bool)
  | write (key : ShareKey) (call : Coordinator.WriteCall) (persists foldPersists trims : Bool)
  | delete (key : ShareKey) (persists : Bool)

def ShareCall.next (config : ShareConfig) (s : Coordinator) : ShareCall → Coordinator
  | .initializeState key stateEpoch startOffset persists =>
    s.initializeState config key stateEpoch startOffset persists
  | .write key call persists foldPersists trims => s.write config key call persists foldPersists trims
  | .delete key persists => s.delete config key persists

def shareSys (config : ShareConfig) : Sys Coordinator ShareCall :=
  ⟨fun _ _ => True, ShareCall.next config⟩

instance (config : ShareConfig) (s : Coordinator) (l : ShareCall) :
    Decidable ((shareSys config).enabled s l) := .isTrue trivial

end Crabka.Broker.Share.Persister
