import Crabka.Found.Runs
import Crabka.Found.Spans

/-!
# The acquisition state of a share partition

`crates/broker/src/share_partition/state.rs`: the delivery state of the offsets in the live window of a share partition,
as runs of offsets. `InFlightBatch` is a span of `Crabka.Found.Spans` that carries the state, the count and the lock.
-/

namespace Crabka.Broker.Share
open Found

/-! ## Batches -/

inductive RecordState where
  | available
  | acquired
  | acknowledged
  | archived
  deriving DecidableEq, Repr

def RecordState.terminal : RecordState → Bool
  | .acknowledged | .archived => true
  | .available | .acquired => false

inductive AckType where
  | gap
  | accept
  | release
  | reject
  deriving DecidableEq, Repr

def AckType.result : AckType → RecordState
  | .accept => .acknowledged
  | .release => .available
  | .reject | .gap => .archived

structure AcquiredRange where
  first : ℤ
  last : ℤ
  deliveryCount : ℤ
  deriving DecidableEq, Repr

/-- What the offsets of a batch have in common. Deadlines are times in nanoseconds. -/
structure Delivery where
  state : RecordState
  deliveryCount : ℤ
  acquiredBy : Option String := none
  lockDeadline : Option ℤ := none
  deriving DecidableEq, Repr

abbrev InFlightBatch := Span Delivery

def Delivery.unlocked (d : Delivery) (state : RecordState) : Delivery :=
  { state, deliveryCount := d.deliveryCount }

def Delivery.handedOut (d : Delivery) (member : String) (deadline : ℤ) : Delivery where
  state := .acquired
  deliveryCount := d.deliveryCount + 1
  acquiredBy := some member
  lockDeadline := some deadline

/-! ## The machine -/

/-- `i64` arithmetic, which wraps. -/
def wrap64 (n : ℤ) : ℤ := Int.bmod n (2 ^ 64)

/-- `i32` arithmetic, which wraps. -/
def wrap32 (n : ℤ) : ℤ := Int.bmod n (2 ^ 32)

def maxI32 : ℤ := 2 ^ 31 - 1

def clampI32 (n : ℤ) : ℤ := if -2 ^ 31 ≤ n ∧ n ≤ maxI32 then n else maxI32

def invalidRecordState : ℤ := 121

/-- The records in flight, as runs of equal state. -/
structure AcquisitionState where
  startOffset : ℤ
  endOffset : ℤ
  stateEpoch : ℤ := 0
  leaderEpoch : ℤ := 0
  dirty : Bool := false
  deliveryCompleteCount : ℤ := 0
  batches : List InFlightBatch := []
  deriving DecidableEq

structure StateBatch where
  firstOffset : ℤ
  lastOffset : ℤ
  deliveryState : ℤ
  deliveryCount : ℤ
  deriving DecidableEq, Repr

/-- The code that a state is persisted under: an acquired record is persisted as available. -/
def RecordState.code : RecordState → ℤ
  | .available | .acquired => 0
  | .acknowledged => 2
  | .archived => 4

def RecordState.ofCode (code : ℤ) : RecordState :=
  if code = 2 then .acknowledged else if code = 4 then .archived else .available

/-- `range_acquired_by`, from a cursor on. -/
def rangeAcquiredBy (member : String) (first last : ℤ) : ℤ → List InFlightBatch → Bool
  | cursor, [] => decide (cursor > last)
  | cursor, b :: bs =>
    if b.last < first ∨ b.first > last then rangeAcquiredBy member first last cursor bs
    -- The covered batches are contiguous from `first` on.
    else if b.first > cursor then false
    else if b.value.state ≠ .acquired ∨ b.value.acquiredBy ≠ some member then false
    else if b.last + 1 > last then true
    else rangeAcquiredBy member first last (b.last + 1) bs

/-- What a walk of `acquire` over batches leaves and returns. -/
structure Acquisition where
  batches : List InFlightBatch
  acquired : List AcquiredRange := []
  completed : ℤ
  changed : Bool := false

/-- The walk of `acquire`, with the records that are still wanted and the count of completed
deliveries. -/
def acquireLoop (member : String) (deadline maxAttempts : ℤ) :
    List InFlightBatch → ℤ → ℤ → Acquisition
  | [], _, completed => { batches := [], completed }
  | b :: bs, remaining, completed =>
    if remaining = 0 then { batches := b :: bs, completed }
    else if b.value.state ≠ .available then
      let rest := acquireLoop member deadline maxAttempts bs remaining completed
      { rest with batches := b :: rest.batches }
    else if b.value.deliveryCount ≥ maxAttempts then
      -- A record that was delivered too often is archived and not handed out.
      let rest := acquireLoop member deadline maxAttempts bs remaining
        (wrap32 (completed + clampI32 b.len))
      { rest with batches := b.with (b.value.unlocked .archived) :: rest.batches, changed := true }
    else
      let d := b.value.handedOut member deadline
      if b.len > remaining then
        -- The batch is split; the walk ends with its first part.
        let cut := b.first + remaining
        { batches := ⟨b.first, cut - 1, d⟩ :: ⟨cut, b.last, b.value⟩ :: bs
          acquired := [⟨b.first, cut - 1, d.deliveryCount⟩]
          completed
          changed := true }
      else
        let rest := acquireLoop member deadline maxAttempts bs (remaining - b.len) completed
        { batches := b.with d :: rest.batches
          acquired := ⟨b.first, b.last, d.deliveryCount⟩ :: rest.acquired
          completed := rest.completed
          changed := true }

namespace AcquisitionState
variable (sm : AcquisitionState)

def new (startOffset : ℤ) : AcquisitionState := { startOffset, endOffset := startOffset }

def coalesce : AcquisitionState := { sm with batches := Crabka.Found.coalesce sm.batches }

def splitAtOffset (offset : ℤ) : AcquisitionState :=
  { sm with batches := Crabka.Found.splitAtOffset offset sm.batches }

def advanceSpso : AcquisitionState :=
  let (start, batches) := dropDone (fun d : Delivery => d.state.terminal) sm.startOffset sm.batches
  coalesce { sm with
    startOffset := start
    endOffset := if sm.endOffset < start then start else sm.endOffset
    batches }

def materialize (hwm maxInflight : ℤ) : AcquisitionState :=
  if sm.batches.any (·.value.state = .available) = true ∨ sm.endOffset ≥ hwm then sm
  else
    let last := min (hwm - 1) (wrap64 (sm.endOffset + max maxInflight 1 - 1))
    if last < sm.endOffset then sm
    else coalesce { sm with
      batches := sm.batches ++ [⟨sm.endOffset, last, { state := .available, deliveryCount := 0 }⟩]
      endOffset := last + 1 }

def archives (first last : ℤ) (b : InFlightBatch) : Bool :=
  !(b.last < first || b.first > last) && !b.value.state.terminal

def archiveInternal (first last : ℤ) : AcquisitionState :=
  if first > last then sm
  else
    let cut := (sm.splitAtOffset first).splitAtOffset (wrap64 (last + 1))
    if cut.batches.any (archives first last) then
      advanceSpso { cut with
        deliveryCompleteCount := (cut.batches.filter (archives first last)).foldl
          (fun n b => max (-2 ^ 31) (min (n + clampI32 b.len) maxI32)) cut.deliveryCompleteCount
        batches := revalue (fun b =>
          if archives first last b then b.value.unlocked .archived else b.value) cut.batches
        dirty := true }
    else cut

def acquire (member : String) (maxRecords now lockDur maxAttempts : ℤ) :
    AcquisitionState × List AcquiredRange :=
  let walk := acquireLoop member (now + lockDur) maxAttempts sm.batches (max maxRecords 0)
    sm.deliveryCompleteCount
  let sm' := { sm with batches := walk.batches, deliveryCompleteCount := walk.completed }
  (if walk.changed then advanceSpso { sm' with dirty := true } else sm', walk.acquired)

def inRange (first last : ℤ) (b : InFlightBatch) : Bool :=
  !(b.first < first || b.last > last) && b.value.state == .acquired

def acknowledge (member : String) (first last : ℤ) (ack : AckType) : Except ℤ AcquisitionState :=
  if first > last then .error invalidRecordState
  else if rangeAcquiredBy member first last first sm.batches = false then .error invalidRecordState
  else
    let cut := (sm.splitAtOffset first).splitAtOffset (wrap64 (last + 1))
    .ok <| advanceSpso { cut with
      deliveryCompleteCount := if ack = .release then cut.deliveryCompleteCount
        else (cut.batches.filter (inRange first last)).foldl
          (fun n b => wrap32 (n + clampI32 b.len)) cut.deliveryCompleteCount
      batches := revalue (fun b =>
        if inRange first last b then b.value.unlocked ack.result else b.value) cut.batches
      dirty := true }

def renew (member : String) (first last now lockDur : ℤ) : Except ℤ AcquisitionState :=
  if first > last then .error invalidRecordState
  else if rangeAcquiredBy member first last first sm.batches = false then .error invalidRecordState
  else
    let cut := (sm.splitAtOffset first).splitAtOffset (wrap64 (last + 1))
    .ok { cut with
      batches := revalue (fun b =>
        if inRange first last b then { b.value with lockDeadline := some (now + lockDur) }
        else b.value) cut.batches
      dirty := true }

def releaseWhere (p : Delivery → Bool) : AcquisitionState :=
  if sm.batches.any fun b => p b.value then
    coalesce { sm with
      batches := revalue (fun b => if p b.value then b.value.unlocked .available else b.value)
        sm.batches
      dirty := true }
  else sm

def expireLocks (now : ℤ) : AcquisitionState :=
  sm.releaseWhere fun d => d.state == .acquired && d.lockDeadline.any (now ≥ ·)

def releaseMember (member : String) : AcquisitionState :=
  sm.releaseWhere fun d => d.state == .acquired && d.acquiredBy == some member

def toPersistBatches : ℤ × ℤ × List StateBatch :=
  (sm.startOffset, sm.deliveryCompleteCount, sm.batches.map fun b =>
    ⟨b.first, b.last, b.value.state.code, b.value.deliveryCount⟩)

def loadFrom (startOffset stateEpoch leaderEpoch deliveryCompleteCount : ℤ)
    (batches : List StateBatch) : AcquisitionState :=
  let loaded : List InFlightBatch := batches.map fun sb =>
    ⟨sb.firstOffset, sb.lastOffset, { state := .ofCode sb.deliveryState, deliveryCount := sb.deliveryCount }⟩
  coalesce
    { startOffset, stateEpoch, leaderEpoch, deliveryCompleteCount
      endOffset := max ((loaded.map (·.last + 1)).max?.getD startOffset) startOffset
      batches := loaded }

/-- A leader change: the state is persisted and loaded again. -/
def reload (stateEpoch leaderEpoch : ℤ) : AcquisitionState :=
  let (start, count, batches) := sm.toPersistBatches
  loadFrom start stateEpoch leaderEpoch count batches

end AcquisitionState

/-! ## Runs -/

/-- The machine, the clock, and the answers of the calls of `acquire`. -/
structure ShareRun where
  sm : AcquisitionState
  clock : ℤ := 0
  answers : List (List AcquiredRange) := []

/-- The calls of the state machine. -/
inductive ShareStep where
  | materialize (hwm maxInflight : ℤ)
  | acquire (member : String) (maxRecords now lockDur : ℤ)
  | acknowledge (member : String) (first last : ℤ) (ack : AckType) (now : ℤ)
  | renew (member : String) (first last now lockDur : ℤ)
  | expireLocks (now : ℤ)
  | releaseMember (member : String)
  | archiveInternal (first last : ℤ)
  | reload (stateEpoch leaderEpoch : ℤ)

def ShareStep.time : ShareStep → Option ℤ
  | .acquire _ _ now _ | .acknowledge _ _ _ _ now | .renew _ _ _ now _ | .expireLocks now => some now
  | _ => none

/-- The machine after a call, and the ranges that it returned. A call that is refused changes
nothing. -/
def AcquisitionState.after (maxAttempts : ℤ) (sm : AcquisitionState) :
    ShareStep → AcquisitionState × List AcquiredRange
  | .materialize hwm maxInflight => (sm.materialize hwm maxInflight, [])
  | .acquire member maxRecords now lockDur => sm.acquire member maxRecords now lockDur maxAttempts
  | .acknowledge member first last ack _ =>
    ((sm.acknowledge member first last ack).toOption.getD sm, [])
  | .renew member first last now lockDur =>
    ((sm.renew member first last now lockDur).toOption.getD sm, [])
  | .expireLocks now => (sm.expireLocks now, [])
  | .releaseMember member => (sm.releaseMember member, [])
  | .archiveInternal first last => (sm.archiveInternal first last, [])
  | .reload stateEpoch leaderEpoch => (sm.reload stateEpoch leaderEpoch, [])

/-- Calls in any order, with a clock that does not go back. -/
def shareSys (maxAttempts : ℤ) : Sys ShareRun ShareStep where
  enabled r l := ∀ now ∈ l.time, r.clock ≤ now
  next r l :=
    { sm := (r.sm.after maxAttempts l).1
      clock := l.time.getD r.clock
      answers := r.answers ++ [(r.sm.after maxAttempts l).2] }

instance (maxAttempts : ℤ) (r : ShareRun) (l : ShareStep) :
    Decidable ((shareSys maxAttempts).enabled r l) :=
  inferInstanceAs (Decidable (∀ now ∈ l.time, r.clock ≤ now))

end Crabka.Broker.Share
