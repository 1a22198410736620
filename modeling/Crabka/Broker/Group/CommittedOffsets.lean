import Crabka.Found.Maps
import Crabka.Found.Reads
import Crabka.Found.Runs

/-!
# Committed offsets in the log and in memory

The records of one `__consumer_offsets` partition as far as they concern committed offsets, their replay, and the
handlers, which append and then send a message to the actor of the group as separate steps. Encodings and authorisation
are left out; a refused request ends without an effect.
-/

namespace Crabka.Broker.Group.Offsets
open List hiding getElem?_insert
open Std (ExtTreeMap)
open Found

abbrev GroupId := String

abbrev OffsetKey := String × ℤ

structure OffsetEntry where
  offset : ℤ
  leaderEpoch : ℤ
  metadata : String
  commitTimestampMs : ℤ
  deriving DecidableEq

abbrev Committed := ExtTreeMap OffsetKey OffsetEntry

/-! ## The log and its replay -/

/-- The records that concern committed offsets. -/
inductive OffsetsRecord where
  /-- An `OffsetCommit` key; without a value it is a tombstone. -/
  | offsetCommit (group : GroupId) (key : OffsetKey) (value : Option OffsetEntry)
  /-- The tombstone of a classic `GroupMetadata` key. -/
  | groupMetadataTombstone (group : GroupId)

/-- A batch; a control batch is a commit or an abort marker of its producer. -/
structure Batch where
  producerId : ℤ := -1
  transactional : Bool := false
  control : Option Bool := none
  records : List OffsetsRecord := []

/-- The accumulators of `replay_records`. -/
structure Replayed where
  committed : ExtTreeMap GroupId Committed := ∅
  pendingTransactions : ExtTreeMap ℤ (List OffsetsRecord) := ∅

/-- `apply_record_at_timestamp` and `apply_tombstone`: the tombstones of these two keys do nothing. -/
def applyRecord (committed : ExtTreeMap GroupId Committed) : OffsetsRecord → ExtTreeMap GroupId Committed
  | .offsetCommit group key (some value) => upsert committed group ∅ (·.insert key value)
  | .offsetCommit _ _ none => committed
  | .groupMetadataTombstone _ => committed

/-- The body of the loop in `replay_records`. -/
def replayBatch (acc : Replayed) (batch : Batch) : Replayed :=
  match batch.control with
  | some committed =>
    { committed :=
        if committed then
          (acc.pendingTransactions[batch.producerId]?.getD []).foldl applyRecord acc.committed
        else acc.committed
      pendingTransactions := acc.pendingTransactions.erase batch.producerId }
  | none =>
    if batch.transactional then
      { acc with
        pendingTransactions :=
          upsert acc.pendingTransactions batch.producerId [] (· ++ batch.records) }
    else { acc with committed := batch.records.foldl applyRecord acc.committed }

def replayBatches (log : List Batch) : Replayed := log.foldl replayBatch {}

def loggedOffsets (log : List Batch) (group : GroupId) : Committed :=
  (replayBatches log).committed[group]?.getD ∅

/-- `replay_records`: reads of `REPLAY_READ_MAX` bytes up to the first that returns nothing. -/
def replayRecords (reader : Reader Batch) (log : List Batch) : Replayed := replayBatches (reader.readFrom log 0)

/-- The committed offsets that a fresh coordinator has for a group (`finalize`). -/
def freshOffsets (reader : Reader Batch) (log : List Batch) (group : GroupId) : Committed :=
  (replayRecords reader log).committed[group]?.getD ∅

def pendingTransaction (log : List Batch) (producerId : ℤ) : List OffsetsRecord :=
  log.foldl (fun acc batch =>
    if batch.producerId = producerId then
      match batch.control with
      | some _ => []
      | none => if batch.transactional then acc ++ batch.records else acc
    else acc) []

/-- `pending_transaction_start`: the place of the first batch of the open transaction, the end of the log without one. -/
def pendingTransactionStart (log : List Batch) (producerId : ℤ) : ℕ :=
  (log.zipIdx.foldl (fun (start : Option ℕ) (batch, n) =>
    if batch.producerId = producerId then
      match batch.control with
      | some _ => none
      | none => if batch.transactional then some (start.getD n) else start
    else start) none).getD log.length

/-- `pending_offset_entries`: by group, in the order of the log, from the first batch of the transaction up to the first
read that returns nothing. -/
def pendingOffsetEntries (reader : Reader Batch) (log : List Batch) (producerId : ℤ) :
    ExtTreeMap GroupId (List (OffsetKey × OffsetEntry)) :=
  let start := pendingTransactionStart log producerId
  (pendingTransaction (log.take start ++ reader.readFrom log start) producerId).foldl (fun offsets record =>
    match record with
    | .offsetCommit group key (some value) => upsert offsets group [] (· ++ [(key, value)])
    | .offsetCommit _ _ none | .groupMetadataTombstone _ => offsets) ∅

def commitRecords (group : GroupId) (entries : List (OffsetKey × OffsetEntry)) : List OffsetsRecord :=
  entries.map fun e => .offsetCommit group e.1 (some e.2)

/-! ## What a batch adds to the replay -/

def OffsetsRecord.entryOf (group : GroupId) : OffsetsRecord → Option (OffsetKey × OffsetEntry)
  | .offsetCommit g key (some value) => if g = group then some (key, value) else none
  | .offsetCommit _ _ none | .groupMetadataTombstone _ => none

/-- The offsets of the group that a batch at the end of the log makes visible. -/
def Batch.adds (log : List Batch) (group : GroupId) (batch : Batch) : List (OffsetKey × OffsetEntry) :=
  match batch.control with
  | some true => (pendingTransaction log batch.producerId).filterMap (·.entryOf group)
  | some false => []
  | none => if batch.transactional then [] else batch.records.filterMap (·.entryOf group)

lemma getD_upsert {ν : Type} (m : ExtTreeMap GroupId ν) (g : GroupId) (d : ν) (f : ν → ν) (group : GroupId) :
    (upsert m g d f)[group]?.getD d = if group = g then f (m[g]?.getD d) else m[group]?.getD d := by
  unfold upsert
  rw [getElem?_insert]
  split <;> rfl

lemma foldl_applyRecord (records : List OffsetsRecord) (committed : ExtTreeMap GroupId Committed)
    (group : GroupId) :
    (records.foldl applyRecord committed)[group]?.getD ∅ =
      rebuild (committed[group]?.getD ∅) (records.filterMap (·.entryOf group)) := by
  induction records generalizing committed with
  | nil => rfl
  | cons record records ih =>
    rw [foldl_cons, ih]
    match record with
    | .offsetCommit g key none | .groupMetadataTombstone g => rfl
    | .offsetCommit g key (some value) =>
      simp only [applyRecord, getD_upsert]
      obtain rfl | hg := eq_or_ne g group
      · rw [if_pos rfl, filterMap_cons_some (by exact if_pos rfl)]
        rfl
      · rw [if_neg (Ne.symm hg), filterMap_cons_none (by exact if_neg hg)]

variable (log : List Batch)

lemma pendingTransactions_replay (producerId : ℤ) :
    (replayBatches log).pendingTransactions[producerId]?.getD [] = pendingTransaction log producerId := by
  suffices h : ∀ (acc : Replayed) (l : List OffsetsRecord),
      acc.pendingTransactions[producerId]?.getD [] = l →
      (log.foldl replayBatch acc).pendingTransactions[producerId]?.getD [] =
        log.foldl (fun acc batch =>
          if batch.producerId = producerId then
            match batch.control with
            | some _ => []
            | none => if batch.transactional then acc ++ batch.records else acc
          else acc) l from h {} [] rfl
  induction log with
  | nil => intro acc l h; exact h
  | cons batch log ih =>
    intro acc l h
    refine ih _ _ ?_
    dsimp only [replayBatch]
    cases batch.control with
    | some committed =>
      dsimp only
      rw [getElem?_erase]
      by_cases hp : batch.producerId = producerId
      · rw [if_pos hp.symm, if_pos hp]
        rfl
      · rw [if_neg (Ne.symm hp), if_neg hp, h]
    | none =>
      dsimp only
      by_cases ht : batch.transactional
      · rw [if_pos ht, if_pos ht]
        unfold upsert
        rw [getElem?_insert]
        by_cases hp : batch.producerId = producerId
        · rw [if_pos hp.symm, if_pos hp, hp, h]
          rfl
        · rw [if_neg (Ne.symm hp), if_neg hp, h]
      · rw [if_neg ht, if_neg ht, ite_self, h]

variable {log} in
lemma freshOffsets_eq {reader : Reader Batch} (h : reader.Reaches log 0) (group : GroupId) :
    freshOffsets reader log group = loggedOffsets log group := by
  rw [freshOffsets, replayRecords, reader.readFrom_eq h, drop_zero, loggedOffsets]

variable {log} in
lemma getD_pendingOffsetEntries {reader : Reader Batch} (h : reader.Reaches log 0) (producerId : ℤ) (group : GroupId) :
    (pendingOffsetEntries reader log producerId)[group]?.getD [] =
      (pendingTransaction log producerId).filterMap (·.entryOf group) := by
  dsimp only [pendingOffsetEntries]
  rw [reader.readFrom_eq (h.mono (Nat.zero_le _)), take_append_drop]
  suffices h : ∀ (records : List OffsetsRecord) (offsets : ExtTreeMap GroupId (List (OffsetKey × OffsetEntry))),
      (records.foldl (fun offsets record =>
        match record with
        | .offsetCommit group key (some value) => upsert offsets group [] (· ++ [(key, value)])
        | .offsetCommit _ _ none | .groupMetadataTombstone _ => offsets) offsets)[group]?.getD [] =
        offsets[group]?.getD [] ++ records.filterMap (·.entryOf group) from h _ ∅
  intro records
  induction records with
  | nil => intro offsets; exact (append_nil _).symm
  | cons record records ih =>
    intro offsets
    rw [foldl_cons, ih]
    match record with
    | .offsetCommit g key none | .groupMetadataTombstone g => rfl
    | .offsetCommit g key (some value) =>
      dsimp only
      rw [getD_upsert]
      obtain rfl | hg := eq_or_ne g group
      · rw [if_pos rfl, filterMap_cons_some (by exact if_pos rfl), append_assoc]
        rfl
      · rw [if_neg (Ne.symm hg), filterMap_cons_none (by exact if_neg hg)]

/-- **Replay of one more batch**: the offsets that it makes visible are inserted in order. -/
theorem loggedOffsets_append (batch : Batch) (group : GroupId) :
    loggedOffsets (log ++ [batch]) group = rebuild (loggedOffsets log group) (batch.adds log group) := by
  unfold loggedOffsets replayBatches Batch.adds
  rw [foldl_append, foldl_cons, foldl_nil]
  have hpending := pendingTransactions_replay log batch.producerId
  unfold replayBatches at hpending
  unfold replayBatch
  match batch.control with
  | some true =>
    rw [← hpending]
    exact foldl_applyRecord _ _ _
  | some false => rfl
  | none =>
    dsimp only
    split
    · rfl
    · exact foldl_applyRecord _ _ _

@[simp] lemma filterMap_commitRecords (g group : GroupId) (entries : List (OffsetKey × OffsetEntry)) :
    (commitRecords g entries).filterMap (·.entryOf group) = if g = group then entries else [] := by
  unfold commitRecords
  rw [filterMap_map]
  split
  next h => exact (filterMap_congr fun e _ => if_pos h).trans filterMap_some
  next h => exact filterMap_eq_nil_iff.mpr fun e _ => if_neg h

/-! ## Requests and their steps -/

/-- The requests that read or change committed offsets. -/
inductive Request where
  | offsetCommit (group : GroupId) (entries : List (OffsetKey × OffsetEntry))
  | txnOffsetCommit (group : GroupId) (producerId : ℤ) (entries : List (OffsetKey × OffsetEntry))
  | writeTxnMarker (producerId : ℤ) (commit : Bool)
  | offsetDelete (group : GroupId) (keys : List OffsetKey)
  | deleteGroup (group : GroupId)

/-- A request in progress; `attached` says whether the actor that it found is still that of the group. -/
inductive Task where
  | offsetCommit (group : GroupId) (entries : List (OffsetKey × OffsetEntry)) (attached appended : Bool)
  | txnOffsetCommit (group : GroupId) (producerId : ℤ) (entries : List (OffsetKey × OffsetEntry))
  | writeTxnMarker (producerId : ℤ) (commit : Bool)
      (offsets : ExtTreeMap GroupId (List (OffsetKey × OffsetEntry))) (appended : Bool)
  | offsetDelete (group : GroupId) (keys : List OffsetKey) (attached appended : Bool)
  | deleteGroup (group : GroupId) (attached tombstoned : Bool)

/-- The partition's log, the committed offsets of the group actors, and the requests in progress. -/
structure OffsetsState where
  log : List Batch := []
  actors : ExtTreeMap GroupId Committed := ∅
  tasks : ExtTreeMap ℕ Task := ∅

def OffsetsState.live (s : OffsetsState) (group : GroupId) : Committed := s.actors[group]?.getD ∅

def getOrCreate (actors : ExtTreeMap GroupId Committed) (group : GroupId) : ExtTreeMap GroupId Committed :=
  if actors.contains group then actors else actors.insert group ∅

def Task.batch : Task → Option Batch
  | .offsetCommit group entries _ false => some { records := commitRecords group entries }
  | .txnOffsetCommit group producerId entries =>
    some { producerId, transactional := true, records := commitRecords group entries }
  | .writeTxnMarker producerId commit _ false => some { producerId, control := some commit }
  | .offsetDelete group keys _ false =>
    if keys.isEmpty then none
    else some { records := keys.map fun key => .offsetCommit group key none }
  | .offsetCommit _ _ _ true | .writeTxnMarker _ _ _ true | .offsetDelete _ _ _ true
  | .deleteGroup .. => none

/-- What is left of a request after its append. -/
def Task.afterAppend : Task → Option Task
  | .offsetCommit group entries attached _ => some (.offsetCommit group entries attached true)
  | .txnOffsetCommit .. => none
  | .writeTxnMarker producerId commit offsets _ =>
    if commit = true ∧ ¬ offsets.isEmpty then some (.writeTxnMarker producerId commit offsets true)
    else none
  | .offsetDelete group keys attached _ => some (.offsetDelete group keys attached true)
  | .deleteGroup .. => none

def Task.unwritten : Task → Bool
  | .offsetCommit _ _ _ appended | .writeTxnMarker _ _ _ appended | .offsetDelete _ _ _ appended =>
    !appended
  | .txnOffsetCommit .. => true
  | .deleteGroup _ _ tombstoned => !tombstoned

/-- The actor of the group is gone, for the handlers that found it too. -/
def Task.detach (group : GroupId) : Task → Task
  | .offsetCommit g entries attached appended =>
    .offsetCommit g entries (attached && decide (g ≠ group)) appended
  | .offsetDelete g keys attached appended =>
    .offsetDelete g keys (attached && decide (g ≠ group)) appended
  | .deleteGroup g attached tombstoned => .deleteGroup g (attached && decide (g ≠ group)) tombstoned
  | .txnOffsetCommit g producerId entries => .txnOffsetCommit g producerId entries
  | .writeTxnMarker producerId commit offsets appended =>
    .writeTxnMarker producerId commit offsets appended

def OffsetsState.detach (s : OffsetsState) (group : GroupId) : OffsetsState :=
  { s with actors := s.actors.erase group, tasks := s.tasks.map fun _ t => t.detach group }

/-- A request starts: handlers look up or create the actor, a commit marker reads the open transaction. -/
def OffsetsState.begin (reader : Reader Batch) (s : OffsetsState) : Request → OffsetsState × Task
  | .offsetCommit group entries =>
    ({ s with actors := getOrCreate s.actors group }, .offsetCommit group entries true false)
  | .txnOffsetCommit group producerId entries =>
    ({ s with actors := getOrCreate s.actors group }, .txnOffsetCommit group producerId entries)
  | .writeTxnMarker producerId commit =>
    (s, .writeTxnMarker producerId commit
      (if commit then pendingOffsetEntries reader s.log producerId else ∅) false)
  | .offsetDelete group keys => (s, .offsetDelete group keys true false)
  | .deleteGroup group => (s, .deleteGroup group true false)

/-- A commit marker publishes the offsets of one group after the other. -/
inductive Event where
  | start (n : ℕ) (request : Request)
  | refuse (n : ℕ)
  | append (n : ℕ)
  | message (n : ℕ)
  | publish (n : ℕ) (group : GroupId)

/-- The group of an `OffsetDelete` or `DeleteGroups` request exists. -/
def Request.found (actors : ExtTreeMap GroupId Committed) : Request → Bool
  | .offsetDelete group _ | .deleteGroup group => actors.contains group
  | .offsetCommit .. | .txnOffsetCommit .. | .writeTxnMarker .. => true

def Task.awaitsMessage : Task → Bool
  | .offsetCommit _ _ _ appended | .offsetDelete _ _ _ appended => appended
  | .deleteGroup .. => true
  | .txnOffsetCommit .. | .writeTxnMarker .. => false

def Task.publishes (group : GroupId) : Task → Bool
  | .writeTxnMarker _ true offsets true => offsets.contains group
  | .writeTxnMarker _ true _ false | .writeTxnMarker _ false _ _ | .offsetCommit .. | .txnOffsetCommit .. | .offsetDelete ..
  | .deleteGroup .. => false

/-- The message of a request: `UpdateCommitted`, `RemoveCommitted`, or the two steps of a deletion. -/
def OffsetsState.deliver (s : OffsetsState) (n : ℕ) : Task → OffsetsState
  | .offsetCommit group entries attached _ =>
    { s with
      actors := if attached then s.actors.modify group (rebuild · entries) else s.actors
      tasks := s.tasks.erase n }
  | .offsetDelete group keys attached _ =>
    { s with
      actors := if attached then s.actors.modify group (keys.foldl ExtTreeMap.erase ·) else s.actors
      tasks := s.tasks.erase n }
  | .deleteGroup group attached false =>
    if attached then
      { s.detach group with
        log := s.log ++ [{ records := [.groupMetadataTombstone group] }]
        tasks := (s.detach group).tasks.insert n (.deleteGroup group false true) }
    else { s with tasks := s.tasks.erase n }
  | .deleteGroup group _ true => { s.detach group with tasks := (s.detach group).tasks.erase n }
  | .txnOffsetCommit .. | .writeTxnMarker .. => s

/-- `apply_committed_offsets` for one group. -/
def OffsetsState.publish (s : OffsetsState) (n : ℕ) (group : GroupId) : Task → OffsetsState
  | .writeTxnMarker producerId commit offsets appended =>
    let rest := offsets.erase group
    { s with
      actors := (getOrCreate s.actors group).modify group (rebuild · (offsets[group]?.getD []))
      tasks :=
        if rest.isEmpty then s.tasks.erase n
        else s.tasks.insert n (.writeTxnMarker producerId commit rest appended) }
  | .offsetCommit .. | .txnOffsetCommit .. | .offsetDelete .. | .deleteGroup .. => s

def OffsetsState.has (s : OffsetsState) (n : ℕ) (p : Task → Bool) : Bool := s.tasks[n]?.any p

def handlers (reader : Reader Batch) : Sys OffsetsState Event where
  enabled s
    | .start n request => s.tasks.contains n = false ∧ request.found s.actors = true
    | .refuse n => s.has n Task.unwritten = true
    | .append n => s.has n (·.batch.isSome) = true
    | .message n => s.has n Task.awaitsMessage = true
    | .publish n group => s.has n (Task.publishes group) = true
  next s
    | .start n request =>
      { (s.begin reader request).1 with tasks := s.tasks.insert n (s.begin reader request).2 }
    | .refuse n => { s with tasks := s.tasks.erase n }
    | .append n =>
      match s.tasks[n]? with
      | none => s
      | some t =>
        { s with
          log := s.log ++ t.batch.toList
          tasks := match t.afterAppend with
            | some t' => s.tasks.insert n t'
            | none => s.tasks.erase n }
    | .message n =>
      match s.tasks[n]? with
      | none => s
      | some t => s.deliver n t
    | .publish n group =>
      match s.tasks[n]? with
      | none => s
      | some t => s.publish n group t

end Crabka.Broker.Group.Offsets
