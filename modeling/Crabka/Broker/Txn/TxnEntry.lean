import Crabka.Metadata.Image

/-!
# A transaction and its decisions

`crates/broker/src/txn/state.rs` with the decisions of `decision.rs`, `two_pc.rs`, `coordinator.rs` and
`handlers/end_txn.rs`. Producer ids are `i64`, epochs `i16` and times `i64`, all as `ℤ`. `last_update_ms` and the
transactional id are left out: no decision reads them.
-/

namespace Crabka.Broker.Txn
open Metadata (i16Max i32Max)

/-- The states of a transaction. -/
inductive TxnState where
  | empty
  | ongoing
  | prepareCommit
  | prepareAbort
  | completeCommit
  | completeAbort
  | dead
  deriving DecidableEq, Repr

namespace TxnState

def canTransitionTo : TxnState → TxnState → Bool
  | .empty, .empty | .completeCommit, .empty | .completeAbort, .empty => true
  | .empty, .ongoing | .ongoing, .ongoing => true
  | .completeCommit, .ongoing | .completeAbort, .ongoing => true
  | .ongoing, .prepareCommit | .ongoing, .prepareAbort => true
  | .prepareCommit, .completeCommit | .prepareAbort, .completeAbort => true
  | .completeCommit, .dead | .completeAbort, .dead => true
  | _, _ => false

def prepare (committed : Bool) : TxnState := if committed then .prepareCommit else .prepareAbort

def complete (committed : Bool) : TxnState := if committed then .completeCommit else .completeAbort

def isPrepare (state : TxnState) : Bool := state = .prepareCommit || state = .prepareAbort

def isComplete (state : TxnState) : Bool := state = .completeCommit || state = .completeAbort

@[simp] lemma isPrepare_prepare (b : Bool) : (prepare b).isPrepare = true := by cases b <;> rfl

@[simp] lemma isPrepare_complete (b : Bool) : (complete b).isPrepare = false := by cases b <;> rfl

lemma prepare_injective : Function.Injective prepare := fun b b' => by revert b b'; decide

lemma complete_ne_prepare (b b' : Bool) : complete b ≠ prepare b' := by revert b b'; decide

lemma eq_ongoing_of_canTransitionTo_prepare {state : TxnState} {b : Bool}
    (h : state.canTransitionTo (prepare b)) : state = .ongoing := by
  cases b <;> cases state <;> first | rfl | cases h

end TxnState

inductive TxnVersion where
  | classic
  | flexible
  | verified
  | twoPhase
  deriving DecidableEq, Repr

/-- `verified`: completion bumps the epoch. -/
def TxnVersion.isVerified : TxnVersion → Bool
  | .verified | .twoPhase => true
  | .classic | .flexible => false

structure TopicPartition where
  topic : String
  partition : ℕ
  deriving DecidableEq, Repr

/-- `TxnEntry` as far as it is read. -/
structure TxnEntry where
  producerId : ℤ
  producerEpoch : ℤ
  state : TxnState := .empty
  txnTimeoutMs : ℤ
  partitions : Finset TopicPartition := ∅
  prevProducerId : ℤ := -1
  nextProducerId : ℤ := -1
  nextProducerEpoch : ℤ := -1
  startMs : ℤ
  deriving DecidableEq

inductive Code where
  | invalidTxnState
  | invalidProducerEpoch
  | concurrentTransactions
  deriving DecidableEq, Repr

namespace TxnEntry

def newEmpty (producerId producerEpoch txnTimeoutMs nowMs : ℤ) : TxnEntry where
  producerId := producerId
  producerEpoch := producerEpoch
  txnTimeoutMs := txnTimeoutMs
  startMs := nowMs

variable (e : TxnEntry)

def hasStagedProducerIdentity : Bool := 0 ≤ e.nextProducerEpoch

def clientProducerIdentity : ℤ × ℤ :=
  if e.hasStagedProducerIdentity then (e.nextProducerId, e.nextProducerEpoch)
  else (e.producerId, e.producerEpoch)

def completionProducerIdentity : ℤ × ℤ := e.clientProducerIdentity

/-! ## Registering partitions -/

/-- `register_partitions`, from the lock to its release. -/
def registerPartitions (producerId producerEpoch : ℤ) (partitions : Finset TopicPartition)
    (nowMs : ℤ) : Except Code TxnEntry :=
  if e.hasStagedProducerIdentity then .error .invalidTxnState
  else if e.producerId ≠ producerId ∨ e.producerEpoch ≠ producerEpoch then
    .error .invalidProducerEpoch
  else if e.state.canTransitionTo .ongoing = false then .error .invalidTxnState
  else
    let kept := if e.state.isComplete then ∅ else e.partitions
    .ok { e with
      state := .ongoing
      startMs := if e.state = .ongoing then e.startMs else nowMs
      partitions := kept ∪ partitions }

/-! ## Preparing -/

def nextProducerIdentityWithFresh (txnv : TxnVersion) (pid epoch : ℤ) (fresh : Option ℤ) :
    Option (ℤ × ℤ) :=
  if txnv.isVerified = false then some (pid, epoch)
  else if epoch < i16Max - 1 then some (pid, epoch + 1)
  else fresh.map fun producerId => (producerId, 0)

def nextRecoveryProducerIdentityWithFresh (pid epoch : ℤ) (fresh : Option ℤ) : Option (ℤ × ℤ) :=
  if epoch < i16Max then some (pid, epoch + 1)
  else fresh.map fun producerId => (producerId, 0)

def prepareCompletionIdentitiesWithFresh (txnv : TxnVersion) (fresh : Option ℤ) :
    Option TxnEntry :=
  if txnv.isVerified = false then some e
  else do
    let (clientPid, clientEpoch) := e.clientProducerIdentity
    let (completionPid, completionEpoch) ←
      if e.hasStagedProducerIdentity then
        nextRecoveryProducerIdentityWithFresh clientPid clientEpoch fresh
      else nextProducerIdentityWithFresh txnv clientPid clientEpoch fresh
    -- The marker's epoch; `i16::MAX` is reserved for it.
    let marked := { e with producerEpoch := min (e.producerEpoch + 1) i16Max }
    if e.hasStagedProducerIdentity ∨ completionPid ≠ e.producerId then
      some { marked with nextProducerId := completionPid, nextProducerEpoch := completionEpoch }
    else some { marked with nextProducerId := -1, nextProducerEpoch := -1 }

/-- An id is allocated when the epoch is at its end. -/
def atRotationBoundary : Bool :=
  if e.hasStagedProducerIdentity then e.clientProducerIdentity.2 = i16Max
  else i16Max - 1 ≤ e.clientProducerIdentity.2

/-- `prepare_completion_identities`, with the id that the allocator would give. -/
def prepareCompletionIdentities (txnv : TxnVersion) (allocated : ℤ) : Option TxnEntry :=
  e.prepareCompletionIdentitiesWithFresh txnv
    (if txnv.isVerified ∧ e.atRotationBoundary then some allocated else none)

def decidePhase1Transition (committed : Bool) : Except Code TxnEntry :=
  if e.state.canTransitionTo (.prepare committed) = false then .error .invalidTxnState
  else .ok { e with state := .prepare committed }

/-- `should_abort_idle_txn`; a two-phase transaction has the timeout `i32::MAX`. -/
def shouldAbortIdleTxn (nowMs : ℤ) : Bool :=
  e.state = .ongoing && e.txnTimeoutMs ≠ i32Max && e.txnTimeoutMs ≤ nowMs - e.startMs

def applyPrepareAbort : TxnEntry := { e with state := .prepareAbort }

/-! ## Ending -/

structure EndTxnRequest where
  producerId : ℤ
  producerEpoch : ℤ
  committed : Bool
  deriving DecidableEq, Repr

def isCompletedEndTxnRetry (pid epoch : ℤ) : Bool :=
  (e.producerId = pid && epoch + 1 ≤ i16Max && epoch + 1 = e.producerEpoch) ||
    (e.prevProducerId = pid && epoch = i16Max - 1 && e.producerEpoch = 0)

inductive EndTxnValidation where
  | proceed
  | alreadyComplete
  deriving DecidableEq, Repr

/-- `validate_end_txn`, while it holds the lock. -/
def validateEndTxn (req : EndTxnRequest) : Except Code EndTxnValidation :=
  if e.state.isPrepare then .error .concurrentTransactions
  else if e.state.isComplete ∧ (e.state = .completeCommit ↔ req.committed = true) ∧
      e.isCompletedEndTxnRetry req.producerId req.producerEpoch then .ok .alreadyComplete
  else if e.clientProducerIdentity ≠ (req.producerId, req.producerEpoch) then
    .error .invalidProducerEpoch
  else .ok .proceed

/-- `CompletionDecision`, with `ReacquireDecision` folded in. -/
inductive CompletionDecision where
  | proceed
  | alreadyComplete
  | reject (code : Code)
  deriving DecidableEq, Repr

def validateCompleteReacquire (expectedPid expectedEpoch : ℤ) (committed : Bool) :
    CompletionDecision :=
  if e.producerId ≠ expectedPid ∨ e.producerEpoch ≠ expectedEpoch then
    .reject .invalidProducerEpoch
  else if e.state = .prepare committed then .proceed
  else if e.state = .complete committed then .alreadyComplete
  else .reject .invalidTxnState

/-- `decide_end_txn_completion`, against the entry as it was prepared. -/
def decideEndTxnCompletion (prepared : TxnEntry) (committed : Bool) : CompletionDecision :=
  if e.state = .complete committed ∧
      (e.producerId, e.producerEpoch) = prepared.completionProducerIdentity then .alreadyComplete
  else e.validateCompleteReacquire prepared.producerId prepared.producerEpoch committed

/-- Shared by phase 3 of `EndTxn` and `apply_complete_abort`. `priorPid` is kept as the previous id when the id
changes. -/
def finish (committed : Bool) (identity : ℤ × ℤ) (priorPid : ℤ) : TxnEntry :=
  { e with
    state := .complete committed
    producerId := identity.1
    producerEpoch := identity.2
    prevProducerId := if identity.1 ≠ priorPid then priorPid else e.prevProducerId
    nextProducerId := -1
    nextProducerEpoch := -1
    partitions := ∅ }

/-- Phase 3 of `EndTxn`: the new entry, or `none` when nothing is written. -/
def completeEndTxn (prepared : TxnEntry) (req : EndTxnRequest) : Option TxnEntry :=
  if e.decideEndTxnCompletion prepared req.committed = .proceed then
    some (e.finish req.committed prepared.completionProducerIdentity req.producerId)
  else none

def completeAbortGuardOk (prepared : TxnEntry) : Bool :=
  e.producerId = prepared.producerId && e.producerEpoch = prepared.producerEpoch && e.state = .prepareAbort

/-- `complete_abort`, while it holds the lock. -/
def completeAbort (prepared : TxnEntry) : Option TxnEntry :=
  if e.completeAbortGuardOk prepared then
    some (e.finish false e.completionProducerIdentity e.producerId)
  else none

/-! ## What the decisions do -/

variable {e}

lemma registerPartitions_spec {pid epoch : ℤ} {ps : Finset TopicPartition} {now : ℤ}
    {e' : TxnEntry} (h : e.registerPartitions pid epoch ps now = .ok e') :
    e.hasStagedProducerIdentity = false ∧ e.state.canTransitionTo .ongoing ∧
      e'.state = .ongoing ∧ e'.producerId = e.producerId ∧ e'.producerEpoch = e.producerEpoch ∧
      e'.nextProducerEpoch = e.nextProducerEpoch ∧ ps ⊆ e'.partitions ∧
      (e.state = .ongoing → e.partitions ⊆ e'.partitions) := by
  unfold registerPartitions at h
  split at h
  · cases h
  · split at h
    · cases h
    · split at h
      · cases h
      · rename_i hstaged _ hmove
        cases h
        refine ⟨by simpa using hstaged, by simpa using hmove, rfl, rfl, rfl, rfl,
          Finset.subset_union_right, fun hongoing => ?_⟩
        rw [hongoing]
        exact Finset.subset_union_left

/-- At a verified version a prepared entry carries the next epoch, and either keeps its id or has a
fresh one staged. -/
lemma prepareCompletionIdentities_spec {txnv : TxnVersion} (hv : txnv.isVerified)
    (hunstaged : e.hasStagedProducerIdentity = false) (hlt : e.producerEpoch < i16Max) {fresh : ℤ}
    (hfresh : fresh ≠ e.producerId) :
    ∃ e', e.prepareCompletionIdentities txnv fresh = some e' ∧ e'.state = e.state ∧
      e'.producerId = e.producerId ∧ e'.producerEpoch = e.producerEpoch + 1 ∧
      e'.partitions = e.partitions ∧
      (e'.nextProducerEpoch = -1 ∧ e'.producerEpoch < i16Max ∨
        e'.nextProducerEpoch = 0 ∧ e'.nextProducerId = fresh) := by
  have hmin : min (e.producerEpoch + 1) i16Max = e.producerEpoch + 1 := min_eq_left (by omega)
  by_cases hroom : e.producerEpoch < i16Max - 1
  · refine ⟨{ e with
        producerEpoch := e.producerEpoch + 1, nextProducerId := -1, nextProducerEpoch := -1 },
      ?_, rfl, rfl, rfl, rfl, .inl ⟨rfl, by simp only; omega⟩⟩
    simp [prepareCompletionIdentities, prepareCompletionIdentitiesWithFresh, hv, hunstaged,
      clientProducerIdentity, nextProducerIdentityWithFresh, hroom, hmin]
  · refine ⟨{ e with
        producerEpoch := e.producerEpoch + 1, nextProducerId := fresh, nextProducerEpoch := 0 },
      ?_, rfl, rfl, rfl, rfl, .inr ⟨rfl, rfl⟩⟩
    have hbound : e.atRotationBoundary := by
      simp only [atRotationBoundary, hunstaged, clientProducerIdentity]
      simpa using hroom
    simp [prepareCompletionIdentities, prepareCompletionIdentitiesWithFresh, hv, hunstaged, hbound,
      clientProducerIdentity, nextProducerIdentityWithFresh, hroom, hmin, hfresh]

lemma completeEndTxn_spec {k e' : TxnEntry} {req : EndTxnRequest} (h : e.completeEndTxn k req = some e') :
    e.producerId = k.producerId ∧ e.producerEpoch = k.producerEpoch ∧
      e.state = .prepare req.committed ∧
      e' = e.finish req.committed k.completionProducerIdentity req.producerId := by
  unfold completeEndTxn at h
  split at h
  · rename_i hd
    cases h
    unfold decideEndTxnCompletion at hd
    split at hd
    · cases hd
    · unfold validateCompleteReacquire at hd
      split at hd
      · cases hd
      · split at hd
        · rename_i hsame hstate
          rw [not_or, not_not, not_not] at hsame
          exact ⟨hsame.1, hsame.2, hstate, rfl⟩
        · split at hd <;> cases hd
  · cases h

lemma completeAbort_spec {k e' : TxnEntry} (h : e.completeAbort k = some e') :
    e.producerId = k.producerId ∧ e.producerEpoch = k.producerEpoch ∧
      e.state = .prepare false ∧
      e' = e.finish false e.completionProducerIdentity e.producerId := by
  unfold completeAbort at h
  split at h
  · rename_i hguard
    cases h
    simp only [completeAbortGuardOk, Bool.and_eq_true, decide_eq_true_eq] at hguard
    exact ⟨hguard.1.1, hguard.1.2, hguard.2, rfl⟩
  · cases h

end TxnEntry
end Crabka.Broker.Txn
