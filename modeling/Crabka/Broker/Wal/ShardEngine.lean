import Crabka.Found.Runs
import Crabka.Kraft.Core.Types

/-!
# The diskless WAL shard

`crates/broker/src/wal/quorum/engine.rs` with placements, and `recompute_high_watermark` of
`crates/verified/src/consensus.rs`. The leader's log is its start and its end; `synced` and `fsynced` keep what the
leader and the other voters have on disk. The steps of `replicate_and_sync` are steps of their own.
-/

namespace Crabka.Broker.Wal
open Found
open Kraft (NodeId)

/-! ## The watermark -/

def strictMajority (voterCount : ℕ) : ℕ := voterCount / 2 + 1

/-- `candidate_has_majority`: the count stops at the majority. -/
def candidateHasMajority (logEnd : ℤ) (followerOffsets : List ℤ) (cand : ℤ) (majority : ℕ) : Bool :=
  let own := if logEnd ≥ cand ∧ 0 < majority then 1 else 0
  decide (followerOffsets.foldl (fun count x => if x ≥ cand ∧ count < majority then count + 1 else count)
    own ≥ majority)

def recomputeHighWatermark (logEnd : ℤ) (followerOffsets : List ℤ) (majority : ℕ)
    (epochStartOffset currentHwm : ℤ) : ℤ :=
  let own := if candidateHasMajority logEnd followerOffsets logEnd majority then logEnd else -2 ^ 63
  let majorityOffset := followerOffsets.foldl (fun best cand =>
    if cand > best ∧ candidateHasMajority logEnd followerOffsets cand majority = true then cand
    else best) own
  max (if majorityOffset > epochStartOffset then majorityOffset else currentHwm) currentHwm

/-! ## The engine -/

structure DistributedQuorum where
  me : NodeId
  voters : List NodeId
  durableOffsets : NodeId → Option ℤ

/-- Where a call of `replicate_and_sync` stands. -/
inductive ReplicateTask where
  | idle
  | syncing (target sourceEnd : ℤ)
  | synced (target sourceEnd : ℤ)
  | waiting (target : ℤ)
  | syncingLocally (target : ℤ)
  deriving DecidableEq, Repr

/-- `WalShardEngine` on the broker `me`, with the log of its only local replica. For the statements: `synced` and
`fsynced` are what is on disk, `oks` the targets that `replicate_and_sync` answered `Ok` for. -/
structure WalShardEngine where
  me : NodeId
  expectedVoters : ℕ
  logStart : ℤ
  logEnd : ℤ
  localDurable : ℤ
  durableWatermark : ℤ
  distributedRequired : Bool := false
  distributed : Option DistributedQuorum := none
  tasks : ℕ → ReplicateTask := fun _ => .idle
  synced : ℤ
  fsynced : NodeId → ℤ
  oks : List ℤ := []

/-- `new_distributed`: the log is synced, and the watermark starts at its start. -/
def WalShardEngine.newDistributed (me : NodeId) (expectedVoters : ℕ) (logStart logEnd : ℤ) :
    WalShardEngine where
  me
  expectedVoters
  logStart
  logEnd
  localDurable := logEnd
  durableWatermark := logStart
  synced := logEnd
  fsynced _ := logStart

namespace WalShardEngine
variable (e : WalShardEngine)

def onDisk (v : NodeId) : ℤ := if v = e.me then e.synced else e.fsynced v

def followerEnds (q : DistributedQuorum) : List ℤ :=
  (q.voters.filter (· ≠ q.me)).map fun v => (q.durableOffsets v).getD e.logStart

def noteAck (q : DistributedQuorum) (voter : NodeId) (offset : ℤ) : DistributedQuorum :=
  if offset > (q.durableOffsets voter).getD e.logStart then
    { q with durableOffsets := Function.update q.durableOffsets voter (some offset) }
  else q

/-- The watermark of a placement when the leader counts up to `leaderEnd`. -/
def watermarkOf (q : DistributedQuorum) (leaderEnd : ℤ) : ℤ :=
  recomputeHighWatermark leaderEnd (e.followerEnds q) (strictMajority q.voters.length) e.durableWatermark e.logStart

def recordDurableOffset (voter : NodeId) (offset leaderEnd : ℤ) : WalShardEngine :=
  match e.distributed with
  | none => e
  | some q =>
    if voter ∈ q.voters then
      let q := e.noteAck q voter offset
      { e with
        distributed := some q
        durableWatermark := if e.watermarkOf q leaderEnd ≤ e.durableWatermark then e.durableWatermark
          else e.watermarkOf q leaderEnd }
    else e

def accepts (voters : List NodeId) : Bool :=
  voters.head? == some e.me && voters.length == e.expectedVoters

/-- The placement after `configure_distributed`: acknowledgements of voters that stay are kept. -/
def install (voters : List NodeId) : WalShardEngine :=
  { e with
    distributedRequired := true
    distributed := if e.accepts voters then
        match e.distributed with
        | some q => if q.voters = voters then some q
            else some ⟨e.me, voters, fun v => if v ∈ voters then q.durableOffsets v else none⟩
        | none => some ⟨e.me, voters, fun _ => none⟩
      else none }

def changes (voters : List NodeId) : Bool :=
  e.accepts voters && !(e.distributed.any fun q => q.voters == voters)

/-- `configure_distributed`: a new placement is followed by a look at the watermark. -/
def configureDistributed (voters : List NodeId) : WalShardEngine :=
  if e.changes voters then
    (e.install voters).recordDurableOffset e.me (max e.logStart (min e.localDurable e.logEnd)) e.logEnd
  else e.install voters

def recordFollowerAck (voter : NodeId) (offset : ℤ) : WalShardEngine :=
  if (e.distributed.any fun q => decide (voter ∈ q.voters.tail)) = true ∧
      e.logStart ≤ offset ∧ offset ≤ e.logEnd then
    e.recordDurableOffset voter offset e.logEnd
  else e

/-- `adopt_local_durable_prefix` for the present log. -/
def adoptLocalDurablePrefix (durable : ℤ) : WalShardEngine :=
  if e.logStart ≤ durable ∧ durable ≤ e.logEnd then
    ({ e with localDurable := max e.localDurable durable } : WalShardEngine).recordDurableOffset
      e.me durable e.logEnd
  else e

def move (i : ℕ) (task : ReplicateTask) : WalShardEngine :=
  { e with tasks := Function.update e.tasks i task }

/-- A call of `replicate_and_sync` returns `Ok`. -/
def answer (i : ℕ) (target : ℤ) : WalShardEngine :=
  { e.move i .idle with oks := target :: e.oks }

/-- `replicate_and_sync` up to its sync. -/
def replicateBegin (i : ℕ) (target : ℤ) : WalShardEngine :=
  if target ≤ e.durableWatermark then e.answer i target
  else if target > e.logEnd then e
  else if e.distributedRequired then
    if e.distributed.isSome then e.move i (.syncing target e.logEnd) else e
  else e.move i (.syncingLocally target)

def replicateSynced (i : ℕ) : WalShardEngine :=
  match e.tasks i with
  | .syncing target sourceEnd => { e.move i (.synced target sourceEnd) with synced := e.logEnd }
  | .syncingLocally target =>
    -- The local replica alone: it has to be a majority.
    if 1 < strictMajority e.expectedVoters then { e.move i .idle with synced := e.logEnd }
    else { e.answer i target with synced := e.logEnd, durableWatermark := target }
  | _ => e

def replicateFailed (i : ℕ) : WalShardEngine := e.move i .idle

def replicateRecord (i : ℕ) : WalShardEngine :=
  match e.tasks i with
  | .synced target sourceEnd =>
    let e : WalShardEngine := { e with localDurable := max e.localDurable target }
    match e.distributed with
    | none => e.move i .idle
    | some q => (e.recordDurableOffset q.me target sourceEnd).move i (.waiting target)
  | _ => e

def replicatePoll (i : ℕ) : WalShardEngine :=
  match e.tasks i with
  | .waiting target =>
    if e.durableWatermark ≥ target then e.answer i target
    else if e.distributed.isNone then e.move i .idle
    else e
  | _ => e

end WalShardEngine

/-! ## Runs -/

/-- The calls of the engine, with `replicate_and_sync` cut at its await points. -/
inductive WalStep where
  | configure (voters : List NodeId)
  | append (logEnd : ℤ)
  | sync
  | fsync (voter : NodeId) (offset : ℤ)
  | ack (voter : NodeId) (offset : ℤ)
  | adopt (durable : ℤ)
  | replicateBegin (i : ℕ) (target : ℤ)
  | replicateSynced (i : ℕ)
  | replicateFailed (i : ℕ)
  | replicateRecord (i : ℕ)
  | replicatePoll (i : ℕ)
  deriving DecidableEq

/-- The log grows, a voter has on disk at most what the leader has, and acknowledges only what it has on disk, as does
the leader when a prefix is adopted. -/
def WalStep.enabled (e : WalShardEngine) : WalStep → Prop
  | .append logEnd => e.logEnd ≤ logEnd
  | .fsync voter offset => voter ≠ e.me ∧ e.fsynced voter ≤ offset ∧ offset ≤ e.logEnd
  | .ack voter offset => offset ≤ e.onDisk voter
  | .adopt durable => durable ≤ e.synced
  | .replicateBegin i _ => e.tasks i = .idle
  | _ => True

instance (e : WalShardEngine) (l : WalStep) : Decidable (l.enabled e) := by
  cases l <;> unfold WalStep.enabled <;> infer_instance

/-- The leader of a shard, its log and the disks of the voters. -/
def walSys : Sys WalShardEngine WalStep where
  enabled e l := l.enabled e
  next e
    | .configure voters => e.configureDistributed voters
    | .append logEnd => { e with logEnd }
    | .sync => { e with synced := e.logEnd }
    | .fsync voter offset => { e with fsynced := Function.update e.fsynced voter offset }
    | .ack voter offset => e.recordFollowerAck voter offset
    | .adopt durable => e.adoptLocalDurablePrefix durable
    | .replicateBegin i target => e.replicateBegin i target
    | .replicateSynced i => e.replicateSynced i
    | .replicateFailed i => e.replicateFailed i
    | .replicateRecord i => e.replicateRecord i
    | .replicatePoll i => e.replicatePoll i

instance (e : WalShardEngine) (l : WalStep) : Decidable (walSys.enabled e l) :=
  inferInstanceAs (Decidable (l.enabled e))

end Crabka.Broker.Wal
