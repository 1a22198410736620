import Mathlib

/-!
# The data model of the consensus core

The value types of `crates/kraft-core` (`types.rs`, `role.rs`, `event.rs`, `action.rs`) and `crates/voters`. Machine
integers are `ℕ` (`u16`, `u32`, `u64`) or `ℤ` (`i64`), saturating or wrapping where the source does; epochs are `u32`,
instants milliseconds. `BTreeSet` is `Finset` and `BTreeMap` `Std.ExtTreeMap`. The log is read through the three
observations of the `LogView` trait only.
-/

namespace Crabka.Kraft
open Std (ExtTreeMap)

/-! ## Identifiers and bounds -/

/-- A broker or controller id (`u64`). -/
abbrev NodeId := ℕ

abbrev Uuid := BitVec 128

instance : Std.TransOrd Uuid := inferInstance

/-- `u32::MAX`. -/
def epochMax : ℕ := 2 ^ 32 - 1

def u64Max : ℕ := 2 ^ 64 - 1

def i64Min : ℤ := -2 ^ 63

/-- `u32::saturating_add` of one, on epochs. -/
def saturatingSucc (e : ℕ) : ℕ := if e < epochMax then e + 1 else e

def saturatingAddMs (now : ℕ) (ms : ℕ) : ℕ := min (now + ms) u64Max

/-! ## Voters -/

structure VoterEndpoint where
  name : String
  host : String
  port : ℕ
  deriving DecidableEq, Repr

/-- The `kraft.version` range a voter supports, both ends included. -/
structure KRaftVersionRange where
  min : ℕ := 0
  max : ℕ := 1
  deriving DecidableEq, Repr

structure Voter where
  id : NodeId
  directoryId : Uuid := 0
  endpoints : List VoterEndpoint := []
  kraftVersion : KRaftVersionRange := {}
  deriving DecidableEq, Repr

/-- The voters by id. -/
structure VoterSet where
  voters : ExtTreeMap NodeId Voter
  deriving DecidableEq

namespace VoterSet

/-- `VoterSet::from_voters`: later voters replace earlier ones with the same id. -/
def fromVoters (vs : List Voter) : VoterSet :=
  ⟨vs.foldl (fun m v => m.insert v.id v) ∅⟩

def contains (s : VoterSet) (id : NodeId) : Bool := s.voters.contains id

def get (s : VoterSet) (id : NodeId) : Option Voter := s.voters[id]?

def ids (s : VoterSet) : Finset NodeId := s.voters.keys.toFinset

def len (s : VoterSet) : ℕ := s.voters.size

def isEmpty (s : VoterSet) : Bool := s.voters.isEmpty

@[simp] lemma mem_ids {s : VoterSet} {id : NodeId} : id ∈ s.ids ↔ s.contains id = true := by
  simp [ids, contains]

lemma card_ids (s : VoterSet) : s.ids.card = s.len := by
  have hnodup : s.voters.keys.Nodup := s.voters.distinct_keys.imp fun h heq => h (by simp [heq])
  rw [ids, List.toFinset_card_of_nodup hnodup, len, ExtTreeMap.length_keys]

end VoterSet

/-! ## Log positions and the log seam -/

structure ReplicaKey where
  id : NodeId
  directoryId : Uuid
  deriving DecidableEq, Repr

structure LogOffsetMetadata where
  offset : ℤ
  epoch : ℕ
  deriving DecidableEq, Repr

structure LogEnd where
  lastEpoch : ℕ
  lastOffset : ℤ
  deriving DecidableEq, Repr

/-- The `LogView` trait: all that the core can observe of a log. -/
structure LogView where
  /-- `end_offset`: one past the last appended record. -/
  endOffset : ℤ
  /-- `last_epoch`: the leader epoch of the last record, `0` for an empty log. -/
  lastEpoch : ℕ
  /-- `end_offset_for_epoch`. -/
  endOffsetForEpoch : ℕ → Option ℤ

def LogView.logEnd (log : LogView) : LogEnd := ⟨log.lastEpoch, log.endOffset⟩

/-! ## Quorum state -/

/-- What a node has on record. -/
structure QuorumState where
  clusterId : Uuid
  kraftVersion : ℕ
  leaderEpoch : ℕ
  leaderId : Option NodeId
  votedKey : Option ReplicaKey
  voters : VoterSet
  deriving DecidableEq

namespace QuorumState

def bootstrap (clusterId : Uuid) (voters : VoterSet) : QuorumState where
  clusterId := clusterId
  kraftVersion := 0
  leaderEpoch := 0
  leaderId := none
  votedKey := none
  voters := voters

def majority (s : QuorumState) : ℕ := s.voters.len / 2 + 1

end QuorumState

/-! ## Roles -/

structure ReplicaProgress where
  fetchOffset : ℤ := 0
  deriving DecidableEq, Repr

/-- The roles of a node. -/
inductive Role where
  | unattached (electionDeadline : ℕ)
  | voted (electionDeadline : ℕ)
  | follower (leaderId : NodeId) (fetchDeadline : ℕ)
  | prospective (granted : Finset NodeId) (electionDeadline : ℕ)
  | candidate (granted : Finset NodeId) (electionDeadline : ℕ)
  | leader (replicas : ExtTreeMap NodeId ReplicaProgress) (highWatermark : ℤ)
      (epochStartOffset : ℤ)
  | resigned
  | observer (leaderId : Option NodeId) (fetchDeadline : ℕ)
  deriving DecidableEq

/-- The names that `Role::name` returns. -/
inductive RoleName where
  | unattached | voted | follower | prospective | candidate | leader | resigned | observer
  deriving DecidableEq, Repr

namespace Role

def isLeader : Role → Bool
  | .leader .. => true
  | _ => false

def isCandidate : Role → Bool
  | .candidate .. => true
  | _ => false

def name : Role → RoleName
  | .unattached .. => .unattached
  | .voted .. => .voted
  | .follower .. => .follower
  | .prospective .. => .prospective
  | .candidate .. => .candidate
  | .leader .. => .leader
  | .resigned => .resigned
  | .observer .. => .observer

end Role

/-! ## Events and actions -/

/-- What a node reacts to. -/
inductive Event where
  | electionTimeout
  | fetchTimeout
  | receiveVoteRequest (src voterId : NodeId) (candidateEpoch : ℕ) (candidate : NodeId)
      (candidateLogEnd : LogEnd) (preVote : Bool)
  | receiveVoteResponse (src : NodeId) (epoch : ℕ) (voteGranted : Bool)
  | receiveBeginQuorumEpoch (leaderId : NodeId) (leaderEpoch : ℕ)
  | receiveEndQuorumEpoch (leaderId : NodeId) (leaderEpoch : ℕ)
  | receiveFetch (src : NodeId) (fetchEpoch : ℕ) (fetchOffset : ℤ)
  | receiveFetchResponse (leaderId : NodeId) (leaderEpoch : ℕ)
      (diverging : Option LogOffsetMetadata)
  deriving DecidableEq, Repr

inductive TimerKind where
  | election | fetch
  deriving DecidableEq, Repr

/-- What a node asks its driver to do. -/
inductive Action where
  | sendVoteRequest (epoch : ℕ) (preVote : Bool)
  | replyVote (dst : NodeId) (epoch : ℕ) (granted : Bool)
  | sendBeginQuorumEpoch (epoch : ℕ)
  | sendEndQuorumEpoch (epoch : ℕ)
  | sendFetch (leaderId : NodeId)
  | transitionedTo (name : RoleName)
  | persistQuorumState
  | appendLeaderChange (epoch : ℕ)
  | advanceHighWatermark (hwm : ℤ)
  | truncateTo (point : LogOffsetMetadata)
  | resetTimer (kind : TimerKind) (deadline : ℕ)
  deriving DecidableEq, Repr

end Crabka.Kraft
