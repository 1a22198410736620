import Crabka.Kraft.Core.Types

/-!
# The quorum state machine

`crates/kraft-core/src/core.rs`, with the pure kernels it calls in `crates/verified`. Where the source writes through
`&mut self`, a handler here returns the machine after the event and the actions in the order in which they are pushed
(`Out`). Time and log are read-only inputs.
-/

namespace Crabka.Kraft
open Std (ExtTreeMap)

/-! ## The verified kernels -/

/-- `crabka_verified::election_jitter_ms`: a hash of node and epoch, below `baseMs`. -/
def electionJitterMs (me : NodeId) (epoch : ℕ) (baseMs : ℕ) : ℕ :=
  if baseMs = 0 then 0
  else ((me * 0x9E3779B97F4A7C15 % 2 ^ 64) ^^^ (epoch * 0xD1B54A32D192ED03 % 2 ^ 64)) % baseMs

/-- `crabka_verified::log_is_up_to_date`. -/
def logIsUpToDateKernel (myEpoch : ℕ) (myEnd : ℤ) (candEpoch : ℕ) (candOffset : ℤ) : Bool :=
  candEpoch > myEpoch || (candEpoch == myEpoch && candOffset ≥ myEnd)

/-- The counting loop of `candidate_has_majority`: the count stops at `majority`. -/
def countUpTo (cand : ℤ) (majority : ℕ) : ℕ → List ℤ → ℕ
  | count, [] => count
  | count, x :: xs =>
    countUpTo cand majority (if x ≥ cand && count < majority then count + 1 else count) xs

def candidateHasMajority (logEnd : ℤ) (followerOffsets : List ℤ) (cand : ℤ) (majority : ℕ) :
    Bool :=
  let count := if logEnd ≥ cand && 0 < majority then 1 else 0
  countUpTo cand majority count followerOffsets ≥ majority

/-- The search loop of `recompute_high_watermark`: the greatest candidate with a majority. -/
def majorityOffset (logEnd : ℤ) (followerOffsets : List ℤ) (majority : ℕ) : ℤ → List ℤ → ℤ
  | best, [] => best
  | best, cand :: rest =>
    majorityOffset logEnd followerOffsets majority
      (if cand > best && candidateHasMajority logEnd followerOffsets cand majority then cand
       else best) rest

/-- `crabka_verified::recompute_high_watermark`. -/
def recomputeHighWatermarkKernel (logEnd : ℤ) (followerOffsets : List ℤ) (majority : ℕ)
    (epochStartOffset currentHwm : ℤ) : ℤ :=
  let start := if candidateHasMajority logEnd followerOffsets logEnd majority then logEnd
    else i64Min
  let best := majorityOffset logEnd followerOffsets majority start followerOffsets
  let gated := if best > epochStartOffset then best else currentHwm
  max gated currentHwm

/-! ## The machine -/

/-- `QuorumStateMachine`. -/
structure QuorumStateMachine where
  me : NodeId
  state : QuorumState
  adjacentVoters : Option VoterSet
  role : Role
  electionTimeoutMs : ℕ
  deriving DecidableEq

/-- What a handler returns: the machine after the event and the actions to execute. -/
abbrev Out := QuorumStateMachine × List Action

namespace QuorumStateMachine

/-- `QuorumStateMachine::new`, the timeout already in whole milliseconds. -/
def new (me : NodeId) (state : QuorumState) (electionTimeoutMs : ℕ) : QuorumStateMachine where
  me := me
  state := state
  adjacentVoters := none
  role := if state.voters.contains me then .unattached 0 else .observer none 0
  electionTimeoutMs := electionTimeoutMs

variable (m : QuorumStateMachine)

def isVoter : Bool := m.state.voters.contains m.me

def currentOrAdjacentVoter (id : NodeId) : Bool :=
  m.state.voters.contains id || m.adjacentVoters.any (·.contains id)

/-- `log_is_up_to_date`: the candidate's log is at least as up to date as ours. -/
def logIsUpToDate (log : LogView) (cand : LogEnd) : Bool :=
  logIsUpToDateKernel log.lastEpoch log.endOffset cand.lastEpoch cand.lastOffset

def electionDeadline (now : ℕ) : ℕ :=
  saturatingAddMs now (m.electionTimeoutMs + electionJitterMs m.me m.state.leaderEpoch m.electionTimeoutMs)

def fetchDeadline (now : ℕ) : ℕ := saturatingAddMs now m.electionTimeoutMs

/-! ### Voter sets -/

/-! ### Elections -/

/-- `transition_to_unattached`; the actions are those it pushes. -/
def transitionToUnattached (epoch : ℕ) (deadline : ℕ) : Out :=
  ({ m with
      state := { m.state with leaderEpoch := epoch, leaderId := none, votedKey := none }
      role := .unattached deadline },
    [.persistQuorumState, .transitionedTo .unattached, .resetTimer .election deadline])

def tallyPrevoteReachedMajority : Bool :=
  match m.role with
  | .prospective granted _ => granted.card ≥ m.state.majority
  | _ => false

def tallyCandidateReachedMajority : Bool :=
  match m.role with
  | .candidate granted _ => granted.card ≥ m.state.majority
  | _ => false

/-- `promote_to_leader_inner`: other voters start with no acknowledged offset, the epoch at the current log end. -/
def promoteToLeader (log : LogView) : Out :=
  let replicas := m.state.voters.voters.keys.foldl
    (fun r id => if id != m.me then r.insert id ({} : ReplicaProgress) else r) ∅
  ({ m with
      state := { m.state with leaderId := some m.me }
      role := .leader replicas 0 log.endOffset },
    [.appendLeaderChange m.state.leaderEpoch, .sendBeginQuorumEpoch m.state.leaderEpoch,
      .persistQuorumState, .transitionedTo .leader])

/-- The machine as a fresh candidate: the epoch is bumped and the node votes for itself. -/
def becomeCandidate (now : ℕ) : QuorumStateMachine :=
  let bumped : QuorumStateMachine := { m with
    state := { m.state with
      leaderEpoch := saturatingSucc m.state.leaderEpoch
      leaderId := none
      votedKey := some ⟨m.me, 0⟩ } }
  { bumped with role := .candidate {m.me} (bumped.electionDeadline now) }

def promoteToCandidate (log : LogView) (now : ℕ) : Out :=
  let c := m.becomeCandidate now
  let actions : List Action :=
    [.persistQuorumState, .transitionedTo .candidate,
      .sendVoteRequest c.state.leaderEpoch false, .resetTimer .election (c.electionDeadline now)]
  -- A lone voter wins its own election immediately.
  if c.tallyCandidateReachedMajority then
    let (l, more) := c.promoteToLeader log
    (l, actions ++ more)
  else (c, actions)

/-- The machine at the start of a pre-vote round: the leader belief is dropped. -/
def becomeProspective (now : ℕ) : QuorumStateMachine :=
  { m with
    state := { m.state with leaderId := none }
    role := .prospective {m.me} (m.electionDeadline now) }

def startElection (log : LogView) (now : ℕ) : Out :=
  let p := m.becomeProspective now
  let actions : List Action :=
    [.transitionedTo .prospective, .sendVoteRequest p.state.leaderEpoch true,
      .resetTimer .election (m.electionDeadline now)]
  -- A lone voter wins its own pre-vote immediately.
  if p.tallyPrevoteReachedMajority then
    let (c, more) := p.promoteToCandidate log now
    (c, actions ++ more)
  else (p, actions)

def handleElectionTimeout (log : LogView) (now : ℕ) : Out :=
  if m.isVoter then m.startElection log now else (m, [])

def handleFetchTimeout (log : LogView) (now : ℕ) : Out :=
  if m.isVoter then m.startElection log now else (m, [])

/-- `handle_end_quorum_epoch`; the announced leader is not looked at. -/
def handleEndQuorumEpoch (log : LogView) (_leaderId : NodeId) (leaderEpoch : ℕ)
    (now : ℕ) : Out :=
  if leaderEpoch < m.state.leaderEpoch then (m, [])
  else if m.isVoter then m.startElection log now
  else m.transitionToUnattached m.state.leaderEpoch now

/-- `handle_begin_quorum_epoch`: a higher epoch is accepted, an equal one while no leader is known. Accepting erases
the vote cast in the epoch. -/
def handleBeginQuorumEpoch (leaderId : NodeId) (leaderEpoch : ℕ) (now : ℕ) : Out :=
  let membershipKnown := !m.state.voters.isEmpty || m.adjacentVoters.any (!·.isEmpty)
  if membershipKnown && !m.currentOrAdjacentVoter leaderId then (m, [])
  else if leaderEpoch > m.state.leaderEpoch ||
      (leaderEpoch == m.state.leaderEpoch && m.state.leaderId.isNone) then
    let deadline := m.fetchDeadline now
    let role : Role := if m.isVoter then .follower leaderId deadline
      else .observer (some leaderId) deadline
    ({ m with
        state := { m.state with
          leaderEpoch := leaderEpoch, leaderId := some leaderId, votedKey := none }
        role := role },
      [.persistQuorumState, .transitionedTo role.name, .sendFetch leaderId, .resetTimer .fetch deadline])
  else (m, [])

/-- `handle_vote_response`: the round a grant belongs to is told from the role and the epoch. -/
def handleVoteResponse (log : LogView) (src : NodeId) (epoch : ℕ) (voteGranted : Bool)
    (now : ℕ) : Out :=
  if !voteGranted then
    -- A higher-epoch rejection fences the node.
    if epoch > m.state.leaderEpoch then m.transitionToUnattached epoch now else (m, [])
  else
    match m.role with
    | .prospective granted deadline =>
      if epoch = m.state.leaderEpoch then
        let p := { m with role := .prospective (insert src granted) deadline }
        if p.tallyPrevoteReachedMajority then p.promoteToCandidate log now else (p, [])
      else (m, [])
    | .candidate granted deadline =>
      if epoch = m.state.leaderEpoch then
        let c := { m with role := .candidate (insert src granted) deadline }
        if c.tallyCandidateReachedMajority then c.promoteToLeader log else (c, [])
      else (m, [])
    | _ => (m, [])

/-- The grant decision of `handle_vote_request`, taken after the epoch was advanced. -/
def grantsVote (log : LogView) (candidate : NodeId) (candLog : LogEnd) (preVote : Bool) : Bool :=
  let upToDate := logIsUpToDate log candLog
  if preVote then upToDate && m.state.leaderId.isNone
  else
    let notVotedOther := match m.state.votedKey with
      | none => true
      | some k => k.id == candidate
    upToDate && notVotedOther && m.state.leaderId.isNone

/-- The binding part of a grant: record the vote and wait for a leader. -/
def castVote (candidate : NodeId) (now : ℕ) : QuorumStateMachine :=
  { m with
    state := { m.state with votedKey := some ⟨candidate, 0⟩ }
    role := .voted (m.electionDeadline now) }

/-- The end of `handle_vote_request`: decide, record a binding vote, and reply. -/
def answerVote (log : LogView) (src candidate : NodeId) (candLog : LogEnd) (preVote : Bool)
    (now : ℕ) : Out :=
  let granted := m.grantsVote log candidate candLog preVote
  if granted && !preVote then
    (m.castVote candidate now,
      [.persistQuorumState, .transitionedTo .voted,
        .resetTimer .election (m.electionDeadline now),
        .replyVote src m.state.leaderEpoch granted])
  else (m, [.replyVote src m.state.leaderEpoch granted])

def handleVoteRequest (src voterId : NodeId) (candidateEpoch : ℕ) (candidate : NodeId)
    (candLog : LogEnd) (preVote : Bool) (log : LogView) (now : ℕ) : Out :=
  -- A Vote addressed to another voter is dropped without a reply; `0` is the unset address.
  if voterId ≠ m.me ∧ voterId ≠ 0 then (m, [])
  else if !m.isVoter || !m.currentOrAdjacentVoter candidate then
    (m, [.replyVote src m.state.leaderEpoch false])
  else if candidateEpoch < m.state.leaderEpoch then
    (m, [.replyVote src m.state.leaderEpoch false])
  else if !preVote && candidateEpoch > m.state.leaderEpoch then
    -- A standard vote at a higher epoch first advances us to that epoch.
    let (u, actions) := m.transitionToUnattached candidateEpoch now
    let (v, more) := u.answerVote log src candidate candLog preVote now
    (v, actions ++ more)
  else m.answerVote log src candidate candLog preVote now

/-! ### Replication -/

/-- The divergence test of `handle_fetch`. -/
def divergence (log : LogView) (fetchEpoch : ℕ) (fetchOffset : ℤ) :
    Option LogOffsetMetadata :=
  if 0 < fetchOffset then
    match log.endOffsetForEpoch fetchEpoch with
    | some divEnd => if divEnd < fetchOffset then some ⟨divEnd, fetchEpoch⟩ else none
    | none => none
  else none

/-- `recompute_high_watermark`. The second branch is a leader removed by its own voter record. -/
def recomputeHighWatermark (logEnd : ℤ) : ℤ :=
  match m.role with
  | .leader replicas hwm start =>
    let followerOffsets := replicas.values.map fun p => min p.fetchOffset logEnd
    if m.isVoter then
      recomputeHighWatermarkKernel logEnd followerOffsets m.state.majority start (min hwm logEnd)
    else
      let sorted := followerOffsets.mergeSort fun a b => decide (b ≤ a)
      max (((sorted[m.state.majority - 1]?).filter (start < ·)).getD hwm) hwm
  | _ => 0

/-- The progress of a tracked follower; a fetch of any other node leaves the map alone. -/
def withProgress (replicas : ExtTreeMap NodeId ReplicaProgress) (src : NodeId) (fetchOffset : ℤ) :
    ExtTreeMap NodeId ReplicaProgress :=
  if replicas.contains src then replicas.insert src ⟨fetchOffset⟩ else replicas

def handleFetch (log : LogView) (src : NodeId) (fetchEpoch : ℕ) (fetchOffset : ℤ) : Out :=
  match m.role with
  | .leader replicas hwm start =>
    match divergence log fetchEpoch fetchOffset with
    | some point => (m, [.truncateTo point])
    | none =>
      let replicas' := withProgress replicas src fetchOffset
      let m₁ := { m with role := .leader replicas' hwm start }
      let newHwm := m₁.recomputeHighWatermark log.endOffset
      if newHwm > hwm then
        ({ m₁ with role := .leader replicas' newHwm start }, [.advanceHighWatermark newHwm])
      else (m₁, [])
  | _ => (m, [])

/-- `handle_fetch_response`; the epoch of the response is not looked at. -/
def handleFetchResponse (leaderId : NodeId) (_leaderEpoch : ℕ)
    (diverging : Option LogOffsetMetadata) (now : ℕ) : Out :=
  match diverging with
  | some point => (m, [.truncateTo point])
  | none => (m, [.sendFetch leaderId, .resetTimer .fetch (m.fetchDeadline now)])

/-! ### Dispatch -/

def onEvent (ev : Event) (log : LogView) (now : ℕ) : Out :=
  match ev with
  | .receiveVoteRequest src voterId candidateEpoch candidate candLog preVote =>
    m.handleVoteRequest src voterId candidateEpoch candidate candLog preVote log now
  | .electionTimeout => m.handleElectionTimeout log now
  | .receiveVoteResponse src epoch voteGranted => m.handleVoteResponse log src epoch voteGranted now
  | .receiveBeginQuorumEpoch leaderId leaderEpoch =>
    m.handleBeginQuorumEpoch leaderId leaderEpoch now
  | .receiveEndQuorumEpoch leaderId leaderEpoch =>
    m.handleEndQuorumEpoch log leaderId leaderEpoch now
  | .receiveFetch src fetchEpoch fetchOffset => m.handleFetch log src fetchEpoch fetchOffset
  | .receiveFetchResponse leaderId leaderEpoch diverging =>
    m.handleFetchResponse leaderId leaderEpoch diverging now
  | .fetchTimeout => m.handleFetchTimeout log now

end QuorumStateMachine
end Crabka.Kraft
