import Crabka.Found.Runs
import Crabka.Kraft.Core.Machine

/-!
# A cluster of static voters over an unreliable network

Every voter runs `QuorumStateMachine.onEvent` from `QuorumState.bootstrap`. Messages are collected in `sent` and never
removed: one may be delivered at any later time, in any order, any number of times, or never. The engine addresses
broadcasts and answers a Fetch with the leader the node knows and the divergence hint of the core. `Label.log` replaces
a log by an arbitrary one, for every history of appends and truncations; `votes` has every vote ever recorded.
-/

namespace Crabka.Kraft
open Found

/-- A message on its way. -/
structure Envelope where
  src : NodeId
  dst : NodeId
  event : Event
  deriving DecidableEq, Repr

/-- One voter: the machine and the view of its log. -/
structure Node where
  machine : QuorumStateMachine
  log : LogView

/-- The voters, the messages that were sent, and the history of votes. -/
structure Cluster where
  nodes : NodeId → Node
  /-- Every message sent so far. -/
  sent : List Envelope
  /-- Every vote recorded so far: voter, epoch, candidate. -/
  votes : List (NodeId × ℕ × NodeId)

/-- The messages that the engine sends for an action of node `n`. -/
def envelopes (voters : VoterSet) (n : NodeId) (log : LogView) : Action → List Envelope
  | .sendVoteRequest epoch preVote =>
    (voters.voters.keys.filter (· ≠ n)).map fun peer =>
      ⟨n, peer, .receiveVoteRequest n peer epoch n log.logEnd preVote⟩
  | .replyVote dst epoch granted => [⟨n, dst, .receiveVoteResponse n epoch granted⟩]
  | .sendBeginQuorumEpoch epoch =>
    (voters.voters.keys.filter (· ≠ n)).map fun peer =>
      ⟨n, peer, .receiveBeginQuorumEpoch n epoch⟩
  | .sendEndQuorumEpoch epoch =>
    (voters.voters.keys.filter (· ≠ n)).map fun peer =>
      ⟨n, peer, .receiveEndQuorumEpoch n epoch⟩
  | .sendFetch leaderId =>
    if leaderId = n then []
    else [⟨n, leaderId, .receiveFetch n log.lastEpoch log.endOffset⟩]
  | _ => []

/-- The answer to a Fetch: the leader this node knows, with the core's divergence hint. -/
def fetchReply (n : NodeId) (m : QuorumStateMachine) (acts : List Action) : Event → List Envelope
  | .receiveFetch src _ _ =>
    let diverging := acts.findSome? fun
      | .truncateTo point => some point
      | _ => none
    match m.state.leaderId with
    | some l => [⟨n, src, .receiveFetchResponse l m.state.leaderEpoch diverging⟩]
    | none => []
  | _ => []

/-- The vote a machine has recorded, as an entry of the history. -/
def recordedVote (n : NodeId) (m : QuorumStateMachine) : List (NodeId × ℕ × NodeId) :=
  match m.state.votedKey with
  | some k => [(n, m.state.leaderEpoch, k.id)]
  | none => []

namespace Cluster

def machine (s : Cluster) (n : NodeId) : QuorumStateMachine := (s.nodes n).machine

def handle (s : Cluster) (n : NodeId) (ev : Event) (now : ℕ) : Cluster :=
  let node := s.nodes n
  let out := node.machine.onEvent ev node.log now
  { nodes := Function.update s.nodes n { node with machine := out.1 }
    sent := s.sent ++ (out.2.flatMap (envelopes out.1.state.voters n node.log) ++ fetchReply n out.1 out.2 ev)
    votes := s.votes ++ recordedVote n out.1 }

/-- A message is delivered, a timer fires, or a log changes. -/
inductive Label where
  /-- A message is delivered. -/
  | deliver (env : Envelope) (now : ℕ)
  /-- A timer fires at a node. -/
  | timeout (n : NodeId) (kind : TimerKind) (now : ℕ)
  /-- A node's log changes. -/
  | log (n : NodeId) (view : LogView)

def timerEvent : TimerKind → Event
  | .election => .electionTimeout
  | .fetch => .fetchTimeout

/-- The guards: only what was sent is delivered, and timers fire at voters that do not lead. -/
def Enabled (voters : VoterSet) (s : Cluster) : Label → Prop
  | .deliver env _ => env ∈ s.sent ∧ voters.contains env.dst = true
  | .timeout n _ _ => voters.contains n = true ∧ (s.machine n).role.isLeader = false
  | .log n _ => voters.contains n = true

instance (voters : VoterSet) (s : Cluster) (l) : Decidable (Enabled voters s l) := by
  cases l <;> unfold Enabled <;> infer_instance

def next (s : Cluster) : Label → Cluster
  | .deliver env now => s.handle env.dst env.event now
  | .timeout n kind now => s.handle n (timerEvent kind) now
  | .log n view =>
    { s with nodes := Function.update s.nodes n { s.nodes n with log := view } }

def sys (voters : VoterSet) : Sys Cluster Label where
  enabled := Enabled voters
  next := next

instance (voters : VoterSet) : ∀ s l, Decidable ((sys voters).enabled s l) :=
  fun s l => inferInstanceAs (Decidable (Enabled voters s l))

/-- Every voter at `QuorumState.bootstrap`, with any log and timeout. -/
def init (clusterId : Uuid) (voters : VoterSet) (timeoutMs : NodeId → ℕ)
    (logs : NodeId → LogView) : Cluster where
  nodes n := ⟨.new n (.bootstrap clusterId voters) (timeoutMs n), logs n⟩
  sent := []
  votes := []

def Leads (s : Cluster) (n : NodeId) (e : ℕ) : Prop :=
  (s.machine n).role.isLeader = true ∧ (s.machine n).state.leaderEpoch = e

instance (s : Cluster) (n : NodeId) (e : ℕ) : Decidable (s.Leads n e) :=
  inferInstanceAs (Decidable (_ ∧ _))

/-! ## What a step touches -/

variable {s : Cluster} {n n' : NodeId} {ev : Event} {now : ℕ}

@[simp] lemma machine_handle_self :
    (s.handle n ev now).machine n = ((s.machine n).onEvent ev (s.nodes n).log now).1 := by
  simp [handle, machine]

lemma machine_handle_of_ne (h : n' ≠ n) : (s.handle n ev now).machine n' = s.machine n' := by
  simp [handle, machine, Function.update_of_ne h]

@[simp] lemma machine_next_log {view : LogView} : (s.next (.log n view)).machine = s.machine := by
  funext k
  by_cases h : k = n
  · subst h; simp [next, machine]
  · simp [next, machine, Function.update_of_ne h]

lemma votes_subset_next (s : Cluster) (l : Label) : s.votes ⊆ (s.next l).votes := by
  cases l with
  | deliver | timeout => exact List.subset_append_left _ _
  | log => exact fun _ h => h

end Cluster
end Crabka.Kraft
