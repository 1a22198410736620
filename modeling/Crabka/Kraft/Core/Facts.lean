import Crabka.Kraft.Core.Machine

/-!
# What one event can do to an election

`Facts` says for one event how the epoch moves, where a recorded vote comes from, how a candidacy or a leadership
begins and which vote messages leave the node; `onEvent_facts` proves it for every event, so that cluster invariants
open no handler. Epochs saturate at `u32::MAX`; the facts about votes and candidacies are stated below it.
-/

namespace Crabka.Kraft.QuorumStateMachine
variable {m m' : QuorumStateMachine} {ev : Event} {log : LogView} {now : ℕ} {acts : List Action}

/-- A binding request of the machine's own epoch that it grants: it knows no leader, has no other vote recorded, and
the candidate's log is up to date. -/
def GrantsInEpoch (m : QuorumStateMachine) (log : LogView) (ev : Event) (candidate : NodeId) :
    Prop :=
  ∃ src voterId candLog,
    ev = .receiveVoteRequest src voterId m.state.leaderEpoch candidate candLog false ∧
    m.state.leaderId = none ∧ (∀ k, m.state.votedKey = some k → k.id = candidate) ∧
    logIsUpToDate log candLog = true

/-- The node `u` backs the machine's current candidacy: it was counted before, or the event is its
grant. -/
def Backed (m : QuorumStateMachine) (ev : Event) (u : NodeId) : Prop :=
  (∃ g d, m.role = .candidate g d ∧ u ∈ g) ∨ ev = .receiveVoteResponse u m.state.leaderEpoch true

/-- A grant in answer to `ev`: of a pre-vote round at or above the epoch, or of a binding round, with the vote
recorded. -/
def GrantFor (m' : QuorumStateMachine) (ev : Event) (dst : NodeId) : Prop :=
  ∃ voterId candidateEpoch candidate candLog preVote,
    ev = .receiveVoteRequest dst voterId candidateEpoch candidate candLog preVote ∧
    (preVote = true ∧ m'.state.leaderEpoch ≤ candidateEpoch ∨
      preVote = false ∧ m'.state.votedKey = some ⟨candidate, 0⟩)

/-- The machine can no longer be a candidate of epoch `e`: it is past it, or in it but no
candidate. -/
def PastCandidacy (m : QuorumStateMachine) (e : ℕ) : Prop :=
  e < m.state.leaderEpoch ∨ (e = m.state.leaderEpoch ∧ m.role.isCandidate = false)

/-- The machine may have asked for pre-votes in epoch `e`: it has reached the epoch, and is past
its candidacy there. -/
def AskedPreVote (m : QuorumStateMachine) (e : ℕ) : Prop :=
  e ≤ m.state.leaderEpoch ∧ (e < epochMax → m.PastCandidacy e)

/-- What one event may do to a node, as far as elections are concerned. -/
structure Facts (m : QuorumStateMachine) (log : LogView) (ev : Event) (m' : QuorumStateMachine)
    (acts : List Action) : Prop where
  me : m'.me = m.me
  voters : m'.state.voters = m.state.voters
  adjacent : m'.adjacentVoters = m.adjacentVoters
  epoch_le : m.state.leaderEpoch ≤ m'.state.leaderEpoch
  /-- A recorded vote was recorded before, is of a new epoch, or is being granted. -/
  voted : ∀ k, m'.state.votedKey = some k → m.state.leaderEpoch < epochMax →
    (m'.state.leaderEpoch = m.state.leaderEpoch ∧ m.state.votedKey = some k) ∨
    m.state.leaderEpoch < m'.state.leaderEpoch ∨
    (m'.state.leaderEpoch = m.state.leaderEpoch ∧ GrantsInEpoch m log ev k.id)
  /-- A candidacy goes on with more grants, or starts in a new epoch with the node's own vote. -/
  candidate : ∀ g d, m'.role = .candidate g d → m.state.leaderEpoch < epochMax →
    (m.role.isCandidate = true ∧ m'.state.leaderEpoch = m.state.leaderEpoch ∧ ∀ u ∈ g, Backed m ev u) ∨
    (m.state.leaderEpoch < m'.state.leaderEpoch ∧ g = {m.me} ∧ m'.state.votedKey = some ⟨m.me, 0⟩)
  /-- A leadership goes on, is won with a majority of grants, or is won alone in a new epoch. -/
  leader : m'.role.isLeader = true → m.state.leaderEpoch < epochMax →
    (m.role.isLeader = true ∧ m'.state.leaderEpoch = m.state.leaderEpoch) ∨
    (m.role.isCandidate = true ∧ m'.state.leaderEpoch = m.state.leaderEpoch ∧
      ∃ g : Finset NodeId, m.state.majority ≤ g.card ∧ ∀ u ∈ g, Backed m ev u) ∨
    (m.state.leaderEpoch < m'.state.leaderEpoch ∧ m.state.majority ≤ 1 ∧ m'.state.votedKey = some ⟨m.me, 0⟩)
  /-- A grant is of the machine's epoch and answers a request. -/
  grant : ∀ dst e, Action.replyVote dst e true ∈ acts → e = m'.state.leaderEpoch ∧ GrantFor m' ev dst
  /-- A pre-vote request is of an epoch in which the machine is not a candidate afterwards. -/
  preVote : ∀ e, Action.sendVoteRequest e true ∈ acts → m'.AskedPreVote e

abbrev FactsOf (m : QuorumStateMachine) (log : LogView) (ev : Event) (r : QuorumStateMachine × List Action) :
    Prop := Facts m log ev r.1 r.2

/-! ## Events that move no election -/

lemma Facts.of_quiet (hcand : ∀ g d, m'.role = .candidate g d → m.role = .candidate g d)
    (hlead : m'.role.isLeader → m.role.isLeader) (hme : m'.me = m.me := by rfl)
    (hstate : m'.state = m.state := by rfl) (hadj : m'.adjacentVoters = m.adjacentVoters := by rfl)
    (hgrant : ∀ dst e, Action.replyVote dst e true ∉ acts := by simp)
    (hreq : ∀ e, Action.sendVoteRequest e true ∉ acts := by simp) : Facts m log ev m' acts where
  me := hme
  voters := by rw [hstate]
  adjacent := hadj
  epoch_le := by rw [hstate]
  voted := by
    intro k hk _
    rw [hstate] at hk ⊢
    exact .inl ⟨rfl, hk⟩
  candidate := by
    intro g d hrole _
    have hold := hcand g d hrole
    refine .inl ⟨by rw [hold]; rfl, by rw [hstate], fun u hu => .inl ⟨g, d, hold, hu⟩⟩
  leader := by
    intro h _
    exact .inl ⟨hlead h, by rw [hstate]⟩
  grant := fun dst e h => absurd h (hgrant dst e)
  preVote := fun e h => absurd h (hreq e)

lemma Facts.idle : Facts m log ev m [] := .of_quiet (fun _ _ h => h) id

variable {e : ℕ}

lemma Facts.refused {dst : NodeId} :
    Facts m log ev m [.replyVote dst e false] :=
  .of_quiet (fun _ _ h => h) id

variable {src : NodeId}

lemma handleFetch_facts {fetchEpoch : ℕ} {fetchOffset : ℤ} :
    FactsOf m log ev (m.handleFetch log src fetchEpoch fetchOffset) := by
  unfold handleFetch
  split
  next replicas hwm start hrole =>
    split
    · exact .of_quiet (fun _ _ h => h) id
    · simp only
      split
      · exact .of_quiet (by simp) (fun _ => by rw [hrole]; rfl)
      · exact .of_quiet (by simp) (fun _ => by rw [hrole]; rfl)
  · exact .idle

variable {leaderId : NodeId}

lemma handleFetchResponse_facts (leaderEpoch : ℕ) {diverging : Option LogOffsetMetadata} :
    FactsOf m log ev (m.handleFetchResponse leaderId leaderEpoch diverging now) := by
  unfold handleFetchResponse
  cases diverging with
  | some point | none => exact .of_quiet (fun _ _ h => h) id

/-! ## Stepping down and following -/

/-- A strictly higher epoch with no vote and no candidacy satisfies the facts if no vote message is sent. -/
lemma Facts.of_stepDown (hme : m'.me = m.me) (hvoters : m'.state.voters = m.state.voters)
    (hadj : m'.adjacentVoters = m.adjacentVoters)
    (hle : m.state.leaderEpoch ≤ m'.state.leaderEpoch) (hvoted : m'.state.votedKey = none)
    (hcand : m'.role.isCandidate = false) (hlead : m'.role.isLeader = false)
    (hgrant : ∀ dst e, Action.replyVote dst e true ∉ acts)
    (hreq : ∀ e, Action.sendVoteRequest e true ∉ acts) : Facts m log ev m' acts where
  me := hme
  voters := hvoters
  adjacent := hadj
  epoch_le := hle
  voted := by
    intro k hk
    rw [hvoted] at hk
    cases hk
  candidate := by
    intro g d hrole
    rw [hrole] at hcand
    cases hcand
  leader := by
    intro h
    rw [hlead] at h
    cases h
  grant := fun dst e h => absurd h (hgrant dst e)
  preVote := fun e h => absurd h (hreq e)

lemma transitionToUnattached_facts (h : m.state.leaderEpoch ≤ e) :
    FactsOf m log ev (m.transitionToUnattached e now) :=
  .of_stepDown rfl rfl rfl h rfl rfl rfl (by simp [transitionToUnattached]) (by simp [transitionToUnattached])

variable {leaderEpoch : ℕ}

lemma handleBeginQuorumEpoch_facts : FactsOf m log ev (m.handleBeginQuorumEpoch leaderId leaderEpoch now) := by
  unfold handleBeginQuorumEpoch
  simp only
  split
  · exact .idle
  · split
    next _ haccept =>
      have hle : m.state.leaderEpoch ≤ leaderEpoch := by
        simp only [gt_iff_lt, Bool.or_eq_true, decide_eq_true_eq, Bool.and_eq_true, beq_iff_eq] at haccept
        omega
      refine .of_stepDown rfl rfl rfl hle rfl ?_ ?_ (by simp) (by simp)
      · simp only; split <;> rfl
      · simp only; split <;> rfl
    · exact .idle

/-! ## Starting and winning an election -/

lemma lt_saturatingSucc (h : e < epochMax) : e < saturatingSucc e := by simp [saturatingSucc, h]

lemma le_saturatingSucc : e ≤ saturatingSucc e := by
  unfold saturatingSucc
  split <;> omega

lemma promoteToCandidate_facts : FactsOf m log ev (m.promoteToCandidate log now) := by
  unfold promoteToCandidate
  simp only
  split
  next htally =>
    have hmaj : m.state.majority ≤ 1 := by
      simpa [tallyCandidateReachedMajority, becomeCandidate, QuorumState.majority] using htally
    refine
      { me := rfl, voters := rfl, adjacent := rfl, epoch_le := le_saturatingSucc,
        voted := fun k _ hlt => .inr (.inl (lt_saturatingSucc hlt)),
        candidate := fun g d h => by simp [promoteToLeader] at h,
        leader := fun _ hlt => .inr (.inr ⟨lt_saturatingSucc hlt, hmaj, rfl⟩),
        grant := fun dst e h => by simp [promoteToLeader] at h,
        preVote := fun e h => by simp [promoteToLeader] at h }
  · refine
      { me := rfl, voters := rfl, adjacent := rfl, epoch_le := le_saturatingSucc,
        voted := fun k _ hlt => .inr (.inl (lt_saturatingSucc hlt)),
        candidate := fun g d h hlt => .inr ⟨lt_saturatingSucc hlt, ?_, rfl⟩,
        leader := fun h => by simp [becomeCandidate, Role.isLeader] at h,
        grant := nofun,
        preVote := nofun }
    simp only [becomeCandidate, Role.candidate.injEq] at h
    exact h.1.symm

/-- A candidacy that started after the quorum state lost only its leader is one of the machine itself. -/
lemma Facts.promoted_of_leaderless {p : QuorumStateMachine} (hme : p.me = m.me)
    (hvoters : p.state.voters = m.state.voters) (hadj : p.adjacentVoters = m.adjacentVoters)
    (hepoch : p.state.leaderEpoch = m.state.leaderEpoch)
    (pre : List Action) (hpre : ∀ a ∈ pre, ∀ dst e, a ≠ .replyVote dst e true)
    (hreq : ∀ e, Action.sendVoteRequest e true ∈ pre → e = m.state.leaderEpoch) :
    Facts m log ev (p.promoteToCandidate log now).1 (pre ++ (p.promoteToCandidate log now).2) := by
  have hp : FactsOf p log ev (p.promoteToCandidate log now) := promoteToCandidate_facts
  have hmaj : p.state.majority = m.state.majority := by simp only [QuorumState.majority, hvoters]
  -- Below the maximal epoch the candidacy is in a strictly higher epoch than the machine.
  have hlt : m.state.leaderEpoch < epochMax →
      m.state.leaderEpoch < (p.promoteToCandidate log now).1.state.leaderEpoch := by
    intro h
    have hsucc : (p.promoteToCandidate log now).1.state.leaderEpoch = saturatingSucc p.state.leaderEpoch := by
      unfold promoteToCandidate; simp only; split <;> rfl
    rw [hsucc, hepoch]
    exact lt_saturatingSucc h
  refine
    { me := hp.me.trans hme, voters := hp.voters.trans hvoters, adjacent := hp.adjacent.trans hadj,
      epoch_le := hepoch ▸ hp.epoch_le,
      voted := fun k _ h => .inr (.inl (hlt h)), candidate := ?_, leader := ?_, grant := ?_,
      preVote := ?_ }
  · intro g d hrole h
    rcases hp.candidate g d hrole (hepoch.symm ▸ h) with ⟨_, heq, _⟩ | ⟨_, hg, hv⟩
    · have := hlt h; omega
    · exact .inr ⟨hlt h, hme ▸ hg, hme ▸ hv⟩
  · intro hrole h
    rcases hp.leader hrole (hepoch.symm ▸ h) with ⟨_, heq⟩ | ⟨_, heq, _⟩ | ⟨_, hone, hv⟩
    · have := hlt h; omega
    · have := hlt h; omega
    · exact .inr (.inr ⟨hlt h, hmaj ▸ hone, hme ▸ hv⟩)
  · intro dst e h
    rcases List.mem_append.mp h with h | h
    · exact absurd rfl (hpre _ h dst e)
    · exact hp.grant dst e h
  · intro e h
    rcases List.mem_append.mp h with h | h
    · have heq := hreq e h
      have hle := hp.epoch_le
      refine ⟨by omega, fun hmax => .inl ?_⟩
      omega
    · exact hp.preVote e h

lemma startElection_facts : FactsOf m log ev (m.startElection log now) := by
  unfold startElection
  simp only
  split
  · exact .promoted_of_leaderless rfl rfl rfl rfl _ (by simp) (by simp [becomeProspective])
  · exact
      { me := rfl, voters := rfl, adjacent := rfl, epoch_le := le_rfl,
        voted := fun k hk _ => .inl ⟨rfl, hk⟩,
        candidate := fun g d h => by simp [becomeProspective] at h,
        leader := fun h => by simp [becomeProspective, Role.isLeader] at h,
        grant := nofun,
        preVote := fun e h => by
          obtain rfl : e = m.state.leaderEpoch := by simpa [becomeProspective] using h
          exact ⟨le_rfl, fun _ => .inr ⟨rfl, rfl⟩⟩ }

lemma handleEndQuorumEpoch_facts (leaderId : NodeId) :
    FactsOf m log ev (m.handleEndQuorumEpoch log leaderId leaderEpoch now) := by
  unfold handleEndQuorumEpoch
  split
  · exact .idle
  · split
    · exact startElection_facts
    · exact transitionToUnattached_facts le_rfl

/-! ## Vote messages -/

lemma handleVoteResponse_facts {epoch : ℕ} {voteGranted : Bool} :
    FactsOf m log (.receiveVoteResponse src epoch voteGranted)
      (m.handleVoteResponse log src epoch voteGranted now) := by
  unfold handleVoteResponse
  split
  · split
    · exact transitionToUnattached_facts (by omega)
    · exact .idle
  next hgranted =>
    have hg : voteGranted := by simpa using hgranted
    split
    next granted deadline hrole =>
      split
      · simp only
        split
        · exact .promoted_of_leaderless rfl rfl rfl rfl [] (by simp) (by simp)
        · exact .of_quiet (by simp) (by simp [Role.isLeader])
      · exact .idle
    next granted deadline hrole =>
      split
      next heq =>
        -- The grant that just arrived backs the candidacy like the ones counted before.
        have hbacked : ∀ u ∈ insert src granted, Backed m (.receiveVoteResponse src epoch voteGranted) u := by
          intro u hu
          rcases Finset.mem_insert.mp hu with rfl | hu
          · exact .inr (by rw [heq, hg])
          · exact .inl ⟨granted, deadline, hrole, hu⟩
        have hcand : m.role.isCandidate := by rw [hrole]; rfl
        simp only
        split
        next htally =>
          refine
            { me := rfl, voters := rfl, adjacent := rfl, epoch_le := le_rfl,
              voted := fun k hk _ => .inl ⟨rfl, hk⟩,
              candidate := fun g d h => by simp [promoteToLeader] at h,
              leader := fun _ _ => .inr (.inl ⟨hcand, rfl, insert src granted, ?_, hbacked⟩),
              grant := fun dst e h => by simp [promoteToLeader] at h,
              preVote := fun e h => by simp [promoteToLeader] at h }
          simpa [tallyCandidateReachedMajority] using htally
        · refine
            { me := rfl, voters := rfl, adjacent := rfl, epoch_le := le_rfl,
              voted := fun k hk _ => .inl ⟨rfl, hk⟩,
              candidate := fun g d h _ => .inl ⟨hcand, rfl, ?_⟩,
              leader := fun h => by simp [Role.isLeader] at h,
              grant := nofun,
              preVote := nofun }
          simp only [Role.candidate.injEq] at h
          exact h.1 ▸ hbacked
      · exact .idle
    · exact .idle

variable {candLog : LogEnd}

lemma grantsVote_binding {candidate : NodeId} (h : m.grantsVote log candidate candLog false) :
    m.state.leaderId = none ∧ (∀ k, m.state.votedKey = some k → k.id = candidate) ∧
      logIsUpToDate log candLog = true := by
  unfold grantsVote at h
  cases hv : m.state.votedKey with
  | none => simpa [hv, and_comm] using h
  | some k =>
    simp only [hv, Bool.false_eq_true, if_false, Bool.and_eq_true, beq_iff_eq, Option.isNone_iff_eq_none] at h
    refine ⟨h.2, fun k' hk' => ?_, h.1.1⟩
    cases hk'
    exact h.1.2

variable {voterId candidateEpoch candidate : ℕ} {preVote : Bool}

lemma answerVote_facts {src : ℕ} (hle : m.state.leaderEpoch ≤ candidateEpoch)
    (heq : preVote = false → m.state.leaderEpoch = candidateEpoch) :
    FactsOf m log (.receiveVoteRequest src voterId candidateEpoch candidate candLog preVote)
      (m.answerVote log src candidate candLog preVote now) := by
  unfold answerVote
  simp only
  split
  next hgrant =>
    obtain ⟨hg, hpre⟩ : m.grantsVote log candidate candLog preVote ∧ preVote = false := by
      simpa using hgrant
    subst hpre
    obtain ⟨hleader, hother, hup⟩ := grantsVote_binding hg
    refine
      { me := rfl, voters := rfl, adjacent := rfl, epoch_le := le_rfl,
        voted := fun k hk _ => .inr (.inr ⟨rfl, ?_⟩),
        candidate := fun g d h => by simp [castVote] at h,
        leader := fun h => by simp [castVote, Role.isLeader] at h,
        grant := fun dst e h => ?_, preVote := nofun }
    · simp only [castVote, Option.some.injEq] at hk
      subst hk
      exact ⟨src, voterId, candLog, by rw [heq rfl], hleader, hother, hup⟩
    · simp only [List.mem_cons, reduceCtorEq, Action.replyVote.injEq, List.not_mem_nil,
        or_false, false_or] at h
      obtain ⟨rfl, rfl, _⟩ := h
      exact ⟨rfl, voterId, candidateEpoch, candidate, candLog, false, rfl, .inr ⟨rfl, rfl⟩⟩
  next hgrant =>
    refine
      { me := rfl, voters := rfl, adjacent := rfl, epoch_le := le_rfl,
        voted := fun k hk _ => .inl ⟨rfl, hk⟩,
        candidate := fun g d h _ => .inl ⟨by rw [h]; rfl, rfl, fun u hu => .inl ⟨g, d, h, hu⟩⟩,
        leader := fun h _ => .inl ⟨h, rfl⟩,
        grant := fun dst e h => ?_, preVote := nofun }
    simp only [List.mem_cons, Action.replyVote.injEq, List.not_mem_nil, or_false] at h
    obtain ⟨rfl, rfl, hg⟩ := h
    -- Only a pre-vote is granted without recording it.
    have hpre : preVote := by simpa [← hg] using hgrant
    exact ⟨rfl, voterId, candidateEpoch, candidate, candLog, preVote, rfl, .inl ⟨hpre, hle⟩⟩

/-- A binding request of a higher epoch: the machine answers as an unattached node of that
epoch. -/
lemma advanceAndAnswer_facts {src : ℕ} (hlt : m.state.leaderEpoch < candidateEpoch) :
    Facts m log (.receiveVoteRequest src voterId candidateEpoch candidate candLog false)
      ((m.transitionToUnattached candidateEpoch now).1.answerVote log src candidate candLog false now).1
      ((m.transitionToUnattached candidateEpoch now).2 ++
        ((m.transitionToUnattached candidateEpoch now).1.answerVote log src candidate candLog false now).2) := by
  generalize hu : (m.transitionToUnattached candidateEpoch now).1 = u
  have hue : u.state.leaderEpoch = candidateEpoch := by rw [← hu]; rfl
  set x := u.answerVote log src candidate candLog false now with hx
  have ha : FactsOf u log (.receiveVoteRequest src voterId candidateEpoch candidate candLog false) x :=
    answerVote_facts hue.le fun _ => hue
  have hacts : ∀ a, a ∈ (m.transitionToUnattached candidateEpoch now).2 ++ x.2 →
      (∃ d e, a = .replyVote d e true) ∨ (∃ e, a = .sendVoteRequest e true) → a ∈ x.2 := by
    rintro a ha (⟨d, e, rfl⟩ | ⟨e, rfl⟩) <;> simpa [transitionToUnattached] using ha
  have hpost : x.1.state.leaderEpoch = candidateEpoch ∧ x.1.role.isCandidate = false ∧
      x.1.role.isLeader = false := by
    rw [hx]
    subst hu
    unfold answerVote; simp only; split <;> exact ⟨rfl, rfl, rfl⟩
  obtain ⟨hepoch, hcand, hlead⟩ := hpost
  refine
    { me := ha.me.trans (by rw [← hu]; rfl), voters := ha.voters.trans (by rw [← hu]; rfl),
      adjacent := ha.adjacent.trans (by rw [← hu]; rfl), epoch_le := by omega,
      voted := fun k _ _ => .inr (.inl (by omega)),
      candidate := fun g d h => ?_, leader := fun h => ?_,
      grant := fun dst e h => ha.grant dst e (hacts _ h (.inl ⟨dst, e, rfl⟩)),
      preVote := fun e h => ha.preVote e (hacts _ h (.inr ⟨e, rfl⟩)) }
  · rw [h] at hcand; cases hcand
  · rw [hlead] at h; cases h

lemma handleVoteRequest_facts {src : ℕ} :
    FactsOf m log (.receiveVoteRequest src voterId candidateEpoch candidate candLog preVote)
      (m.handleVoteRequest src voterId candidateEpoch candidate candLog preVote log now) := by
  unfold handleVoteRequest
  split
  · exact .idle
  split
  · exact .refused
  split
  · exact .refused
  next hfenced =>
    split
    next hhigher =>
      obtain ⟨rfl, hlt⟩ : preVote = false ∧ m.state.leaderEpoch < candidateEpoch := by
        simpa using hhigher
      exact advanceAndAnswer_facts hlt
    next hhigher =>
      refine answerVote_facts (by omega) fun hpre => ?_
      simp only [hpre, Bool.not_false, Bool.true_and, gt_iff_lt, decide_eq_true_eq] at hhigher
      omega

/-- **The step lemma.** -/
theorem onEvent_facts : FactsOf m log ev (m.onEvent ev log now) := by
  cases ev with
  | receiveVoteRequest => exact handleVoteRequest_facts
  | electionTimeout =>
    simp only [onEvent, handleElectionTimeout]
    split
    · exact startElection_facts
    · exact .idle
  | receiveVoteResponse => exact handleVoteResponse_facts
  | receiveBeginQuorumEpoch => exact handleBeginQuorumEpoch_facts
  | receiveEndQuorumEpoch leaderId => exact handleEndQuorumEpoch_facts leaderId
  | receiveFetch => exact handleFetch_facts
  | receiveFetchResponse _ leaderEpoch => exact handleFetchResponse_facts leaderEpoch
  | fetchTimeout =>
    simp only [onEvent, handleFetchTimeout]
    split
    · exact startElection_facts
    · exact .idle

lemma PastCandidacy.onEvent (h : m.PastCandidacy e) (he : e < epochMax)
    (hf : Facts m log ev m' acts) : m'.PastCandidacy e := by
  have hle := hf.epoch_le
  rcases h with hlt | ⟨heq, hcand⟩
  · exact .inl (by omega)
  rcases hle.lt_or_eq with hlt | hsame
  · exact .inl (by omega)
  refine .inr ⟨by omega, ?_⟩
  cases hrole : m'.role with
  | candidate g d =>
    rcases hf.candidate g d hrole (by omega) with ⟨hc, -⟩ | ⟨hlt, -⟩
    · rw [hcand] at hc; cases hc
    · omega
  | _ => rfl

lemma AskedPreVote.onEvent (h : m.AskedPreVote e) (hf : Facts m log ev m' acts) :
    m'.AskedPreVote e :=
  ⟨h.1.trans hf.epoch_le, fun he => (h.2 he).onEvent he hf⟩

lemma AskedPreVote.pastCandidacy {e' : ℕ} (h : m.AskedPreVote e) (hle : e' ≤ e)
    (he : e' < epochMax) : m.PastCandidacy e' := by
  rcases hle.lt_or_eq with hlt | rfl
  · exact .inl (hlt.trans_le h.1)
  · exact h.2 he

end Crabka.Kraft.QuorumStateMachine
