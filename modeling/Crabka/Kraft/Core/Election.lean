import Crabka.Found.Quorum
import Crabka.Kraft.Core.Cluster
import Crabka.Kraft.Core.Facts

/-!
# Election safety, and the vote that is forgotten

Election safety asks that a voter records one vote per epoch. `handleBeginQuorumEpoch` erases the vote when it accepts
the leader of the node's own epoch, and `startElection` then drops the leader: a second candidate is granted a vote as
well (`two_leaders_in_one_epoch`). Without such deliveries (`ForgetsVote`) an epoch has at most one leader. A late
pre-vote grant is harmless because a candidacy of epoch `e` only begins from an epoch below `e` (`PastCandidacy`).
-/

namespace Crabka.Kraft
open Found List QuorumStateMachine
namespace Cluster

/-! ## The condition -/

/-- A binding vote request reaches a voter in its epoch that has voted for another candidate there but has neither the
vote nor a leader on record any more, and that finds the candidate's log up to date. -/
def ForgetsVote (s : Cluster) : Label → Prop
  | .deliver env _ =>
    ∃ src voterId candidate candLog,
      env.event = .receiveVoteRequest src voterId (s.machine env.dst).state.leaderEpoch candidate candLog false ∧
      (s.machine env.dst).state.votedKey = none ∧ (s.machine env.dst).state.leaderId = none ∧
      logIsUpToDate (s.nodes env.dst).log candLog = true ∧
      ∃ other, other ≠ candidate ∧ (env.dst, (s.machine env.dst).state.leaderEpoch, other) ∈ s.votes
  | _ => False

/-! ## The invariant -/

/-- Leaders and candidates are backed by votes, and a voter has one vote in an epoch. -/
structure ElectionInv (voters : VoterSet) (s : Cluster) : Prop where
  me : ∀ n, (s.machine n).me = n
  static : ∀ n, (s.machine n).state.voters = voters
  /-- Only voters vote, in epochs they have reached. -/
  voter : ∀ v e c, (v, e, c) ∈ s.votes → voters.contains v = true ∧ e ≤ (s.machine v).state.leaderEpoch
  /-- A voter votes once per epoch. -/
  once : ∀ v e c c', e < epochMax → (v, e, c) ∈ s.votes → (v, e, c') ∈ s.votes → c = c'
  recorded : ∀ n k, (s.machine n).state.votedKey = some k → (n, (s.machine n).state.leaderEpoch, k.id) ∈ s.votes
  /-- The grants a candidate counted are votes. -/
  candidate : ∀ n g d, (s.machine n).role = .candidate g d →
    (s.machine n).state.leaderEpoch < epochMax →
    ∀ u ∈ g, (u, (s.machine n).state.leaderEpoch, n) ∈ s.votes
  /-- A leader was elected by a majority. -/
  leader : ∀ n, (s.machine n).role.isLeader = true →
    (s.machine n).state.leaderEpoch < epochMax →
    ∃ Q, IsMajority voters.ids Q ∧ ∀ u ∈ Q, (u, (s.machine n).state.leaderEpoch, n) ∈ s.votes
  /-- Vote requests name their sender as the candidate. -/
  request : ∀ env ∈ s.sent, ∀ src voterId e c candLog preVote,
    env.event = .receiveVoteRequest src voterId e c candLog preVote → c = src
  /-- Who asked for a pre-vote in an epoch is past its candidacy there. -/
  preVote : ∀ env ∈ s.sent, ∀ src voterId e c candLog,
    env.event = .receiveVoteRequest src voterId e c candLog true → (s.machine src).AskedPreVote e
  /-- A grant in flight is a vote, or its addressee can make nothing of it. -/
  grant : ∀ env ∈ s.sent, ∀ u e, env.event = .receiveVoteResponse u e true → e < epochMax →
    (u, e, env.dst) ∈ s.votes ∨ (s.machine env.dst).PastCandidacy e

/-! ## The step -/

variable {voters : VoterSet} {s : Cluster} {n : NodeId} {ev : Event} {now : ℕ}

/-- What the invariant has to know about an event before a node handles it. -/
structure Admissible (s : Cluster) (n : NodeId) (ev : Event) : Prop where
  request : ∀ src voterId e c candLog preVote, ev = .receiveVoteRequest src voterId e c candLog preVote → c = src
  preVote : ∀ src voterId e c candLog,
    ev = .receiveVoteRequest src voterId e c candLog true → (s.machine src).AskedPreVote e
  grant : ∀ u e, ev = .receiveVoteResponse u e true → e < epochMax →
    (u, e, n) ∈ s.votes ∨ (s.machine n).PastCandidacy e
  /-- A grant in the voter's epoch contradicts no vote that it lost. -/
  remembered : ∀ c, GrantsInEpoch (s.machine n) (s.nodes n).log ev c →
    (s.machine n).state.votedKey = none →
    ∀ other, (n, (s.machine n).state.leaderEpoch, other) ∈ s.votes → other = c

variable {e : ℕ} {m : QuorumStateMachine}

lemma mem_recordedVote {n v c : ℕ} (h : (v, e, c) ∈ recordedVote n m) :
    v = n ∧ e = m.state.leaderEpoch ∧ ∃ k, m.state.votedKey = some k ∧ k.id = c := by
  unfold recordedVote at h
  cases hk : m.state.votedKey with
  | none => rw [hk] at h; cases h
  | some k =>
    simp only [hk, mem_singleton, Prod.mk.injEq] at h
    exact ⟨h.1, h.2.1, k, rfl, h.2.2.symm⟩

variable {k : ReplicaKey}
variable {log : LogView} {a : Action} {env : Envelope}

lemma replyVote_of_envelope {voters : VoterSet} {n u : ℕ} {g : Bool}
    (h : env ∈ envelopes voters n log a) (hev : env.event = .receiveVoteResponse u e g) :
    a = .replyVote env.dst e g ∧ u = n := by
  cases a <;> simp only [envelopes, mem_map, mem_singleton, not_mem_nil] at h
  case replyVote dst epoch granted =>
    subst h
    simp only [Event.receiveVoteResponse.injEq] at hev
    obtain ⟨rfl, rfl, rfl⟩ := hev
    exact ⟨rfl, rfl⟩
  case sendFetch leaderId =>
    split at h
    · cases h
    · rw [mem_singleton] at h
      subst h
      cases hev
  all_goals
    obtain ⟨peer, -, rfl⟩ := h
    cases hev

lemma sendVoteRequest_of_envelope {voters : VoterSet} {n src voterId c : ℕ} {candLog : LogEnd}
    {pre : Bool} (h : env ∈ envelopes voters n log a)
    (hev : env.event = .receiveVoteRequest src voterId e c candLog pre) :
    a = .sendVoteRequest e pre ∧ src = n ∧ c = n := by
  cases a <;> simp only [envelopes, mem_map, mem_singleton, not_mem_nil] at h
  case sendVoteRequest epoch preVote =>
    obtain ⟨peer, -, rfl⟩ := h
    simp only [Event.receiveVoteRequest.injEq] at hev
    obtain ⟨rfl, -, rfl, rfl, -, rfl⟩ := hev
    exact ⟨rfl, rfl, rfl⟩
  case replyVote =>
    subst h
    cases hev
  case sendFetch leaderId =>
    split at h
    · cases h
    · rw [mem_singleton] at h
      subst h
      cases hev
  all_goals
    obtain ⟨peer, -, rfl⟩ := h
    cases hev

lemma fetchReply_event {n : NodeId} {acts : List Action} {ev : Event} (h : env ∈ fetchReply n m acts ev) :
    ∃ l e d, env.event = .receiveFetchResponse l e d := by
  cases ev <;> simp only [fetchReply, not_mem_nil] at h
  split at h
  · rw [mem_singleton] at h
    exact ⟨_, _, _, by rw [h]⟩
  · cases h

lemma mem_sent_handle (h : env ∈ (s.handle n ev now).sent) :
    env ∈ s.sent ∨
      (∃ a ∈ ((s.machine n).onEvent ev (s.nodes n).log now).2,
        env ∈ envelopes ((s.machine n).onEvent ev (s.nodes n).log now).1.state.voters n (s.nodes n).log a) ∨
      ∃ l e d, env.event = .receiveFetchResponse l e d := by
  rcases mem_append.mp h with h | h
  · exact .inl h
  rcases mem_append.mp h with h | h
  · exact .inr (.inl (mem_flatMap.mp h))
  · exact .inr (.inr (fetchReply_event h))

lemma handle_preserves (P : QuorumStateMachine → Prop) {k : NodeId}
    (hstep : ∀ m log ev now, P m → P (QuorumStateMachine.onEvent m ev log now).1)
    (h : P (s.machine k)) : P ((s.handle n ev now).machine k) := by
  obtain rfl | hk := eq_or_ne k n
  · rw [machine_handle_self]
    exact hstep _ _ _ _ h
  · rwa [machine_handle_of_ne hk]

lemma askedPreVote_handle {k : NodeId} (h : (s.machine k).AskedPreVote e) :
    ((s.handle n ev now).machine k).AskedPreVote e :=
  handle_preserves (·.AskedPreVote e) (fun _ _ _ _ h => h.onEvent onEvent_facts) h

section
variable (hinv : ElectionInv voters s)
include hinv

lemma ElectionInv.backed (hadm : Admissible s n ev)
    (hcand : (s.machine n).role.isCandidate)
    (hlt : (s.machine n).state.leaderEpoch < epochMax) {u : NodeId}
    (h : Backed (s.machine n) ev u) : (u, (s.machine n).state.leaderEpoch, n) ∈ s.votes := by
  rcases h with ⟨g, d, hrole, hu⟩ | hev
  · exact hinv.candidate n g d hrole hlt u hu
  · rcases hadm.grant u _ hev hlt with hvote | hpast | ⟨-, hnot⟩
    · exact hvote
    · omega
    · rw [hcand] at hnot; cases hnot

lemma ElectionInv.vote_unique (hadm : Admissible s n ev)
    {c : NodeId} (hk : ((s.handle n ev now).machine n).state.votedKey = some k)
    (hlt : ((s.handle n ev now).machine n).state.leaderEpoch < epochMax)
    (hold : (n, ((s.handle n ev now).machine n).state.leaderEpoch, c) ∈ s.votes) : c = k.id := by
  rw [machine_handle_self] at hk hlt hold
  have hf : Facts (s.machine n) (s.nodes n).log ev
      ((s.machine n).onEvent ev (s.nodes n).log now).1
      ((s.machine n).onEvent ev (s.nodes n).log now).2 := onEvent_facts
  have hreached := (hinv.voter _ _ _ hold).2
  have hle := hf.epoch_le
  rcases hf.voted k hk (by omega) with ⟨heq, hkept⟩ | hnew | ⟨heq, hgrant⟩
  · rw [heq] at hold hlt
    exact hinv.once n _ c k.id hlt hold (hinv.recorded n k hkept)
  · omega
  · rw [heq] at hold hlt
    cases hv : (s.machine n).state.votedKey with
    | none => exact hadm.remembered k.id hgrant hv c hold
    | some k' =>
      obtain ⟨_, _, _, -, -, hsame, -⟩ := hgrant
      rw [← hsame k' hv]
      exact hinv.once n _ c k'.id hlt hold (hinv.recorded n k' hv)

omit hinv in
lemma facts_handle : Facts (s.machine n) (s.nodes n).log ev ((s.handle n ev now).machine n)
    ((s.machine n).onEvent ev (s.nodes n).log now).2 := by
  rw [machine_handle_self]
  exact onEvent_facts

omit hinv in
lemma votes_handle :
    (s.handle n ev now).votes = s.votes ++ recordedVote n ((s.handle n ev now).machine n) := by
  rw [machine_handle_self]
  rfl

omit hinv in
lemma votes_handle_of_mem {x : NodeId × ℕ × NodeId} (hx : x ∈ s.votes) : x ∈ (s.handle n ev now).votes := by
  rw [votes_handle]
  exact mem_append_left _ hx

omit hinv in
/-- Every entry of the new history is old, or the vote that the node has on record now. -/
lemma mem_votes_handle {v : NodeId} {e : ℕ} {c : NodeId} (h : (v, e, c) ∈ (s.handle n ev now).votes) :
    (v, e, c) ∈ s.votes ∨ (v = n ∧ e = ((s.handle n ev now).machine n).state.leaderEpoch ∧
      ∃ k, ((s.handle n ev now).machine n).state.votedKey = some k ∧ k.id = c) := by
  rw [votes_handle] at h
  exact (mem_append.mp h).imp_right mem_recordedVote

omit hinv in
lemma own_vote_handle {k : ReplicaKey} (hk : ((s.handle n ev now).machine n).state.votedKey = some k) :
    (n, ((s.handle n ev now).machine n).state.leaderEpoch, k.id) ∈ (s.handle n ev now).votes := by
  rw [votes_handle]
  refine mem_append_right _ ?_
  unfold recordedVote
  rw [hk]
  exact mem_singleton_self _

lemma ElectionInv.once_handle (hadm : Admissible s n ev) {v : NodeId} {e : ℕ} {c c' : NodeId} (he : e < epochMax)
    (h : (v, e, c) ∈ (s.handle n ev now).votes) (h' : (v, e, c') ∈ (s.handle n ev now).votes) : c = c' := by
  rcases mem_votes_handle h with hc | ⟨rfl, rfl, k, hk, rfl⟩ <;>
    rcases mem_votes_handle h' with hc' | ⟨hv, hve, k', hk', rfl⟩
  · exact hinv.once v e c c' he hc hc'
  · subst hv hve
    exact hinv.vote_unique hadm hk' he hc
  · exact (hinv.vote_unique hadm hk he hc').symm
  · rw [hk] at hk'
    cases hk'
    rfl

lemma ElectionInv.candidate_handle (hadm : Admissible s n ev) {k : NodeId} {g : Finset NodeId} {d : ℕ}
    (hrole : ((s.handle n ev now).machine k).role = .candidate g d)
    (hlt : ((s.handle n ev now).machine k).state.leaderEpoch < epochMax) {u : NodeId} (hu : u ∈ g) :
    (u, ((s.handle n ev now).machine k).state.leaderEpoch, k) ∈ (s.handle n ev now).votes := by
  obtain rfl | hk := eq_or_ne k n
  · have hf := @facts_handle s k ev now
    have hle := hf.epoch_le
    rcases hf.candidate g d hrole (by omega) with ⟨hcand, heq, hback⟩ | ⟨-, hg, hv⟩
    · rw [heq] at hlt ⊢
      exact votes_handle_of_mem (hinv.backed hadm hcand hlt (hback u hu))
    · rw [hg, Finset.mem_singleton] at hu
      rw [hu, hinv.me k]
      have := own_vote_handle hv
      rwa [hinv.me k] at this
  · rw [machine_handle_of_ne hk] at hrole hlt ⊢
    exact votes_handle_of_mem (hinv.candidate k g d hrole hlt u hu)

/-- A leader has the votes of a majority: it had them, it counts one now, or it is alone in the voter set. -/
lemma ElectionInv.leader_handle (hn : voters.contains n) (hadm : Admissible s n ev) {k : NodeId}
    (hrole : ((s.handle n ev now).machine k).role.isLeader)
    (hlt : ((s.handle n ev now).machine k).state.leaderEpoch < epochMax) :
    ∃ Q, IsMajority voters.ids Q ∧
      ∀ u ∈ Q, (u, ((s.handle n ev now).machine k).state.leaderEpoch, k) ∈ (s.handle n ev now).votes := by
  obtain rfl | hk := eq_or_ne k n
  · have hf := @facts_handle s k ev now
    have hle := hf.epoch_le
    have hmaj : (s.machine k).state.majority = voters.ids.card / 2 + 1 := by
      rw [QuorumState.majority, hinv.static k, VoterSet.card_ids]
    rcases hf.leader hrole (by omega) with ⟨hlead, heq⟩ | ⟨hcand, heq, g, hcard, hback⟩ | ⟨-, hone, hv⟩
    · rw [heq] at hlt ⊢
      obtain ⟨Q, hQ, hall⟩ := hinv.leader k hlead hlt
      exact ⟨Q, hQ, fun u hu => votes_handle_of_mem (hall u hu)⟩
    · rw [heq] at hlt ⊢
      have hall : ∀ u ∈ g, (u, (s.machine k).state.leaderEpoch, k) ∈ s.votes :=
        fun u hu => hinv.backed hadm hcand hlt (hback u hu)
      refine ⟨g, ⟨fun u hu => ?_, hmaj ▸ hcard⟩, fun u hu => votes_handle_of_mem (hall u hu)⟩
      exact VoterSet.mem_ids.mpr (hinv.voter _ _ _ (hall u hu)).1
    · refine ⟨{k}, ⟨?_, by rw [← hmaj]; simpa using hone⟩, fun u hu => ?_⟩
      · rw [Finset.singleton_subset_iff]
        exact VoterSet.mem_ids.mpr hn
      · rw [Finset.mem_singleton] at hu
        subst hu
        have := own_vote_handle hv
        rwa [hinv.me u] at this
  · rw [machine_handle_of_ne hk] at hrole hlt ⊢
    obtain ⟨Q, hQ, hall⟩ := hinv.leader k hrole hlt
    exact ⟨Q, hQ, fun u hu => votes_handle_of_mem (hall u hu)⟩

/-- A grant on its way is backed by a vote, or answers a pre-vote, whose asker is past that candidacy. -/
lemma ElectionInv.grant_handle (hadm : Admissible s n ev) {env : Envelope} (henv : env ∈ (s.handle n ev now).sent)
    {u : NodeId} {e : ℕ} (hev : env.event = .receiveVoteResponse u e true) (he : e < epochMax) :
    (u, e, env.dst) ∈ (s.handle n ev now).votes ∨ ((s.handle n ev now).machine env.dst).PastCandidacy e := by
  rcases mem_sent_handle henv with h | ⟨a, ha, h⟩ | ⟨l, e', d, h⟩
  · exact (hinv.grant env h u e hev he).imp votes_handle_of_mem fun hp =>
      handle_preserves (·.PastCandidacy e) (fun _ _ _ _ h => h.onEvent he onEvent_facts) hp
  · have hf := @facts_handle s n ev now
    obtain ⟨rfl, rfl⟩ := replyVote_of_envelope h hev
    obtain ⟨rfl, voterId, ce, cand, candLog, pre, hreq, ⟨rfl, hle⟩ | ⟨rfl, hv⟩⟩ := hf.grant _ _ ha
    · exact .inr ((askedPreVote_handle (hadm.preVote _ _ _ _ _ hreq)).pastCandidacy hle he)
    · rw [← hadm.request _ _ _ _ _ _ hreq]
      exact .inl (own_vote_handle hv)
  · rw [hev] at h
    cases h

/-- **One step preserves the invariant.** -/
theorem ElectionInv.handle (hn : voters.contains n)
    (hadm : Admissible s n ev) : ElectionInv voters (s.handle n ev now) where
  me k := handle_preserves (·.me = k) (fun _ _ _ _ h => onEvent_facts.me.trans h) (hinv.me k)
  static k := handle_preserves (·.state.voters = voters) (fun _ _ _ _ h => onEvent_facts.voters.trans h) (hinv.static k)
  voter v e c h := by
    rcases mem_votes_handle h with h | ⟨rfl, rfl, -⟩
    · obtain ⟨hv, he⟩ := hinv.voter v e c h
      exact ⟨hv, handle_preserves (e ≤ ·.state.leaderEpoch) (fun _ _ _ _ h => h.trans onEvent_facts.epoch_le) he⟩
    · exact ⟨hn, le_rfl⟩
  once _ _ _ _ he h h' := hinv.once_handle hadm he h h'
  recorded k key hkey := by
    obtain rfl | hk := eq_or_ne k n
    · exact own_vote_handle hkey
    · rw [machine_handle_of_ne hk] at hkey ⊢
      exact votes_handle_of_mem (hinv.recorded k key hkey)
  candidate _ _ _ hrole hlt _ hu := hinv.candidate_handle hadm hrole hlt hu
  leader _ hrole hlt := hinv.leader_handle hn hadm hrole hlt
  request env henv src voterId e c candLog pre hev := by
    rcases mem_sent_handle henv with h | ⟨a, -, h⟩ | ⟨l, e', d, h⟩
    · exact hinv.request env h src voterId e c candLog pre hev
    · obtain ⟨-, hsrc, hc⟩ := sendVoteRequest_of_envelope h hev
      rw [hsrc, hc]
    · rw [hev] at h
      cases h
  preVote env henv src voterId e c candLog hev := by
    rcases mem_sent_handle henv with h | ⟨a, ha, h⟩ | ⟨l, e', d, h⟩
    · exact askedPreVote_handle (hinv.preVote env h src voterId e c candLog hev)
    · obtain ⟨rfl, rfl, -⟩ := sendVoteRequest_of_envelope h hev
      exact facts_handle.preVote e ha
    · rw [hev] at h
      cases h
  grant _ henv _ _ hev he := hinv.grant_handle hadm henv hev he

end

/-! ## Runs -/

lemma ElectionInv.init (clusterId : Uuid) (voters : VoterSet) (timeoutMs : NodeId → ℕ) (logs : NodeId → LogView) :
    ElectionInv voters (Cluster.init clusterId voters timeoutMs logs) where
  me := fun _ => rfl
  static := fun _ => rfl
  voter := nofun
  once := nofun
  recorded := nofun
  candidate := fun n g d h => by
    simp only [Cluster.init, machine, QuorumStateMachine.new] at h
    split at h <;> cases h
  leader := fun n h => by
    simp only [Cluster.init, machine, QuorumStateMachine.new] at h
    split at h <;> cases h
  request := nofun
  preVote := nofun
  grant := nofun

lemma admissible_timer {kind : TimerKind} : Admissible s n (timerEvent kind) where
  request := by intros; cases kind <;> contradiction
  preVote := by intros; cases kind <;> contradiction
  grant := by intros; cases kind <;> contradiction
  remembered := by
    rintro c ⟨_, _, _, h, -⟩
    cases kind <;> cases h

section
variable (hinv : ElectionInv voters s)
include hinv

/-- Every step of the cluster keeps the invariant. -/
lemma ElectionInv.next {l : Label}
    (hen : Enabled voters s l) (hok : ¬ s.ForgetsVote l) : ElectionInv voters (s.next l) := by
  cases l with
  | deliver env now =>
    refine hinv.handle hen.2 ⟨hinv.request env hen.1, hinv.preVote env hen.1, hinv.grant env hen.1, ?_⟩
    rintro c ⟨src, voterId, candLog, hev, hleader, -, hup⟩ hnone other hother
    by_contra hne
    exact hok ⟨src, voterId, c, candLog, hev, hnone, hleader, hup, other, hne, hother⟩
  | timeout n kind now => exact hinv.handle hen.1 admissible_timer
  | log n view =>
    -- The invariant does not look at logs.
    obtain ⟨h₁, h₂, h₃, h₄, h₅, h₆, h₇, h₈, h₉, h₁₀⟩ := hinv
    constructor <;> simpa only [machine_next_log]

lemma ElectionInv.run {s' : Cluster} (hrun : (sys voters).Run (fun t l => ¬ t.ForgetsVote l) s s') :
    ElectionInv voters s' ∧ s.votes ⊆ s'.votes :=
  hrun.relates (R := fun a b => a.votes ⊆ b.votes) hinv (fun _ => List.Subset.refl _)
    (fun hab hbc => List.Subset.trans hab hbc)
    fun t l ht hen hok => ⟨ht.next hen hok, votes_subset_next t l⟩

end

/-- At most one node ever leads an epoch below `u32::MAX`, over the runs with admissible steps. -/
def ElectionSafe (voters : VoterSet) (ok : Cluster → Label → Prop) : Prop :=
  ∀ clusterId timeoutMs logs s₁ s₂,
    (sys voters).Run ok (Cluster.init clusterId voters timeoutMs logs) s₁ →
    (sys voters).Run ok s₁ s₂ →
    ∀ e < epochMax, ∀ a b, s₁.Leads a e → s₂.Leads b e → a = b

/-- **Election safety.** In every run of every static voter set in which no voter is asked again
after its vote was forgotten, an epoch has at most one leader. -/
theorem electionSafety_of_no_forgotten_vote (voters : VoterSet) :
    ElectionSafe voters fun s l => ¬ s.ForgetsVote l := by
  intro clusterId timeoutMs logs s₁ s₂ h₁ h₂ e he a b ha hb
  obtain ⟨hinv₁, -⟩ := (ElectionInv.init clusterId voters timeoutMs logs).run h₁
  obtain ⟨hinv₂, hgrow⟩ := hinv₁.run h₂
  obtain ⟨Q₁, hQ₁, hvotes₁⟩ := hinv₁.leader a ha.1 (ha.2.symm ▸ he)
  obtain ⟨Q₂, hQ₂, hvotes₂⟩ := hinv₂.leader b hb.1 (hb.2.symm ▸ he)
  rw [ha.2] at hvotes₁
  rw [hb.2] at hvotes₂
  exact eq_of_majorities (R := fun v c => (v, e, c) ∈ s₂.votes)
    (fun v _ c c' h h' => hinv₂.once v e c c' he h h') hQ₁ hQ₂
    (fun v hv => hgrow (hvotes₁ v hv)) hvotes₂

def emptyView : LogView := ⟨0, 0, fun e => if e = 0 then some 0 else none⟩

def voteRequestOf (src dst epoch : ℕ) (preVote : Bool) : Label :=
  .deliver ⟨src, dst, .receiveVoteRequest src dst epoch src ⟨0, 0⟩ preVote⟩ 0

def grantOf (src dst epoch : ℕ) : Label :=
  .deliver ⟨src, dst, .receiveVoteResponse src epoch true⟩ 0

/-- Node 1 wins the pre-vote and then the election with node 3. -/
def electsOne : List Label :=
  [.timeout 1 .election 0, voteRequestOf 1 3 0 true, grantOf 3 1 0, voteRequestOf 1 3 1 false, grantOf 3 1 1]

theorem electionSafety_of_no_forgotten_vote_electsOne :
    let voters : VoterSet := .fromVoters [{ id := 1 }, { id := 2 }, { id := 3 }]
    let s := (sys voters).execs (.init 0 voters (fun _ => 1000) fun _ => emptyView) electsOne
    s.Leads 1 1 ∧ ∀ b, s.Leads b 1 → b = 1 := by
  intro voters s
  have hleads : s.Leads 1 1 := by decide +kernel
  refine ⟨hleads, fun b hb => (electionSafety_of_no_forgotten_vote voters 0 (fun _ => 1000) (fun _ => emptyView) s s
    (Sys.run_of_runsOk ?_) .refl 1 (by decide) 1 b hleads hb).symm⟩
  -- Only the fourth step asks for a binding vote, and node 3 has none on record then.
  refine ⟨by decide +kernel, id, by decide +kernel, by simp [ForgetsVote, voteRequestOf], by decide +kernel,
    by simp [ForgetsVote, grantOf], by decide +kernel, ?_, by decide +kernel, by simp [ForgetsVote, grantOf], trivial⟩
  rintro ⟨_, _, _, _, -, -, -, -, _, -, hmem⟩
  exact (show ∀ v ∈ Cluster.votes _, v.1 ≠ 3 by decide +kernel) _ hmem rfl

/-! ## Two leaders in one epoch -/

def leaderChangeView : LogView := ⟨1, 1, fun e => if e = 1 then some 1 else none⟩

/-- Nodes 1 and 2 become candidates of epoch 1 with the pre-vote of node 3. Node 3 votes for node 1, hears that node 1
leads, loses contact, and then gets the request of node 2. -/
def splitBrain : List Label :=
  [.timeout 1 .election 0, .timeout 2 .election 0,
    voteRequestOf 1 3 0 true, grantOf 3 1 0, voteRequestOf 2 3 0 true, grantOf 3 2 0,
    voteRequestOf 1 3 1 false, grantOf 3 1 1, .log 1 leaderChangeView,
    .deliver ⟨1, 3, .receiveBeginQuorumEpoch 1 1⟩ 0, .timeout 3 .fetch 0,
    voteRequestOf 2 3 1 false, grantOf 3 2 1]

/-- A voter forgets its vote, and two nodes lead in one epoch. -/
theorem two_leaders_in_one_epoch :
    ¬ ElectionSafe (.fromVoters [{ id := 1 }, { id := 2 }, { id := 3 }]) fun _ _ => True := by
  intro hsafe
  set voters : VoterSet := .fromVoters [{ id := 1 }, { id := 2 }, { id := 3 }] with hvoters
  set s₀ := Cluster.init 0 voters (fun _ => 1000) fun _ => emptyView with hs₀
  have hrun : (sys voters).Runs s₀ splitBrain := by
    rw [hs₀, hvoters]
    decide +kernel
  have hleads : ((sys voters).execs s₀ splitBrain).Leads 1 1 ∧ ((sys voters).execs s₀ splitBrain).Leads 2 1 := by
    rw [hs₀, hvoters]
    decide +kernel
  have := hsafe 0 (fun _ => 1000) (fun _ => emptyView) _ _ (Sys.run_of_runs hrun) .refl 1
    (by decide) 1 2 hleads.1 hleads.2
  exact absurd this (by decide)

end Cluster
end Crabka.Kraft
