import Crabka.Broker.Group.ConsumerState
import Crabka.Found.Runs

/-!
# Who owns a partition of a consumer group

Clients own what they were granted until they have dropped it; the group grants only what no other member has assigned
or pending revocation. A heartbeat without a report takes the current assignment as owned and forgets what is pending,
also what its sender still consumes (`keepalive_frees_owned`). When such a heartbeat finds none of its sender's
partitions pending, no partition has two owners (`owners_unique`).
-/

namespace Crabka.Broker.Group
open Option hiding or_assoc
open Function Found
open Std (ExtTreeMap)
open Kraft (Uuid)
open GroupState Function

/-! ## What a member holds -/

section partitions
variable {m : TopicPartitions} {tp : TopicPartition}

@[simp]
lemma not_lists_empty : ¬ Lists ∅ tp := by simp [Lists]

lemma lists_iff : Lists m tp ↔ ∃ parts, m[tp.1]? = some parts ∧ tp.2 ∈ parts := by
  unfold Lists
  cases m[tp.1]? <;> simp

@[simp]
lemma lists_keepPartitions (test : Uuid → ℤ → Bool) :
    Lists (keepPartitions test m) tp ↔ Lists m tp ∧ test tp.1 tp.2 = true := by
  unfold Lists keepPartitions
  rw [getElem?_filterMap]
  cases m[tp.1]? with
  | none => simp
  | some parts =>
    by_cases hnil : parts.filter (test tp.1) = []
    · have hnone : ∀ p ∈ parts, ¬ test tp.1 p := List.filter_eq_nil_iff.mp hnil
      simp only [bind_some, hnil, if_true, getD_none, List.not_mem_nil, getD_some, false_iff, not_and]
      exact fun hp => hnone _ hp
    · rw [bind_some, if_neg hnil, getD_some, List.mem_filter, getD_some]

@[simp]
lemma lists_sortPartitions : Lists (sortPartitions m) tp ↔ Lists m tp := by
  unfold Lists sortPartitions
  rw [ExtTreeMap.getElem?_map]
  cases m[tp.1]? with
  | none => rfl
  | some parts => exact List.mem_insertionSort (· ≤ ·)

lemma lists_foldl_upsert (l : List (Uuid × List ℤ)) (m : TopicPartitions) :
    Lists (l.foldl (fun held e => upsert held e.1 [] (· ++ e.2)) m) tp ↔
      Lists m tp ∨ ∃ e ∈ l, e.1 = tp.1 ∧ tp.2 ∈ e.2 := by
  induction l generalizing m with
  | nil => simp
  | cons e l ih =>
    have hstep : Lists (upsert m e.1 [] (· ++ e.2)) tp ↔ Lists m tp ∨ (e.1 = tp.1 ∧ tp.2 ∈ e.2) := by
      unfold Lists upsert
      rw [getElem?_insert]
      by_cases htid : tp.1 = e.1
      · simp [htid]
      · simp [htid, Ne.symm htid]
    rw [List.foldl_cons, ih, hstep]
    simp only [List.mem_cons, exists_eq_or_imp, or_assoc]

end partitions

/-- The member is assigned the partition or has not confirmed its revocation. -/
def MemberState.Holds (m : MemberState) (tp : TopicPartition) : Prop :=
  Lists m.assignedPartitions tp ∨ Lists m.partitionsPendingRevocation tp

instance (m : MemberState) (tp : TopicPartition) : Decidable (m.Holds tp) :=
  inferInstanceAs (Decidable (_ ∨ _))

lemma MemberState.lists_holdings (m : MemberState) (tp : TopicPartition) : Lists m.holdings tp ↔ m.Holds tp := by
  unfold holdings Holds
  rw [lists_foldl_upsert]
  refine or_congr_right ?_
  rw [lists_iff]
  constructor
  · rintro ⟨e, he, htid, hp⟩
    exact ⟨e.2, htid ▸ (mem_toList _).mp he, hp⟩
  · rintro ⟨parts, hparts, hp⟩
    exact ⟨(tp.1, parts), (mem_toList _).mpr hparts, rfl, hp⟩

@[simp]
lemma MemberState.holds_installTarget (m : MemberState) (target : TopicPartitions)
    (tp : TopicPartition) : (m.installTarget target).Holds tp ↔ m.Holds tp := by
  rw [← m.lists_holdings tp]
  by_cases htarget : tp.2 ∈ target[tp.1]?.getD []
  · simp [Holds, installTarget, computeRevokeSplit, htarget]
  · simp [Holds, installTarget, computeRevokeSplit, htarget]

def GroupState.Holds (g : GroupState) (id : MemberId) (tp : TopicPartition) : Prop :=
  ∃ m, g.members[id]? = some m ∧ m.Holds tp

section group
variable {g : GroupState} {id j : MemberId} {tp : TopicPartition}

lemma GroupState.not_holds_of_none (h : g.members[id]? = none) : ¬ g.Holds id tp := by
  rintro ⟨m, hm, -⟩
  rw [h] at hm
  cases hm

lemma GroupState.heldByOthers_iff : g.heldByOthers id tp ↔ ∃ j, j ≠ id ∧ g.Holds j tp := by
  simp only [heldByOthers, List.any_eq_true, decide_eq_true_eq]
  constructor
  · rintro ⟨e, he, hne, hholds⟩
    exact ⟨e.1, hne, e.2, (mem_toList _).mp he, hholds⟩
  · rintro ⟨j, hne, m, hm, hholds⟩
    exact ⟨(j, m), (mem_toList _).mpr hm, hne, hholds⟩

variable {m : MemberState}

lemma GroupState.holds_insert_of_same {g' : GroupState} {m' : MemberState}
    (hm : g.members[id]? = some m) (hmembers : g'.members = g.members.insert id m')
    (hsame : m'.Holds tp ↔ m.Holds tp) : g'.Holds j tp ↔ g.Holds j tp := by
  unfold GroupState.Holds
  rw [hmembers, getElem?_insert]
  obtain rfl | hj := eq_or_ne j id
  · simp [hm, hsame]
  · simp [hj]

@[simp]
lemma holds_advanceMemberEpoch : (g.advanceMemberEpoch id).Holds j tp ↔ g.Holds j tp := by
  unfold GroupState.Holds advanceMemberEpoch
  simp only [getElem?_modify]
  obtain rfl | hj := eq_or_ne j id
  · cases hm : g.members[j]? with
    | none => simp
    | some m => simp [MemberState.Holds]
  · simp [hj]

@[simp]
lemma holds_runReconcile (env : Surroundings) (config : NextGenConfig) :
    (runReconcile env config g).Holds j tp ↔ g.Holds j tp := by
  unfold runReconcile
  dsimp only
  split
  · rfl
  · unfold reconcileIfDirty
    by_cases hdirty : g.dirty
    · simp only [hdirty, not_true, if_false]
      unfold GroupState.Holds installTarget bumpEpoch
      simp only [ExtTreeMap.getElem?_map]
      cases hm : g.members[j]? with
      | none | some m => simp
    · simp [hdirty]

@[simp]
lemma holds_refreshMember (env : Surroundings) (req : HeartbeatRequest) (client : ClientIdentity) :
    (refreshMember env req client g).Holds j tp ↔ g.Holds j tp := by
  unfold refreshMember
  split
  · rfl
  · rename_i m hm
    refine holds_insert_of_same hm rfl ?_
    split <;> rfl

@[simp]
lemma holds_recomputed (env : Surroundings) (config : NextGenConfig) (req : HeartbeatRequest)
    (client : ClientIdentity) (curEpoch : ℤ) :
    (recomputed env config req client curEpoch g).Holds j tp ↔ g.Holds j tp := by
  unfold recomputed
  dsimp only
  split <;> simp

lemma holds_addOrUpdateMember {regexNew : String → Option (String → Bool)} (hm : ¬ m.Holds tp)
    (hnew : g.members[m.memberId]? = none) :
    (g.addOrUpdateMember regexNew m).Holds j tp ↔ g.Holds j tp := by
  unfold GroupState.Holds addOrUpdateMember
  rw [getElem?_insert]
  obtain rfl | hj := eq_or_ne j m.memberId
  · have hmem : (m.setRegex regexNew m.subscribedTopicRegex).memberId = m.memberId := rfl
    simp only [hmem, hnew]
    simpa using show ¬ (m.setRegex regexNew _).Holds tp from hm
  · simp [MemberState.setRegex, hj]

lemma members_removeMember : (g.removeMember id).members[j]? = if j = id then none else g.members[j]? := by
  unfold removeMember
  split
  · rename_i hnone
    split
    · rename_i hj
      rw [hj, hnone]
    · rfl
  · exact getElem?_erase _ _ _

lemma members_foldl_removeMember (ids : List MemberId) (g : GroupState) :
    (ids.foldl removeMember g).members[j]? = if j ∈ ids then none else g.members[j]? := by
  induction ids generalizing g with
  | nil => simp
  | cons id ids ih =>
    rw [List.foldl_cons, ih, members_removeMember]
    by_cases hj : j ∈ ids
    · simp [hj]
    · by_cases hid : j = id <;> simp [hj, hid]

/-- **What a member holds after its heartbeat**: what it reported, and the target partitions that nobody
else holds. -/
theorem holds_reconcileMember (hm : g.members[id]? = some m) (owned : TopicPartitions) :
    (g.reconcileMember id owned).1.Holds j tp ↔
      if j = id then
        Lists owned tp ∨ (Lists (g.target.perMember[id]?.getD ∅) tp ∧ ¬ ∃ k, k ≠ id ∧ g.Holds k tp)
      else g.Holds j tp := by
  unfold reconcileMember
  simp only [hm]
  unfold GroupState.Holds
  simp only [getElem?_insert]
  obtain rfl | hj := eq_or_ne j id
  · have hothers : g.heldByOthers j tp ↔ ∃ k, k ≠ j ∧ g.Holds k tp := g.heldByOthers_iff
    simp only [if_true, Option.some.injEq, exists_eq_left', MemberState.Holds, lists_sortPartitions,
      lists_keepPartitions, decide_eq_true_eq, Prod.mk.eta]
    rw [hothers]
    have hlists : tp.2 ∈ (g.target.perMember[j]?.getD ∅)[tp.1]?.getD [] ↔
      Lists (g.target.perMember[j]?.getD ∅) tp := Iff.rfl
    tauto
  · simp [hj]

variable (env : Surroundings)
variable (config : NextGenConfig)

lemma members_runReconcile_isSome : (runReconcile env config g).members[j]?.isSome = g.members[j]?.isSome := by
  unfold runReconcile reconcileIfDirty
  dsimp only
  split
  · rfl
  · by_cases hdirty : g.dirty
    · simp [hdirty, installTarget, bumpEpoch]
    · simp [hdirty]

lemma holds_runReconcile_foldl_remove (gone : List MemberId) :
    (runReconcile env config (gone.foldl removeMember g)).Holds j tp ↔ ¬ j ∈ gone ∧ g.Holds j tp := by
  rw [holds_runReconcile]
  unfold GroupState.Holds
  rw [members_foldl_removeMember]
  split <;> simp [*]

lemma members_recomputed_isSome
    (req : HeartbeatRequest) (client : ClientIdentity) (curEpoch : ℤ)
    (h : g.members[req.memberId]?.isSome) :
    (recomputed env config req client curEpoch g).members[req.memberId]?.isSome = true := by
  have hrefresh : (refreshMember env req client g).members[req.memberId]?.isSome := by
    unfold refreshMember
    split
    · exact h
    · simp
  rw [← members_runReconcile_isSome env config] at hrefresh
  unfold recomputed
  dsimp only
  split
  · simpa [advanceMemberEpoch, getElem?_modify] using hrefresh
  · exact hrefresh

end group

/-! ## Clients -/

/-- A client: what it consumes, the last assignment it received, and its last report. -/
structure Client where
  owned : Finset TopicPartition := ∅
  received : TopicPartitions := ∅
  reported : Finset TopicPartition := ∅

/-- The group with what its clients own and were told. -/
structure Consumption where
  group : GroupState
  clients : MemberId → Client

def Consumption.start (groupId : String) : Consumption := ⟨.new groupId, fun _ => {}⟩

/-- Heartbeats and ticks of the group, adds and drops of the clients. -/
inductive Event where
  /-- A heartbeat of any form, from its request to its answer. -/
  | heartbeat (env : Surroundings) (req : HeartbeatRequest) (client : ClientIdentity)
  /-- Members whose session timed out are evicted. -/
  | tick (env : Surroundings)
  /-- A client stops to consume a partition. -/
  | drop (id : MemberId) (tp : TopicPartition)
  /-- A client begins to consume a partition. -/
  | add (id : MemberId) (tp : TopicPartition)

def partitionsOf (report : List (Uuid × List ℤ)) : Finset TopicPartition :=
  (report.flatMap fun e => e.2.map (e.1, ·)).toFinset

/-- The client reports what it owns, each topic once, or nothing when it owns what it last reported. -/
def Client.Reports (c : Client) (report : Option (List (Uuid × List ℤ))) : Prop :=
  match report with
  | some topics => (topics.map Prod.fst).Nodup ∧ partitionsOf topics = c.owned
  | none => c.owned = c.reported

instance (c : Client) (report : Option (List (Uuid × List ℤ))) : Decidable (c.Reports report) := by
  cases report <;> unfold Client.Reports <;> infer_instance

/-- The client after the answer to its heartbeat: one that left owns nothing. -/
def Client.answered (c : Client) (req : HeartbeatRequest) (resp : HeartbeatResponse) : Client :=
  if req.memberEpoch = -1 then {}
  else
    { c with
      received := resp.assignment.getD c.received
      reported := if req.topicPartitions.isSome then c.owned else c.reported }

def Consumption.setOwned (s : Consumption) (id : MemberId) (owned : Finset TopicPartition) :
    Consumption :=
  { s with clients := Function.update s.clients id { s.clients id with owned } }

/-- The client of a request. One that is not a member yet may ask for an id. -/
def sender (g : GroupState) (env : Surroundings) (req : HeartbeatRequest) : MemberId :=
  if g.members.contains req.memberId then req.memberId else firstJoinMemberId env req.memberId

/-- Well-behaved clients of one group. An id that the group makes up is not in use. -/
def consumption (config : NextGenConfig) : Sys Consumption Event where
  enabled s
    | .heartbeat env req _ =>
      (req.memberId = "" → ¬ s.group.members.contains env.newId) ∧
        (req.memberEpoch ≠ -1 → (s.clients (sender s.group env req)).Reports req.topicPartitions)
    | .tick _ => True
    | .drop id tp => tp ∈ (s.clients id).owned ∧ ¬ Lists (s.clients id).received tp
    | .add id tp => Lists (s.clients id).received tp ∧
        ∀ q ∈ (s.clients id).owned, Lists (s.clients id).received q
  next s
    | .heartbeat env req client =>
      let who := sender s.group env req
      let (group, resp) := stepHeartbeat env config req client s.group
      ⟨group, Function.update s.clients who ((s.clients who).answered req resp)⟩
    | .tick env =>
      let evicted := s.group.expiredMemberIds env.now config.sessionTimeout
      ⟨handleSessionTick env config s.group, fun id => if id ∈ evicted then {} else s.clients id⟩
    | .drop id tp => s.setOwned id ((s.clients id).owned.erase tp)
    | .add id tp => s.setOwned id (insert tp (s.clients id).owned)

/-- A keepalive that is accepted finds none of the member's partitions pending revocation, once the target is
recomputed. -/
def KeepaliveSettled (config : NextGenConfig) (s : Consumption) : Event → Prop
  | .heartbeat env req client =>
    req.topicPartitions = none → req.memberEpoch ≠ -1 →
      (req.serverAssignor.any fun name => !config.assignorEnabled name) = false →
      s.group.members[req.memberId]?.map (·.memberEpoch) = some req.memberEpoch →
      ∀ m ∈ (recomputed env config req client req.memberEpoch s.group).members[req.memberId]?,
        ∀ tp ∈ (s.clients req.memberId).owned, ¬ Lists m.partitionsPendingRevocation tp
  | _ => True

instance (config : NextGenConfig) (s : Consumption) (e : Event) :
    Decidable ((consumption config).enabled s e) := by
  cases e <;> unfold consumption <;> infer_instance

instance (config : NextGenConfig) (s : Consumption) (e : Event) :
    Decidable (KeepaliveSettled config s e) := by
  cases e <;> unfold KeepaliveSettled <;> infer_instance

/-! ## The invariant -/

/-- The group takes no partition to be held twice, and each client to hold what it owns and may still add. -/
structure Exclusive (g : GroupState) (clients : MemberId → Client) : Prop where
  disjoint : ∀ i j tp, g.Holds i tp → g.Holds j tp → i = j
  owned : ∀ i, ∀ tp ∈ (clients i).owned, g.Holds i tp
  received : ∀ i tp, Lists (clients i).received tp → g.Holds i tp

lemma lists_rebuild {l : List (Uuid × List ℤ)} (hnd : (l.map Prod.fst).Nodup)
    (tp : TopicPartition) : Lists (rebuild ∅ l) tp ↔ ∃ e ∈ l, e.1 = tp.1 ∧ tp.2 ∈ e.2 := by
  rw [lists_iff]
  constructor
  · rintro ⟨parts, hparts, hp⟩
    have hmem : tp.1 ∈ l.map Prod.fst := by
      by_contra hnot
      rw [getElem?_rebuild_of_not_mem hnot, ExtTreeMap.getElem?_empty] at hparts
      cases hparts
    obtain ⟨e, he, htid⟩ := List.mem_map.mp hmem
    have hget : (rebuild ∅ l)[e.1]? = some e.2 := getElem?_rebuild_of_mem hnd he
    rw [htid, hparts] at hget
    exact ⟨e, he, htid, Option.some.inj hget ▸ hp⟩
  · rintro ⟨e, he, htid, hp⟩
    exact ⟨e.2, htid ▸ getElem?_rebuild_of_mem hnd he, hp⟩

lemma Client.Reports.lists_reportedOwned {c : Client} {req : HeartbeatRequest}
    {topics : List (Uuid × List ℤ)} (h : c.Reports req.topicPartitions)
    (htopics : req.topicPartitions = some topics) (tp : TopicPartition) :
    Lists (reportedOwned req) tp ↔ tp ∈ c.owned := by
  rw [htopics] at h
  obtain ⟨hnd, howned⟩ := h
  rw [reportedOwned, htopics, getD_some, lists_rebuild hnd, ← howned]
  simp only [partitionsOf, List.mem_toFinset, List.mem_flatMap, List.mem_map, Prod.ext_iff]
  constructor
  · rintro ⟨e, he, htid, hp⟩
    exact ⟨e, he, tp.2, hp, htid, rfl⟩
  · rintro ⟨e, he, p, hp, htid, rfl⟩
    exact ⟨e, he, htid, hp⟩

namespace Exclusive
variable {g g' : GroupState} {clients : MemberId → Client} {id : MemberId} {tp : TopicPartition}

lemma owned_eq_empty (h : Exclusive g clients) (hid : g.members[id]? = none) :
    (clients id).owned = ∅ :=
  Finset.eq_empty_of_forall_notMem fun tp htp => g.not_holds_of_none hid (h.owned id tp htp)

lemma congr (h : Exclusive g clients) (hg : ∀ j tp, g'.Holds j tp ↔ g.Holds j tp) :
    Exclusive g' clients where
  disjoint i j tp hi hj := h.disjoint i j tp ((hg i tp).mp hi) ((hg j tp).mp hj)
  owned i tp htp := (hg i tp).mpr (h.owned i tp htp)
  received i tp htp := (hg i tp).mpr (h.received i tp htp)

variable {c : Client}
section
variable (h : Exclusive g clients)
include h

lemma update (howned : ∀ tp ∈ c.owned, g.Holds id tp) (hreceived : ∀ tp, Lists c.received tp → g.Holds id tp) :
    Exclusive g (update clients id c) where
  disjoint := h.disjoint
  owned i tp htp := by
    obtain rfl | hi := eq_or_ne i id
    · rw [update_self] at htp
      exact howned tp htp
    · rw [update_of_ne hi] at htp
      exact h.owned i tp htp
  received i tp htp := by
    obtain rfl | hi := eq_or_ne i id
    · rw [update_self] at htp
      exact hreceived tp htp
    · rw [update_of_ne hi] at htp
      exact h.received i tp htp

/-- **A grant.** The member keeps what it owns, as the group hears of it, and gains only what nobody
holds. -/
theorem grant {m : MemberState} (hm : g.members[id]? = some m)
    {owned : TopicPartitions} (hheld : ∀ tp, Lists owned tp → g.Holds id tp)
    (howned : ∀ tp ∈ (clients id).owned, Lists owned tp) (hc : c.owned = (clients id).owned)
    (hreceived : ∀ tp, Lists c.received tp → (g.reconcileMember id owned).1.Holds id tp) :
    Exclusive (g.reconcileMember id owned).1 (Function.update clients id c) := by
  -- What the member holds afterwards, nobody else does.
  have hfree : ∀ j tp, j ≠ id → (g.reconcileMember id owned).1.Holds id tp → ¬ g.Holds j tp := by
    intro j tp hne hid hj
    rw [holds_reconcileMember hm, if_pos rfl] at hid
    rcases hid with hlist | ⟨-, hnone⟩
    · exact hne (h.disjoint j id tp hj (hheld tp hlist))
    · exact hnone ⟨j, hne, hj⟩
  have hother : ∀ j tp, j ≠ id → ((g.reconcileMember id owned).1.Holds j tp ↔ g.Holds j tp) := by
    intro j tp hne
    rw [holds_reconcileMember hm, if_neg hne]
  constructor
  · intro i j tp hi hj
    by_cases hii : i = id <;> by_cases hjj : j = id
    · rw [hii, hjj]
    · subst hii
      exact absurd ((hother j tp hjj).mp hj) (hfree j tp hjj hi)
    · subst hjj
      exact absurd ((hother i tp hii).mp hi) (hfree i tp hii hj)
    · exact h.disjoint i j tp ((hother i tp hii).mp hi) ((hother j tp hjj).mp hj)
  · intro i tp htp
    obtain rfl | hi := eq_or_ne i id
    · rw [update_self, hc] at htp
      rw [holds_reconcileMember hm, if_pos rfl]
      exact .inl (howned tp htp)
    · rw [update_of_ne hi] at htp
      exact (hother i tp hi).mpr (h.owned i tp htp)
  · intro i tp htp
    obtain rfl | hi := eq_or_ne i id
    · rw [update_self] at htp
      exact hreceived tp htp
    · rw [update_of_ne hi] at htp
      exact (hother i tp hi).mpr (h.received i tp htp)

lemma remove (gone : MemberId → Prop) {clients' : MemberId → Client}
    (hg : ∀ j tp, g'.Holds j tp ↔ ¬ gone j ∧ g.Holds j tp)
    (hgone : ∀ j, gone j → (clients' j).owned = ∅ ∧ (clients' j).received = ∅)
    (hstay : ∀ j, ¬ gone j → clients' j = clients j) : Exclusive g' clients' where
  disjoint i j tp hi hj := h.disjoint i j tp ((hg i tp).mp hi).2 ((hg j tp).mp hj).2
  owned i tp htp := by
    by_cases hi : gone i
    · simp [(hgone i hi).1] at htp
    · rw [hstay i hi] at htp
      exact (hg i tp).mpr ⟨hi, h.owned i tp htp⟩
  received i tp htp := by
    by_cases hi : gone i
    · simp [(hgone i hi).2] at htp
    · rw [hstay i hi] at htp
      exact (hg i tp).mpr ⟨hi, h.received i tp htp⟩

end
end Exclusive
section steps
variable {g : GroupState} {clients : MemberId → Client} {config : NextGenConfig} {env : Surroundings}
  {req : HeartbeatRequest} {client : ClientIdentity}

variable {id : MemberId}

lemma contains_eq_false_iff : g.members.contains id = false ↔ g.members[id]? = none := by
  rw [ExtTreeMap.contains_eq_isSome_getElem?]
  cases g.members[id]? <;> simp

lemma Exclusive.refused (h : Exclusive g clients) {resp : HeartbeatResponse}
    (hepoch : req.memberEpoch ≠ -1) (hresp : resp.assignment = none) :
    Exclusive g (Function.update clients id ((clients id).answered req resp)) := by
  refine h.update (fun tp htp => ?_) (fun tp htp => ?_)
  · rw [Client.answered, if_neg hepoch] at htp
    exact h.owned id tp htp
  · rw [Client.answered, if_neg hepoch, hresp] at htp
    exact h.received id tp htp

lemma Exclusive.leave (h : Exclusive g clients) (hepoch : req.memberEpoch = -1) :
    Exclusive (leaveStep env config req g).1
      (Function.update clients (sender g env req)
        ((clients (sender g env req)).answered req (leaveStep env config req g).2)) := by
  rw [Client.answered, if_pos hepoch]
  by_cases hin : g.members.contains req.memberId
  · simp only [leaveStep, sender, hin, if_true]
    refine h.remove (· = req.memberId) (fun j tp => ?_) (fun j hj => ?_) (fun j hj => ?_)
    · rw [holds_runReconcile]
      unfold GroupState.Holds
      rw [members_removeMember]
      by_cases hj : j = req.memberId <;> simp [hj]
    · rw [hj, update_self]
      exact ⟨rfl, rfl⟩
    · rw [update_of_ne hj]
  · simp only [leaveStep, hin, Bool.false_eq_true, if_false]
    exact h.update (by simp) (by simp)

variable {m : MemberState}

lemma Exclusive.granted (h : Exclusive g clients) (hm : g.members[id]? = some m)
    (hepoch : req.memberEpoch ≠ -1) {owned : TopicPartitions}
    (hheld : ∀ tp, Lists owned tp → g.Holds id tp)
    (howned : ∀ tp ∈ (clients id).owned, Lists owned tp) :
    Exclusive (g.reconcileMember id owned).1
      (Function.update clients id ((clients id).answered req
        (buildAssignmentResp (g.reconcileMember id owned).1 id config))) := by
  obtain ⟨m', hm'⟩ : ∃ m', (g.reconcileMember id owned).1.members[id]? = some m' := by
    simp [reconcileMember, hm]
  refine h.grant hm hheld howned (by rw [Client.answered, if_neg hepoch]) fun tp htp => ?_
  have hassign : (buildAssignmentResp (g.reconcileMember id owned).1 id config).assignment =
      some m'.assignedPartitions := by simp [buildAssignmentResp, hm']
  rw [Client.answered, if_neg hepoch, hassign] at htp
  exact ⟨m', hm', .inl htp⟩

lemma firstJoin_new (hfresh : req.memberId = "" → ¬ g.members.contains env.newId)
    (hout : ¬ g.members.contains req.memberId) :
    g.members[firstJoinMemberId env req.memberId]? = none := by
  rw [← contains_eq_false_iff, ← Bool.not_eq_true]
  unfold firstJoinMemberId
  split
  · exact hfresh ‹_›
  · exact hout

lemma members_join_isSome (env : Surroundings) (config : NextGenConfig) :
    ((runReconcile env config (g.addOrUpdateMember env.regexNew
      (buildMember id req client env.now))).advanceMemberEpoch id).members[id]?.isSome = true := by
  have hadd : (g.addOrUpdateMember env.regexNew (buildMember id req client env.now)).members[id]?.isSome := by
    simp [addOrUpdateMember, MemberState.setRegex, buildMember]
  rw [← members_runReconcile_isSome env config] at hadd
  simpa [advanceMemberEpoch, getElem?_modify] using hadd

section
variable (h : Exclusive g clients)
include h

lemma Exclusive.reportedOwned_empty (hnew : g.members[id]? = none)
    (hreport : (clients id).Reports req.topicPartitions) (tp : TopicPartition) :
    ¬ Lists (reportedOwned req) tp := by
  cases htopics : req.topicPartitions with
  | some topics => simp [hreport.lists_reportedOwned htopics, h.owned_eq_empty hnew]
  | none => simp [reportedOwned, htopics, rebuild]

lemma Exclusive.holds_ownedOf {curEpoch : ℤ}
    (hm : (recomputed env config req client curEpoch g).members[req.memberId]? = some m)
    (hreport : (clients req.memberId).Reports req.topicPartitions) (tp : TopicPartition)
    (htp : Lists (ownedOf req (recomputed env config req client curEpoch g)) tp) :
    (recomputed env config req client curEpoch g).Holds req.memberId tp := by
  cases htopics : req.topicPartitions with
  | some topics =>
    rw [ownedOf, htopics, isSome_some, if_pos rfl, hreport.lists_reportedOwned htopics] at htp
    exact (holds_recomputed env config req client curEpoch).mpr (h.owned _ tp htp)
  | none =>
    simp only [ownedOf, htopics, hm, isSome_none, Bool.false_eq_true, if_false, map_some, getD_some] at htp
    exact ⟨m, hm, .inl htp⟩

lemma Exclusive.join (hepoch : req.memberEpoch ≠ -1)
    (hnew : g.members[id]? = none) (hreport : (clients id).Reports req.topicPartitions) :
    let g₁ := g.addOrUpdateMember env.regexNew (buildMember id req client env.now)
    let g₂ := (runReconcile env config g₁).advanceMemberEpoch id
    Exclusive (g₂.reconcileMember id (reportedOwned req)).1
      (Function.update clients id ((clients id).answered req
        (buildAssignmentResp (g₂.reconcileMember id (reportedOwned req)).1 id config))) := by
  intro g₁ g₂
  have hsome : g₂.members[id]?.isSome := members_join_isSome env config
  obtain ⟨m, hm⟩ := isSome_iff_exists.mp hsome
  have hsame : ∀ j tp, g₂.Holds j tp ↔ g.Holds j tp := by
    intro j tp
    rw [holds_advanceMemberEpoch, holds_runReconcile]
    exact holds_addOrUpdateMember (by simp [MemberState.Holds, buildMember]) hnew
  exact (h.congr hsame).granted hm hepoch
    (fun tp htp => absurd htp (h.reportedOwned_empty hnew hreport tp)) (by simp [h.owned_eq_empty hnew])

lemma Exclusive.heartbeat (hepoch : req.memberEpoch ≠ -1)
    (hin : g.members.contains req.memberId) (curEpoch : ℤ)
    (hreport : (clients req.memberId).Reports req.topicPartitions)
    (hsettled : req.topicPartitions = none →
      ∀ m ∈ (recomputed env config req client curEpoch g).members[req.memberId]?,
        ∀ tp ∈ (clients req.memberId).owned, ¬ Lists m.partitionsPendingRevocation tp) :
    Exclusive (updateMemberState env config req client curEpoch g)
      (Function.update clients req.memberId ((clients req.memberId).answered req
        (buildAssignmentResp (updateMemberState env config req client curEpoch g) req.memberId config))) := by
  have hsome := members_recomputed_isSome env config req client curEpoch
    ((ExtTreeMap.contains_eq_isSome_getElem? ..).symm.trans hin)
  obtain ⟨m, hm⟩ := isSome_iff_exists.mp hsome
  have hsame : ∀ j tp, (recomputed env config req client curEpoch g).Holds j tp ↔ g.Holds j tp :=
    fun j tp => holds_recomputed env config req client curEpoch
  refine (h.congr hsame).granted hm hepoch (h.holds_ownedOf hm hreport) (fun tp htp => ?_)
  cases htopics : req.topicPartitions with
  | some topics =>
    rwa [ownedOf, htopics, isSome_some, if_pos rfl, hreport.lists_reportedOwned htopics]
  | none =>
    simp only [ownedOf, htopics, hm, isSome_none, Bool.false_eq_true, if_false, map_some, getD_some]
    -- What it owns is assigned to it or pending, and it is not pending.
    obtain ⟨m', hm', hholds⟩ := (hsame _ tp).mpr (h.owned _ tp htp)
    obtain rfl : m = m' := Option.some.inj (hm.symm.trans hm')
    exact hholds.resolve_right (hsettled htopics m hm tp htp)

end
end steps

/-! ## Runs -/

section runs
variable {config : NextGenConfig}

lemma validateMemberEpoch_ok {current : Option ℤ} {requested epoch : ℤ}
    (h : validateMemberEpoch current requested = .ok epoch) :
    current = some epoch ∧ requested = epoch := by
  unfold validateMemberEpoch at h
  split at h
  · cases h
  · split_ifs at h
    cases h
    exact ⟨rfl, by omega⟩

/-- Every step with settled keepalives keeps the invariant. -/
lemma Exclusive.step {s : Consumption} {e : Event} (h : Exclusive s.group s.clients)
    (hen : (consumption config).enabled s e) (hok : KeepaliveSettled config s e) :
    Exclusive ((consumption config).next s e).group ((consumption config).next s e).clients := by
  cases e with
  | drop id tp =>
    refine h.update (fun q hq => ?_) (h.received id)
    exact h.owned id q (Finset.mem_of_mem_erase hq)
  | add id tp =>
    refine h.update (fun q hq => ?_) (h.received id)
    rcases Finset.mem_insert.mp hq with rfl | hq
    · exact h.received id q hen.1
    · exact h.owned id q hq
  | tick env =>
    show Exclusive (handleSessionTick env config s.group) _
    by_cases hnil : s.group.expiredMemberIds env.now config.sessionTimeout = []
    · simpa [handleSessionTick, hnil, consumption] using h
    · rw [handleSessionTick, if_neg hnil]
      refine h.remove (· ∈ s.group.expiredMemberIds env.now config.sessionTimeout) (fun j tp => ?_)
        (fun j hj => ?_) (fun j hj => ?_)
      · exact holds_runReconcile_foldl_remove env config _
      · simp [consumption, hj]
      · simp [consumption, hj]
  | heartbeat env req client =>
    obtain ⟨hfresh, hreport⟩ := hen
    show Exclusive (stepHeartbeat env config req client s.group).1
      (Function.update s.clients (sender s.group env req)
        ((s.clients (sender s.group env req)).answered req (stepHeartbeat env config req client s.group).2))
    unfold stepHeartbeat
    by_cases hepoch : req.memberEpoch = -1
    · rw [if_pos hepoch]
      exact h.leave hepoch
    replace hreport := hreport hepoch
    split_ifs with hassignor hjoin hinstance hsize
    · exact h.refused hepoch rfl
    · exact h.refused hepoch rfl
    · exact h.refused hepoch rfl
    · have hsender : sender s.group env req = firstJoinMemberId env req.memberId := by
        rw [sender, if_neg hjoin.2]
      rw [hsender] at hreport ⊢
      exact h.join hepoch (firstJoin_new hfresh hjoin.2) hreport
    · split
      · exact h.refused hepoch rfl
      · rename_i curEpoch hvalid
        obtain ⟨hcur, hreq⟩ := validateMemberEpoch_ok hvalid
        have hin : s.group.members.contains req.memberId := by
          rw [ExtTreeMap.contains_eq_isSome_getElem?]
          cases hget : s.group.members[req.memberId]? with
          | none => simp [hget] at hcur
          | some m => rfl
        have hsender : sender s.group env req = req.memberId := by rw [sender, if_pos hin]
        rw [hsender] at hreport ⊢
        rw [Bool.not_eq_true] at hassignor
        exact h.heartbeat hepoch hin curEpoch hreport fun htopics => hreq ▸ hok htopics hepoch hassignor (hreq ▸ hcur)

/-- **No partition has two owners**, in every run in which an accepted heartbeat without a report finds none of its
sender's partitions pending revocation. -/
theorem owners_unique (groupId : String) {s : Consumption}
    (h : (consumption config).Run (KeepaliveSettled config) (.start groupId) s) (i j : MemberId)
    (tp : TopicPartition) (hi : tp ∈ (s.clients i).owned) (hj : tp ∈ (s.clients j).owned) : i = j := by
  have hinit : Exclusive (Consumption.start groupId).group (Consumption.start groupId).clients := by
    constructor
    · rintro i j tp ⟨m, hm, -⟩
      simp [Consumption.start, new] at hm
    · intro i tp htp
      simp [Consumption.start] at htp
    · intro i tp htp
      simp [Consumption.start] at htp
  have hexcl : Exclusive s.group s.clients :=
    h.preserves (P := fun s => Exclusive s.group s.clients) (fun _ _ ht hen hok => ht.step hen hok) hinit
  exact hexcl.disjoint i j tp (hexcl.owned i tp hi) (hexcl.owned j tp hj)

end runs

def defaultConfig : NextGenConfig := ⟨45000, 5000, [UniformAssignor, RangeAssignor], 200⟩

def oneTopic : Surroundings where
  regexNew := fun _ => none
  snapshot := ⟨(∅ : ExtTreeMap String Uuid).insert "t" 7, (∅ : ExtTreeMap Uuid ℤ).insert 7 2, ∅⟩
  order := fun _ => 0
  newId := "fresh"
  now := 0

def beat (id : MemberId) (epoch : ℤ) (report : Option (List ℤ)) : Event :=
  .heartbeat oneTopic
    { memberId := id, memberEpoch := epoch, subscribedTopicNames := some ["t"]
      topicPartitions := report.map fun parts => [(7, parts)] }
    ⟨"client", "/127.0.0.1"⟩

/-- The first member owns both partitions when the second one joins. -/
def secondJoins : List Event :=
  [beat "a" 0 none, .add "a" (7, 0), .add "a" (7, 1), beat "a" 1 (some [0, 1]), beat "b" 0 none]

def handover : List Event :=
  secondJoins ++ [beat "a" 1 (some [0, 1]), .drop "a" (7, 1), beat "a" 2 (some [0]), beat "b" 2 none,
    .add "b" (7, 1)]

/-- A partition is given up by one member and added by another. -/
theorem owners_unique_handover :
    (∀ i j tp,
      tp ∈ (((consumption defaultConfig).execs (.start "g") handover).clients i).owned →
      tp ∈ (((consumption defaultConfig).execs (.start "g") handover).clients j).owned → i = j) ∧
    (7, 1) ∈ (((consumption defaultConfig).execs (.start "g") handover).clients "b").owned :=
  ⟨owners_unique "g" Sys.run_of_runsOk, by decide +kernel⟩

/-- The first member sends a keepalive: it owns what it last reported. -/
def keepaliveFirst : List Event :=
  secondJoins ++ [beat "a" 1 none, beat "b" 2 none, .add "b" (7, 1)]

/-- **A keepalive frees a partition that its sender owns**: two members consume it. -/
theorem keepalive_frees_owned :
    (consumption defaultConfig).AnyRun (.start "g")
        ((consumption defaultConfig).execs (.start "g") keepaliveFirst) ∧
      (7, 1) ∈ (((consumption defaultConfig).execs (.start "g") keepaliveFirst).clients "a").owned ∧
      (7, 1) ∈ (((consumption defaultConfig).execs (.start "g") keepaliveFirst).clients "b").owned :=
  ⟨Sys.run_of_runs, by decide +kernel⟩

end Crabka.Broker.Group
