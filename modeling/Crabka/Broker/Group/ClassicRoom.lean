import Crabka.Broker.Group.ClassicState
import Crabka.Found.Runs

/-!
# The rounds of a classic group

The actor of a classic group with its parked callers, and the answers that it gave. What a handler may do to the group
is said once (`Kept`, and `Shrunk` where members go); a completed round and a leader's list do more. A join of the
present round is parked until the round completes (`Gathered`), so a group that completes a round has the members that
its leader was told first (`RoundInv.step`), as long as the leader's join is parked and nobody goes in between.
-/

namespace Crabka.Broker.Group.Classic
open List hiding getElem?_insert getElem?_modify
open Std (ExtTreeMap)
open Found ClassicGroup Classic

/-! ## The actor -/

/-- An answer to a `SyncGroup` request of a generation. -/
structure SyncAnswer where
  memberId : MemberId
  generationId : ℤ
  result : SyncResult

/-- A list that a leader sent and the group installed. -/
structure InstalledList where
  generationId : ℤ
  leader : MemberId
  assignments : List (MemberId × Bytes)

/-- The group, the parked callers (followers with their generation), and the history of answers, lists and leaders. -/
structure Room where
  group : ClassicGroup
  joiners : List MemberId := []
  followers : List (MemberId × ℤ) := []
  joined : List JoinResult := []
  synced : List SyncAnswer := []
  installed : List InstalledList := []
  elected : List (ℤ × MemberId) := []

namespace Room

def start (groupId : String) : Room := { group := .new groupId }

def completeClassicRebalance (r : Room) : Room :=
  let synced := r.synced ++ r.followers.map fun f =>
    ⟨f.1, f.2, { errorCode := codeRebalanceInProgress }⟩
  match tryComplete r.group with
  | none =>
    { r with
      group := { r.group with rebalanceDeadline := none, joinedThisRound := ∅ }
      joiners := [], followers := [], synced
      joined := r.joined ++ r.joiners.map fun id =>
        { errorCode := codeInconsistentGroupProtocol, memberId := id
          protocolType := r.group.protocolType } }
  | some g =>
    { r with
      group := g, joiners := [], followers := [], synced
      joined := r.joined ++ r.joiners.map (buildJoinResult g)
      elected := r.elected ++
        if g.generationId = r.group.generationId then []
        else g.leaderId.toList.map (g.generationId, ·) }

/-- `drain_removed_classic_waiters`. -/
def drainRemoved (r : Room) (removed : List MemberId) : Room :=
  { r with
    joiners := r.joiners.filter (· ∉ removed)
    followers := r.followers.filter (·.1 ∉ removed)
    joined := r.joined ++ (r.joiners.filter (· ∈ removed)).map fun id =>
      { errorCode := codeUnknownMemberId, memberId := id }
    synced := r.synced ++ (r.followers.filter (·.1 ∈ removed)).map fun f =>
      ⟨f.1, f.2, { errorCode := codeUnknownMemberId }⟩ }

def maybeCompleteClassic (r : Room) : Room :=
  if r.group.generationId > 0 ∧ r.group.state = .preparingRebalance ∧
      r.group.allMembersJoinedThisRound = true then r.completeClassicRebalance
  else r

/-- Members are gone: the last one to go ends the generation, which is written to the log. -/
def afterRemoval (r : Room) (g : ClassicGroup) (removed : List MemberId) (writeOk : Bool) : Room :=
  if removed ≠ [] ∧ g.members.isEmpty then
    if writeOk then
      ({ r with group := { g with generationId := wrapI32 (g.generationId + 1) } }.drainRemoved
        removed).maybeCompleteClassic
    else r
  else ({ r with group := g }.drainRemoved removed).maybeCompleteClassic

/-- `handle_classic_join_message`. -/
def onJoin (delay : ℕ) (r : Room) (req : JoinGroupRequest) (version : ℤ) (clientId clientHost : String)
    (uuid : String) (now : ℕ) (writeOk : Bool) : Room :=
  match handleJoin r.group req clientId clientHost (decide (version ≥ 4)) delay now uuid with
  | (g, .immediate result) =>
    if result.errorCode = 0 ∧ writeOk = false then
      { r with joined := r.joined ++
          [joinError r.group codeCoordinatorLoadInProgress (joinId r.group req uuid)] }
    else { r with group := g, joined := r.joined ++ [result] }
  | (g, .park) => { r with group := g, joiners := r.joiners.insert (joinId r.group req uuid) }
  | (g, .completeNow) =>
    { r with group := g, joiners := r.joiners.insert (joinId r.group req uuid)
      }.completeClassicRebalance

/-- `handle_classic_sync_message`. -/
def onSync (r : Room) (req : SyncGroupRequest) (writeOk : Bool) : Room :=
  match handleSync r.group req with
  | (_, .immediate result) =>
    { r with synced := r.synced ++ [⟨req.memberId, req.generationId, result⟩] }
  | (_, .park) =>
    { r with followers := (r.followers.filter (·.1 ≠ req.memberId)) ++
        [(req.memberId, req.generationId)] }
  | (g, .leaderInstalled result) =>
    if writeOk then
      { r with
        group := g, followers := []
        installed := r.installed ++ [⟨r.group.generationId, req.memberId, req.assignments⟩]
        synced := r.synced ++ ⟨req.memberId, req.generationId, result⟩ ::
          r.followers.map fun f => ⟨f.1, f.2, readSyncResult g f.1⟩ }
    else
      { r with
        followers := []
        synced := r.synced ++ ((req.memberId, req.generationId) :: r.followers).map fun f =>
          ⟨f.1, f.2, syncErr r.group codeCoordinatorLoadInProgress⟩ }

/-- `handle_classic_leave_message`. -/
def onLeave (r : Room) (req : LeaveGroupRequest) (version : ℤ) (now : ℕ) (writeOk : Bool) : Room :=
  let g := (handleLeave r.group req version now).1
  r.afterRemoval g (r.group.members.keys.filter fun id => !g.members.contains id) writeOk

/-- The classic arm of `handle_actor_tick`. -/
def onTick (delay : ℕ) (r : Room) (now : ℕ) (writeOk : Bool) : Room :=
  let dropped := r.group.deadMembers now
  if dropped = [] then r
  else r.afterRemoval (r.group.expireDeadMembers now delay) dropped writeOk

end Room

/-- The messages and timers of the actor. -/
inductive Event where
  | join (req : JoinGroupRequest) (version : ℤ) (clientId clientHost uuid : String) (now : ℕ)
      (writeOk : Bool)
  | sync (req : SyncGroupRequest) (writeOk : Bool)
  | heartbeat (req : HeartbeatRequest) (now : ℕ)
  | leave (req : LeaveGroupRequest) (version : ℤ) (now : ℕ) (writeOk : Bool)
  | tick (now : ℕ) (writeOk : Bool)
  | deadline (now : ℕ)

/-- One classic group and its callers; `delay` is the configured initial delay of a round. -/
def room (delay : ℕ) : Sys Room Event where
  enabled r
    | .deadline now => r.group.rebalanceDeadline.any (· ≤ now) = true
    | _ => True
  next r
    | .join req version clientId clientHost uuid now writeOk =>
      r.onJoin delay req version clientId clientHost uuid now writeOk
    | .sync req writeOk => r.onSync req writeOk
    | .heartbeat req now => { r with group := (handleHeartbeat r.group req now).1 }
    | .leave req version now writeOk => r.onLeave req version now writeOk
    | .tick now writeOk => r.onTick delay now writeOk
    | .deadline _ => r.completeClassicRebalance

/-- The first successful `JoinGroup` answer of a generation to a member. -/
def firstJoin (joined : List JoinResult) (generationId : ℤ) (memberId : MemberId) : Option JoinResult :=
  joined.find? fun a => a.errorCode = 0 ∧ a.generationId = generationId ∧ a.memberId = memberId

def listed (answer : JoinResult) : Finset MemberId := (answer.members.map (·.memberId)).toFinset

def memberIds (g : ClassicGroup) : Finset MemberId := g.members.keys.toFinset

/-- The request is a leader's and passes the checks. -/
def installs (g : ClassicGroup) (req : SyncGroupRequest) : Bool :=
  match (handleSync g req).2 with
  | .leaderInstalled _ => true
  | .immediate _ | .park => false

/-- The generation is below its bound; a list is installed only where the group completes a round; nobody leaves or times
out while it does; and a deadline finds the join of the next leader parked. -/
def LeaderInRound (r : Room) (e : Event) : Prop :=
  r.group.generationId + 1 < 2 ^ 31 ∧
  match e with
  | .sync req writeOk => installs r.group req = true → writeOk = true → r.group.state = .completingRebalance
  | .leave req version _ _ => r.group.state = .completingRebalance →
      ∀ ident ∈ req.identities version, (resolveLeave r.group ident).isOk = false
  | .tick now _ => r.group.state = .completingRebalance → r.group.deadMembers now = []
  | .deadline _ => r.group.state = .preparingRebalance → ∀ id ∈ r.group.members.keys.head?, id ∈ r.joiners
  | .join .. | .heartbeat .. => True

instance (delay : ℕ) (r : Room) (e : Event) : Decidable ((room delay).enabled r e) := by
  cases e <;> unfold room <;> infer_instance

instance (r : Room) (e : Event) : Decidable (LeaderInRound r e) := by
  cases e <;> unfold LeaderInRound <;> infer_instance

/-! ## What handlers do to the group -/

/-- The index of instance ids points at the members that have them. -/
def Indexed (g : ClassicGroup) : Prop :=
  ∀ (iid : String) id, g.staticMembers[iid]? = some id → ∃ m, g.members[id]? = some m ∧ m.groupInstanceId = some iid

/-- What every handler keeps, of a group that may be stable or not. -/
structure Bounded (g g' : ClassicGroup) : Prop where
  indexed : Indexed g'
  generation : g'.generationId = g.generationId
  leader : ∀ id, g'.leaderId = some id → g.leaderId = some id
  completing : g'.state = .completingRebalance → g.state = .completingRebalance

/-- **What a handler may do**: a group that is stable afterwards was stable with the same leader, members and
assignments. -/
structure Kept (g g' : ClassicGroup) : Prop extends Bounded g g' where
  stable : g'.state = .stable → g.state = .stable ∧ g'.leaderId = g.leaderId ∧
    ∀ id : MemberId, g'.members[id]?.map (·.assignment) = g.members[id]?.map (·.assignment)

section kept
variable {g g₁ g₂ : ClassicGroup}

lemma Bounded.refl (h : Indexed g) : Bounded g g := ⟨h, rfl, fun _ => id, id⟩

lemma Bounded.trans (h : Bounded g g₁) (h' : Bounded g₁ g₂) : Bounded g g₂ where
  indexed := h'.indexed
  generation := h'.generation.trans h.generation
  leader id hid := h.leader id (h'.leader id hid)
  completing hc := h.completing (h'.completing hc)

lemma Kept.refl (h : Indexed g) : Kept g g :=
  { Bounded.refl h with stable := fun hs => ⟨hs, rfl, fun _ => rfl⟩ }

lemma Kept.memberIds_eq (h : Kept g g₁) (hs : g₁.state = .stable) : memberIds g₁ = memberIds g := by
  ext id
  have hid := (h.stable hs).2.2 id
  simp only [memberIds, mem_toFinset, ExtTreeMap.mem_keys, ExtTreeMap.mem_iff_isSome_getElem?]
  rw [← Option.isSome_map (f := fun m : Member => m.assignment), hid, Option.isSome_map]

lemma Indexed.removeMember (h : Indexed g) (id : MemberId) : Indexed (g.removeMember id) := by
  have hmain : ∀ (iid : String) id',
      ((g.members[id]?.bind (·.groupInstanceId)).elim g.staticMembers fun iid =>
        if g.staticMembers[iid]? = some id then g.staticMembers.erase iid
        else g.staticMembers)[iid]? = some id' →
      ∃ m, (g.members.erase id)[id']? = some m ∧ m.groupInstanceId = some iid := by
    intro iid id' hget
    have hold : g.staticMembers[iid]? = some id' := by
      cases hinst : g.members[id]?.bind (·.groupInstanceId) with
      | none => rwa [hinst] at hget
      | some _ =>
        rw [hinst, Option.elim_some] at hget
        split at hget
        · rw [getElem?_erase] at hget
          split at hget
          · cases hget
          · exact hget
        · exact hget
    obtain ⟨m, hm, hinst⟩ := h iid id' hold
    have hne : id' ≠ id := by
      rintro rfl
      rw [hm, Option.bind_some, hinst, Option.elim_some] at hget
      simp only [hold, if_true, getElem?_erase] at hget
      cases hget
    exact ⟨m, by rw [getElem?_erase, if_neg hne, hm], hinst⟩
  unfold ClassicGroup.removeMember
  dsimp only
  cases hinst : g.members[id]?.bind (·.groupInstanceId) <;> rw [hinst] at hmain <;> split <;> exact hmain

lemma Bounded.removeMember (h : Indexed g) (id : MemberId) : Bounded g (g.removeMember id) := by
  have hindexed := h.removeMember id
  unfold ClassicGroup.removeMember at hindexed ⊢
  dsimp only at hindexed ⊢
  split at hindexed
  · rename_i hempty
    rw [if_pos hempty]
    exact ⟨hindexed, rfl, nofun, nofun⟩
  · rename_i hsome
    rw [if_neg hsome]
    exact ⟨hindexed, rfl, fun _ hid => hid, fun hc => hc⟩

variable {id : MemberId}

lemma reset_of_removeMember (h : (g.removeMember id).members.isEmpty) :
    (g.removeMember id).state = .empty ∧ (g.removeMember id).leaderId = none := by
  unfold removeMember at h ⊢
  dsimp only at h ⊢
  split_ifs at h with hempty
  · rw [if_pos hempty]
    exact ⟨rfl, rfl⟩
  · exact absurd h hempty

variable {inputs : List (MemberId × Option String)}

lemma Bounded.leaveAll (h : Indexed g) : Bounded g (leaveAll g inputs).1 := by
  induction inputs generalizing g with
  | nil => exact .refl h
  | cons ident rest ih =>
    rw [leaveAll]
    split
    · exact (Bounded.removeMember h _).trans (ih (h.removeMember _))
    · exact ih h

lemma leaveAll_of_no_success (h : (0 : ℤ) ∉ (leaveAll g inputs).2) : (leaveAll g inputs).1 = g := by
  induction inputs with
  | nil => rfl
  | cons ident rest ih =>
    rw [leaveAll] at h ⊢
    split at h
    · simp at h
    · rename_i code herr
      exact ih fun hmem => h (mem_cons_of_mem _ hmem)

lemma reset_of_leaveAll (h : (leaveAll g inputs).1.members.isEmpty) :
    (leaveAll g inputs).1 = g ∨ ((leaveAll g inputs).1.state = .empty ∧ (leaveAll g inputs).1.leaderId = none) := by
  induction inputs generalizing g with
  | nil => exact .inl rfl
  | cons ident rest ih =>
    rw [leaveAll] at h ⊢
    split at h
    · rename_i id hok
      rcases ih h with hsame | hreset
      · rw [hsame] at h ⊢
        exact .inr (reset_of_removeMember h)
      · exact .inr hreset
    · exact ih h

/-- Members leave; a stable group with survivors is stable no more. -/
lemma Kept.handleLeave (h : Indexed g) (req : LeaveGroupRequest) (version : ℤ) (now : ℕ) :
    Kept g (handleLeave g req version now).1 := by
  have hb : Bounded g (leaveAll g (req.identities version)).1 := .leaveAll h
  unfold Classic.handleLeave
  dsimp only
  split
  · -- Survivors of a stable group: the group is not stable any more.
    exact ⟨⟨hb.indexed, hb.generation, hb.leader, nofun⟩, nofun⟩
  · rename_i hcond
    refine ⟨hb, fun hs => ?_⟩
    have hsame : (leaveAll g (req.identities version)).1 = g := by
      by_cases hempty : (leaveAll g (req.identities version)).1.members.isEmpty
      · rcases reset_of_leaveAll hempty with hsame | ⟨hreset, -⟩
        · exact hsame
        · rw [hreset] at hs
          cases hs
      · exact leaveAll_of_no_success fun hmem => hcond ⟨hmem, hempty, hs⟩
    rw [hsame] at hs ⊢
    exact ⟨hs, rfl, fun _ => rfl⟩

lemma reset_of_handleLeave (req : LeaveGroupRequest) (version : ℤ) (now : ℕ)
    (hne : (g.members.keys.filter fun id => !(handleLeave g req version now).1.members.contains id) ≠ [])
    (hempty : (handleLeave g req version now).1.members.isEmpty) :
    (handleLeave g req version now).1.state = .empty ∧ (handleLeave g req version now).1.leaderId = none := by
  unfold Classic.handleLeave at hempty hne ⊢
  dsimp only at hempty hne ⊢
  split_ifs at hempty with hcond
  · exact absurd hempty hcond.2.1
  · rw [if_neg hcond] at hne ⊢
    rcases reset_of_leaveAll hempty with hsame | hreset
    · refine absurd ?_ hne
      rw [hsame, filter_eq_nil_iff]
      intro id hid
      simpa using hid
    · exact hreset

lemma leaveAll_of_refused (h : ∀ ident ∈ inputs, (resolveLeave g ident).isOk = false) :
    (leaveAll g inputs).1 = g := by
  induction inputs with
  | nil => rfl
  | cons ident rest ih =>
    rw [leaveAll]
    have hrefused := h ident mem_cons_self
    cases hid : resolveLeave g ident with
    | error code => exact ih fun i hi => h i (mem_cons_of_mem _ hi)
    | ok id =>
      rw [hid] at hrefused
      cases hrefused

lemma handleLeave_of_refused {req : LeaveGroupRequest} {version : ℤ} {now : ℕ}
    (h : ∀ ident ∈ req.identities version, (resolveLeave g ident).isOk = false) (hstate : g.state ≠ .stable) :
    (handleLeave g req version now).1 = g := by
  have hsame := leaveAll_of_refused h
  unfold Classic.handleLeave
  dsimp only
  rw [if_neg (by rw [hsame]; exact fun hcond => hstate hcond.2.2), hsame]

variable {now : ℕ}

/-- A member joins or comes back to its slot. -/
lemma Kept.addMember (h : Indexed g) {member : Member} (hnone : member.assignment = none)
    (hinst : ∀ m, g.members[member.id]? = some m → m.groupInstanceId = member.groupInstanceId)
    (hpin : ∀ (iid : String) id, member.groupInstanceId = some iid → g.staticMembers[iid]? = some id →
      id = member.id) : Kept g (g.addMember member).1 := by
  -- Entries for other instances point at other members.
  have hother : ∀ (iid : String) id, member.groupInstanceId ≠ some iid →
      g.staticMembers[iid]? = some id → id ≠ member.id := by
    rintro iid id hne hget rfl
    obtain ⟨m, hm, hiid⟩ := h iid _ hget
    exact hne ((hinst m hm).symm.trans hiid)
  unfold ClassicGroup.addMember
  split
  · -- A static member comes back to its slot.
    rename_i prior iid hprior hiid
    rw [hiid, Option.bind_some] at hprior
    obtain rfl := hpin iid prior hiid hprior
    obtain ⟨m, hm, -⟩ := h iid _ hprior
    refine ⟨⟨?_, rfl, fun _ => id, id⟩, fun hs => ⟨hs, rfl, fun id => ?_⟩⟩
    · intro iid' id hget
      rw [getElem?_insert] at hget
      by_cases hii : iid' = iid
      · rw [if_pos hii] at hget
        obtain rfl : member.id = id := Option.some.inj hget
        exact ⟨_, by rw [getElem?_insert, if_pos rfl], by rw [hii]; exact hiid⟩
      · rw [if_neg hii] at hget
        have hne : id ≠ member.id := hother iid' id (by rw [hiid]; simpa using Ne.symm hii) hget
        obtain ⟨m', hm', hinst'⟩ := h iid' id hget
        exact ⟨m', by rw [getElem?_insert, if_neg hne, getElem?_erase, if_neg hne, hm'], hinst'⟩
    · rw [getElem?_insert, getElem?_erase]
      obtain rfl | hid := eq_or_ne id member.id
      · simp [hm, hnone]
      · simp [hid]
  · rename_i instanceId hfree
    refine ⟨⟨?_, rfl, fun _ => id, nofun⟩, nofun⟩
    intro iid id hget
    have hcases : (member.groupInstanceId = some iid ∧ id = member.id) ∨ g.staticMembers[iid]? = some id := by
      split at hget
      · rename_i iid₀ hsome
        rw [getElem?_insert] at hget
        split_ifs at hget with hii
        · exact .inl ⟨hii ▸ hsome, (Option.some.inj hget).symm⟩
        · exact .inr hget
      · exact .inr hget
    rw [getElem?_insert]
    rcases hcases with ⟨hiid, rfl⟩ | hold
    · exact ⟨member, by rw [if_pos rfl], hiid⟩
    · have hne : id ≠ member.id := by
        refine hother iid id (fun hiid => ?_) hold
        exact hfree id iid (by rw [hiid]; exact hold) hiid
      obtain ⟨m, hm, hinst'⟩ := h iid id hold
      exact ⟨m, by rw [if_neg hne, hm], hinst'⟩

lemma Kept.handleJoinAs (h : Indexed g) (req : JoinGroupRequest) (memberId : MemberId)
    (clientId clientHost : String) (delay now : ℕ) :
    Kept g (handleJoinAs g req memberId clientId clientHost delay now).1 := by
  unfold Classic.handleJoinAs
  split
  · exact .refl h
  split
  · exact .refl h
  split
  · exact .refl h
  rename_i hinst hpin
  dsimp only
  -- The protocol type of the group changes first; nothing here reads it.
  let g₀ : ClassicGroup := { g with protocolType := some req.protocolType }
  let member := Member.new memberId clientId clientHost (timeoutMs req.sessionTimeoutMs 30000)
    (timeoutMs req.rebalanceTimeoutMs 60000) req.protocols req.groupInstanceId now
  have hadd₀ : Kept g₀ (g₀.addMember member).1 := by
    have hindexed : Indexed g₀ := h
    refine .addMember hindexed rfl (fun m hm => ?_) (fun iid id hiid hget => ?_)
    · show m.groupInstanceId = req.groupInstanceId
      have hm' : g.members[memberId]? = some m := hm
      simpa [hm'] using hinst
    · show id = memberId
      have hiid' : req.groupInstanceId = some iid := hiid
      have hget' : g.staticMembers[iid]? = some id := hget
      simpa [hiid', hget'] using hpin
  have hadd : Kept g (g₀.addMember member).1 :=
    ⟨⟨hadd₀.indexed, hadd₀.generation, hadd₀.leader, hadd₀.completing⟩, hadd₀.stable⟩
  split
  · exact hadd
  · exact ⟨⟨hadd.indexed, hadd.generation, hadd.leader, hadd.completing⟩, hadd.stable⟩

lemma Kept.handleJoin (h : Indexed g) (req : JoinGroupRequest) (clientId clientHost : String)
    (known : Bool) (delay now : ℕ) (uuid : String) :
    Kept g (handleJoin g req clientId clientHost known delay now uuid).1 := by
  unfold Classic.handleJoin
  split
  · exact .refl h
  · exact .handleJoinAs h _ _ _ _ _ _

lemma Kept.handleHeartbeat (h : Indexed g) (req : HeartbeatRequest) (now : ℕ) :
    Kept g (handleHeartbeat g req now).1 := by
  unfold Classic.handleHeartbeat
  split
  · exact .refl h
  split
  · exact .refl h
  split
  · exact .refl h
  split
  · exact .refl h
  · refine ⟨⟨fun iid id hget => ?_, rfl, fun _ => id, id⟩, fun hs => ⟨hs, rfl, fun id => ?_⟩⟩
    · obtain ⟨m, hm, hinst⟩ := h iid id hget
      rw [getElem?_modify]
      by_cases hid : id = req.memberId
      · exact ⟨{ m with lastHeartbeat := now }, by simp [hid, hid ▸ hm], hinst⟩
      · exact ⟨m, by rw [if_neg hid, hm], hinst⟩
    · rw [getElem?_modify]
      split
      · cases g.members[id]? <;> rfl
      · rfl

variable {delay : ℕ}

lemma contains_expireDeadMembers (hin : g.members.contains id) (hid : id ∉ g.deadMembers now) :
    (g.expireDeadMembers now delay).members.contains id = true := by
  have hkeep : ((g.deadMembers now).foldl ExtTreeMap.erase g.members).contains id := by
    rw [ExtTreeMap.contains_eq_isSome_getElem?, getElem?_foldl_erase, if_neg hid,
      ← ExtTreeMap.contains_eq_isSome_getElem?]
    exact hin
  unfold expireDeadMembers
  dsimp only
  split_ifs
  · exact hin
  · exact hkeep
  · exact hkeep

lemma contains_expireDeadMembers_of_dead (hid : id ∈ g.deadMembers now) :
    (g.expireDeadMembers now delay).members.contains id = false := by
  have hgone : ((g.deadMembers now).foldl ExtTreeMap.erase g.members).contains id = false := by
    rw [ExtTreeMap.contains_eq_isSome_getElem?, getElem?_foldl_erase, if_pos hid]
    rfl
  unfold expireDeadMembers
  dsimp only
  rw [if_neg (ne_nil_of_mem hid)]
  split <;> exact hgone

lemma reset_of_expireDeadMembers (hdead : g.deadMembers now ≠ [])
    (hempty : (g.expireDeadMembers now delay).members.isEmpty) :
    (g.expireDeadMembers now delay).state = .empty ∧ (g.expireDeadMembers now delay).leaderId = none := by
  unfold expireDeadMembers at hempty ⊢
  dsimp only at hempty ⊢
  rw [if_neg hdead] at hempty ⊢
  split at hempty
  · rename_i hnone
    rw [if_pos hnone]
    exact ⟨rfl, rfl⟩
  · rename_i hsome
    exact absurd hempty hsome

lemma Kept.expireDeadMembers (h : Indexed g) (now delay : ℕ) : Kept g (g.expireDeadMembers now delay) := by
  -- Static members do not time out, so the index stays right.
  have hindexed : ∀ (iid : String) id, g.staticMembers[iid]? = some id →
      ∃ m, ((g.deadMembers now).foldl ExtTreeMap.erase g.members)[id]? = some m ∧ m.groupInstanceId = some iid := by
    intro iid id hget
    obtain ⟨m, hm, hinst⟩ := h iid id hget
    refine ⟨m, ?_, hinst⟩
    rw [getElem?_foldl_erase, if_neg ?_, hm]
    intro hdead
    unfold deadMembers at hdead
    split at hdead
    · cases hdead
    · obtain ⟨⟨id', m'⟩, he, rfl⟩ := mem_map.mp hdead
      obtain ⟨hmem, hstatic⟩ := mem_filter.mp he
      obtain rfl : m = m' := Option.some.inj (hm.symm.trans ((mem_toList _).mp hmem))
      simp [Member.isStatic, hinst] at hstatic
  unfold ClassicGroup.expireDeadMembers
  dsimp only
  split_ifs
  · exact .refl h
  · exact ⟨⟨hindexed, rfl, nofun, nofun⟩, nofun⟩
  · exact ⟨⟨hindexed, rfl, fun _ => id, nofun⟩, nofun⟩

/-- Nothing to complete, or a completed round. -/
lemma tryComplete_eq_some (h : tryComplete g = some g₁) :
    (g₁ = g ∧ (g.state = .preparingRebalance → g.members.isEmpty)) ∨ (g.state = .preparingRebalance ∧
      ∃ chosen, g₁ = (g.resolveSelectedProtocolMetadata chosen).completeRebalance chosen) := by
  unfold tryComplete at h
  split_ifs at h with hcond
  · obtain ⟨chosen, -, rfl⟩ := Option.map_eq_some_iff.mp h
    exact .inr ⟨hcond.1, chosen, rfl⟩
  · exact .inl ⟨(Option.some.inj h).symm, fun hstate => by_contra fun hne => hcond ⟨hstate, hne⟩⟩

lemma Indexed.completeRebalance (h : Indexed g) (chosen : String) :
    Indexed ((g.resolveSelectedProtocolMetadata chosen).completeRebalance chosen) := by
  intro iid id hget
  obtain ⟨m, hm, hinst⟩ := h iid id hget
  simp only [ClassicGroup.completeRebalance, resolveSelectedProtocolMetadata,
    ExtTreeMap.getElem?_map, hm, Option.map_some, Option.some.injEq, exists_eq_left']
  split <;> exact hinst

lemma installed_of_handleSync {req : SyncGroupRequest} {result : SyncResult}
    (h : handleSync g req = (g₁, .leaderInstalled result)) : g₁ = g.installAssignments req.assignments := by
  unfold handleSync at h
  split_ifs at h <;> cases h
  rfl

lemma state_of_tryComplete_none (h : tryComplete g = none) : g.state = .preparingRebalance := by
  unfold tryComplete at h
  split at h
  · rename_i hcond
    exact hcond.1
  · cases h

end kept

/-! ## What a round gathers -/

/-- The joins of a round are parked, a group between rounds has none, and members stand under their ids. -/
structure Gathered (g : ClassicGroup) (joiners : List MemberId) : Prop where
  parked : g.state = .preparingRebalance → ∀ id ∈ g.joinedThisRound, g.members.contains id → id ∈ joiners
  settled : g.state = .completingRebalance ∨ g.state = .stable → g.joinedThisRound = ∅
  named : ∀ (id : MemberId) m, g.members[id]? = some m → m.id = id

/-- Members may go, and their joins with them. -/
structure Shrunk (g g' : ClassicGroup) : Prop where
  joined : g'.joinedThisRound ⊆ g.joinedThisRound
  members : ∀ (id : MemberId) m, g'.members[id]? = some m → g.members[id]? = some m
  empty : g.state = .empty → g'.state = .empty

section gathered
variable {g g' g₁ g₂ : ClassicGroup} {joiners joiners' : List MemberId} {id : MemberId}

lemma Shrunk.refl (g : ClassicGroup) : Shrunk g g := ⟨subset_rfl, fun _ _ => id, id⟩

lemma Shrunk.trans (h : Shrunk g g₁) (h' : Shrunk g₁ g₂) : Shrunk g g₂ where
  joined := h'.joined.trans h.joined
  members id m hm := h.members id m (h'.members id m hm)
  empty he := h'.empty (h.empty he)

lemma Shrunk.contains (h : Shrunk g g') (hin : g'.members.contains id) : g.members.contains id = true := by
  obtain ⟨m, hm⟩ := exists_of_contains hin
  rw [ExtTreeMap.contains_eq_isSome_getElem?, h.members id m hm]
  rfl

lemma Shrunk.removeMember (g : ClassicGroup) (id : MemberId) : Shrunk g (g.removeMember id) := by
  have hmembers : ∀ (id' : MemberId) m, (g.members.erase id)[id']? = some m → g.members[id']? = some m := by
    intro id' m hm
    rw [getElem?_erase] at hm
    split_ifs at hm
    exact hm
  unfold ClassicGroup.removeMember
  dsimp only
  split
  · exact ⟨Finset.erase_subset _ _, hmembers, fun _ => rfl⟩
  · exact ⟨Finset.erase_subset _ _, hmembers, fun he => he⟩

lemma Shrunk.leaveAll (inputs : List (MemberId × Option String)) (g : ClassicGroup) :
    Shrunk g (leaveAll g inputs).1 := by
  induction inputs generalizing g with
  | nil => exact .refl g
  | cons ident rest ih =>
    rw [Classic.leaveAll]
    split
    · exact (Shrunk.removeMember g _).trans (ih _)
    · exact ih g

lemma Shrunk.handleLeave (g : ClassicGroup) (req : LeaveGroupRequest) (version : ℤ) (now : ℕ) :
    Shrunk g (handleLeave g req version now).1 := by
  have hleft := Shrunk.leaveAll (req.identities version) g
  unfold Classic.handleLeave
  dsimp only
  split
  · rename_i hcond
    refine ⟨hleft.joined, hleft.members, fun he => ?_⟩
    rw [hleft.empty he] at hcond
    exact absurd hcond.2.2 nofun
  · exact hleft

lemma Shrunk.expireDeadMembers (g : ClassicGroup) (now delay : ℕ) : Shrunk g (g.expireDeadMembers now delay) := by
  have hmembers : ∀ (id : MemberId) m, ((g.deadMembers now).foldl ExtTreeMap.erase g.members)[id]? = some m →
      g.members[id]? = some m := by
    intro id m hm
    rw [getElem?_foldl_erase] at hm
    split_ifs at hm
    exact hm
  unfold ClassicGroup.expireDeadMembers
  dsimp only
  split
  · exact .refl g
  · rename_i hdead
    have hstate : g.state ≠ .empty := fun he => hdead (by rw [deadMembers, if_pos he])
    split
    · exact ⟨Finset.empty_subset _, hmembers, fun _ => rfl⟩
    · exact ⟨Finset.filter_subset _ _, hmembers, fun he => absurd he hstate⟩

lemma Gathered.shrunk (h : Gathered g joiners) (hs : Shrunk g g') (hk : Kept g g')
    (hjoiners : ∀ id ∈ joiners, g'.members.contains id → id ∈ joiners') : Gathered g' joiners' where
  parked hstate id hid hin := by
    have hid' := hs.joined hid
    cases hold : g.state with
    | empty =>
      rw [hs.empty hold] at hstate
      cases hstate
    | preparingRebalance => exact hjoiners id (h.parked hold id hid' (hs.contains hin)) hin
    | completingRebalance =>
      rw [h.settled (.inl hold)] at hid'
      cases hid'
    | stable =>
      rw [h.settled (.inr hold)] at hid'
      cases hid'
  settled hstate := by
    have hnone := h.settled (hstate.imp hk.completing fun hstable => (hk.stable hstable).1)
    exact Finset.subset_empty.mp (hnone ▸ hs.joined)
  named id m hm := h.named id m (hs.members id m hm)

/-- A member enters under its id: what else is there was there. -/
lemma Gathered.insert_member (h : Gathered g joiners) {m : ExtTreeMap MemberId Member} (next : Member)
    (hm : ∀ (id : MemberId) (x : Member), m[id]? = some x → g.members[id]? = some x) :
    (∀ (id : MemberId) (x : Member), (m.insert next.id next)[id]? = some x → x.id = id) ∧
      ∀ id : MemberId, (m.insert next.id next).contains id → id = next.id ∨ g.members.contains id = true := by
  refine ⟨fun id x hx => ?_, fun id hin => ?_⟩
  · rw [getElem?_insert] at hx
    split_ifs at hx with hid
    · rw [← Option.some.inj hx, hid]
    · exact h.named id x (hm id x hx)
  · obtain ⟨x, hx⟩ := exists_of_contains hin
    rw [getElem?_insert] at hx
    split_ifs at hx with hid
    · exact .inl hid
    · rw [ExtTreeMap.contains_eq_isSome_getElem?, hm id x hx]
      exact .inr rfl

/-- Outside of a settled group the join has to be parked. -/
lemma Gathered.addMember (h : Gathered g joiners) (member : Member)
    (hjoiners : (g.addMember member).1.state = .preparingRebalance →
      ∀ id, id = member.id ∨ id ∈ joiners → id ∈ joiners') : Gathered (g.addMember member).1 joiners' := by
  unfold ClassicGroup.addMember at hjoiners ⊢
  split at hjoiners
  · rename_i prior iid hprior hiid
    dsimp only at hjoiners ⊢
    have hstatic := h.insert_member (m := g.members.erase prior)
      { member with assignment := member.assignment.or (g.members[prior]?.bind (·.assignment)) } fun id x hx => by
        rw [getElem?_erase] at hx
        split_ifs at hx
        exact hx
    refine ⟨fun hstate id hid hin => hjoiners hstate id ?_, fun hstate => ?_, hstatic.1⟩
    · rw [if_pos hstate, Finset.mem_insert] at hid
      refine or_iff_not_imp_left.mpr fun hne => h.parked hstate id ?_ ((hstatic.2 id hin).resolve_left hne)
      exact Finset.mem_of_mem_erase (hid.resolve_left hne)
    · rw [if_neg (by rcases hstate with hstate | hstate <;> rw [hstate] <;> nofun)]
      exact h.settled hstate
  · rename_i hfree
    dsimp only at hjoiners ⊢
    have hnew := h.insert_member (m := g.members) member fun _ _ => id
    refine ⟨fun _ id hid hin => hjoiners rfl id ?_, fun hstate => ?_, hnew.1⟩
    · refine or_iff_not_imp_left.mpr fun hne => ?_
      have hold := (Finset.mem_insert.mp hid).resolve_left hne
      split_ifs at hold with hopens
      · cases hold
      · exact h.parked (not_not.mp hopens) id hold ((hnew.2 id hin).resolve_left hne)
    · rcases hstate with hstate | hstate <;> cases hstate

lemma Gathered.park (h : Gathered g joiners) (id : MemberId) : Gathered g (joiners.insert id) :=
  { h with parked := fun hstate id' hid hin => mem_insert_of_mem (h.parked hstate id' hid hin) }

/-- A group that completes a round has the leader and the members that it had. -/
def Still (g g' : ClassicGroup) : Prop :=
  g'.state = .completingRebalance →
    g.state = .completingRebalance ∧ g'.leaderId = g.leaderId ∧ memberIds g' = memberIds g

lemma Still.refl (g : ClassicGroup) : Still g g := fun hstate => ⟨hstate, rfl, rfl⟩

variable {member : Member}

lemma addMember_of_rejoined (h : Indexed g)
    (hpin : ∀ (iid : String) id, member.groupInstanceId = some iid → g.staticMembers[iid]? = some id →
      id = member.id) (hback : (g.addMember member).2 = true) :
    (g.addMember member).1.state = g.state ∧ (g.addMember member).1.leaderId = g.leaderId ∧
      memberIds (g.addMember member).1 = memberIds g := by
  cases hiid : member.groupInstanceId with
  | none => simp [ClassicGroup.addMember, hiid] at hback
  | some iid =>
    cases hprior : g.staticMembers[iid]? with
    | none => simp [ClassicGroup.addMember, hiid, hprior] at hback
    | some prior =>
      obtain rfl := hpin iid prior hiid hprior
      obtain ⟨m, hm, -⟩ := h iid _ hprior
      simp only [ClassicGroup.addMember, hiid, Option.bind_some, hprior, true_and]
      ext id
      simp only [memberIds, mem_toFinset, ExtTreeMap.mem_keys, ExtTreeMap.mem_iff_isSome_getElem?, getElem?_insert,
        getElem?_erase]
      obtain rfl | hid := eq_or_ne id member.id
      · simp [hm]
      · simp [hid]

lemma state_addMember_of_new (hnew : (g.addMember member).2 = false) :
    (g.addMember member).1.state = .preparingRebalance := by
  unfold ClassicGroup.addMember at hnew ⊢
  split at hnew
  · cases hnew
  · rfl

lemma parkOr_ne {c : Prop} [Decidable c] (result : JoinResult) :
    (if c then JoinAction.completeNow else .park) ≠ .immediate result := by
  split <;> nofun

lemma of_parkOr {c : Prop} [Decidable c] (h : (if c then JoinAction.completeNow else .park) = .completeNow) : c := by
  by_contra hc
  rw [if_neg hc] at h
  cases h

/-- A join: whoever is not answered at once is parked, and an answer without an error is of the present generation. -/
lemma gathered_handleJoinAs (h : Gathered g joiners) (hidx : Indexed g) (req : JoinGroupRequest) (memberId : MemberId)
    (clientId clientHost : String) (delay now : ℕ) :
    let out := handleJoinAs g req memberId clientId clientHost delay now
    Gathered out.1 (joiners.insert memberId) ∧ Still g out.1 ∧
      (∀ result, out.2 = .immediate result →
        Gathered out.1 joiners ∧ (result.errorCode = 0 → result.generationId = out.1.generationId)) ∧
      (out.2 = .completeNow → out.1.allMembersJoinedThisRound = true) := by
  have hrefused : ∀ code : ℤ, code ≠ 0 → Gathered g (joiners.insert memberId) ∧ Still g g ∧
      (∀ result, JoinAction.immediate (joinError g code memberId) = .immediate result →
        Gathered g joiners ∧ (result.errorCode = 0 → result.generationId = g.generationId)) ∧
      (JoinAction.immediate (joinError g code memberId) = .completeNow → g.allMembersJoinedThisRound = true) := by
    intro code hcode
    refine ⟨h.park _, .refl g, fun result hresult => ⟨h, fun hzero => absurd ?_ hcode⟩, nofun⟩
    cases hresult
    exact hzero
  unfold handleJoinAs
  split
  · exact hrefused _ (by decide)
  split
  · exact hrefused _ (by decide)
  split
  · exact hrefused _ (by decide)
  rename_i hpin
  dsimp only
  let g₀ : ClassicGroup := { g with protocolType := some req.protocolType }
  let member := Member.new memberId clientId clientHost (timeoutMs req.sessionTimeoutMs 30000)
    (timeoutMs req.rebalanceTimeoutMs 60000) req.protocols req.groupInstanceId now
  have hg₀ : Gathered g₀ joiners := ⟨h.parked, h.settled, h.named⟩
  have hpark : Gathered (g₀.addMember member).1 (joiners.insert memberId) := hg₀.addMember member fun _ id hid =>
    hid.elim (fun hid => hid ▸ mem_insert_self) fun hid => mem_insert_of_mem hid
  have hback := @addMember_of_rejoined g₀ member hidx fun iid id hiid hget => by
    have hiid' : req.groupInstanceId = some iid := hiid
    have hget' : g.staticMembers[iid]? = some id := hget
    show id = memberId
    simpa [hiid', hget'] using hpin
  have hstill : Still g (g₀.addMember member).1 := by
    intro hstate
    cases hflag : (g₀.addMember member).2 with
    | true =>
      obtain ⟨hold, hleader, hmembers⟩ := hback hflag
      exact ⟨hold ▸ hstate, hleader, hmembers⟩
    | false =>
      rw [state_addMember_of_new hflag] at hstate
      cases hstate
  split
  · rename_i hstable
    refine ⟨hpark, hstill, fun result hresult => ⟨hg₀.addMember member fun hstate => ?_, fun _ => ?_⟩, nofun⟩
    · rw [(hback hstable.1).1, show g₀.state = .stable from hstable.2] at hstate
      cases hstate
    · cases hresult
      rfl
  · refine ⟨⟨hpark.parked, hpark.settled, hpark.named⟩, hstill, fun result hresult => ?_, fun hnow => ?_⟩
    · exact absurd hresult (parkOr_ne _)
    · have hall := of_parkOr hnow
      simp only [Bool.and_eq_true] at hall
      exact hall.2

lemma gathered_handleJoin (h : Gathered g joiners) (hidx : Indexed g) (req : JoinGroupRequest)
    (clientId clientHost : String) (known : Bool) (delay now : ℕ) (uuid : String) :
    let out := handleJoin g req clientId clientHost known delay now uuid
    Gathered out.1 (joiners.insert (joinId g req uuid)) ∧ Still g out.1 ∧
      (∀ result, out.2 = .immediate result →
        Gathered out.1 joiners ∧ (result.errorCode = 0 → result.generationId = out.1.generationId)) ∧
      (out.2 = .completeNow → out.1.allMembersJoinedThisRound = true) := by
  unfold handleJoin
  split
  · refine ⟨h.park _, .refl g, fun result hresult => ⟨h, fun hzero => ?_⟩, nofun⟩
    cases hresult
    cases hzero
  · exact gathered_handleJoinAs h hidx req _ clientId clientHost delay now

end gathered

/-! ## What the leader of a round is told -/

/-- While a group completes a round, its leader has been told the members first. -/
def Told (g : ClassicGroup) (joined : List JoinResult) : Prop :=
  g.state = .completingRebalance → ∀ id, g.leaderId = some id →
    (firstJoin joined g.generationId id).map listed = some (memberIds g)

/-- The rounds of a group: joins, answers and generations fit together. -/
structure RoundInv (g : ClassicGroup) (joined : List JoinResult) (joiners : List MemberId) : Prop where
  gathered : Gathered g joiners
  told : Told g joined
  past : ∀ a ∈ joined, a.errorCode = 0 → a.generationId ≤ g.generationId
  nonneg : 0 ≤ g.generationId

def Room.Rounds (r : Room) : Prop := RoundInv r.group r.joined r.joiners

section rounds
variable {r : Room} {g g' : ClassicGroup} {joined more : List JoinResult} {joiners joiners' removed : List MemberId}
variable {id : MemberId}

lemma firstJoin_append {generationId : ℤ} {ids : Finset MemberId}
    (h : (firstJoin joined generationId id).map listed = some ids) (more : List JoinResult) :
    (firstJoin (joined ++ more) generationId id).map listed = some ids := by
  obtain ⟨answer, hanswer, hlisted⟩ := Option.map_eq_some_iff.mp h
  unfold firstJoin at hanswer ⊢
  rw [List.find?_append, hanswer, Option.some_or, Option.map_some, hlisted]

lemma RoundInv.kept (h : RoundInv g joined joiners) (hgen : g'.generationId = g.generationId) (hstill : Still g g')
    (hgathered : Gathered g' joiners')
    (hmore : ∀ a ∈ more, a.errorCode = 0 → a.generationId = g'.generationId) :
    RoundInv g' (joined ++ more) joiners' where
  gathered := hgathered
  told hstate id hid := by
    obtain ⟨hold, hleader, hmembers⟩ := hstill hstate
    rw [hgen, hmembers]
    exact firstJoin_append (h.told hold id (hleader ▸ hid)) more
  past a ha hzero := by
    rcases mem_append.mp ha with ha | ha
    · exact hgen ▸ h.past a ha hzero
    · exact (hmore a ha hzero).le
  nonneg := hgen ▸ h.nonneg

lemma RoundInv.parked (h : RoundInv g joined joiners) (hgen : g'.generationId = g.generationId) (hstill : Still g g')
    (hgathered : Gathered g' joiners') : RoundInv g' joined joiners' :=
  append_nil joined ▸ RoundInv.kept h hgen hstill hgathered fun _ ha => absurd ha not_mem_nil

/-- The leader's answer is the first one of the new generation to it, and it lists the members. -/
lemma told_completeRebalance (h : RoundInv g joined joiners) (hgen : g'.generationId = g.generationId + 1)
    (hnamed : ∀ (id : MemberId) m, g'.members[id]? = some m → m.id = id)
    (hleader : ∀ id, g'.leaderId = some id → id ∈ joiners) :
    Told g' (joined ++ joiners.map (buildJoinResult g')) := by
  intro _ id hid
  have hold : firstJoin joined g'.generationId id = none := by
    refine find?_eq_none.mpr fun a ha hmatch => ?_
    simp only [decide_eq_true_eq] at hmatch
    have := h.past a ha hmatch.1
    omega
  have hanswer : firstJoin (joiners.map (buildJoinResult g')) g'.generationId id = some (buildJoinResult g' id) := by
    obtain ⟨a, ha⟩ : ∃ a, firstJoin (joiners.map (buildJoinResult g')) g'.generationId id = some a := by
      rw [← Option.isSome_iff_exists, firstJoin, find?_isSome]
      exact ⟨_, mem_map_of_mem (hleader id hid), by simp [buildJoinResult]⟩
    obtain ⟨id', -, rfl⟩ := mem_map.mp (mem_of_find?_eq_some ha)
    have hmatch := find?_some ha
    simp only [decide_eq_true_eq] at hmatch
    rw [ha, show id' = id from hmatch.2.2]
  rw [firstJoin, List.find?_append, ← firstJoin, hold, Option.none_or, ← firstJoin, hanswer, Option.map_some,
    Option.some.injEq]
  ext id'
  simp only [listed, buildJoinResult, hid, if_true, mem_toFinset, map_map, mem_map, Function.comp_apply, memberIds,
    ExtTreeMap.mem_keys, ExtTreeMap.mem_iff_isSome_getElem?, Option.isSome_iff_exists]
  constructor
  · rintro ⟨e, he, rfl⟩
    have hget := (mem_toList _).mp (show (e.1, e.2) ∈ g'.members.toList from he)
    exact ⟨e.2, hnamed _ _ hget ▸ hget⟩
  · rintro ⟨m, hm⟩
    exact ⟨(id', m), (mem_toList _).mpr hm, hnamed _ _ hm⟩

/-- A round is completed while the join of the next leader is parked. -/
lemma Room.Rounds.complete (h : r.Rounds) (hlt : r.group.generationId + 1 < 2 ^ 31)
    (hleader : r.group.state = .preparingRebalance → ∀ id ∈ r.group.members.keys.head?, id ∈ r.joiners) :
    r.completeClassicRebalance.Rounds := by
  unfold Room.completeClassicRebalance
  split
  · rename_i hnone
    have hstate := state_of_tryComplete_none hnone
    refine RoundInv.kept h rfl (.refl _) ⟨fun _ _ hid => absurd hid (Finset.notMem_empty _), fun _ => rfl,
      h.gathered.named⟩ fun a ha hzero => ?_
    obtain ⟨id, -, rfl⟩ := mem_map.mp ha
    cases hzero
  · rename_i g hsome
    rcases tryComplete_eq_some hsome with ⟨rfl, hempty⟩ | ⟨hstate, chosen, rfl⟩
    · refine RoundInv.kept h rfl (.refl _) ⟨fun hstate id _ hin => ?_, h.gathered.settled, h.gathered.named⟩
        fun a ha _ => ?_
      · rw [ExtTreeMap.isEmpty_iff.mp (hempty hstate), ExtTreeMap.contains_empty] at hin
        cases hin
      · obtain ⟨id, -, rfl⟩ := mem_map.mp ha
        rfl
    · set g := (r.group.resolveSelectedProtocolMetadata chosen).completeRebalance chosen with hg
      have hgen : g.generationId = r.group.generationId + 1 := wrapI32_succ h.nonneg hlt
      have hnamed : ∀ (id : MemberId) m, g.members[id]? = some m → m.id = id := by
        intro id m hm
        simp only [hg, completeRebalance, resolveSelectedProtocolMetadata, ExtTreeMap.getElem?_map] at hm
        obtain ⟨m', hm', rfl⟩ := Option.map_eq_some_iff.mp hm
        have := h.gathered.named id m' hm'
        split <;> exact this
      refine ⟨⟨nofun, fun _ => rfl, hnamed⟩, told_completeRebalance h hgen hnamed fun id hid => ?_, fun a ha hzero => ?_,
        ?_⟩
      · refine hleader hstate id ?_
        simpa [hg, completeRebalance, resolveSelectedProtocolMetadata, ExtTreeMap.keys_map] using hid
      · rcases mem_append.mp ha with ha | ha
        · have := h.past a ha hzero
          dsimp only
          omega
        · obtain ⟨id, -, rfl⟩ := mem_map.mp ha
          exact le_rfl
      · have := h.nonneg
        dsimp only
        omega

/-- Once all members have joined, the join of the next leader is parked. -/
lemma Room.Rounds.complete_of_all (h : r.Rounds) (hlt : r.group.generationId + 1 < 2 ^ 31)
    (hall : r.group.allMembersJoinedThisRound = true) : r.completeClassicRebalance.Rounds := by
  refine h.complete hlt fun hstate id hid => ?_
  have hmem := mem_of_mem_head? hid
  simp only [allMembersJoinedThisRound, Bool.and_eq_true, all_eq_true, decide_eq_true_eq] at hall
  exact h.gathered.parked hstate id (hall.2 id hmem) (by simpa using hmem)

lemma Room.Rounds.maybeComplete (h : r.Rounds)
    (hlt : r.group.state = .preparingRebalance → r.group.generationId + 1 < 2 ^ 31) :
    r.maybeCompleteClassic.Rounds := by
  unfold Room.maybeCompleteClassic
  split
  · rename_i hcond
    exact h.complete_of_all (hlt hcond.2.1) hcond.2.2
  · exact h

lemma Room.Rounds.afterRemoval (h : r.Rounds) (hlt : r.group.generationId + 1 < 2 ^ 31) (hk : Kept r.group g)
    (hs : Shrunk r.group g) (hstill : Still r.group g)
    (hremoved : ∀ id ∈ removed, g.members.contains id = false)
    (hreset : removed ≠ [] → g.members.isEmpty → g.state = .empty ∧ g.leaderId = none) (writeOk : Bool) :
    (r.afterRemoval g removed writeOk).Rounds := by
  have hgathered : Gathered g (r.joiners.filter (· ∉ removed)) := h.gathered.shrunk hs hk fun id hid hin => by
    refine mem_filter.mpr ⟨hid, ?_⟩
    simp only [decide_eq_true_eq]
    intro hmem
    rw [hremoved id hmem] at hin
    cases hin
  have hdrained : RoundInv g (r.joined ++ (r.joiners.filter (· ∈ removed)).map fun id =>
      { errorCode := codeUnknownMemberId, memberId := id }) (r.joiners.filter (· ∉ removed)) := by
    refine RoundInv.kept h hk.generation hstill hgathered fun a ha hzero => ?_
    obtain ⟨id, -, rfl⟩ := mem_map.mp ha
    cases hzero
  unfold Room.afterRemoval
  split
  · rename_i hgone
    obtain ⟨hstate, -⟩ := hreset hgone.1 hgone.2
    split
    · have hgen : wrapI32 (g.generationId + 1) = g.generationId + 1 :=
        wrapI32_succ hdrained.nonneg (hk.generation ▸ hlt)
      refine Room.Rounds.maybeComplete ⟨⟨hgathered.parked, hgathered.settled, hgathered.named⟩, ?_, ?_, ?_⟩ ?_
      · intro hc
        rw [show g.state = .completingRebalance from hc] at hstate
        cases hstate
      · intro a ha hzero
        have := hdrained.past a ha hzero
        show a.generationId ≤ wrapI32 (g.generationId + 1)
        omega
      · show 0 ≤ wrapI32 (g.generationId + 1)
        have := hdrained.nonneg
        omega
      · intro hp
        rw [show g.state = .preparingRebalance from hp] at hstate
        cases hstate
    · exact h
  · exact Room.Rounds.maybeComplete hdrained fun _ => hk.generation ▸ hlt

lemma Room.Rounds.heartbeat (h : r.Rounds) (req : HeartbeatRequest) (now : ℕ) :
    Room.Rounds { r with group := (handleHeartbeat r.group req now).1 } := by
  unfold handleHeartbeat
  split
  · exact h
  split
  · exact h
  split
  · exact h
  split
  · exact h
  · rename_i hstate
    have hstable : r.group.state = .stable := not_not.mp hstate
    refine ⟨⟨fun hp => ?_, h.gathered.settled, fun id m hm => ?_⟩, fun hc => ?_, h.past, h.nonneg⟩
    · rw [show r.group.state = .preparingRebalance from hp] at hstable
      cases hstable
    · rw [getElem?_modify] at hm
      split_ifs at hm with hid
      · obtain ⟨m', hm', rfl⟩ := Option.map_eq_some_iff.mp hm
        exact h.gathered.named id m' (hid ▸ hm')
      · exact h.gathered.named id m hm
    · rw [show r.group.state = .completingRebalance from hc] at hstable
      cases hstable

lemma Room.Rounds.onJoin (h : r.Rounds) (hidx : Indexed r.group) (hlt : r.group.generationId + 1 < 2 ^ 31) (delay : ℕ)
    (req : JoinGroupRequest) (version : ℤ) (clientId clientHost uuid : String) (now : ℕ) (writeOk : Bool) :
    (r.onJoin delay req version clientId clientHost uuid now writeOk).Rounds := by
  have hk := Kept.handleJoin hidx req clientId clientHost (decide (version ≥ 4)) delay now uuid
  obtain ⟨hpark, hstill, hnow, hall⟩ :=
    gathered_handleJoin h.gathered hidx req clientId clientHost (decide (version ≥ 4)) delay now uuid
  unfold Room.onJoin
  split
  · rename_i g result heq
    rw [heq] at hk hstill hnow
    obtain ⟨hgathered, hgen⟩ := hnow result rfl
    split
    · refine RoundInv.kept h rfl (.refl _) h.gathered fun a ha hzero => ?_
      rw [mem_singleton.mp ha] at hzero
      cases hzero
    · refine RoundInv.kept h hk.generation hstill hgathered fun a ha hzero => ?_
      rw [mem_singleton.mp ha] at hzero ⊢
      exact hgen hzero
  · rename_i g heq
    rw [heq] at hk hstill hpark
    exact RoundInv.parked h hk.generation hstill hpark
  · rename_i g heq
    rw [heq] at hk hstill hpark hall
    exact Room.Rounds.complete_of_all (RoundInv.parked h hk.generation hstill hpark) (hk.generation ▸ hlt) (hall rfl)

lemma Room.Rounds.onSync (h : r.Rounds) {req : SyncGroupRequest} {writeOk : Bool}
    (hok : installs r.group req → writeOk → r.group.state = .completingRebalance) :
    (r.onSync req writeOk).Rounds := by
  unfold Room.onSync
  split
  · exact h
  · exact h
  · rename_i g result heq
    split
    · rename_i hwrite
      have hstate := hok (by unfold installs; rw [heq]) hwrite
      obtain rfl := installed_of_handleSync heq
      refine ⟨⟨fun hst => (by cases hst), fun _ => h.gathered.settled (.inl hstate), fun id m hm => ?_⟩,
        fun hst => (by cases hst), h.past, h.nonneg⟩
      simp only [installAssignments, ExtTreeMap.getElem?_map] at hm
      obtain ⟨m', hm', rfl⟩ := Option.map_eq_some_iff.mp hm
      exact h.gathered.named id m' hm'
    · exact h

/-- **Every step keeps the rounds together**, where a leader's list, a removal and a deadline are in their place. -/
theorem Room.Rounds.step (h : r.Rounds) (hidx : Indexed r.group) (delay : ℕ) {e : Event} (hok : LeaderInRound r e) :
    ((room delay).next r e).Rounds := by
  obtain ⟨hlt, hok⟩ := hok
  cases e with
  | join req version clientId clientHost uuid now writeOk => exact h.onJoin hidx hlt ..
  | sync req writeOk => exact h.onSync hok
  | heartbeat req now => exact h.heartbeat req now
  | leave req version now writeOk =>
    have hk := Kept.handleLeave hidx req version now
    refine h.afterRemoval hlt hk (.handleLeave _ req version now) (fun hstate => ?_) (fun id hid => ?_)
      (reset_of_handleLeave req version now) writeOk
    · have hold := hk.completing hstate
      rw [handleLeave_of_refused (hok hold) (by rw [hold]; nofun)]
      exact ⟨hold, rfl, rfl⟩
    · simpa using (mem_filter.mp hid).2
  | tick now writeOk =>
    show (r.onTick delay now writeOk).Rounds
    unfold Room.onTick
    dsimp only
    split
    · exact h
    · rename_i hdead
      have hk := Kept.expireDeadMembers hidx now delay
      refine h.afterRemoval hlt hk (.expireDeadMembers _ now delay) (fun hstate => ?_) (fun id hid => ?_)
        (fun _ => reset_of_expireDeadMembers hdead) writeOk
      · exact absurd (hok (hk.completing hstate)) hdead
      · exact contains_expireDeadMembers_of_dead hid
  | deadline now => exact h.complete hlt hok

end rounds

end Crabka.Broker.Group.Classic
