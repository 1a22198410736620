import Crabka.Found.Maps
import Crabka.Kraft.Core.Types

/-!
# The state of a next-gen consumer group

Members heartbeat with their epoch and the partitions they own; the group recomputes its target when it is dirty and
grants the target partitions that nobody else still holds. The order in which a hash map is iterated is a parameter
where it can matter (`Surroundings.order`). What is written to the offsets log is not modelled here.
-/

namespace Crabka.Broker.Group
open Std (ExtTreeMap)
open Found
open Kraft (Uuid)

/-! ## Partitions by topic -/

abbrev MemberId := String

abbrev TopicPartition := Uuid × ℤ

/-- `HashMap<Uuid, Vec<i32>>`. -/
abbrev TopicPartitions := ExtTreeMap Uuid (List ℤ)

abbrev Lists (m : TopicPartitions) (tp : TopicPartition) : Prop := tp.2 ∈ m[tp.1]?.getD []

/-- The listed partitions that pass a test, pushed with `entry(tid).or_default().push(p)`. -/
def keepPartitions (test : Uuid → ℤ → Bool) (m : TopicPartitions) : TopicPartitions :=
  m.filterMap fun tid parts =>
    let kept := parts.filter (test tid)
    if kept = [] then none else some kept

/-- `sort_unstable` on every list. -/
def sortPartitions (m : TopicPartitions) : TopicPartitions :=
  m.map fun _ parts => parts.insertionSort (· ≤ ·)

/-! ## Assignors -/

structure MemberSubscription where
  memberId : MemberId
  rackId : Option String
  subscribedTopicIds : List Uuid

structure TopicMetadata where
  partitionsPerTopic : ExtTreeMap Uuid ℤ
  partitionRacks : ExtTreeMap (Uuid × ℤ) (List String)

abbrev Assignment := ExtTreeMap MemberId TopicPartitions

structure Assignor where
  name : String
  assign : List MemberSubscription → TopicMetadata → Assignment

def subscribersOf (members : List MemberSubscription) (topicId : Uuid) : List MemberId :=
  ((members.filter fun m => topicId ∈ m.subscribedTopicIds).map (·.memberId)).insertionSort (· ≤ ·)

def noPartitions (members : List MemberSubscription) : Assignment :=
  members.foldl (fun out m => out.insert m.memberId ∅) ∅

def assignRanges (topicId : Uuid) (perMember remainder : ℤ) :
    List MemberId → ℕ → ℤ → Assignment → Assignment
  | [], _, _, out => out
  | sub :: subs, i, cursor, out =>
    let take := perMember + if (i : ℤ) < remainder then 1 else 0
    if take = 0 then assignRanges topicId perMember remainder subs (i + 1) cursor out
    else
      let range := (List.range take.toNat).map fun k : ℕ => cursor + k
      assignRanges topicId perMember remainder subs (i + 1) (cursor + take)
        (out.modify sub (·.insert topicId range))

def RangeAssignor : Assignor where
  name := "range"
  assign members topics :=
    topics.partitionsPerTopic.toList.foldl (fun out (topicId, partitionCount) =>
      let subscribers := subscribersOf members topicId
      if subscribers = [] then out
      else
        let n : ℤ := subscribers.length
        assignRanges topicId (partitionCount.tdiv n) (partitionCount.tmod n) subscribers 0 0 out)
      (noPartitions members)

/-- `eligible_subscribers_for_partition`: those on a rack of the partition, all when there is none. -/
def eligibleSubscribersForPartition (subscribers : List MemberId)
    (rackByMember : MemberId → Option String) (partitionRacks : Option (List String)) :
    List MemberId :=
  match partitionRacks.filter (· ≠ []) with
  | none => subscribers
  | some racks =>
    let preferred := subscribers.filter fun sid => (rackByMember sid).any (· ∈ racks)
    if preferred = [] then subscribers else preferred

/-- `min_by_key(|sid| (count_by_member[sid], sid))`. -/
def leastLoaded (count : MemberId → ℕ) : List MemberId → Option MemberId
  | [] => none
  | sid :: rest =>
    match leastLoaded count rest with
    | none => some sid
    | some best =>
      if count best < count sid ∨ (count best = count sid ∧ best < sid) then some best
      else some sid

/-- The partitions of one topic, each to the eligible subscriber with the fewest so far. -/
def assignUniform (topicId : Uuid) (eligible : ℤ → List MemberId) :
    List ℤ → (MemberId → ℕ) → Assignment → Assignment
  | [], _, out => out
  | p :: ps, count, out =>
    match leastLoaded count (eligible p) with
    | none => assignUniform topicId eligible ps count out
    | some chosen =>
      assignUniform topicId eligible ps
        (fun sid => if sid = chosen then count sid + 1 else count sid)
        (out.modify chosen fun m => upsert m topicId [] (· ++ [p]))

def UniformAssignor : Assignor where
  name := "uniform"
  assign members topics :=
    let rackByMember (sid : MemberId) : Option String :=
      (members.reverse.find? (·.memberId = sid)).bind (·.rackId)
    topics.partitionsPerTopic.toList.foldl (fun out (topicId, partitionCount) =>
      let subscribers := subscribersOf members topicId
      if subscribers = [] then out
      else
        assignUniform topicId
          (fun p => eligibleSubscribersForPartition subscribers rackByMember topics.partitionRacks[(topicId, p)]?)
          ((List.range partitionCount.toNat).map fun k : ℕ => (k : ℤ)) (fun _ => 0) out)
      (noPartitions members)

/-! ## Members and groups -/

inductive MemberAssignmentState where
  | stable
  | unreleasedPartitions
  | unrevokedPartitions
  deriving DecidableEq

/-- `Regex::new(pattern)`, when there is a pattern. -/
inductive CompiledRegex where
  | absent
  | invalid
  | valid (isMatch : String → Bool)

def CompiledRegex.isMatch : CompiledRegex → String → Bool
  | valid isMatch, name => isMatch name
  | absent, _ | invalid, _ => false

abbrev ConsumerProtocolAssignment := List (String × List ℤ)

/-- What a classic member of an upgraded group keeps of its protocol. Encoded assignments are the values
that they encode. -/
structure ClassicMemberFacade where
  generationId : ℤ
  supportedProtocols : List (String × List UInt8)
  sessionTimeout : ℕ
  lastSyncedAssignment : ConsumerProtocolAssignment
  awaitingSync : Bool

/-- A member of a KIP-848 group. -/
structure MemberState where
  memberId : MemberId
  instanceId : Option String
  rackId : Option String
  clientId : String
  clientHost : String
  subscribedTopicNames : Finset String
  subscribedTopicRegex : Option String
  compiledRegex : CompiledRegex
  serverAssignor : Option String
  rebalanceTimeout : ℕ
  memberEpoch : ℤ
  previousMemberEpoch : ℤ
  assignmentState : MemberAssignmentState
  assignedPartitions : TopicPartitions
  partitionsPendingRevocation : TopicPartitions
  lastSeen : ℕ
  classic : Option ClassicMemberFacade

/-- The assignment that members are moved to, and its epoch. -/
structure TargetAssignment where
  epoch : ℤ := 0
  perMember : Assignment := ∅

/-- A KIP-848 group with its members and its target. -/
structure GroupState where
  groupId : String
  groupEpoch : ℤ := 0
  members : ExtTreeMap MemberId MemberState := ∅
  instanceToMember : ExtTreeMap String MemberId := ∅
  target : TargetAssignment := {}
  dirty : Bool := false

structure ReconcileInput where
  topicIdByName : ExtTreeMap String Uuid
  partitionsPerTopic : ExtTreeMap Uuid ℤ
  partitionRacks : ExtTreeMap (Uuid × ℤ) (List String)

/-- The part of `NextGenConfig` that a group reads. -/
structure NextGenConfig where
  sessionTimeout : ℕ
  heartbeatIntervalMs : ℤ
  assignors : List Assignor
  maxSize : ℕ

/-- What a call reads from outside the group; `order` is the iteration order of the hash map of members. -/
structure Surroundings where
  regexNew : String → Option (String → Bool)
  snapshot : ReconcileInput
  order : MemberId → ℕ
  newId : MemberId
  now : ℕ

def MemberState.setRegex (regexNew : String → Option (String → Bool)) (m : MemberState)
    (pattern : Option String) : MemberState :=
  { m with
    compiledRegex :=
      match pattern with
      | none => .absent
      | some pat => match regexNew pat with
        | some isMatch => .valid isMatch
        | none => .invalid
    subscribedTopicRegex := pattern }

def GroupState.values (g : GroupState) (order : MemberId → ℕ) : List MemberState :=
  (g.members.toList.insertionSort fun a b => order a.1 ≤ order b.1).map (·.2)

namespace GroupState

def new (groupId : String) : GroupState := { groupId }

def addOrUpdateMember (regexNew : String → Option (String → Bool)) (g : GroupState)
    (m : MemberState) : GroupState :=
  let m := m.setRegex regexNew m.subscribedTopicRegex
  let subscriptionChanged :=
    match g.members[m.memberId]? with
    | none => true
    | some prev => prev.subscribedTopicNames ≠ m.subscribedTopicNames ∨
        prev.subscribedTopicRegex ≠ m.subscribedTopicRegex
  { g with
    instanceToMember :=
      match m.instanceId with
      | some iid => g.instanceToMember.insert iid m.memberId
      | none => g.instanceToMember
    members := g.members.insert m.memberId m
    dirty := g.dirty || subscriptionChanged }

/-- `remove_member`, for a member that may not be there. -/
def removeMember (g : GroupState) (memberId : MemberId) : GroupState :=
  match g.members[memberId]? with
  | none => g
  | some m =>
    { g with
      members := g.members.erase memberId
      instanceToMember :=
        match m.instanceId with
        | some iid =>
          if g.instanceToMember[iid]? = some memberId then g.instanceToMember.erase iid
          else g.instanceToMember
        | none => g.instanceToMember
      dirty := true }

def expiredMemberIds (g : GroupState) (now sessionTimeout : ℕ) : List MemberId :=
  (g.members.toList.filter fun e => now - e.2.lastSeen > sessionTimeout).map (·.1)

def evictExpired (g : GroupState) (now sessionTimeout : ℕ) : GroupState :=
  (g.expiredMemberIds now sessionTimeout).foldl removeMember g

end GroupState

/-- `compute_revoke_split`: what a target no longer has, and what it keeps. -/
def computeRevokeSplit (current target : TopicPartitions) : TopicPartitions × TopicPartitions :=
  (keepPartitions (fun tid p => p ∉ target[tid]?.getD []) current,
    keepPartitions (fun tid p => p ∈ target[tid]?.getD []) current)

def assignmentCovers (assigned target : TopicPartitions) : Bool :=
  target.toList.all fun e => e.2.all fun p => p ∈ assigned[e.1]?.getD []

/-- `assigned_partitions` with the entries of `partitions_pending_revocation` appended. -/
def MemberState.holdings (m : MemberState) : TopicPartitions :=
  m.partitionsPendingRevocation.toList.foldl (fun held e => upsert held e.1 [] (· ++ e.2)) m.assignedPartitions

/-- The body of the loop in `install_target`. -/
def MemberState.installTarget (m : MemberState) (target : TopicPartitions) : MemberState :=
  let (revoke, assigned) := computeRevokeSplit m.holdings target
  { m with
    partitionsPendingRevocation := revoke
    assignedPartitions := assigned
    assignmentState :=
      if ¬ revoke.isEmpty then .unrevokedPartitions
      else if assignmentCovers assigned target then .stable
      else .unreleasedPartitions }

namespace GroupState

def installTarget (g : GroupState) (perMember : Assignment) : GroupState :=
  { g with
    target := ⟨g.groupEpoch, perMember⟩
    members := g.members.map fun mid m => m.installTarget (perMember[mid]?.getD ∅) }

def bumpEpoch (g : GroupState) : GroupState :=
  { g with groupEpoch := g.groupEpoch + 1, dirty := true }

def advanceMemberEpoch (g : GroupState) (memberId : MemberId) : GroupState :=
  { g with
    members := g.members.modify memberId fun m =>
      { m with previousMemberEpoch := m.memberEpoch, memberEpoch := g.groupEpoch } }

/-- The partition is assigned to another member or pending there. -/
def heldByOthers (g : GroupState) (memberId : MemberId) (tp : TopicPartition) : Bool :=
  g.members.toList.any fun e =>
    e.1 ≠ memberId ∧ (Lists e.2.assignedPartitions tp ∨ Lists e.2.partitionsPendingRevocation tp)

/-- `reconcile_member`; the flag says whether the assignment or the pending set changed. -/
def reconcileMember (g : GroupState) (memberId : MemberId) (reportedOwned : TopicPartitions) :
    GroupState × Bool :=
  let target := g.target.perMember[memberId]?.getD ∅
  let granted (tid : Uuid) (p : ℤ) : Bool :=
    Lists reportedOwned (tid, p) ∨ ¬ g.heldByOthers memberId (tid, p)
  let newAssigned := sortPartitions (keepPartitions granted target)
  let fullyAssigned := target.toList.all fun e => e.2.all (granted e.1)
  let newPending := sortPartitions
    (keepPartitions (fun tid p => p ∉ target[tid]?.getD []) reportedOwned)
  match g.members[memberId]? with
  | none => (g, false)
  | some m =>
    let m' := { m with
      assignedPartitions := newAssigned
      partitionsPendingRevocation := newPending
      assignmentState :=
        if ¬ newPending.isEmpty then .unrevokedPartitions
        else if fullyAssigned then .stable
        else .unreleasedPartitions }
    ({ g with members := g.members.insert memberId m' },
      m.assignedPartitions.toList ≠ newAssigned.toList ∨ m.partitionsPendingRevocation.toList ≠ newPending.toList)

end GroupState

/-! ## The reconciler -/

/-- `resolve_subscribed_topic_ids`: by name or by pattern. -/
def resolveSubscribedTopicIds (m : MemberState) (topicIdByName : ExtTreeMap String Uuid) : List Uuid :=
  (topicIdByName.toList.filter fun e =>
    decide (e.1 ∈ m.subscribedTopicNames) || m.compiledRegex.isMatch e.1).map (·.2)

def reconcileIfDirty (g : GroupState) (iteration : List MemberState) (input : ReconcileInput)
    (assignor : Assignor) : GroupState :=
  if ¬ g.dirty then g
  else
    let subscriptions := iteration.map fun m =>
      { memberId := m.memberId, rackId := m.rackId,
        subscribedTopicIds := resolveSubscribedTopicIds m input.topicIdByName : MemberSubscription }
    let assignment := assignor.assign subscriptions ⟨input.partitionsPerTopic, input.partitionRacks⟩
    { g.bumpEpoch.installTarget assignment with dirty := false }

def NextGenConfig.findAssignor (config : NextGenConfig) (name : String) : Option Assignor :=
  config.assignors.find? (·.name = name)

def NextGenConfig.assignorEnabled (config : NextGenConfig) (name : String) : Bool :=
  (config.findAssignor name).isSome

/-- `pick_assignor`: the first member of the iteration that names a registered assignor decides. -/
def pickAssignor (iteration : List MemberState) (config : NextGenConfig) : Option Assignor :=
  (iteration.findSome? fun m => m.serverAssignor.bind config.findAssignor).or config.assignors.head?

/-- `run_reconcile`. A configuration without assignors panics in the source; the group stays as it is
here. -/
def runReconcile (env : Surroundings) (config : NextGenConfig) (g : GroupState) : GroupState :=
  let iteration := g.values env.order
  match pickAssignor iteration config with
  | none => g
  | some assignor => reconcileIfDirty g iteration env.snapshot assignor

/-! ## Heartbeats -/

structure HeartbeatRequest where
  memberId : MemberId
  memberEpoch : ℤ
  instanceId : Option String := none
  rackId : Option String := none
  rebalanceTimeoutMs : ℤ := 60000
  subscribedTopicNames : Option (List String) := none
  subscribedTopicRegex : Option String := none
  serverAssignor : Option String := none
  topicPartitions : Option (List (Uuid × List ℤ)) := none

structure ClientIdentity where
  id : String
  host : String

structure HeartbeatResponse where
  errorCode : ℤ
  memberId : Option MemberId := none
  memberEpoch : ℤ
  heartbeatIntervalMs : ℤ
  assignment : Option TopicPartitions := none

/-- The Kafka error codes of the consumer group protocol. -/
def codeUnknownMemberId : ℤ := 25
def codeRebalanceInProgress : ℤ := 27
def codeGroupMaxSizeReached : ℤ := 81
def codeFencedMemberEpoch : ℤ := 110
def codeUnreleasedInstanceId : ℤ := 111
def codeUnsupportedAssignor : ℤ := 112
def codeStaleMemberEpoch : ℤ := 113

def baseResp (errorCode memberEpoch : ℤ) (config : NextGenConfig) : HeartbeatResponse :=
  { errorCode, memberEpoch, heartbeatIntervalMs := config.heartbeatIntervalMs }

def errorResp (errorCode : ℤ) (config : NextGenConfig) : HeartbeatResponse :=
  baseResp errorCode 0 config

def firstJoinMemberId (env : Surroundings) (requested : MemberId) : MemberId :=
  if requested = "" then env.newId else requested

def validateMemberEpoch (current : Option ℤ) (requested : ℤ) : Except ℤ ℤ :=
  match current with
  | none => .error codeUnknownMemberId
  | some epoch =>
    if requested < epoch then .error codeStaleMemberEpoch
    else if requested > epoch then .error codeFencedMemberEpoch
    else .ok epoch

/-- `reported_owned`: a topic that is listed twice counts as listed the last time. -/
def reportedOwned (req : HeartbeatRequest) : TopicPartitions :=
  rebuild ∅ (req.topicPartitions.getD [])

def buildMember (memberId : MemberId) (req : HeartbeatRequest) (client : ClientIdentity) (now : ℕ) :
    MemberState where
  memberId := memberId
  instanceId := req.instanceId
  rackId := req.rackId
  clientId := client.id
  clientHost := client.host
  subscribedTopicNames := (req.subscribedTopicNames.getD []).toFinset
  subscribedTopicRegex := req.subscribedTopicRegex
  compiledRegex := .absent
  serverAssignor := req.serverAssignor
  rebalanceTimeout := req.rebalanceTimeoutMs.toNat
  memberEpoch := 0
  previousMemberEpoch := 0
  assignmentState := .stable
  assignedPartitions := ∅
  partitionsPendingRevocation := ∅
  lastSeen := now
  classic := none

/-- `build_assignment_resp`: the current assignment of a member of the group. -/
def buildAssignmentResp (g : GroupState) (memberId : MemberId) (config : NextGenConfig) :
    HeartbeatResponse :=
  match g.members[memberId]? with
  | none => errorResp codeUnknownMemberId config
  | some m =>
    { errorCode := 0, memberId := some memberId, memberEpoch := m.memberEpoch,
      heartbeatIntervalMs := config.heartbeatIntervalMs, assignment := some m.assignedPartitions }

/-- The first part of `update_member_state`: the fields that the request refreshes. -/
def refreshMember (env : Surroundings) (req : HeartbeatRequest) (client : ClientIdentity)
    (g : GroupState) : GroupState :=
  match g.members[req.memberId]? with
  | none => g
  | some m =>
    let names := (req.subscribedTopicNames.map List.toFinset).getD m.subscribedTopicNames
    let m₁ := { m with
      lastSeen := env.now, clientId := client.id, clientHost := client.host
      subscribedTopicNames := names }
    let m₂ :=
      if req.subscribedTopicRegex ≠ m.subscribedTopicRegex then
        m₁.setRegex env.regexNew req.subscribedTopicRegex
      else m₁
    { g with
      members := g.members.insert req.memberId m₂
      dirty := g.dirty || decide (names ≠ m.subscribedTopicNames) ||
        decide (req.subscribedTopicRegex ≠ m.subscribedTopicRegex) }

/-- The group of `update_member_state` once the target is recomputed. -/
def recomputed (env : Surroundings) (config : NextGenConfig) (req : HeartbeatRequest)
    (client : ClientIdentity) (curEpoch : ℤ) (g : GroupState) : GroupState :=
  let g := runReconcile env config (refreshMember env req client g)
  if g.target.epoch > curEpoch then g.advanceMemberEpoch req.memberId else g

/-- What `update_member_state` takes as owned: the report, and without one the current assignment. -/
def ownedOf (req : HeartbeatRequest) (g : GroupState) : TopicPartitions :=
  if req.topicPartitions.isSome then reportedOwned req
  else (g.members[req.memberId]?.map (·.assignedPartitions)).getD ∅

def updateMemberState (env : Surroundings) (config : NextGenConfig) (req : HeartbeatRequest)
    (client : ClientIdentity) (curEpoch : ℤ) (g : GroupState) : GroupState :=
  let g := recomputed env config req client curEpoch g
  (g.reconcileMember req.memberId (ownedOf req g)).1

def leaveStep (env : Surroundings) (config : NextGenConfig) (req : HeartbeatRequest)
    (g : GroupState) : GroupState × HeartbeatResponse :=
  (if g.members.contains req.memberId then runReconcile env config (g.removeMember req.memberId) else g,
    baseResp 0 req.memberEpoch config)

def stepHeartbeat (env : Surroundings) (config : NextGenConfig) (req : HeartbeatRequest)
    (client : ClientIdentity) (g : GroupState) : GroupState × HeartbeatResponse :=
  if req.memberEpoch = -1 then leaveStep env config req g
  else if req.serverAssignor.any fun name => !config.assignorEnabled name then
    (g, errorResp codeUnsupportedAssignor config)
  else if req.memberEpoch = 0 ∧ ¬ g.members.contains req.memberId then
    let newMemberId := firstJoinMemberId env req.memberId
    if ((req.instanceId.bind (g.instanceToMember[·]?)).bind (g.members[·]?)).any
        (·.memberEpoch ≠ 0) then
      (g, errorResp codeUnreleasedInstanceId config)
    else if g.members.size ≥ config.maxSize then (g, errorResp codeGroupMaxSizeReached config)
    else
      let g := g.addOrUpdateMember env.regexNew (buildMember newMemberId req client env.now)
      let g := (runReconcile env config g).advanceMemberEpoch newMemberId
      let g := (g.reconcileMember newMemberId (reportedOwned req)).1
      (g, buildAssignmentResp g newMemberId config)
  else
    match validateMemberEpoch (g.members[req.memberId]?.map (·.memberEpoch)) req.memberEpoch with
    | .error code => (g, errorResp code config)
    | .ok curEpoch =>
      let g := updateMemberState env config req client curEpoch g
      (g, buildAssignmentResp g req.memberId config)

/-- `handle_session_tick`: the expired members go, and the target is recomputed. -/
def handleSessionTick (env : Surroundings) (config : NextGenConfig) (g : GroupState) : GroupState :=
  if g.expiredMemberIds env.now config.sessionTimeout = [] then g
  else runReconcile env config (g.evictExpired env.now config.sessionTimeout)

end Crabka.Broker.Group
