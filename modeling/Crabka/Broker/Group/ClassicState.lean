import Crabka.Found.Maps

/-!
# The state of a classic consumer group

Members join a round, the round completes with a new generation and a leader, and the leader's list makes the group
stable. Instants and durations are milliseconds; the ids that the broker makes up are arguments.
-/

namespace Crabka.Broker.Group.Classic
open Std (ExtTreeMap)
open Found

abbrev MemberId := String

abbrev Bytes := List UInt8

inductive GroupState where
  | empty
  | preparingRebalance
  | completingRebalance
  | stable
  deriving DecidableEq

/-- A member with the protocols that it proposes. -/
structure Member where
  id : MemberId
  groupInstanceId : Option String
  clientId : String
  host : String
  sessionTimeout : ℕ
  rebalanceTimeout : ℕ
  lastHeartbeat : ℕ
  protocolMetadata : Bytes
  protocols : List (String × Bytes)
  assignment : Option Bytes

/-- `Member::new(..).with_instance_id(..)`. -/
def Member.new (memberId : MemberId) (clientId host : String) (sessionTimeout rebalanceTimeout : ℕ)
    (protocols : List (String × Bytes)) (groupInstanceId : Option String) (now : ℕ) : Member where
  id := memberId
  groupInstanceId := groupInstanceId
  clientId := clientId
  host := host
  sessionTimeout := sessionTimeout
  rebalanceTimeout := rebalanceTimeout
  lastHeartbeat := now
  protocolMetadata := (protocols.head?.map (·.2)).getD []
  protocols := protocols
  assignment := none

def Member.isStatic (m : Member) : Bool := m.groupInstanceId.isSome

/-- `ClassicGroup`, without the offsets. -/
structure ClassicGroup where
  groupId : String
  state : GroupState := .empty
  protocolType : Option String := none
  generationId : ℤ := 0
  leaderId : Option MemberId := none
  protocolName : Option String := none
  members : ExtTreeMap MemberId Member := ∅
  staticMembers : ExtTreeMap String MemberId := ∅
  rebalanceDeadline : Option ℕ := none
  joinedThisRound : Finset MemberId := ∅
  rebalanceFromEmpty : Bool := false

/-- `select_protocol`: of the names that every member proposes the one with the most first places, the
least name among equals. -/
def selectProtocol (members : List Member) : Option String :=
  match members with
  | [] => none
  | first :: rest =>
    let intersection := ((first.protocols.map (·.1)).dedup).filter fun name =>
      rest.all fun m => m.protocols.any (·.1 = name)
    let votes (name : String) : ℕ := members.countP fun m => m.protocols.head?.any (·.1 = name)
    intersection.foldl (fun best name =>
      match best with
      | none => some name
      | some b => if votes b < votes name ∨ (votes b = votes name ∧ name < b) then some name
          else some b) none

/-- An `i32` sum, which wraps around. -/
def wrapI32 (n : ℤ) : ℤ := (n + 2 ^ 31) % 2 ^ 32 - 2 ^ 31

lemma wrapI32_succ {n : ℤ} (h : 0 ≤ n) (hlt : n + 1 < 2 ^ 31) : wrapI32 (n + 1) = n + 1 := by
  unfold wrapI32
  omega

namespace ClassicGroup

def new (groupId : String) : ClassicGroup := { groupId }

/-- `add_member`; the flag says whether a static member came back to its slot. -/
def addMember (g : ClassicGroup) (member : Member) : ClassicGroup × Bool :=
  match member.groupInstanceId.bind (g.staticMembers[·]?), member.groupInstanceId with
  | some priorMemberId, some instanceId =>
    let next := { member with
      assignment := member.assignment.or (g.members[priorMemberId]?.bind (·.assignment)) }
    ({ g with
        staticMembers := g.staticMembers.insert instanceId next.id
        members := (g.members.erase priorMemberId).insert next.id next
        joinedThisRound :=
          if g.state = .preparingRebalance then insert next.id (g.joinedThisRound.erase priorMemberId)
          else g.joinedThisRound },
      true)
  | _, instanceId =>
    let opens := g.state ≠ .preparingRebalance
    ({ g with
        staticMembers :=
          match instanceId with
          | some iid => g.staticMembers.insert iid member.id
          | none => g.staticMembers
        members := g.members.insert member.id member
        state := .preparingRebalance
        joinedThisRound := insert member.id (if opens then ∅ else g.joinedThisRound)
        rebalanceFromEmpty := if opens then g.state = .empty else g.rebalanceFromEmpty },
      false)

def allMembersJoinedThisRound (g : ClassicGroup) : Bool :=
  !g.members.isEmpty && g.members.keys.all (· ∈ g.joinedThisRound)

/-- The fields that both ways of losing the last member reset. -/
def emptied (g : ClassicGroup) : ClassicGroup :=
  { g with state := .empty, leaderId := none, protocolName := none, rebalanceDeadline := none }

def removeMember (g : ClassicGroup) (memberId : MemberId) : ClassicGroup :=
  let g' := { g with
    members := g.members.erase memberId
    staticMembers :=
      match (g.members[memberId]?.bind (·.groupInstanceId)) with
      | some iid =>
        if g.staticMembers[iid]? = some memberId then g.staticMembers.erase iid else g.staticMembers
      | none => g.staticMembers
    joinedThisRound := g.joinedThisRound.erase memberId }
  if g'.members.isEmpty then g'.emptied else g'

/-- `complete_rebalance`; the member with the least id leads. -/
def completeRebalance (g : ClassicGroup) (protocolName : String) : ClassicGroup :=
  { g with
    leaderId := g.members.keys.head?
    protocolName := some protocolName
    generationId := wrapI32 (g.generationId + 1)
    state := .completingRebalance
    rebalanceDeadline := none
    joinedThisRound := ∅
    rebalanceFromEmpty := false }

def resolveSelectedProtocolMetadata (g : ClassicGroup) (name : String) : ClassicGroup :=
  { g with
    members := g.members.map fun _ m =>
      match m.protocols.find? (·.1 = name) with
      | some p => { m with protocolMetadata := p.2 }
      | none => m }

/-- The leader's list for one member: the last entry counts, a member that is left out gets nothing. -/
def supplied (assignments : List (MemberId × Bytes)) (memberId : MemberId) : Bytes :=
  ((assignments.reverse.find? (·.1 = memberId)).map (·.2)).getD []

/-- `install_assignments` with the list of `handle_sync`: an assignment for every member. -/
def installAssignments (g : ClassicGroup) (assignments : List (MemberId × Bytes)) : ClassicGroup :=
  { g with
    members := g.members.map fun id m => { m with assignment := some (supplied assignments id) }
    state := .stable }

def deadMembers (g : ClassicGroup) (now : ℕ) : List MemberId :=
  if g.state = .empty then []
  else (g.members.toList.filter fun e =>
    !e.2.isStatic && decide (now - e.2.lastHeartbeat > e.2.sessionTimeout)).map (·.1)

def expireDeadMembers (g : ClassicGroup) (now initialRebalanceDelay : ℕ) : ClassicGroup :=
  let dropped := g.deadMembers now
  if dropped = [] then g
  else
    let g' := { g with
      members := dropped.foldl ExtTreeMap.erase g.members
      joinedThisRound := g.joinedThisRound.filter (· ∉ dropped) }
    if g'.members.isEmpty then { g'.emptied with joinedThisRound := ∅, rebalanceFromEmpty := false }
    else
      { g' with
        state := .preparingRebalance
        rebalanceFromEmpty := false
        rebalanceDeadline := g.rebalanceDeadline.or (some (now + initialRebalanceDelay)) }

end ClassicGroup

/-! ## Requests and answers -/

def codeRebalanceInProgress : ℤ := 27
def codeUnknownMemberId : ℤ := 25
def codeCoordinatorLoadInProgress : ℤ := 14
def codeIllegalGeneration : ℤ := 22
def codeInconsistentGroupProtocol : ℤ := 23
def codeMemberIdRequired : ℤ := 79
def codeFencedInstanceId : ℤ := 82

structure JoinResultMember where
  memberId : MemberId
  groupInstanceId : Option String
  metadata : Bytes

structure JoinResult where
  errorCode : ℤ := 0
  generationId : ℤ := 0
  protocolType : Option String := none
  protocolName : Option String := none
  leader : String := ""
  memberId : MemberId := ""
  members : List JoinResultMember := []

structure SyncResult where
  errorCode : ℤ := 0
  assignment : Bytes := []
  protocolType : Option String := none
  protocolName : Option String := none

structure JoinGroupRequest where
  memberId : MemberId
  groupInstanceId : Option String
  protocolType : String
  protocols : List (String × Bytes)
  sessionTimeoutMs : ℤ
  rebalanceTimeoutMs : ℤ

structure SyncGroupRequest where
  memberId : MemberId
  groupInstanceId : Option String
  generationId : ℤ
  assignments : List (MemberId × Bytes)

structure HeartbeatRequest where
  memberId : MemberId
  groupInstanceId : Option String
  generationId : ℤ

structure LeaveGroupRequest where
  memberId : MemberId
  members : List (MemberId × Option String)

/-! ## JoinGroup -/

/-- What the actor does with the caller of a join. -/
inductive JoinAction where
  | immediate (result : JoinResult)
  | park
  | completeNow

/-- `build_join_result`: the leader gets the members. -/
def buildJoinResult (g : ClassicGroup) (memberId : MemberId) : JoinResult where
  generationId := g.generationId
  protocolType := g.protocolType
  protocolName := g.protocolName
  leader := g.leaderId.getD ""
  memberId := memberId
  members :=
    if g.leaderId = some memberId then
      g.members.toList.map fun e => ⟨e.2.id, e.2.groupInstanceId, e.2.protocolMetadata⟩
    else []

def joinError (g : ClassicGroup) (code : ℤ) (memberId : MemberId) : JoinResult :=
  { errorCode := code, memberId, protocolType := g.protocolType, protocolName := g.protocolName }

def madeUpId (g : ClassicGroup) (req : JoinGroupRequest) (uuid : String) : MemberId :=
  match req.groupInstanceId with
  | some iid => (g.staticMembers[iid]?).getD (iid ++ "-" ++ uuid)
  | none => "crabka-" ++ uuid

def timeoutMs (ms : ℤ) (default : ℕ) : ℕ := if 0 ≤ ms then ms.toNat else default

/-- `handle_join`, once the request has an id. -/
def handleJoinAs (g : ClassicGroup) (req : JoinGroupRequest) (memberId : MemberId)
    (clientId clientHost : String) (initialRebalanceDelay now : ℕ) : ClassicGroup × JoinAction :=
  if g.protocolType.any (· ≠ req.protocolType) then
    (g, .immediate (joinError g codeInconsistentGroupProtocol memberId))
  else if g.members[memberId]?.any (·.groupInstanceId ≠ req.groupInstanceId) then
    (g, .immediate (joinError g codeFencedInstanceId memberId))
  else if (req.groupInstanceId.bind (g.staticMembers[·]?)).any (· ≠ memberId) then
    (g, .immediate (joinError g codeFencedInstanceId memberId))
  else
    let rebalanceTimeout := timeoutMs req.rebalanceTimeoutMs 60000
    let member := Member.new memberId clientId clientHost (timeoutMs req.sessionTimeoutMs 30000)
      rebalanceTimeout req.protocols req.groupInstanceId now
    let (added, rejoined) := { g with protocolType := some req.protocolType }.addMember member
    if rejoined = true ∧ g.state = .stable then
      (added, .immediate (buildJoinResult added memberId))
    else
      let delay := if g.state = .empty then min rebalanceTimeout initialRebalanceDelay
        else rebalanceTimeout
      let opened := { added with
        rebalanceDeadline := added.rebalanceDeadline.or (some (now + delay)) }
      (opened,
        if !opened.rebalanceFromEmpty && decide (opened.state = .preparingRebalance) &&
            opened.allMembersJoinedThisRound then .completeNow
        else .park)

def joinId (g : ClassicGroup) (req : JoinGroupRequest) (uuid : String) : MemberId :=
  if req.memberId = "" then madeUpId g req uuid else req.memberId

def handleJoin (g : ClassicGroup) (req : JoinGroupRequest) (clientId clientHost : String)
    (requireKnownMemberId : Bool) (initialRebalanceDelay now : ℕ) (uuid : String) :
    ClassicGroup × JoinAction :=
  if req.memberId = "" ∧ requireKnownMemberId = true then
    (g, .immediate { errorCode := codeMemberIdRequired, memberId := madeUpId g req uuid })
  else handleJoinAs g req (joinId g req uuid) clientId clientHost initialRebalanceDelay now

/-- `try_complete`; nothing when the members have no protocol in common. -/
def tryComplete (g : ClassicGroup) : Option ClassicGroup :=
  if g.state = .preparingRebalance ∧ ¬ g.members.isEmpty then
    (selectProtocol (g.members.toList.map (·.2))).map fun chosen =>
      (g.resolveSelectedProtocolMetadata chosen).completeRebalance chosen
  else some g

/-! ## SyncGroup, Heartbeat and LeaveGroup -/

/-- What the actor does with the caller of a sync. -/
inductive SyncAction where
  | immediate (result : SyncResult)
  | park
  | leaderInstalled (result : SyncResult)

def syncErr (g : ClassicGroup) (code : ℤ) : SyncResult :=
  { errorCode := code, protocolType := g.protocolType, protocolName := g.protocolName }

/-- `read_sync_result`, with the protocol of the group. -/
def readSyncResult (g : ClassicGroup) (memberId : MemberId) : SyncResult :=
  if g.state ≠ .stable then syncErr g codeRebalanceInProgress
  else
    { assignment := (g.members[memberId]?.bind (·.assignment)).getD []
      protocolType := g.protocolType, protocolName := g.protocolName }

/-- The instance id is not pinned to this member. -/
def fenced (g : ClassicGroup) (memberId : MemberId) (groupInstanceId : Option String) : Bool :=
  groupInstanceId.any fun iid => g.staticMembers[iid]? ≠ some memberId

/-- `handle_sync`. A leader's list is installed in every state of the group. -/
def handleSync (g : ClassicGroup) (req : SyncGroupRequest) : ClassicGroup × SyncAction :=
  if fenced g req.memberId req.groupInstanceId then (g, .immediate (syncErr g codeFencedInstanceId))
  else if ¬ g.members.contains req.memberId then (g, .immediate (syncErr g codeUnknownMemberId))
  else if g.generationId ≠ req.generationId then (g, .immediate (syncErr g codeIllegalGeneration))
  else if g.leaderId = some req.memberId then
    let installed := g.installAssignments req.assignments
    (installed, .leaderInstalled (readSyncResult installed req.memberId))
  else if g.state = .stable then (g, .immediate (readSyncResult g req.memberId))
  else (g, .park)

def handleHeartbeat (g : ClassicGroup) (req : HeartbeatRequest) (now : ℕ) : ClassicGroup × ℤ :=
  if fenced g req.memberId req.groupInstanceId then (g, codeFencedInstanceId)
  else if ¬ g.members.contains req.memberId then (g, codeUnknownMemberId)
  else if g.generationId ≠ req.generationId then (g, codeIllegalGeneration)
  else if g.state ≠ .stable then (g, codeRebalanceInProgress)
  else
    ({ g with members := g.members.modify req.memberId fun m => { m with lastHeartbeat := now } }, 0)

/-- The member that one identity of a `LeaveGroup` request names, or the code of its answer. -/
def resolveLeave (g : ClassicGroup) (ident : MemberId × Option String) : Except ℤ MemberId :=
  match ident.2 with
  | some iid =>
    match g.staticMembers[iid]? with
    | none => .error codeUnknownMemberId
    | some pinned =>
      if ident.1 = "" ∨ pinned = ident.1 then .ok pinned else .error codeFencedInstanceId
  | none => if g.members.contains ident.1 then .ok ident.1 else .error codeUnknownMemberId

/-- The identities are resolved and removed one after the other; the codes of the answers. -/
def leaveAll (g : ClassicGroup) : List (MemberId × Option String) → ClassicGroup × List ℤ
  | [] => (g, [])
  | ident :: rest =>
    match resolveLeave g ident with
    | .ok id => ((leaveAll (g.removeMember id) rest).1, 0 :: (leaveAll (g.removeMember id) rest).2)
    | .error code => ((leaveAll g rest).1, code :: (leaveAll g rest).2)

/-- Who leaves: before version 3 one member without an instance. -/
def LeaveGroupRequest.identities (req : LeaveGroupRequest) (version : ℤ) :
    List (MemberId × Option String) :=
  if version ≥ 3 then req.members else [(req.memberId, none)]

/-- `handle_leave`: survivors of a stable group open a new round. -/
def handleLeave (g : ClassicGroup) (req : LeaveGroupRequest) (version : ℤ) (now : ℕ) :
    ClassicGroup × List ℤ :=
  let (left, codes) := leaveAll g (req.identities version)
  (if (0 : ℤ) ∈ codes ∧ ¬ left.members.isEmpty ∧ left.state = .stable then
      { left with
        state := .preparingRebalance
        rebalanceFromEmpty := false
        rebalanceDeadline :=
          some (now + (left.members.toList.map (·.2.rebalanceTimeout)).foldl max 0) }
    else left, codes)

end Crabka.Broker.Group.Classic
