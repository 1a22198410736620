import Crabka.Metadata.Wire

/-!
# Translation to KIP-631 records and back

`crates/metadata/src/kraft_translate.rs`: `to_kraft_values` turns a record into the values that are written to the log,
against the image before the record, and `from_kraft_value` turns one value back. `fromKraft_verbatim` covers the kinds
that come back as they went in; the others have one lemma each.
-/

namespace Crabka.Metadata
open List
open Kraft (NodeId Uuid)
open Found
open Std (ExtTreeMap)

/-! ## Iterations of the image that the translation makes -/

/-- `all_acls`, the maps in key order. -/
def MetadataImage.allAcls (I : MetadataImage) : List AclEntry :=
  I.aclsLiteral.toList.flatMap (·.2) ++ I.aclsPrefixed.toList.flatMap (·.2)

/-- The orders in which the translation visits the ACLs and the topics of an image. -/
structure Scan where
  acls : MetadataImage → List AclEntry
  acls_perm : ∀ I, (acls I).Perm I.allAcls
  topics : MetadataImage → List TopicRecord
  topics_perm : ∀ I, (topics I).Perm (I.topics.toList.map Prod.snd)

def Scan.keyOrder : Scan where
  acls := MetadataImage.allAcls
  acls_perm _ := .refl _
  topics I := I.topics.toList.map Prod.snd
  topics_perm _ := .refl _

/-! ## Encoding -/

/-- `i32::try_from`. -/
def toI32 (err : ℕ → TranslateError) (n : ℕ) : Except TranslateError ℤ :=
  if (n : ℤ) ≤ i32Max then .ok n else .error (err n)

def nodeIdFromWire (field : String) (value : ℤ) : Except TranslateError NodeId :=
  if 0 ≤ value then .ok value.toNat else .error (.invalid field s!"{value} is negative")

def endpointToKraft (e : BrokerEndpoint) : KEndpoint :=
  ⟨e.name, e.host, e.port, protocolToWire e.protocol⟩

def endpointFromKraft (e : KEndpoint) : Except TranslateError BrokerEndpoint := do
  return ⟨e.name, e.host, e.port, ← protocolFromWire e.securityProtocol⟩

def featuresToKraft (features : FeatureRanges) : List KFeature :=
  features.toList.map fun e => ⟨e.1, e.2.1, e.2.2⟩

def featuresFromKraft (features : List KFeature) : FeatureRanges :=
  features.foldl (fun m f => m.insert f.name (f.minSupportedVersion, f.maxSupportedVersion)) ∅

def registerBrokerToKraft (b : BrokerRegistrationRecord) :
    Except TranslateError RegisterBrokerRecord := do
  let brokerId ← toI32 (fun n => .invalid "broker_id" s!"node_id {n} exceeds i32") b.nodeId
  return {
    brokerId
    brokerEpoch := b.brokerEpoch
    incarnationId := b.incarnationId
    rack := b.rack
    -- A record without listeners carries its address in an entry without a name.
    endPoints := if b.endpoints.isEmpty then [{ host := b.host, port := b.port }]
      else b.endpoints.map endpointToKraft
    features := featuresToKraft b.features
    logDirs := b.logDirs }

def registerBrokerFromKraft (b : RegisterBrokerRecord) :
    Except TranslateError BrokerRegistrationRecord := do
  let (host, port, onWire) := match b.endPoints with
    | head :: rest =>
      if head.name.isEmpty then (head.host, head.port, rest)
      else (head.host, head.port, head :: rest)
    | [] => ("", 0, [])
  let endpoints ← onWire.mapM endpointFromKraft
  let nodeId ← nodeIdFromWire "register broker id" b.brokerId
  return {
    nodeId, host, port, endpoints
    brokerEpoch := b.brokerEpoch
    incarnationId := b.incarnationId
    rack := b.rack
    logDirs := b.logDirs
    features := featuresFromKraft b.features }

def registerControllerToKraft (c : ControllerRegistrationRecord) :
    Except TranslateError RegisterControllerRecord := do
  let controllerId ← toI32 (fun n => .invalid "controller_id" s!"node_id {n} exceeds i32") c.nodeId
  return {
    controllerId
    incarnationId := c.incarnationId
    zkMigrationReady := c.zkMigrationReady
    endPoints := c.endpoints.map endpointToKraft
    features := featuresToKraft c.features }

def registerControllerFromKraft (c : RegisterControllerRecord) :
    Except TranslateError ControllerRegistrationRecord := do
  let endpoints ← c.endPoints.mapM endpointFromKraft
  let nodeId ← nodeIdFromWire "controller id" c.controllerId
  return {
    nodeId, endpoints
    incarnationId := c.incarnationId
    zkMigrationReady := c.zkMigrationReady
    features := featuresFromKraft c.features }

/-- `partition_leader_to_wire`: node `0` stands for no leader. -/
def partitionLeaderToWire (field : String) (leader : NodeId) : Except TranslateError ℤ :=
  if leader = 0 then .ok (-1)
  else toI32 (fun n => .invalid field s!"leader {n} exceeds i32") leader

def partitionLeaderFromWire (field : String) (value : ℤ) : Except TranslateError NodeId :=
  if value = -1 then .ok 0 else nodeIdFromWire field value

def nodesToKraft (field : String) (ns : List NodeId) : Except TranslateError (List ℤ) :=
  ns.mapM (toI32 fun n => .invalid field s!"node id {n} exceeds i32")

def nodesFromKraft (field : String) (vs : List ℤ) : Except TranslateError (List NodeId) :=
  vs.mapM (nodeIdFromWire field)

def partitionToKraft (p : PartitionRecord) (topicId : Uuid) :
    Except TranslateError KPartitionRecord := do
  let replicas ← nodesToKraft "partition replicas" p.replicas
  let isr ← nodesToKraft "partition isr" p.isr
  let removingReplicas ← nodesToKraft "partition removing_replicas" p.removingReplicas
  let addingReplicas ← nodesToKraft "partition adding_replicas" p.addingReplicas
  let leader ← partitionLeaderToWire "partition leader" p.leader
  return {
    topicId, replicas, isr, removingReplicas, addingReplicas, leader
    partitionId := p.partition
    leaderEpoch := p.leaderEpoch
    partitionEpoch := p.partitionEpoch
    directories := p.directories }

/-- The directories of a partition with one slot per replica, and one of them set. -/
def assignedDirectories (p : PartitionRecord) (slot : ℕ) (directory : Uuid) : List Uuid :=
  ((p.directories ++ List.replicate (p.replicas.length - p.directories.length) 0).take
    p.replicas.length).set slot directory

def partitionDirAssignmentToKraft (r : PartitionDirAssignmentRecord) (I : MetadataImage) :
    Except TranslateError KPartitionChangeRecord :=
  match I.topics[r.topic]? with
  | none => .error (.unknownTopicName r.topic)
  | some topic =>
    match I.partition r.topic r.partition with
    | none =>
      .error (.invalid "partition directory assignment" s!"unknown partition {r.topic}-{r.partition}")
    | some p =>
      match p.replicas.findIdx? (· == r.replica) with
      | none =>
        .error (.invalid "partition directory assignment"
          s!"broker {r.replica} is not a replica of {r.topic}-{r.partition}")
      | some slot =>
        .ok {
          partitionId := r.partition
          topicId := topic.topicId
          directories := some (assignedDirectories p slot r.directory) }

def clientQuotaToKraft (q : ClientQuotaRecord) : KClientQuotaRecord :=
  match q.configValue with
  | some v => ⟨q.entity, q.configKey, v, false⟩
  | none => ⟨q.entity, q.configKey, ⟨0⟩, true⟩

/-- `delegation_token_to_kraft`: the HMAC travels in the requester. -/
def delegationTokenToKraft (t : DelegationTokenRecord) : KDelegationTokenRecord where
  owner := principalToString t.owner
  requester := hexEncode t.hmac
  renewers := t.renewers.map principalToString
  issueTimestamp := t.issueTimestampMs
  maxTimestamp := t.maxTimestampMs
  expirationTimestamp := t.expiryTimestampMs
  tokenId := t.tokenId

def defaultBrokerConfigNodeId : NodeId := 2 ^ 64 - 1

/-- The records of a whole map of overrides: one for each key it sets, and a tombstone for each key
it drops. -/
def configToKraft (resourceType : ℤ) (resourceName : String) (configs old : ConfigMap) :
    List KraftMetadataRecord :=
  (configs.toList.map fun e => .config ⟨resourceType, resourceName, e.1, some e.2⟩) ++
    (old.toList.filter fun e => !configs.contains e.1).map fun e =>
      .config ⟨resourceType, resourceName, e.1, none⟩

def topicConfigToKraft (c : TopicConfigRecord) (I : MetadataImage) : List KraftMetadataRecord :=
  configToKraft 2 c.topic c.overrides (I.topicConfigs[c.topic]?.getD ∅)

def groupConfigToKraft (c : GroupConfigRecord) (I : MetadataImage) : List KraftMetadataRecord :=
  configToKraft 32 c.groupId c.configs (I.groupConfigs[c.groupId]?.getD ∅)

def clientMetricsConfigToKraft (c : ClientMetricsConfigRecord) (I : MetadataImage) :
    List KraftMetadataRecord :=
  configToKraft 16 c.name c.configs (I.clientMetricsConfigs[c.name]?.getD ∅)

/-- `delete_acl_to_kraft`: one removal for each entry that the filter matches. -/
def deleteAclToKraft (scan : Scan) (f : AclEntryFilter) (I : MetadataImage) :
    List KraftMetadataRecord :=
  ((scan.acls I).filter f.matches).map fun e => .removeAccessControlEntry (aclId e)

def aclToKraft (e : AclEntry) : AccessControlEntryRecord where
  id := aclId e
  resourceType := resourceTypeToWire e.resourceType
  resourceName := e.resourceName
  patternType := patternTypeToWire e.patternType
  principal := e.principal
  host := e.host
  operation := operationToWire e.operation
  permissionType := permissionToWire e.permissionType

def privateFeaturesEpochKey : ℕ := 1001

def privatePartitionOffsetAdvanceKey : ℕ := 1003

/-- `wincode_carrier`: the record itself, under a private key. -/
def wincodeCarrier (rec : MetadataRecord) (apiKey : ℕ) : KraftMetadataRecord :=
  .unknown apiKey (.ok rec)

def toKraftRecords (scan : Scan) (rec : MetadataRecord) (I : MetadataImage) :
    Except TranslateError (List KraftMetadataRecord) :=
  match rec with
  | .v1FeatureLevel f => .ok [.featureLevel f.name f.level]
  | .v1BrokerRegistration b => do return [.registerBroker (← registerBrokerToKraft b)]
  | .v1ControllerRegistration c => do return [.registerController (← registerControllerToKraft c)]
  | .v1UnregisterBroker nodeId => do
    return [.unregisterBroker (← toI32 (fun n => .invalid "broker_id" s!"node_id {n} exceeds i32") nodeId)]
  | .v1ScramCredential s => do
    let iterations ← toI32 (fun n => .invalid "scram iterations" s!"{n} exceeds i32") s.iterations
    let mechanism ← scramMechanismToWire s.mechanism
    return [.userScramCredential ⟨s.user, mechanism, s.salt, s.storedKey, s.serverKey, iterations⟩]
  | .v1DeleteScramCredential s => do
    return [.removeUserScramCredential ⟨s.user, ← scramMechanismToWire s.mechanism⟩]
  | .v1AccessControlEntry e => .ok [.accessControlEntry (aclToKraft e)]
  | .v1ClientQuota q => .ok [.clientQuota (clientQuotaToKraft q)]
  | .v1DelegationToken t => .ok [.delegationToken (delegationTokenToKraft t)]
  | .v1DeleteDelegationToken tokenId => .ok [.removeDelegationToken tokenId]
  | .v1BrokerConfig c =>
    .ok [.config ⟨4, if c.nodeId = defaultBrokerConfigNodeId then "" else toString c.nodeId,
      c.configName, c.configValue⟩]
  | .v1Topic t => .ok [.topic ⟨t.name, t.topicId⟩]
  | .v1Partition p =>
    match I.topics[p.topic]? with
    | none => .error (.unknownTopicName p.topic)
    | some topic => do return [.partition (← partitionToKraft p topic.topicId)]
  | .v1DeleteTopic name =>
    match I.topics[name]? with
    | none => .error (.unknownTopicName name)
    | some topic => .ok [.removeTopic topic.topicId]
  | .v1TopicConfig c => .ok (topicConfigToKraft c I)
  | .v1GroupConfig c => .ok (groupConfigToKraft c I)
  | .v1ProducerIds r => do
    let brokerId ← toI32
      (fun n => .invalid "producer IDs broker id" s!"node_id {n} exceeds i32") r.brokerId
    return [.producerIds ⟨brokerId, r.brokerEpoch, r.nextProducerId⟩]
  | .v1DeleteAccessControlEntry f => .ok (deleteAclToKraft scan f I)
  | .v1ClientMetricsConfig c => .ok (clientMetricsConfigToKraft c I)
  | .v1FeaturesEpoch _ => .ok [wincodeCarrier rec privateFeaturesEpochKey]
  | .v1PartitionDirAssignment r => do
    return [.partitionChange (← partitionDirAssignmentToKraft r I)]
  | .v1PartitionOffsetAdvance _ => .ok [wincodeCarrier rec privatePartitionOffsetAdvanceKey]
  | .v1Voters _ => .error (.noCounterpart "V1Voters")
  | .v1KRaftVersion _ => .error (.noCounterpart "V1KRaftVersion")

def metadataVersionFeature : String := "metadata.version"

def metadataVersionMax : ℤ := 25

def directoryAssignmentMinLevel : ℤ := 17

def elrMinLevel : ℤ := 23

def MetadataImage.finalizedMetadataVersion (I : MetadataImage) : Option ℤ :=
  I.featureLevels[metadataVersionFeature]?

/-- The level that values are framed at: the latest one when none is finalized. -/
def MetadataImage.framingLevel (I : MetadataImage) : ℤ :=
  I.finalizedMetadataVersion.getD metadataVersionMax

def valueVersion (level : ℤ) : KraftMetadataRecord → ℤ
  | .partition _ | .partitionChange _ =>
    if elrMinLevel ≤ level then 2 else if directoryAssignmentMinLevel ≤ level then 1 else 0
  | .registerBroker _ =>
    if directoryAssignmentMinLevel ≤ level then 3 else if 8 ≤ level then 2 else 1
  | _ => 0

/-- Fields of a later version are taken out before the value is framed. -/
def strip (version : ℤ) : KraftMetadataRecord → KraftMetadataRecord
  | .registerBroker b => .registerBroker (if version < 3 then { b with logDirs := [] } else b)
  | kr => kr

/-- What is read from a value framed at a version: the directories of a partition are written from
version 1 on. -/
def onWire (version : ℤ) : KraftMetadataRecord → KraftMetadataRecord
  | .partition p => .partition (if version < 1 then { p with directories := [] } else p)
  | kr => kr

def frame (level : ℤ) (kr : KraftMetadataRecord) : KraftMetadataRecord :=
  onWire (valueVersion level kr) (strip (valueVersion level kr) kr)

def toKraftValues (scan : Scan) (rec : MetadataRecord) (I : MetadataImage) :
    Except TranslateError (List KraftMetadataRecord) :=
  (toKraftRecords scan rec I).map (List.map (frame I.framingLevel))

/-! ## Decoding -/

def topicNameForId (scan : Scan) (I : MetadataImage) (id : Uuid) : Option String :=
  ((scan.topics I).find? (·.topicId == id)).map (·.name)

def exactFilter (e : AclEntry) : AclEntryFilter where
  resourceType := some e.resourceType
  resourceName := some e.resourceName
  patternType := some e.patternType
  principal := some e.principal
  host := some e.host
  operation := some e.operation
  permissionType := some e.permissionType

/-- `topic_from_kraft`: the count and the replication factor come from the image. -/
def topicFromKraft (t : KTopicRecord) (I : MetadataImage) : TopicRecord where
  name := t.name
  topicId := t.topicId
  partitions := I.topicPartitionCount t.name
  replicationFactor := match (I.partitionsOf t.name).head? with
    | some p => if (p.replicas.length : ℤ) ≤ i16Max then p.replicas.length else 1
    | none => 1

def partitionFromKraft (scan : Scan) (p : KPartitionRecord) (I : MetadataImage) :
    Except TranslateError PartitionRecord :=
  match topicNameForId scan I p.topicId with
  | none => .error (.unknownTopicId p.topicId)
  | some topic => do
    let leader ← partitionLeaderFromWire "partition leader" p.leader
    let replicas ← nodesFromKraft "partition replica" p.replicas
    let isr ← nodesFromKraft "partition ISR member" p.isr
    let addingReplicas ← nodesFromKraft "adding replica" p.addingReplicas
    let removingReplicas ← nodesFromKraft "removing replica" p.removingReplicas
    return {
      topic, leader, replicas, isr, addingReplicas, removingReplicas
      partition := p.partitionId
      leaderEpoch := p.leaderEpoch
      directories := p.directories
      partitionEpoch := p.partitionEpoch }

/-- `i32::checked_add(1)`. -/
def checkedIncrement (n : ℤ) (err : TranslateError) : Except TranslateError ℤ :=
  if n < i32Max then .ok (n + 1) else .error err

/-- Node ids of a change, where it has them. -/
def changedNodes (field : String) (new : Option (List ℤ)) (old : List NodeId) :
    Except TranslateError (List NodeId) :=
  match new with
  | some vs => nodesFromKraft field vs
  | none => .ok old

/-- The partition after a change, with the checks in their order. -/
def changePartition (change : KPartitionChangeRecord) (p : PartitionRecord) :
    Except TranslateError PartitionRecord := do
  if change.leaderRecoveryState ≠ -1 then
    throw (.invalid "partition change leader recovery state"
      "Crabka does not yet model unclean-election recovery state")
  if change.eligibleLeaderReplicas.isSome ∨ change.lastKnownElr.isSome then
    throw (.invalid "partition change eligible leader replicas"
      "Crabka does not yet model KIP-966 eligible leader replicas")
  let replicas ← changedNodes "partition change replica" change.replicas p.replicas
  let isr ← changedNodes "partition change ISR member" change.isr p.isr
  let removingReplicas ← changedNodes "partition change removing replica" change.removingReplicas
    p.removingReplicas
  let addingReplicas ← changedNodes "partition change adding replica" change.addingReplicas
    p.addingReplicas
  let (leader, leaderEpoch) ←
    if change.leader = -2 then pure (p.leader, p.leaderEpoch)
    else do
      let leader ← partitionLeaderFromWire "partition change leader" change.leader
      let leaderEpoch ← checkedIncrement p.leaderEpoch
        (.invalid "partition change leader epoch" "leader epoch overflow")
      pure (leader, leaderEpoch)
  let directories ← match change.directories with
    | none => pure p.directories
    | some directories =>
      if directories.length ≠ replicas.length then
        throw (.invalid "partition change directories"
          s!"{directories.length} directories for {replicas.length} replicas")
      else pure directories
  let partitionEpoch ← checkedIncrement p.partitionEpoch
    (.invalid "partition change partition epoch" "partition epoch overflow")
  return { p with
    replicas, isr, removingReplicas, addingReplicas, leader, leaderEpoch, directories,
    partitionEpoch }

def partitionChangeFromKraft (scan : Scan) (change : KPartitionChangeRecord) (I : MetadataImage) :
    Except TranslateError PartitionRecord :=
  match topicNameForId scan I change.topicId with
  | none => .error (.unknownTopicId change.topicId)
  | some topic =>
    match I.partition topic change.partitionId with
    | none =>
      .error (.invalid "partition change" s!"unknown partition {topic}-{change.partitionId}")
    | some p => changePartition change p

def clientQuotaFromKraft (q : KClientQuotaRecord) : ClientQuotaRecord :=
  ⟨q.entity, q.key, if q.remove then none else some q.value⟩

def tokenPrincipal (field : String) (s : String) : Except TranslateError KafkaPrincipal :=
  match principalFromString s with
  | .ok p => .ok p
  | .error e => .error (.invalid field e)

def delegationTokenFromKraft (t : KDelegationTokenRecord) :
    Except TranslateError DelegationTokenRecord := do
  let owner ← tokenPrincipal "delegation token owner" t.owner
  let renewers ← t.renewers.mapM (tokenPrincipal "delegation token renewer")
  let hmac ← hexDecode t.requester
  return {
    owner, renewers, hmac
    tokenId := t.tokenId
    issueTimestampMs := t.issueTimestamp
    expiryTimestampMs := t.expirationTimestamp
    maxTimestampMs := t.maxTimestamp }

def brokerConfigNode (resourceName : String) : Except TranslateError NodeId :=
  if resourceName.isEmpty then .ok defaultBrokerConfigNodeId
  else match parseU64 resourceName with
    | .ok n => .ok n
    | .error e => .error (.invalid "broker config resource_name" e)

/-- One key of a configuration, merged into the overrides in force. -/
def mergeConfig (old : Option ConfigMap) (c : ConfigRecord) : ConfigMap :=
  MetadataImage.setKey (old.getD ∅) c.name c.value

def configFromKraft (c : ConfigRecord) (I : MetadataImage) : Except TranslateError MetadataRecord :=
  if c.resourceType = 4 then do
    return .v1BrokerConfig ⟨← brokerConfigNode c.resourceName, c.name, c.value⟩
  else if c.resourceType = 2 then
    .ok (.v1TopicConfig ⟨c.resourceName, mergeConfig I.topicConfigs[c.resourceName]? c⟩)
  else if c.resourceType = 16 then
    .ok (.v1ClientMetricsConfig ⟨c.resourceName, mergeConfig I.clientMetricsConfigs[c.resourceName]? c⟩)
  else if c.resourceType = 32 then
    .ok (.v1GroupConfig ⟨c.resourceName, mergeConfig I.groupConfigs[c.resourceName]? c⟩)
  else .error (.invalid "config resource_type" s!"unsupported resource_type {c.resourceType}")

def kraftVariantName : KraftMetadataRecord → String
  | .brokerRegistrationChange => "BrokerRegistrationChange"
  | .partitionChange _ => "PartitionChange"
  | .noOp => "NoOp"
  | .beginTransaction => "BeginTransaction"
  | .endTransaction => "EndTransaction"
  | .removeAccessControlEntry _ => "RemoveAccessControlEntry"
  | .unknown _ _ => "Unknown"
  | _ => "unmodeled"

def fromKraft (scan : Scan) (kr : KraftMetadataRecord) (I : MetadataImage) :
    Except TranslateError MetadataRecord :=
  match kr with
  | .featureLevel name level => .ok (.v1FeatureLevel ⟨name, level⟩)
  | .registerBroker b => do return .v1BrokerRegistration (← registerBrokerFromKraft b)
  | .registerController c => do return .v1ControllerRegistration (← registerControllerFromKraft c)
  | .unregisterBroker brokerId => do
    return .v1UnregisterBroker (← nodeIdFromWire "unregister broker id" brokerId)
  | .userScramCredential s => do
    let mechanism ← scramMechanismFromWire s.mechanism
    let iterations ←
      if 0 ≤ s.iterations then pure s.iterations.toNat
      else throw (.invalid "scram iterations" s!"{s.iterations} is negative")
    return .v1ScramCredential ⟨s.name, mechanism, s.salt, s.storedKey, s.serverKey, iterations⟩
  | .removeUserScramCredential s => do
    return .v1DeleteScramCredential ⟨s.name, ← scramMechanismFromWire s.mechanism⟩
  | .accessControlEntry e => do
    let resourceType ← resourceTypeFromWire e.resourceType
    let patternType ← patternTypeFromWire e.patternType
    let operation ← operationFromWire e.operation
    let permissionType ← permissionFromWire e.permissionType
    return .v1AccessControlEntry
      ⟨resourceType, e.resourceName, patternType, e.principal, e.host, operation, permissionType⟩
  | .clientQuota q => .ok (.v1ClientQuota (clientQuotaFromKraft q))
  | .producerIds r => do
    let brokerId ← nodeIdFromWire "producer IDs broker id" r.brokerId
    return .v1ProducerIds ⟨brokerId, r.brokerEpoch, r.nextProducerId⟩
  | .delegationToken t => do return .v1DelegationToken (← delegationTokenFromKraft t)
  | .removeDelegationToken tokenId => .ok (.v1DeleteDelegationToken tokenId)
  | .config c => configFromKraft c I
  | .topic t => .ok (.v1Topic (topicFromKraft t I))
  | .partition p => do return .v1Partition (← partitionFromKraft scan p I)
  | .partitionChange p => do return .v1Partition (← partitionChangeFromKraft scan p I)
  | .removeTopic id =>
    match topicNameForId scan I id with
    | none => .error (.unknownTopicId id)
    | some name => .ok (.v1DeleteTopic name)
  | .removeAccessControlEntry id =>
    match (scan.acls I).find? (aclId · == id) with
    | none => .error (.unknownAclId id)
    | some e => .ok (.v1DeleteAccessControlEntry (exactFilter e))
  | .unknown apiKey body =>
    if apiKey = privateFeaturesEpochKey ∨ apiKey = privatePartitionOffsetAdvanceKey then
      match body with
      | .ok rec => .ok rec
      | .error e => .error (.decode e)
    else .error (.noCounterpart (kraftVariantName kr))
  | kr => .error (.noCounterpart (kraftVariantName kr))

/-! ## What is read back -/

lemma nodeIdFromWire_toI32 {err : ℕ → TranslateError} {n : ℕ} {v : ℤ} (h : toI32 err n = .ok v)
    (field : String) : nodeIdFromWire field v = .ok n := by
  unfold toI32 at h
  split at h
  · cases h
    rw [nodeIdFromWire, if_pos (Int.natCast_nonneg n), Int.toNat_natCast]
  · cases h

variable {field : String}

lemma nodesFromKraft_toKraft {ns : List NodeId} {vs : List ℤ} (h : nodesToKraft field ns = .ok vs)
    (field' : String) : nodesFromKraft field' vs = .ok ns :=
  mapM_inverse (fun _ _ _ hv => nodeIdFromWire_toI32 hv field') h

variable {n : NodeId}

lemma partitionLeaderFromWire_toWire {v : ℤ} (h : partitionLeaderToWire field n = .ok v) (field' : String) :
    partitionLeaderFromWire field' v = .ok n := by
  unfold partitionLeaderToWire at h
  split_ifs at h with hzero
  · cases h
    rw [partitionLeaderFromWire, if_pos rfl, hzero]
  · have hv := nodeIdFromWire_toI32 h field'
    have hne : v ≠ -1 := by
      rintro rfl
      simp [nodeIdFromWire] at hv
    rw [partitionLeaderFromWire, if_neg hne, hv]

lemma endpointFromKraft_toKraft (e : BrokerEndpoint) : endpointFromKraft (endpointToKraft e) = .ok e := by
  simp only [endpointFromKraft, endpointToKraft, protocolFromWire_toWire]
  rfl

lemma featuresFromKraft_toKraft (m : FeatureRanges) : featuresFromKraft (featuresToKraft m) = m := by
  rw [featuresFromKraft, featuresToKraft, foldl_map]
  exact foldl_of_perm (.refl _) fun _ _ _ _ => rfl

/-- A broker registration read back: the address is that of the first listener; one without a name is taken for the
address alone. -/
def registeredBroker (level : ℤ) (b : BrokerRegistrationRecord) : BrokerRegistrationRecord :=
  { b with
    host := match b.endpoints with
      | [] => b.host
      | e :: _ => e.host
    port := match b.endpoints with
      | [] => b.port
      | e :: _ => e.port
    endpoints := match b.endpoints with
      | [] => []
      | e :: es => if e.name.isEmpty then es else e :: es
    logDirs := if directoryAssignmentMinLevel ≤ level then b.logDirs else [] }

lemma frame_registerBroker (level : ℤ) (k : RegisterBrokerRecord) :
    frame level (.registerBroker k) = .registerBroker
      { k with logDirs := if directoryAssignmentMinLevel ≤ level then k.logDirs else [] } := by
  unfold frame valueVersion strip onWire
  by_cases h : directoryAssignmentMinLevel ≤ level
  · simp [h]
  · by_cases h8 : 8 ≤ level <;> simp [h, h8]

lemma fromKraft_registerBroker {b : BrokerRegistrationRecord} {k : RegisterBrokerRecord}
    (h : registerBrokerToKraft b = .ok k) (level : ℤ) (scan : Scan) (I : MetadataImage) :
    fromKraft scan (frame level (.registerBroker k)) I =
      .ok (.v1BrokerRegistration (registeredBroker level b)) := by
  obtain ⟨id, hid, hk⟩ := bind_eq_ok.mp h
  cases hk
  have hback : ∀ es : List BrokerEndpoint, (es.map endpointToKraft).mapM endpointFromKraft =
      .ok es := fun es => mapM_map_inverse fun e _ => endpointFromKraft_toKraft e
  rw [frame_registerBroker]
  simp only [fromKraft, registerBrokerFromKraft, nodeIdFromWire_toI32 hid, featuresFromKraft_toKraft]
  cases hes : b.endpoints with
  | nil => simp [registeredBroker, hes]
  | cons e es =>
    have hname : (endpointToKraft e).name = e.name := rfl
    by_cases he : e.name.isEmpty
    · simp [registeredBroker, hes, hname, he, hback]
      exact ⟨rfl, rfl⟩
    · have hcons := hback (e :: es)
      rw [map_cons] at hcons
      simp [registeredBroker, hes, hname, he, hcons]
      exact ⟨rfl, rfl⟩

/-- The kinds of records that are read back as they were written, whatever the images are. -/
def Verbatim : MetadataRecord → Prop
  | .v1DelegationToken t => ∀ p ∈ t.owner :: t.renewers, ':' ∉ p.principalType.toList
  | .v1BrokerConfig c => c.nodeId < 2 ^ 64
  | .v1FeatureLevel _ | .v1ControllerRegistration _ | .v1UnregisterBroker _ | .v1ScramCredential _
  | .v1DeleteScramCredential _ | .v1AccessControlEntry _ | .v1ClientQuota _ | .v1ProducerIds _
  | .v1DeleteDelegationToken _ | .v1FeaturesEpoch _ | .v1PartitionOffsetAdvance _ => True
  | _ => False

lemma tokenPrincipal_toString {p : KafkaPrincipal} (h : ':' ∉ p.principalType.toList)
    (field : String) : tokenPrincipal field (principalToString p) = .ok p := by
  rw [tokenPrincipal, principalFromString_toString h]

lemma delegationTokenFromKraft_toKraft {t : DelegationTokenRecord}
    (h : ∀ p ∈ t.owner :: t.renewers, ':' ∉ p.principalType.toList) :
    delegationTokenFromKraft (delegationTokenToKraft t) = .ok t := by
  have hrenewers : (t.renewers.map principalToString).mapM
      (tokenPrincipal "delegation token renewer") = .ok t.renewers :=
    mapM_map_inverse fun p hp => tokenPrincipal_toString (h p (mem_cons_of_mem _ hp)) _
  simp only [delegationTokenFromKraft, delegationTokenToKraft,
    tokenPrincipal_toString (h t.owner mem_cons_self), hrenewers, hexDecode_hexEncode]
  rfl

lemma brokerConfigNode_toString (h : n < 2 ^ 64) :
    brokerConfigNode (if n = defaultBrokerConfigNodeId then "" else toString n) = .ok n := by
  by_cases hn : n = defaultBrokerConfigNodeId
  · rw [if_pos hn, hn]
    rfl
  · rw [if_neg hn, brokerConfigNode, if_neg (by simp), parseU64_toString h]

variable {scan : Scan} {S : MetadataImage} {krs : List KraftMetadataRecord}

lemma fromKraft_acl (scan : Scan) (e : AclEntry) (J : MetadataImage) :
    fromKraft scan (.accessControlEntry (aclToKraft e)) J = .ok (.v1AccessControlEntry e) := by
  simp only [fromKraft, aclToKraft, resourceTypeFromWire_toWire, patternTypeFromWire_toWire,
    operationFromWire_toWire, permissionFromWire_toWire]
  rfl

/-- **Records that are read back as they were written.** -/
theorem fromKraft_verbatim {rec : MetadataRecord} (hv : Verbatim rec)
    (h : toKraftRecords scan rec S = .ok krs) (level : ℤ) (scan' : Scan) (J : MetadataImage) :
    ∃ kr, krs.map (frame level) = [kr] ∧ fromKraft scan' kr J = .ok rec := by
  cases rec with
  | v1FeatureLevel | v1DeleteDelegationToken | v1FeaturesEpoch | v1PartitionOffsetAdvance =>
    cases h
    exact ⟨_, rfl, rfl⟩
  | v1ControllerRegistration c =>
    obtain ⟨k, hk, h⟩ := bind_eq_ok.mp h
    cases h
    obtain ⟨id, hid, hk⟩ := bind_eq_ok.mp hk
    cases hk
    exact ⟨_, rfl, by
      simp only [frame, strip, onWire, fromKraft, registerControllerFromKraft, nodeIdFromWire_toI32 hid,
        mapM_map_inverse fun e _ => endpointFromKraft_toKraft e, featuresFromKraft_toKraft]; rfl⟩
  | v1UnregisterBroker | v1ProducerIds =>
    obtain ⟨v, hn, h⟩ := bind_eq_ok.mp h
    cases h
    exact ⟨_, rfl, by simp only [frame, strip, onWire, fromKraft, nodeIdFromWire_toI32 hn]; rfl⟩
  | v1ScramCredential r =>
    obtain ⟨iterations, hit, h⟩ := bind_eq_ok.mp h
    obtain ⟨mechanism, hmech, h⟩ := bind_eq_ok.mp h
    cases h
    refine ⟨_, rfl, ?_⟩
    unfold toI32 at hit
    split at hit
    · cases hit
      simp only [frame, strip, onWire, fromKraft, scramMechanismFromWire_toWire hmech,
        if_pos (Int.natCast_nonneg _), Int.toNat_natCast]
      rfl
    · cases hit
  | v1DeleteScramCredential r =>
    obtain ⟨v, hm, h⟩ := bind_eq_ok.mp h
    cases h
    exact ⟨_, rfl, by
      simp only [frame, strip, onWire, fromKraft, scramMechanismFromWire_toWire hm]; rfl⟩
  | v1AccessControlEntry e => cases h; exact ⟨_, rfl, fromKraft_acl scan' e J⟩
  | v1ClientQuota q =>
    cases h
    obtain ⟨entity, key, _ | value⟩ := q <;> exact ⟨_, rfl, rfl⟩
  | v1DelegationToken t =>
    cases h
    exact ⟨_, rfl, by
      simp only [frame, strip, onWire, fromKraft, delegationTokenFromKraft_toKraft hv]; rfl⟩
  | v1BrokerConfig c =>
    cases h
    exact ⟨_, rfl, by
      simp only [frame, strip, onWire, fromKraft, configFromKraft, if_true, brokerConfigNode_toString hv]; rfl⟩
  | _ => cases hv

/-! ### Partitions -/

/-- The partition that is read back: directories are not written below their level. -/
def writtenPartition (level : ℤ) (p : PartitionRecord) : PartitionRecord :=
  { p with directories := if directoryAssignmentMinLevel ≤ level then p.directories else [] }

lemma frame_partition (level : ℤ) (k : KPartitionRecord) :
    frame level (.partition k) = .partition
      { k with directories := if directoryAssignmentMinLevel ≤ level then k.directories else [] } := by
  unfold frame valueVersion strip onWire
  by_cases h : directoryAssignmentMinLevel ≤ level
  · by_cases h' : elrMinLevel ≤ level <;> simp [h, h']
  · have h' : ¬ elrMinLevel ≤ level := by
      unfold directoryAssignmentMinLevel at h
      unfold elrMinLevel
      omega
    simp [h, h']

variable {id : Uuid} {J : MetadataImage}

lemma fromKraft_partition {p : PartitionRecord} {k : KPartitionRecord}
    (h : partitionToKraft p id = .ok k) (hname : topicNameForId scan J id = some p.topic)
    (level : ℤ) :
    fromKraft scan (frame level (.partition k)) J = .ok (.v1Partition (writtenPartition level p)) := by
  obtain ⟨replicas, hreplicas, h⟩ := bind_eq_ok.mp h
  obtain ⟨isr, hisr, h⟩ := bind_eq_ok.mp h
  obtain ⟨removing, hremoving, h⟩ := bind_eq_ok.mp h
  obtain ⟨adding, hadding, h⟩ := bind_eq_ok.mp h
  obtain ⟨leader, hleader, h⟩ := bind_eq_ok.mp h
  cases h
  rw [frame_partition]
  simp only [fromKraft, partitionFromKraft, hname, nodesFromKraft_toKraft hreplicas,
    nodesFromKraft_toKraft hisr, nodesFromKraft_toKraft hremoving, nodesFromKraft_toKraft hadding,
    partitionLeaderFromWire_toWire hleader]
  rfl

lemma partitionDirAssignmentToKraft_eq_ok {r : PartitionDirAssignmentRecord}
    {k : KPartitionChangeRecord} (h : partitionDirAssignmentToKraft r S = .ok k) :
    ∃ t p slot, S.topics[r.topic]? = some t ∧ S.partition r.topic r.partition = some p ∧
      p.replicas.findIdx? (· == r.replica) = some slot ∧
      k = { partitionId := r.partition, topicId := t.topicId,
            directories := some (assignedDirectories p slot r.directory) } := by
  unfold partitionDirAssignmentToKraft at h
  split at h
  · cases h
  · rename_i t ht
    split at h
    · cases h
    · rename_i p hp
      split at h
      · cases h
      · rename_i slot hslot
        exact ⟨t, p, slot, ht, hp, hslot, (Except.ok.inj h).symm⟩

lemma length_assignedDirectories (p : PartitionRecord) (slot : ℕ) (directory : Uuid) :
    (assignedDirectories p slot directory).length = p.replicas.length := by
  simp only [assignedDirectories, length_set, length_take, length_append, length_replicate]
  omega

end Crabka.Metadata
