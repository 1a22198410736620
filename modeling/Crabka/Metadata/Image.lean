import Crabka.Metadata.Records

/-!
# The metadata image

`crates/metadata/src/image.rs`: the image, `apply`, `validate`, `to_records` and `from_records`. Every map is a
`Std.ExtTreeMap`; where the source iterates a hash map, `Iteration` is one choice of orders. Inner maps and the feature
levels are ordered maps in the source.
-/

namespace Crabka.Metadata
open Kraft (NodeId Uuid VoterSet)
open Found
open Std (ExtTreeMap)

/-! ## Bounds -/

def i16Max : ℤ := 2 ^ 15 - 1

def i32Max : ℤ := 2 ^ 31 - 1

def i64Max : ℤ := 2 ^ 63 - 1

/-- `i64` addition, which wraps. -/
def wrappingAdd (a b : ℤ) : ℤ := Int.bmod (a + b) (2 ^ 64)

/-! ## The image -/

abbrev EntityKey := List (String × Option String)

/-- `canonicalize_entity`: a stable sort by entity type. -/
def canonicalizeEntity (tuple : List (String × Option String)) : EntityKey :=
  tuple.mergeSort fun a b => (compare a.1 b.1).isLE

abbrev PartitionMap := ExtTreeMap ℤ PartitionRecord

abbrev QuotaMap := ExtTreeMap String F64

/-- `MetadataImage`. -/
structure MetadataImage where
  clusterId : Uuid
  topics : ExtTreeMap String TopicRecord := ∅
  topicIds : ExtTreeMap Uuid String := ∅
  partitions : ExtTreeMap String PartitionMap := ∅
  partitionNextOffsets : ExtTreeMap (String × ℤ) ℤ := ∅
  brokers : ExtTreeMap NodeId BrokerRegistrationRecord := ∅
  controllers : ExtTreeMap NodeId ControllerRegistrationRecord := ∅
  topicConfigs : ExtTreeMap String ConfigMap := ∅
  brokerConfigs : ExtTreeMap NodeId ConfigMap := ∅
  clientMetricsConfigs : ExtTreeMap String ConfigMap := ∅
  groupConfigs : ExtTreeMap String ConfigMap := ∅
  scramCredentials : ExtTreeMap (String × SaslMechanism) ScramCredential := ∅
  aclsLiteral : ExtTreeMap (ResourceType × String) (List AclEntry) := ∅
  aclsPrefixed : ExtTreeMap ResourceType (List AclEntry) := ∅
  clientQuotas : ExtTreeMap EntityKey QuotaMap := ∅
  producerIds : Option ProducerIdsRecord := none
  delegationTokens : ExtTreeMap String DelegationTokenRecord := ∅
  kraftVersion : ℕ := 0
  voters : VoterSet := ⟨∅⟩
  featureLevels : ExtTreeMap String ℤ := ∅
  featuresEpoch : ℤ := -1
  deriving DecidableEq

namespace MetadataImage

def new (clusterId : Uuid) : MetadataImage where
  clusterId := clusterId

variable (I : MetadataImage)

/-! ### Accessors -/

/-- `topic_partition_count`: the number of partition records, as an `i32`. -/
def topicPartitionCount (topic : String) : ℤ :=
  match I.partitions[topic]? with
  | none => 0
  | some parts => min parts.size i32Max

/-- `partitions_of`, in ascending order of the index. -/
def partitionsOf (topic : String) : List PartitionRecord :=
  match I.partitions[topic]? with
  | none => []
  | some parts => parts.toList.map Prod.snd

def partition (topic : String) (idx : ℤ) : Option PartitionRecord :=
  I.partitions[topic]?.bind (·[idx]?)

def partitionNextOffset (topic : String) (partition : ℤ) : Option ℤ :=
  I.partitionNextOffsets[(topic, partition)]?

def nextProducerId : ℤ := match I.producerIds with
  | none => 0
  | some r => r.nextProducerId

def brokerEpoch (nodeId : NodeId) : Option ℤ := I.brokers[nodeId]?.map (·.brokerEpoch)

/-! ### Applying a record -/

/-- The bucket update of an ACL: the last write wins on full equality. -/
def aclPush (bucket : List AclEntry) (e : AclEntry) : List AclEntry :=
  bucket.filter (· != e) ++ [e]

/-- The removal of the ACLs that a filter matches; a bucket that runs empty goes. -/
def aclRetain {κ : Type} [Ord κ] (m : ExtTreeMap κ (List AclEntry)) (f : AclEntryFilter) :
    ExtTreeMap κ (List AclEntry) :=
  m.filterMap fun _ v =>
    let kept := v.filter fun e => !f.matches e
    if kept.isEmpty then none else some kept

/-- A whole-map override record: an empty map removes the entry. -/
def replaceConfig (m : ExtTreeMap String ConfigMap) (name : String) (configs : ConfigMap) :
    ExtTreeMap String ConfigMap :=
  if configs.isEmpty then m.erase name else m.insert name configs

/-- A per-key record: `some` sets the key, `none` removes it. -/
def setKey {ν : Type} (m : ExtTreeMap String ν) (key : String) (value : Option ν) :
    ExtTreeMap String ν :=
  match value with
  | some v => m.insert key v
  | none => m.erase key

/-- `i16::try_from(len).unwrap_or(rf)`. -/
def replicationFactorFrom (rf : ℤ) (replicas : List NodeId) : ℤ :=
  if (replicas.length : ℤ) ≤ i16Max then replicas.length else rf

/-- The cached fields of a topic after one of its partitions was written. -/
def notePartition (isNew : Bool) (p : PartitionRecord) (t : TopicRecord) : TopicRecord :=
  { t with
    partitions := if isNew then min (t.partitions + 1) i32Max else t.partitions
    replicationFactor := replicationFactorFrom t.replicationFactor p.replicas }

def assignDirectory (r : PartitionDirAssignmentRecord) (p : PartitionRecord) : PartitionRecord :=
  match p.replicas.findIdx? (· == r.replica) with
  | none => p
  | some slot =>
    let padded := p.directories ++
      List.replicate (p.replicas.length - p.directories.length) (0 : Uuid)
    { p with directories := padded.set slot r.directory }

def quotaKey (q : ClientQuotaRecord) : EntityKey :=
  canonicalizeEntity (q.entity.map fun e => (e.entityType, e.entityName))

/-- The id index without the id of a registration that is going away. -/
def dropId (ids : ExtTreeMap Uuid String) (prev : Option TopicRecord) : ExtTreeMap Uuid String :=
  match prev with
  | some p => ids.erase p.topicId
  | none => ids

def apply (rec : MetadataRecord) : MetadataImage :=
  match rec with
  | .v1Topic t =>
    let prev := I.topics[t.name]?
    { I with
      -- A re-registration under another id drops the stale id.
      topicIds := (dropId I.topicIds (prev.filter (·.topicId != t.topicId))).insert t.topicId t.name
      -- The count is a cache of the partitions map, never the record's own field.
      topics := I.topics.insert t.name { t with partitions := (prev.map (·.partitions)).getD 0 } }
  | .v1Partition p =>
    let isNew := (I.partition p.topic p.partition).isNone
    { I with
      partitions := upsert I.partitions p.topic ∅ (·.insert p.partition p)
      topics := I.topics.modify p.topic (notePartition isNew p) }
  | .v1BrokerRegistration b => { I with brokers := I.brokers.insert b.nodeId b }
  | .v1ControllerRegistration c => { I with controllers := I.controllers.insert c.nodeId c }
  | .v1DeleteTopic name =>
    { I with
      topicIds := dropId I.topicIds I.topics[name]?
      topics := I.topics.erase name
      partitions := I.partitions.erase name
      partitionNextOffsets := I.partitionNextOffsets.filter fun k _ => k.1 != name
      topicConfigs := I.topicConfigs.erase name }
  | .v1TopicConfig c => { I with topicConfigs := replaceConfig I.topicConfigs c.topic c.overrides }
  | .v1ScramCredential r =>
    { I with
      scramCredentials := I.scramCredentials.insert (r.user, r.mechanism)
        ⟨r.mechanism, r.salt, r.storedKey, r.serverKey, r.iterations⟩ }
  | .v1DeleteScramCredential r =>
    { I with scramCredentials := I.scramCredentials.erase (r.user, r.mechanism) }
  | .v1AccessControlEntry e =>
    match e.patternType with
    | .literal =>
      { I with aclsLiteral :=
          upsert I.aclsLiteral (e.resourceType, e.resourceName) [] (aclPush · e) }
    | .prefixed =>
      { I with aclsPrefixed := upsert I.aclsPrefixed e.resourceType [] (aclPush · e) }
  | .v1DeleteAccessControlEntry f =>
    { I with aclsLiteral := aclRetain I.aclsLiteral f, aclsPrefixed := aclRetain I.aclsPrefixed f }
  | .v1BrokerConfig c =>
    { I with
      brokerConfigs := upsert I.brokerConfigs c.nodeId ∅ (setKey · c.configName c.configValue) }
  | .v1ClientQuota q =>
    { I with
      clientQuotas := upsert I.clientQuotas (quotaKey q) ∅ (setKey · q.configKey q.configValue) }
  | .v1ProducerIds r =>
    if r.nextProducerId > I.nextProducerId then { I with producerIds := some r } else I
  | .v1DelegationToken t => { I with delegationTokens := I.delegationTokens.insert t.tokenId t }
  | .v1DeleteDelegationToken tokenId =>
    { I with delegationTokens := I.delegationTokens.erase tokenId }
  | .v1UnregisterBroker nodeId => { I with brokers := I.brokers.erase nodeId }
  | .v1KRaftVersion kraftVersion => { I with kraftVersion := kraftVersion }
  | .v1Voters voters => { I with voters := voters }
  | .v1FeatureLevel f =>
    { I with
      featureLevels := if f.level = 0 then I.featureLevels.erase f.name
        else I.featureLevels.insert f.name f.level
      featuresEpoch := max (min (I.featuresEpoch + 1) i64Max) 0 }
  | .v1ClientMetricsConfig c =>
    { I with clientMetricsConfigs := replaceConfig I.clientMetricsConfigs c.name c.configs }
  | .v1GroupConfig c => { I with groupConfigs := replaceConfig I.groupConfigs c.groupId c.configs }
  -- Snapshot only: the epoch is restored, not bumped.
  | .v1FeaturesEpoch epoch => { I with featuresEpoch := epoch }
  | .v1PartitionDirAssignment r =>
    { I with
      partitions := I.partitions.modify r.topic (·.modify r.partition (assignDirectory r)) }
  | .v1PartitionOffsetAdvance r =>
    { I with
      partitionNextOffsets :=
        upsert I.partitionNextOffsets (r.topic, r.partition) 0 (wrappingAdd · r.count) }

section

attribute [local simp] MetadataImage.apply

lemma apply_clusterId {I : MetadataImage} (rec : MetadataRecord) : (I.apply rec).clusterId = I.clusterId := by
  cases rec with
  | v1AccessControlEntry e => cases hp : e.patternType <;> simp [hp]
  | v1ProducerIds r => simp only [MetadataImage.apply]; split <;> rfl
  | _ => rfl

end

def applyAll (rs : List MetadataRecord) : MetadataImage := rs.foldl apply I

/-! ### Validation -/

def validate (rec : MetadataRecord) : Except MetadataError Unit :=
  match rec with
  | .v1Topic t =>
    match I.topics[t.name]? with
    | some existing =>
      -- An existing topic may only grow, with the same identity.
      if existing.topicId ≠ t.topicId ∨ existing.replicationFactor ≠ t.replicationFactor ∨
          t.partitions ≤ I.topicPartitionCount t.name then
        .error (.topicExists t.name)
      else .ok ()
    | none => .ok ()
  | .v1Partition p => if I.topics.contains p.topic then .ok () else .error (.unknownTopic p.topic)
  | .v1DeleteTopic name => if I.topics.contains name then .ok () else .error (.unknownTopic name)
  | .v1TopicConfig c => if I.topics.contains c.topic then .ok () else .error (.unknownTopic c.topic)
  | .v1ProducerIds r =>
    if r.nextProducerId ≤ I.nextProducerId then
      .error (.invalidRecord "next producer ID must advance monotonically")
    else if I.brokerEpoch r.brokerId ≠ some r.brokerEpoch then
      .error (.invalidRecord "producer ID allocation has a stale broker epoch")
    else .ok ()
  | _ => .ok ()

def accepts (rec : MetadataRecord) : Bool := match I.validate rec with
  | .ok _ => true
  | .error _ => false

/-! ### Records of an image -/

/-- The orders in which the hash maps of an image are iterated. -/
structure Iteration where
  topics : List (String × TopicRecord)
  partitions : List (String × PartitionMap)
  partitionNextOffsets : List ((String × ℤ) × ℤ)
  brokers : List (NodeId × BrokerRegistrationRecord)
  controllers : List (NodeId × ControllerRegistrationRecord)
  topicConfigs : List (String × ConfigMap)
  brokerConfigs : List (NodeId × ConfigMap)
  clientMetricsConfigs : List (String × ConfigMap)
  groupConfigs : List (String × ConfigMap)
  scramCredentials : List ((String × SaslMechanism) × ScramCredential)
  aclsLiteral : List ((ResourceType × String) × List AclEntry)
  aclsPrefixed : List (ResourceType × List AclEntry)
  clientQuotas : List (EntityKey × QuotaMap)
  delegationTokens : List (String × DelegationTokenRecord)

/-- The iteration visits every entry of every hash map once. -/
structure Iteration.Of (it : Iteration) (I : MetadataImage) : Prop where
  topics : it.topics.Perm I.topics.toList
  partitions : it.partitions.Perm I.partitions.toList
  partitionNextOffsets : it.partitionNextOffsets.Perm I.partitionNextOffsets.toList
  brokers : it.brokers.Perm I.brokers.toList
  controllers : it.controllers.Perm I.controllers.toList
  topicConfigs : it.topicConfigs.Perm I.topicConfigs.toList
  brokerConfigs : it.brokerConfigs.Perm I.brokerConfigs.toList
  clientMetricsConfigs : it.clientMetricsConfigs.Perm I.clientMetricsConfigs.toList
  groupConfigs : it.groupConfigs.Perm I.groupConfigs.toList
  scramCredentials : it.scramCredentials.Perm I.scramCredentials.toList
  aclsLiteral : it.aclsLiteral.Perm I.aclsLiteral.toList
  aclsPrefixed : it.aclsPrefixed.Perm I.aclsPrefixed.toList
  clientQuotas : it.clientQuotas.Perm I.clientQuotas.toList
  delegationTokens : it.delegationTokens.Perm I.delegationTokens.toList

def keyOrder : Iteration where
  topics := I.topics.toList
  partitions := I.partitions.toList
  partitionNextOffsets := I.partitionNextOffsets.toList
  brokers := I.brokers.toList
  controllers := I.controllers.toList
  topicConfigs := I.topicConfigs.toList
  brokerConfigs := I.brokerConfigs.toList
  clientMetricsConfigs := I.clientMetricsConfigs.toList
  groupConfigs := I.groupConfigs.toList
  scramCredentials := I.scramCredentials.toList
  aclsLiteral := I.aclsLiteral.toList
  aclsPrefixed := I.aclsPrefixed.toList
  clientQuotas := I.clientQuotas.toList
  delegationTokens := I.delegationTokens.toList

lemma keyOrder_of : I.keyOrder.Of I :=
  ⟨.refl _, .refl _, .refl _, .refl _, .refl _, .refl _, .refl _, .refl _, .refl _, .refl _,
    .refl _, .refl _, .refl _, .refl _⟩

def quotaEntity (key : EntityKey) : List QuotaEntity := key.map fun e => ⟨e.1, e.2⟩

/-- `to_records`, for one choice of iteration orders: the groups of records, in their order. -/
def toRecords (it : Iteration) : List MetadataRecord :=
  List.flatten [
    it.brokers.map fun e => .v1BrokerRegistration e.2,
    it.controllers.map fun e => .v1ControllerRegistration e.2,
    it.brokerConfigs.flatMap fun e => e.2.toList.map fun c => .v1BrokerConfig ⟨e.1, c.1, some c.2⟩,
    it.topics.map fun e => .v1Topic e.2,
    it.partitions.flatMap fun e => e.2.toList.map fun p => .v1Partition p.2,
    it.partitionNextOffsets.map fun e => .v1PartitionOffsetAdvance ⟨e.1.1, e.1.2, e.2⟩,
    it.topicConfigs.map fun e => .v1TopicConfig ⟨e.1, e.2⟩,
    it.scramCredentials.map fun e => .v1ScramCredential
      ⟨e.1.1, e.1.2, e.2.salt, e.2.storedKey, e.2.serverKey, e.2.iterations⟩,
    it.aclsLiteral.flatMap fun e => e.2.map .v1AccessControlEntry,
    it.aclsPrefixed.flatMap fun e => e.2.map .v1AccessControlEntry,
    it.clientQuotas.flatMap fun e => e.2.toList.map fun c =>
      .v1ClientQuota ⟨quotaEntity e.1, c.1, some c.2⟩,
    I.producerIds.toList.map .v1ProducerIds,
    it.delegationTokens.map fun e => .v1DelegationToken e.2,
    it.clientMetricsConfigs.map fun e => .v1ClientMetricsConfig ⟨e.1, e.2⟩,
    it.groupConfigs.map fun e => .v1GroupConfig ⟨e.1, e.2⟩,
    I.featureLevels.toList.map fun e => .v1FeatureLevel ⟨e.1, e.2⟩,
    if 0 ≤ I.featuresEpoch then [.v1FeaturesEpoch I.featuresEpoch] else [],
    if I.kraftVersion ≠ 0 then [.v1KRaftVersion I.kraftVersion] else [],
    if I.voters.isEmpty then [] else [.v1Voters I.voters]]

def fromRecords (clusterId : Uuid) (rs : List MetadataRecord) : MetadataImage :=
  (new clusterId).applyAll rs

/-! ### Equality -/

/-- `QuotaMap == QuotaMap`. -/
def quotaMapEq (a b : QuotaMap) : Prop :=
  ∀ key : String, Option.Rel (fun x y : F64 => x.eq y = true) a[key]? b[key]?

/-- `MetadataImage == MetadataImage`: quota values are compared as `f64`. -/
def eq (J : MetadataImage) : Prop :=
  { I with clientQuotas := ∅ } = { J with clientQuotas := ∅ } ∧
    ∀ key : EntityKey, Option.Rel quotaMapEq I.clientQuotas[key]? J.clientQuotas[key]?

end MetadataImage
end Crabka.Metadata
