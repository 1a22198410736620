import Crabka.Found.Maps
import Crabka.Kraft.Core.Types

/-!
# Metadata records

`crates/metadata/src/records.rs` and `acl.rs`, with the value types of `crates/security` that they carry. Signed
integers are `ℤ`, byte strings lists of bytes, and an `f64` is its 64 bits, with the comparison of IEEE 754 (`F64.eq`).
-/

namespace Crabka.Metadata
open Kraft (NodeId Uuid VoterSet)
open Found
open Std (ExtTreeMap)

/-! ## Security values -/

inductive ListenerProtocol where
  | plaintext | ssl | saslPlaintext | saslSsl
  deriving DecidableEq, Repr

inductive SaslMechanism where
  | plain | scramSha256 | scramSha512 | oAuthBearer | gssapi
  deriving DecidableEq, Repr, Ord

instance : Std.TransOrd SaslMechanism where
  eq_swap {a b} := by cases a <;> cases b <;> rfl
  isLE_trans {a b c} := by cases a <;> cases b <;> cases c <;> decide

instance : Std.LawfulEqOrd SaslMechanism where
  compare_self {a} := by cases a <;> rfl
  eq_of_compare {a b} := by cases a <;> cases b <;> decide

structure ScramCredential where
  mechanism : SaslMechanism
  salt : List UInt8
  storedKey : List UInt8
  serverKey : List UInt8
  iterations : ℕ
  deriving DecidableEq, Repr

structure KafkaPrincipal where
  principalType : String
  name : String
  deriving DecidableEq, Repr

/-! ## Access control -/

inductive ResourceType where
  | topic | group | cluster | transactionalId | delegationToken
  deriving DecidableEq, Repr, Ord

instance : Std.TransOrd ResourceType where
  eq_swap {a b} := by cases a <;> cases b <;> rfl
  isLE_trans {a b c} := by cases a <;> cases b <;> cases c <;> decide

instance : Std.LawfulEqOrd ResourceType where
  compare_self {a} := by cases a <;> rfl
  eq_of_compare {a b} := by cases a <;> cases b <;> decide

inductive PatternType where
  | literal | prefixed
  deriving DecidableEq, Repr

inductive PermissionType where
  | allow | deny
  deriving DecidableEq, Repr

inductive AclOperation where
  | all | read | write | create | delete | alter | describe | clusterAction | describeConfigs
  | alterConfigs | idempotentWrite | twoPhaseCommit
  deriving DecidableEq, Repr

structure AclEntry where
  resourceType : ResourceType
  resourceName : String
  patternType : PatternType
  principal : String
  host : String
  operation : AclOperation
  permissionType : PermissionType
  deriving DecidableEq, Repr

/-- `AclEntryFilter`: an axis that is `none` matches anything. -/
structure AclEntryFilter where
  resourceType : Option ResourceType := none
  resourceName : Option String := none
  patternType : Option PatternType := none
  principal : Option String := none
  host : Option String := none
  operation : Option AclOperation := none
  permissionType : Option PermissionType := none
  deriving DecidableEq, Repr

def AclEntryFilter.matches (f : AclEntryFilter) (e : AclEntry) : Bool :=
  f.resourceType.all (· == e.resourceType) && f.resourceName.all (· == e.resourceName) &&
    f.patternType.all (· == e.patternType) && f.principal.all (· == e.principal) &&
    f.host.all (· == e.host) && f.operation.all (· == e.operation) &&
    f.permissionType.all (· == e.permissionType)

/-! ## Floating-point values -/

/-- An `f64` by its bits. -/
structure F64 where
  bits : BitVec 64
  deriving DecidableEq, Repr

namespace F64

def isNaN (x : F64) : Bool :=
  x.bits.extractLsb' 52 11 == BitVec.allOnes 11 && x.bits.extractLsb' 0 52 != 0

def isZero (x : F64) : Bool := x.bits.extractLsb' 0 63 == 0

/-- `f64 == f64`: not a number equals nothing, and the zeros are equal. -/
def eq (x y : F64) : Bool := !x.isNaN && !y.isNaN && (x == y || (x.isZero && y.isZero))

lemma eq_self (x : F64) : x.eq x = !x.isNaN := by simp [eq]

end F64

/-! ## Records -/

abbrev ConfigMap := ExtTreeMap String String

structure TopicRecord where
  name : String
  topicId : Uuid
  partitions : ℤ
  replicationFactor : ℤ
  deriving DecidableEq, Repr

structure PartitionRecord where
  topic : String
  partition : ℤ
  leader : NodeId
  replicas : List NodeId
  isr : List NodeId
  leaderEpoch : ℤ
  addingReplicas : List NodeId
  removingReplicas : List NodeId
  directories : List Uuid
  partitionEpoch : ℤ
  deriving DecidableEq, Repr

structure PartitionDirAssignmentRecord where
  topic : String
  partition : ℤ
  replica : NodeId
  directory : Uuid
  deriving DecidableEq, Repr

structure PartitionOffsetAdvanceRecord where
  topic : String
  partition : ℤ
  count : ℤ
  deriving DecidableEq, Repr

structure BrokerEndpoint where
  name : String
  host : String
  port : ℕ
  protocol : ListenerProtocol
  deriving DecidableEq, Repr

abbrev FeatureRanges := ExtTreeMap String (ℤ × ℤ)

structure BrokerRegistrationRecord where
  nodeId : NodeId
  brokerEpoch : ℤ
  incarnationId : Uuid
  host : String
  port : ℕ
  rack : Option String
  endpoints : List BrokerEndpoint
  logDirs : List Uuid
  features : FeatureRanges
  deriving DecidableEq

structure ControllerRegistrationRecord where
  nodeId : NodeId
  incarnationId : Uuid
  zkMigrationReady : Bool
  endpoints : List BrokerEndpoint
  features : FeatureRanges
  deriving DecidableEq

structure TopicConfigRecord where
  topic : String
  overrides : ConfigMap
  deriving DecidableEq

/-- `BrokerConfigRecord`: a value of `none` deletes the key. -/
structure BrokerConfigRecord where
  nodeId : NodeId
  configName : String
  configValue : Option String
  deriving DecidableEq, Repr

structure ClientMetricsConfigRecord where
  name : String
  configs : ConfigMap
  deriving DecidableEq

structure GroupConfigRecord where
  groupId : String
  configs : ConfigMap
  deriving DecidableEq

structure QuotaEntity where
  entityType : String
  entityName : Option String
  deriving DecidableEq, Repr

/-- `ClientQuotaRecord`: a value of `none` deletes the key. -/
structure ClientQuotaRecord where
  entity : List QuotaEntity
  configKey : String
  configValue : Option F64
  deriving DecidableEq, Repr

structure ProducerIdsRecord where
  brokerId : NodeId
  brokerEpoch : ℤ
  nextProducerId : ℤ
  deriving DecidableEq, Repr

structure ScramCredentialRecord where
  user : String
  mechanism : SaslMechanism
  salt : List UInt8
  storedKey : List UInt8
  serverKey : List UInt8
  iterations : ℕ
  deriving DecidableEq, Repr

structure DeleteScramCredentialRecord where
  user : String
  mechanism : SaslMechanism
  deriving DecidableEq, Repr

/-- `DelegationTokenRecord`, and `DelegationToken`, which has the same fields. -/
structure DelegationTokenRecord where
  tokenId : String
  owner : KafkaPrincipal
  hmac : List UInt8
  issueTimestampMs : ℤ
  expiryTimestampMs : ℤ
  maxTimestampMs : ℤ
  renewers : List KafkaPrincipal
  deriving DecidableEq, Repr

/-- `FeatureLevelRecord`: level `0` deletes the feature. -/
structure FeatureLevelRecord where
  name : String
  level : ℤ
  deriving DecidableEq, Repr

inductive MetadataRecord where
  | v1Topic (t : TopicRecord)
  | v1Partition (p : PartitionRecord)
  | v1BrokerRegistration (b : BrokerRegistrationRecord)
  | v1DeleteTopic (name : String)
  | v1TopicConfig (c : TopicConfigRecord)
  | v1ScramCredential (r : ScramCredentialRecord)
  | v1DeleteScramCredential (r : DeleteScramCredentialRecord)
  | v1AccessControlEntry (e : AclEntry)
  | v1DeleteAccessControlEntry (f : AclEntryFilter)
  | v1BrokerConfig (c : BrokerConfigRecord)
  | v1ClientQuota (q : ClientQuotaRecord)
  | v1ProducerIds (r : ProducerIdsRecord)
  | v1DelegationToken (t : DelegationTokenRecord)
  | v1DeleteDelegationToken (tokenId : String)
  | v1UnregisterBroker (nodeId : NodeId)
  | v1KRaftVersion (kraftVersion : ℕ)
  | v1Voters (voters : VoterSet)
  | v1FeatureLevel (f : FeatureLevelRecord)
  | v1ClientMetricsConfig (c : ClientMetricsConfigRecord)
  | v1FeaturesEpoch (epoch : ℤ)
  | v1PartitionDirAssignment (r : PartitionDirAssignmentRecord)
  | v1PartitionOffsetAdvance (r : PartitionOffsetAdvanceRecord)
  | v1GroupConfig (c : GroupConfigRecord)
  | v1ControllerRegistration (c : ControllerRegistrationRecord)
  deriving DecidableEq

/-! ## Errors -/

/-- `MetadataError`, as `validate` returns it. -/
inductive MetadataError where
  | topicExists (name : String)
  | unknownTopic (name : String)
  | invalidRecord (detail : String)
  deriving DecidableEq, Repr

end Crabka.Metadata
