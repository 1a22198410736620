import Crabka.Metadata.Image

/-!
# KIP-631 records

The record shapes of `crates/protocol` that `crates/metadata/src/kraft_translate.rs` reads and writes, with the codes
and texts its fields carry; each is read back by its decoder (`…_toWire`, `hexDecode_hexEncode`,
`principalFromString_toString`, `parseU64_toString`). A value blob is the record that the generated decoder reads from
it (`onWire`), the body of a private carrier the record that `wincode` reads.
-/

namespace Crabka.Metadata
open List
open Kraft (NodeId Uuid)
open Nat

/-! ## Errors -/

inductive TranslateError where
  | noCounterpart (kind : String)
  | unknownTopicId (id : Uuid)
  | unknownTopicName (name : String)
  | invalid (field detail : String)
  | encode (detail : String)
  | decode (detail : String)
  | unknownAclId (id : Uuid)
  deriving DecidableEq, Repr

namespace TranslateError

/-- The text of an error; ids are shown as numbers. -/
def text : TranslateError → String
  | noCounterpart kind => s!"record has no KIP-631 metadata counterpart: {kind}"
  | unknownTopicId id => s!"unknown topic id {id.toNat} on decode"
  | unknownTopicName name => s!"unknown topic name {name} on encode"
  | invalid field detail => s!"invalid {field}: {detail}"
  | encode detail => s!"KIP-631 value encode failed: {detail}"
  | decode detail => s!"KIP-631 value decode failed: {detail}"
  | unknownAclId id => s!"unknown ACL id {id.toNat} on decode"

end TranslateError

/-! ## Record shapes -/

/-- `KBrokerEndpoint` and `KControllerEndpoint`. -/
structure KEndpoint where
  name : String := ""
  host : String
  port : ℕ
  securityProtocol : ℤ := 0
  deriving DecidableEq, Repr

/-- `KBrokerFeature` and `KControllerFeature`. -/
structure KFeature where
  name : String
  minSupportedVersion : ℤ
  maxSupportedVersion : ℤ
  deriving DecidableEq, Repr

structure RegisterBrokerRecord where
  brokerId : ℤ
  brokerEpoch : ℤ
  incarnationId : Uuid
  rack : Option String
  endPoints : List KEndpoint
  features : List KFeature
  logDirs : List Uuid
  deriving DecidableEq, Repr

structure RegisterControllerRecord where
  controllerId : ℤ
  incarnationId : Uuid
  zkMigrationReady : Bool
  endPoints : List KEndpoint
  features : List KFeature
  deriving DecidableEq, Repr

structure UserScramCredentialRecord where
  name : String
  mechanism : ℤ
  salt : List UInt8
  storedKey : List UInt8
  serverKey : List UInt8
  iterations : ℤ
  deriving DecidableEq, Repr

structure RemoveUserScramCredentialRecord where
  name : String
  mechanism : ℤ
  deriving DecidableEq, Repr

structure AccessControlEntryRecord where
  id : Uuid
  resourceType : ℤ
  resourceName : String
  patternType : ℤ
  principal : String
  host : String
  operation : ℤ
  permissionType : ℤ
  deriving DecidableEq, Repr

structure KClientQuotaRecord where
  entity : List QuotaEntity
  key : String
  value : F64
  remove : Bool
  deriving DecidableEq, Repr

structure KProducerIdsRecord where
  brokerId : ℤ
  brokerEpoch : ℤ
  nextProducerId : ℤ
  deriving DecidableEq, Repr

structure KDelegationTokenRecord where
  owner : String
  requester : String
  renewers : List String
  issueTimestamp : ℤ
  maxTimestamp : ℤ
  expirationTimestamp : ℤ
  tokenId : String
  deriving DecidableEq, Repr

structure ConfigRecord where
  resourceType : ℤ
  resourceName : String
  name : String
  value : Option String := none
  deriving DecidableEq, Repr

/-- `KTopicRecord`: no partition count and no replication factor. -/
structure KTopicRecord where
  name : String
  topicId : Uuid
  deriving DecidableEq, Repr

structure KPartitionRecord where
  partitionId : ℤ
  topicId : Uuid
  replicas : List ℤ
  isr : List ℤ
  removingReplicas : List ℤ
  addingReplicas : List ℤ
  leader : ℤ
  leaderEpoch : ℤ
  partitionEpoch : ℤ
  directories : List Uuid
  deriving DecidableEq, Repr

/-- `KPartitionChangeRecord`, with its defaults. -/
structure KPartitionChangeRecord where
  partitionId : ℤ
  topicId : Uuid
  isr : Option (List ℤ) := none
  leader : ℤ := -2
  replicas : Option (List ℤ) := none
  removingReplicas : Option (List ℤ) := none
  addingReplicas : Option (List ℤ) := none
  leaderRecoveryState : ℤ := -1
  directories : Option (List Uuid) := none
  eligibleLeaderReplicas : Option (List ℤ) := none
  lastKnownElr : Option (List ℤ) := none
  deriving DecidableEq, Repr

/-- `KraftMetadataRecord`. The kinds that the translation does not model stand without their
fields; `other` is the rest of them. -/
inductive KraftMetadataRecord where
  | featureLevel (name : String) (featureLevel : ℤ)
  | registerBroker (b : RegisterBrokerRecord)
  | registerController (c : RegisterControllerRecord)
  | unregisterBroker (brokerId : ℤ)
  | userScramCredential (s : UserScramCredentialRecord)
  | removeUserScramCredential (s : RemoveUserScramCredentialRecord)
  | accessControlEntry (e : AccessControlEntryRecord)
  | removeAccessControlEntry (id : Uuid)
  | clientQuota (q : KClientQuotaRecord)
  | producerIds (r : KProducerIdsRecord)
  | delegationToken (t : KDelegationTokenRecord)
  | removeDelegationToken (tokenId : String)
  | config (c : ConfigRecord)
  | topic (t : KTopicRecord)
  | removeTopic (topicId : Uuid)
  | partition (p : KPartitionRecord)
  | partitionChange (p : KPartitionChangeRecord)
  | unknown (apiKey : ℕ) (body : Except String MetadataRecord)
  | brokerRegistrationChange
  | noOp
  | beginTransaction
  | endTransaction
  | other

/-! ## Enumeration codes -/

/-- The value that a code stands for, among all values of an enumeration. -/
def fromWire {α : Type} (toWire : α → ℤ) (all : List α) (err : ℤ → TranslateError) (b : ℤ) :
    Except TranslateError α :=
  match all.find? fun a => toWire a == b with
  | some a => .ok a
  | none => .error (err b)

def unknownByte (field : String) (b : ℤ) : TranslateError :=
  .invalid field s!"unknown wire byte {b}"

/-- The name that the `Debug` form of a mechanism shows. -/
def SaslMechanism.debug : SaslMechanism → String
  | .plain => "Plain"
  | .scramSha256 => "ScramSha256"
  | .scramSha512 => "ScramSha512"
  | .oAuthBearer => "OAuthBearer"
  | .gssapi => "Gssapi"

def scramMechanismToWire : SaslMechanism → Except TranslateError ℤ
  | .scramSha256 => .ok 1
  | .scramSha512 => .ok 2
  | other => .error (.invalid "scram mechanism" s!"{other.debug} is not a SCRAM mechanism")

def scramMechanismFromWire (b : ℤ) : Except TranslateError SaslMechanism :=
  if b = 1 then .ok .scramSha256
  else if b = 2 then .ok .scramSha512
  else .error (.invalid "scram mechanism" s!"unknown SCRAM mechanism wire byte {b}")

def resourceTypeToWire : ResourceType → ℤ
  | .topic => 2
  | .group => 3
  | .cluster => 4
  | .transactionalId => 5
  | .delegationToken => 6

def resourceTypeFromWire : ℤ → Except TranslateError ResourceType :=
  fromWire resourceTypeToWire [.topic, .group, .cluster, .transactionalId, .delegationToken]
    (unknownByte "acl resource_type")

def patternTypeToWire : PatternType → ℤ
  | .literal => 3
  | .prefixed => 4

def patternTypeFromWire : ℤ → Except TranslateError PatternType :=
  fromWire patternTypeToWire [.literal, .prefixed] (unknownByte "acl pattern_type")

def operationToWire : AclOperation → ℤ
  | .all => 2
  | .read => 3
  | .write => 4
  | .create => 5
  | .delete => 6
  | .alter => 7
  | .describe => 8
  | .clusterAction => 9
  | .describeConfigs => 10
  | .alterConfigs => 11
  | .idempotentWrite => 12
  | .twoPhaseCommit => 15

def operationFromWire : ℤ → Except TranslateError AclOperation :=
  fromWire operationToWire
    [.all, .read, .write, .create, .delete, .alter, .describe, .clusterAction, .describeConfigs,
      .alterConfigs, .idempotentWrite, .twoPhaseCommit]
    (unknownByte "acl operation")

def permissionToWire : PermissionType → ℤ
  | .deny => 2
  | .allow => 3

def permissionFromWire : ℤ → Except TranslateError PermissionType :=
  fromWire permissionToWire [.deny, .allow] (unknownByte "acl permission_type")

def protocolToWire : ListenerProtocol → ℤ
  | .plaintext => 0
  | .ssl => 1
  | .saslPlaintext => 2
  | .saslSsl => 3

def protocolFromWire : ℤ → Except TranslateError ListenerProtocol :=
  fromWire protocolToWire [.plaintext, .ssl, .saslPlaintext, .saslSsl]
    fun b => .invalid "security_protocol" s!"unknown wire value {b}"

lemma scramMechanismFromWire_toWire {m : SaslMechanism} {b : ℤ}
    (h : scramMechanismToWire m = .ok b) : scramMechanismFromWire b = .ok m := by
  cases m <;> cases h <;> rfl

@[simp] lemma resourceTypeFromWire_toWire (rt : ResourceType) :
    resourceTypeFromWire (resourceTypeToWire rt) = .ok rt := by cases rt <;> rfl

@[simp] lemma patternTypeFromWire_toWire (pt : PatternType) :
    patternTypeFromWire (patternTypeToWire pt) = .ok pt := by cases pt <;> rfl

@[simp] lemma operationFromWire_toWire (op : AclOperation) :
    operationFromWire (operationToWire op) = .ok op := by cases op <;> rfl

@[simp] lemma permissionFromWire_toWire (pt : PermissionType) :
    permissionFromWire (permissionToWire pt) = .ok pt := by cases pt <;> rfl

@[simp] lemma protocolFromWire_toWire (p : ListenerProtocol) :
    protocolFromWire (protocolToWire p) = .ok p := by cases p <;> rfl

/-! ## ACL ids -/

def fnvLane (h : UInt64) (bytes : List UInt8) : UInt64 :=
  bytes.foldl (fun h b => (h ^^^ b.toUInt64) * 0x100000001b3) h

/-- `fnv1a_128`: two lanes, one after the other. -/
def fnv1a128 (bytes : List UInt8) : Uuid :=
  (fnvLane 0xcbf29ce484222325 bytes).toBitVec ++ (fnvLane 0x109956638a1bc7e9 bytes).toBitVec

/-- A text with its length before it, eight bytes, the lowest first. -/
def lengthPrefixed (s : String) : List UInt8 :=
  (List.range 8).map (fun i => UInt8.ofNat (s.utf8ByteSize / 256 ^ i)) ++ s.toUTF8.toList

/-- `acl_id`: a hash of the entry's canonical bytes. -/
def aclId (e : AclEntry) : Uuid :=
  fnv1a128 <|
    [resourceTypeToWire e.resourceType, patternTypeToWire e.patternType,
        operationToWire e.operation, permissionToWire e.permissionType].map
      (fun b => UInt8.ofNat b.toNat) ++
    [e.resourceName, e.principal, e.host].flatMap lengthPrefixed

/-! ## Hexadecimal text -/

def hexEncode (bytes : List UInt8) : String :=
  String.ofList (bytes.flatMap fun b =>
    [Nat.digitChar (b.toNat / 16), Nat.digitChar (b.toNat % 16)])

def hexDigit (c : Char) : Option ℕ :=
  if '0' ≤ c ∧ c ≤ '9' then some (c.toNat - 48)
  else if 'a' ≤ c ∧ c ≤ 'f' then some (c.toNat - 87)
  else if 'A' ≤ c ∧ c ≤ 'F' then some (c.toNat - 55)
  else none

/-- `u8::from_str_radix` on two characters: the first may be a plus sign. -/
def u8FromHex (a b : Char) : Except TranslateError UInt8 :=
  match (if a = '+' then some 0 else hexDigit a), hexDigit b with
  | some x, some y => .ok (UInt8.ofNat (16 * x + y))
  | _, _ => .error (.invalid "delegation token hmac (hex)" "invalid digit found in string")

/-- The bytes of a text of even length. -/
def hexPairs : List Char → Except TranslateError (List UInt8)
  | a :: b :: cs => do return (← u8FromHex a b) :: (← hexPairs cs)
  | _ => .ok []

def hexDecode (s : String) : Except TranslateError (List UInt8) :=
  if s.toList.length % 2 ≠ 0 then .error (.invalid "delegation token hmac (hex)" "odd length")
  else hexPairs s.toList

lemma hexDigit_digitChar {n : ℕ} (h : n < 16) : hexDigit (digitChar n) = some n := by
  revert n
  decide

lemma digitChar_ne_plus {n : ℕ} (h : n < 16) : digitChar n ≠ '+' := by
  revert n
  decide

lemma u8FromHex_digits (b : UInt8) : u8FromHex (digitChar (b.toNat / 16)) (digitChar (b.toNat % 16)) = .ok b := by
  have hhigh : b.toNat / 16 < 16 := by
    have := b.toNat_lt
    omega
  have hlow : b.toNat % 16 < 16 := mod_lt _ (by decide)
  unfold u8FromHex
  rw [if_neg (digitChar_ne_plus hhigh), hexDigit_digitChar hhigh, hexDigit_digitChar hlow]
  simp only [div_add_mod, UInt8.ofNat_toNat]

lemma hexPairs_digits (bytes : List UInt8) :
    hexPairs (bytes.flatMap fun b =>
      [digitChar (b.toNat / 16), digitChar (b.toNat % 16)]) = .ok bytes := by
  induction bytes with
  | nil => rfl
  | cons b bytes ih =>
    rw [flatMap_cons, cons_append, cons_append, nil_append, hexPairs, u8FromHex_digits, ih]
    rfl

lemma hexDecode_hexEncode (bytes : List UInt8) : hexDecode (hexEncode bytes) = .ok bytes := by
  have heven : (hexEncode bytes).toList.length % 2 = 0 := by
    rw [hexEncode, String.toList_ofList, length_flatMap]
    simp
  rw [hexDecode, if_neg (by simp [heven]), hexEncode, String.toList_ofList, hexPairs_digits]

/-! ## Principals -/

def principalToString (p : KafkaPrincipal) : String := p.principalType ++ ":" ++ p.name

/-- `KafkaPrincipal::from_str`: split at the first colon. -/
def principalFromString (s : String) : Except String KafkaPrincipal :=
  match s.toList.dropWhile (· != ':') with
  | [] => .error s!"invalid principal {s.quote}"
  | _ :: name => .ok ⟨String.ofList (s.toList.takeWhile (· != ':')), String.ofList name⟩

lemma principalFromString_toString {p : KafkaPrincipal} (h : ':' ∉ p.principalType.toList) :
    principalFromString (principalToString p) = .ok p := by
  have htext : (principalToString p).toList = p.principalType.toList ++ ':' :: p.name.toList := by
    simp [principalToString]
  have hkeep : ∀ c ∈ p.principalType.toList, (c != ':') := by
    intro c hc
    exact bne_iff_ne.mpr fun heq => h (heq ▸ hc)
  have hdrop : (principalToString p).toList.dropWhile (· != ':') = ':' :: p.name.toList := by
    rw [htext, dropWhile_append_of_pos hkeep]
    rfl
  have htake : (principalToString p).toList.takeWhile (· != ':') = p.principalType.toList := by
    rw [htext, takeWhile_append_of_pos hkeep]
    simp
  rw [principalFromString, hdrop, htake]
  simp

/-! ## Decimal text -/

/-- `str::parse::<u64>`. -/
def parseU64 (s : String) : Except String ℕ :=
  let digits := if s.toList.head? = some '+' then s.toList.tail else s.toList
  if s.toList.isEmpty then .error "cannot parse integer from empty string"
  else if digits.isEmpty || !digits.all Char.isDigit then .error "invalid digit found in string"
  else if Nat.ofDigitChars 10 digits 0 < 2 ^ 64 then .ok (Nat.ofDigitChars 10 digits 0)
  else .error "number too large to fit in target type"

lemma parseU64_toString {n : ℕ} (h : n < 2 ^ 64) : parseU64 (toString n) = .ok n := by
  have hdigits : ∀ c ∈ toDigits 10 n, c.isDigit := fun c hc =>
    isDigit_of_mem_toDigits (by decide) (by decide) hc
  have hsign : (toDigits 10 n).head? ≠ some '+' := by
    intro hplus
    have := hdigits '+' (mem_of_mem_head? hplus)
    exact absurd this (by decide)
  have hne : (toDigits 10 n).isEmpty = false := by simp
  have hall : (toDigits 10 n).all Char.isDigit := all_eq_true.mpr hdigits
  simp [parseU64, hsign, hne, hall, ofDigitChars_ten_toDigits]
  omega

end Crabka.Metadata
