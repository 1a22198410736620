import Crabka.Metadata.Snapshot
import Crabka.Metadata.Submit

/-!
# What is submitted is what is committed

A request is validated and applied to a scratch image, written as KIP-631 values, and decoded, validated and applied
again when these are committed. The two images agree up to what KIP-631 records do not carry:

* `TopicRecord` has no replication factor: a new topic has the factor 1 until a partition sets it.
* A topic record of an existing topic is rejected when it is committed; it would change nothing.
* A directory assignment is committed as a change of the partition, with its epoch and replication factor.
* A broker registration gets its address from its first listener; directories are lost below their level.

`Slack` keeps where the images may differ; `agrees_step` carries the agreement over one record.
-/

namespace Crabka.Metadata
open Kraft (NodeId Uuid)
open Found
open Std (ExtTreeMap)
open MetadataImage
open List hiding getElem?_insert getElem?_modify insert partition rec
open Std.ExtTreeMap (contains_eq_isSome_getElem? erase ext_getElem?)
open Option hiding filter filter_filter map map_map mem_map mem_toList rec

/-! ## Agreement up to slack -/

/-- Where a committed image may differ from the scratch image. -/
structure Slack where
  /-- Topics whose replication factors may differ. -/
  factors : List String := []
  /-- Partitions whose epochs and directories may differ. -/
  partitions : List (String × ℤ) := []
  /-- Brokers whose addresses, listeners and directories may differ. -/
  brokers : List NodeId := []
  /-- The number of partition changes, which raise partition epochs. -/
  bumps : ℕ := 0
  deriving DecidableEq

def Slack.Clean (k : Slack) : Prop := k.factors = [] ∧ k.partitions = [] ∧ k.brokers = []

instance (k : Slack) : Decidable k.Clean := inferInstanceAs (Decidable (_ ∧ _))

def TopicAgrees (k : Slack) (n : String) (a b : TopicRecord) : Prop :=
  b = { a with replicationFactor := b.replicationFactor } ∧ (n ∉ k.factors → b = a)

section
variable {k : Slack} {n : String} {a b : TopicRecord}

lemma TopicAgrees.topicId_eq (h : TopicAgrees k n a b) : b.topicId = a.topicId := by rw [h.1]

lemma TopicAgrees.name_eq (h : TopicAgrees k n a b) : b.name = a.name := by rw [h.1]

end

/-- Two partition records up to the epoch, which partition changes may have raised, and the directories. -/
def PartitionAgrees (k : Slack) (n : String) (i : ℤ) (p q : PartitionRecord) : Prop :=
  q = { p with partitionEpoch := q.partitionEpoch, directories := q.directories } ∧
    (p.partitionEpoch ≤ q.partitionEpoch ∧ q.partitionEpoch ≤ p.partitionEpoch + k.bumps) ∧
    ((n, i) ∉ k.partitions → q = p)

/-- A registration is the same, or as it is read back at some level. -/
def BrokerAgrees (k : Slack) (n : NodeId) (a b : BrokerRegistrationRecord) : Prop :=
  (b = a ∨ ∃ level, b = registeredBroker level a) ∧ (n ∉ k.brokers → b = a)

lemma BrokerAgrees.brokerEpoch_eq {k : Slack} {n : NodeId} {a b : BrokerRegistrationRecord}
    (h : BrokerAgrees k n a b) : b.brokerEpoch = a.brokerEpoch := by
  obtain ⟨rfl | ⟨level, rfl⟩, -⟩ := h <;> rfl

/-- A committed image agrees with a scratch image up to slack. -/
structure Agrees (k : Slack) (S J : MetadataImage) : Prop where
  rest : J = { S with topics := J.topics, partitions := J.partitions, brokers := J.brokers }
  topics : Related (TopicAgrees k) S.topics J.topics
  partitions : Related (fun n => Related (PartitionAgrees k n)) S.partitions J.partitions
  brokers : Related (BrokerAgrees k) S.brokers J.brokers

variable {k : Slack} {S J : MetadataImage}

lemma Agrees.stores (h : Agrees k S J) :
    ∃ T P B, J = { S with topics := T, partitions := P, brokers := B } ∧
      Related (TopicAgrees k) S.topics T ∧
      Related (fun n => Related (PartitionAgrees k n)) S.partitions P ∧
      Related (BrokerAgrees k) S.brokers B :=
  ⟨_, _, _, h.rest, h.topics, h.partitions, h.brokers⟩

lemma Agrees.refl (k : Slack) (S : MetadataImage) : Agrees k S S where
  rest := rfl
  topics := .refl _ fun _ _ => ⟨rfl, fun _ => rfl⟩
  partitions := .refl _ fun _ _ => .refl _ fun _ _ => ⟨rfl, ⟨le_rfl, by omega⟩, fun _ => rfl⟩
  brokers := .refl _ fun _ _ => ⟨.inl rfl, fun _ => rfl⟩

lemma Agrees.eq_of_clean (h : Agrees k S J) (hk : k.Clean) : J = S := by
  obtain ⟨hf, hp, hb⟩ := hk
  have htopics : S.topics = J.topics := h.topics.eq fun n a b hab => (hab.2 (by simp [hf])).symm
  have hparts : S.partitions = J.partitions := h.partitions.eq fun n ps qs hps =>
    hps.eq fun i p q hpq => (hpq.2.2 (by simp [hp])).symm
  have hbrokers : S.brokers = J.brokers := h.brokers.eq fun n a b hab => (hab.2 (by simp [hb])).symm
  rw [h.rest, ← htopics, ← hparts, ← hbrokers]

/-! ## What a record does to the slack, and what becomes of its values -/

def Slack.note (k : Slack) (S : MetadataImage) (rec : MetadataRecord) : Slack :=
  match rec with
  | .v1Topic t =>
    if S.topics.contains t.name ∨ t.replicationFactor = 1 then k
    else { k with factors := t.name :: k.factors }
  | .v1Partition p =>
    { k with
      factors := if (p.replicas.length : ℤ) ≤ i16Max then k.factors.filter (· != p.topic)
        else k.factors
      partitions := if writtenPartition S.framingLevel p = p then
          k.partitions.filter (· != (p.topic, p.partition))
        else (p.topic, p.partition) :: k.partitions }
  | .v1DeleteTopic name =>
    { k with
      factors := k.factors.filter (· != name)
      partitions := k.partitions.filter (·.1 != name) }
  | .v1PartitionDirAssignment r =>
    let count := (S.partition r.topic r.partition).map fun p => (p.replicas.length : ℤ)
    { k with
      factors := if S.topics[r.topic]?.map (·.replicationFactor) = count then k.factors
        else r.topic :: k.factors
      partitions := (r.topic, r.partition) :: k.partitions
      bumps := k.bumps + 1 }
  | .v1BrokerRegistration b =>
    { k with
      brokers := if registeredBroker S.framingLevel b = b then k.brokers.filter (· != b.nodeId)
        else b.nodeId :: k.brokers }
  | .v1UnregisterBroker n => { k with brokers := k.brokers.filter (· != n) }
  | _ => k

/-- What becomes of the values of a record: they are applied, except for the value of a topic that
exists. -/
def expectedOutcomes (S : MetadataImage) (rec : MetadataRecord) (written : ℕ) : List Outcome :=
  match rec with
  | .v1Topic t =>
    if S.topics.contains t.name then [.rejected (.topicExists t.name)] else [.applied]
  | _ => List.replicate written .applied

/-- The id of each topic names it, so that no two topics share an id. -/
def IdsNamed (S : MetadataImage) : Prop :=
  ∀ (n : String) (t : TopicRecord), S.topics[n]? = some t → S.topicIds[t.topicId]? = some n

/-- A record does not take the id of another topic, name a principal type with a colon, raise a partition epoch past
its bound, or remove an ACL while two ACLs have the same id. -/
def Faithful (bound : ℕ) (S : MetadataImage) (rec : MetadataRecord) : Prop :=
  match rec with
  | .v1Topic t => S.topics[t.name]? = none →
      ∀ (n : String) (t' : TopicRecord), S.topics[n]? = some t' → t'.topicId ≠ t.topicId
  | .v1PartitionDirAssignment r =>
    ∀ p, S.partition r.topic r.partition = some p → p.partitionEpoch + bound ≤ i32Max
  | .v1DeleteAccessControlEntry _ => ∀ e ∈ S.allAcls, ∀ e' ∈ S.allAcls, aclId e = aclId e' → e = e'
  | .v1DelegationToken _ | .v1BrokerConfig _ => Verbatim rec
  | _ => True

instance (bound : ℕ) (S : MetadataImage) (rec : MetadataRecord) : Decidable (Faithful bound S rec) := by
  cases rec with
  | v1Topic t =>
    exact decidable_of_iff (S.topics[t.name]? = none → ∀ e ∈ S.topics.toList, e.2.topicId ≠ t.topicId)
      (imp_congr_right fun _ =>
        (forall_getElem?_iff (P := fun _ (t' : TopicRecord) => t'.topicId ≠ t.topicId)).symm)
  | _ => dsimp only [Faithful, Verbatim]; infer_instance

section
variable {k : Slack} {S J : MetadataImage} {scan : Scan}

/-! ## Kinds that are read back as they were written -/

variable {rec : MetadataRecord}

lemma Agrees.apply_verbatim (h : Agrees k S J) (hv : Verbatim rec)
    (hrec : ∀ n, rec ≠ .v1UnregisterBroker n) : Agrees k (S.apply rec) (J.apply rec) := by
  obtain ⟨T, P, B, rfl, ht, hp, hb⟩ := h.stores
  cases rec with
  | v1UnregisterBroker n => exact absurd rfl (hrec n)
  | v1AccessControlEntry e =>
    cases hpat : e.patternType <;> simp only [apply, hpat] <;> exact ⟨rfl, ht, hp, hb⟩
  | v1ProducerIds r =>
    show Agrees k (if r.nextProducerId > S.nextProducerId then _ else S)
      (if r.nextProducerId > S.nextProducerId then _ else _)
    by_cases hgt : r.nextProducerId > S.nextProducerId
    · rw [if_pos hgt, if_pos hgt]
      exact ⟨rfl, ht, hp, hb⟩
    · rw [if_neg hgt, if_neg hgt]
      exact ⟨rfl, ht, hp, hb⟩
  | v1Topic | v1Partition | v1BrokerRegistration | v1DeleteTopic | v1TopicConfig
  | v1DeleteAccessControlEntry | v1KRaftVersion | v1Voters | v1ClientMetricsConfig
  | v1PartitionDirAssignment | v1GroupConfig => cases hv
  | _ => exact ⟨rfl, ht, hp, hb⟩

lemma Agrees.accepts_verbatim (h : Agrees k S J) (hv : Verbatim rec) (hacc : S.accepts rec) :
    J.accepts rec = true := by
  cases rec with
  | v1ProducerIds r =>
    have hnext : J.nextProducerId = S.nextProducerId := by rw [h.rest]; rfl
    have hepoch : J.brokerEpoch r.brokerId = S.brokerEpoch r.brokerId := by
      unfold brokerEpoch
      cases hb : S.brokers[r.brokerId]? with
      | none => rw [h.brokers.none_right hb]
      | some b =>
        obtain ⟨b', hb', hagree⟩ := h.brokers.right hb
        rw [hb', map_some, map_some, hagree.brokerEpoch_eq]
    simpa only [accepts, validate, hnext, hepoch] using hacc
  | v1Topic | v1Partition | v1BrokerRegistration | v1DeleteTopic | v1TopicConfig
  | v1DeleteAccessControlEntry | v1KRaftVersion | v1Voters | v1ClientMetricsConfig
  | v1PartitionDirAssignment | v1GroupConfig => cases hv
  | _ => rfl

/-! ## Whole maps of overrides -/

/-- A map of overrides: the code of its records, the field that holds it, and its record kind. -/
structure Overrides where
  code : ℤ
  field : Component MetadataImage (ExtTreeMap String ConfigMap)
  kind : String → ConfigMap → MetadataRecord
  /-- A key is merged into the overrides in force. -/
  decode : ∀ scan J name key value,
    fromKraft scan (.config ⟨code, name, key, value⟩) J =
      .ok (kind name (setKey ((field.get J)[name]?.getD ∅) key value))
  /-- The merged map replaces the overrides. -/
  apply : ∀ J name m, J.apply (kind name m) = field.set (replaceConfig (field.get J) name m) J

def topicOverrides : Overrides where
  code := 2
  field := topicConfigsField
  kind name m := .v1TopicConfig ⟨name, m⟩
  decode _ _ _ _ _ := rfl
  apply _ _ _ := rfl

def clientMetricsOverrides : Overrides where
  code := 16
  field := clientMetricsConfigsField
  kind name m := .v1ClientMetricsConfig ⟨name, m⟩
  decode _ _ _ _ _ := rfl
  apply _ _ _ := rfl

def groupOverrides : Overrides where
  code := 32
  field := groupConfigsField
  kind name m := .v1GroupConfig ⟨name, m⟩
  decode _ _ _ _ _ := rfl
  apply _ _ _ := rfl

lemma replaceConfig_self {m : ExtTreeMap String ConfigMap}
    (hm : ∀ (n : String) (v : ConfigMap), m[n]? = some v → v.isEmpty = false) (name : String) :
    replaceConfig m name (m[name]?.getD ∅) = m := by
  refine ext_getElem? fun a => ?_
  cases hname : m[name]? with
  | none =>
    simp only [getD_none, replaceConfig, ExtTreeMap.isEmpty_empty, if_true, getElem?_erase]
    split_ifs with ha
    · rw [ha, hname]
    · rfl
  | some v =>
    simp only [getD_some, replaceConfig, hm name v hname, Bool.false_eq_true, if_false, getElem?_insert]
    split_ifs with ha
    · rw [ha, hname]
    · rfl

variable (m : ExtTreeMap String ConfigMap)

lemma getElem?_replaceConfig (name : String) (v : ConfigMap) (a : String) :
    (replaceConfig m name v)[a]? =
      if a = name then (if v.isEmpty then none else some v) else m[a]? := by
  unfold replaceConfig
  split
  · rw [getElem?_erase]
  · rw [getElem?_insert]

lemma replaceConfig_replaceConfig (name : String)
    (v w : ConfigMap) : replaceConfig (replaceConfig m name v) name w = replaceConfig m name w := by
  refine ext_getElem? fun a => ?_
  simp only [getElem?_replaceConfig]
  split <;> rfl

lemma commitValues_overrides (o : Overrides) (name : String)
    (ds : List (String × Option String))
    (hm : ∀ (n : String) (v : ConfigMap), (o.field.get J)[n]? = some v → v.isEmpty = false)
    (hacc : ∀ m v, (o.field.set m J).accepts (o.kind name v)) :
    commitValues scan J (ds.map fun d => .config ⟨o.code, name, d.1, d.2⟩) =
      (o.field.set (replaceConfig (o.field.get J) name
          (ds.foldl (fun m d => setKey m d.1 d.2) ((o.field.get J)[name]?.getD ∅))) J,
        replicate ds.length .applied) := by
  induction ds generalizing J with
  | nil =>
    rw [foldl_nil, replaceConfig_self hm, o.field.set_get]
    rfl
  | cons d ds ih =>
    have haccJ : J.accepts (o.kind name (setKey ((o.field.get J)[name]?.getD ∅) d.1 d.2)) := by
      have := hacc (o.field.get J) (setKey ((o.field.get J)[name]?.getD ∅) d.1 d.2)
      rwa [o.field.set_get] at this
    set v := setKey ((o.field.get J)[name]?.getD ∅) d.1 d.2 with hv
    have hstep := commitValue_applied (o.decode scan J name d.1 d.2) haccJ
    rw [o.apply, ← hv] at hstep
    have hget : (replaceConfig (o.field.get J) name v)[name]?.getD ∅ = v := by
      rw [getElem?_replaceConfig, if_pos rfl]
      split_ifs with hempty
      · rw [getD_none, ExtTreeMap.isEmpty_iff.mp hempty]
      · rfl
    have hrest := ih (J := o.field.set (replaceConfig (o.field.get J) name v) J)
      (by rw [o.field.get_set]; exact replaceConfig_nonempty hm name v)
      (by intro m w; rw [o.field.set_set]; exact hacc m w)
    rw [o.field.get_set, o.field.set_set, hget, replaceConfig_replaceConfig] at hrest
    simp only [map_cons, commitValues, hstep, hrest, foldl_cons, ← hv, length_cons, replicate_succ]

/-- The keys that a whole map of overrides sets, and those that it drops. -/
def configDeltas (configs old : ConfigMap) : List (String × Option String) :=
  (configs.toList.map fun e => (e.1, some e.2)) ++
    (old.toList.filter fun e => !configs.contains e.1).map fun e => (e.1, none)

lemma foldl_configDeltas (configs old : ConfigMap) :
    (configDeltas configs old).foldl (fun m d => setKey m d.1 d.2) old = configs := by
  set dropped := (old.toList.filter fun e => !configs.contains e.1).map Prod.fst with hdropped
  have hfold : (configDeltas configs old).foldl (fun m d => setKey m d.1 d.2) old =
      dropped.foldl erase (rebuild old configs.toList) := by
    rw [configDeltas, foldl_append, foldl_map, foldl_map, hdropped, foldl_map]
    rfl
  rw [hfold]
  refine ext_getElem? fun a => ?_
  rw [getElem?_foldl_erase]
  cases ha : configs[a]? with
  | some v =>
    have hlive : a ∉ dropped := by
      intro hmem
      obtain ⟨e, he, rfl⟩ := mem_map.mp hmem
      have := (mem_filter.mp he).2
      simp [contains_eq_isSome_getElem?, ha] at this
    rw [if_neg hlive, getElem?_rebuild_of_mem (nodup_keys_toList _) ((mem_toList _).mpr ha)]
  | none =>
    have hkeys : a ∉ configs.toList.map Prod.fst := by
      intro hmem
      obtain ⟨⟨a', v⟩, he, rfl⟩ := mem_map.mp hmem
      have := (mem_toList _).mp he
      exact absurd (ha.symm.trans this) (by simp)
    split
    · rfl
    · rename_i hlive
      rw [getElem?_rebuild_of_not_mem hkeys]
      by_contra hold
      obtain ⟨v, hv⟩ := ne_none_iff_exists'.mp hold
      refine hlive (mem_map.mpr ⟨(a, v), mem_filter.mpr ⟨(mem_toList _).mpr hv, ?_⟩, rfl⟩)
      simp [contains_eq_isSome_getElem?, ha]

lemma configToKraft_eq (code : ℤ) (name : String) (configs old : ConfigMap) (level : ℤ) :
    (configToKraft code name configs old).map (frame level) =
      (configDeltas configs old).map fun d => .config ⟨code, name, d.1, d.2⟩ := by
  rw [configDeltas, configToKraft, map_append, map_append, map_map, map_map, map_map, map_map]
  rfl

/-- **A whole map of overrides is committed as it was submitted.** -/
theorem commitValues_configToKraft (scan : Scan) (o : Overrides) (name : String) (configs : ConfigMap) (level : ℤ)
    (hm : ∀ (n : String) (v : ConfigMap), (o.field.get J)[n]? = some v → v.isEmpty = false)
    (hacc : ∀ m v, (o.field.set m J).accepts (o.kind name v)) :
    commitValues scan J ((configToKraft o.code name configs
        ((o.field.get J)[name]?.getD ∅)).map (frame level)) =
      (J.apply (o.kind name configs), replicate (configToKraft o.code name configs
        ((o.field.get J)[name]?.getD ∅)).length .applied) := by
  set old : ConfigMap := (o.field.get J)[name]?.getD ∅ with hold
  have hlen : (configDeltas configs old).length = (configToKraft o.code name configs old).length := by
    rw [← length_map (frame level), configToKraft_eq, length_map]
  rw [configToKraft_eq, commitValues_overrides o name _ hm hacc, o.apply, ← hold, foldl_configDeltas, hlen]

/-! ## Access control entries -/

/-- The buckets with the entries that a predicate keeps; a bucket that runs empty goes. -/
def retainWith {κ : Type} [Ord κ] (m : ExtTreeMap κ (List AclEntry)) (keep : AclEntry → Bool) :
    ExtTreeMap κ (List AclEntry) :=
  m.filterMap fun _ v => if (v.filter keep).isEmpty then none else some (v.filter keep)

def keepAcls (I : MetadataImage) (keep : AclEntry → Bool) : MetadataImage :=
  { I with
    aclsLiteral := retainWith I.aclsLiteral keep
    aclsPrefixed := retainWith I.aclsPrefixed keep }

section
variable {κ : Type} [Ord κ] [Std.TransOrd κ] [Std.LawfulEqOrd κ] {m : ExtTreeMap κ (List AclEntry)}
variable {keep : AclEntry → Bool}

lemma mem_retainWith {e : AclEntry} {k : κ} :
    (∃ v, (retainWith m keep)[k]? = some v ∧ e ∈ v) ↔ (∃ v, m[k]? = some v ∧ e ∈ v) ∧ keep e = true := by
  simp only [retainWith, getElem?_filterMap]
  cases m[k]? with
  | none => simp
  | some v =>
    simp only [bind_some, some.injEq, exists_eq_left', ite_none_left_eq_some]
    constructor
    · rintro ⟨w, ⟨-, rfl⟩, he⟩
      exact mem_filter.mp he
    · intro he
      have hmem : e ∈ v.filter keep := mem_filter.mpr he
      refine ⟨_, ⟨?_, rfl⟩, hmem⟩
      simpa using ne_nil_of_mem hmem

lemma retainWith_ne_nil : ∀ (k : κ) v, (retainWith m keep)[k]? = some v → v ≠ [] := by
  intro k v hv
  simp only [retainWith, getElem?_filterMap] at hv
  obtain ⟨w, -, hkept⟩ := bind_eq_some_iff.mp hv
  simp only [ite_none_left_eq_some] at hkept
  obtain ⟨hne, heq⟩ := hkept
  cases heq
  simpa using hne

lemma retainWith_retainWith (keep keep' : AclEntry → Bool) :
    retainWith (retainWith m keep) keep' = retainWith m fun e => keep e && keep' e := by
  refine ext_getElem? fun k => ?_
  simp only [retainWith, getElem?_filterMap]
  cases m[k]? with
  | none => rfl
  | some v =>
    have hfilter : (v.filter keep).filter keep' = v.filter fun e => keep e && keep' e := by
      rw [filter_filter]
      simp only [Bool.and_comm]
    simp only [bind_some]
    by_cases hempty : (v.filter keep).isEmpty
    · have hnil : v.filter (fun e => keep e && keep' e) = [] := by
        rw [← hfilter, isEmpty_iff.mp hempty]
        rfl
      simp [hempty, hnil]
    · simp [hempty, hfilter]

lemma retainWith_congr {keep' : AclEntry → Bool} (h : ∀ (k : κ) v, m[k]? = some v → ∀ e ∈ v, keep e = keep' e) :
    retainWith m keep = retainWith m keep' := by
  refine ext_getElem? fun k => ?_
  simp only [retainWith, getElem?_filterMap]
  cases hk : m[k]? with
  | none => rfl
  | some v => simp only [bind_some, filter_congr (h k v hk)]

lemma retainWith_true (h : ∀ (k : κ) v, m[k]? = some v → v ≠ []) : (retainWith m fun _ => true) = m := by
  refine ext_getElem? fun k => ?_
  simp only [retainWith, getElem?_filterMap]
  cases hk : m[k]? with
  | none => rfl
  | some v => simp [h k v hk]

end
variable {e : AclEntry}

lemma mem_allAcls :
    e ∈ J.allAcls ↔
      (∃ k : ResourceType × String, ∃ v, J.aclsLiteral[k]? = some v ∧ e ∈ v) ∨
        ∃ k : ResourceType, ∃ v, J.aclsPrefixed[k]? = some v ∧ e ∈ v := by
  simp only [allAcls, mem_append, mem_flatMap, Prod.exists, mem_toList]

lemma mem_allAcls_keepAcls {keep : AclEntry → Bool} :
    e ∈ (keepAcls J keep).allAcls ↔ e ∈ J.allAcls ∧ keep e = true := by
  simp only [mem_allAcls, keepAcls, mem_retainWith, exists_and_right, or_and_right]

lemma keepAcls_congr {keep keep' : AclEntry → Bool} (h : ∀ e ∈ J.allAcls, keep e = keep' e) :
    keepAcls J keep = keepAcls J keep' := by
  unfold keepAcls
  rw [retainWith_congr fun key v hv e he => h e (mem_allAcls.mpr (.inl ⟨key, v, hv, he⟩)),
    retainWith_congr fun key v hv e he => h e (mem_allAcls.mpr (.inr ⟨key, v, hv, he⟩))]

lemma mem_of_find?_acls {id : Uuid} (h : (scan.acls J).find? (aclId · == id) = some e) :
    e ∈ J.allAcls ∧ aclId e = id :=
  ⟨(scan.acls_perm J).mem_iff.mp (mem_of_find?_eq_some h), by simpa using List.find?_some h⟩

lemma find?_acls (scan : Scan) (hids : ∀ e ∈ J.allAcls, ∀ e' ∈ J.allAcls, aclId e = aclId e' → e = e')
    (he : e ∈ J.allAcls) : (scan.acls J).find? (aclId · == aclId e) = some e := by
  have hsome : ((scan.acls J).find? (aclId · == aclId e)).isSome :=
    find?_isSome.mpr ⟨e, (scan.acls_perm J).mem_iff.mpr he, beq_self_eq_true (aclId e)⟩
  obtain ⟨x, hx⟩ := isSome_iff_exists.mp hsome
  obtain ⟨hmem, hid⟩ := mem_of_find?_acls hx
  rw [hx, hids x hmem e he hid]

lemma exactFilter_matches (e x : AclEntry) : (exactFilter e).matches x = (x == e) := by
  obtain ⟨rt, rn, pt, pr, ho, op, pe⟩ := e
  obtain ⟨rt', rn', pt', pr', ho', op', pe'⟩ := x
  rw [Bool.eq_iff_iff]
  simp only [exactFilter, AclEntryFilter.matches, all_some, Bool.and_eq_true, beq_iff_eq, AclEntry.mk.injEq]
  constructor
  · rintro ⟨⟨⟨⟨⟨⟨h1, h2⟩, h3⟩, h4⟩, h5⟩, h6⟩, h7⟩
    exact ⟨h1.symm, h2.symm, h3.symm, h4.symm, h5.symm, h6.symm, h7.symm⟩
  · rintro ⟨h1, h2, h3, h4, h5, h6, h7⟩
    exact ⟨⟨⟨⟨⟨⟨h1.symm, h2.symm⟩, h3.symm⟩, h4.symm⟩, h5.symm⟩, h6.symm⟩, h7.symm⟩

lemma commitValues_removals (scan : Scan) {es : List AclEntry} (hnd : es.Nodup)
    (hes : ∀ e ∈ es, e ∈ J.allAcls)
    (hids : ∀ e ∈ J.allAcls, ∀ e' ∈ J.allAcls, aclId e = aclId e' → e = e')
    (hlit : ∀ (k : ResourceType × String) v, J.aclsLiteral[k]? = some v → v ≠ [])
    (hpre : ∀ (k : ResourceType) v, J.aclsPrefixed[k]? = some v → v ≠ []) :
    commitValues scan J (es.map fun e => .removeAccessControlEntry (aclId e)) =
      (keepAcls J fun x => !es.contains x, replicate es.length .applied) := by
  induction es generalizing J with
  | nil =>
    have hkeep : (keepAcls J fun x => !([] : List AclEntry).contains x) = J := by
      simp only [contains_nil, Bool.not_false, keepAcls, retainWith_true hlit, retainWith_true hpre]
    rw [hkeep]
    rfl
  | cons e es ih =>
    rw [nodup_cons] at hnd
    have hfind := find?_acls scan hids (hes e mem_cons_self)
    have hdecode : fromKraft scan (.removeAccessControlEntry (aclId e)) J =
        .ok (.v1DeleteAccessControlEntry (exactFilter e)) := by
      simp only [fromKraft, hfind]
    have hstep := commitValue_applied hdecode rfl
    have happly : J.apply (.v1DeleteAccessControlEntry (exactFilter e)) = keepAcls J fun x => x != e := by
      show keepAcls J (fun x => !(exactFilter e).matches x) = _
      simp only [exactFilter_matches]
      rfl
    have hrest := ih (J := keepAcls J fun x => x != e) hnd.2
      (fun x hx => mem_allAcls_keepAcls.mpr ⟨hes x (mem_cons_of_mem e hx),
        bne_iff_ne.mpr fun heq => hnd.1 (heq ▸ hx)⟩)
      (fun x hx x' hx' => hids x (mem_allAcls_keepAcls.mp hx).1 x' (mem_allAcls_keepAcls.mp hx').1)
      retainWith_ne_nil retainWith_ne_nil
    have hboth : (keepAcls (keepAcls J fun x => x != e) fun x => !es.contains x) =
        keepAcls J fun x => !(e :: es).contains x := by
      simp only [keepAcls, retainWith_retainWith, contains_cons, Bool.not_or]
      rfl
    rw [hboth] at hrest
    simp only [map_cons, commitValues, hstep, happly, hrest, length_cons, replicate_succ]

lemma nodup_allAcls (h : WellFormed S) : S.allAcls.Nodup := by
  have hflat : ∀ {κ : Type} [Ord κ] [Std.TransOrd κ] [Std.LawfulEqOrd κ]
      {m : ExtTreeMap κ (List AclEntry)} {routed : κ → AclEntry → Prop}
      (_ : ∀ (k : κ) es, m[k]? = some es → AclBucket (routed k) es)
      (_ : ∀ k k' e, routed k e → routed k' e → k = k'),
      (m.toList.flatMap (·.2)).Nodup := by
    intro κ _ _ _ m routed hm hkey
    rw [nodup_flatMap]
    refine ⟨fun e he => (hm e.1 e.2 ((mem_toList m).mp he)).nodup, ?_⟩
    have hkeys := pairwise_map.mp (nodup_keys_toList m)
    refine hkeys.imp_of_mem fun {a b} ha hb hne => ?_
    intro x hxa hxb
    exact hne (hkey _ _ x ((hm a.1 a.2 ((mem_toList m).mp ha)).routed x hxa)
      ((hm b.1 b.2 ((mem_toList m).mp hb)).routed x hxb))
  unfold allAcls
  rw [nodup_append]
  refine ⟨hflat h.aclLiteral fun k k' e hk hk' => hk.2.symm.trans hk'.2,
    hflat h.aclPrefixed fun k k' e hk hk' => hk.2.symm.trans hk'.2, ?_⟩
  intro a ha b hb heq
  obtain ⟨⟨k, es⟩, he, ha⟩ := mem_flatMap.mp ha
  obtain ⟨⟨k', es'⟩, he', hb⟩ := mem_flatMap.mp hb
  have hlit := (h.aclLiteral k es ((mem_toList _).mp he)).routed a ha
  have hpre := (h.aclPrefixed k' es' ((mem_toList _).mp he')).routed b hb
  rw [heq, hpre.1] at hlit
  exact absurd hlit.1 (by decide)

/-! ## Lookups in images that agree -/

variable {n : String} {t : TopicRecord}

lemma topicNameForId_of_related
    (h : Related (fun _ (a b : TopicRecord) => b.topicId = a.topicId ∧ b.name = a.name)
      S.topics J.topics) (hwf : WellFormed S) (hids : IdsNamed S) (ht : S.topics[n]? = some t) :
    topicNameForId scan J t.topicId = some n := by
  have hmem : ∀ x : TopicRecord, x ∈ scan.topics J ↔ ∃ m : String, J.topics[m]? = some x := by
    intro x
    rw [(scan.topics_perm J).mem_iff, mem_map]
    constructor
    · rintro ⟨⟨m, x'⟩, hx, rfl⟩
      exact ⟨m, (mem_toList _).mp hx⟩
    · rintro ⟨m, hm⟩
      exact ⟨(m, x), (mem_toList _).mpr hm, rfl⟩
  obtain ⟨b, hb, hbid, -⟩ := h.right ht
  have hsome : ((scan.topics J).find? (·.topicId == t.topicId)).isSome :=
    find?_isSome.mpr ⟨b, (hmem b).mpr ⟨n, hb⟩, by simp [hbid]⟩
  obtain ⟨x, hx⟩ := isSome_iff_exists.mp hsome
  have hxid : x.topicId = t.topicId := by simpa using find?_some hx
  obtain ⟨m, hm⟩ := (hmem x).mp (mem_of_find?_eq_some hx)
  obtain ⟨a, ha, haid, haname⟩ := h.left hm
  have hname : m = n := by
    have hm' := hids m a ha
    rw [← haid, hxid, hids n t ht] at hm'
    exact (some.inj hm').symm
  have hxname : x.name = n := by rw [haname, hwf.topicName m a ha, hname]
  rw [Metadata.topicNameForId, hx, map_some, hxname]

lemma Agrees.topicNameForId (h : Agrees k S J) (hwf : WellFormed S) (hids : IdsNamed S)
    (ht : S.topics[n]? = some t) :
    topicNameForId scan J t.topicId = some n :=
  topicNameForId_of_related (h.topics.mono fun _ _ _ hab => ⟨hab.topicId_eq, hab.name_eq⟩) hwf hids ht

variable {p : PartitionRecord}

lemma Agrees.partition_some (h : Agrees k S J) {i : ℤ} (hp : S.partition n i = some p) :
    ∃ q, J.partition n i = some q ∧ PartitionAgrees k n i p q := by
  obtain ⟨ps, hps, hpi⟩ := bind_eq_some_iff.mp hp
  obtain ⟨qs, hqs, hrel⟩ := h.partitions.right hps
  obtain ⟨q, hq, hagree⟩ := hrel.right hpi
  exact ⟨q, by rw [partition, hqs, bind_some, hq], hagree⟩

lemma Agrees.partition_isNone (h : Agrees k S J) (n : String) (i : ℤ) :
    (J.partition n i).isNone = (S.partition n i).isNone := by
  cases hp : S.partition n i with
  | some p =>
    obtain ⟨q, hq, -⟩ := h.partition_some hp
    rw [hq]
    rfl
  | none =>
    have hnone : J.partition n i = none := by
      by_contra hsome
      obtain ⟨q, hq⟩ := ne_none_iff_exists'.mp hsome
      obtain ⟨qs, hqs, hqi⟩ := bind_eq_some_iff.mp hq
      obtain ⟨ps, hps, hrel⟩ := h.partitions.left hqs
      obtain ⟨p, hpi, -⟩ := hrel.left hqi
      rw [partition, hps, bind_some, hpi] at hp
      cases hp
    rw [hnone]

/-! ## One record -/

/-- The values of a record, committed to an image that agrees with the scratch image. -/
def Commits (scan : Scan) (k : Slack) (S J : MetadataImage) (rec : MetadataRecord)
    (krs : List KraftMetadataRecord) : Prop :=
  ∃ J', commitValues scan J (krs.map (frame S.framingLevel)) =
      (J', expectedOutcomes S rec krs.length) ∧
    Agrees (k.note S rec) (S.apply rec) J'

lemma commitValues_singleton {kr : KraftMetadataRecord} (h : fromKraft scan kr J = .ok rec) (hacc : J.accepts rec) :
    commitValues scan J [kr] = (J.apply rec, [.applied]) := by
  simp only [commitValues, commitValue_applied h hacc]

variable {krs : List KraftMetadataRecord}

lemma commits_verbatim (h : Agrees k S J) (hv : Verbatim rec) (hacc : S.accepts rec)
    (hkrs : toKraftRecords scan rec S = .ok krs) : Commits scan k S J rec krs := by
  obtain ⟨kr, hlist, hdecode⟩ := fromKraft_verbatim hv hkrs S.framingLevel scan J
  have hone : krs.length = 1 := by
    rw [← length_map (frame S.framingLevel), hlist]
    rfl
  have hcommit := commitValues_singleton hdecode (h.accepts_verbatim hv hacc)
  refine ⟨J.apply rec, ?_, ?_⟩
  · rw [hlist, hcommit, hone]
    cases rec with
    | v1Topic => cases hv
    | _ => rfl
  · cases rec with
    | v1UnregisterBroker n =>
      refine ⟨?_, h.topics, h.partitions, ?_⟩
      · rw [h.rest]
        rfl
      · refine h.brokers.erase fun j a b hj hab => ⟨hab.1, fun hmem => hab.2 fun hj' => hmem ?_⟩
        exact mem_filter.mpr ⟨hj', by simpa using hj⟩
    | v1Topic | v1Partition | v1DeleteTopic | v1PartitionDirAssignment | v1BrokerRegistration =>
      cases hv
    | _ => exact h.apply_verbatim hv (by intro n hn; cases hn)

lemma commits_brokerRegistration (h : Agrees k S J) {b : BrokerRegistrationRecord}
    (hkrs : toKraftRecords scan (.v1BrokerRegistration b) S = .ok krs) :
    Commits scan k S J (.v1BrokerRegistration b) krs := by
  obtain ⟨kb, hkb, hkrs⟩ := bind_eq_ok.mp hkrs
  cases hkrs
  refine ⟨_, commitValues_singleton (fromKraft_registerBroker hkb S.framingLevel scan J) rfl, ?_,
    h.topics, h.partitions, ?_⟩
  · rw [h.rest]
    rfl
  · refine h.brokers.insert ⟨.inr ⟨_, rfl⟩, fun hmem => ?_⟩ fun j a c hj hac => ⟨hac.1, fun hmem => ?_⟩
    · simp only [Slack.note] at hmem
      split at hmem
      · assumption
      · simp at hmem
    · refine hac.2 fun hj' => hmem ?_
      simp only [Slack.note]
      split
      · exact mem_filter.mpr ⟨hj', by simpa using hj⟩
      · exact mem_cons_of_mem _ hj'

variable {a : TopicRecord}

/-- A topic that is registered again, as `validate` lets it through, changes nothing. -/
lemma apply_topic_of_exists (hwf : WellFormed S) (hids : IdsNamed S)
    (ha : S.topics[t.name]? = some a) (hacc : S.accepts (.v1Topic t)) :
    S.apply (.v1Topic t) = S := by
  have hsame : a.topicId = t.topicId ∧ a.replicationFactor = t.replicationFactor := by
    simp only [accepts, validate, ha] at hacc
    by_contra hne
    rw [if_pos (by tauto)] at hacc
    cases hacc
  have hrec : { t with partitions := a.partitions } = a := by
    have hname := hwf.topicName _ a ha
    obtain ⟨name, id, count, rf⟩ := a
    obtain ⟨name', id', count', rf'⟩ := t
    simp_all
  have hid : S.topicIds[t.topicId]? = some t.name := hsame.1 ▸ hids _ a ha
  have hkept : (some a).filter (·.topicId != t.topicId) = none := by simp [Option.filter, hsame.1]
  simp only [apply, ha, map_some, getD_some, hrec, hkept, dropId, insert_eq_self ha, insert_eq_self hid]

lemma validate_topic_of_le (ha : J.topics[t.name]? = some a) (hle : t.partitions ≤ J.topicPartitionCount t.name) :
    J.validate (.v1Topic t) = .error (.topicExists t.name) := by
  simp only [validate, ha]
  rw [if_pos (Or.inr (Or.inr hle))]

lemma commits_topic (h : Agrees k S J) (hwf : WellFormed S) (hids : IdsNamed S)
    (hacc : S.accepts (.v1Topic t)) (hkrs : toKraftRecords scan (.v1Topic t) S = .ok krs) :
    Commits scan k S J (.v1Topic t) krs := by
  cases hkrs
  cases ha : S.topics[t.name]? with
  | some a =>
    obtain ⟨b, hb, -⟩ := h.topics.right ha
    have hknown : S.topics.contains t.name := by simp [contains_eq_isSome_getElem?, ha]
    refine ⟨J, ?_, ?_⟩
    · have hval : J.validate (.v1Topic (topicFromKraft ⟨t.name, t.topicId⟩ J)) =
          .error (.topicExists t.name) :=
        validate_topic_of_le (t := topicFromKraft ⟨t.name, t.topicId⟩ J) hb le_rfl
      have hcommit : commitValue scan J (.topic ⟨t.name, t.topicId⟩) = (J, .rejected (.topicExists t.name)) := by
        simp only [commitValue, fromKraft, hval]
      simp only [map_cons, map_nil, frame, strip, onWire, commitValues, hcommit, expectedOutcomes, hknown, if_true]
    · rwa [apply_topic_of_exists hwf hids ha hacc, Slack.note, if_pos (.inl hknown)]
  | none =>
    have hnew : S.topics.contains t.name = false := by simp [contains_eq_isSome_getElem?, ha]
    have hnone : S.partitions[t.name]? = none := by
      by_contra hsome
      obtain ⟨parts, hparts⟩ := ne_none_iff_exists'.mp hsome
      have := (hwf.partitionOwner _ _ hparts).1
      rw [hnew] at this
      cases this
    have hT := h.topics.none_right ha
    have hP := h.partitions.none_right hnone
    have hrec : topicFromKraft ⟨t.name, t.topicId⟩ J = ⟨t.name, t.topicId, 0, 1⟩ := by
      simp [topicFromKraft, topicPartitionCount, partitionsOf, hP]
    have hdecode : fromKraft scan (frame S.framingLevel (.topic ⟨t.name, t.topicId⟩)) J =
        .ok (.v1Topic ⟨t.name, t.topicId, 0, 1⟩) := by rw [← hrec]; rfl
    refine ⟨J.apply (.v1Topic ⟨t.name, t.topicId, 0, 1⟩), ?_, ?_⟩
    · simp only [expectedOutcomes, hnew]
      exact commitValues_singleton hdecode (by simp [accepts, validate, hT])
    · obtain ⟨T, P, B, rfl, ht, hp, hb⟩ := h.stores
      simp only [apply, ha, hT, Slack.note, hnew]
      refine ⟨rfl, ht.insert ⟨rfl, fun hmem => ?_⟩ ?_, ?_, ?_⟩
      · by_cases hrf : t.replicationFactor = 1
        · simp [hrf]
        · simp [hrf] at hmem
      · intro n a b _ hab
        refine ⟨hab.1, fun hmem => hab.2 fun hn => hmem ?_⟩
        split
        · exact hn
        · exact mem_cons_of_mem _ hn
      · split <;> exact hp
      · split <;> exact hb

lemma replicationFactorFrom_of_le {rf : ℤ} {replicas : List NodeId}
    (h : (replicas.length : ℤ) ≤ i16Max) : replicationFactorFrom rf replicas = replicas.length :=
  if_pos h

variable {k' : Slack} {k : Slack}

lemma TopicAgrees.notePartition {b : TopicRecord} (h : TopicAgrees k n a b)
    (isNew : Bool) (p : PartitionRecord)
    (hk : ¬ (p.replicas.length : ℤ) ≤ i16Max → n ∈ k.factors → n ∈ k'.factors) :
    TopicAgrees k' n (notePartition isNew p a) (notePartition isNew p b) := by
  obtain ⟨hrec, heq⟩ := h
  refine ⟨?_, fun hmem => ?_⟩
  · rw [hrec]
    rfl
  · by_cases hfits : (p.replicas.length : ℤ) ≤ i16Max
    · rw [hrec]
      simp only [MetadataImage.notePartition, replicationFactorFrom_of_le hfits]
    · rw [heq fun hn => hmem (hk hfits hn)]

lemma Related.getD {P P' : ExtTreeMap String PartitionMap}
    (h : Related (fun n => Related (PartitionAgrees k n)) P P') (n : String) :
    Related (PartitionAgrees k n) (P[n]?.getD ∅) (P'[n]?.getD ∅) := by
  cases hn : P[n]? with
  | none =>
    rw [h.none_right hn]
    intro i
    simp
  | some ps =>
    obtain ⟨qs, hqs, hrel⟩ := h.right hn
    rwa [hqs]

lemma PartitionAgrees.mono {i : ℤ} {q : PartitionRecord}
    (h : PartitionAgrees k n i p q) (hb : k.bumps ≤ k'.bumps)
    (hk : (n, i) ∈ k.partitions → (n, i) ∈ k'.partitions) : PartitionAgrees k' n i p q := by
  obtain ⟨hrec, ⟨hge, hle⟩, heq⟩ := h
  exact ⟨hrec, ⟨hge, by omega⟩, fun hmem => heq fun hn => hmem (hk hn)⟩

lemma commits_partition (h : Agrees k S J) (hwf : WellFormed S) (hids : IdsNamed S)
    (hkrs : toKraftRecords scan (.v1Partition p) S = .ok krs) :
    Commits scan k S J (.v1Partition p) krs := by
  cases ht : S.topics[p.topic]? with
  | none => simp only [toKraftRecords, ht] at hkrs; cases hkrs
  | some t =>
    simp only [toKraftRecords, ht] at hkrs
    obtain ⟨kp, hkp, hkrs⟩ := bind_eq_ok.mp hkrs
    cases hkrs
    have hname : topicNameForId scan J t.topicId = some p.topic := h.topicNameForId hwf hids ht
    have hdecode := fromKraft_partition hkp hname S.framingLevel
    set p' := writtenPartition S.framingLevel p with hp'
    have hacc : J.accepts (.v1Partition p') := by
      have hknown : J.topics.contains p'.topic := by
        rw [h.topics.contains_eq, contains_eq_isSome_getElem?, show p'.topic = p.topic from rfl, ht]
        rfl
      simp [accepts, validate, hknown]
    have hnew := h.partition_isNone p.topic p.partition
    refine ⟨_, commitValues_singleton hdecode hacc, ?_⟩
    obtain ⟨T, P, B, rfl, hT, hP, hB⟩ := h.stores
    refine ⟨rfl, ?_, ?_, hB⟩
    · show Related _ (S.topics.modify p.topic _) (T.modify p.topic (notePartition _ p'))
      rw [show p'.topic = p.topic from rfl, show p'.partition = p.partition from rfl, hnew]
      refine hT.modify (fun a b _ _ hab => ?_) fun n a b hn hab => ⟨hab.1, fun hmem => ?_⟩
      · refine hab.notePartition _ p fun hfits hn => ?_
        simp only [Slack.note, if_neg hfits]
        exact hn
      · refine hab.2 fun hn' => hmem ?_
        simp only [Slack.note]
        split
        · exact mem_filter.mpr ⟨hn', by simpa using hn⟩
        · exact hn'
    · refine Related.insert hP ?_ fun n ps qs hn hrel => hrel.mono fun i q q' hq => ?_
      · refine (Related.getD hP p.topic).insert ⟨rfl, ?_, fun hmem => ?_⟩
          fun i q q' hi hq => hq.mono le_rfl fun hmem => ?_
        · exact ⟨le_rfl, by simp only [hp', writtenPartition]; omega⟩
        · simp only [Slack.note] at hmem
          split at hmem
          · assumption
          · simp at hmem
        · simp only [Slack.note]
          split
          · exact mem_filter.mpr ⟨hmem, by simpa using hi⟩
          · exact mem_cons_of_mem _ hmem
      · refine hq.mono le_rfl fun hmem => ?_
        simp only [Slack.note]
        split
        · exact mem_filter.mpr ⟨hmem, by simp [hn]⟩
        · exact mem_cons_of_mem _ hmem

variable {name : String}

lemma commits_deleteTopic (h : Agrees k S J) (hwf : WellFormed S) (hids : IdsNamed S)
    (hkrs : toKraftRecords scan (.v1DeleteTopic name) S = .ok krs) :
    Commits scan k S J (.v1DeleteTopic name) krs := by
  cases ht : S.topics[name]? with
  | none => simp only [toKraftRecords, ht] at hkrs; cases hkrs
  | some t =>
    simp only [toKraftRecords, ht] at hkrs
    cases hkrs
    have hname : topicNameForId scan J t.topicId = some name := h.topicNameForId hwf hids ht
    obtain ⟨b, hb, hagree⟩ := h.topics.right ht
    have hid := hagree.topicId_eq
    have hdecode : fromKraft scan (frame S.framingLevel (.removeTopic t.topicId)) J =
        .ok (.v1DeleteTopic name) := by
      simp only [frame, strip, onWire, fromKraft, hname]
    have hacc : J.accepts (.v1DeleteTopic name) := by
      simp [accepts, validate, contains_eq_isSome_getElem?, hb]
    refine ⟨_, commitValues_singleton hdecode hacc, ?_⟩
    obtain ⟨T, P, B, rfl, hT, hP, hB⟩ := h.stores
    refine ⟨?_, ?_, ?_, hB⟩
    · simp only [apply, ht, hb, dropId, hid]
    · refine hT.erase fun n a b hn hab => ⟨hab.1, fun hmem => hab.2 fun hn' => hmem ?_⟩
      exact mem_filter.mpr ⟨hn', by simpa using hn⟩
    · refine Related.erase hP fun n ps qs hn hrel => hrel.mono fun i q q' hq =>
        hq.mono le_rfl fun hmem => ?_
      exact mem_filter.mpr ⟨hmem, by simpa using hn⟩

variable {bound : ℕ}

lemma commits_dirAssignment (h : Agrees k S J) (hwf : WellFormed S) (hids : IdsNamed S)
    {r : PartitionDirAssignmentRecord} (hbumps : k.bumps < bound)
    (hf : Faithful bound S (.v1PartitionDirAssignment r))
    (hkrs : toKraftRecords scan (.v1PartitionDirAssignment r) S = .ok krs) :
    Commits scan k S J (.v1PartitionDirAssignment r) krs := by
  obtain ⟨kc, hkc, hkrs⟩ := bind_eq_ok.mp hkrs
  cases hkrs
  obtain ⟨t, p, slot, ht, hp, hslot, rfl⟩ := partitionDirAssignmentToKraft_eq_ok hkc
  obtain ⟨q, hq, hpq⟩ := h.partition_some hp
  obtain ⟨b, hb, htb⟩ := h.topics.right ht
  have hname : topicNameForId scan J t.topicId = some r.topic := h.topicNameForId hwf hids ht
  have hreplicas : q.replicas = p.replicas := by rw [hpq.1]
  have hkey := hwf.partitionKey
  obtain ⟨ps, hps, hpi⟩ := bind_eq_some_iff.mp hp
  obtain ⟨qs, hqs, hrel⟩ := h.partitions.right hps
  have htopic : p.topic = r.topic ∧ p.partition = r.partition := hkey _ _ _ _ hps hpi
  have hqtopic : q.topic = r.topic := by rw [hpq.1]; exact htopic.1
  have hqpart : q.partition = r.partition := by rw [hpq.1]; exact htopic.2
  have hepoch : q.partitionEpoch < i32Max := by
    have hle := hpq.2.1.2
    have := hf p hp
    omega
  set ds := assignedDirectories p slot r.directory with hds
  set q' : PartitionRecord := { q with directories := ds, partitionEpoch := q.partitionEpoch + 1 }
    with hq'
  have hdecode : fromKraft scan (frame S.framingLevel (.partitionChange
      { partitionId := r.partition, topicId := t.topicId, directories := some ds })) J =
      .ok (.v1Partition q') := by
    have hlen : ds.length = q.replicas.length := by rw [hds, length_assignedDirectories, hreplicas]
    simp [frame, strip, onWire, fromKraft, partitionChangeFromKraft, hname, hq, changePartition,
      changedNodes, hlen, checkedIncrement, hepoch]
    rfl
  have hacc : J.accepts (.v1Partition q') := by
    simp [accepts, validate, hq', hqtopic, contains_eq_isSome_getElem?, hb]
  have htopics : (J.apply (.v1Partition q')).topics = J.topics.insert r.topic (notePartition false q' b) := by
    show J.topics.modify q'.topic _ = _
    rw [show q'.topic = r.topic from hqtopic, show q'.partition = r.partition from hqpart, hq]
    exact modify_eq_insert hb _
  have hparts : (J.apply (.v1Partition q')).partitions =
      J.partitions.insert r.topic (qs.insert r.partition q') := by
    show upsert J.partitions q'.topic ∅ (·.insert q'.partition q') = _
    rw [upsert, show q'.topic = r.topic from hqtopic, show q'.partition = r.partition from hqpart, hqs, getD_some]
  have hassigned : (S.apply (.v1PartitionDirAssignment r)).partitions =
      S.partitions.insert r.topic (ps.insert r.partition (assignDirectory r p)) := by
    show S.partitions.modify r.topic _ = _
    rw [modify_eq_insert hps, modify_eq_insert hpi]
  refine ⟨_, commitValues_singleton hdecode hacc, ?_, ?_, ?_, h.brokers⟩
  · rw [h.rest]
    rfl
  · rw [htopics]
    show Related _ S.topics _
    rw [← insert_eq_self ht]
    refine h.topics.insert ⟨?_, fun hmem => ?_⟩ fun n a c hn hac => ⟨hac.1, fun hmem => hac.2 fun hn' => hmem ?_⟩
    · rw [htb.1]
      rfl
    · simp only [Slack.note, ht, hp, map_some, some.injEq] at hmem
      split_ifs at hmem with hcount
      · rw [htb.2 hmem]
        simp only [notePartition, replicationFactorFrom, hq', hreplicas, ← hcount, ite_self]
        rfl
      · simp at hmem
    · simp only [Slack.note]
      split
      · exact hn'
      · exact mem_cons_of_mem _ hn'
  · rw [hassigned, hparts]
    have hkeep : ∀ n i x y, PartitionAgrees k n i x y →
        PartitionAgrees (k.note S (.v1PartitionDirAssignment r)) n i x y :=
      fun n i x y hxy => hxy.mono (Nat.le_succ _) (mem_cons_of_mem _)
    refine h.partitions.insert (hrel.insert ⟨?_, ?_, fun hmem => absurd mem_cons_self hmem⟩
      fun i x y _ => hkeep _ i x y) fun n xs ys _ hxy => hxy.mono fun i x y => hkeep n i x y
    · simp only [assignDirectory, hslot]
      rw [hq', hpq.1]
    · obtain ⟨hge, hle⟩ := hpq.2.1
      simp only [assignDirectory, hslot, hq', Slack.note]
      push_cast
      omega

lemma commits_overrides (o : Overrides) {configs : ConfigMap}
    (hget : o.field.get J = o.field.get S)
    (hm : ∀ (n : String) (v : ConfigMap), (o.field.get S)[n]? = some v → v.isEmpty = false)
    (hacc : ∀ m v, (o.field.set m J).accepts (o.kind name v))
    (hnote : k.note S (o.kind name configs) = k)
    (hout : ∀ n, expectedOutcomes S (o.kind name configs) n = replicate n .applied)
    (happly : Agrees k (S.apply (o.kind name configs)) (J.apply (o.kind name configs))) :
    Commits scan k S J (o.kind name configs)
      (configToKraft o.code name configs ((o.field.get S)[name]?.getD ∅)) := by
  have hcommit := commitValues_configToKraft scan o name configs S.framingLevel (hget ▸ hm) hacc
  rw [hget] at hcommit
  refine ⟨J.apply (o.kind name configs), ?_, ?_⟩
  · rw [hcommit, hout]
  · rwa [hnote]

lemma commits_deleteAcl (h : Agrees k S J) (hwf : WellFormed S) {f : AclEntryFilter}
    (hf : Faithful bound S (.v1DeleteAccessControlEntry f)) :
    Commits scan k S J (.v1DeleteAccessControlEntry f) (deleteAclToKraft scan f S) := by
  obtain ⟨T, P, B, rfl, hT, hP, hB⟩ := h.stores
  set J : MetadataImage := { S with topics := T, partitions := P, brokers := B } with hJ
  set es := (scan.acls S).filter f.matches with hes
  have hmem : ∀ e, e ∈ es ↔ e ∈ S.allAcls ∧ f.matches e := by
    intro e
    rw [hes, mem_filter, (scan.acls_perm S).mem_iff]
  have hnd : es.Nodup := ((scan.acls_perm S).nodup_iff.mpr (nodup_allAcls hwf)).filter _
  have hcommit := commitValues_removals scan (J := J) hnd
    (fun e he => ((hmem e).mp he).1) hf
    (fun key v hv => (hwf.aclLiteral key v hv).ne_nil)
    (fun key v hv => (hwf.aclPrefixed key v hv).ne_nil)
  have hkeep : (keepAcls J fun x => !es.contains x) = J.apply (.v1DeleteAccessControlEntry f) := by
    show _ = keepAcls J fun x => !f.matches x
    have hcontains : ∀ e ∈ S.allAcls, (!es.contains e) = !f.matches e := by
      intro e he
      congr 1
      rw [Bool.eq_iff_iff, contains_iff_mem, hmem]
      exact ⟨fun hx => hx.2, fun hx => ⟨he, hx⟩⟩
    exact keepAcls_congr hcontains
  refine ⟨J.apply (.v1DeleteAccessControlEntry f), ?_, rfl, hT, hP, hB⟩
  rwa [← hkeep, deleteAclToKraft, ← hes, map_map, length_map]

/-- **The values of one accepted record**, committed to an image that agrees with the scratch image. -/
theorem agrees_step (h : Agrees k S J) (hwf : WellFormed S) (hids : IdsNamed S)
    (hbumps : k.bumps < bound) (hf : Faithful bound S rec) (hacc : S.accepts rec)
    (hkrs : toKraftRecords scan rec S = .ok krs) : Commits scan k S J rec krs := by
  cases rec with
  | v1Topic t => exact commits_topic h hwf hids hacc hkrs
  | v1Partition p => exact commits_partition h hwf hids hkrs
  | v1BrokerRegistration b => exact commits_brokerRegistration h hkrs
  | v1DeleteTopic name => exact commits_deleteTopic h hwf hids hkrs
  | v1PartitionDirAssignment r => exact commits_dirAssignment h hwf hids hbumps hf hkrs
  | v1TopicConfig c =>
    cases hkrs
    have hknown : J.topics.contains c.topic := by
      rw [h.topics.contains_eq]
      by_contra hno
      simp [accepts, validate, hno] at hacc
    refine commits_overrides topicOverrides (by rw [h.rest]; rfl) hwf.topicConfig ?_ rfl (fun _ => rfl) ?_
    · intro m v
      show accepts { J with topicConfigs := m } (.v1TopicConfig ⟨c.topic, v⟩)
      simp [accepts, validate, hknown]
    · obtain ⟨T, P, B, rfl, hT, hP, hB⟩ := h.stores
      exact ⟨rfl, hT, hP, hB⟩
  | v1ClientMetricsConfig c =>
    cases hkrs
    refine commits_overrides clientMetricsOverrides (by rw [h.rest]; rfl) hwf.clientMetricsConfig
      (fun _ _ => rfl) rfl (fun _ => rfl) ?_
    obtain ⟨T, P, B, rfl, hT, hP, hB⟩ := h.stores
    exact ⟨rfl, hT, hP, hB⟩
  | v1GroupConfig c =>
    cases hkrs
    refine commits_overrides groupOverrides (by rw [h.rest]; rfl) hwf.groupConfig
      (fun _ _ => rfl) rfl (fun _ => rfl) ?_
    obtain ⟨T, P, B, rfl, hT, hP, hB⟩ := h.stores
    exact ⟨rfl, hT, hP, hB⟩
  | v1DeleteAccessControlEntry f =>
    cases hkrs
    exact commits_deleteAcl h hwf hf
  | v1Voters | v1KRaftVersion => cases hkrs
  | v1DelegationToken t | v1BrokerConfig c => refine commits_verbatim h ?_ hacc hkrs; exact hf
  | _ => refine commits_verbatim h ?_ hacc hkrs; trivial

lemma IdsNamed.apply (hids : IdsNamed S) (hwf : WellFormed S)
    (hf : ∀ t, rec = .v1Topic t → Faithful bound S rec) (hacc : S.accepts rec) : IdsNamed (S.apply rec) := by
  cases rec with
  | v1Topic t =>
    cases ha : S.topics[t.name]? with
    | some a => rw [apply_topic_of_exists hwf hids ha hacc]; exact hids
    | none =>
      intro n t' ht'
      simp only [apply, ha, filter_none, dropId, getElem?_insert] at ht' ⊢
      split at ht'
      · rename_i hn
        cases ht'
        rw [if_pos rfl, hn]
      · rw [if_neg (hf t rfl ha n t' ht')]
        exact hids n t' ht'
  | v1Partition p =>
    intro n t' ht'
    simp only [apply, getElem?_modify] at ht'
    split at ht'
    · rename_i hn
      obtain ⟨t, ht, rfl⟩ := map_eq_some_iff.mp ht'
      exact hids n t (hn ▸ ht)
    · exact hids n t' ht'
  | v1DeleteTopic name =>
    intro n t' ht'
    simp only [apply, getElem?_erase] at ht' ⊢
    split at ht'
    · cases ht'
    · rename_i hn
      cases hname : S.topics[name]? with
      | none => exact hids n t' ht'
      | some t =>
        simp only [dropId, getElem?_erase]
        rw [if_neg]
        · exact hids n t' ht'
        · intro heq
          have := hids n t' ht'
          rw [heq, hids name t hname] at this
          exact hn (some.inj this).symm
  | v1AccessControlEntry e => cases hpat : e.patternType <;> simp only [apply, hpat] <;> exact hids
  | v1ProducerIds r =>
    simp only [apply]
    split <;> exact hids
  | _ => exact hids

lemma Slack.bumps_note (k : Slack) (S : MetadataImage) (rec : MetadataRecord) :
    (k.note S rec).bumps ≤ k.bumps + 1 := by
  cases rec with
  | v1Topic t =>
    simp only [Slack.note]
    split <;> simp
  | v1PartitionDirAssignment r => exact le_rfl
  | _ => exact Nat.le_succ _

end

/-! ## A whole request -/

section
variable (assignBase : ℤ) (scan : Scan)

/-- Every record of a request keeps to `Faithful` when its turn comes. -/
def AllFaithful (bound : ℕ) : Submission → List MetadataRecord → Prop
  | _, [] => True
  | s, rec :: rs =>
    Faithful bound s.scratch (s.stamp assignBase rec) ∧
      match s.step assignBase scan rec with
      | .error _ => True
      | .ok s' => AllFaithful bound s' rs

instance decidableAllFaithful (bound : ℕ) :
    ∀ s rs, Decidable (AllFaithful assignBase scan bound s rs)
  | _, [] => .isTrue trivial
  | s, rec :: rs => by
    have := fun s => decidableAllFaithful bound s rs
    unfold AllFaithful
    refine @instDecidableAnd _ _ _ ?_
    split <;> infer_instance

/-- The slack that a request leaves and the outcomes of its values, from the records alone. -/
def ledger : Slack → Submission → List MetadataRecord → Slack × List Outcome
  | k, _, [] => (k, [])
  | k, s, rec :: rs =>
    match s.step assignBase scan rec with
    | .error _ => (k, [])
    | .ok s' =>
      let rest := ledger (k.note s.scratch (s.stamp assignBase rec)) s' rs
      (rest.1, expectedOutcomes s.scratch (s.stamp assignBase rec) (s'.blobs.length - s.blobs.length) ++ rest.2)

variable {assignBase scan} {rs : List MetadataRecord}

/-- The records of a request one after the other: agreement is carried from record to record. -/
lemma agrees_run {k : Slack} {s s' : Submission} {J : MetadataImage}
    {bound : ℕ} (h : Agrees k s.scratch J) (hwf : WellFormed s.scratch) (hids : IdsNamed s.scratch)
    (hbumps : k.bumps + rs.length ≤ bound) (hf : AllFaithful assignBase scan bound s rs)
    (hrun : Submission.run assignBase scan s rs = .ok s') :
    ∃ vs J', s'.blobs = s.blobs ++ vs ∧
      commitValues scan J vs = (J', (ledger assignBase scan k s rs).2) ∧
      Agrees (ledger assignBase scan k s rs).1 s'.scratch J' := by
  induction rs generalizing k s J with
  | nil =>
    cases hrun
    exact ⟨[], J, (List.append_nil _).symm, rfl, h⟩
  | cons rec rs ih =>
    rw [List.length_cons] at hbumps
    cases hstep : s.step assignBase scan rec with
    | error e => simp only [Submission.run, hstep] at hrun; cases hrun
    | ok s₁ =>
      simp only [Submission.run, hstep] at hrun
      simp only [AllFaithful, hstep] at hf
      obtain ⟨krs, hacc, hkrs, hs₁⟩ := Submission.step_eq_ok hstep
      set r := s.stamp assignBase rec with hr
      obtain ⟨J₁, hcommit, hagree⟩ := agrees_step h hwf hids (by omega) hf.1 hacc hkrs
      have hscratch : s₁.scratch = s.scratch.apply r := by rw [hs₁]
      have hwritten : s₁.blobs.length - s.blobs.length = krs.length := by simp [hs₁]
      have hnote := k.bumps_note s.scratch r
      obtain ⟨vs, J₂, hblobs, hvs, hagree₂⟩ := ih (J := J₁) (hscratch ▸ hagree)
        (hscratch ▸ hwf.apply hacc) (hscratch ▸ hids.apply hwf (fun _ _ => hf.1) hacc) (by omega) hf.2 hrun
      refine ⟨krs.map (frame s.scratch.framingLevel) ++ vs, J₂, ?_, ?_, ?_⟩
      · rw [hblobs, hs₁, List.append_assoc]
      · simp only [commitValues_append, hcommit, hvs, ledger, hstep, hwritten, ← hr]
      · simp only [ledger, hstep, ← hr]
        exact hagree₂

/-- **What is submitted is what is committed.** The values of an accepted request, committed from the
image it was submitted to, are applied one after the other, except for the value of a topic that
exists already, which is rejected and would change nothing. The committed image agrees with the
scratch image up to the slack of the request; a request without slack is committed exactly. -/
theorem committed_agrees_with_scratch {clusterId : Uuid} {I : MetadataImage}
    (hreach : Reachable clusterId I) (hids : IdsNamed I) {rs : List MetadataRecord} {s : Submission}
    (hrun : Submission.run assignBase scan ⟨I, [], []⟩ rs = .ok s)
    (hf : AllFaithful assignBase scan rs.length ⟨I, [], []⟩ rs) :
    ∃ J, commitValues scan I s.blobs = (J, (ledger assignBase scan {} ⟨I, [], []⟩ rs).2) ∧
      Agrees (ledger assignBase scan {} ⟨I, [], []⟩ rs).1 s.scratch J ∧
      ((ledger assignBase scan {} ⟨I, [], []⟩ rs).1.Clean → J = s.scratch) := by
  obtain ⟨vs, J, hblobs, hcommit, hagree⟩ := agrees_run (k := {}) (s := ⟨I, [], []⟩)
    (Agrees.refl {} I) hreach.wellFormed hids (by simp) hf hrun
  exact ⟨J, hblobs ▸ hcommit, hagree, hagree.eq_of_clean⟩

/-- A topic with a partition and an override is committed as it was submitted. -/
theorem committed_exactly_with_partition :
    let rs : List MetadataRecord := [.v1Topic ⟨"orders", 7, 1, 2⟩,
      .v1Partition ⟨"orders", 0, 1, [1, 2], [1, 2], 0, [], [], [], 0⟩,
      .v1TopicConfig ⟨"orders", (∅ : ConfigMap).insert "retention.ms" "1000"⟩]
    ∃ s, Submission.run 0 Scan.keyOrder ⟨new 0, [], []⟩ rs = .ok s ∧
      commitValues Scan.keyOrder (new 0) s.blobs = (s.scratch, [.applied, .applied, .applied]) := by
  intro rs
  have hok : (Submission.run 0 Scan.keyOrder ⟨new 0, [], []⟩ rs).isOk := by decide
  cases hrun : Submission.run 0 Scan.keyOrder ⟨new 0, [], []⟩ rs with
  | error e => rw [hrun] at hok; cases hok
  | ok s =>
    have hledger : ledger 0 Scan.keyOrder {} ⟨new 0, [], []⟩ rs = ({}, [.applied, .applied, .applied]) := by decide
    have hnew : Reachable 0 (new 0) := .refl
    obtain ⟨J, hcommit, -, heq⟩ := committed_agrees_with_scratch hnew
      (fun n t ht => by simp [new] at ht) hrun (by decide)
    exact ⟨s, rfl, by rw [← heq (by decide)]; exact hcommit⟩

/-- A topic is submitted with the replication factor three and committed with one; and growing a
topic is accepted when it is submitted and rejected when it is committed. -/
theorem committed_loses_replicationFactor :
    (∃ s, Submission.run 0 Scan.keyOrder ⟨new 0, [], []⟩ [.v1Topic ⟨"orders", 7, 1, 3⟩] = .ok s ∧
      (commitValues Scan.keyOrder (new 0) s.blobs).1 ≠ s.scratch) ∧
    let I := (new 0).applyAll [.v1Topic ⟨"orders", 7, 1, 1⟩,
      .v1Partition ⟨"orders", 0, 1, [1], [1], 0, [], [], [], 0⟩]
    Reachable 0 I ∧ ∃ s, Submission.run 0 Scan.keyOrder ⟨I, [], []⟩
        [.v1Topic ⟨"orders", 7, 2, 1⟩] = .ok s ∧
      (commitValues Scan.keyOrder I s.blobs).2 = [.rejected (.topicExists "orders")] := by
  refine ⟨⟨⟨_, _, _⟩, rfl, by decide⟩, reachable_of_runs (by decide), ⟨_, _, _⟩, rfl, by decide⟩

end
end Crabka.Metadata
