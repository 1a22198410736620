import Crabka.Found.Runs
import Crabka.Metadata.Image

/-!
# Reachable images

An image is reached from an empty one by records that passed `validate`. `WellFormed` collects what holds of every
such image (`Reachable.wellFormed`): entries sit under the keys they name, partition counts are right, buckets and
override maps that ran empty are gone, and the id index names live topics. Broker configurations and client quotas keep
entries that ran empty, and the id index may have lost the id of a live topic.
-/

namespace Crabka.Metadata
open Option
open Kraft (NodeId Uuid VoterSet)
open Found
open Std (ExtTreeMap)
open MetadataImage
namespace MetadataImage

/-- Images as a system: a record fires when `validate` accepts it. -/
def records : Sys MetadataImage MetadataRecord where
  enabled I rec := I.accepts rec = true
  next := apply

instance (I : MetadataImage) (rec : MetadataRecord) : Decidable (records.enabled I rec) :=
  inferInstanceAs (Decidable (I.accepts rec = true))

def Reachable (clusterId : Uuid) (I : MetadataImage) : Prop := records.AnyRun (new clusterId) I

lemma reachable_of_runs {clusterId : Uuid} {rs : List MetadataRecord}
    (h : records.Runs (new clusterId) rs) : Reachable clusterId ((new clusterId).applyAll rs) :=
  Sys.run_of_runs h

/-- The ACLs of a bucket: not empty, no duplicates, all of them routed to the bucket. -/
structure AclBucket (routed : AclEntry → Prop) (es : List AclEntry) : Prop where
  ne_nil : es ≠ []
  nodup : es.Nodup
  routed : ∀ e ∈ es, routed e

/-- What every reachable image satisfies: entries stand under their keys and counts are right. -/
structure WellFormed (I : MetadataImage) : Prop where
  topicName : ∀ (n : String) t, I.topics[n]? = some t → t.name = n
  topicCount : ∀ (n : String) t, I.topics[n]? = some t → t.partitions = I.topicPartitionCount n
  topicId : ∀ (id : Uuid) n, I.topicIds[id]? = some n → ∃ t, I.topics[n]? = some t ∧ t.topicId = id
  partitionOwner : ∀ (n : String) parts, I.partitions[n]? = some parts →
    I.topics.contains n = true ∧ parts.isEmpty = false
  partitionKey : ∀ (n : String) parts (i : ℤ) p, I.partitions[n]? = some parts →
    parts[i]? = some p → p.topic = n ∧ p.partition = i
  nextOffset : ∀ (k : String × ℤ) v, I.partitionNextOffsets[k]? = some v → wrappingAdd 0 v = v
  broker : ∀ (n : NodeId) b, I.brokers[n]? = some b → b.nodeId = n
  controller : ∀ (n : NodeId) c, I.controllers[n]? = some c → c.nodeId = n
  topicConfig : ∀ (n : String) c, I.topicConfigs[n]? = some c → c.isEmpty = false
  topicConfigOwner : ∀ (n : String) c, I.topicConfigs[n]? = some c → I.topics.contains n = true
  clientMetricsConfig : ∀ (n : String) c, I.clientMetricsConfigs[n]? = some c → c.isEmpty = false
  groupConfig : ∀ (n : String) c, I.groupConfigs[n]? = some c → c.isEmpty = false
  scram : ∀ (k : String × SaslMechanism) c, I.scramCredentials[k]? = some c → c.mechanism = k.2
  aclLiteral : ∀ (k : ResourceType × String) es, I.aclsLiteral[k]? = some es →
    AclBucket (fun e => e.patternType = .literal ∧ (e.resourceType, e.resourceName) = k) es
  aclPrefixed : ∀ (k : ResourceType) es, I.aclsPrefixed[k]? = some es →
    AclBucket (fun e => e.patternType = .prefixed ∧ e.resourceType = k) es
  quotaKey : ∀ (k : EntityKey) c, I.clientQuotas[k]? = some c → canonicalizeEntity k = k
  producer : ∀ r, I.producerIds = some r → 0 < r.nextProducerId
  token : ∀ (k : String) t, I.delegationTokens[k]? = some t → t.tokenId = k
  feature : ∀ (n : String) l, I.featureLevels[n]? = some l → l ≠ 0

/-! ## Small facts about the updates -/

section
variable {κ ν : Type} [Ord κ] [Std.TransOrd κ] [Std.LawfulEqOrd κ] {routed : κ → AclEntry → Prop}

lemma forall_insert {m : ExtTreeMap κ ν} {P : κ → ν → Prop} (h : ∀ (a : κ) v, m[a]? = some v → P a v)
    {k : κ} {x : ν} (hx : P k x) : ∀ (a : κ) v, (m.insert k x)[a]? = some v → P a v := by
  classical
  intro a v hv
  rw [getElem?_insert] at hv
  split_ifs at hv with hak
  · cases hv
    exact hak ▸ hx
  · exact h a v hv

lemma forall_erase {m : ExtTreeMap κ ν} {P : κ → ν → Prop} (h : ∀ (a : κ) v, m[a]? = some v → P a v)
    {k : κ} : ∀ (a : κ) v, (m.erase k)[a]? = some v → P a v := by
  classical
  intro a v hv
  rw [getElem?_erase] at hv
  split at hv
  · cases hv
  · exact h a v hv

lemma replaceConfig_nonempty {m : ExtTreeMap String ConfigMap}
    (h : ∀ (n : String) (c : ConfigMap), m[n]? = some c → c.isEmpty = false) (name : String)
    (configs : ConfigMap) :
    ∀ (n : String) (c : ConfigMap), (replaceConfig m name configs)[n]? = some c → c.isEmpty = false := by
  unfold replaceConfig
  split
  · exact forall_erase h
  · rename_i hne
    exact forall_insert h (by simpa using hne)

lemma AclBucket.push {routed : AclEntry → Prop} {es : List AclEntry} {e : AclEntry}
    (hes : es = [] ∨ AclBucket routed es) (he : routed e) : AclBucket routed (aclPush es e) := by
  have hnodup : es.Nodup := by
    rcases hes with rfl | h
    · exact List.nodup_nil
    · exact h.nodup
  have hrouted : ∀ x ∈ es, routed x := by
    rcases hes with rfl | h
    · simp
    · exact h.routed
  refine ⟨by simp [aclPush], ?_, ?_⟩
  · unfold aclPush
    rw [List.nodup_append]
    refine ⟨hnodup.filter _, List.nodup_singleton _, ?_⟩
    intro a ha b hb
    rw [List.mem_singleton] at hb
    simp only [List.mem_filter, bne_iff_ne] at ha
    exact hb ▸ ha.2
  · intro x hx
    rcases List.mem_append.mp hx with hx | hx
    · exact hrouted x (List.mem_filter.mp hx).1
    · exact (List.mem_singleton.mp hx) ▸ he

variable {m : ExtTreeMap κ (List AclEntry)}
section
variable (h : ∀ (a : κ) es, m[a]? = some es → AclBucket (routed a) es)
include h

lemma forall_upsert_acl {k : κ} {e : AclEntry} (he : routed k e) :
    ∀ (a : κ) es, (upsert m k [] (aclPush · e))[a]? = some es → AclBucket (routed a) es := by
  refine forall_insert h (AclBucket.push ?_ he)
  cases hk : m[k]? with
  | none => exact .inl rfl
  | some es => exact .inr (h k es hk)

lemma forall_aclRetain (f : AclEntryFilter) :
    ∀ (a : κ) es, (aclRetain m f)[a]? = some es → AclBucket (routed a) es := by
  intro a es hes
  rw [aclRetain, getElem?_filterMap] at hes
  obtain ⟨v, hv, hkept⟩ := bind_eq_some_iff.mp hes
  have hb := h a v hv
  simp only [ite_none_left_eq_some] at hkept
  obtain ⟨hne, heq⟩ := hkept
  cases heq
  exact ⟨by simpa using hne, hb.nodup.filter _, fun e he => hb.routed e (List.mem_filter.mp he).1⟩

end
end

lemma canonicalizeEntity_idem (l : List (String × Option String)) :
    canonicalizeEntity (canonicalizeEntity l) = canonicalizeEntity l := by
  unfold canonicalizeEntity
  refine List.mergeSort_of_pairwise (List.pairwise_mergeSort ?_ ?_ l)
  · intro a b c hab hbc
    exact Std.TransOrd.isLE_trans hab hbc
  · intro a b
    have hswap : compare b.1 a.1 = (compare a.1 b.1).swap := Std.OrientedCmp.eq_swap
    rw [hswap]
    cases compare a.1 b.1 <;> rfl

/-! ## Preservation -/

variable {I : MetadataImage} {clusterId : Uuid}

lemma WellFormed.new : WellFormed (new clusterId) := by
  constructor <;> intros <;> simp_all [MetadataImage.new]

lemma WellFormed.apply_topic (h : WellFormed I) (t : TopicRecord)
    (hid : ∀ prev, I.topics[t.name]? = some prev → prev.topicId = t.topicId) :
    WellFormed (I.apply (.v1Topic t)) := by
  have hcount : (((I.topics[t.name]?).map (·.partitions)).getD 0) = I.topicPartitionCount t.name := by
    cases hprev : I.topics[t.name]? with
    | some prev => exact h.topicCount _ _ hprev
    | none =>
      have hnone : I.partitions[t.name]? = none := by
        by_contra hsome
        obtain ⟨parts, hparts⟩ := ne_none_iff_exists'.mp hsome
        have := (h.partitionOwner _ _ hparts).1
        simp_all [ExtTreeMap.contains_eq_isSome_getElem?]
      simp [topicPartitionCount, hnone]
  have hkept : (I.topics[t.name]?).filter (·.topicId != t.topicId) = none := by
    rw [filter_eq_none_iff]
    intro prev hprev
    simp [hid prev hprev]
  simp only [apply, hkept, dropId]
  exact { h with
    topicName := forall_insert h.topicName rfl
    topicCount := forall_insert h.topicCount hcount
    topicId := by
      intro id n hn
      rw [getElem?_insert] at hn
      simp only [getElem?_insert]
      split_ifs at hn with heq
      · cases hn
        exact ⟨_, if_pos rfl, heq.symm⟩
      · obtain ⟨t', ht', rfl⟩ := h.topicId id n hn
        obtain rfl | hname := eq_or_ne n t.name
        · exact ⟨_, if_pos rfl, (hid t' ht').symm⟩
        · exact ⟨t', by rw [if_neg hname]; exact ht', rfl⟩
    partitionOwner := by
      intro n parts hparts
      obtain ⟨hown, hne⟩ := h.partitionOwner n parts hparts
      exact ⟨by simp [hown], hne⟩
    topicConfigOwner := fun n c hc => by simp [h.topicConfigOwner n c hc] }

lemma size_insert_partition (parts : PartitionMap) (i : ℤ) (p : PartitionRecord) :
    (parts.insert i p).size = parts.size + if parts[i]?.isNone then 1 else 0 := by
  rw [ExtTreeMap.size_insert, ExtTreeMap.contains_eq_isSome_getElem?]
  cases parts[i]? <;> simp

lemma topicPartitionCount_apply_partition (p : PartitionRecord) (n : String) :
    (I.apply (.v1Partition p)).topicPartitionCount n =
      if n = p.topic ∧ (I.partition p.topic p.partition).isNone then
        min (I.topicPartitionCount n + 1) i32Max
      else I.topicPartitionCount n := by
  simp only [apply, topicPartitionCount, partition, upsert, getElem?_insert]
  obtain rfl | hn := eq_or_ne n p.topic
  · rw [if_pos rfl]
    simp only [size_insert_partition, true_and]
    cases hparts : I.partitions[p.topic]? with
    | none => simp [i32Max]
    | some parts =>
      simp only [getD_some, bind_some]
      split <;> simp only [i32Max] <;> push_cast <;> omega
  · simp [hn]

lemma WellFormed.apply_partition (h : WellFormed I) (p : PartitionRecord)
    (hknown : I.topics.contains p.topic) : WellFormed (I.apply (.v1Partition p)) := by
  set J := I.apply (.v1Partition p) with hJ
  have htopics : ∀ (n : String) t, J.topics[n]? = some t → ∃ t', I.topics[n]? = some t' ∧
      t = if n = p.topic then notePartition (I.partition p.topic p.partition).isNone p t'
        else t' := by
    intro n t ht
    simp only [hJ, apply, getElem?_modify] at ht
    split_ifs at ht with hn
    · obtain ⟨t', ht', rfl⟩ := map_eq_some_iff.mp ht
      exact ⟨t', ht', by rw [if_pos hn]⟩
    · exact ⟨t, ht, by rw [if_neg hn]⟩
  have hkeep : ∀ n : String, J.topics.contains n = I.topics.contains n := by
    intro n
    exact contains_modify _ _ _ _
  have hparts : ∀ (n : String) parts, J.partitions[n]? = some parts →
      (n = p.topic ∧ parts = ((I.partitions[p.topic]?).getD ∅).insert p.partition p) ∨
        (n ≠ p.topic ∧ I.partitions[n]? = some parts) := by
    intro n parts hn
    simp only [hJ, apply, upsert, getElem?_insert] at hn
    split at hn
    · rename_i heq
      exact .inl ⟨heq, (Option.some.inj hn).symm⟩
    · rename_i hne
      exact .inr ⟨hne, hn⟩
  exact { h with
    topicName := by
      intro n t ht
      obtain ⟨t', ht', rfl⟩ := htopics n t ht
      have := h.topicName n t' ht'
      split <;> simpa [notePartition] using this
    topicCount := by
      intro n t ht
      obtain ⟨t', ht', rfl⟩ := htopics n t ht
      have hc := h.topicCount n t' ht'
      rw [hJ, topicPartitionCount_apply_partition]
      by_cases hn : n = p.topic
      · simp only [hn, if_true, true_and, notePartition]
        rw [← hn, ← hc]
      · simpa [hn] using hc
    topicId := by
      intro id n hn
      obtain ⟨t, ht, rfl⟩ := h.topicId id n hn
      obtain rfl | hname := eq_or_ne n p.topic
      · refine ⟨notePartition (I.partition p.topic p.partition).isNone p t, ?_, rfl⟩
        simp [hJ, apply, ht]
      · refine ⟨t, ?_, rfl⟩
        simp only [hJ, apply, getElem?_modify, if_neg hname]
        exact ht
    partitionOwner := by
      intro n parts hn
      rw [hkeep]
      rcases hparts n parts hn with ⟨rfl, rfl⟩ | ⟨-, hold⟩
      · exact ⟨hknown, by simp⟩
      · exact h.partitionOwner n parts hold
    partitionKey := by
      intro n parts i q hn hq
      rcases hparts n parts hn with ⟨rfl, rfl⟩ | ⟨-, hold⟩
      · rw [getElem?_insert] at hq
        split_ifs at hq with heq
        · cases hq
          exact ⟨rfl, heq.symm⟩
        · cases hI : I.partitions[p.topic]? with
          | none => simp [hI] at hq
          | some old =>
            rw [hI, getD_some] at hq
            exact h.partitionKey _ old i q hI hq
      · exact h.partitionKey n parts i q hold hq
    topicConfigOwner := fun n c hc => (hkeep n).trans (h.topicConfigOwner n c hc) }

lemma WellFormed.apply_deleteTopic (h : WellFormed I) (name : String) :
    WellFormed (I.apply (.v1DeleteTopic name)) := by
  have hcount : ∀ n, n ≠ name →
      (I.apply (.v1DeleteTopic name)).topicPartitionCount n = I.topicPartitionCount n := by
    intro n hn
    simp [apply, topicPartitionCount, getElem?_erase, hn]
  have herased : ∀ (n : String) t, (I.topics.erase name)[n]? = some t → n ≠ name ∧ I.topics[n]? = some t := by
    intro n t ht
    rw [getElem?_erase] at ht
    split at ht
    · cases ht
    · rename_i hne
      exact ⟨hne, ht⟩
  exact { h with
    topicName := forall_erase h.topicName
    topicCount := by
      intro n t ht
      obtain ⟨hne, ht⟩ := herased n t ht
      rw [hcount n hne]
      exact h.topicCount n t ht
    topicId := by
      intro id n hn
      have hlive : I.topicIds[id]? = some n ∧ ∀ prev, I.topics[name]? = some prev → id ≠ prev.topicId := by
        simp only [apply, dropId] at hn
        cases hprev : I.topics[name]? with
        | none => rw [hprev] at hn; exact ⟨hn, by simp⟩
        | some prev =>
          rw [hprev] at hn
          simp only [getElem?_erase] at hn
          split at hn
          · cases hn
          · rename_i hne
            exact ⟨hn, fun q hq => by obtain rfl := Option.some.inj hq; exact hne⟩
      obtain ⟨t, ht, rfl⟩ := h.topicId id n hlive.1
      have hne : n ≠ name := fun heq => hlive.2 t (heq ▸ ht) rfl
      exact ⟨t, by simp only [apply, getElem?_erase, if_neg hne]; exact ht, rfl⟩
    partitionOwner := by
      intro n parts hn
      simp only [apply, getElem?_erase] at hn
      split at hn
      · cases hn
      · rename_i hne
        obtain ⟨hown, hfull⟩ := h.partitionOwner n parts hn
        refine ⟨?_, hfull⟩
        simp [apply, hown, Ne.symm hne]
    partitionKey := fun n parts i p hn hp => forall_erase
      (fun n parts hn i p hp => h.partitionKey n parts i p hn hp) n parts hn i p hp
    nextOffset := by
      intro k v hv
      simp only [apply, getElem?_filter, filter_eq_some_iff] at hv
      exact h.nextOffset k v hv.1
    topicConfig := forall_erase h.topicConfig
    topicConfigOwner := by
      intro n c hc
      simp only [apply, getElem?_erase] at hc
      split at hc
      · cases hc
      · rename_i hne
        simp [apply, h.topicConfigOwner n c hc, Ne.symm hne] }

lemma WellFormed.apply_dirAssignment (h : WellFormed I) (r : PartitionDirAssignmentRecord) :
    WellFormed (I.apply (.v1PartitionDirAssignment r)) := by
  have hsame : ∀ p, (assignDirectory r p).topic = p.topic ∧ (assignDirectory r p).partition = p.partition := by
    intro p
    unfold assignDirectory
    split <;> exact ⟨rfl, rfl⟩
  have hparts : ∀ (n : String) parts,
      (I.apply (.v1PartitionDirAssignment r)).partitions[n]? = some parts →
      ∃ old, I.partitions[n]? = some old ∧ (parts = old ∨ parts = old.modify r.partition (assignDirectory r)) := by
    intro n parts hn
    simp only [apply, getElem?_modify] at hn
    split at hn
    · obtain ⟨old, hold, rfl⟩ := map_eq_some_iff.mp hn
      exact ⟨old, hold, .inr rfl⟩
    · exact ⟨parts, hn, .inl rfl⟩
  exact { h with
    topicCount := by
      intro n t ht
      rw [h.topicCount n t ht]
      simp only [apply, topicPartitionCount, getElem?_modify]
      by_cases hn : n = r.topic
      · rw [if_pos hn]
        cases I.partitions[n]? with
        | none => rfl
        | some parts => simp only [map_some, ExtTreeMap.size_modify]
      · rw [if_neg hn]
    partitionOwner := by
      intro n parts hn
      obtain ⟨old, hold, rfl | rfl⟩ := hparts n parts hn
      · exact h.partitionOwner n _ hold
      · obtain ⟨hown, hfull⟩ := h.partitionOwner n _ hold
        exact ⟨hown, by simpa using hfull⟩
    partitionKey := by
      intro n parts i p hn hp
      obtain ⟨old, hold, rfl | rfl⟩ := hparts n parts hn
      · exact h.partitionKey n _ i p hold hp
      · rw [getElem?_modify] at hp
        split at hp
        · obtain ⟨q, hq, rfl⟩ := map_eq_some_iff.mp hp
          rw [(hsame q).1, (hsame q).2]
          exact h.partitionKey n _ i q hold hq
        · exact h.partitionKey n _ i p hold hp }

lemma topicId_of_accepts {t : TopicRecord} (hacc : I.accepts (.v1Topic t)) :
    ∀ prev, I.topics[t.name]? = some prev → prev.topicId = t.topicId := by
  intro prev hprev
  by_contra hne
  simp [accepts, validate, hprev, hne] at hacc

/-- **A record that `validate` accepts keeps the image well formed.** -/
theorem WellFormed.apply (h : WellFormed I) {rec : MetadataRecord}
    (hacc : I.accepts rec) : WellFormed (I.apply rec) := by
  cases rec with
  | v1Topic t => exact h.apply_topic t (topicId_of_accepts hacc)
  | v1Partition p =>
    refine h.apply_partition p ?_
    by_contra hc
    simp [accepts, validate, hc] at hacc
  | v1DeleteTopic name => exact h.apply_deleteTopic name
  | v1PartitionDirAssignment r => exact h.apply_dirAssignment r
  | v1BrokerRegistration b => exact { h with broker := forall_insert h.broker rfl }
  | v1ControllerRegistration c => exact { h with controller := forall_insert h.controller rfl }
  | v1UnregisterBroker n => exact { h with broker := forall_erase h.broker }
  | v1TopicConfig c =>
    have hknown : I.topics.contains c.topic := by
      by_contra hc
      simp [accepts, validate, hc] at hacc
    refine { h with
      topicConfig := replaceConfig_nonempty h.topicConfig c.topic c.overrides
      topicConfigOwner := ?_ }
    simp only [MetadataImage.apply, replaceConfig]
    split
    · exact forall_erase h.topicConfigOwner
    · exact forall_insert h.topicConfigOwner hknown
  | v1ClientMetricsConfig c =>
    exact { h with
      clientMetricsConfig := replaceConfig_nonempty h.clientMetricsConfig c.name c.configs }
  | v1GroupConfig c =>
    exact { h with groupConfig := replaceConfig_nonempty h.groupConfig c.groupId c.configs }
  | v1ScramCredential r => exact { h with scram := forall_insert h.scram rfl }
  | v1DeleteScramCredential r => exact { h with scram := forall_erase h.scram }
  | v1AccessControlEntry e =>
    cases hp : e.patternType with
    | literal =>
      simp only [MetadataImage.apply, hp]
      exact { h with aclLiteral := forall_upsert_acl h.aclLiteral ⟨hp, rfl⟩ }
    | prefixed =>
      simp only [MetadataImage.apply, hp]
      exact { h with aclPrefixed := forall_upsert_acl h.aclPrefixed ⟨hp, rfl⟩ }
  | v1DeleteAccessControlEntry f =>
    exact { h with
      aclLiteral := forall_aclRetain h.aclLiteral f
      aclPrefixed := forall_aclRetain h.aclPrefixed f }
  | v1BrokerConfig c => exact { h with }
  | v1ClientQuota q =>
    exact { h with
      quotaKey := forall_insert h.quotaKey (canonicalizeEntity_idem _) }
  | v1ProducerIds r =>
    simp only [MetadataImage.apply]
    split_ifs with hgt
    · refine { h with producer := ?_ }
      intro r' hr'
      cases hr'
      cases hI : I.producerIds with
      | none => simpa [nextProducerId, hI] using hgt
      | some old =>
        have := h.producer old hI
        simp only [nextProducerId, hI] at hgt
        omega
    · exact h
  | v1DelegationToken t => exact { h with token := forall_insert h.token rfl }
  | v1DeleteDelegationToken k => exact { h with token := forall_erase h.token }
  | v1KRaftVersion v | v1Voters v => exact { h with }
  | v1FeatureLevel f =>
    simp only [MetadataImage.apply]
    split
    · exact { h with feature := forall_erase h.feature }
    · rename_i hne
      exact { h with feature := forall_insert h.feature hne }
  | v1FeaturesEpoch e => exact { h with }
  | v1PartitionOffsetAdvance r =>
    exact { h with nextOffset := forall_insert h.nextOffset (by simp [wrappingAdd]) }

/-- **Reachable images are well formed.** -/
theorem Reachable.wellFormed (h : Reachable clusterId I) : WellFormed I :=
  Sys.Run.preserves h (fun _ _ hI hacc _ => hI.apply hacc) WellFormed.new

end MetadataImage
end Crabka.Metadata
