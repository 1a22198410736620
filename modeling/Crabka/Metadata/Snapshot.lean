import Crabka.Metadata.Invariant

/-!
# Snapshots of the metadata image

`to_records` lists an image as records, `from_records` applies them to an empty image, and the image comes back up to
`restored`: broker configurations and client quotas that ran empty are gone, the replication factor of a topic is the
replica count of its last partition, an id that two topics share names the one iterated last, and a negative features
epoch has no record. `Restorable` excludes these, and no more (`snapshot_roundTrip_iff`).
-/

namespace Crabka.Metadata
open List hiding getElem?_filter getElem?_insert
open Kraft (NodeId Uuid VoterSet)
open Found
open Std (ExtTreeMap)
open MetadataImage
namespace MetadataImage

/-! ## What a snapshot gives back -/

section
variable (I : MetadataImage)

/-- The partition that settles the replication factor on a replay: the highest index whose replica count fits an
`i16`. -/
def settlingPartition (topic : String) : Option PartitionRecord :=
  (I.partitionsOf topic).reverse.find? fun p => decide ((p.replicas.length : ℤ) ≤ i16Max)

def restoredFactor (topic : String) (t : TopicRecord) : ℤ :=
  match I.settlingPartition topic with
  | some p => p.replicas.length
  | none => t.replicationFactor

def restoredEpoch : ℤ :=
  if 0 ≤ I.featuresEpoch then I.featuresEpoch
  else I.featureLevels.toList.foldl (fun epoch _ => max (min (epoch + 1) i64Max) 0) (-1)

/-- The image that comes back from a snapshot that was iterated in a given order. -/
def restored (it : Iteration) : MetadataImage :=
  { I with
    topics := I.topics.map fun n t => { t with replicationFactor := I.restoredFactor n t }
    topicIds := rebuild ∅ (it.topics.map fun e => (e.2.topicId, e.1))
    brokerConfigs := I.brokerConfigs.filter fun _ c => !c.toList.isEmpty
    clientQuotas := I.clientQuotas.filter fun _ q => !q.toList.isEmpty
    featuresEpoch := I.restoredEpoch }

end

/-! ## One group of records at a time -/

variable {I J : MetadataImage}

lemma applyAll_append (rs ss : List MetadataRecord) :
    J.applyAll (rs ++ ss) = (J.applyAll rs).applyAll ss := foldl_append

/-! ### The maps of an image as components -/

def brokersField : Component MetadataImage (ExtTreeMap NodeId BrokerRegistrationRecord) where
  get J := J.brokers
  set m J := { J with brokers := m }

def controllersField : Component MetadataImage (ExtTreeMap NodeId ControllerRegistrationRecord) where
  get J := J.controllers
  set m J := { J with controllers := m }

def brokerConfigsField : Component MetadataImage (ExtTreeMap NodeId ConfigMap) where
  get J := J.brokerConfigs
  set m J := { J with brokerConfigs := m }

def partitionNextOffsetsField : Component MetadataImage (ExtTreeMap (String × ℤ) ℤ) where
  get J := J.partitionNextOffsets
  set m J := { J with partitionNextOffsets := m }

def topicConfigsField : Component MetadataImage (ExtTreeMap String ConfigMap) where
  get J := J.topicConfigs
  set m J := { J with topicConfigs := m }

def clientMetricsConfigsField : Component MetadataImage (ExtTreeMap String ConfigMap) where
  get J := J.clientMetricsConfigs
  set m J := { J with clientMetricsConfigs := m }

def groupConfigsField : Component MetadataImage (ExtTreeMap String ConfigMap) where
  get J := J.groupConfigs
  set m J := { J with groupConfigs := m }

def scramCredentialsField :
    Component MetadataImage (ExtTreeMap (String × SaslMechanism) ScramCredential) where
  get J := J.scramCredentials
  set m J := { J with scramCredentials := m }

def aclsLiteralField :
    Component MetadataImage (ExtTreeMap (ResourceType × String) (List AclEntry)) where
  get J := J.aclsLiteral
  set m J := { J with aclsLiteral := m }

def aclsPrefixedField : Component MetadataImage (ExtTreeMap ResourceType (List AclEntry)) where
  get J := J.aclsPrefixed
  set m J := { J with aclsPrefixed := m }

def clientQuotasField : Component MetadataImage (ExtTreeMap EntityKey QuotaMap) where
  get J := J.clientQuotas
  set m J := { J with clientQuotas := m }

def delegationTokensField : Component MetadataImage (ExtTreeMap String DelegationTokenRecord) where
  get J := J.delegationTokens
  set m J := { J with delegationTokens := m }

/-! ### Records of one component -/

lemma applyAll_component {α φ : Type} (c : Component MetadataImage φ) (act : φ → α → φ)
    {kind : α → MetadataRecord} {l : List α}
    (hstep : ∀ J, ∀ x ∈ l, J.apply (kind x) = c.set (act (c.get J) x) J) :
    J.applyAll (l.map kind) = c.set (l.foldl act (c.get J)) J := by
  rw [applyAll, foldl_map]
  exact c.foldl act hstep J

lemma applyAll_entries {κ ν : Type} [Ord κ] [Std.TransOrd κ] [Std.LawfulEqOrd κ]
    (c : Component MetadataImage (ExtTreeMap κ ν)) {kind : κ × ν → MetadataRecord}
    {m : ExtTreeMap κ ν} {l : List (κ × ν)} (hl : l.Perm m.toList) (hJ : c.get J = ∅)
    (hstep : ∀ J (k : κ) v, m[k]? = some v → J.apply (kind (k, v)) = c.set ((c.get J).insert k v) J) :
    J.applyAll (l.map kind) = c.set m J := by
  rw [applyAll_component c (fun m e => m.insert e.1 e.2), hJ, foldl_of_perm hl fun _ _ _ _ => rfl]
  intro J e he
  exact hstep J e.1 e.2 ((mem_of_perm hl).mp he)

lemma applyAll_groups {κ ν ξ : Type} [Ord κ] [Std.TransOrd κ] [Std.LawfulEqOrd κ]
    (c : Component MetadataImage (ExtTreeMap κ ν)) (kind : κ × ξ → MetadataRecord)
    {m : ExtTreeMap κ ν} {l : List (κ × ν)} (items : ν → List ξ) (d : ν) (f : ν → ξ → ν)
    (hl : l.Perm m.toList) (hJ : c.get J = ∅)
    (hback : ∀ (k : κ) v, m[k]? = some v → items v ≠ [] → (items v).foldl f d = v)
    (hstep : ∀ J (k : κ) v x, m[k]? = some v → x ∈ items v →
      J.apply (kind (k, x)) = c.set (upsert (c.get J) k d (f · x)) J) :
    J.applyAll (l.flatMap fun e => (items e.2).map fun x => kind (e.1, x)) =
      c.set (m.filter fun _ v => !(items v).isEmpty) J := by
  rw [flatMap_eq_map_keyedItems, applyAll_component c fun m e => upsert m e.1 d (f · e.2), hJ,
    ← foldGroups_of_perm items hl hback]
  · rfl
  · rintro J ⟨k, x⟩ hx
    obtain ⟨v, hv, hx⟩ := mem_keyedItems.mp hx
    exact hstep J k v x ((mem_of_perm hl).mp hv) hx

lemma applyAll_topics {l : List (String × TopicRecord)} (hname : ∀ e ∈ l, e.2.name = e.1)
    (hnd : (l.map Prod.fst).Nodup) (hnew : ∀ e ∈ l, J.topics[e.1]? = none) :
    J.applyAll (l.map fun e => .v1Topic e.2) =
      { J with
        topics := rebuild J.topics (l.map fun e => (e.1, { e.2 with partitions := 0 }))
        topicIds := rebuild J.topicIds (l.map fun e => (e.2.topicId, e.1)) } := by
  induction l generalizing J with
  | nil => rfl
  | cons e l ih =>
    rw [map_cons, nodup_cons] at hnd
    have hstep : J.apply (.v1Topic e.2) =
        { J with
          topics := J.topics.insert e.1 { e.2 with partitions := 0 }
          topicIds := J.topicIds.insert e.2.topicId e.1 } := by
      have hname := hname e mem_cons_self
      simp [apply, hname, hnew e mem_cons_self, dropId]
    show (J.apply (.v1Topic e.2)).applyAll (l.map fun e => .v1Topic e.2) = _
    rw [hstep, ih (fun x hx => hname x (mem_cons_of_mem e hx)) hnd.2]
    · rfl
    · intro x hx
      have hne : x.1 ≠ e.1 := fun heq => hnd.1 (heq ▸ mem_map.mpr ⟨x, hx, rfl⟩)
      rw [getElem?_insert, if_neg hne]
      exact hnew x (mem_cons_of_mem e hx)

lemma applyAll_partitions {l : List (String × (ℤ × PartitionRecord))}
    (hkey : ∀ e ∈ l, e.2.2.topic = e.1 ∧ e.2.2.partition = e.2.1)
    (hnd : (l.map fun e => (e.1, e.2.1)).Nodup) (hnew : ∀ e ∈ l, J.partition e.1 e.2.1 = none) :
    J.applyAll (l.map fun e => .v1Partition e.2.2) =
      { J with
        partitions := l.foldl (fun m e => upsert m e.1 ∅ (·.insert e.2.1 e.2.2)) J.partitions
        topics := l.foldl (fun m e => m.modify e.1 (notePartition true e.2.2)) J.topics } := by
  induction l generalizing J with
  | nil => rfl
  | cons e l ih =>
    rw [map_cons, nodup_cons] at hnd
    obtain ⟨htopic, hpart⟩ := hkey e mem_cons_self
    have hstep : J.apply (.v1Partition e.2.2) =
        { J with
          partitions := upsert J.partitions e.1 ∅ (·.insert e.2.1 e.2.2)
          topics := J.topics.modify e.1 (notePartition true e.2.2) } := by
      simp [apply, htopic, hpart, hnew e mem_cons_self]
    show (J.apply (.v1Partition e.2.2)).applyAll (l.map fun e => .v1Partition e.2.2) = _
    rw [hstep, ih (fun x hx => hkey x (mem_cons_of_mem e hx)) hnd.2]
    · rfl
    · intro x hx
      have hne : (x.1, x.2.1) ≠ (e.1, e.2.1) :=
        fun heq => hnd.1 (heq ▸ mem_map.mpr ⟨x, hx, rfl⟩)
      have hold := hnew x (mem_cons_of_mem e hx)
      simp only [partition, upsert, getElem?_insert] at hold ⊢
      by_cases htop : x.1 = e.1
      · have hidx : x.2.1 ≠ e.2.1 := fun heq => hne (Prod.ext htop heq)
        rw [if_pos htop, Option.bind_some, getElem?_insert, if_neg hidx, ← htop]
        cases hparts : J.partitions[x.1]? with
        | none => simp
        | some parts => rwa [hparts] at hold
      · rwa [if_neg htop]

/-! ## The cached fields of a topic -/

lemma foldl_replicationFactorFrom (ps : List PartitionRecord) (rf : ℤ) :
    ps.foldl (fun rf p => replicationFactorFrom rf p.replicas) rf =
      match ps.reverse.find? fun p => decide ((p.replicas.length : ℤ) ≤ i16Max) with
      | some p => p.replicas.length
      | none => rf := by
  induction ps using List.reverseRecOn with
  | nil => rfl
  | append_singleton ps p ih =>
    rw [foldl_append, foldl_cons, foldl_nil, ih, reverse_append,
      reverse_singleton, singleton_append, List.find?_cons]
    unfold replicationFactorFrom
    by_cases hfits : (p.replicas.length : ℤ) ≤ i16Max
    · simp [hfits]
    · simp [hfits]

lemma topicPartitionCount_eq (n : String) :
    I.topicPartitionCount n = min ((I.partitionsOf n).length : ℤ) i32Max := by
  unfold topicPartitionCount partitionsOf
  cases I.partitions[n]? with
  | none => decide
  | some parts => simp [ExtTreeMap.length_toList]

lemma foldl_notePartition (ps : List PartitionRecord) (t : TopicRecord) (ht : t.partitions ≤ i32Max) :
    ps.foldl (fun t p => notePartition true p t) t =
      { t with
        partitions := min (t.partitions + ps.length) i32Max
        replicationFactor :=
          ps.foldl (fun rf p => replicationFactorFrom rf p.replicas) t.replicationFactor } := by
  induction ps generalizing t with
  | nil => simp [ht]
  | cons p ps ih =>
    rw [foldl_cons, foldl_cons, ih]
    · simp only [notePartition, if_true, length_cons]
      congr 1
      omega
    · exact min_le_right _ _

/-! ## The groups of a snapshot -/

section
variable {it : Iteration}

/-- The partitions of a snapshot, with the topics and indices they are listed under. -/
def listedPartitions (it : Iteration) : List (String × (ℤ × PartitionRecord)) :=
  keyedItems (it.partitions.map fun e => (e.1, e.2.toList))

lemma listedPartitions_key (h : WellFormed I) (hit : it.Of I) :
    ∀ e ∈ listedPartitions it, e.2.2.topic = e.1 ∧ e.2.2.partition = e.2.1 := by
  rintro ⟨n, i, p⟩ he
  obtain ⟨parts, hparts, hp⟩ := mem_keyedItems.mp he
  exact h.partitionKey n parts i p ((mem_of_perm hit.partitions).mp hparts) ((mem_toList parts).mp hp)

lemma listedPartitions_nodup (hit : it.Of I) :
    ((listedPartitions it).map fun e => (e.1, e.2.1)).Nodup :=
  nodup_keyedItems Prod.fst
    (nodup_keys_of_perm hit.partitions)
    fun e _ => nodup_keys_toList e.2

lemma filter_listedPartitions (hit : it.Of I) (n : String) :
    ((listedPartitions it).filter (·.1 = n)).map (·.2.2) = I.partitionsOf n := by
  have hnd : ((it.partitions.map fun e => (e.1, e.2.toList)).map Prod.fst).Nodup := by
    rw [map_map]
    exact nodup_keys_of_perm hit.partitions
  unfold partitionsOf listedPartitions
  cases hn : I.partitions[n]? with
  | some parts =>
    have hmem : (n, parts.toList) ∈ it.partitions.map fun e => (e.1, e.2.toList) :=
      mem_map.mpr ⟨(n, parts), (mem_of_perm hit.partitions).mpr hn, rfl⟩
    rw [filter_keyedItems_of_mem hnd hmem, map_map]
    rfl
  | none =>
    rw [filter_keyedItems_of_not_mem]
    · rfl
    · intro hmem
      rw [map_map] at hmem
      obtain ⟨⟨n', parts⟩, he, rfl⟩ := mem_map.mp hmem
      have hsome := (mem_of_perm hit.partitions).mp he
      exact absurd (hn.symm.trans hsome) (by simp)

lemma restored_topics (h : WellFormed I) (hit : it.Of I) :
    (listedPartitions it).foldl (fun m e => m.modify e.1 (notePartition true e.2.2))
        (rebuild ∅ (it.topics.map fun e => (e.1, { e.2 with partitions := 0 }))) =
      I.topics.map fun n t => { t with replicationFactor := I.restoredFactor n t } := by
  set fresh : TopicRecord → TopicRecord := fun t => { t with partitions := 0 } with hfresh
  have hperm : (it.topics.map fun e => (e.1, fresh e.2)).Perm (I.topics.map fun _ t => fresh t).toList := by
    rw [ExtTreeMap.toList_map]
    exact hit.topics.map _
  refine ExtTreeMap.ext_getElem? fun n => ?_
  rw [getElem?_foldl_modify fun (e : ℤ × PartitionRecord) => notePartition true e.2,
    rebuild_of_perm hperm, ExtTreeMap.getElem?_map, ExtTreeMap.getElem?_map, Option.map_map]
  refine Option.map_congr fun t ht => ?_
  calc ((listedPartitions it).filter (·.1 = n)).foldl (fun t e => notePartition true e.2.2 t) (fresh t)
      = (I.partitionsOf n).foldl (fun t p => notePartition true p t) (fresh t) := by
        rw [← filter_listedPartitions hit, foldl_map]
    _ = { t with replicationFactor := I.restoredFactor n t } := by
        rw [foldl_notePartition _ _ (by simp [hfresh, i32Max]), foldl_replicationFactorFrom]
        have hcount : t.partitions = min (0 + ((I.partitionsOf n).length : ℤ)) i32Max := by
          rw [h.topicCount n t ht, topicPartitionCount_eq, zero_add]
        rw [hfresh, ← hcount]
        rfl

lemma foldl_aclPush {es : List AclEntry} (h : es.Nodup) : es.foldl aclPush [] = es := by
  suffices ∀ done : List AclEntry, (done ++ es).Nodup → es.foldl aclPush done = done ++ es from this [] h
  clear h
  induction es with
  | nil => simp
  | cons e es ih =>
    intro done hnd
    have hfresh : ∀ x ∈ done, x ≠ e := by
      intro x hx
      exact (nodup_append.mp hnd).2.2 x hx e mem_cons_self
    have hpush : aclPush done e = done ++ [e] := by
      unfold aclPush
      rw [filter_eq_self.mpr]
      simpa using hfresh
    rw [foldl_cons, hpush, ih _ (by simpa using hnd), append_assoc]
    rfl

lemma quotaKey_quotaEntity {k : EntityKey} (h : canonicalizeEntity k = k) (key : String)
    (x : Option F64) : quotaKey ⟨quotaEntity k, key, x⟩ = k := by
  simpa [quotaKey, quotaEntity, Function.comp_def] using h

lemma applyAll_features {l : List (String × ℤ)} (hl : ∀ e ∈ l, e.2 ≠ 0) :
    J.applyAll (l.map fun e => .v1FeatureLevel ⟨e.1, e.2⟩) =
      { J with
        featureLevels := rebuild J.featureLevels l
        featuresEpoch :=
          l.foldl (fun epoch _ => max (min (epoch + 1) i64Max) 0) J.featuresEpoch } := by
  induction l generalizing J with
  | nil => rfl
  | cons e l ih =>
    show (J.apply (.v1FeatureLevel ⟨e.1, e.2⟩)).applyAll _ = _
    rw [ih fun x hx => hl x (mem_cons_of_mem e hx)]
    simp only [apply, if_neg (hl e mem_cons_self)]
    rfl

lemma applyAll_brokerConfigs (hit : it.Of I) (hJ : J.brokerConfigs = ∅) :
    J.applyAll (it.brokerConfigs.flatMap fun e =>
        e.2.toList.map fun c => .v1BrokerConfig ⟨e.1, c.1, some c.2⟩) =
      { J with brokerConfigs := I.brokerConfigs.filter fun _ c => !c.toList.isEmpty } :=
  applyAll_groups brokerConfigsField
    (fun e => .v1BrokerConfig ⟨e.1, e.2.1, some e.2.2⟩) ExtTreeMap.toList ∅
    (fun m e => m.insert e.1 e.2) hit.brokerConfigs hJ
    (fun _ c _ _ => rebuild_of_perm (.refl c.toList)) fun _ _ _ _ _ _ => rfl

lemma applyAll_overrides (c : Component MetadataImage (ExtTreeMap String ConfigMap))
    {kind : String × ConfigMap → MetadataRecord} {m : ExtTreeMap String ConfigMap}
    {l : List (String × ConfigMap)} (hl : l.Perm m.toList) (hJ : c.get J = ∅)
    (hm : ∀ (n : String) (v : ConfigMap), m[n]? = some v → v.isEmpty = false)
    (hstep : ∀ J n v, J.apply (kind (n, v)) = c.set (replaceConfig (c.get J) n v) J) :
    J.applyAll (l.map kind) = c.set m J :=
  applyAll_entries c hl hJ fun J n v hv => by
    rw [hstep, replaceConfig, if_neg (by simp [hm n v hv])]

lemma applyAll_acls {κ : Type} [Ord κ] [Std.TransOrd κ] [Std.LawfulEqOrd κ]
    (c : Component MetadataImage (ExtTreeMap κ (List AclEntry))) {m : ExtTreeMap κ (List AclEntry)}
    {l : List (κ × List AclEntry)} {routed : κ → AclEntry → Prop} (hl : l.Perm m.toList)
    (hJ : c.get J = ∅) (hm : ∀ (k : κ) es, m[k]? = some es → AclBucket (routed k) es)
    (hstep : ∀ J k e, routed k e →
      J.apply (.v1AccessControlEntry e) = c.set (upsert (c.get J) k [] (aclPush · e)) J) :
    J.applyAll (l.flatMap fun e => e.2.map .v1AccessControlEntry) = c.set m J := by
  have hgroups := applyAll_groups (J := J) c (fun e => .v1AccessControlEntry e.2) id [] aclPush hl
    hJ (fun k es hes _ => foldl_aclPush (hm k es hes).nodup)
    fun J k es e hes he => hstep J k e ((hm k es hes).routed e he)
  have hfull : (m.filter fun _ es => !(id es).isEmpty) = m :=
    filter_eq_self_iff.mpr fun k es hes => by simpa using (hm k es hes).ne_nil
  rwa [hfull] at hgroups

section
variable (h : WellFormed I)
include h

lemma applyAll_producerIds (hJ : J.producerIds = none) :
    J.applyAll (I.producerIds.toList.map .v1ProducerIds) = { J with producerIds := I.producerIds } := by
  cases hr : I.producerIds with
  | none =>
    show J = { J with producerIds := none }
    rw [← hJ]
  | some r =>
    have hpos := h.producer r hr
    simp [applyAll, apply, nextProducerId, hJ, hpos]

lemma applyAll_features_epoch (hJ : J.featureLevels = ∅) (hJ' : J.featuresEpoch = -1) :
    (J.applyAll (I.featureLevels.toList.map fun e => .v1FeatureLevel ⟨e.1, e.2⟩)).applyAll
        (if 0 ≤ I.featuresEpoch then [.v1FeaturesEpoch I.featuresEpoch] else []) =
      { J with featureLevels := I.featureLevels, featuresEpoch := I.restoredEpoch } := by
  rw [applyAll_features fun e he => h.feature e.1 e.2 ((mem_toList _).mp he), hJ, hJ', rebuild_of_perm (.refl _)]
  unfold restoredEpoch
  split <;> rfl

variable (hit : it.Of I)
include hit

lemma applyAll_brokers (hJ : J.brokers = ∅) :
    J.applyAll (it.brokers.map fun e => .v1BrokerRegistration e.2) = { J with brokers := I.brokers } :=
  applyAll_entries brokersField hit.brokers hJ fun J k v hv => by rw [← h.broker k v hv]; rfl

lemma applyAll_controllers (hJ : J.controllers = ∅) :
    J.applyAll (it.controllers.map fun e => .v1ControllerRegistration e.2) =
      { J with controllers := I.controllers } :=
  applyAll_entries controllersField hit.controllers hJ fun J k v hv => by rw [← h.controller k v hv]; rfl

lemma applyAll_topics_partitions (hJ : J.topics = ∅) (hJ' : J.topicIds = ∅) (hJ'' : J.partitions = ∅) :
    (J.applyAll (it.topics.map fun e => .v1Topic e.2)).applyAll
        (it.partitions.flatMap fun e => e.2.toList.map fun p => .v1Partition p.2) =
      { J with
        topics := I.topics.map fun n t => { t with replicationFactor := I.restoredFactor n t }
        topicIds := rebuild ∅ (it.topics.map fun e => (e.2.topicId, e.1))
        partitions := I.partitions } := by
  have hname : ∀ e ∈ it.topics, e.2.name = e.1 := fun e he =>
    h.topicName e.1 e.2 ((mem_of_perm hit.topics).mp he)
  have hnd : (it.topics.map Prod.fst).Nodup := nodup_keys_of_perm hit.topics
  have hparts : foldGroups ∅ (fun m (e : ℤ × PartitionRecord) => m.insert e.1 e.2) ∅
      (it.partitions.map fun e => (e.1, e.2.toList)) = I.partitions := by
    rw [foldGroups_of_perm ExtTreeMap.toList hit.partitions fun _ parts _ _ => rebuild_of_perm (.refl parts.toList)]
    refine filter_eq_self_iff.mpr fun n parts hn => ?_
    simpa using (h.partitionOwner n parts hn).2
  have hlisted : (it.partitions.flatMap fun e =>
      e.2.toList.map fun p => MetadataRecord.v1Partition p.2) =
      (listedPartitions it).map fun e => .v1Partition e.2.2 :=
    flatMap_eq_map_keyedItems it.partitions ExtTreeMap.toList fun e => MetadataRecord.v1Partition e.2.2
  rw [applyAll_topics hname hnd (by simp [hJ]), hlisted,
    applyAll_partitions (listedPartitions_key h hit) (listedPartitions_nodup hit)
    (by simp [partition, hJ''])]
  simp only [hJ, hJ', hJ'', restored_topics h hit]
  congr 1

lemma applyAll_nextOffsets (hJ : J.partitionNextOffsets = ∅) :
    J.applyAll (it.partitionNextOffsets.map fun e =>
        .v1PartitionOffsetAdvance ⟨e.1.1, e.1.2, e.2⟩) =
      { J with partitionNextOffsets := I.partitionNextOffsets } := by
  have hgroups := applyAll_groups (J := J) partitionNextOffsetsField
    (fun e => .v1PartitionOffsetAdvance ⟨e.1.1, e.1.2, e.2⟩) (fun v : ℤ => [v]) 0 wrappingAdd
    hit.partitionNextOffsets hJ (fun k v hv _ => h.nextOffset k v hv) fun _ _ _ _ _ _ => rfl
  rw [filter_eq_self_iff.mpr (by simp)] at hgroups
  rwa [map_eq_flatMap]

lemma applyAll_topicConfigs (hJ : J.topicConfigs = ∅) :
    J.applyAll (it.topicConfigs.map fun e => .v1TopicConfig ⟨e.1, e.2⟩) =
      { J with topicConfigs := I.topicConfigs } :=
  applyAll_overrides topicConfigsField hit.topicConfigs hJ h.topicConfig fun _ _ _ => rfl

lemma applyAll_clientMetrics (hJ : J.clientMetricsConfigs = ∅) :
    J.applyAll (it.clientMetricsConfigs.map fun e => .v1ClientMetricsConfig ⟨e.1, e.2⟩) =
      { J with clientMetricsConfigs := I.clientMetricsConfigs } :=
  applyAll_overrides clientMetricsConfigsField hit.clientMetricsConfigs hJ h.clientMetricsConfig fun _ _ _ => rfl

lemma applyAll_groupConfigs (hJ : J.groupConfigs = ∅) :
    J.applyAll (it.groupConfigs.map fun e => .v1GroupConfig ⟨e.1, e.2⟩) =
      { J with groupConfigs := I.groupConfigs } :=
  applyAll_overrides groupConfigsField hit.groupConfigs hJ h.groupConfig fun _ _ _ => rfl

lemma applyAll_scram (hJ : J.scramCredentials = ∅) :
    J.applyAll (it.scramCredentials.map fun e => .v1ScramCredential
        ⟨e.1.1, e.1.2, e.2.salt, e.2.storedKey, e.2.serverKey, e.2.iterations⟩) =
      { J with scramCredentials := I.scramCredentials } :=
  applyAll_entries scramCredentialsField
    hit.scramCredentials hJ fun J k v hv => by
      obtain ⟨user, mechanism⟩ := k
      obtain rfl : v.mechanism = mechanism := h.scram _ v hv
      rfl

lemma applyAll_aclsLiteral (hJ : J.aclsLiteral = ∅) :
    J.applyAll (it.aclsLiteral.flatMap fun e => e.2.map .v1AccessControlEntry) =
      { J with aclsLiteral := I.aclsLiteral } :=
  applyAll_acls aclsLiteralField
    hit.aclsLiteral hJ h.aclLiteral fun J k e he => by
      obtain ⟨hpattern, rfl⟩ := he
      simp only [apply, hpattern]
      rfl

lemma applyAll_aclsPrefixed (hJ : J.aclsPrefixed = ∅) :
    J.applyAll (it.aclsPrefixed.flatMap fun e => e.2.map .v1AccessControlEntry) =
      { J with aclsPrefixed := I.aclsPrefixed } :=
  applyAll_acls aclsPrefixedField
    hit.aclsPrefixed hJ h.aclPrefixed fun J k e he => by
      obtain ⟨hpattern, rfl⟩ := he
      simp only [apply, hpattern]
      rfl

lemma applyAll_quotas (hJ : J.clientQuotas = ∅) :
    J.applyAll (it.clientQuotas.flatMap fun e => e.2.toList.map fun c =>
        .v1ClientQuota ⟨quotaEntity e.1, c.1, some c.2⟩) =
      { J with clientQuotas := I.clientQuotas.filter fun _ q => !q.toList.isEmpty } :=
  applyAll_groups clientQuotasField
    (fun e => .v1ClientQuota ⟨quotaEntity e.1, e.2.1, some e.2.2⟩) ExtTreeMap.toList ∅
    (fun m e => m.insert e.1 e.2) hit.clientQuotas hJ
    (fun _ q _ _ => rebuild_of_perm (.refl q.toList)) fun J k q x hq _ => by
      simp only [apply, quotaKey_quotaEntity (h.quotaKey k q hq)]
      rfl

lemma applyAll_tokens (hJ : J.delegationTokens = ∅) :
    J.applyAll (it.delegationTokens.map fun e => .v1DelegationToken e.2) =
      { J with delegationTokens := I.delegationTokens } :=
  applyAll_entries delegationTokensField hit.delegationTokens hJ fun J k v hv => by rw [← h.token k v hv]; rfl

end

lemma applyAll_quorum (hJ : J.kraftVersion = 0) (hJ' : J.voters = ⟨∅⟩) :
    (J.applyAll (if I.kraftVersion ≠ 0 then [.v1KRaftVersion I.kraftVersion] else [])).applyAll
        (if I.voters.isEmpty then [] else [.v1Voters I.voters]) =
      { J with kraftVersion := I.kraftVersion, voters := I.voters } := by
  have hversion : J.applyAll (if I.kraftVersion ≠ 0 then [.v1KRaftVersion I.kraftVersion] else []) =
      { J with kraftVersion := I.kraftVersion } := by
    by_cases hv : I.kraftVersion = 0
    · rw [if_neg (by simpa using hv), hv, ← hJ]
      rfl
    · rw [if_pos hv]
      rfl
  rw [hversion]
  by_cases hv : I.voters.isEmpty
  · have hempty : I.voters = ⟨∅⟩ := congrArg VoterSet.mk (ExtTreeMap.isEmpty_iff.mp hv)
    rw [if_pos hv, hempty, ← hJ']
    rfl
  · rw [if_neg hv]
    rfl

/-- **What a snapshot gives back**, for every order in which the hash maps are iterated. -/
theorem fromRecords_toRecords (h : WellFormed I) (hit : it.Of I) :
    fromRecords I.clusterId (I.toRecords it) = I.restored it := by
  unfold fromRecords toRecords
  simp only [flatten_cons, flatten_nil, applyAll_append, append_nil]
  simp only [applyAll_brokers h hit, applyAll_controllers h hit, applyAll_brokerConfigs hit,
    applyAll_topics_partitions h hit, applyAll_nextOffsets h hit, applyAll_topicConfigs h hit,
    applyAll_scram h hit, applyAll_aclsLiteral h hit, applyAll_aclsPrefixed h hit,
    applyAll_quotas h hit, applyAll_producerIds h, applyAll_tokens h hit,
    applyAll_clientMetrics h hit, applyAll_groupConfigs h hit, applyAll_features_epoch h,
    applyAll_quorum, new]
  rfl

end

/-! ## When the round trip is exact -/

/-- The images that come back from a snapshot as they were. -/
structure Restorable (I : MetadataImage) : Prop where
  /-- No broker is left with an empty configuration. -/
  brokerConfig : ∀ (n : NodeId) (c : ConfigMap), I.brokerConfigs[n]? = some c → c.isEmpty = false
  /-- No entity is left without quotas. -/
  clientQuota : ∀ (k : EntityKey) (q : QuotaMap), I.clientQuotas[k]? = some q → q.isEmpty = false
  /-- Quota values are numbers. -/
  quotaValue : ∀ (k : EntityKey) (q : QuotaMap), I.clientQuotas[k]? = some q →
    ∀ (key : String) (x : F64), q[key]? = some x → x.isNaN = false
  /-- The cached replication factor is that of the partition that settles it on a replay. -/
  replicationFactor : ∀ (n : String) (t : TopicRecord), I.topics[n]? = some t →
    ∀ p, I.settlingPartition n = some p → t.replicationFactor = p.replicas.length
  /-- The id of a topic names that topic. -/
  topicId : ∀ (n : String) (t : TopicRecord), I.topics[n]? = some t → I.topicIds[t.topicId]? = some n
  /-- The features epoch has a record, or there are no features. -/
  featuresEpoch : 0 ≤ I.featuresEpoch ∨ I.featuresEpoch = -1 ∧ I.featureLevels.isEmpty = true

lemma restoredFactor_eq_iff {n : String} {t : TopicRecord} :
    I.restoredFactor n t = t.replicationFactor ↔
      ∀ p, I.settlingPartition n = some p → t.replicationFactor = p.replicas.length := by
  unfold restoredFactor
  cases I.settlingPartition n with
  | none => simp
  | some p => simp [eq_comm]

lemma restoredEpoch_eq_iff :
    I.restoredEpoch = I.featuresEpoch ↔
      0 ≤ I.featuresEpoch ∨ I.featuresEpoch = -1 ∧ I.featureLevels.isEmpty = true := by
  unfold restoredEpoch
  split
  · simp_all
  · rename_i hneg
    rw [← ExtTreeMap.isEmpty_toList]
    cases I.featureLevels.toList using List.reverseRecOn with
    | nil =>
      simp only [foldl_nil, isEmpty_nil, and_true]
      omega
    | append_singleton l e =>
      simp only [foldl_append, foldl_cons, foldl_nil]
      constructor
      · intro heq
        omega
      · rintro (hpos | ⟨-, hempty⟩)
        · omega
        · simp at hempty

lemma restored_topicIds_iff (h : WellFormed I) :
    (∀ it : Iteration, it.Of I →
        rebuild ∅ (it.topics.map fun e => (e.2.topicId, e.1)) = I.topicIds) ↔
      ∀ (n : String) (t : TopicRecord), I.topics[n]? = some t → I.topicIds[t.topicId]? = some n := by
  constructor
  · intro hall n t ht
    -- An order that lists the topic last.
    have hmem : (n, t) ∈ I.topics.toList := (mem_toList _).mpr ht
    have hperm : (I.topics.toList.erase (n, t) ++ [(n, t)]).Perm I.topics.toList :=
      (perm_append_singleton _ _).trans (perm_cons_erase hmem).symm
    rw [← hall { I.keyOrder with topics := I.topics.toList.erase (n, t) ++ [(n, t)] }
      { I.keyOrder_of with topics := hperm }]
    simp [rebuild]
  · intro hids it hit
    refine ExtTreeMap.ext_getElem? fun id => ?_
    have hlisted : ∀ e ∈ it.topics, I.topicIds[e.2.topicId]? = some e.1 := fun e he =>
      hids e.1 e.2 ((mem_of_perm hit.topics).mp he)
    have hnd : ((it.topics.map fun e => (e.2.topicId, e.1)).map Prod.fst).Nodup := by
      rw [map_map]
      have hkeys : it.topics.Nodup := List.Nodup.of_map Prod.fst (nodup_keys_of_perm hit.topics)
      refine hkeys.map_on fun a ha b hb heq => ?_
      have hname : a.1 = b.1 := by
        have hb' := hlisted b hb
        rw [← show a.2.topicId = b.2.topicId from heq, hlisted a ha] at hb'
        exact Option.some.inj hb'
      have hrec : some a.2 = some b.2 := by
        rw [← (mem_of_perm hit.topics).mp ha, hname, (mem_of_perm hit.topics).mp hb]
      exact Prod.ext hname (Option.some.inj hrec)
    cases hid : I.topicIds[id]? with
    | some n =>
      obtain ⟨t, ht, rfl⟩ := h.topicId id n hid
      refine getElem?_rebuild_of_mem hnd (mem_map.mpr ⟨(n, t), ?_, rfl⟩)
      exact (mem_of_perm hit.topics).mpr ht
    | none =>
      rw [getElem?_rebuild_of_not_mem, ExtTreeMap.getElem?_empty]
      rw [map_map]
      intro hmem
      obtain ⟨e, he, rfl⟩ := mem_map.mp hmem
      exact absurd (hid.symm.trans (hlisted e he)) (by simp)

lemma restored_quotas_iff :
    (∀ key : EntityKey, Option.Rel quotaMapEq
        (I.clientQuotas.filter fun _ q => !q.toList.isEmpty)[key]? I.clientQuotas[key]?) ↔
      ∀ (k : EntityKey) (q : QuotaMap), I.clientQuotas[k]? = some q → q.isEmpty = false ∧
        ∀ (key : String) (x : F64), q[key]? = some x → x.isNaN = false := by
  refine forall_congr' fun k => ?_
  rw [getElem?_filter]
  cases hk : I.clientQuotas[k]? with
  | none => simp
  | some q =>
    have hself : quotaMapEq q q ↔ ∀ (key : String) (x : F64), q[key]? = some x → x.isNaN = false := by
      refine forall_congr' fun key => ?_
      cases q[key]? with
      | none => simp
      | some x => simp [F64.eq_self]
    by_cases hq : q = ∅
    · simp [hq, Option.filter]
    · simp [hq, Option.filter, hself]

lemma Reachable.clusterId_eq {clusterId : Uuid} (h : Reachable clusterId I) :
    I.clusterId = clusterId :=
  Sys.Run.preserves (P := fun J => J.clusterId = clusterId) h
    (fun _ rec hJ _ _ => (apply_clusterId rec).trans hJ) rfl

lemma restored_eq_iff (it : Iteration) :
    (I.restored it).eq I ↔
      (∀ (n : String) t, I.topics[n]? = some t → I.restoredFactor n t = t.replicationFactor) ∧
      rebuild ∅ (it.topics.map fun e => (e.2.topicId, e.1)) = I.topicIds ∧
      (∀ (n : NodeId) c, I.brokerConfigs[n]? = some c → c.isEmpty = false) ∧
      I.restoredEpoch = I.featuresEpoch ∧
      ∀ (k : EntityKey) (q : QuotaMap), I.clientQuotas[k]? = some q → q.isEmpty = false ∧
        ∀ (key : String) (x : F64), q[key]? = some x → x.isNaN = false := by
  have htopics : (I.topics.map fun n t => { t with replicationFactor := I.restoredFactor n t }) =
      I.topics ↔
      ∀ (n : String) t, I.topics[n]? = some t → I.restoredFactor n t = t.replicationFactor := by
    rw [map_eq_self_iff]
    refine forall_congr' fun n => forall_congr' fun t => imp_congr_right fun _ => ?_
    exact ⟨fun heq => congrArg TopicRecord.replicationFactor heq, fun heq => by rw [heq]⟩
  have hconfigs : (I.brokerConfigs.filter fun _ c => !c.toList.isEmpty) = I.brokerConfigs ↔
      ∀ (n : NodeId) c, I.brokerConfigs[n]? = some c → c.isEmpty = false := by
    rw [filter_eq_self_iff]
    simp
  unfold eq
  rw [← restored_quotas_iff, ← htopics, ← hconfigs]
  simp only [restored, mk.injEq, true_and, and_assoc]

/-- **A snapshot gives every reachable image back, in every iteration order, exactly when the image
is restorable.** -/
theorem snapshot_roundTrip_iff {clusterId : Uuid} (h : Reachable clusterId I) :
    (∀ it : Iteration, it.Of I → (fromRecords clusterId (I.toRecords it)).eq I) ↔ Restorable I := by
  have hwf := h.wellFormed
  obtain rfl := h.clusterId_eq
  constructor
  · intro hall
    have hkeep : ∀ it : Iteration, it.Of I → (I.restored it).eq I := fun it hit => by
      rw [← fromRecords_toRecords hwf hit]
      exact hall it hit
    obtain ⟨hfactor, -, hconfig, hepoch, hquota⟩ := (restored_eq_iff _).mp (hkeep _ I.keyOrder_of)
    exact {
      brokerConfig := hconfig
      clientQuota := fun k q hq => (hquota k q hq).1
      quotaValue := fun k q hq => (hquota k q hq).2
      replicationFactor := fun n t ht => restoredFactor_eq_iff.mp (hfactor n t ht)
      topicId := (restored_topicIds_iff hwf).mp fun it hit =>
        ((restored_eq_iff it).mp (hkeep it hit)).2.1
      featuresEpoch := restoredEpoch_eq_iff.mp hepoch }
  · intro hr it hit
    rw [fromRecords_toRecords hwf hit, restored_eq_iff]
    exact ⟨fun n t ht => restoredFactor_eq_iff.mpr (hr.replicationFactor n t ht),
      (restored_topicIds_iff hwf).mpr hr.topicId it hit, hr.brokerConfig,
      restoredEpoch_eq_iff.mpr hr.featuresEpoch,
      fun k q hq => ⟨hr.clientQuota k q hq, hr.quotaValue k q hq⟩⟩

def ordersPartition (index : ℤ) (replicas : List NodeId) : MetadataRecord :=
  .v1Partition ⟨"orders", index, 1, replicas, replicas, 0, [], [], [], 0⟩

/-- A topic with two partitions of two replicas, and a broker with a configuration, are restored in
every order. -/
theorem snapshot_roundTrip_two_partitions :
    let I := (new 0).applyAll [.v1Topic ⟨"orders", 7, 2, 2⟩, ordersPartition 0 [1, 2],
      ordersPartition 1 [2, 3], .v1BrokerConfig ⟨1, "log.retention.ms", some "1000"⟩]
    ∀ it : Iteration, it.Of I → (fromRecords 0 (I.toRecords it)).eq I := by
  intro I
  have hfactor : ∀ (n : String) t, I.topics[n]? = some t →
      I.restoredFactor n t = t.replicationFactor := forall_getElem?_iff.mpr (by decide)
  refine (snapshot_roundTrip_iff (reachable_of_runs (by decide))).mpr ?_
  exact {
    brokerConfig := forall_getElem?_iff.mpr (by decide)
    clientQuota := forall_getElem?_iff.mpr (by decide)
    quotaValue := forall_getElem?_iff.mpr (by
      simp [applyAll, apply, ordersPartition, new])
    replicationFactor := fun n t ht => restoredFactor_eq_iff.mp (hfactor n t ht)
    topicId := forall_getElem?_iff.mpr (by decide)
    featuresEpoch := by decide }

/-- Partition `0` of a topic gains a second replica while partition `1` keeps one: the cached
replication factor is two, and one after a snapshot. -/
theorem snapshot_loses_replicationFactor :
    let I := (new 0).applyAll [.v1Topic ⟨"orders", 7, 2, 1⟩, ordersPartition 0 [1],
      ordersPartition 1 [1], ordersPartition 0 [1, 2]]
    Reachable 0 I ∧ I.keyOrder.Of I ∧ ¬ (fromRecords 0 (I.toRecords I.keyOrder)).eq I := by
  intro I
  refine ⟨reachable_of_runs (by decide), I.keyOrder_of, fun heq => ?_⟩
  have htopic := congrArg (fun J => J.topics["orders"]?.map (·.replicationFactor)) heq.1
  revert htopic
  decide

end MetadataImage
end Crabka.Metadata
