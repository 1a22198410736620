import Crabka.Found.Replay
import Crabka.Metadata.Checkpoint

/-!
# Recovery of the metadata image

`KraftController::open` loads the latest checkpoint and replays the committed log from its first offset, so values
before the checkpoint are applied to an image that contains them. Most values fix what they write (`replay_window`).
Four kinds do not: an offset advance, a feature level, a partition change, and a removed topic, which takes with it
what a topic of the same name got later.
-/

namespace Crabka.Metadata
open Option hiding or_assoc
open List hiding getElem?_insert getElem?_modify
open Kraft (NodeId Uuid VoterSet)
open Found
open Std (ExtTreeMap)
open MetadataImage

/-! ## The log and its replay -/

/-- The metadata log by offset; an offset without a metadata value holds a control record. -/
abbrev MetadataLog := List (Option KraftMetadataRecord)

/-- The metadata values at the offsets from `start` to `target`. -/
def MetadataLog.values (log : MetadataLog) (start target : ℕ) : List KraftMetadataRecord :=
  ((log.take target).drop start).filterMap id

/-- `replay_committed`, with reads that pass over no batch. -/
def replayCommitted (scan : Scan) (log : MetadataLog) (image : MetadataImage) (start target : ℕ) :
    MetadataImage := (commitValues scan image (log.values start target)).1

/-- The image after the values below an offset were applied as they were committed. -/
def liveImage (scan : Scan) (clusterId : Uuid) (log : MetadataLog) (target : ℕ) : MetadataImage :=
  replayCommitted scan log (new clusterId) 0 target

/-- The image that `KraftController::open` recovers: the checkpoint, the committed log from its first offset, and the
quorum state. -/
def recoverImage (scan : Scan) (clusterId : Uuid) (checkpoint : List SnapshotItem)
    (log : MetadataLog) (logStart highWatermark : ℕ) (quorum : ℕ × VoterSet) :
    Except RaftError MetadataImage := do
  let image ← loadCheckpoint scan clusterId checkpoint
  let replayed := replayCommitted scan log image logStart highWatermark
  return (replayed.apply (.v1KRaftVersion quorum.1)).apply (.v1Voters quorum.2)

/-! ## Values that a replay absorbs -/

/-- A value that can be replayed over an image that contains it. -/
def Replayable (scan : Scan) (L : MetadataImage) (kr : KraftMetadataRecord) : Prop :=
  match kr with
  | .removeTopic _ | .partitionChange _ | .featureLevel _ _ => False
  | .unknown apiKey body => apiKey = privateFeaturesEpochKey ∨
        apiKey = privatePartitionOffsetAdvanceKey →
      ∀ rec, body = .ok rec → ∃ epoch, rec = .v1FeaturesEpoch epoch
  | .partition _ | .producerIds _ => (commitValue scan L kr).2 = .applied
  | .config c => c.resourceType = 2 → (commitValue scan L kr).2 = .applied
  | _ => True

/-- Every value of a history is replayable when its turn comes. -/
def AllReplayable (scan : Scan) : MetadataImage → List KraftMetadataRecord → Prop
  | _, [] => True
  | L, kr :: krs => Replayable scan L kr ∧ AllReplayable scan (commitValue scan L kr).1 krs

def addedAcl (kr : KraftMetadataRecord) : Option AclEntry :=
  match fromKraft Scan.keyOrder kr (new 0) with
  | .ok (.v1AccessControlEntry e) => some e
  | _ => none

/-- The ACLs that a history knows: those it starts with, and those it adds. -/
def knownAcls (L : MetadataImage) (krs : List KraftMetadataRecord) : List AclEntry :=
  L.allAcls ++ krs.filterMap addedAcl

def DistinctIds (es : List AclEntry) : Prop :=
  ∀ e ∈ es, ∀ e' ∈ es, aclId e = aclId e' → e = e'

/-- Ids tell topics and ACLs apart, so that no lookup depends on an iteration order. -/
structure Unambiguous (I : MetadataImage) : Prop where
  topics : IdsNamed I
  acls : DistinctIds I.allAcls

/-! ## One value -/

section
variable {scan scan' : Scan} {I : MetadataImage} {kr : KraftMetadataRecord}

lemma commitValue_cases (scan : Scan) (I : MetadataImage) (kr : KraftMetadataRecord) :
    (commitValue scan I kr).1 = I ∨ ∃ rec, fromKraft scan kr I = .ok rec ∧
      I.accepts rec ∧ commitValue scan I kr = (I.apply rec, .applied) := by
  unfold commitValue
  split
  · exact .inl rfl
  · rename_i rec hd
    split
    · exact .inl rfl
    · rename_i hval
      exact .inr ⟨rec, hd, by rw [accepts, hval], rfl⟩

lemma commitValue_of_applied (h : (commitValue scan I kr).2 = .applied) :
    ∃ rec, fromKraft scan kr I = .ok rec ∧ I.accepts rec ∧ commitValue scan I kr = (I.apply rec, .applied) := by
  cases hd : fromKraft scan kr I with
  | error e => simp [commitValue, hd] at h
  | ok rec =>
    cases hval : I.validate rec with
    | error e => simp [commitValue, hd, hval] at h
    | ok u => exact ⟨rec, rfl, by rw [accepts, hval], by simp only [commitValue, hd, hval]⟩

lemma wellFormed_commitValue (h : WellFormed I) : WellFormed (commitValue scan I kr).1 := by
  rcases commitValue_cases scan I kr with heq | ⟨rec, -, hacc, heq⟩
  · rwa [heq]
  · rw [heq]
    exact h.apply hacc

variable {krs : List KraftMetadataRecord}

lemma wellFormed_commitValues (h : WellFormed I) : WellFormed (commitValues scan I krs).1 := by
  induction krs generalizing I with
  | nil => exact h
  | cons kr krs ih => exact ih (wellFormed_commitValue h)

lemma reachable_commitValues {clusterId : Uuid} (h : Reachable clusterId I) :
    Reachable clusterId (commitValues scan I krs).1 := by
  induction krs generalizing I with
  | nil => exact h
  | cons kr krs ih =>
    refine ih ?_
    rcases commitValue_cases scan I kr with heq | ⟨rec, -, hacc, heq⟩
    · rwa [heq]
    · rw [heq]
      exact h.tail ⟨rec, hacc, trivial, rfl⟩

variable {rec : MetadataRecord}

lemma commitValue_of_accepts (hd : fromKraft scan kr I = .ok rec) (hacc : I.accepts rec) :
    (commitValue scan I kr).1 = I.apply rec := by
  rw [commitValue_applied hd hacc]

lemma commitValue_of_error {e : TranslateError} (hd : fromKraft scan kr I = .error e) :
    (commitValue scan I kr).1 = I := by
  simp only [commitValue, hd]

/-- Records that fix what they write, on every image. -/
def Plain : MetadataRecord → Prop
  | .v1BrokerRegistration _ | .v1ControllerRegistration _ | .v1UnregisterBroker _
  | .v1ScramCredential _ | .v1DeleteScramCredential _ | .v1AccessControlEntry _ | .v1ClientQuota _
  | .v1DelegationToken _ | .v1DeleteDelegationToken _ | .v1BrokerConfig _ | .v1FeaturesEpoch _ =>
    True
  | _ => False

lemma accepts_of_plain (h : Plain rec) : I.accepts rec = true := by
  cases rec with
  | v1Topic | v1Partition | v1DeleteTopic | v1TopicConfig | v1DeleteAccessControlEntry
  | v1ProducerIds | v1KRaftVersion | v1Voters | v1FeatureLevel | v1ClientMetricsConfig
  | v1PartitionDirAssignment | v1PartitionOffsetAdvance | v1GroupConfig => cases h
  | _ => rfl

end

/-! ## The replay in step with the history -/

def factor (I : MetadataImage) (n : String) : Option ℤ := I.topics[n]?.map (·.replicationFactor)

def bucket {κ : Type} [Ord κ] [Std.TransOrd κ] (m : ExtTreeMap κ (List AclEntry)) (k : κ) :
    List AclEntry := m[k]?.getD []

/-- The replayed image `R` beside the image `L` of the history, which led from `B` to `F`. -/
structure Replaying (B F L R : MetadataImage) : Prop where
  clusterId : R.clusterId = F.clusterId
  kraftVersion : R.kraftVersion = F.kraftVersion
  voters : R.voters = F.voters
  topicIds : R.topicIds = F.topicIds
  nextOffsets : R.partitionNextOffsets = F.partitionNextOffsets
  producerIds : R.producerIds = F.producerIds
  featureLevels : R.featureLevels = F.featureLevels
  featuresEpoch : R.featuresEpoch = L.featuresEpoch ∨ R.featuresEpoch = F.featuresEpoch
  brokers : Mixed F.brokers L.brokers R.brokers
  controllers : Mixed F.controllers L.controllers R.controllers
  scramCredentials : Mixed F.scramCredentials L.scramCredentials R.scramCredentials
  delegationTokens : Mixed F.delegationTokens L.delegationTokens R.delegationTokens
  topics : Related (fun _ (a b : TopicRecord) => b.topicId = a.topicId ∧ b.name = a.name) F.topics R.topics
  factors : ∀ n, factor R n = factor L n ∨ factor R n = factor F n
  partitions : MixedCells F.partitions L.partitions R.partitions
  topicConfigs : MixedCells F.topicConfigs L.topicConfigs R.topicConfigs
  clientMetricsConfigs : MixedCells F.clientMetricsConfigs L.clientMetricsConfigs R.clientMetricsConfigs
  groupConfigs : MixedCells F.groupConfigs L.groupConfigs R.groupConfigs
  brokerConfigs : MixedCells F.brokerConfigs L.brokerConfigs R.brokerConfigs
  brokerConfigKeys : ∀ n, R.brokerConfigs.contains n = L.brokerConfigs.contains n ∨
    R.brokerConfigs.contains n = F.brokerConfigs.contains n
  clientQuotas : MixedCells F.clientQuotas L.clientQuotas R.clientQuotas
  clientQuotaKeys : ∀ k, R.clientQuotas.contains k = L.clientQuotas.contains k ∨
    R.clientQuotas.contains k = F.clientQuotas.contains k
  aclsLiteral : ∀ k, Rebuilt (bucket B.aclsLiteral k) (bucket F.aclsLiteral k)
    (bucket L.aclsLiteral k) (bucket R.aclsLiteral k)
  aclsPrefixed : ∀ k, Rebuilt (bucket B.aclsPrefixed k) (bucket F.aclsPrefixed k)
    (bucket L.aclsPrefixed k) (bucket R.aclsPrefixed k)

section
variable {B F L R : MetadataImage}

lemma Replaying.start : Replaying B F B F where
  clusterId := rfl
  kraftVersion := rfl
  voters := rfl
  topicIds := rfl
  nextOffsets := rfl
  producerIds := rfl
  featureLevels := rfl
  featuresEpoch := .inr rfl
  brokers := .start
  controllers := .start
  scramCredentials := .start
  delegationTokens := .start
  topics := .refl _ fun _ _ => ⟨rfl, rfl⟩
  factors _ := .inr rfl
  partitions := .start
  topicConfigs := .start
  clientMetricsConfigs := .start
  groupConfigs := .start
  brokerConfigs := .start
  brokerConfigKeys _ := .inr rfl
  clientQuotas := .start
  clientQuotaKeys _ := .inr rfl
  aclsLiteral _ := .start
  aclsPrefixed _ := .start

variable {κ : Type}

lemma eq_of_buckets [Ord κ] [Std.TransOrd κ] [Std.LawfulEqOrd κ]
    {m m' : ExtTreeMap κ (List AclEntry)} (h : ∀ k : κ, bucket m k = bucket m' k)
    (hm : ∀ (k : κ) es, m[k]? = some es → es ≠ []) (hm' : ∀ (k : κ) es, m'[k]? = some es → es ≠ []) :
    m = m' := by
  refine ExtTreeMap.ext_getElem? fun k => ?_
  have hk := h k
  unfold bucket at hk
  cases hmk : m[k]? with
  | none =>
    rw [hmk, getD_none] at hk
    cases hmk' : m'[k]? with
    | none => rfl
    | some es => rw [hmk', getD_some] at hk; exact absurd hk.symm (hm' k es hmk')
  | some es =>
    rw [hmk, getD_some] at hk
    cases hmk' : m'[k]? with
    | none => rw [hmk', getD_none] at hk; exact absurd hk (hm k es hmk)
    | some es' => rw [hmk', getD_some] at hk; rw [hk]

/-- **At the end of the history the replay is back where it started.** -/
theorem Replaying.eq (h : Replaying B F F R) (hF : WellFormed F) (hR : WellFormed R) : R = F := by
  have hparts : R.partitions = F.partitions :=
    eq_of_cells_nonempty (fun k i => (h.partitions k i).elim id id)
      (fun n ps hps => (hR.partitionOwner n ps hps).2) fun n ps hps => (hF.partitionOwner n ps hps).2
  have htopics : R.topics = F.topics := by
    refine ExtTreeMap.ext_getElem? fun n => ?_
    cases hn : F.topics[n]? with
    | none => exact h.topics.none_right hn
    | some f =>
      obtain ⟨r, hr, hid, hname⟩ := h.topics.right hn
      have hcount : r.partitions = f.partitions := by
        rw [hR.topicCount n r hr, hF.topicCount n f hn, topicPartitionCount, topicPartitionCount, hparts]
      have hfactor : r.replicationFactor = f.replicationFactor := by
        have := (h.factors n).elim id id
        simpa [factor, hr, hn] using this
      obtain ⟨name, id, count, rf⟩ := r
      obtain ⟨name', id', count', rf'⟩ := f
      simp_all
  have htopicConfigs : R.topicConfigs = F.topicConfigs :=
    eq_of_cells_nonempty (fun k i => (h.topicConfigs k i).elim id id) hR.topicConfig hF.topicConfig
  have hmetrics : R.clientMetricsConfigs = F.clientMetricsConfigs :=
    eq_of_cells_nonempty (fun k i => (h.clientMetricsConfigs k i).elim id id)
      hR.clientMetricsConfig hF.clientMetricsConfig
  have hgroups : R.groupConfigs = F.groupConfigs :=
    eq_of_cells_nonempty (fun k i => (h.groupConfigs k i).elim id id) hR.groupConfig hF.groupConfig
  have hbrokerConfigs : R.brokerConfigs = F.brokerConfigs :=
    eq_of_cells (fun k i => (h.brokerConfigs k i).elim id id) fun k => (h.brokerConfigKeys k).elim id id
  have hquotas : R.clientQuotas = F.clientQuotas :=
    eq_of_cells (fun k i => (h.clientQuotas k i).elim id id) fun k => (h.clientQuotaKeys k).elim id id
  have hliteral : R.aclsLiteral = F.aclsLiteral :=
    eq_of_buckets (fun k => (h.aclsLiteral k).eq) (fun k es hes => (hR.aclLiteral k es hes).ne_nil)
      fun k es hes => (hF.aclLiteral k es hes).ne_nil
  have hprefixed : R.aclsPrefixed = F.aclsPrefixed :=
    eq_of_buckets (fun k => (h.aclsPrefixed k).eq)
      (fun k es hes => (hR.aclPrefixed k es hes).ne_nil)
      fun k es hes => (hF.aclPrefixed k es hes).ne_nil
  have hbrokers := h.brokers.eq
  have hcontrollers := h.controllers.eq
  have hscram := h.scramCredentials.eq
  have htokens := h.delegationTokens.eq
  obtain ⟨hcluster, hversion, hvoters, hids, hoffsets, hproducers, hlevels⟩ := h
  cases R
  cases F
  simp_all

/-! ### Cells that values write -/

section
variable {κ ν : Type} [Ord κ] [Std.TransOrd κ] [Std.LawfulEqOrd κ] [DecidableEq κ]

lemma getElem?_setKey (m : ExtTreeMap String ν) (key : String) (v : Option ν) (i : String) :
    (setKey m key v)[i]? = if i = key then v else m[i]? := by
  cases v with
  | none => exact getElem?_erase m key i
  | some x => exact getElem?_insert m key x i

lemma cell_upsert {ι : Type} [Ord ι] [Std.TransOrd ι] [Std.LawfulEqOrd ι] [DecidableEq ι]
    {f : ExtTreeMap ι ν → ExtTreeMap ι ν} {key : ι} {v : Option ν}
    (hf : ∀ m (i : ι), (f m)[i]? = if i = key then v else m[i]?) (m : ExtTreeMap κ (ExtTreeMap ι ν)) (k j : κ) (i : ι) :
    cell (upsert m k ∅ f) j i = if j = k ∧ i = key then v else cell m j i := by
  rw [cell_eq_getD, cell_eq_getD, upsert, getElem?_insert]
  by_cases hj : j = k
  · rw [if_pos hj, getD_some, hf, hj]
    simp
  · rw [if_neg hj, if_neg fun h => hj h.1]

lemma cell_upsert_setKey (m : ExtTreeMap κ (ExtTreeMap String ν)) (k : κ) (key : String)
    (v : Option ν) (j : κ) (i : String) :
    cell (upsert m k ∅ (setKey · key v)) j i = if j = k ∧ i = key then v else cell m j i :=
  cell_upsert (fun m i => getElem?_setKey m key v i) m k j i

lemma contains_upsert {ν : Type} (m : ExtTreeMap κ ν) (k : κ) (d : ν) (f : ν → ν) (j : κ) :
    (upsert m k d f).contains j = (decide (j = k) || m.contains j) := by
  rw [ExtTreeMap.contains_eq_isSome_getElem?, ExtTreeMap.contains_eq_isSome_getElem?, upsert, getElem?_insert]
  by_cases hj : j = k <;> simp [hj]

lemma contains_upsert_mixed {ν : Type} {f l r : ExtTreeMap κ ν}
    (h : ∀ k : κ, r.contains k = l.contains k ∨ r.contains k = f.contains k) (k : κ) (d : ν)
    (g : ν → ν) (j : κ) :
    (upsert r k d g).contains j = (upsert l k d g).contains j ∨ (upsert r k d g).contains j = f.contains j := by
  rw [contains_upsert, contains_upsert]
  by_cases hj : j = k
  · simp [hj]
  · simpa [hj] using h j

end

lemma cell_replaceConfig_setKey (m : ExtTreeMap String ConfigMap) (name key : String)
    (v : Option String) (n i : String) :
    cell (replaceConfig m name (setKey (m[name]?.getD ∅) key v)) n i =
      if n = name ∧ i = key then v else cell m n i := by
  rw [cell_eq_getD, cell_eq_getD, getElem?_replaceConfig]
  by_cases hn : n = name
  · have hset : (if (setKey (m[name]?.getD ∅) key v).isEmpty then none
        else some (setKey (m[name]?.getD ∅) key v)).getD ∅ = setKey (m[name]?.getD ∅) key v := by
      split_ifs with hempty
      · rw [getD_none, ExtTreeMap.isEmpty_iff.mp hempty]
      · rfl
    rw [if_pos hn, hset, getElem?_setKey, hn]
    simp
  · rw [if_neg hn, if_neg fun h => hn h.1]

lemma cell_upsert_partition (m : ExtTreeMap String PartitionMap) (p : PartitionRecord) (n : String) (i : ℤ) :
    cell (upsert m p.topic ∅ (·.insert p.partition p)) n i =
      if n = p.topic ∧ i = p.partition then some p else cell m n i :=
  cell_upsert (fun m i => getElem?_insert m p.partition p i) m p.topic n i

lemma bucket_upsert [Ord κ] [Std.TransOrd κ] [Std.LawfulEqOrd κ] [DecidableEq κ]
    (m : ExtTreeMap κ (List AclEntry)) (k : κ) (e : AclEntry) (j : κ) :
    bucket (upsert m k [] (aclPush · e)) j =
      if j = k then (bucket m k).filter (· != e) ++ [e] else bucket m j := by
  rw [bucket, upsert, getElem?_insert]
  by_cases hj : j = k
  · rw [if_pos hj, if_pos hj]
    rfl
  · rw [if_neg hj, if_neg hj]
    rfl

lemma mem_bucket_upsert [Ord κ] [Std.TransOrd κ] [Std.LawfulEqOrd κ] {m : ExtTreeMap κ (List AclEntry)} {k j : κ}
    {e e' : AclEntry} : e ∈ bucket (upsert m k [] (aclPush · e')) j ↔ e ∈ bucket m j ∨ e = e' ∧ j = k := by
  classical
  rw [bucket_upsert]
  by_cases hj : j = k
  · by_cases he : e = e' <;> simp [hj, he]
  · simp [hj]

lemma mem_allAcls_bucket {I : MetadataImage} {e : AclEntry} :
    e ∈ I.allAcls ↔ (∃ k, e ∈ bucket I.aclsLiteral k) ∨ ∃ k, e ∈ bucket I.aclsPrefixed k := by
  have hbucket : ∀ es : Option (List AclEntry), (∃ l, es = some l ∧ e ∈ l) ↔ e ∈ es.getD [] := by
    rintro (_ | l) <;> simp
  simp only [mem_allAcls, hbucket, bucket]

lemma Rebuilt.upsert [Ord κ] [Std.TransOrd κ] [Std.LawfulEqOrd κ] [DecidableEq κ]
    {b f l r : ExtTreeMap κ (List AclEntry)}
    (h : ∀ k : κ, Rebuilt (bucket b k) (bucket f k) (bucket l k) (bucket r k)) (k : κ)
    (e : AclEntry) (j : κ) :
    Rebuilt (bucket b j) (bucket f j) (bucket (Found.upsert l k [] (aclPush · e)) j)
      (bucket (Found.upsert r k [] (aclPush · e)) j) := by
  rw [bucket_upsert, bucket_upsert]
  obtain rfl | hj := eq_or_ne j k
  · rw [if_pos rfl, if_pos rfl]
    exact (h j).move _ (by simp)
  · rw [if_neg hj, if_neg hj]
    exact h j

lemma bucket_retainWith [Ord κ] [Std.TransOrd κ] [Std.LawfulEqOrd κ]
    (m : ExtTreeMap κ (List AclEntry)) (keep : AclEntry → Bool) (k : κ) :
    bucket (retainWith m keep) k = (bucket m k).filter keep := by
  simp only [bucket, retainWith, getElem?_filterMap]
  cases m[k]? with
  | none => rfl
  | some es =>
    simp only [bind_some, getD_some]
    split_ifs with hempty
    · rw [getD_none, isEmpty_iff.mp hempty]
    · rfl

/-! ### The replay of one value -/

variable {rec : MetadataRecord}

lemma Replaying.apply_plain (h : Replaying B F L R) (hp : Plain rec) :
    Replaying B F (L.apply rec) (R.apply rec) := by
  cases rec with
  | v1BrokerRegistration b => exact { h with brokers := h.brokers.insert _ _ }
  | v1UnregisterBroker n => exact { h with brokers := h.brokers.erase _ }
  | v1ControllerRegistration c => exact { h with controllers := h.controllers.insert _ _ }
  | v1ScramCredential r => exact { h with scramCredentials := h.scramCredentials.insert _ _ }
  | v1DeleteScramCredential r => exact { h with scramCredentials := h.scramCredentials.erase _ }
  | v1DelegationToken t => exact { h with delegationTokens := h.delegationTokens.insert _ _ }
  | v1DeleteDelegationToken k => exact { h with delegationTokens := h.delegationTokens.erase _ }
  | v1FeaturesEpoch e => exact { h with featuresEpoch := .inl rfl }
  | v1BrokerConfig c =>
    exact { h with
      brokerConfigs := h.brokerConfigs.write (cell_upsert_setKey _ _ _ _) (cell_upsert_setKey _ _ _ _)
      brokerConfigKeys := contains_upsert_mixed h.brokerConfigKeys _ _ _ }
  | v1ClientQuota q =>
    exact { h with
      clientQuotas := h.clientQuotas.write (cell_upsert_setKey _ _ _ _) (cell_upsert_setKey _ _ _ _)
      clientQuotaKeys := contains_upsert_mixed h.clientQuotaKeys _ _ _ }
  | v1AccessControlEntry e =>
    cases hpat : e.patternType with
    | literal =>
      simp only [apply, hpat]
      exact { h with aclsLiteral := Rebuilt.upsert h.aclsLiteral _ e }
    | prefixed =>
      simp only [apply, hpat]
      exact { h with aclsPrefixed := Rebuilt.upsert h.aclsPrefixed _ e }
  | _ => cases hp

variable {scan scan' : Scan} {kr : KraftMetadataRecord}
section
variable (h : Replaying B F L R)
include h

lemma Replaying.commit_plain
    (hd : fromKraft scan kr L = fromKraft scan' kr R)
    (hp : ∀ rec, fromKraft scan' kr R = .ok rec → Plain rec) :
    Replaying B F (commitValue scan L kr).1 (commitValue scan' R kr).1 := by
  cases hR : fromKraft scan' kr R with
  | error e => rwa [commitValue_of_error (hd.trans hR), commitValue_of_error hR]
  | ok rec =>
    have hplain := hp rec hR
    rw [commitValue_of_accepts (hd.trans hR) (accepts_of_plain hplain),
      commitValue_of_accepts hR (accepts_of_plain hplain)]
    exact h.apply_plain hplain

omit h in
lemma commit_override (scan scan' : Scan) (o : Overrides) (c : ConfigRecord)
    (hcode : c.resourceType = o.code)
    (hL : ∀ m, L.accepts (o.kind c.resourceName m))
    (hR : ∀ m, R.accepts (o.kind c.resourceName m)) :
    ∃ l r, (commitValue scan L (.config c)).1 = o.field.set l L ∧
      (commitValue scan' R (.config c)).1 = o.field.set r R ∧
      ∀ f, MixedCells f (o.field.get L) (o.field.get R) → MixedCells f l r := by
  obtain ⟨code, name, key, value⟩ := c
  obtain rfl := hcode
  refine ⟨_, _, ?_, ?_, fun f hf =>
    hf.write (cell_replaceConfig_setKey _ name key value) (cell_replaceConfig_setKey _ _ _ _)⟩
  · rw [commitValue_of_accepts (o.decode scan L name key value) (hL _), o.apply]
  · rw [commitValue_of_accepts (o.decode scan' R name key value) (hR _), o.apply]

lemma Replaying.commit_config {c : ConfigRecord}
    (htopic : c.resourceType = 2 → L.topics.contains c.resourceName ∧ R.topics.contains c.resourceName) :
    Replaying B F (commitValue scan L (.config c)).1 (commitValue scan' R (.config c)).1 := by
  by_cases h4 : c.resourceType = 4
  · refine h.commit_plain ?_ fun rec hrec => ?_
    · simp only [fromKraft, configFromKraft, h4, if_true]
    · simp only [fromKraft, configFromKraft, h4, if_true] at hrec
      obtain ⟨n, -, hrec⟩ := bind_eq_ok.mp hrec
      cases hrec
      trivial
  by_cases h2 : c.resourceType = 2
  · obtain ⟨hL, hR⟩ := htopic h2
    have hacc : ∀ {I : MetadataImage}, I.topics.contains c.resourceName →
        ∀ m, I.accepts (topicOverrides.kind c.resourceName m) := by
      intro I hI m
      simp only [topicOverrides, accepts, validate, hI, if_true]
    obtain ⟨l, r, hl, hr, hmixed⟩ := commit_override scan scan' topicOverrides c h2 (hacc hL) (hacc hR)
    rw [hl, hr]
    exact { h with topicConfigs := hmixed _ h.topicConfigs }
  by_cases h16 : c.resourceType = 16
  · obtain ⟨l, r, hl, hr, hmixed⟩ := commit_override scan scan' clientMetricsOverrides c h16
      (fun _ => rfl) (fun _ => rfl)
    rw [hl, hr]
    exact { h with clientMetricsConfigs := hmixed _ h.clientMetricsConfigs }
  by_cases h32 : c.resourceType = 32
  · obtain ⟨l, r, hl, hr, hmixed⟩ := commit_override scan scan' groupOverrides c h32
      (fun _ => rfl) (fun _ => rfl)
    rw [hl, hr]
    exact { h with groupConfigs := hmixed _ h.groupConfigs }
  · have hnone : ∀ (scan : Scan) (I : MetadataImage), fromKraft scan (.config c) I =
        .error (.invalid "config resource_type" s!"unsupported resource_type {c.resourceType}") := by
      intro scan I
      simp only [fromKraft, configFromKraft, if_neg h4, if_neg h2, if_neg h16, if_neg h32]
    rwa [commitValue_of_error (hnone scan L), commitValue_of_error (hnone scan' R)]

omit h in
lemma commitValue_topic_of_some {I : MetadataImage} {t : KTopicRecord} {a : TopicRecord}
    (ht : I.topics[t.name]? = some a) : (commitValue scan I (.topic t)).1 = I := by
  have hval : I.validate (.v1Topic (topicFromKraft t I)) = .error (.topicExists t.name) :=
    validate_topic_of_le (t := topicFromKraft t I) ht le_rfl
  simp only [commitValue, fromKraft, hval]

omit h in
lemma commitValue_topic_of_none {I : MetadataImage} {t : KTopicRecord} (ht : I.topics[t.name]? = none) :
    (commitValue scan I (.topic t)).1 = I.apply (.v1Topic (topicFromKraft t I)) := by
  have hacc : I.accepts (.v1Topic (topicFromKraft t I)) := by simp [accepts, validate, topicFromKraft, ht]
  rw [commitValue_of_accepts (show fromKraft scan (.topic t) I = _ from rfl) hacc]

/-- A topic record, once the topic is among the final ones: only the history may take it. -/
lemma Replaying.commit_topic {t : KTopicRecord} (hR : R.topics.contains t.name) :
    Replaying B F (commitValue scan L (.topic t)).1 (commitValue scan' R (.topic t)).1 := by
  obtain ⟨b, hb⟩ := exists_of_contains hR
  rw [commitValue_topic_of_some hb]
  cases hL : L.topics[t.name]? with
  | some a => rwa [commitValue_topic_of_some hL]
  | none =>
    rw [commitValue_topic_of_none hL]
    refine { h with factors := fun n => ?_ }
    by_cases hn : n = t.name
    · -- The history did not have the topic yet, so the replay still has the final factor.
      rcases h.factors n with heq | heq
      · rw [hn] at heq
        simp [factor, hb, hL] at heq
      · exact .inr heq
    · rcases h.factors n with heq | heq
      · refine .inl (heq.trans ?_)
        simp only [factor, apply, getElem?_insert]
        rw [if_neg (show ¬ n = (topicFromKraft t L).name from hn)]
      · exact .inr heq

omit h in
lemma factor_apply_partition (I : MetadataImage) (p : PartitionRecord) (n : String) :
    factor (I.apply (.v1Partition p)) n =
      if n = p.topic then (factor I n).map (replicationFactorFrom · p.replicas) else factor I n := by
  simp only [factor, apply, getElem?_modify]
  split
  · rw [Option.map_map, Option.map_map]
    rfl
  · rfl

lemma Replaying.apply_partition {p : PartitionRecord}
    (hL : L.topics.contains p.topic) (hR : R.topics.contains p.topic) :
    Replaying B F (L.apply (.v1Partition p)) (R.apply (.v1Partition p)) := by
  have hsome : ∀ {I : MetadataImage}, I.topics.contains p.topic → ∃ rf, factor I p.topic = some rf := by
    intro I hI
    obtain ⟨t, ht⟩ := exists_of_contains hI
    exact ⟨t.replicationFactor, by rw [factor, ht]; rfl⟩
  refine { h with
    topics := h.topics.modify_right fun a b hab => hab
    partitions := h.partitions.write (cell_upsert_partition _ p) (cell_upsert_partition _ p)
    factors := fun n => ?_ }
  rw [factor_apply_partition, factor_apply_partition]
  obtain rfl | hn := eq_or_ne n p.topic
  · rw [if_pos rfl, if_pos rfl]
    by_cases hfits : (p.replicas.length : ℤ) ≤ i16Max
    · obtain ⟨a, ha⟩ := hsome hL
      obtain ⟨b, hb⟩ := hsome hR
      simp only [ha, hb, map_some, replicationFactorFrom_of_le hfits, true_or]
    · have hkeep : ∀ rf, replicationFactorFrom rf p.replicas = rf := fun rf => if_neg hfits
      simpa only [hkeep, Option.map_id'] using h.factors p.topic
  · rw [if_neg hn, if_neg hn]
    exact h.factors n

end
variable {I : MetadataImage}

lemma commitValue_removeAcl (hids : DistinctIds I.allAcls) (hwf : WellFormed I) (id : Uuid) :
    (commitValue scan I (.removeAccessControlEntry id)).1 = keepAcls I fun e => aclId e != id := by
  cases hfind : (scan.acls I).find? (aclId · == id) with
  | none =>
    have hnone : ∀ e ∈ I.allAcls, (aclId e != id) := by
      intro e he
      have := List.find?_eq_none.mp hfind e ((scan.acls_perm I).mem_iff.mpr he)
      simpa using this
    rw [commitValue_of_error (e := .unknownAclId id) (by simp only [fromKraft, hfind]), keepAcls_congr hnone]
    simp only [keepAcls, retainWith_true fun k es hes => (hwf.aclLiteral k es hes).ne_nil,
      retainWith_true fun k es hes => (hwf.aclPrefixed k es hes).ne_nil]
  | some e =>
    obtain ⟨he, hid⟩ := mem_of_find?_acls hfind
    have hd : fromKraft scan (.removeAccessControlEntry id) I =
        .ok (.v1DeleteAccessControlEntry (exactFilter e)) := by
      simp only [fromKraft, hfind]
    rw [commitValue_of_accepts hd rfl]
    refine keepAcls_congr fun x hx => ?_
    rw [exactFilter_matches, Bool.eq_iff_iff]
    simp only [Bool.not_eq_true', beq_eq_false_iff_ne, bne_iff_ne]
    exact not_congr ⟨fun heq => heq ▸ hid, fun heq => hids x hx e he (heq.trans hid.symm)⟩

lemma Replaying.keepAcls (h : Replaying B F L R) (keep : AclEntry → Bool) :
    Replaying B F (keepAcls L keep) (keepAcls R keep) :=
  { h with
    aclsLiteral := fun k => by
      simp only [Metadata.keepAcls, bucket_retainWith]
      exact (h.aclsLiteral k).filter keep
    aclsPrefixed := fun k => by
      simp only [Metadata.keepAcls, bucket_retainWith]
      exact (h.aclsPrefixed k).filter keep }

/-! ### What only grows -/

/-- Topics stay, with their ids, and the next producer id never falls. -/
structure Grows (I J : MetadataImage) : Prop where
  topics : ∀ (n : String) (t : TopicRecord), I.topics[n]? = some t →
    ∃ t', J.topics[n]? = some t' ∧ t'.topicId = t.topicId
  nextProducerId : I.nextProducerId ≤ J.nextProducerId

lemma Grows.refl (I : MetadataImage) : Grows I I := ⟨fun _ t ht => ⟨t, ht, rfl⟩, le_rfl⟩

variable {J : MetadataImage}

lemma Grows.trans {K : MetadataImage} (h : Grows I J) (h' : Grows J K) : Grows I K := by
  refine ⟨fun n t ht => ?_, h.nextProducerId.trans h'.nextProducerId⟩
  obtain ⟨t', ht', hid⟩ := h.topics n t ht
  obtain ⟨t'', ht'', hid'⟩ := h'.topics n t' ht'
  exact ⟨t'', ht'', hid'.trans hid⟩

lemma Grows.apply (hacc : I.accepts rec) (hrec : ∀ n, rec ≠ .v1DeleteTopic n) : Grows I (I.apply rec) := by
  cases rec with
  | v1Topic t =>
    refine ⟨fun n t' ht' => ?_, le_rfl⟩
    simp only [apply, getElem?_insert]
    by_cases hn : n = t.name
    · refine ⟨_, if_pos hn, ?_⟩
      exact (topicId_of_accepts hacc t' (hn ▸ ht')).symm
    · exact ⟨t', by rw [if_neg hn]; exact ht', rfl⟩
  | v1Partition p =>
    refine ⟨fun n t' ht' => ?_, le_rfl⟩
    simp only [apply, getElem?_modify]
    by_cases hn : n = p.topic
    · exact ⟨notePartition _ p t', by rw [if_pos hn, ht', map_some], rfl⟩
    · exact ⟨t', by rw [if_neg hn]; exact ht', rfl⟩
  | v1DeleteTopic n => exact absurd rfl (hrec n)
  | v1AccessControlEntry e =>
    cases hp : e.patternType <;> simp only [apply, hp] <;> exact ⟨fun n t ht => ⟨t, ht, rfl⟩, le_rfl⟩
  | v1ProducerIds r =>
    simp only [apply]
    split_ifs with hgt
    · exact ⟨fun n t ht => ⟨t, ht, rfl⟩, le_of_lt hgt⟩
    · exact Grows.refl I
  | _ => exact ⟨fun n t ht => ⟨t, ht, rfl⟩, le_rfl⟩

/-- Kinds of values that are decoded without a look at the image. -/
def Closed : KraftMetadataRecord → Prop
  | .registerBroker _ | .registerController _ | .unregisterBroker _ | .userScramCredential _
  | .removeUserScramCredential _ | .accessControlEntry _ | .clientQuota _ | .delegationToken _
  | .removeDelegationToken _ | .unknown _ _ | .brokerRegistrationChange | .noOp
  | .beginTransaction | .endTransaction | .other => True
  | _ => False

lemma fromKraft_closed (hc : Closed kr) (I J : MetadataImage) : fromKraft scan kr I = fromKraft scan' kr J := by
  cases kr with
  | featureLevel | removeAccessControlEntry | producerIds | config | topic | removeTopic | partition
  | partitionChange => cases hc
  | _ => rfl

lemma plain_of_closed (hc : Closed kr) (hr : Replayable scan L kr)
    (hd : fromKraft scan' kr I = .ok rec) : Plain rec := by
  cases kr with
  | featureLevel | removeAccessControlEntry | producerIds | config | topic | removeTopic | partition
  | partitionChange => cases hc
  | registerBroker | registerController | unregisterBroker | removeUserScramCredential
  | delegationToken =>
    obtain ⟨_, -, h⟩ := bind_eq_ok.mp hd
    cases h
    trivial
  | userScramCredential r =>
    obtain ⟨_, -, h⟩ := bind_eq_ok.mp hd
    split at h <;> cases h
    trivial
  | accessControlEntry e =>
    obtain ⟨_, -, h⟩ := bind_eq_ok.mp hd
    obtain ⟨_, -, h⟩ := bind_eq_ok.mp h
    obtain ⟨_, -, h⟩ := bind_eq_ok.mp h
    obtain ⟨_, -, h⟩ := bind_eq_ok.mp h
    cases h
    trivial
  | clientQuota | removeDelegationToken => cases hd; trivial
  | unknown apiKey body =>
    simp only [fromKraft] at hd
    split at hd
    · rename_i hkey
      split at hd
      · rename_i r
        obtain rfl := Except.ok.inj hd
        obtain ⟨epoch, rfl⟩ := hr hkey r rfl
        trivial
      · cases hd
    · cases hd
  | brokerRegistrationChange | noOp | beginTransaction | endTransaction | other => cases hd

/-- The records that values of the other kinds are decoded to. -/
def Dependent : MetadataRecord → Prop
  | .v1Topic _ | .v1Partition _ | .v1ProducerIds _ | .v1DeleteAccessControlEntry _
  | .v1BrokerConfig _ | .v1TopicConfig _ | .v1ClientMetricsConfig _ | .v1GroupConfig _ => True
  | _ => False

lemma dependent_of_not_closed (hc : ¬ Closed kr) (hr : Replayable scan L kr)
    (hd : fromKraft scan' kr I = .ok rec) : Dependent rec := by
  cases kr with
  | featureLevel | removeTopic | partitionChange => cases hr
  | removeAccessControlEntry id =>
    simp only [fromKraft] at hd
    split at hd <;> cases hd
    trivial
  | producerIds | partition =>
    obtain ⟨_, -, h⟩ := bind_eq_ok.mp hd
    cases h
    trivial
  | config c =>
    simp only [fromKraft, configFromKraft] at hd
    split at hd
    · obtain ⟨_, -, h⟩ := bind_eq_ok.mp hd
      cases h
      trivial
    · split at hd
      · cases hd; trivial
      · split at hd
        · cases hd; trivial
        · split at hd <;> cases hd
          trivial
  | topic t => cases hd; trivial
  | _ => exact absurd trivial hc

lemma ne_deleteTopic (hr : Replayable scan L kr) (hd : fromKraft scan' kr I = .ok rec)
    (n : String) : rec ≠ .v1DeleteTopic n := by
  rintro rfl
  by_cases hc : Closed kr
  · exact plain_of_closed hc hr hd
  · exact dependent_of_not_closed hc hr hd

lemma grows_commitValue (hr : Replayable scan L kr) : Grows L (commitValue scan L kr).1 := by
  rcases commitValue_cases scan L kr with heq | ⟨rec, hd, hacc, heq⟩
  · rw [heq]
    exact .refl L
  · rw [heq]
    exact .apply hacc fun n => ne_deleteTopic hr hd n

variable {krs : List KraftMetadataRecord}

lemma grows_commitValues (hr : AllReplayable scan L krs) : Grows L (commitValues scan L krs).1 := by
  induction krs generalizing L with
  | nil => exact .refl L
  | cons kr krs ih => exact (grows_commitValue hr.1).trans (ih hr.2)

/-! ### The ACLs that a history knows -/

variable {e : AclEntry}

lemma mem_allAcls_apply : e ∈ (I.apply rec).allAcls ↔ rec = .v1AccessControlEntry e ∨
    e ∈ I.allAcls ∧ ∀ f, .v1DeleteAccessControlEntry f = rec → f.matches e = false := by
  cases rec with
  | v1AccessControlEntry e' =>
    rw [mem_allAcls_bucket, mem_allAcls_bucket, MetadataRecord.v1AccessControlEntry.injEq, eq_comm]
    cases hp : e'.patternType <;> simp [apply, hp, mem_bucket_upsert, exists_or, or_assoc, or_comm, or_left_comm]
  | v1DeleteAccessControlEntry f => exact mem_allAcls_keepAcls.trans (by simp)
  | v1ProducerIds r =>
    simp only [apply]
    split <;> simp [allAcls]
  | _ =>
    show e ∈ I.allAcls ↔ _
    simp

lemma mem_allAcls_commitValue (hr : Replayable scan L kr)
    (he : e ∈ (commitValue scan' I kr).1.allAcls) : e ∈ I.allAcls ∨ addedAcl kr = some e := by
  rcases commitValue_cases scan' I kr with heq | ⟨rec, hd, -, heq⟩
  · rw [heq] at he
    exact .inl he
  · rw [heq] at he
    rcases mem_allAcls_apply.mp he with rfl | ⟨hold, -⟩
    · by_cases hc : Closed kr
      · refine .inr ?_
        unfold addedAcl
        rw [fromKraft_closed hc (new 0) I, hd]
      · exact absurd (dependent_of_not_closed hc hr hd) id
    · exact .inl hold

lemma mem_knownAcls (hr : AllReplayable scan L krs) (he : e ∈ (commitValues scan L krs).1.allAcls) :
    e ∈ knownAcls L krs := by
  induction krs generalizing L with
  | nil => exact mem_append_left _ he
  | cons kr krs ih =>
    rcases mem_append.mp (ih hr.2 he) with hmem | hmem
    · refine mem_append.mpr ((mem_allAcls_commitValue hr.1 hmem).imp_right fun hadd => ?_)
      exact mem_filterMap.mpr ⟨kr, mem_cons_self, hadd⟩
    · obtain ⟨kr', hkr', hadd⟩ := mem_filterMap.mp hmem
      exact mem_append_right _ (mem_filterMap.mpr ⟨kr', mem_cons_of_mem kr hkr', hadd⟩)

/-! ### The whole history -/

variable {n : String}
section
variable (h : Replaying B F L R)
include h

lemma Replaying.contains_topic (hg : Grows J F) (hn : J.topics.contains n) : R.topics.contains n = true := by
  rw [h.topics.contains_eq]
  obtain ⟨t, ht⟩ := exists_of_contains hn
  obtain ⟨t', ht', -⟩ := hg.topics n t ht
  rw [ExtTreeMap.contains_eq_isSome_getElem?, ht']
  rfl

lemma Replaying.topicNameForId (hg : Grows L F) (hwL : WellFormed L)
    (hwF : WellFormed F) (hids : IdsNamed F) {id : Uuid} (hn : topicNameForId scan L id = some n) :
    topicNameForId scan' R id = some n := by
  obtain ⟨t, hfind, rfl⟩ := map_eq_some_iff.mp hn
  have hid : t.topicId = id := by simpa using List.find?_some hfind
  have hlisted := (scan.topics_perm L).mem_iff.mp (mem_of_find?_eq_some hfind)
  obtain ⟨⟨m, t'⟩, hmem, rfl⟩ := mem_map.mp hlisted
  have ht : L.topics[m]? = some t' := (mem_toList _).mp hmem
  have hname : t'.name = m := hwL.topicName m t' ht
  obtain ⟨f, hf, hfid⟩ := hg.topics m t' ht
  have hback : Metadata.topicNameForId scan' R f.topicId = some m :=
    topicNameForId_of_related h.topics hwF hids hf
  rw [show f.topicId = id from hfid.trans hid] at hback
  rw [hback, hname]

omit h in
lemma contains_commitValue_topic (scan : Scan) (L : MetadataImage) (t : KTopicRecord) :
    (commitValue scan L (.topic t)).1.topics.contains t.name = true := by
  cases hL : L.topics[t.name]? with
  | some a => simp [commitValue_topic_of_some hL, ExtTreeMap.contains_eq_isSome_getElem?, hL]
  | none => simp [commitValue_topic_of_none hL, apply, topicFromKraft]

lemma Replaying.commit_partition (hg : Grows L F) (hwL : WellFormed L)
    (hwF : WellFormed F) (hids : IdsNamed F) {p : KPartitionRecord}
    (hr : Replayable scan L (.partition p)) :
    Replaying B F (commitValue scan L (.partition p)).1 (commitValue scan' R (.partition p)).1 := by
  obtain ⟨rec, hd, hacc, heq⟩ := commitValue_of_applied hr
  have hsame : fromKraft scan' (.partition p) R = .ok rec := by
    rw [← hd]
    simp only [fromKraft, partitionFromKraft] at hd ⊢
    cases hn : Metadata.topicNameForId scan L p.topicId with
    | none => rw [hn] at hd; cases hd
    | some n => rw [h.topicNameForId hg hwL hwF hids hn]
  obtain ⟨q, -, hrec⟩ := bind_eq_ok.mp hd
  cases hrec
  have hL : L.topics.contains q.topic := by
    by_contra hno
    simp [accepts, validate, hno] at hacc
  have hR := h.contains_topic hg hL
  have haccR : R.accepts (.v1Partition q) := by simp [accepts, validate, hR]
  rw [heq, commitValue_of_accepts hsame haccR]
  exact h.apply_partition hL hR

lemma Replaying.commit_producerIds {r : KProducerIdsRecord}
    (hr : Replayable scan L (.producerIds r))
    (hg : Grows (commitValue scan L (.producerIds r)).1 F) :
    Replaying B F (commitValue scan L (.producerIds r)).1 (commitValue scan' R (.producerIds r)).1 := by
  obtain ⟨rec, hd, hacc, heq⟩ := commitValue_of_applied hr
  obtain ⟨n, hn, hrec⟩ := bind_eq_ok.mp hd
  cases hrec
  have hgt : r.nextProducerId > L.nextProducerId := by
    by_contra hle
    simp [accepts, validate, not_lt.mp hle] at hacc
  have hnext : r.nextProducerId ≤ R.nextProducerId := by
    have := hg.nextProducerId
    rw [heq] at this
    simp only [apply, if_pos hgt] at this
    rwa [show R.nextProducerId = F.nextProducerId by rw [nextProducerId, h.producerIds]; rfl]
  have hreject : (commitValue scan' R (.producerIds r)).1 = R := by
    have hd' : fromKraft scan' (.producerIds r) R = .ok (.v1ProducerIds ⟨n, r.brokerEpoch, r.nextProducerId⟩) := by
      simp only [fromKraft, hn]
      rfl
    simp only [commitValue, hd', validate, if_pos hnext]
  rw [hreject, heq]
  simp only [apply, if_pos hgt]
  exact { h with }

/-- **One value keeps the replay in step with the history.** -/
theorem replay_step (hwL : WellFormed L) (hwR : WellFormed R)
    (hwF : WellFormed F) (hids : IdsNamed F) (hr : Replayable scan L kr)
    (hg : Grows (commitValue scan L kr).1 F) (haclL : DistinctIds L.allAcls)
    (haclR : DistinctIds R.allAcls) :
    Replaying B F (commitValue scan L kr).1 (commitValue scan' R kr).1 := by
  have hgL : Grows L F := (grows_commitValue hr).trans hg
  by_cases hc : Closed kr
  · exact h.commit_plain (fromKraft_closed hc L R) fun rec hd => plain_of_closed hc hr hd
  · cases kr with
    | featureLevel | removeTopic | partitionChange => cases hr
    | removeAccessControlEntry id =>
      rw [commitValue_removeAcl haclL hwL, commitValue_removeAcl haclR hwR]
      exact h.keepAcls _
    | producerIds r => exact h.commit_producerIds hr hg
    | config c =>
      refine h.commit_config fun h2 => ?_
      obtain ⟨rec, hd, hacc, -⟩ := commitValue_of_applied (hr h2)
      simp only [fromKraft, configFromKraft, h2] at hd
      cases hd
      have hL : L.topics.contains c.resourceName := by
        by_contra hno
        simp [accepts, validate, hno] at hacc
      exact ⟨hL, h.contains_topic hgL hL⟩
    | topic t => exact h.commit_topic (h.contains_topic hg (contains_commitValue_topic scan L t))
    | partition p => exact h.commit_partition hgL hwL hwF hids hr
    | _ => exact absurd trivial hc

end

lemma replay_run {known : List AclEntry} (hF : F = (commitValues scan L krs).1)
    (h : Replaying B F L R) (hwL : WellFormed L) (hwR : WellFormed R) (hids : IdsNamed F)
    (hr : AllReplayable scan L krs) (hknown : DistinctIds known) (hL : ∀ e ∈ L.allAcls, e ∈ known)
    (hR : ∀ e ∈ R.allAcls, e ∈ known) (hadded : ∀ kr ∈ krs, ∀ e, addedAcl kr = some e → e ∈ known) :
    Replaying B F F (commitValues scan' R krs).1 := by
  have hwF : WellFormed F := hF ▸ wellFormed_commitValues hwL
  induction krs generalizing L R with
  | nil =>
    obtain rfl : F = L := hF
    exact h
  | cons kr krs ih =>
    have hg : Grows (commitValue scan L kr).1 F := hF ▸ grows_commitValues hr.2
    have hstep : Replaying B F (commitValue scan L kr).1 (commitValue scan' R kr).1 :=
      replay_step h hwL hwR hwF hids hr.1 hg
        (fun e he e' he' => hknown e (hL e he) e' (hL e' he'))
        fun e he e' he' => hknown e (hR e he) e' (hR e' he')
    refine ih hF hstep (wellFormed_commitValue hwL) (wellFormed_commitValue hwR) hr.2 ?_ ?_
      fun kr' hkr' => hadded kr' (mem_cons_of_mem kr hkr')
    · intro e he
      exact (mem_allAcls_commitValue hr.1 he).elim (hL e) (hadded kr mem_cons_self e)
    · intro e he
      exact (mem_allAcls_commitValue hr.1 he).elim (hR e) (hadded kr mem_cons_self e)

/-- **A history that can be replayed is absorbed by its own result.** -/
theorem replay_window (hwf : WellFormed L) (hids : IdsNamed (commitValues scan L krs).1)
    (hr : AllReplayable scan L krs) (hknown : DistinctIds (knownAcls L krs)) :
    (commitValues scan' (commitValues scan L krs).1 krs).1 = (commitValues scan L krs).1 := by
  set F := (commitValues scan L krs).1 with hF
  have hwF : WellFormed F := wellFormed_commitValues hwf
  have hadded : ∀ kr ∈ krs, ∀ e, addedAcl kr = some e → e ∈ knownAcls L krs := fun kr hkr e he =>
    mem_append_right _ (mem_filterMap.mpr ⟨kr, hkr, he⟩)
  have hbase : ∀ e ∈ L.allAcls, e ∈ knownAcls L krs := fun e he => mem_append_left _ he
  have hrun : Replaying L F F (commitValues scan' F krs).1 :=
    replay_run hF .start hwf hwF hids hr hknown hbase (fun e => mem_knownAcls hr) hadded
  exact hrun.eq hwF (wellFormed_commitValues hwF)

end

/-! ## Iteration orders do not matter -/

section
variable {I : MetadataImage}
variable (scan scan' : Scan)

lemma topicNameForId_scan (hwf : WellFormed I) (hids : IdsNamed I) (id : Uuid) :
    topicNameForId scan I id = topicNameForId scan' I id := by
  have hsome : ∀ (scan scan' : Scan) n, topicNameForId scan I id = some n → topicNameForId scan' I id = some n :=
    fun _ _ _ => (Replaying.start (B := I)).topicNameForId (.refl I) hwf hwf hids
  exact Option.ext fun n => ⟨hsome scan scan' n, hsome scan' scan n⟩

lemma find?_acls_scan (hids : DistinctIds I.allAcls) (id : Uuid) :
    (scan.acls I).find? (aclId · == id) = (scan'.acls I).find? (aclId · == id) := by
  have hsome : ∀ (scan scan' : Scan) e, (scan.acls I).find? (aclId · == id) = some e →
      (scan'.acls I).find? (aclId · == id) = some e := by
    intro scan scan' e hfind
    obtain ⟨he, rfl⟩ := mem_of_find?_acls hfind
    exact find?_acls scan' hids he
  exact Option.ext fun e => ⟨hsome scan scan' e, hsome scan' scan e⟩

lemma commitValue_scan (hwf : WellFormed I) (hu : Unambiguous I) (kr : KraftMetadataRecord) :
    commitValue scan I kr = commitValue scan' I kr := by
  have hd : fromKraft scan kr I = fromKraft scan' kr I := by
    cases kr with
    | partition p =>
      simp only [fromKraft, partitionFromKraft, topicNameForId_scan scan scan' hwf hu.topics]
    | partitionChange p =>
      simp only [fromKraft, partitionChangeFromKraft, topicNameForId_scan scan scan' hwf hu.topics]
    | removeTopic id => simp only [fromKraft, topicNameForId_scan scan scan' hwf hu.topics]
    | removeAccessControlEntry id => simp only [fromKraft, find?_acls_scan scan scan' hu.acls]
    | _ => rfl
  simp only [commitValue, hd]

lemma commitValues_scan (hwf : WellFormed I) (hu : Unambiguous I)
    {krs : List KraftMetadataRecord} (hone : krs.length ≤ 1) :
    commitValues scan I krs = commitValues scan' I krs := by
  rcases Nat.le_one_iff_eq_zero_or_eq_one.mp hone with hzero | hsingle
  · rw [eq_nil_of_length_eq_zero hzero]
    rfl
  · obtain ⟨kr, rfl⟩ := length_eq_one_iff.mp hsingle
    simp only [commitValues, commitValue_scan scan scan' hwf hu]

end

/-! ## Recovery -/

section
variable {scan scan' : Scan} {clusterId : Uuid} {log : MetadataLog} {s k n : ℕ}

lemma MetadataLog.values_append (hsk : s ≤ k) (hkn : k ≤ n) :
    log.values s n = log.values s k ++ log.values k n := by
  have hsplit : (log.take n).drop s = (log.take k).drop s ++ (log.take n).drop k := by
    have hparts := (take_append_drop (k - s) ((log.take n).drop s)).symm
    rwa [drop_drop, Nat.add_sub_cancel' hsk, ← drop_take, take_take, min_eq_left hkn] at hparts
  rw [MetadataLog.values, hsplit, filterMap_append]
  rfl

lemma reachable_liveImage : Reachable clusterId (liveImage scan clusterId log n) :=
  reachable_commitValues .refl

lemma wellFormed_liveImage : WellFormed (liveImage scan clusterId log n) :=
  reachable_liveImage.wellFormed

lemma liveImage_eq (hkn : k ≤ n) :
    liveImage scan clusterId log n = replayCommitted scan log (liveImage scan clusterId log k) k n := by
  rw [liveImage, replayCommitted, MetadataLog.values_append (Nat.zero_le k) hkn, commitValues_append]
  rfl

lemma replay_suffix (hkn : k ≤ n) (hu : ∀ j, k ≤ j → j < n → Unambiguous (liveImage scan clusterId log j)) :
    replayCommitted scan' log (liveImage scan clusterId log k) k n = liveImage scan clusterId log n := by
  induction n, hkn using Nat.le_induction with
  | base =>
    have : log.values k k = [] := by simp [MetadataLog.values]
    rw [replayCommitted, this]
    rfl
  | succ n hkn ih =>
    have hprev := ih fun j hj hjn => hu j hj (Nat.lt_succ_of_lt hjn)
    rw [replayCommitted, MetadataLog.values_append hkn (Nat.le_succ n), commitValues_append]
    rw [replayCommitted] at hprev
    simp only [hprev]
    rw [liveImage_eq (Nat.le_succ n), replayCommitted]
    have hone : (log.values n (n + 1)).length ≤ 1 := by
      refine (length_filterMap_le _ _).trans ?_
      simp only [length_drop, length_take]
      omega
    rw [commitValues_scan scan' scan wellFormed_liveImage (hu n hkn n.lt_succ_self) hone]

/-- **Recovery gives the live image**, when the checkpoint gives its image back and the values
between the first offset of the log and the checkpoint can be replayed. -/
theorem recovered_eq_live (hsk : s ≤ k) (hkn : k ≤ n) {it : Iteration}
    (hit : it.Of (liveImage scan clusterId log k)) {checkpoint : List SnapshotItem}
    (hwritten : serialize scan it (liveImage scan clusterId log k) = .ok checkpoint)
    (hc : Checkpointable (liveImage scan clusterId log k))
    (hr : AllReplayable scan (liveImage scan clusterId log s) (log.values s k))
    (hacls : DistinctIds (knownAcls (liveImage scan clusterId log s) (log.values s k)))
    (hu : ∀ j, k ≤ j → j < n → Unambiguous (liveImage scan clusterId log j))
    (quorum : ℕ × VoterSet) :
    recoverImage scan' clusterId checkpoint log s n quorum =
      .ok { liveImage scan clusterId log n with
        kraftVersion := quorum.1, voters := quorum.2 } := by
  set image := liveImage scan clusterId log k with himage
  have hload : loadCheckpoint scan' clusterId checkpoint = .ok image := by
    have hback : loadCheckpoint scan' image.clusterId checkpoint = .ok image :=
      load_serialize wellFormed_liveImage hc hit hwritten
    rwa [reachable_liveImage.clusterId_eq] at hback
  have hwindow : replayCommitted scan' log image s k = image := by
    rw [himage, liveImage_eq hsk]
    refine replay_window wellFormed_liveImage ?_ hr hacls
    rw [← replayCommitted, ← liveImage_eq hsk]
    exact hc.translatable.topicId
  have hreplay : replayCommitted scan' log image s n = liveImage scan clusterId log n := by
    have hsuffix : replayCommitted scan' log image k n = liveImage scan clusterId log n :=
      replay_suffix hkn hu
    rw [← hsuffix, replayCommitted, MetadataLog.values_append hsk hkn, commitValues_append]
    rw [replayCommitted] at hwindow
    rw [hwindow]
    rfl
  rw [recoverImage, hload, ok_bind, hreplay]
  rfl

end

def ordersLog (last : KraftMetadataRecord) : MetadataLog :=
  [some (.topic ⟨"orders", 7⟩), some (.partition ⟨0, 7, [1], [1], [], [], 1, 0, 0, []⟩), some last]

/-- A checkpoint behind a topic, its partition and an override, recovered with the whole log. -/
theorem recovered_eq_live_override :
    let log := ordersLog (.config ⟨2, "orders", "retention.ms", some "1000"⟩)
    let I := liveImage Scan.keyOrder 0 log 3
    ∃ checkpoint, serialize Scan.keyOrder I.keyOrder I = .ok checkpoint ∧
      recoverImage Scan.keyOrder 0 checkpoint log 0 3 (1, I.voters) = .ok { I with kraftVersion := 1 } := by
  intro log I
  have hok : (serialize Scan.keyOrder I.keyOrder I).isOk := by decide
  cases hwritten : serialize Scan.keyOrder I.keyOrder I with
  | error e => rw [hwritten] at hok; cases hok
  | ok checkpoint =>
    have hpartitions : ∀ (n : String) ps, I.partitions[n]? = some ps →
        ∀ e ∈ ps.toList, writtenPartition I.framingLevel e.2 = e.2 :=
      forall_getElem?_iff.mpr (by decide)
    have hc : Checkpointable I := {
      translatable := {
        broker := forall_getElem?_iff.mpr (by decide)
        brokerConfig := forall_getElem?_iff.mpr (by decide)
        partition := fun n ps i p hps hp => hpartitions n ps hps (i, p) ((mem_toList ps).mpr hp)
        token := forall_getElem?_iff.mpr (by decide)
        topicId := forall_getElem?_iff.mpr (by decide) }
      voters := forall_getElem?_iff.mpr (by decide)
      brokerConfig := forall_getElem?_iff.mpr (by decide)
      clientQuota := forall_getElem?_iff.mpr (by decide)
      replicationFactor := forall_getElem?_iff.mpr (by decide)
      featuresEpoch := by decide }
    refine ⟨checkpoint, rfl, ?_⟩
    refine recovered_eq_live (k := 3) (by decide) (by decide) I.keyOrder_of hwritten hc ?_ ?_ ?_ _
    · refine ⟨trivial, ?_, ?_, trivial⟩
      · show (commitValue _ _ _).2 = _
        decide
      · intro _
        decide
    · intro e he
      revert e
      decide
    · omega

/-- A checkpoint behind an offset advance is recovered with the advance made twice. -/
theorem recovery_repeats_offset_advance :
    let log := ordersLog (.unknown privatePartitionOffsetAdvanceKey
      (.ok (.v1PartitionOffsetAdvance ⟨"orders", 0, 5⟩)))
    let I := liveImage Scan.keyOrder 0 log 3
    let recovered := do
      let checkpoint ← serialize Scan.keyOrder I.keyOrder I
      recoverImage Scan.keyOrder 0 checkpoint log 0 3 (I.kraftVersion, I.voters)
    I.partitionNextOffset "orders" 0 = some 5 ∧
      recovered.toOption.map (·.partitionNextOffset "orders" 0) = some (some 10) := by
  decide

end Crabka.Metadata
