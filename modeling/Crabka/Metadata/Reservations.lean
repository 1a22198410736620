import Crabka.Kraft.Log.KraftLog
import Crabka.Metadata.Submit

/-!
# Offset reservations

`on_submit_change` and `advance_and_apply` of `crates/raft/src/kraft/controller.rs` at a leader with several voters
(`submitSys`): a request is answered against the committed image, and its records reach the image when the high
watermark passes its batch. A `V1PartitionOffsetAdvance` record is answered with the interval that it reserves;
`InStep` says for one request that its values, once committed, show what was reserved.
-/

namespace Crabka.Metadata
open List hiding getElem?_insert
open Found
open Kraft (KraftLog RecordBatch Record)
open MetadataImage hiding rec

/-! ## The leader -/

/-- `CommitWaiter`, with its reply channel left out. -/
structure CommitWaiter where
  baseOffset : ℤ
  needOffset : ℤ
  rejection : Option MetadataError := none
  result : List OffsetReservation

/-- The leader's engine. For the statements, `granted` and `applied` are the reservations of the appended requests,
and those that the image shows when their records are applied. -/
structure LeaderEngine where
  image : MetadataImage
  log : KraftLog KraftMetadataRecord := {}
  leaderEpoch : ℤ := 0
  commitWaiters : List CommitWaiter := []
  replies : List (Except RaftError (List OffsetReservation)) := []
  granted : List OffsetReservation := []
  applied : List OffsetReservation := []

/-- `metadata_record_batch`: one record for each value. -/
def metadataRecordBatch (leaderEpoch : ℤ) (blobs : List KraftMetadataRecord) :
    RecordBatch KraftMetadataRecord where
  partitionLeaderEpoch := leaderEpoch
  lastOffsetDelta := blobs.length - 1
  records := blobs.zipIdx.map fun e => ⟨e.2, e.1⟩

/-- The reservation that a committed value shows: the offset the image stands at. -/
def shownReservation (scan : Scan) (I : MetadataImage) (kr : KraftMetadataRecord) :
    List OffsetReservation :=
  match fromKraft scan kr I with
  | .ok (.v1PartitionOffsetAdvance r) =>
    [⟨r.topic, r.partition, (I.partitionNextOffset r.topic r.partition).getD 0, r.count⟩]
  | _ => []

namespace LeaderEngine
variable (scan : Scan) (e : LeaderEngine)

def tryResolveWaiters : LeaderEngine :=
  { e with
    commitWaiters := e.commitWaiters.filter fun w => !decide (w.needOffset ≤ e.log.hwm)
    replies := e.replies ++ (e.commitWaiters.filter (·.needOffset ≤ e.log.hwm)).map fun w =>
      match w.rejection with
      | some err => .error (.metadata err)
      | none => .ok w.result }

/-- `on_submit_change` at a leader with more than one voter. The batch lands at the log end, which is
what `validate_append_result` checks. -/
def onSubmitChange (records : List MetadataRecord) : LeaderEngine :=
  match Submission.run e.log.logEndOffset scan { scratch := e.image } records with
  | .error err => { e with replies := e.replies ++ [.error err] }
  | .ok s =>
    -- Every record fanned out to nothing.
    if s.blobs.isEmpty then { e with replies := e.replies ++ [.ok s.offsetReservations] }
    else
      tryResolveWaiters { e with
        log := (e.log.append (metadataRecordBatch e.leaderEpoch s.blobs)).1
        commitWaiters := e.commitWaiters ++
          [{ baseOffset := e.log.logEndOffset
             needOffset := e.log.logEndOffset + s.blobs.length
             result := s.offsetReservations }]
        granted := e.granted ++ s.offsetReservations }

/-- `note_rejection`: the first one counts. -/
def noteRejection (recordOffset : ℤ) (err : MetadataError) (w : CommitWaiter) : CommitWaiter :=
  if w.baseOffset ≤ recordOffset ∧ recordOffset < w.needOffset ∧ w.rejection.isNone then
    { w with rejection := some err }
  else w

/-- One committed value of the batch at `base`. -/
def applyValue (base : ℤ) (kr : KraftMetadataRecord) : LeaderEngine :=
  { e with
    image := (commitValue scan e.image kr).1
    commitWaiters := match (commitValue scan e.image kr).2 with
      | .rejected err => e.commitWaiters.map (noteRejection base err)
      | _ => e.commitWaiters
    applied := e.applied ++ shownReservation scan e.image kr }

def applyBatch (b : RecordBatch KraftMetadataRecord) : LeaderEngine :=
  b.records.foldl (fun e r => e.applyValue scan b.baseOffset r.payload) e

def batchesBetween (low high : ℤ) : List (RecordBatch KraftMetadataRecord) :=
  e.log.batches.filter fun b => low ≤ b.baseOffset && b.baseOffset < high && !b.isControlBatch

/-- `advance_and_apply`. When the high watermark stays, no batch is in its way. -/
def advanceAndApply (newHwm : ℤ) : LeaderEngine :=
  let log := e.log.advanceHwm newHwm
  tryResolveWaiters <| (e.batchesBetween e.log.hwm log.hwm).foldl (applyBatch scan) { e with log }

def pending : List KraftMetadataRecord :=
  (e.log.batches.filter fun b => e.log.hwm ≤ b.baseOffset && !b.isControlBatch).flatMap fun b =>
    b.records.map Record.payload

def returned : List OffsetReservation :=
  e.replies.flatMap fun
    | .ok rs => rs
    | .error _ => []

end LeaderEngine

/-! ## Runs -/

/-- A submitted request, or an advance of the high watermark. -/
inductive SubmitStep where
  | submit (records : List MetadataRecord)
  | advance (newHwm : ℤ)

def advanceOf : MetadataRecord → Option PartitionOffsetAdvanceRecord
  | .v1PartitionOffsetAdvance r => some r
  | _ => none

def deletesTopic : MetadataRecord → Bool
  | .v1DeleteTopic _ => true
  | _ => false

def advanceIn : KraftMetadataRecord → Option PartitionOffsetAdvanceRecord
  | .unknown _ (.ok rec) => advanceOf rec
  | _ => none

def PartitionOffsetAdvanceRecord.key (r : PartitionOffsetAdvanceRecord) : String × ℤ :=
  (r.topic, r.partition)

def OffsetReservation.key (g : OffsetReservation) : String × ℤ := (g.topic, g.partition)

/-- What the records advance a partition by. -/
def totalCount (k : String × ℤ) (records : List MetadataRecord) : ℤ :=
  (((records.filterMap advanceOf).filter (·.key = k)).map (·.count)).sum

def MetadataImage.standsAt (I : MetadataImage) (k : String × ℤ) : ℤ :=
  (I.partitionNextOffset k.1 k.2).getD 0

/-- A leader with several voters: requests arrive and the high watermark advances. Advances have a
positive count. -/
def submitSys (scan : Scan) : Sys LeaderEngine SubmitStep where
  enabled _
    | .submit records => ∀ r ∈ records.filterMap advanceOf, 1 ≤ r.count
    | .advance _ => True
  next e
    | .submit records => e.onSubmitChange scan records
    | .advance newHwm => e.advanceAndApply scan newHwm

/-- A request deletes no topic, and the partitions that it advances are not advanced by an uncommitted batch and stay
within `i64`. -/
def Sequenced (e : LeaderEngine) : SubmitStep → Prop
  | .submit records => (∀ rec ∈ records, deletesTopic rec = false) ∧
      ∀ r ∈ records.filterMap advanceOf,
        (∀ r' ∈ e.pending.filterMap advanceIn, r'.key ≠ r.key) ∧
          e.image.standsAt r.key + totalCount r.key records ≤ i64Max
  | .advance _ => True

instance (scan : Scan) (e : LeaderEngine) (l : SubmitStep) : Decidable ((submitSys scan).enabled e l) := by
  cases l <;> unfold submitSys <;> infer_instance

instance (e : LeaderEngine) (l : SubmitStep) : Decidable (Sequenced e l) := by
  cases l <;> unfold Sequenced <;> infer_instance

/-- The intervals of two reservations of one partition are disjoint. -/
def OffsetReservation.Apart (a b : OffsetReservation) : Prop :=
  a.key = b.key → a.baseOffset + a.count ≤ b.baseOffset ∨ b.baseOffset + b.count ≤ a.baseOffset

instance (a b : OffsetReservation) : Decidable (a.Apart b) := inferInstanceAs (Decidable (_ → _))

/-- An engine without uncommitted batches, before its first request. -/
structure LeaderEngine.Settled (e : LeaderEngine) : Prop where
  below : ∀ b ∈ e.log.batches, b.baseOffset < e.log.hwm
  hwm_eq : e.log.hwm = e.log.logEndOffset
  sorted : e.log.batches.Pairwise fun a b => a.baseOffset < b.baseOffset
  waiters : e.commitWaiters = []
  replies : e.replies = []
  granted : e.granted = []
  applied : e.applied = []
  range : ∀ k, -2 ^ 63 ≤ e.image.standsAt k

/-! ## Values that move no offset -/

/-- The kinds of records that write the next offsets. -/
def MovesOffsets : MetadataRecord → Prop
  | .v1PartitionOffsetAdvance _ | .v1DeleteTopic _ => True
  | _ => False

/-- The kinds of values that are decoded to other records. -/
def Quiet : KraftMetadataRecord → Prop
  | .removeTopic _ => False
  | .unknown _ (.ok rec) => ¬ MovesOffsets rec
  | _ => True

section quiet
variable {scan : Scan} {I : MetadataImage} {rec : MetadataRecord} {kr : KraftMetadataRecord}

lemma partitionNextOffsets_apply (h : ¬ MovesOffsets rec) :
    (I.apply rec).partitionNextOffsets = I.partitionNextOffsets := by
  cases rec with
  | v1PartitionOffsetAdvance | v1DeleteTopic => exact absurd trivial h
  | v1AccessControlEntry e => cases hp : e.patternType <;> simp [apply, hp]
  | v1ProducerIds r =>
    simp only [apply]
    split <;> rfl
  | _ => rfl

lemma not_movesOffsets_fromKraft (h : Quiet kr) (hd : fromKraft scan kr I = .ok rec) : ¬ MovesOffsets rec := by
  cases kr with
  | removeTopic => exact absurd h id
  | unknown apiKey body =>
    simp only [fromKraft] at hd
    split at hd
    · cases body with
      | ok rec' => cases hd; exact h
      | error => cases hd
    · cases hd
  | registerBroker | registerController | unregisterBroker | removeUserScramCredential
  | delegationToken | partition | partitionChange | producerIds =>
    obtain ⟨_, -, hd⟩ := bind_eq_ok.mp hd
    cases hd
    exact id
  | userScramCredential s =>
    obtain ⟨_, -, hd⟩ := bind_eq_ok.mp hd
    simp only at hd
    split at hd
    · cases hd; exact id
    · cases hd
  | accessControlEntry e =>
    obtain ⟨_, -, hd⟩ := bind_eq_ok.mp hd
    obtain ⟨_, -, hd⟩ := bind_eq_ok.mp hd
    obtain ⟨_, -, hd⟩ := bind_eq_ok.mp hd
    obtain ⟨_, -, hd⟩ := bind_eq_ok.mp hd
    cases hd
    exact id
  | config c =>
    simp only [fromKraft, configFromKraft] at hd
    split at hd
    · obtain ⟨_, -, hd⟩ := bind_eq_ok.mp hd
      cases hd
      exact id
    · split at hd
      · cases hd; exact id
      · split at hd
        · cases hd; exact id
        · split at hd
          · cases hd; exact id
          · cases hd
  | removeAccessControlEntry id' =>
    simp only [fromKraft] at hd
    split at hd
    · cases hd
    · cases hd; exact id
  | featureLevel | clientQuota | removeDelegationToken | topic => cases hd; exact id
  | brokerRegistrationChange | noOp | beginTransaction | endTransaction | other => cases hd

lemma quiet_frame (level : ℤ) (h : Quiet kr) : Quiet (frame level kr) := by cases kr <;> exact h

lemma quiet_toKraftRecords (h : ¬ MovesOffsets rec) {krs : List KraftMetadataRecord}
    (hk : toKraftRecords scan rec I = .ok krs) : ∀ kr ∈ krs, Quiet kr := by
  have hone : ∀ {kr : KraftMetadataRecord}, Quiet kr → ∀ x ∈ [kr], Quiet x := fun hq x hx =>
    mem_singleton.mp hx ▸ hq
  have hconfig : ∀ {t n} {new old : ConfigMap}, ∀ x ∈ configToKraft t n new old, Quiet x := by
    intro t n new old x hx
    rcases mem_append.mp hx with hx | hx
    · obtain ⟨_, -, rfl⟩ := mem_map.mp hx
      trivial
    · obtain ⟨_, -, rfl⟩ := mem_map.mp hx
      trivial
  cases rec with
  | v1PartitionOffsetAdvance | v1DeleteTopic => exact absurd trivial h
  | v1BrokerRegistration | v1ControllerRegistration | v1UnregisterBroker | v1DeleteScramCredential
  | v1PartitionDirAssignment | v1ProducerIds =>
    obtain ⟨_, -, hk⟩ := bind_eq_ok.mp hk
    cases hk
    exact hone trivial
  | v1ScramCredential s =>
    obtain ⟨_, -, hk⟩ := bind_eq_ok.mp hk
    obtain ⟨_, -, hk⟩ := bind_eq_ok.mp hk
    cases hk
    exact hone trivial
  | v1Partition p =>
    simp only [toKraftRecords] at hk
    split at hk
    · cases hk
    · obtain ⟨_, -, hk⟩ := bind_eq_ok.mp hk
      cases hk
      exact hone trivial
  | v1TopicConfig | v1GroupConfig | v1ClientMetricsConfig => cases hk; exact hconfig
  | v1DeleteAccessControlEntry f =>
    cases hk
    intro x hx
    obtain ⟨_, -, rfl⟩ := mem_map.mp hx
    trivial
  | v1FeaturesEpoch => cases hk; exact hone id
  | v1Voters | v1KRaftVersion => cases hk
  | v1FeatureLevel | v1AccessControlEntry | v1ClientQuota | v1DelegationToken
  | v1DeleteDelegationToken | v1BrokerConfig | v1Topic => cases hk; exact hone trivial

end quiet

/-! ## What committed values do to the offsets -/

section commit
variable {scan : Scan} {I J : MetadataImage} {kr : KraftMetadataRecord} {k : String × ℤ}

/-- The reservations that the values of a batch show, one after the other. -/
def shownReservations (scan : Scan) : MetadataImage → List KraftMetadataRecord →
    List OffsetReservation
  | _, [] => []
  | I, kr :: krs => shownReservation scan I kr ++ shownReservations scan (commitValue scan I kr).1 krs

lemma shownReservations_append (I : MetadataImage) (as bs : List KraftMetadataRecord) :
    shownReservations scan I (as ++ bs) =
      shownReservations scan I as ++ shownReservations scan (commitValues scan I as).1 bs := by
  induction as generalizing I with
  | nil => rfl
  | cons a as ih => simp only [cons_append, shownReservations, commitValues, ih, append_assoc]

abbrev carrier (r : PartitionOffsetAdvanceRecord) : KraftMetadataRecord :=
  wincodeCarrier (.v1PartitionOffsetAdvance r) privatePartitionOffsetAdvanceKey

/-- The values of a log in which no topic is deleted. -/
def Tame (kr : KraftMetadataRecord) : Prop := Quiet kr ∨ ∃ r, 1 ≤ r.count ∧ kr = carrier r

variable (r : PartitionOffsetAdvanceRecord)

lemma commitValue_carrier : (commitValue scan I (carrier r)).1 = I.apply (.v1PartitionOffsetAdvance r) := rfl

lemma standsAt_advance :
    (I.apply (.v1PartitionOffsetAdvance r)).standsAt k =
      if k = r.key then wrappingAdd (I.standsAt k) r.count else I.standsAt k := by
  simp only [standsAt, partitionNextOffset, apply, upsert]
  rw [getElem?_insert]
  unfold PartitionOffsetAdvanceRecord.key
  obtain rfl | hk := eq_or_ne k (r.topic, r.partition)
  · simp
  · have hk' : ¬ (k.1, k.2) = (r.topic, r.partition) := hk
    rw [if_neg hk', if_neg hk]

lemma standsAt_congr (h : J.partitionNextOffsets = I.partitionNextOffsets) : J.standsAt k = I.standsAt k := by
  rw [standsAt, partitionNextOffset, h]
  rfl

lemma Quiet.commitValue (h : Quiet kr) : (Metadata.commitValue scan I kr).1.standsAt k = I.standsAt k := by
  unfold Metadata.commitValue
  split
  · rfl
  · rename_i rec hd
    split
    · rfl
    · exact standsAt_congr (partitionNextOffsets_apply (not_movesOffsets_fromKraft h hd))

lemma Quiet.shownReservation (h : Quiet kr) : shownReservation scan I kr = [] := by
  unfold Metadata.shownReservation
  split
  · rename_i r hd
    exact absurd trivial (not_movesOffsets_fromKraft h hd)
  · rfl

lemma quiet_commitValues (scan : Scan) (I : MetadataImage) {krs : List KraftMetadataRecord}
    (h : ∀ kr ∈ krs, Quiet kr) :
    (∀ k, (commitValues scan I krs).1.standsAt k = I.standsAt k) ∧ shownReservations scan I krs = [] := by
  induction krs generalizing I with
  | nil => exact ⟨fun _ => rfl, rfl⟩
  | cons kr krs ih =>
    obtain ⟨hq, hqs⟩ := forall_mem_cons.mp h
    obtain ⟨hstands, hshown⟩ := ih (commitValue scan I kr).1 hqs
    refine ⟨fun k => (hstands k).trans hq.commitValue, ?_⟩
    rw [shownReservations, hq.shownReservation, hshown]
    rfl

lemma standsAt_commitValues {krs : List KraftMetadataRecord} (h : ∀ kr ∈ krs, Tame kr)
    (hk : ∀ r ∈ krs.filterMap advanceIn, r.key ≠ k) :
    (commitValues scan I krs).1.standsAt k = I.standsAt k := by
  induction krs generalizing I with
  | nil => rfl
  | cons kr krs ih =>
    obtain ⟨ht, hts⟩ := forall_mem_cons.mp h
    have hrest : ∀ r ∈ krs.filterMap advanceIn, r.key ≠ k := fun r hr =>
      hk r (by
        obtain ⟨x, hx, hxr⟩ := mem_filterMap.mp hr
        exact mem_filterMap.mpr ⟨x, mem_cons_of_mem _ hx, hxr⟩)
    refine (ih hts hrest).trans ?_
    rcases ht with hq | ⟨r, -, rfl⟩
    · exact hq.commitValue
    · have hne := hk r (mem_filterMap.mpr ⟨_, mem_cons_self, rfl⟩)
      rw [commitValue_carrier, standsAt_advance, if_neg hne.symm]

end commit

/-! ## One request -/

section request
variable {scan : Scan} {assignBase : ℤ} {records : List MetadataRecord}

lemma wrappingAdd_eq {a b : ℤ} (h : -2 ^ 63 ≤ a + b) (h' : a + b ≤ i64Max) : wrappingAdd a b = a + b := by
  unfold wrappingAdd
  unfold i64Max at h'
  exact Int.bmod_eq_of_le (by omega) (by omega)

/-- The submission `s` beside the image `J` that its values were committed to: they agree on the partitions of the
records still to come, and the values show what was reserved. -/
structure InStep (scan : Scan) (J₀ : MetadataImage) (s : Submission) (rest : List MetadataRecord)
    (J : MetadataImage) : Prop where
  committed : J = (commitValues scan J₀ s.blobs).1
  shown : shownReservations scan J₀ s.blobs = s.offsetReservations
  tame : ∀ kr ∈ s.blobs, Tame kr
  agree : ∀ r ∈ rest.filterMap advanceOf, s.scratch.standsAt r.key = J.standsAt r.key
  room : ∀ r ∈ rest.filterMap advanceOf, J.standsAt r.key + totalCount r.key rest ≤ i64Max
  range : ∀ k, -2 ^ 63 ≤ J.standsAt k
  grows : ∀ k, J₀.standsAt k ≤ J.standsAt k
  within : ∀ g ∈ s.offsetReservations, J₀.standsAt g.key ≤ g.baseOffset ∧ g.baseOffset + g.count ≤ J.standsAt g.key
  apart : s.offsetReservations.Pairwise OffsetReservation.Apart

variable {J₀ J : MetadataImage} {s s' : Submission} {rec : MetadataRecord} {k : String × ℤ}

lemma advanceOf_eq_none (h : ¬ MovesOffsets rec) : advanceOf rec = none := by
  cases rec with
  | v1PartitionOffsetAdvance => exact absurd trivial h
  | _ => rfl

lemma totalCount_nonneg (h : ∀ r ∈ records.filterMap advanceOf, 1 ≤ r.count) : 0 ≤ totalCount k records := by
  refine sum_nonneg fun c hc => ?_
  obtain ⟨r, hr, rfl⟩ := mem_map.mp hc
  have := h r (mem_of_mem_filter hr)
  omega

lemma not_movesOffsets_stamp (h : ¬ MovesOffsets rec) : ¬ MovesOffsets (s.stamp assignBase rec) := by
  cases rec with
  | v1PartitionOffsetAdvance | v1DeleteTopic => exact absurd trivial h
  | v1BrokerRegistration b =>
    simp only [Submission.stamp]
    split <;> exact id
  | _ => exact id

lemma reserve_eq_nil (h : ¬ MovesOffsets rec) : s.reserve rec = [] := by
  cases rec with
  | v1PartitionOffsetAdvance => exact absurd trivial h
  | _ => rfl

namespace InStep

lemma quiet (h : InStep scan J₀ s (rec :: records) J) (hrec : ¬ MovesOffsets rec)
    (hs : s.step assignBase scan rec = .ok s') : ∃ J', InStep scan J₀ s' records J' := by
  obtain ⟨krs, -, hkrs, rfl⟩ := Submission.step_eq_ok hs
  have hstamp : ¬ MovesOffsets (s.stamp assignBase rec) := not_movesOffsets_stamp hrec
  have hquiet : ∀ kr ∈ krs.map (frame s.scratch.framingLevel), Quiet kr := by
    intro kr hkr
    obtain ⟨kr', hkr', rfl⟩ := mem_map.mp hkr
    exact quiet_frame _ (quiet_toKraftRecords hstamp hkrs kr' hkr')
  obtain ⟨hstands, hshown⟩ := quiet_commitValues scan J hquiet
  have hadv : (rec :: records).filterMap advanceOf = records.filterMap advanceOf := by
    rw [filterMap_cons, advanceOf_eq_none hrec]
  have htotal : ∀ k, totalCount k (rec :: records) = totalCount k records := fun k => by
    rw [totalCount, hadv]
    rfl
  have hscratch : ∀ k, (s.scratch.apply (s.stamp assignBase rec)).standsAt k =
      s.scratch.standsAt k := fun k => standsAt_congr (partitionNextOffsets_apply hstamp)
  refine ⟨(commitValues scan J (krs.map (frame s.scratch.framingLevel))).1, ?_⟩
  constructor
  · simp only [commitValues_append, ← h.committed]
  · simp only [shownReservations_append, ← h.committed, hshown, h.shown, reserve_eq_nil hstamp]
  · intro kr hkr
    rcases mem_append.mp hkr with hkr | hkr
    · exact h.tame kr hkr
    · exact .inl (hquiet kr hkr)
  · intro r hr
    rw [hstands, hscratch]
    exact h.agree r (hadv ▸ hr)
  · intro r hr
    rw [hstands, ← htotal]
    exact h.room r (hadv ▸ hr)
  · intro k
    rw [hstands]
    exact h.range k
  · intro k
    rw [hstands]
    exact h.grows k
  · intro g hg
    rw [hstands]
    rw [reserve_eq_nil hstamp, append_nil] at hg
    exact h.within g hg
  · rw [reserve_eq_nil hstamp, append_nil]
    exact h.apart

lemma advance {r : PartitionOffsetAdvanceRecord}
    (h : InStep scan J₀ s (.v1PartitionOffsetAdvance r :: records) J) (hr : 1 ≤ r.count)
    (hcounts : ∀ r ∈ records.filterMap advanceOf, 1 ≤ r.count)
    (hs : s.step assignBase scan (.v1PartitionOffsetAdvance r) = .ok s') :
    ∃ J', InStep scan J₀ s' records J' := by
  have hs' : s' = {
      scratch := s.scratch.apply (.v1PartitionOffsetAdvance r)
      blobs := s.blobs ++ [carrier r]
      offsetReservations := s.offsetReservations ++
        [⟨r.topic, r.partition, s.scratch.standsAt r.key, r.count⟩] } := by
    obtain ⟨krs, -, hkrs, rfl⟩ := Submission.step_eq_ok hs
    cases hkrs
    rfl
  have hmem : r ∈ (MetadataRecord.v1PartitionOffsetAdvance r :: records).filterMap advanceOf :=
    mem_filterMap.mpr ⟨_, mem_cons_self, rfl⟩
  have hagree := h.agree r hmem
  have htotal : ∀ k, totalCount k (.v1PartitionOffsetAdvance r :: records) =
      (if r.key = k then r.count else 0) + totalCount k records := by
    intro k
    unfold totalCount
    by_cases hk : r.key = k <;> simp [advanceOf, hk]
  have hroom : J.standsAt r.key + r.count ≤ i64Max := by
    have := h.room r hmem
    rw [htotal, if_pos rfl] at this
    have := totalCount_nonneg (k := r.key) hcounts
    omega
  have hstands : ∀ k, (J.apply (.v1PartitionOffsetAdvance r)).standsAt k =
      J.standsAt k + if r.key = k then r.count else 0 := by
    intro k
    rw [standsAt_advance]
    obtain rfl | hk := eq_or_ne k r.key
    · have := h.range r.key
      rw [if_pos rfl, if_pos rfl, wrappingAdd_eq (by omega) hroom]
    · rw [if_neg hk, if_neg (Ne.symm hk), add_zero]
  have hgrow : ∀ k, J.standsAt k ≤ (J.apply (.v1PartitionOffsetAdvance r)).standsAt k := by
    intro k
    rw [hstands]
    split <;> omega
  refine ⟨J.apply (.v1PartitionOffsetAdvance r), ?_⟩
  rw [hs']
  constructor
  · simp only [commitValues_append, ← h.committed]
    rfl
  · simp only [shownReservations_append, ← h.committed, h.shown, hagree]
    rfl
  · intro kr hkr
    rcases mem_snoc.mp hkr with hkr | hkr
    · exact h.tame kr hkr
    · exact .inr ⟨r, hr, hkr⟩
  · intro r' hr'
    have hold := h.agree r' (mem_filterMap.mpr (by
      obtain ⟨x, hx, hxr⟩ := mem_filterMap.mp hr'
      exact ⟨x, mem_cons_of_mem _ hx, hxr⟩))
    rw [standsAt_advance, standsAt_advance, hold]
  · intro r' hr'
    have hold := h.room r' (mem_filterMap.mpr (by
      obtain ⟨x, hx, hxr⟩ := mem_filterMap.mp hr'
      exact ⟨x, mem_cons_of_mem _ hx, hxr⟩))
    rw [htotal] at hold
    rw [hstands]
    omega
  · intro k
    exact (h.range k).trans (hgrow k)
  · intro k
    exact (h.grows k).trans (hgrow k)
  · intro g hg
    rcases mem_snoc.mp hg with hg | hg
    · obtain ⟨hlow, hhigh⟩ := h.within g hg
      exact ⟨hlow, hhigh.trans (hgrow _)⟩
    · rw [hg]
      refine ⟨(h.grows r.key).trans hagree.ge, ?_⟩
      show s.scratch.standsAt r.key + r.count ≤ (J.apply _).standsAt r.key
      rw [hstands, if_pos rfl, hagree]
  · refine pairwise_append.mpr ⟨h.apart, pairwise_singleton _ _, fun g hg x hx hkey => ?_⟩
    rw [mem_singleton.mp hx] at hkey ⊢
    have hhigh := (h.within g hg).2
    rw [hkey] at hhigh
    exact .inl (hhigh.trans hagree.ge)

lemma run (h : InStep scan J₀ s records J) (hdelete : ∀ rec ∈ records, deletesTopic rec = false)
    (hcounts : ∀ r ∈ records.filterMap advanceOf, 1 ≤ r.count)
    (hs : Submission.run assignBase scan s records = .ok s') : ∃ J', InStep scan J₀ s' [] J' := by
  induction records generalizing s J with
  | nil =>
    cases hs
    exact ⟨J, h⟩
  | cons rec records ih =>
    rw [Submission.run] at hs
    cases hstep : s.step assignBase scan rec with
    | error err =>
      rw [hstep] at hs
      cases hs
    | ok mid =>
      rw [hstep] at hs
      obtain ⟨hrec, hdelete'⟩ := forall_mem_cons.mp hdelete
      have hcounts' : ∀ r ∈ records.filterMap advanceOf, 1 ≤ r.count := fun r hr =>
        hcounts r (mem_filterMap.mpr (by
          obtain ⟨x, hx, hxr⟩ := mem_filterMap.mp hr
          exact ⟨x, mem_cons_of_mem _ hx, hxr⟩))
      suffices hmid : ∃ J', InStep scan J₀ mid records J' by
        obtain ⟨J', hJ'⟩ := hmid
        exact ih hJ' hdelete' hcounts' hs
      cases rec with
      | v1PartitionOffsetAdvance r =>
        exact h.advance (hcounts r (mem_filterMap.mpr ⟨_, mem_cons_self, rfl⟩)) hcounts' hstep
      | v1DeleteTopic name => cases hrec
      | _ => exact h.quiet id hstep

end InStep
end request
end Crabka.Metadata
