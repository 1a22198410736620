import Crabka.Metadata.Fidelity

/-!
# Checkpoints

`crates/raft/src/snapshot.rs`: a checkpoint lists an image as KIP-631 values, with the `kraft.version` and the voters
in front. The values are translated against the image that is written, and read back against one that grows with them.
`load_serialize` says which images come back: those that are `Restorable` and whose records survive the translation
(`Checkpointable`).
-/

namespace Crabka.Metadata
open Kraft (NodeId Uuid VoterSet Voter VoterEndpoint)
open Found
open Std (ExtTreeMap)
open MetadataImage
open List hiding rec

/-! ## Voters on the wire -/

/-- A voter of `VotersRecord`. -/
structure WireVoter where
  voterId : ℤ
  voterDirectoryId : Uuid
  endpoints : List VoterEndpoint
  minSupportedVersion : ℤ
  maxSupportedVersion : ℤ
  deriving DecidableEq, Repr

/-- A number that has to fit a signed type, or the change is rejected. -/
def fits (bound : ℤ) (n : ℕ) (detail : String) : Except RaftError ℤ :=
  if (n : ℤ) ≤ bound then .ok n else .error (.changeRejected detail)

def unsigned (v : ℤ) (detail : String) : Except RaftError ℕ :=
  if 0 ≤ v then .ok v.toNat else .error (.changeRejected detail)

def voterToWire (v : Voter) : Except RaftError WireVoter := do
  let voterId ← fits i32Max v.id "snapshot voter id exceeds int32"
  let min ← fits i16Max v.kraftVersion.min "snapshot minimum kraft.version exceeds int16"
  let max ← fits i16Max v.kraftVersion.max "snapshot maximum kraft.version exceeds int16"
  return ⟨voterId, v.directoryId, v.endpoints, min, max⟩

def voterSetToWire (voters : VoterSet) : Except RaftError (List WireVoter) :=
  (voters.voters.toList.map Prod.snd).mapM voterToWire

def voterFromWire (v : WireVoter) : Except RaftError Voter := do
  let id ← unsigned v.voterId "negative voter id in snapshot"
  let min ← unsigned v.minSupportedVersion "negative minimum kraft.version in snapshot"
  let max ← unsigned v.maxSupportedVersion "negative maximum kraft.version in snapshot"
  if min > max then throw (.changeRejected "inverted kraft.version range in snapshot")
  return ⟨id, v.voterDirectoryId, v.endpoints, ⟨min, max⟩⟩

def voterSetFromWire (record : List WireVoter) : Except RaftError VoterSet := do
  let voters ← record.mapM voterFromWire
  let set := VoterSet.fromVoters voters
  if set.len ≠ voters.length then throw (.changeRejected "duplicate voter id in snapshot")
  return set

/-! ## Writing -/

/-- What a checkpoint is made of, batch by batch. -/
inductive SnapshotItem where
  | header
  | kraftVersion (version : ℤ)
  | voters (record : List WireVoter)
  | otherControl
  | data (values : List KraftMetadataRecord)
  | footer

/-- The records that a checkpoint writes as control records. -/
def isControl : MetadataRecord → Bool
  | .v1Voters _ | .v1KRaftVersion _ => true
  | _ => false

def snapshotValues (scan : Scan) (I : MetadataImage) (rec : MetadataRecord) :
    Except RaftError (List KraftMetadataRecord) :=
  match toKraftValues scan rec I with
  | .ok values => .ok values
  | .error e => .error (.changeRejected s!"snapshot encode: {e.text}")

def serialize (scan : Scan) (it : Iteration) (I : MetadataImage) :
    Except RaftError (List SnapshotItem) := do
  let version ← fits i16Max I.kraftVersion "snapshot kraft.version exceeds int16"
  let voters ← voterSetToWire I.voters
  let values ← ((I.toRecords it).filter (!isControl ·)).mapM (snapshotValues scan I)
  return [.header, .kraftVersion version, .voters voters] ++
    (if values.flatten.isEmpty then [] else [.data values.flatten]) ++ [.footer]

/-! ## Reading -/

/-- How far a snapshot is read. -/
inductive SnapshotReadStage where
  | header
  | kraftVersion
  | voters
  | metadataOrFooter
  | legacyMetadataOrFooter
  | done
  deriving DecidableEq, Repr

def invalidSnapshotOrder : RaftError :=
  .changeRejected "snapshot must contain header, kraft.version, voters, metadata, footer in order"

structure SnapshotReader where
  stage : SnapshotReadStage := .header
  kraftVersion : Option ℕ := none
  voters : Option VoterSet := none
  /-- The image that the values are decoded against; its cluster id does not matter. -/
  ctx : MetadataImage := new 0
  records : List MetadataRecord := []

/-- The values of a data batch, each decoded against the records before it. -/
def readValues (scan : Scan) : MetadataImage → List KraftMetadataRecord →
    Except RaftError (MetadataImage × List MetadataRecord)
  | ctx, [] => .ok (ctx, [])
  | ctx, kr :: krs =>
    match fromKraft scan kr ctx with
    | .error e => .error (.changeRejected s!"snapshot decode: {e.text}")
    | .ok rec => do
      let (ctx', recs) ← readValues scan (ctx.apply rec) krs
      return (ctx', rec :: recs)

def SnapshotReader.step (scan : Scan) (r : SnapshotReader) :
    SnapshotItem → Except RaftError SnapshotReader
  | .header => match r.stage with
    | .header => .ok { r with stage := .kraftVersion }
    | _ => .error invalidSnapshotOrder
  | .kraftVersion version => match r.stage with
    | .kraftVersion => do
      let v ← unsigned version "negative kraft.version in snapshot"
      return { r with kraftVersion := some v, stage := .voters }
    | _ => .error invalidSnapshotOrder
  | .voters record => match r.stage with
    | .voters => do
      let set ← voterSetFromWire record
      return { r with voters := some set, stage := .metadataOrFooter }
    | _ => .error invalidSnapshotOrder
  | .footer => match r.stage with
    | .metadataOrFooter | .kraftVersion | .legacyMetadataOrFooter => .ok { r with stage := .done }
    | _ => .error invalidSnapshotOrder
  | .otherControl => .error invalidSnapshotOrder
  | .data values =>
    -- A checkpoint without control state goes from its header to its data.
    let stage := if r.stage = .kraftVersion then .legacyMetadataOrFooter else r.stage
    if stage = .metadataOrFooter ∨ stage = .legacyMetadataOrFooter then do
      let (ctx, recs) ← readValues scan r.ctx values
      return { r with stage, ctx, records := r.records ++ recs }
    else .error invalidSnapshotOrder

structure SnapshotContents where
  controlState : Option (ℕ × VoterSet)
  metadataRecords : List MetadataRecord

def SnapshotReader.read (scan : Scan) (items : List SnapshotItem) :
    Except RaftError SnapshotContents := do
  let r ← items.foldlM (SnapshotReader.step scan) {}
  if r.stage ≠ .done then throw invalidSnapshotOrder
  match r.kraftVersion, r.voters with
  | some v, some voters => return ⟨some (v, voters), r.records⟩
  | none, none => return ⟨none, r.records⟩
  | _, _ => throw invalidSnapshotOrder

def loadCheckpoint (scan : Scan) (clusterId : Uuid) (items : List SnapshotItem) :
    Except RaftError MetadataImage := do
  let contents ← SnapshotReader.read scan items
  let image := fromRecords clusterId contents.metadataRecords
  match contents.controlState with
  | some (version, voters) => return (image.apply (.v1KRaftVersion version)).apply (.v1Voters voters)
  | none => return image

/-! ## Voters are read back -/

lemma unsigned_fits {bound : ℤ} {n : ℕ} {detail : String} {v : ℤ}
    (h : fits bound n detail = .ok v) (detail' : String) : unsigned v detail' = .ok n := by
  unfold fits at h
  split at h
  · cases h
    rw [unsigned, if_pos (Int.natCast_nonneg n), Int.toNat_natCast]
  · cases h

lemma voterFromWire_toWire {v : Voter} {w : WireVoter} (h : voterToWire v = .ok w)
    (hrange : v.kraftVersion.min ≤ v.kraftVersion.max) : voterFromWire w = .ok v := by
  obtain ⟨id, hid, h⟩ := bind_eq_ok.mp h
  obtain ⟨min, hmin, h⟩ := bind_eq_ok.mp h
  obtain ⟨max, hmax, h⟩ := bind_eq_ok.mp h
  cases h
  simp only [voterFromWire, unsigned_fits hid, unsigned_fits hmin, unsigned_fits hmax, ok_bind,
    if_neg (Nat.not_lt.mpr hrange)]
  rfl

/-- The voters of an image are listed under their ids, with proper version ranges. -/
def ProperVoters (voters : VoterSet) : Prop :=
  ∀ (n : NodeId) (v : Voter), voters.voters[n]? = some v → v.id = n ∧ v.kraftVersion.min ≤ v.kraftVersion.max

lemma voterSetFromWire_toWire {voters : VoterSet} {record : List WireVoter}
    (h : voterSetToWire voters = .ok record) (hp : ProperVoters voters) :
    voterSetFromWire record = .ok voters := by
  have hback : record.mapM voterFromWire = .ok (voters.voters.toList.map Prod.snd) := by
    refine mapM_inverse (fun v hv w hw => voterFromWire_toWire hw ?_) h
    obtain ⟨⟨n, v'⟩, hmem, rfl⟩ := mem_map.mp hv
    exact (hp n v' ((mem_toList _).mp hmem)).2
  have hset : VoterSet.fromVoters (voters.voters.toList.map Prod.snd) = voters := by
    rw [VoterSet.fromVoters, foldl_map]
    refine congrArg VoterSet.mk (foldl_of_perm (.refl _) fun m n v hv => ?_)
    rw [(hp n v hv).1]
  simp only [voterSetFromWire, hback, ok_bind, hset, VoterSet.len, length_map,
    ExtTreeMap.length_toList, ne_eq, not_true, if_false]
  rfl

/-! ## Values are read back group by group -/

section
variable {scan : Scan} {I ctx : MetadataImage}

/-- Reading values turns one image into another, by the records that are read. -/
def Reads (scan : Scan) (ctx : MetadataImage) (values : List KraftMetadataRecord)
    (ctx' : MetadataImage) : Prop :=
  ∃ recs, readValues scan ctx values = .ok (ctx', recs) ∧ ctx' = ctx.applyAll recs

lemma Reads.nil : Reads scan ctx [] ctx := ⟨[], rfl, rfl⟩

variable {krs : List KraftMetadataRecord} {rec : MetadataRecord}

lemma Reads.cons {kr : KraftMetadataRecord} {ctx' : MetadataImage}
    (hd : fromKraft scan kr ctx = .ok rec) (h : Reads scan (ctx.apply rec) krs ctx') :
    Reads scan ctx (kr :: krs) ctx' := by
  obtain ⟨recs, hread, heq⟩ := h
  refine ⟨rec :: recs, ?_, heq⟩
  simp only [readValues, hd, hread, ok_bind]
  rfl

lemma Reads.append {as bs : List KraftMetadataRecord} {ctx' ctx'' : MetadataImage}
    (ha : Reads scan ctx as ctx') (hb : Reads scan ctx' bs ctx'') :
    Reads scan ctx (as ++ bs) ctx'' := by
  obtain ⟨recs, hread, heq⟩ := ha
  induction as generalizing ctx recs with
  | nil =>
    cases hread
    exact hb
  | cons kr krs ih =>
    simp only [readValues] at hread
    split at hread
    · cases hread
    · rename_i rec hd
      obtain ⟨⟨c, rs⟩, hrest, hread⟩ := bind_eq_ok.mp hread
      cases hread
      exact Reads.cons hd (ih rs hrest heq)

lemma Reads.of_commitValues {ctx' : MetadataImage}
    (h : commitValues scan ctx krs = (ctx', replicate krs.length .applied)) :
    Reads scan ctx krs ctx' := by
  induction krs generalizing ctx with
  | nil => obtain ⟨rfl, -⟩ := Prod.mk.inj h; exact Reads.nil
  | cons kr krs ih =>
    obtain ⟨himage, hout⟩ := Prod.mk.inj h
    rw [length_cons, replicate_succ, cons.injEq] at hout
    have hhead := hout.1
    unfold commitValue at hhead
    split at hhead
    · cases hhead
    · rename_i rec hd
      split at hhead
      · cases hhead
      · rename_i hval
        have hstep : commitValue scan ctx kr = (ctx.apply rec, .applied) := by
          simp only [commitValue, hd, hval]
        rw [hstep] at himage hout
        exact Reads.cons hd (ih (Prod.ext himage hout.2))

/-- Records that are written against one image and read back, whatever their values are. -/
def ReadsBack (scan scan' : Scan) (I ctx : MetadataImage) (recs : List MetadataRecord)
    (ctx' : MetadataImage) : Prop :=
  ∀ values, recs.mapM (snapshotValues scan I) = .ok values → Reads scan' ctx values.flatten ctx'

variable {scan' : Scan} {ctx' ctx'' : MetadataImage}
variable {as bs : List MetadataRecord}

lemma ReadsBack.append (ha : ReadsBack scan scan' I ctx as ctx')
    (hb : ReadsBack scan scan' I ctx' bs ctx'') : ReadsBack scan scan' I ctx (as ++ bs) ctx'' := by
  intro values h
  rw [mapM_append] at h
  obtain ⟨va, hva, h⟩ := bind_eq_ok.mp h
  obtain ⟨vb, hvb, h⟩ := bind_eq_ok.mp h
  cases h
  rw [flatten_append]
  exact (ha va hva).append (hb vb hvb)

lemma ReadsBack.append_pair {cs : List MetadataRecord}
    (hab : ReadsBack scan scan' I ctx (as ++ bs) ctx') (hc : ReadsBack scan scan' I ctx' cs ctx'') :
    ReadsBack scan scan' I ctx (as ++ (bs ++ cs)) ctx'' := by
  rw [← append_assoc]
  exact hab.append hc

lemma ReadsBack.nil : ReadsBack scan scan' I ctx [] ctx := by
  intro values h
  cases h
  exact .nil

variable {recs : List MetadataRecord}

lemma ReadsBack.cons (hfirst : ∀ krs, toKraftRecords scan rec I = .ok krs →
      Reads scan' ctx (krs.map (frame I.framingLevel)) ctx')
    (hrest : ReadsBack scan scan' I ctx' recs ctx'') :
    ReadsBack scan scan' I ctx (rec :: recs) ctx'' := by
  intro values hvalues
  rw [mapM_cons] at hvalues
  obtain ⟨vs, hvs, hvalues⟩ := bind_eq_ok.mp hvalues
  obtain ⟨rest, hread, hvalues⟩ := bind_eq_ok.mp hvalues
  cases hvalues
  unfold snapshotValues toKraftValues at hvs
  cases hk : toKraftRecords scan rec I with
  | error e => rw [hk] at hvs; cases hvs
  | ok krs =>
    rw [hk] at hvs
    cases hvs
    exact (hfirst krs hk).append (hrest rest hread)

variable {P : MetadataImage → Prop}

/-- Records that are read back one by one, as records that act the same; `P` is what the images in
between have to satisfy. -/
lemma ReadsBack.of_forall {α : Type} {l : List α} (kind kind' : α → MetadataRecord)
    (hstep : ∀ x ∈ l, ∀ ctx, P ctx → ∀ krs, toKraftRecords scan (kind x) I = .ok krs →
      Reads scan' ctx (krs.map (frame I.framingLevel)) (ctx.apply (kind' x)))
    (hkeep : ∀ x ∈ l, ∀ ctx, P ctx → P (ctx.apply (kind' x))) (h : P ctx) :
    ReadsBack scan scan' I ctx (l.map kind) (ctx.applyAll (l.map kind')) := by
  induction l generalizing ctx with
  | nil => exact .nil
  | cons x l ih =>
    refine ReadsBack.cons (hstep x mem_cons_self ctx h) ?_
    exact ih (fun y hy => hstep y (mem_cons_of_mem x hy))
      (fun y hy => hkeep y (mem_cons_of_mem x hy)) (hkeep x mem_cons_self ctx h)

lemma ReadsBack.of_self
    (hstep : ∀ rec ∈ recs, ∀ ctx, P ctx → ∀ krs, toKraftRecords scan rec I = .ok krs →
      Reads scan' ctx (krs.map (frame I.framingLevel)) (ctx.apply rec))
    (hkeep : ∀ rec ∈ recs, ∀ ctx, P ctx → P (ctx.apply rec)) (h : P ctx) :
    ReadsBack scan scan' I ctx recs (ctx.applyAll recs) := by
  have hback := ReadsBack.of_forall id id hstep hkeep h
  rwa [map_id] at hback

lemma ReadsBack.verbatim (h : ∀ rec ∈ recs, Verbatim rec) :
    ReadsBack scan scan' I ctx recs (ctx.applyAll recs) := by
  refine ReadsBack.of_self (P := fun _ => True) (fun rec hrec c _ krs hkrs => ?_) (fun _ _ _ _ => trivial) trivial
  obtain ⟨kr, hlist, hdecode⟩ := fromKraft_verbatim (h rec hrec) hkrs I.framingLevel scan' c
  rw [hlist]
  exact .cons hdecode .nil

lemma ReadsBack.append_verbatim (happly : ctx.applyAll as = ctx') (hv : ∀ rec ∈ as, Verbatim rec)
    (hb : ReadsBack scan scan' I ctx' bs ctx'') : ReadsBack scan scan' I ctx (as ++ bs) ctx'' :=
  .append (happly ▸ .verbatim hv) hb

lemma ReadsBack.append_plain (happly : ctx.applyAll as = ctx') (hb : ReadsBack scan scan' I ctx' bs ctx'')
    (hv : ∀ rec ∈ as, Verbatim rec := by
      simp only [↓forall_mem_map, ↓forall_mem_flatMap, Verbatim, implies_true]) :
    ReadsBack scan scan' I ctx (as ++ bs) ctx'' :=
  .append_verbatim happly hv hb

/-- What is written of an image survives the translation. -/
structure Translatable (I : MetadataImage) : Prop where
  /-- Brokers are registered with the address of their first listener. -/
  broker : ∀ (n : NodeId) (b : BrokerRegistrationRecord), I.brokers[n]? = some b →
    registeredBroker I.framingLevel b = b
  /-- Node ids are `u64`s. -/
  brokerConfig : ∀ (n : NodeId) (c : ConfigMap), I.brokerConfigs[n]? = some c → n < 2 ^ 64
  /-- Partitions have directories only at the levels that write them. -/
  partition : ∀ (n : String) (ps : PartitionMap) (i : ℤ) (p : PartitionRecord),
    I.partitions[n]? = some ps → ps[i]? = some p → writtenPartition I.framingLevel p = p
  /-- The types of the principals of a token have no colon. -/
  token : ∀ (k : String) (t : DelegationTokenRecord), I.delegationTokens[k]? = some t →
    ∀ p ∈ t.owner :: t.renewers, ':' ∉ p.principalType.toList
  /-- The id of a topic names it. -/
  topicId : IdsNamed I

variable {it : Iteration}

lemma readsBack_brokers (hwf : WellFormed I) (ht : Translatable I) (hit : it.Of I) (hctx : ctx.brokers = ∅) :
    ReadsBack scan scan' I ctx (it.brokers.map fun e => .v1BrokerRegistration e.2)
      { ctx with brokers := I.brokers } := by
  rw [← applyAll_brokers hwf hit hctx]
  refine ReadsBack.of_self (P := fun _ => True) (fun rec hrec c _ krs hkrs => ?_) (fun _ _ _ _ => trivial) trivial
  obtain ⟨⟨n, b⟩, hmem, rfl⟩ := mem_map.mp hrec
  obtain ⟨kb, hkb, hkrs⟩ := bind_eq_ok.mp hkrs
  cases hkrs
  have hdecode := fromKraft_registerBroker hkb I.framingLevel scan' c
  rw [ht.broker n b ((mem_of_perm hit.brokers).mp hmem)] at hdecode
  exact .cons hdecode .nil

/-- The topic record that is read back while the topic has no partitions. -/
def bareTopic (t : TopicRecord) : TopicRecord := { t with replicationFactor := 1 }

lemma readsBack_topics (hctx : ctx.partitions = ∅) :
    ReadsBack scan scan' I ctx (it.topics.map fun e => .v1Topic e.2)
      (ctx.applyAll (it.topics.map fun e => .v1Topic (bareTopic e.2))) := by
  refine ReadsBack.of_forall (P := fun c => c.partitions = ∅) _ _
    (fun e _ c hc krs hkrs => ?_) (fun _ _ _ hc => hc) hctx
  obtain ⟨n, t⟩ := e
  cases hkrs
  have hrec : topicFromKraft ⟨t.name, t.topicId⟩ c = ⟨t.name, t.topicId, 0, 1⟩ := by
    simp [topicFromKraft, topicPartitionCount, partitionsOf, hc]
  have hdecode : fromKraft scan' (frame I.framingLevel (.topic ⟨t.name, t.topicId⟩)) c =
      .ok (.v1Topic ⟨t.name, t.topicId, 0, 1⟩) := by rw [← hrec]; rfl
  exact .cons hdecode .nil

lemma readsBack_partitions (hwf : WellFormed I) (ht : Translatable I) (hit : it.Of I)
    (hctx : Related (fun _ (a b : TopicRecord) => b.topicId = a.topicId ∧ b.name = a.name) I.topics ctx.topics) :
    ReadsBack scan scan' I ctx
      (it.partitions.flatMap fun e => e.2.toList.map fun p => .v1Partition p.2)
      (ctx.applyAll (it.partitions.flatMap fun e => e.2.toList.map fun p => .v1Partition p.2)) := by
  refine ReadsBack.of_self (P := fun c => Related (fun _ (a b : TopicRecord) =>
    b.topicId = a.topicId ∧ b.name = a.name) I.topics c.topics)
    (fun rec hrec c hc krs hkrs => ?_) (fun rec hrec c hc => ?_) hctx
  · obtain ⟨⟨n, ps⟩, hmem, hrec⟩ := mem_flatMap.mp hrec
    obtain ⟨⟨i, p⟩, hp, rfl⟩ := mem_map.mp hrec
    have hps := (mem_of_perm hit.partitions).mp hmem
    have hpi := (mem_toList _).mp hp
    simp only [toKraftRecords] at hkrs
    cases htopic : I.topics[p.topic]? with
    | none => rw [htopic] at hkrs; cases hkrs
    | some t =>
      rw [htopic] at hkrs
      obtain ⟨kp, hkp, hkrs⟩ := bind_eq_ok.mp hkrs
      cases hkrs
      have hname : topicNameForId scan' c t.topicId = some p.topic :=
        topicNameForId_of_related hc hwf ht.topicId htopic
      have hdecode := fromKraft_partition hkp hname I.framingLevel
      rw [ht.partition n ps i p hps hpi] at hdecode
      exact .cons hdecode .nil
  · obtain ⟨⟨n, ps⟩, -, hrec⟩ := mem_flatMap.mp hrec
    obtain ⟨⟨i, p⟩, -, rfl⟩ := mem_map.mp hrec
    exact hc.modify_right fun a b hab => hab

lemma configToKraft_self (code : ℤ) (name : String) (configs : ConfigMap) :
    configToKraft code name configs configs = configToKraft code name configs ∅ := by
  have hnone : (configs.toList.filter fun e => !configs.contains e.1) = [] := by
    rw [filter_eq_nil_iff]
    intro e he
    simp [ExtTreeMap.contains_eq_isSome_getElem?, (mem_toList _).mp he]
  rw [configToKraft, configToKraft, hnone]
  simp

variable {l : List (String × ConfigMap)}

lemma readsBack_overrides (o : Overrides) (hkrs : ∀ e ∈ l,
      toKraftRecords scan (o.kind e.1 e.2) I = .ok (configToKraft o.code e.1 e.2 e.2))
    (hnd : (l.map Prod.fst).Nodup) (hfresh : ∀ e ∈ l, (o.field.get ctx)[e.1]? = none)
    (hne : ∀ (n : String) (v : ConfigMap), (o.field.get ctx)[n]? = some v → v.isEmpty = false)
    (hacc : ∀ e ∈ l, ∀ m v, (o.field.set m ctx).accepts (o.kind e.1 v)) :
    ReadsBack scan scan' I ctx (l.map fun e => o.kind e.1 e.2) (ctx.applyAll (l.map fun e => o.kind e.1 e.2)) := by
  induction l generalizing ctx with
  | nil => exact .nil
  | cons e l ih =>
    rw [map_cons, nodup_cons] at hnd
    refine ReadsBack.cons (fun krs h => ?_) (ih ?_ hnd.2 ?_ ?_ ?_)
    · cases (hkrs e mem_cons_self).symm.trans h
      have hcommit := commitValues_configToKraft scan' o e.1 e.2 I.framingLevel hne (hacc e mem_cons_self)
      rw [hfresh e mem_cons_self, Option.getD_none] at hcommit
      rw [configToKraft_self]
      refine Reads.of_commitValues ?_
      rw [hcommit, length_map]
    · exact fun x hx => hkrs x (mem_cons_of_mem e hx)
    · intro x hx
      have hneq : x.1 ≠ e.1 := fun heq => hnd.1 (heq ▸ mem_map.mpr ⟨x, hx, rfl⟩)
      rw [o.apply, o.field.get_set, getElem?_replaceConfig, if_neg hneq]
      exact hfresh x (mem_cons_of_mem e hx)
    · rw [o.apply, o.field.get_set]
      exact replaceConfig_nonempty hne e.1 e.2
    · intro x hx m v
      rw [o.apply, o.field.set_set]
      exact hacc x (mem_cons_of_mem e hx) m v

lemma ReadsBack.append_overrides (o : Overrides) {m : ExtTreeMap String ConfigMap}
    (happly : ctx.applyAll (l.map fun e => o.kind e.1 e.2) = ctx') (hl : l.Perm m.toList)
    (hctx : o.field.get ctx = ∅) (hkrs : ∀ n c,
      toKraftRecords scan (o.kind n c) I = .ok (configToKraft o.code n c (m[n]?.getD ∅)))
    (hacc : ∀ (n : String) (c : ConfigMap), m[n]? = some c → ∀ m' v, (o.field.set m' ctx).accepts (o.kind n v))
    (hb : ReadsBack scan scan' I ctx' bs ctx'') :
    ReadsBack scan scan' I ctx ((l.map fun e => o.kind e.1 e.2) ++ bs) ctx'' := by
  have hmem : ∀ e ∈ l, m[e.1]? = some e.2 := fun e he => (mem_of_perm hl).mp he
  have hkeys : (l.map Prod.fst).Nodup := nodup_keys_of_perm hl
  refine .append (happly ▸ readsBack_overrides o (fun e he => ?_) hkeys ?_ ?_
    fun e he => hacc e.1 e.2 (hmem e he)) hb
  · rw [hkrs, hmem e he]
    rfl
  · simp [hctx]
  · simp [hctx]

/-! ## The whole checkpoint -/

/-- The image whose records are read back: its topics have the replication factor one, and the
quorum state is kept apart. -/
def bareImage (I : MetadataImage) : MetadataImage :=
  { I with
    topics := I.topics.map fun _ t => bareTopic t
    kraftVersion := 0
    voters := ⟨∅⟩ }

def bareIteration (it : Iteration) : Iteration :=
  { it with topics := it.topics.map fun e => (e.1, bareTopic e.2) }

lemma bareIteration_topics :
    ((bareIteration it).topics.map fun e => MetadataRecord.v1Topic e.2) =
      it.topics.map fun e => .v1Topic (bareTopic e.2) := map_map

lemma getElem?_bareImage_topics (n : String) : (bareImage I).topics[n]? = I.topics[n]?.map bareTopic := by
  simp only [bareImage, ExtTreeMap.getElem?_map]

lemma bareIteration_of (hit : it.Of I) : (bareIteration it).Of (bareImage I) :=
  { hit with
    topics := by
      simp only [bareImage, bareIteration, ExtTreeMap.toList_map]
      exact hit.topics.map _ }

lemma wellFormed_bareImage (h : WellFormed I) : WellFormed (bareImage I) := by
  have htopics : ∀ (n : String) t, (bareImage I).topics[n]? = some t →
      ∃ t', I.topics[n]? = some t' ∧ t = bareTopic t' := by
    intro n t ht
    rw [getElem?_bareImage_topics] at ht
    obtain ⟨t', ht', rfl⟩ := Option.map_eq_some_iff.mp ht
    exact ⟨t', ht', rfl⟩
  have hcontains : ∀ n, (bareImage I).topics.contains n = I.topics.contains n := by
    intro n
    rw [ExtTreeMap.contains_eq_isSome_getElem?, ExtTreeMap.contains_eq_isSome_getElem?,
      getElem?_bareImage_topics, Option.isSome_map]
  exact { h with
    topicName := fun n t ht => by
      obtain ⟨t', ht', rfl⟩ := htopics n t ht
      exact h.topicName n t' ht'
    topicCount := fun n t ht => by
      obtain ⟨t', ht', rfl⟩ := htopics n t ht
      exact h.topicCount n t' ht'
    topicId := fun id n hid => by
      obtain ⟨t, ht, rfl⟩ := h.topicId id n hid
      exact ⟨bareTopic t, by rw [getElem?_bareImage_topics, ht]; rfl, rfl⟩
    partitionOwner := fun n ps hps => by
      rw [hcontains]
      exact h.partitionOwner n ps hps
    topicConfigOwner := fun n c hc => by
      rw [hcontains]
      exact h.topicConfigOwner n c hc }

lemma filter_toRecords :
    ((I.toRecords it).filter fun rec => !isControl rec) =
      toRecords { I with kraftVersion := 0, voters := ⟨∅⟩ } it := by
  have hepoch : (if 0 ≤ I.featuresEpoch then [MetadataRecord.v1FeaturesEpoch I.featuresEpoch]
      else []).filter (fun rec => !isControl rec) =
      if 0 ≤ I.featuresEpoch then [.v1FeaturesEpoch I.featuresEpoch] else [] := by split <;> rfl
  have hversion : (if I.kraftVersion ≠ 0 then [MetadataRecord.v1KRaftVersion I.kraftVersion]
      else []).filter (fun rec => !isControl rec) = [] := by split <;> rfl
  have hvoters : (if I.voters.isEmpty then [] else [MetadataRecord.v1Voters I.voters]).filter
      (fun rec => !isControl rec) = [] := by split <;> rfl
  unfold toRecords
  simp only [flatten_cons, flatten_nil, filter_append, hepoch, hversion, hvoters,
    filter_map, filter_flatMap, Function.comp_def]
  simp [isControl, VoterSet.isEmpty]

lemma related_bareTopics (hwf : WellFormed I) (hit : it.Of I) (hctx : ctx.topics = ∅) :
    Related (fun _ (a b : TopicRecord) => b.topicId = a.topicId ∧ b.name = a.name) I.topics
      (ctx.applyAll (it.topics.map fun e => .v1Topic (bareTopic e.2))).topics := by
  have hentries := bareIteration_of hit
  have hkeys : ((bareIteration it).topics.map Prod.fst).Nodup := nodup_keys_of_perm hentries.topics
  have hlookup : ∀ e ∈ (bareIteration it).topics, (bareImage I).topics[e.1]? = some e.2 :=
    fun e he => (mem_of_perm hentries.topics).mp he
  rw [← bareIteration_topics, applyAll_topics
    (fun e he => (wellFormed_bareImage hwf).topicName e.1 e.2 (hlookup e he)) hkeys (by simp [hctx])]
  intro n
  simp only [hctx]
  cases hn : I.topics[n]? with
  | none =>
    rw [getElem?_rebuild_of_not_mem, ExtTreeMap.getElem?_empty]
    · exact .none
    · rw [map_map]
      intro hmem
      obtain ⟨e, he, rfl⟩ := mem_map.mp hmem
      have := hlookup e he
      rw [getElem?_bareImage_topics, show I.topics[e.1]? = none from hn] at this
      cases this
  | some t =>
    have hmem : (n, bareTopic t) ∈ (bareIteration it).topics := by
      refine (mem_of_perm hentries.topics).mpr ?_
      rw [getElem?_bareImage_topics, hn]
      rfl
    have hlisted : (n, { bareTopic t with partitions := 0 }) ∈ (bareIteration it).topics.map
        fun e => (e.1, { e.2 with partitions := 0 }) := mem_map.mpr ⟨_, hmem, rfl⟩
    rw [getElem?_rebuild_of_mem (by rw [map_map]; exact hkeys) hlisted]
    exact .some ⟨rfl, rfl⟩

lemma readsBack_topics_partitions (hwf : WellFormed I) (ht : Translatable I) (hit : it.Of I)
    (hctx : ctx.topics = ∅) (hctx' : ctx.topicIds = ∅) (hctx'' : ctx.partitions = ∅) :
    ReadsBack scan scan' I ctx ((it.topics.map fun e => .v1Topic e.2) ++
        it.partitions.flatMap fun e => e.2.toList.map fun p => .v1Partition p.2)
      { ctx with
        topics := (bareImage I).topics.map fun n t =>
          { t with replicationFactor := (bareImage I).restoredFactor n t }
        topicIds := rebuild ∅ ((bareIteration it).topics.map fun e => (e.2.topicId, e.1))
        partitions := I.partitions } := by
  have h := applyAll_topics_partitions (wellFormed_bareImage hwf) (bareIteration_of hit) hctx hctx' hctx''
  rw [bareIteration_topics] at h
  refine Eq.subst h ?_
  exact .append (readsBack_topics hctx'') (readsBack_partitions hwf ht hit (related_bareTopics hwf hit hctx))

lemma accepts_topicConfig {n : String} {v : ConfigMap} (h : I.topics.contains n) :
    I.accepts (.v1TopicConfig ⟨n, v⟩) = true := by
  simp only [accepts, validate, h, if_true]

/-- **The data of a checkpoint is read back as the records of the bare image.** -/
theorem readsBack_toRecords (hwf : WellFormed I) (ht : Translatable I) (hit : it.Of I) :
    ReadsBack scan scan' I (new 0) ((I.toRecords it).filter fun rec => !isControl rec)
      { (bareImage I).restored (bareIteration it) with clusterId := 0 } := by
  have hknown : ∀ n, I.topics.contains n → ((bareImage I).topics.map fun n t =>
      { t with replicationFactor := (bareImage I).restoredFactor n t }).contains n := by
    intro n hn
    simpa [bareImage] using hn
  rw [filter_toRecords]
  refine .append (readsBack_brokers hwf ht hit rfl) ?_
  refine .append_plain (applyAll_controllers hwf hit rfl) ?_
  refine .append_verbatim (applyAll_brokerConfigs hit rfl) (fun rec hrec => ?_) ?_
  · obtain ⟨⟨n, c⟩, hmem, hrec⟩ := mem_flatMap.mp hrec
    obtain ⟨e, -, rfl⟩ := mem_map.mp hrec
    exact ht.brokerConfig n c ((mem_of_perm hit.brokerConfigs).mp hmem)
  refine .append_pair (readsBack_topics_partitions hwf ht hit rfl rfl rfl) ?_
  refine .append_plain (applyAll_nextOffsets hwf hit rfl) ?_
  -- A topic configuration is accepted once its topic is there.
  refine .append_overrides topicOverrides (applyAll_topicConfigs hwf hit rfl) hit.topicConfigs rfl
    (fun _ _ => rfl) (fun n c hc _ _ => accepts_topicConfig (hknown n (hwf.topicConfigOwner n c hc))) ?_
  refine .append_plain (applyAll_scram hwf hit rfl) ?_
  refine .append_plain (applyAll_aclsLiteral hwf hit rfl) ?_
  refine .append_plain (applyAll_aclsPrefixed hwf hit rfl) ?_
  refine .append_plain (applyAll_quotas hwf hit rfl) ?_
  refine .append_plain (applyAll_producerIds (I := I) hwf rfl) ?_
  refine .append_verbatim (applyAll_tokens hwf hit rfl) (forall_mem_map.mpr fun e he => ?_) ?_
  · exact ht.token e.1 e.2 ((mem_of_perm hit.delegationTokens).mp he)
  refine .append_overrides clientMetricsOverrides (applyAll_clientMetrics hwf hit rfl)
    hit.clientMetricsConfigs rfl (fun _ _ => rfl) (fun _ _ _ _ _ => rfl) ?_
  refine .append_overrides groupOverrides (applyAll_groupConfigs hwf hit rfl) hit.groupConfigs rfl
    (fun _ _ => rfl) (fun _ _ _ _ _ => rfl) ?_
  refine .append_plain rfl ?_
  refine .append_plain (applyAll_features_epoch (I := I) hwf rfl rfl) .nil fun rec hrec => ?_
  split at hrec
  · obtain rfl := mem_singleton.mp hrec
    trivial
  · cases hrec

lemma apply_withClusterId (c : Uuid) (rec : MetadataRecord) :
    apply { I with clusterId := c } rec = { I.apply rec with clusterId := c } := by
  cases rec with
  | v1AccessControlEntry e => cases hp : e.patternType <;> simp only [apply, hp]
  | v1ProducerIds r =>
    show (if r.nextProducerId > I.nextProducerId then _ else _) =
      { (if r.nextProducerId > I.nextProducerId then _ else I) with clusterId := c }
    split <;> rfl
  | _ => rfl

lemma applyAll_withClusterId (c : Uuid) (recs : List MetadataRecord) :
    applyAll { I with clusterId := c } recs =
      { I.applyAll recs with clusterId := c } := by
  induction recs generalizing I with
  | nil => rfl
  | cons rec recs ih =>
    show (apply { I with clusterId := c } rec).applyAll recs = _
    rw [apply_withClusterId, ih]
    rfl

/-- An image that a snapshot can carry. -/
structure Checkpointable (I : MetadataImage) : Prop where
  translatable : Translatable I
  voters : ProperVoters I.voters
  /-- No broker is left with an empty configuration. -/
  brokerConfig : ∀ (n : NodeId) (c : ConfigMap), I.brokerConfigs[n]? = some c → c.isEmpty = false
  /-- No entity is left without quotas. -/
  clientQuota : ∀ (k : EntityKey) (q : QuotaMap), I.clientQuotas[k]? = some q → q.isEmpty = false
  /-- The replication factor is that of the partition that settles it, and one without any. -/
  replicationFactor : ∀ (n : String) (t : TopicRecord), I.topics[n]? = some t →
    t.replicationFactor = ((I.settlingPartition n).map fun p => (p.replicas.length : ℤ)).getD 1
  /-- The features epoch has a record, or there are no features. -/
  featuresEpoch : 0 ≤ I.featuresEpoch ∨ I.featuresEpoch = -1 ∧ I.featureLevels.isEmpty = true

lemma restored_bareImage (hwf : WellFormed I) (hc : Checkpointable I) (hit : it.Of I) :
    { (bareImage I).restored (bareIteration it) with
      kraftVersion := I.kraftVersion, voters := I.voters } = I := by
  have htopics : ((bareImage I).topics.map fun n t =>
      { t with replicationFactor := (bareImage I).restoredFactor n t }) = I.topics := by
    refine ExtTreeMap.ext_getElem? fun n => ?_
    rw [ExtTreeMap.getElem?_map, getElem?_bareImage_topics]
    cases hn : I.topics[n]? with
    | none => rfl
    | some t =>
      have hfactor : (bareImage I).restoredFactor n (bareTopic t) = t.replicationFactor := by
        have hsettling : (bareImage I).settlingPartition n = I.settlingPartition n := rfl
        rw [hc.replicationFactor n t hn, restoredFactor, hsettling]
        cases I.settlingPartition n <;> rfl
      simp only [Option.map_some, hfactor]
      rfl
  have hids : rebuild ∅ ((bareIteration it).topics.map fun e => (e.2.topicId, e.1)) = I.topicIds := by
    rw [bareIteration, map_map]
    exact (restored_topicIds_iff hwf).mpr hc.translatable.topicId it hit
  have hconfigs : (I.brokerConfigs.filter fun _ c => !c.toList.isEmpty) = I.brokerConfigs :=
    filter_eq_self_iff.mpr fun n c h => by simpa using hc.brokerConfig n c h
  have hquotas : (I.clientQuotas.filter fun _ q => !q.toList.isEmpty) = I.clientQuotas :=
    filter_eq_self_iff.mpr fun k q h => by simpa using hc.clientQuota k q h
  have hepoch : I.restoredEpoch = I.featuresEpoch := restoredEpoch_eq_iff.mpr hc.featuresEpoch
  calc { (bareImage I).restored (bareIteration it) with
        kraftVersion := I.kraftVersion, voters := I.voters }
      = { I with
          topics := (bareImage I).topics.map fun n t =>
            { t with replicationFactor := (bareImage I).restoredFactor n t }
          topicIds := rebuild ∅ ((bareIteration it).topics.map fun e => (e.2.topicId, e.1))
          brokerConfigs := I.brokerConfigs.filter fun _ c => !c.toList.isEmpty
          clientQuotas := I.clientQuotas.filter fun _ q => !q.toList.isEmpty
          featuresEpoch := I.restoredEpoch } := rfl
    _ = I := by rw [htopics, hids, hconfigs, hquotas, hepoch]

lemma foldlM_control {version : ℤ} {voters : List WireVoter} {v : ℕ} {set : VoterSet}
    (hversion : unsigned version "negative kraft.version in snapshot" = .ok v)
    (hvoters : voterSetFromWire voters = .ok set) :
    [SnapshotItem.header, .kraftVersion version, .voters voters].foldlM
        (SnapshotReader.step scan) {} =
      .ok { stage := .metadataOrFooter, kraftVersion := some v, voters := some set } := by
  simp only [foldlM_cons, foldlM_nil, SnapshotReader.step, ok_bind, hversion, hvoters]
  rfl

lemma foldlM_data {r : SnapshotReader} {values : List KraftMetadataRecord}
    (hstage : r.stage = .metadataOrFooter) (hread : readValues scan r.ctx values = .ok (ctx', recs)) :
    ((if values.isEmpty then [] else [SnapshotItem.data values]) ++ [SnapshotItem.footer]).foldlM
        (SnapshotReader.step scan) r =
      .ok { r with stage := .done, ctx := ctx', records := r.records ++ recs } := by
  cases values with
  | nil =>
    obtain ⟨rfl, rfl⟩ := Prod.mk.inj (Except.ok.inj hread)
    simp [SnapshotReader.step, hstage]
  | cons kr krs => simp [SnapshotReader.step, hstage, hread]

/-- **A checkpoint gives a checkpointable image back.** -/
theorem load_serialize {items : List SnapshotItem} (hwf : WellFormed I) (hc : Checkpointable I)
    (hit : it.Of I) (h : serialize scan it I = .ok items) :
    loadCheckpoint scan' I.clusterId items = .ok I := by
  obtain ⟨version, hversion, h⟩ := bind_eq_ok.mp h
  obtain ⟨voters, hvoters, h⟩ := bind_eq_ok.mp h
  obtain ⟨values, hvalues, h⟩ := bind_eq_ok.mp h
  cases h
  have hreads : Reads scan' (new 0) values.flatten
      { (bareImage I).restored (bareIteration it) with clusterId := 0 } :=
    readsBack_toRecords hwf hc.translatable hit values hvalues
  obtain ⟨recs, hread, hrecs⟩ := hreads
  have hcontents : SnapshotReader.read scan' ([.header, .kraftVersion version, .voters voters] ++
      (if values.flatten.isEmpty then [] else [.data values.flatten]) ++ [.footer]) =
      .ok ⟨some (I.kraftVersion, I.voters), recs⟩ := by
    unfold SnapshotReader.read
    rw [append_assoc, foldlM_append, foldlM_control (unsigned_fits hversion _)
      (voterSetFromWire_toWire hvoters hc.voters), ok_bind, foldlM_data (r := {
        stage := .metadataOrFooter, kraftVersion := some I.kraftVersion, voters := some I.voters })
        rfl hread]
    rfl
  have himage : fromRecords I.clusterId recs =
      { (bareImage I).restored (bareIteration it) with clusterId := I.clusterId } := by
    have := applyAll_withClusterId (I := new 0) I.clusterId recs
    rwa [← hrecs] at this
  simp only [loadCheckpoint, hcontents, ok_bind, himage]
  exact congrArg Except.ok (restored_bareImage hwf hc hit)

end
end Crabka.Metadata
