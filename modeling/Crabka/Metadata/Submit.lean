import Crabka.Metadata.Invariant
import Crabka.Metadata.Translate

/-!
# The two ends of the metadata log

`crates/raft/src/kraft/controller.rs`: `on_submit_change` validates, translates and applies the records of a request
against a scratch image; `advance_and_apply` decodes, validates and applies the values of a committed batch.
-/

namespace Crabka.Metadata
open Kraft (NodeId Uuid)
open Found

/-! ## Submitting -/

/-- The errors of `RaftError` that a submission can end with. -/
inductive RaftError where
  | notLeader (currentLeader : Option NodeId)
  | metadata (e : MetadataError)
  | changeRejected (detail : String)
  deriving DecidableEq, Repr

structure OffsetReservation where
  topic : String
  partition : ℤ
  baseOffset : ℤ
  count : ℤ
  deriving DecidableEq, Repr

/-- The state of the loop of `on_submit_change`. -/
structure Submission where
  scratch : MetadataImage
  blobs : List KraftMetadataRecord := []
  offsetReservations : List OffsetReservation := []

/-- `assigned_record_offset`, a saturating addition. -/
def assignedRecordOffset (assignBase delta : ℤ) : ℤ := min (assignBase + delta) i64Max

namespace Submission
variable (assignBase : ℤ) (s : Submission)

/-- A new registration is stamped with its offset in the log; one that rewrites that of the same incarnation keeps its
epoch. -/
def stamp (rec : MetadataRecord) : MetadataRecord :=
  match rec with
  | .v1BrokerRegistration b =>
    if s.scratch.brokers[b.nodeId]?.any fun existing =>
        existing.incarnationId == b.incarnationId && existing.brokerEpoch == b.brokerEpoch then
      rec
    else .v1BrokerRegistration
      { b with brokerEpoch := assignedRecordOffset assignBase s.blobs.length }
  | other => other

def reserve (rec : MetadataRecord) : List OffsetReservation :=
  match rec with
  | .v1PartitionOffsetAdvance r =>
    [⟨r.topic, r.partition, (s.scratch.partitionNextOffset r.topic r.partition).getD 0, r.count⟩]
  | _ => []

def step (scan : Scan) (rec : MetadataRecord) : Except RaftError Submission :=
  let r := s.stamp assignBase rec
  match s.scratch.validate r with
  | .error e => .error (.metadata e)
  | .ok _ =>
    match toKraftValues scan r s.scratch with
    | .error e => .error (.changeRejected s!"encode: {e.text}")
    | .ok blobs => .ok {
        scratch := s.scratch.apply r
        blobs := s.blobs ++ blobs
        offsetReservations := s.offsetReservations ++ s.reserve r }

def run (scan : Scan) : Submission → List MetadataRecord → Except RaftError Submission
  | s, [] => .ok s
  | s, rec :: rs =>
    match s.step assignBase scan rec with
    | .error e => .error e
    | .ok s' => run scan s' rs

variable {assignBase s}

lemma step_eq_ok {scan : Scan} {rec : MetadataRecord} {s' : Submission} (h : s.step assignBase scan rec = .ok s') :
    ∃ krs, s.scratch.accepts (s.stamp assignBase rec) ∧
      toKraftRecords scan (s.stamp assignBase rec) s.scratch = .ok krs ∧
      s' = {
        scratch := s.scratch.apply (s.stamp assignBase rec)
        blobs := s.blobs ++ krs.map (frame s.scratch.framingLevel)
        offsetReservations := s.offsetReservations ++ s.reserve (s.stamp assignBase rec) } := by
  unfold step at h
  simp only at h
  split at h
  · cases h
  · rename_i hval
    split at h
    · cases h
    · rename_i blobs hblobs
      unfold toKraftValues at hblobs
      cases hkrs : toKraftRecords scan (s.stamp assignBase rec) s.scratch with
      | error e => rw [hkrs] at hblobs; cases hblobs
      | ok krs =>
        rw [hkrs] at hblobs
        cases hblobs
        exact ⟨krs, by rw [MetadataImage.accepts, hval], rfl, (Except.ok.inj h).symm⟩

end Submission

/-! ## Committing -/

/-- What becomes of a committed value. -/
inductive Outcome where
  | applied
  | rejected (e : MetadataError)
  | undecodable (e : TranslateError)
  deriving DecidableEq, Repr

/-- One committed value: a value that cannot be decoded or is not valid is passed over. -/
def commitValue (scan : Scan) (I : MetadataImage) (kr : KraftMetadataRecord) :
    MetadataImage × Outcome :=
  match fromKraft scan kr I with
  | .error e => (I, .undecodable e)
  | .ok rec =>
    match I.validate rec with
    | .error e => (I, .rejected e)
    | .ok _ => (I.apply rec, .applied)

def commitValues (scan : Scan) : MetadataImage → List KraftMetadataRecord →
    MetadataImage × List Outcome
  | I, [] => (I, [])
  | I, kr :: krs =>
    let next := commitValue scan I kr
    let rest := commitValues scan next.1 krs
    (rest.1, next.2 :: rest.2)

lemma commitValues_append (scan : Scan) (I : MetadataImage) (as bs : List KraftMetadataRecord) :
    commitValues scan I (as ++ bs) =
      ((commitValues scan (commitValues scan I as).1 bs).1,
        (commitValues scan I as).2 ++ (commitValues scan (commitValues scan I as).1 bs).2) := by
  induction as generalizing I with
  | nil => rfl
  | cons a as ih => simp only [List.cons_append, commitValues, ih]

lemma commitValue_applied {scan : Scan} {I : MetadataImage} {kr : KraftMetadataRecord}
    {rec : MetadataRecord} (h : fromKraft scan kr I = .ok rec) (hacc : I.accepts rec) :
    commitValue scan I kr = (I.apply rec, .applied) := by
  simp only [commitValue, h]
  simp only [MetadataImage.accepts] at hacc
  split at hacc
  · rename_i hval
    rw [hval]
  · cases hacc

end Crabka.Metadata
