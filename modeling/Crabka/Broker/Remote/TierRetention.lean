import Crabka.Log.Retention

/-!
# Time retention of tiered segments

`local_retention_target` and `remote_retention_eviction_set` of `crates/broker/src/remote_log_manager.rs`. The exported
maximum of a segment that was opened without a scan is `-1`, so after a restart a segment with recent records is
selected (`restart_selects_recent`).
-/

namespace Crabka.Broker
open Found Crabka.Log Crabka.Log.RetainedLog List

/-- The values of a segment that are copied to the metadata of the tier, and its batches. -/
structure SegmentExport where
  baseOffset : ℤ
  lastOffset : ℤ
  maxTimestamp : ℤ
  size : ℕ
  batches : List Batch
  deriving DecidableEq

def tierableSegments (log : RetainedLog) : List SegmentExport :=
  let nextBases := (log.segments.drop 1 ++ [log.active]).map fun s => s.base
  (log.segments.zip nextBases).map fun (s, nextBase) =>
    { baseOffset := s.base
      lastOffset := nextBase - 1
      maxTimestamp := if s.maxTimestamp = -2 ^ 63 then -1 else s.maxTimestamp
      size := s.size
      batches := s.batches }

def saturatingSub (a b : ℤ) : ℤ := max (-2 ^ 63) (min (2 ^ 63 - 1) (a - b))

section time

-- Times, and how they are made from milliseconds.
variable {T : Type} [LinearOrder T] (fromMillis : ℤ → T) (timestamps : Batch → List ℤ) (retention : Option T) (now : ℤ)

def expired (timestamp : ℤ) : Bool := retention.any (· < fromMillis (saturatingSub now timestamp))

/-- The loop of both functions, with the bytes that are over the size limit. -/
def evictionWalk : ℤ → List SegmentExport → List SegmentExport
  | _, [] => []
  | reclaim, s :: rest =>
    if expired fromMillis retention now s.maxTimestamp || 0 < reclaim then
      s :: evictionWalk (if 0 < reclaim then max (reclaim - s.size) 0 else reclaim) rest
    else []

def toReclaim (segments : List SegmentExport) : Option ℕ → ℤ
  | none => 0
  | some budget => max ((segments.map (·.size)).sum - budget) 0

/-- The segments up to the target of `local_retention_target`. -/
def localSelection (exports : List SegmentExport) (finishedBases : List ℤ) (size : Option ℕ) : List SegmentExport :=
  evictionWalk fromMillis retention now (toReclaim exports size) (exports.takeWhile (·.baseOffset ∈ finishedBases))

def localRetentionTarget (exports : List SegmentExport) (finishedBases : List ℤ) (size : Option ℕ) : Option ℤ :=
  (localSelection fromMillis retention now exports finishedBases size).getLast?.map (·.lastOffset + 1)

def remoteRetentionEvictionSet (finished : List SegmentExport) (size : Option ℕ) : List SegmentExport :=
  evictionWalk fromMillis retention now (toReclaim finished size) finished

namespace SegmentExport

/-- No record is later than the exported maximum. -/
def Known (s : SegmentExport) : Prop := ∀ b ∈ s.batches, ∀ t ∈ timestamps b, t ≤ s.maxTimestamp

def Expired (s : SegmentExport) : Prop :=
  ∀ b ∈ s.batches, ∀ t ∈ timestamps b, expired fromMillis retention now t = true

instance (s : SegmentExport) : Decidable (s.Expired fromMillis timestamps retention now) :=
  inferInstanceAs (Decidable (∀ b ∈ _, ∀ t ∈ _, _))

end SegmentExport
variable {fromMillis retention now} {s : SegmentExport} {segments : List SegmentExport}

lemma evictionWalk_isPrefix (reclaim : ℤ) : evictionWalk fromMillis retention now reclaim segments <+: segments := by
  induction segments generalizing reclaim with
  | nil => exact prefix_rfl
  | cons s rest ih =>
    unfold evictionWalk
    split
    · exact (prefix_cons_inj s).mpr (ih _)
    · exact nil_prefix

lemma expired_of_mem_walk (hs : s ∈ evictionWalk fromMillis retention now 0 segments) :
    expired fromMillis retention now s.maxTimestamp = true := by
  induction segments with
  | nil => cases hs
  | cons s' rest ih =>
    unfold evictionWalk at hs
    split at hs
    · rename_i hold
      rcases mem_cons.mp hs with rfl | hs
      · simpa using hold
      · exact ih (by simpa using hs)
    · cases hs

lemma SegmentExport.Known.expired (hmono : Monotone fromMillis) (hk : s.Known timestamps)
    (hs : s ∈ evictionWalk fromMillis retention now 0 segments) : s.Expired fromMillis timestamps retention now := by
  intro b hb t ht
  have hle : saturatingSub now s.maxTimestamp ≤ saturatingSub now t := by
    have := hk b hb t ht
    unfold saturatingSub
    omega
  have hold := expired_of_mem_walk hs
  unfold Broker.expired at hold ⊢
  cases retention with
  | none => cases hold
  | some r => exact decide_eq_true ((of_decide_eq_true hold).trans_le (hmono hle))

end time

def live : RetentionStep → Bool
  | .append _ | .roll => true
  | .reopen _ => false

/-- The maxima of a log that was not restarted are those of its batches. -/
def Tracks (log : RetainedLog) : Prop :=
  ∀ s ∈ log.segments ++ [log.active], ∀ b ∈ s.batches, b.maxTimestamp ≤ s.maxTimestamp

/-- Without a restart the cached maxima stay above the timestamps. -/
lemma Tracks.next {log : RetainedLog} (h : Tracks log) {l : RetentionStep} (hl : live l) :
    Tracks (retentionSys.next log l) := by
  cases l with
  | append b =>
    intro s hs c hc
    rcases mem_snoc.mp hs with hs | rfl
    · exact h s (mem_append_left _ hs) c hc
    · rcases mem_snoc.mp hc with hc | rfl
      · exact (h _ mem_append_cons_self c hc).trans (le_max_left _ _)
      · exact le_max_right _ _
  | roll =>
    simp only [retentionSys, RetainedLog.roll]
    split
    · exact h
    · intro s hs b hb
      rcases mem_snoc.mp hs with hs | rfl
      · exact h s hs b hb
      · cases hb
  | reopen scanStart => cases hl

lemma Tracks.known {log : RetainedLog} (h : Tracks log) {timestamps : Batch → List ℤ}
    (htimes : ∀ b, ∀ t ∈ timestamps b, t ≤ b.maxTimestamp) : ∀ s ∈ tierableSegments log, s.Known timestamps := by
  intro s hs b hb t ht
  obtain ⟨⟨cached, nextBase⟩, hmem, rfl⟩ := mem_map.mp hs
  have hle := h cached (mem_append_left _ (of_mem_zip hmem).1) b hb
  have := htimes b t ht
  dsimp only
  split_ifs <;> omega

/-- **Only expired segments are selected** for their age, a prefix of those in the tier, or of the local ones that are
finished; as far as no record is later than the exported maximum of its segment. That holds in a log that was not
restarted, if the batch headers have the maxima of their records. -/
theorem selected_expired {T : Type} [LinearOrder T] {fromMillis : ℤ → T} (hmono : Monotone fromMillis)
    (timestamps : Batch → List ℤ) (retention : Option T) (now : ℤ) (segments : List SegmentExport)
    (finishedBases : List ℤ) :
    (localSelection fromMillis retention now segments finishedBases none <+: segments ∧
      ∀ s ∈ localSelection fromMillis retention now segments finishedBases none, s.baseOffset ∈ finishedBases ∧
        (s.Known timestamps → s.Expired fromMillis timestamps retention now)) ∧
    (remoteRetentionEvictionSet fromMillis retention now segments none <+: segments ∧
      ∀ s ∈ remoteRetentionEvictionSet fromMillis retention now segments none,
        s.Known timestamps → s.Expired fromMillis timestamps retention now) ∧
    ∀ log, retentionSys.Run (fun _ l => live l = true) {} log → (∀ b, ∀ t ∈ timestamps b, t ≤ b.maxTimestamp) →
      ∀ s ∈ tierableSegments log, s.Known timestamps := by
  refine ⟨⟨(evictionWalk_isPrefix _).trans ( takeWhile_prefix _), fun s hs => ⟨?_, fun hk => hk.expired _ hmono hs⟩⟩,
    ⟨evictionWalk_isPrefix _, fun s hs hk => hk.expired _ hmono hs⟩, fun log hrun htimes => ?_⟩
  · simpa using mem_takeWhile_imp ((evictionWalk_isPrefix _).subset hs)
  · exact Tracks.known (hrun.preserves (fun _ _ h _ hl => h.next hl) (by simp [Tracks])) htimes

def old : SegmentExport := ⟨0, 0, 500, 1, [{ size := 1, maxTimestamp := 500 }]⟩

theorem selected_expired_old : remoteRetentionEvictionSet id (some 10) 1000 [old] none = [old] ∧
    old.Expired id (fun b => [b.maxTimestamp]) (some 10) 1000 :=
  ⟨by decide, (selected_expired monotone_id _ _ 1000 [old] []).2.1.2 old (by decide) (by simp [SegmentExport.Known, old])⟩

/-- The record is of the same millisecond, but the log was restarted. -/
theorem restart_selects_recent :
    let exports := tierableSegments restarted
    retentionSys.AnyRun {} restarted ∧ localRetentionTarget id (some 10) 1000 exports [0] none = some 1 ∧
      remoteRetentionEvictionSet id (some 10) 1000 exports none = exports ∧
      ∀ s ∈ exports, ¬s.Expired id (fun b => [b.maxTimestamp]) (some 10) 1000 :=
  ⟨run_restarted, by decide +kernel⟩

end Crabka.Broker
