import Crabka.Found.Runs
import Crabka.Log.PartitionLog

/-!
# Retention

A segment caches the largest timestamp appended to it. Opening a log forgets the maxima of the sealed segments and
rebuilds that of the active one from its last index entry on, so retention by time can remove recent records. It does
not while every record is covered by a maximum of its own segment or an older one (`tick_allowed_iff`).
-/

namespace Crabka.Log
open Found List

/-- A `Segment` with its `max_timestamp`, `i64::MIN` when there is none. -/
structure CachedSegment extends Segment where
  maxTimestamp : ℤ := -2 ^ 63

/-- A log as retention sees it: sealed segments with what is cached about them, and the active one. -/
structure RetainedLog where
  segments : List CachedSegment := []
  active : CachedSegment := { base := 0 }

structure RetentionConfig where
  retention : Option ℕ := none
  retentionSize : Option ℕ := none

namespace RetainedLog
variable (log : RetainedLog)

def logEndOffset : ℤ := log.active.lastOffset + 1

def append (b : Batch) : RetainedLog :=
  { log with active := { log.active with
      batches := log.active.batches ++ [b.atBase log.logEndOffset]
      maxTimestamp := max log.active.maxTimestamp b.maxTimestamp } }

/-- `roll_active_segment`, which fails for an empty segment: the file of the new one is there already. -/
def roll : RetainedLog :=
  if log.active.batches = [] then log
  else { segments := log.segments ++ [log.active], active := { base := log.logEndOffset } }

/-- `Log::open`: the tail of the active segment is scanned from its last index entry on, before which there
are `scanStart` batches. -/
def reopen (scanStart : ℕ) : RetainedLog where
  segments := log.segments.map fun s => { s with maxTimestamp := -2 ^ 63 }
  active := { log.active with
    maxTimestamp := ((log.active.batches.drop scanStart).map Batch.maxTimestamp).foldl max (-2 ^ 63) }

end RetainedLog

/-- The segments that `time_based_evict` names. -/
def timeEvicted (sealed : List CachedSegment) (cfg : RetentionConfig) (now : ℕ) : List CachedSegment :=
  match cfg.retention with
  | none => []
  | some retention => sealed.takeWhile fun s => s.maxTimestamp < now - retention

/-- The loop of `size_based_evict`. -/
def evictWhile : ℤ → List CachedSegment → List CachedSegment
  | _, [] => []
  | deletable, s :: rest => if deletable ≤ 0 then [] else s :: evictWhile (deletable - s.size) rest

def totalSize (sealed : List CachedSegment) (activeSize : ℕ) : ℕ :=
  activeSize + (sealed.map fun s => s.size).sum

/-- The segments that `size_based_evict` names. -/
def sizeEvicted (sealed : List CachedSegment) (activeSize : ℕ) (cfg : RetentionConfig) :
    List CachedSegment :=
  match cfg.retentionSize with
  | none => []
  | some budget => evictWhile (totalSize sealed activeSize - budget) sealed

namespace RetainedLog

/-- `Log::tick` without remote storage. The roll that it may begin with is a step of its own. -/
def tick (log : RetainedLog) (cfg : RetentionConfig) (now : ℕ) : RetainedLog :=
  let timed := (timeEvicted log.segments cfg now).map fun s => s.base
  let sized := (sizeEvicted log.segments log.active.size cfg).map fun s => s.base
  let toEvict := timed ++ sized.filter (· ∉ timed)
  -- The guard keeps one segment of all, the active one included.
  let toEvict := if log.segments.length + 1 ≤ toEvict.length then toEvict.take log.segments.length
    else toEvict
  { log with segments := log.segments.filter (·.base ∉ toEvict) }

/-- A tick removes sealed segments from the oldest on, each because its records are old or because the log is too
large from it on. -/
def TickAllowed (timestamps : Batch → List ℤ) (log : RetainedLog) (cfg : RetentionConfig) (now : ℕ) : Prop :=
  ∃ removed kept, log.segments = removed ++ kept ∧ log.tick cfg now = { log with segments := kept } ∧
    ∀ older s newer, removed = older ++ s :: newer →
      (∃ retention, cfg.retention = some retention ∧ ∀ b ∈ s.batches, ∀ t ∈ timestamps b, t < now - retention) ∨
      ∃ budget, cfg.retentionSize = some budget ∧ budget < totalSize (s :: newer ++ kept) log.active.size

/-- Every sealed record is covered by the maximum of its own segment or of an older one. -/
def Covered (timestamps : Batch → List ℤ) (log : RetainedLog) : Prop :=
  ∀ older s newer, log.segments = older ++ s :: newer →
    ∀ b ∈ s.batches, ∀ t ∈ timestamps b, ∃ s' ∈ older ++ [s], t ≤ s'.maxTimestamp

/-- Appends, rolls and restarts. -/
inductive RetentionStep where
  | append (b : Batch)
  | roll
  | reopen (scanStart : ℕ)

/-- The last index entry is that of a batch. -/
def retentionSys : Sys RetainedLog RetentionStep where
  enabled log
    | .reopen scanStart => scanStart ≤ log.active.batches.length - 1
    | _ => True
  next log
    | .append b => log.append b
    | .roll => log.roll
    | .reopen scanStart => log.reopen scanStart

/-! ## The segments that are removed -/

lemma append_filter_notMem {A B : List ℤ} (h : A <+: B) (hB : B.Nodup) : A ++ B.filter (· ∉ A) = B := by
  obtain ⟨C, rfl⟩ := h
  have hC := (nodup_append.mp hB).2.2
  rw [filter_append, filter_eq_nil_iff.mpr (by simp), filter_eq_self.mpr]
  · rfl
  · exact fun c hc => decide_eq_true fun hcA => hC c hcA c hc rfl

lemma evictWhile_prefix (d : ℤ) (l : List CachedSegment) : evictWhile d l <+: l := by
  induction l generalizing d with
  | nil => exact prefix_rfl
  | cons s l ih =>
    unfold evictWhile
    split
    · exact nil_prefix
    · exact (prefix_cons_inj s).mpr (ih _)

lemma sum_lt_of_evictWhile {d : ℤ} {l older newer : List CachedSegment} {s : CachedSegment}
    (h : evictWhile d l = older ++ s :: newer) : ((older.map fun s => s.size).sum : ℕ) < d := by
  induction older generalizing d l with
  | nil =>
    cases l with
    | nil => cases h
    | cons s' l =>
      unfold evictWhile at h
      split at h
      · cases h
      · simpa using ‹¬d ≤ 0›
  | cons s' older ih =>
    cases l with
    | nil => cases h
    | cons s'' l =>
      unfold evictWhile at h
      split at h
      · cases h
      · obtain ⟨rfl, htail⟩ := List.cons.inj h
        have := ih htail
        rw [map_cons, sum_cons, Int.natCast_add]
        omega

variable {log : RetainedLog} (cfg : RetentionConfig) (now : ℕ)

lemma timeEvicted_prefix (sealed : List CachedSegment) : timeEvicted sealed cfg now <+: sealed := by
  unfold timeEvicted
  split
  · exact nil_prefix
  · exact takeWhile_prefix _

lemma sizeEvicted_prefix (sealed : List CachedSegment) (activeSize : ℕ) :
    sizeEvicted sealed activeSize cfg <+: sealed := by
  unfold sizeEvicted
  split
  · exact nil_prefix
  · exact evictWhile_prefix _ _

lemma tick_eq (h : (log.segments.map fun s => s.base).Nodup) :
    ∃ removed kept, log.segments = removed ++ kept ∧ log.tick cfg now = { log with segments := kept } ∧
      timeEvicted log.segments cfg now <+: removed ∧
      (removed = timeEvicted log.segments cfg now ∨ removed = sizeEvicted log.segments log.active.size cfg) := by
  have htime := timeEvicted_prefix cfg now log.segments
  have hsize := sizeEvicted_prefix cfg log.segments log.active.size
  unfold tick
  dsimp only
  generalize timeEvicted log.segments cfg now = timed at *
  generalize sizeEvicted log.segments log.active.size cfg = sized at *
  obtain ⟨removed, hremoved, hprefix, htimed, heq⟩ : ∃ removed, (timed.map (·.base) ++
      (sized.map (·.base)).filter (· ∉ timed.map (·.base))) = removed.map (·.base) ∧
      removed <+: log.segments ∧ timed <+: removed ∧ (removed = timed ∨ removed = sized) := by
    have hnodup := h.sublist (hsize.map _).sublist
    obtain hle | hle := prefix_or_prefix_of_prefix htime hsize
    · refine ⟨sized, ?_, hsize, hle, .inr rfl⟩
      exact append_filter_notMem (hle.map _) hnodup
    · refine ⟨timed, ?_, htime, prefix_rfl, .inl rfl⟩
      rw [filter_eq_nil_iff.mpr fun b hb => by simpa using (hle.map _).subset hb, append_nil]
  rw [hremoved]
  obtain ⟨kept, hkept⟩ := hprefix
  refine ⟨removed, kept, hkept.symm, ?_, htimed, heq⟩
  have hlen : ¬log.segments.length + 1 ≤ (removed.map (·.base)).length := by
    rw [← hkept, length_append, length_map]
    omega
  rw [if_neg hlen, ← hkept, filter_append, filter_eq_nil_iff.mpr, filter_eq_self.mpr]
  · rfl
  · rw [← hkept, map_append, nodup_append] at h
    exact fun s hs => decide_eq_true fun hmem => h.2.2 _ hmem _ (mem_map_of_mem hs) rfl
  · exact fun s hs => by simpa using ⟨s, hs, rfl⟩

/-! ## Runs -/

/-- The base offsets ascend, and that of a new segment is larger. -/
def Ascending (log : RetainedLog) : Prop :=
  ((log.segments ++ [log.active]).map fun s => s.base).Pairwise (· < ·) ∧
    (log.active.batches = [] ∨ log.active.base < log.logEndOffset)

/-- Every step keeps the segments in ascending order. -/
lemma Ascending.step (h : log.Ascending) (l : RetentionStep) : (retentionSys.next log l).Ascending := by
  have hpair := h.1
  rw [map_append, pairwise_append] at hpair
  cases l with
  | append b =>
    refine ⟨by simpa [retentionSys, append] using h.1, .inr ?_⟩
    have hle : log.active.base ≤ log.logEndOffset := by
      obtain hnil | hlt := h.2
      · simp [logEndOffset, Segment.lastOffset, hnil]
      · exact hlt.le
    simp only [retentionSys, append, logEndOffset, Segment.lastOffset, List.getLast?_concat, Batch.lastOffset,
      Batch.atBase]
    change log.active.base < log.logEndOffset + _ + 1
    omega
  | roll =>
    dsimp only [retentionSys, roll]
    split
    · exact h
    · rename_i hne
      have hlt := h.2.resolve_left hne
      refine ⟨?_, .inl rfl⟩
      rw [map_append, pairwise_append]
      refine ⟨h.1, pairwise_singleton _ _, ?_⟩
      simp only [map_append, mem_append, map_cons, map_nil, mem_singleton]
      rintro base (hbase | rfl) _ rfl
      · exact (hpair.2.2 base hbase _ mem_cons_self).trans hlt
      · exact hlt
  | reopen scanStart => exact ⟨by simpa [retentionSys, reopen, Function.comp_def] using h.1, h.2⟩

lemma nodup_of_run (hrun : retentionSys.AnyRun {} log) : (log.segments.map fun s => s.base).Nodup := by
  have h := hrun.preserves (P := Ascending) (fun _ l h _ _ => h.step l) ⟨pairwise_singleton _ _, .inl rfl⟩
  have hpair := h.1
  rw [map_append, pairwise_append] at hpair
  exact hpair.1.imp ne_of_lt

lemma logEndOffset_roll (log : RetainedLog) : log.roll.logEndOffset = log.logEndOffset := by
  unfold roll
  split
  · rfl
  · exact sub_add_cancel _ _

/-- In every log of every run: a roll does not move the log end, and the ticks remove what they may, for every
configuration and at every time, exactly when the maxima cover the records. -/
theorem tick_allowed_iff (timestamps : Batch → List ℤ) (hrun : retentionSys.AnyRun {} log) :
    log.roll.logEndOffset = log.logEndOffset ∧
      ((∀ cfg now, log.TickAllowed timestamps cfg now) ↔ log.Covered timestamps) := by
  have hnodup := nodup_of_run hrun
  refine ⟨logEndOffset_roll log, ?_, ?_⟩
  · intro hall older s newer hsplit b hb t ht
    -- A tick whose cutoff is the timestamp itself.
    by_contra hnot
    rw [append_cons] at hsplit
    obtain ⟨removed, kept, hsegs, htick, hwhy⟩ := hall { retention := some (-t).toNat } t.toNat
    obtain ⟨removed', kept', hsegs', htick', htimed, -⟩ :=
      tick_eq { retention := some (-t).toNat } t.toNat hnodup
    obtain rfl : kept' = kept := congrArg RetainedLog.segments (htick'.symm.trans htick)
    obtain rfl : removed' = removed := append_cancel_right (hsegs'.symm.trans hsegs)
    have hcut : (t.toNat : ℤ) - (-t).toNat = t := Int.toNat_sub_toNat_neg t
    have hold : older ++ [s] <+: removed' := by
      refine List.IsPrefix.trans ?_ htimed
      dsimp only [timeEvicted]
      rw [hcut, hsplit, takeWhile_append_of_pos]
      · exact prefix_append _ _
      · exact fun s' hs' => decide_eq_true (lt_of_not_ge fun hle => hnot ⟨s', hs', hle⟩)
    obtain ⟨newer', rfl⟩ := hold
    obtain ⟨_, hret, hlt⟩ | ⟨_, hsize, -⟩ := hwhy older s newer' (append_cons ..).symm
    · cases hret
      have := hlt b hb t ht
      omega
    · cases hsize
  · intro hcov cfg now
    obtain ⟨removed, kept, hsegs, htick, -, hwhich⟩ := tick_eq cfg now hnodup
    refine ⟨removed, kept, hsegs, htick, fun older s newer hremoved => ?_⟩
    subst hremoved
    rw [append_assoc, cons_append] at hsegs
    obtain heq | heq := hwhich
    · left
      unfold timeEvicted at heq
      split at heq
      · exact absurd heq (by simp)
      · rename_i retention hret
        refine ⟨retention, hret, fun b hb t ht => ?_⟩
        obtain ⟨s', hs', hle⟩ := hcov _ s _ hsegs b hb t ht
        have hmem : s' ∈ older ++ s :: newer := by
          rw [append_cons]
          exact mem_append_left _ hs'
        rw [heq] at hmem
        exact hle.trans_lt (by simpa using mem_takeWhile_imp hmem)
    · right
      unfold sizeEvicted at heq
      split at heq
      · exact absurd heq (by simp)
      · rename_i budget hbudget
        refine ⟨budget, hbudget, ?_⟩
        have hlt := sum_lt_of_evictWhile heq.symm
        rw [hsegs] at hlt
        unfold totalSize at hlt ⊢
        rw [map_append, sum_append] at hlt
        rw [cons_append]
        omega

/-- A log that was opened again after its first record was sealed. -/
def restarted : RetainedLog := (({} : RetainedLog).append { size := 1, maxTimestamp := 1000 }).roll.reopen 0

lemma run_restarted : retentionSys.AnyRun {} restarted := by
  have h : retentionSys.Runs {} [.append { size := 1, maxTimestamp := 1000 }, .roll, .reopen 0] :=
    ⟨trivial, trivial, Nat.zero_le _, trivial⟩
  exact Sys.run_of_runs h

theorem tick_allowed_iff_restarted : retentionSys.AnyRun {} restarted ∧
    ((∀ cfg now, restarted.TickAllowed (fun b => [b.maxTimestamp]) cfg now) ↔
      restarted.Covered fun b => [b.maxTimestamp]) :=
  ⟨run_restarted, (tick_allowed_iff _ run_restarted).2⟩

/-- The record is of the same millisecond, and is removed. -/
theorem tick_removes_recent : retentionSys.AnyRun {} restarted ∧
    ¬restarted.TickAllowed (fun b => [b.maxTimestamp]) { retention := some 10 } 1000 := by
  refine ⟨run_restarted, ?_⟩
  rintro ⟨removed, kept, hsegs, htick, hwhy⟩
  obtain rfl : [] = kept := (length_eq_zero_iff.mp (by decide +kernel)).symm.trans
    (congrArg RetainedLog.segments htick)
  rw [append_nil] at hsegs
  obtain ⟨_, hret, hlt⟩ | ⟨_, hsize, -⟩ := hwhy [] _ [] hsegs.symm
  · cases hret
    exact absurd (hlt _ mem_cons_self _ mem_cons_self) (by decide)
  · cases hsize

end RetainedLog
end Crabka.Log
