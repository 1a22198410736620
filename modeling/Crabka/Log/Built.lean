import Crabka.Log.Reopen

/-!
# Logs built from batches

The log that appends make of a list of batches (`build`): a longer list gives the same segments up to the active one,
which only gets longer, and new ones after it (`Extends`). What is not on disk only (`core`) is a function of the
batches.
-/

namespace Crabka.Log
open Found List
open Std (ExtTreeMap)
open PartitionLog
namespace PartitionLog
variable {cfg : LogConfig} {log log' : PartitionLog} {b : Batch} {pre post : List Batch} {o : ℤ}

/-! ## One append -/

section append
variable (cfg log b)

lemma batches_rollIfFull : (log.rollIfFull cfg).batches = log.batches := by
  unfold rollIfFull
  split
  · exact batches_roll log
  · rfl

lemma logEndOffset_rollIfFull : (log.rollIfFull cfg).logEndOffset = log.logEndOffset := by
  unfold rollIfFull
  split
  · exact logEndOffset_roll log
  · rfl

lemma tracked_rollIfFull : (log.rollIfFull cfg).tracked = log.tracked := by
  unfold rollIfFull
  split <;> rfl

lemma epochCheckpoint_rollIfFull : (log.rollIfFull cfg).epochCheckpoint = log.epochCheckpoint := by
  unfold rollIfFull
  split <;> rfl

lemma batches_append : (log.append cfg b).batches = log.batches ++ [b.atBase log.logEndOffset] := by
  rw [append, batches_write, batches_rollIfFull, logEndOffset_rollIfFull]

lemma logEndOffset_lt_append : log.logEndOffset < (log.append cfg b).logEndOffset := by
  rw [append, logEndOffset_write, logEndOffset_rollIfFull]
  have := (b.atBase log.logEndOffset).base_le_last
  have hbase : (b.atBase log.logEndOffset).baseOffset = log.logEndOffset := rfl
  omega

lemma tracked_append : (log.append cfg b).tracked = log.tracked.note (b.atBase log.logEndOffset) := by
  show (log.rollIfFull cfg).tracked.note (b.atBase (log.rollIfFull cfg).logEndOffset) = _
  rw [tracked_rollIfFull, logEndOffset_rollIfFull]

lemma epochCheckpoint_append : (log.append cfg b).epochCheckpoint =
    log.epochCheckpoint.noteEpoch b.leaderEpoch log.logEndOffset := by
  show (log.rollIfFull cfg).epochCheckpoint.noteEpoch b.leaderEpoch (log.rollIfFull cfg).logEndOffset = _
  rw [epochCheckpoint_rollIfFull, logEndOffset_rollIfFull]

lemma active_batches_append_ne_nil : (log.append cfg b).active.batches ≠ [] := by
  simp [append, write]

end append

lemma Layout.append (h : log.Layout) (cfg : LogConfig) (b : Batch) : (log.append cfg b).Layout := by
  unfold PartitionLog.append rollIfFull
  split
  · exact h.roll.write rfl _
  · exact h.write rfl _

/-! ## What is not on disk only -/

def core (log : PartitionLog) : PartitionLog := { log with snapshots := ∅ }

lemma core_append (cfg : LogConfig) (log : PartitionLog) (b : Batch) :
    (log.core.append cfg b).core = (log.append cfg b).core := by
  unfold append rollIfFull
  by_cases hfull : cfg.segmentSize ≤ log.active.size
  · rw [if_pos hfull, if_pos (show cfg.segmentSize ≤ log.core.active.size from hfull)]
    rfl
  · rw [if_neg hfull, if_neg (show ¬ cfg.segmentSize ≤ log.core.active.size from hfull)]
    rfl

lemma core_append_congr (h : log.core = log'.core) (b : Batch) :
    (log.append cfg b).core = (log'.append cfg b).core := by
  rw [← core_append, h, core_append]

def appends (cfg : LogConfig) (log : PartitionLog) (bs : List Batch) : PartitionLog :=
  bs.foldl (fun log b => log.append cfg b) log

lemma core_appends_congr (h : log.core = log'.core) (bs : List Batch) :
    (log.appends cfg bs).core = (log'.appends cfg bs).core := by
  induction bs generalizing log log' with
  | nil => exact h
  | cons b bs ih => exact ih (core_append_congr h b)

def build (cfg : LogConfig) (bs : List Batch) : PartitionLog := ({} : PartitionLog).appends cfg bs

lemma build_append (cfg : LogConfig) (pre post : List Batch) :
    build cfg (pre ++ post) = (build cfg pre).appends cfg post := foldl_append

lemma build_snoc (cfg : LogConfig) (bs : List Batch) (b : Batch) :
    build cfg (bs ++ [b]) = (build cfg bs).append cfg b := build_append cfg bs [b]

def epochsOf (bs : List Batch) : LeaderEpochCheckpoint :=
  bs.foldl (fun c b => c.noteEpoch b.leaderEpoch b.baseOffset) []

lemma layout_build (cfg : LogConfig) (bs : List Batch) : (build cfg bs).Layout := by
  induction bs using List.reverseRecOn with
  | nil => exact ⟨rfl, trivial, trivial⟩
  | append_singleton bs b ih =>
    rw [build_snoc]
    exact ih.append cfg b

lemma atBase_eq {base : ℤ} (h : b.baseOffset = base) : b.atBase base = b := by
  subst h
  rfl

variable {bs : List Batch}
variable (cfg : LogConfig)
section
variable (h : Laid 0 bs)
include h

/-- **What is built from batches** holds them, and the bookkeeping of them. -/
theorem build_spec :
    (build cfg bs).batches = bs ∧ (build cfg bs).tracked = trackOf bs ∧
      (build cfg bs).epochCheckpoint = epochsOf bs := by
  induction bs using List.reverseRecOn with
  | nil => exact ⟨rfl, rfl, rfl⟩
  | append_singleton bs b ih =>
    obtain ⟨hbs, hb, -⟩ := laid_append.mp h
    obtain ⟨hbatches, htracked, hepochs⟩ := ih hbs
    have hend : (build cfg bs).logEndOffset = b.baseOffset := by
      rw [(layout_build cfg bs).logEndOffset_eq, hbatches, hb]
    rw [build_snoc, batches_append, tracked_append, epochCheckpoint_append, hend, atBase_eq rfl,
      hbatches, htracked, hepochs, trackOf_snoc, epochsOf, epochsOf, foldl_append]
    exact ⟨rfl, rfl, rfl⟩

lemma batches_build : (build cfg bs).batches = bs := (build_spec cfg h).1

lemma tracked_build : (build cfg bs).tracked = trackOf bs := (build_spec cfg h).2.1

lemma epochCheckpoint_build : (build cfg bs).epochCheckpoint = epochsOf bs := (build_spec cfg h).2.2

lemma logEndOffset_build : (build cfg bs).logEndOffset = endOf 0 bs := by
  rw [(layout_build cfg bs).logEndOffset_eq, batches_build cfg h]

end

lemma active_base_build_lt (hne : bs ≠ []) : (build cfg bs).active.base < (build cfg bs).logEndOffset := by
  obtain ⟨init, b, rfl⟩ := eq_nil_or_concat' bs |>.resolve_left hne
  have hlayout := layout_build cfg (init ++ [b])
  have hactive : (build cfg (init ++ [b])).active.batches ≠ [] := by
    rw [build_snoc]
    exact active_batches_append_ne_nil _ _ _
  obtain ⟨x, hx⟩ := exists_mem_of_ne_nil _ hactive
  have hge := hlayout.active_laid.start_le_base x hx
  have hlt := hlayout.active_laid.last_lt_endOf x hx
  rw [← logEndOffset_active] at hlt
  exact (hge.trans x.base_le_last).trans_lt hlt

/-! ## Growth -/

/-- A segment with batches and transactions from an offset on added. -/
structure SegmentGrows (o : ℤ) (seg seg' : Segment) : Prop where
  base : seg'.base = seg.base
  batches : ∃ added, seg'.batches = seg.batches ++ added ∧ ∀ b ∈ added, o ≤ b.baseOffset
  txnIndex : ∃ added, seg'.txnIndex = seg.txnIndex ++ added ∧ ∀ e ∈ added, o ≤ e.lastOffset

/-- The segments of a log that grew from an offset on: the active one got longer, and there are new
ones after it. -/
def Extends (o : ℤ) (log : PartitionLog) (segs : List Segment) : Prop :=
  ∃ seg rest, segs = log.segments ++ seg :: rest ∧ SegmentGrows o log.active seg ∧ ∀ s ∈ rest, o ≤ s.base

lemma extends_refl (o : ℤ) (log : PartitionLog) : Extends o log (log.segments ++ [log.active]) :=
  ⟨log.active, [], rfl, ⟨rfl, ⟨[], (append_nil _).symm, by simp⟩, ⟨[], (append_nil _).symm, by simp⟩⟩, by simp⟩

lemma lastOffset_abortedBy {e : AbortedTxn} (h : e ∈ log.abortedBy b) : e.lastOffset = b.lastOffset := by
  unfold abortedBy at h
  split at h
  · split at h
    · rw [mem_singleton.mp h]
    · cases h
  · cases h

lemma Extends.roll (h : Extends o log (log'.segments ++ [log'.active])) (ho : o ≤ log'.logEndOffset) :
    Extends o log (log'.roll.segments ++ [log'.roll.active]) := by
  obtain ⟨seg, rest, heq, hseg, hrest⟩ := h
  refine ⟨seg, rest ++ [log'.roll.active], ?_, hseg, fun s hs => ?_⟩
  · show (log'.segments ++ [log'.active]) ++ _ = _
    rw [heq, append_assoc]
    rfl
  · rcases mem_snoc.mp hs with hin | hin
    · exact hrest s hin
    · rwa [hin]

lemma SegmentGrows.write {seg : Segment} (h : SegmentGrows o seg log.active)
    (ho : o ≤ b.baseOffset) (t : Tracked) : SegmentGrows o seg (log.write b t).active := by
  obtain ⟨hbase, ⟨bs, hbs, hbs'⟩, es, hes, hes'⟩ := h
  refine ⟨hbase, ⟨bs ++ [b], ?_, fun x hx => ?_⟩, es ++ log.abortedBy b, ?_, fun e he => ?_⟩
  · show log.active.batches ++ [b] = _
    rw [hbs, append_assoc]
  · rcases mem_snoc.mp hx with hin | hin
    · exact hbs' x hin
    · exact hin ▸ ho
  · show log.active.txnIndex ++ log.abortedBy b = _
    rw [hes, append_assoc]
  · rcases mem_append.mp he with hin | hin
    · exact hes' e hin
    · rw [lastOffset_abortedBy hin]
      exact ho.trans b.base_le_last

section
variable (h : Extends o log (log'.segments ++ [log'.active]))
include h

lemma Extends.write (ho : o ≤ b.baseOffset)
    (t : Tracked) : Extends o log ((log'.write b t).segments ++ [(log'.write b t).active]) := by
  obtain ⟨seg, rest, heq, hseg, hrest⟩ := h
  rcases eq_nil_or_concat' rest with rfl | ⟨init, last, rfl⟩
  · obtain ⟨hsegs, hactive⟩ := append_inj' heq rfl
    cases hactive
    refine ⟨(log'.write b t).active, [], ?_, hseg.write ho t, hrest⟩
    show log'.segments ++ _ = _
    rw [hsegs]
  · rw [← cons_append, ← append_assoc] at heq
    obtain ⟨hsegs, hactive⟩ := append_inj' heq rfl
    cases hactive
    refine ⟨seg, init ++ [(log'.write b t).active], ?_, hseg, fun s hs => ?_⟩
    · show log'.segments ++ _ = _
      rw [hsegs, append_assoc]
      rfl
    · rcases mem_snoc.mp hs with hin | hin
      · exact hrest s (mem_append_left _ hin)
      · rw [hin]
        exact hrest log'.active mem_append_cons_self

lemma Extends.append (ho : o ≤ log'.logEndOffset) (cfg : LogConfig) (b : Batch) :
    Extends o log ((log'.append cfg b).segments ++ [(log'.append cfg b).active]) := by
  unfold PartitionLog.append rollIfFull
  split
  · exact (h.roll ho).write (b := b.atBase log'.roll.logEndOffset)
      (ho.trans (logEndOffset_roll log').ge) _
  · exact h.write (b := b.atBase log'.logEndOffset) ho _

lemma Extends.appends (ho : o ≤ log'.logEndOffset) (cfg : LogConfig) (bs : List Batch) :
    Extends o log ((log'.appends cfg bs).segments ++ [(log'.appends cfg bs).active]) := by
  induction bs generalizing log' with
  | nil => exact h
  | cons b bs ih => exact ih (h.append ho cfg b) (ho.trans (logEndOffset_lt_append cfg log' b).le)

end
end PartitionLog
end Crabka.Log
