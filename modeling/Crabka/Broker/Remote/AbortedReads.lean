import Crabka.Log.AbortedIndex

/-!
# The aborted transactions of a remote read

`aborted_transactions` of `crates/broker/src/remote_reader.rs`, as `try_remote_read` calls it. It reads the transaction
index of the segment that holds the fetch offset, and an abort is recorded in the segment that holds the marker.
Segments are looked up in the index by leader epoch of `crates/remote-storage/src/cache.rs`; `fetch_batch` falls back on
the list of all segments, `aborted_transactions` does not. `remote_aborts_complete_iff` says when the list is complete.
-/

namespace Crabka.Broker
open Found Crabka.Log List
open Crabka.Log.PartitionLog hiding sys append appendVerbatim roll segments batches abortedInRange

/-- A finished segment of the tier, with its `segment_leader_epochs`. -/
structure TierSegment extends Segment where
  leaderEpochs : List (ℤ × ℤ)
  deriving DecidableEq

/-- The local log and the segments that were copied to the tier. -/
structure TieredLog where
  log : PartitionLog := {}
  remote : List TierSegment := []
  deriving DecidableEq

/-- Appends on both paths, rolls, and copies of the sealed segments. -/
inductive TierStep where
  | append (b : Batch)
  | appendVerbatim (b : Batch)
  | roll
  /-- A copy pass over `tierable_segments` by the leader of an epoch, with its sorted epoch checkpoint. -/
  | copySealed (checkpoint : List (ℤ × ℤ)) (leaderEpoch : ℤ)
  deriving DecidableEq

/-- `epochs_for_range`. -/
def epochsForRange (base last : ℤ) : List (ℤ × ℤ) → List (ℤ × ℤ)
  | [] => []
  | e :: rest =>
    (if e.2 ≤ last ∧ rest.head?.all (base < ·.2) then [(e.1, max e.2 base)] else []) ++ epochsForRange base last rest

/-- The metadata that `copy_one` stores. -/
def copyOne (checkpoint : List (ℤ × ℤ)) (leaderEpoch : ℤ) (s : Segment) : TierSegment where
  toSegment := s
  leaderEpochs := match epochsForRange s.base s.lastOffset checkpoint with
    | [] => [(max leaderEpoch 0, s.base)]
    | epochs => epochs

/-- `max_by_key`: the last one with the largest key. -/
def maxByKey {β : Type} (key : β → ℤ) (l : List β) : Option β :=
  l.foldl (fun best x => if best.all fun b => key b ≤ key x then some x else best) none

lemma mem_of_maxByKey {β : Type} {key : β → ℤ} {l : List β} : ∀ x ∈ maxByKey key l, x ∈ l := by
  refine foldlRecOn (motive := fun best : Option β => ∀ x ∈ best, x ∈ l) l _ (by simp) fun best h y hy x hx => ?_
  split_ifs at hx
  · exact Option.some.inj hx ▸ hy
  · exact h x hx

namespace TieredLog
variable (t : TieredLog) (epoch o : ℤ)

def tierSys (cfg : LogConfig) : Sys TieredLog TierStep where
  enabled _
    | .appendVerbatim b => b.control = none
    | .append _ | .roll | .copySealed .. => True
  next t
    | .append b => { t with log := t.log.append cfg b }
    | .appendVerbatim b => { t with log := t.log.appendVerbatim cfg b }
    | .roll => { t with log := t.log.roll }
    | .copySealed checkpoint leaderEpoch =>
      let fresh := t.log.segments.filter fun s => s.base ∉ t.remote.map (·.base)
      { t with remote := t.remote ++ fresh.map (copyOne checkpoint leaderEpoch) }

instance (cfg : LogConfig) (l : TierStep) : Decidable ((tierSys cfg).enabled t l) := by
  cases l <;> unfold tierSys <;> infer_instance

/-- `remote_log_segment_metadata`: the segment that starts the epoch last at or before the offset. -/
def remoteLogSegmentMetadata : Option TierSegment :=
  let starts := t.remote.flatMap fun s => (s.leaderEpochs.filter fun e => e.1 = epoch ∧ e.2 ≤ o).map fun e => (e.2, s)
  ((maxByKey Prod.fst starts).map Prod.snd).filter fun s => o ≤ s.lastOffset

/-- The metadata in `fetch_batch`: if the lookup misses, a covering segment, of the epoch if there is one. -/
def segmentFor : Option TierSegment :=
  let covering := t.remote.filter fun s => s.base ≤ o ∧ o ≤ s.lastOffset
  t.remoteLogSegmentMetadata epoch o <|>
    maxByKey (·.base) (covering.filter fun s => epoch ∈ s.leaderEpochs.map Prod.fst) <|> maxByKey (·.base) covering

/-- `fetch_batch`, with `first_batch_at_or_after`. -/
def batchAt : Option Batch := (t.segmentFor epoch o).bind fun s => s.batches.find? (o ≤ ·.lastOffset)

def abortedTransactions (toOffset : ℤ) : List AbortedTxn := match t.remoteLogSegmentMetadata epoch o with
  | none => []
  | some s => s.txnIndex.abortedInRange o (toOffset + 1)

def HasBatch (h : List Batch) (e : AbortedTxn) (b : Batch) : Prop :=
  ∃ m ∈ h, m.lastOffset = e.lastOffset ∧ Ends h b m

instance (h : List Batch) (e : AbortedTxn) (b : Batch) : Decidable (HasBatch h e b) :=
  inferInstanceAs (Decidable (∃ m ∈ h, _))

/-- Each sealed segment has an index of the aborted transactions whose marker it holds. -/
structure SealedIndexed (log : PartitionLog) : Prop extends Indexed log where
  sealed : ∀ s ∈ log.segments, ∀ e,
    e ∈ s.txnIndex ↔ IsAborted log.batches e ∧ s.base ≤ e.lastOffset ∧ e.lastOffset ≤ s.lastOffset

section steps
variable {cfg : LogConfig} {log : PartitionLog} (h : SealedIndexed log)
include h

lemma SealedIndexed.roll : SealedIndexed log.roll where
  toIndexed := h.toIndexed.roll
  sealed := fun s hs e => by
    rw [batches_roll]
    rcases mem_snoc.mp hs with hs | hs
    · exact h.sealed s hs e
    · rw [hs, h.index]
      refine ⟨fun he => ⟨he.1, he.2, ?_⟩, fun he => ⟨he.1, he.2.1⟩⟩
      have hlt := he.1.last_lt h.layout.laid
      rw [← h.layout.logEndOffset_eq, logEndOffset] at hlt
      omega

lemma SealedIndexed.write {b : Batch} (hb : b.baseOffset = log.logEndOffset) :
    SealedIndexed (log.write b (log.tracked.note b)) := by
  have hi := h.toIndexed.write hb
  refine { toIndexed := hi, sealed := fun s hs e => ?_ }
  have hbs := batches_write log b (log.tracked.note b)
  rw [hbs, isAborted_snoc (hbs ▸ hi.layout.laid) h.tracked, h.sealed s hs, or_and_right]
  refine ⟨Or.inl, fun he => he.resolve_right ?_⟩
  rintro ⟨he, -, hle⟩
  -- The new marker lies behind every sealed segment.
  have hlast := (mem_abortedBy.mp he).2.2.1
  have hlt := h.layout.lastOffset_lt s hs
  have hend := h.layout.active_laid.start_le_endOf
  rw [← logEndOffset_active] at hend
  have := b.base_le_last
  omega

lemma SealedIndexed.append (b : Batch) : SealedIndexed (log.append cfg b) := by
  unfold PartitionLog.append rollIfFull
  split
  · exact h.roll.write rfl
  · exact h.write rfl

end steps
variable {cfg : LogConfig} {t epoch o}

lemma segments_subset_append (log : PartitionLog) (b : Batch) : log.segments ⊆ (log.append cfg b).segments := by
  unfold PartitionLog.append rollIfFull
  split
  · exact subset_append_left _ _
  · exact Subset.refl _

lemma base_le_epochsForRange {base last : ℤ} {l : List (ℤ × ℤ)} : ∀ e ∈ epochsForRange base last l, base ≤ e.2 := by
  induction l with
  | nil => nofun
  | cons e' l ih =>
    intro e he
    rcases mem_append.mp he with he | he
    · split_ifs at he
      · obtain rfl := mem_singleton.mp he
        exact le_max_right _ _
      · cases he
    · exact ih e he

lemma base_le_copyOne {checkpoint : List (ℤ × ℤ)} {leaderEpoch : ℤ} {s : Segment} :
    ∀ e ∈ (copyOne checkpoint leaderEpoch s).leaderEpochs, s.base ≤ e.2 := by
  intro e he
  unfold copyOne at he
  dsimp only at he
  split at he
  · obtain rfl := mem_singleton.mp he
    exact le_rfl
  · exact base_le_epochsForRange e he

/-- What is in the tier was copied from the log, where sealed segments stay as they are. -/
structure Inv (t : TieredLog) : Prop where
  indexed : SealedIndexed t.log
  remote : ∀ s ∈ t.remote, s.toSegment ∈ t.log.segments ∧ ∀ e ∈ s.leaderEpochs, s.base ≤ e.2

lemma Inv.mono (h : t.Inv) {log : PartitionLog} (hlog : SealedIndexed log) (hsub : t.log.segments ⊆ log.segments) :
    Inv { t with log } :=
  ⟨hlog, fun s hs => ⟨hsub (h.remote s hs).1, (h.remote s hs).2⟩⟩

lemma Inv.next (h : t.Inv) {l : TierStep} (hl : (tierSys cfg).enabled t l) : ((tierSys cfg).next t l).Inv := by
  cases l with
  | append b => exact h.mono (h.indexed.append b) (segments_subset_append _ b)
  | appendVerbatim b =>
    have heq : t.log.appendVerbatim cfg b = t.log.append cfg b := appendVerbatim_eq_append hl
    simp only [tierSys, heq]
    exact h.mono (h.indexed.append b) (segments_subset_append _ b)
  | roll => exact h.mono h.indexed.roll (subset_append_left _ _)
  | copySealed checkpoint leaderEpoch =>
    refine ⟨h.indexed, forall_mem_append.mpr ⟨h.remote, forall_mem_map.mpr fun s hs => ?_⟩⟩
    exact ⟨filter_subset_self _ hs, base_le_copyOne⟩

lemma Inv.metadata (h : t.Inv) {s : TierSegment} (hs : t.remoteLogSegmentMetadata epoch o = some s) :
    s ∈ t.remote ∧ s.base ≤ o ∧ o ≤ s.lastOffset := by
  obtain ⟨hs, hle⟩ := Option.filter_eq_some_iff.mp hs
  obtain ⟨⟨start, s'⟩, harg, rfl⟩ := Option.map_eq_some_iff.mp hs
  obtain ⟨s, hmem, hin⟩ := mem_flatMap.mp (mem_of_maxByKey _ harg)
  obtain ⟨e, he, heq⟩ := mem_map.mp hin
  cases heq
  have hbase := (h.remote _ hmem).2 e (mem_of_mem_filter he)
  have hstart := (of_decide_eq_true (mem_filter.mp he).2).2
  exact ⟨hmem, hbase.trans hstart, of_decide_eq_true hle⟩

/-- **Aborted transactions of a remote read.** In every state of every run, for every offset and leader epoch: only
aborted transactions are listed, and those of the served batch all are exactly if their markers lie in its segment and
the segment is found under the epoch. -/
theorem remote_aborts_complete_iff (hrun : (tierSys cfg).AnyRun {} t) {s : TierSegment}
    (hs : t.segmentFor epoch o = some s) {b : Batch} (hb : t.batchAt epoch o = some b) :
    (∀ e ∈ t.abortedTransactions epoch o b.lastOffset, IsAborted t.log.batches e) ∧
      ((∀ e, IsAborted t.log.batches e → HasBatch t.log.batches e b →
          e ∈ t.abortedTransactions epoch o b.lastOffset) ↔
        ∀ e, IsAborted t.log.batches e → HasBatch t.log.batches e b →
          e.lastOffset ≤ s.lastOffset ∧ (t.remoteLogSegmentMetadata epoch o).isSome) := by
  have hempty : SealedIndexed {} := { toIndexed := indexed_empty, sealed := by simp }
  have hinv : t.Inv := hrun.preserves (fun _ _ h hl _ => h.next hl) ⟨hempty, by simp⟩
  cases hmeta : t.remoteLogSegmentMetadata epoch o with
  | none => simp [abortedTransactions, hmeta]
  | some s' =>
    obtain rfl : s' = s := Option.some.inj (by rw [← hs, segmentFor, hmeta]; rfl)
    obtain ⟨hmem, hin⟩ := hinv.metadata hmeta
    have hi := hinv.indexed
    have hindex := hi.sealed _ (hinv.remote _ hmem).1
    have hlisted : ∀ e, e ∈ t.abortedTransactions epoch o b.lastOffset ↔
        e ∈ s'.txnIndex ∧ e.startOffset < b.lastOffset + 1 ∧ o ≤ e.lastOffset := by
      simp [abortedTransactions, hmeta, TxnIndex.abortedInRange]
    have hlast : o ≤ b.lastOffset := by
      rw [batchAt, hs] at hb
      simpa using find?_some hb
    refine ⟨fun e he => ((hindex e).mp ((hlisted e).mp he).1).1, forall₃_congr fun e he hbatch => ?_⟩
    obtain ⟨m, hm, hend, hends⟩ := hbatch
    have hoverlaps := overlaps_of_hasDataIn hi.layout.laid he
      ⟨m, hm, hend, b, hends.data, hends, hlast, Int.lt_add_one_of_le b.base_le_last⟩
    rw [hlisted, hindex]
    exact ⟨fun h => ⟨h.1.2.2, rfl⟩, fun h => ⟨⟨he, hin.1.trans hoverlaps.2, h.1⟩, hoverlaps⟩⟩

/-- The marker in the segment of its transaction, or in the next one; both segments are copied in epoch 3. -/
def abortOf (sameSegment : Bool) : List TierStep :=
  [.append (txnBatch 1)] ++ (if sameSegment then [] else [.append (txnBatch 2)]) ++
    [.append (marker 1 0), .roll, .copySealed [] 3]

/-- The marker lies in the segment of the batch. -/
theorem remote_aborts_complete_sameSegment :
    let t := (tierSys smallSegments).execs {} (abortOf true)
    t.abortedTransactions 3 0 0 = [⟨0, 1, 1⟩] ∧ ∀ e ∈ t.abortedTransactions 3 0 0, IsAborted t.log.batches e :=
  ⟨by decide +kernel, (remote_aborts_complete_iff (b := txnBatch 1) Sys.run_of_runs
    (Option.some_get (by decide +kernel)).symm (by decide +kernel)).1⟩

/-- The marker lies in the next segment, and the transaction is not listed. -/
theorem remote_aborts_forget :
    let t := (tierSys smallSegments).execs {} (abortOf false)
    (tierSys smallSegments).AnyRun {} t ∧ t.batchAt 3 0 = some (txnBatch 1) ∧ IsAborted t.log.batches ⟨0, 2, 1⟩ ∧
      HasBatch t.log.batches ⟨0, 2, 1⟩ (txnBatch 1) ∧ t.abortedTransactions 3 0 0 = [] :=
  ⟨Sys.run_of_runs, by decide +kernel⟩

end TieredLog
end Crabka.Broker
