import Crabka.Log.RawRead

/-!
# Fetching a batch from the remote tier

`fetch_batch` of `crates/broker/src/remote_reader.rs`. The read starts at an entry of the sparse offset index and takes
`max_bytes` bytes, in which batches are decoded up to the first incomplete one; the budget is not raised when there is
none (`fetchBatch_stuck`).
-/

namespace Crabka.Broker
open Crabka.Log List

def u32Max : ℕ := 2 ^ 32 - 1

structure OffsetIndexEntry where
  relativeOffset : ℕ
  position : ℕ
  deriving DecidableEq

/-- The floor of a target among the sorted entries. -/
def positionForRelativeOffset (entries : List OffsetIndexEntry) (targetRel : ℕ) : ℕ :=
  ((entries.filter (·.relativeOffset ≤ targetRel)).getLast?.map (·.position)).getD 0

/-- The last byte to read, or `none` for the rest of the segment. -/
def endPositionFor (startPosition segmentSize maxBytes : ℕ) : Option ℕ :=
  if maxBytes = 0 then none
  else
    let exclusiveEnd := min (startPosition + min maxBytes u32Max) u32Max
    if segmentSize ≤ exclusiveEnd then none else some (exclusiveEnd - 1)

/-- The batches from the one that starts at a byte position. -/
def batchesAt : ℕ → List Batch → List Batch
  | 0, bs => bs
  | _, [] => []
  | position, b :: bs => batchesAt (position - b.size) bs

/-- `first_batch_at_or_after`, in so many bytes. -/
def firstBatchAtOrAfter (floor : ℤ) : ℕ → List Batch → Option Batch
  | _, [] => none
  | data, b :: bs =>
    if data < b.size then none
    else if floor ≤ b.lastOffset then some b
    else firstBatchAtOrAfter floor (data - b.size) bs

/-- A finished segment: its log and its offset index. -/
structure RemoteSegment where
  startOffset : ℤ
  batches : List Batch
  index : List OffsetIndexEntry
  deriving DecidableEq

namespace RemoteSegment
variable (seg : RemoteSegment) (offset : ℤ) (maxBytes : ℕ)

def targetRel : ℕ :=
  let rel := (max (offset - seg.startOffset) 0).toNat
  if rel ≤ u32Max then rel else 0

def startPosition : ℕ := positionForRelativeOffset seg.index (seg.targetRel offset)

def fetchBatch : Option Batch :=
  let start := seg.startPosition offset
  let data := match endPositionFor start (bytesOf seg.batches) maxBytes with
    | some stop => stop + 1 - start
    | none => bytesOf seg.batches - start
  firstBatchAtOrAfter offset data (batchesAt start seg.batches)

/-- A sequence of batches, with an index that points at batch starts not beyond the named offsets. -/
structure WellFormed : Prop where
  size : bytesOf seg.batches < 2 ^ 31
  sizes : ∀ b ∈ seg.batches, 0 < b.size
  ascending : Ascending seg.batches
  start : ∀ b ∈ seg.batches, seg.startOffset ≤ b.baseOffset
  sorted : seg.index.Pairwise (·.relativeOffset < ·.relativeOffset)
  index : ∀ e ∈ seg.index, ∃ before b after, seg.batches = before ++ b :: after ∧ e.position = bytesOf before ∧
    b.baseOffset ≤ seg.startOffset + e.relativeOffset

variable {seg offset maxBytes} {before mid after : List Batch} {b : Batch}

lemma batchesAt_bytesOf (h : ∀ b ∈ before, 0 < b.size) : batchesAt (bytesOf before) (before ++ after) = after := by
  induction before with
  | nil => cases after <;> rfl
  | cons b bs ih =>
    obtain ⟨hb, hbs⟩ := forall_mem_cons.mp h
    obtain ⟨n, hn⟩ : ∃ n, bytesOf (b :: bs) = n + 1 := Nat.exists_eq_succ_of_ne_zero (by rw [bytesOf_cons]; omega)
    have hsub : n + 1 - b.size = bytesOf bs := by rw [← hn, bytesOf_cons, Nat.add_sub_cancel_left]
    rw [hn, cons_append, batchesAt, hsub, ih hbs]
    simp

lemma firstBatchAtOrAfter_append (hmid : ∀ x ∈ mid, x.lastOffset < offset) (hb : offset ≤ b.lastOffset) (data : ℕ) :
    firstBatchAtOrAfter offset data (mid ++ b :: after) =
      if bytesOf mid + b.size ≤ data then some b else none := by
  induction mid generalizing data with
  | nil =>
    rw [nil_append, firstBatchAtOrAfter, if_pos hb, show bytesOf [] = 0 from rfl, zero_add]
    split_ifs <;> first | rfl | omega
  | cons x xs ih =>
    obtain ⟨hx, hxs⟩ := forall_mem_cons.mp hmid
    rw [cons_append, firstBatchAtOrAfter, bytesOf_cons, if_neg hx.not_ge, ih hxs]
    split_ifs <;> first | rfl | omega

lemma WellFormed.startPosition_spec (h : seg.WellFormed) (hsplit : seg.batches = before ++ b :: after)
    (hbase : b.baseOffset ≤ offset) (hlast : offset ≤ b.lastOffset) :
    ∃ skipped mid, before = skipped ++ mid ∧ seg.startPosition offset = bytesOf skipped := by
  have hstart := h.start b (hsplit ▸ mem_append_cons_self)
  have htarget : seg.startOffset + seg.targetRel offset ≤ offset := by
    simp only [targetRel]
    split_ifs <;> omega
  unfold startPosition positionForRelativeOffset
  cases he : (seg.index.filter (·.relativeOffset ≤ seg.targetRel offset)).getLast? with
  | none => exact ⟨[], before, rfl, rfl⟩
  | some e =>
    obtain ⟨hmem, hrel⟩ := mem_filter.mp (mem_of_getLast? he)
    obtain ⟨before', b', after', hsplit', hpos, hnot⟩ := h.index e hmem
    have hb' : b'.baseOffset ≤ offset := by
      have := of_decide_eq_true hrel
      omega
    refine ⟨before', ?_⟩
    -- An entry behind the batch would name an offset that is too large.
    obtain ⟨mid, hmid, -⟩ | ⟨c, hc, hcons⟩ := append_eq_append_iff.mp (hsplit'.symm.trans hsplit)
    · exact ⟨mid, hmid, hpos⟩
    · cases c with
      | nil => exact ⟨[], by simpa using hc.symm, hpos⟩
      | cons x c =>
        obtain ⟨rfl, rfl⟩ := cons_eq_cons.mp hcons
        have hasc := (pairwise_append.mp (hsplit ▸ h.ascending)).2.1
        have := rel_of_pairwise_cons hasc (mem_append_right c mem_cons_self)
        omega

/-- **What a fetch returns**, for the offset of a batch: the batch, if the bytes from the index entry to its end are
within the budget, and nothing otherwise. -/
theorem fetchBatch_eq (h : seg.WellFormed) (hsplit : seg.batches = before ++ b :: after)
    (hbase : b.baseOffset ≤ offset) (hlast : offset ≤ b.lastOffset) (hmax : 0 < maxBytes) :
    seg.fetchBatch offset maxBytes =
      if bytesOf before + b.size ≤ seg.startPosition offset + maxBytes then some b else none := by
  obtain ⟨skipped, mid, rfl, hpos⟩ := h.startPosition_spec hsplit hbase hlast
  have hmid : ∀ x ∈ mid, x.lastOffset < offset := fun x hx =>
    ((pairwise_append.mp (hsplit ▸ h.ascending)).2.2 x (mem_append_right _ hx) b mem_cons_self).trans_le hbase
  have hskip : ∀ x ∈ skipped, 0 < x.size := fun x hx => h.sizes x (by simp [hsplit, hx])
  have hsize := h.size
  rw [hsplit, append_assoc, bytesOf_append, bytesOf_append, bytesOf_cons] at hsize
  simp only [fetchBatch]
  rw [hpos, hsplit, append_assoc, batchesAt_bytesOf hskip, firstBatchAtOrAfter_append hmid hlast, bytesOf_append,
    bytesOf_append, bytesOf_append, bytesOf_cons]
  refine if_congr ?_ rfl rfl
  unfold endPositionFor u32Max
  simp only
  split_ifs <;> simp only <;> omega

/-- Two batches, with an index entry for the first. -/
def twoRemote : RemoteSegment := ⟨0, [{ size := 100 }, { baseOffset := 1, size := 100 }], [⟨0, 0⟩]⟩

lemma wellFormed_twoRemote : twoRemote.WellFormed where
  size := by decide
  sizes := by decide
  ascending := by simp [Ascending, twoRemote, Batch.lastOffset]
  start := by decide
  sorted := by decide
  index := by
    rintro e he
    obtain rfl := mem_singleton.mp he
    exact ⟨[], _, _, rfl, rfl, by decide⟩

theorem fetchBatch_eq_twoRemote : twoRemote.fetchBatch 1 200 = some { baseOffset := 1, size := 100 } :=
  fetchBatch_eq wellFormed_twoRemote (show _ = [{ size := 100 }] ++ _ :: [] from rfl) (by decide) (by decide) (by decide)

/-- The batch is within the budget, but not with the one before it. -/
theorem fetchBatch_stuck : twoRemote.WellFormed ∧ twoRemote.fetchBatch 1 199 = none ∧ twoRemote.fetchBatch 0 1 = none :=
  ⟨wellFormed_twoRemote, by decide⟩

end RemoteSegment
end Crabka.Broker
