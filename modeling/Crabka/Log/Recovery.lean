import Crabka.Log.PartitionLog

/-!
# What recovery rebuilds

`rebuild_producer_and_transaction_state` starts from the last producer snapshot and replays the rest of the log through
reads of a fixed window. The rest lies in the active segment; when every batch fits the window, each read makes
progress (`readFrom_prefix`) and the replay is the bookkeeping of the appends (`rebuild_eq`).
-/

namespace Crabka.Log
open List hiding getElem?_filter getElem?_insert
open Found
open Std (ExtTreeMap)
open PartitionLog Tracked Segment

/-! ## Batches one after the other -/

/-- Batches without gaps, from an offset on. -/
def Laid : ℤ → List Batch → Prop
  | _, [] => True
  | start, b :: bs => b.baseOffset = start ∧ Laid (b.lastOffset + 1) bs

def endOf (start : ℤ) (bs : List Batch) : ℤ := match bs.getLast? with
  | some b => b.lastOffset + 1
  | none => start

lemma Batch.base_le_last (b : Batch) : b.baseOffset ≤ b.lastOffset := by
  unfold lastOffset
  omega

lemma endOf_cons (start : ℤ) (b : Batch) (bs : List Batch) :
    endOf start (b :: bs) = endOf (b.lastOffset + 1) bs := by
  unfold endOf
  rw [List.getLast?_cons]
  cases bs.getLast? <;> rfl

lemma endOf_append (start : ℤ) (bs bs' : List Batch) : endOf start (bs ++ bs') = endOf (endOf start bs) bs' := by
  induction bs generalizing start with
  | nil => rfl
  | cons b bs ih => rw [cons_append, endOf_cons, endOf_cons, ih]

variable {start offset : ℤ} {bs bs' : List Batch}

lemma endOf_le (hstart : start ≤ offset) (h : ∀ b ∈ bs, b.lastOffset < offset) : endOf start bs ≤ offset := by
  unfold endOf
  split
  next b hlast => exact h b (mem_of_getLast? hlast)
  next => exact hstart

lemma Segment.lastOffset_add_one (seg : Segment) : seg.lastOffset + 1 = endOf seg.base seg.batches := by
  unfold lastOffset endOf
  cases seg.batches.getLast? with
  | none => exact Int.sub_add_cancel _ _
  | some b => rfl

lemma laid_append : Laid start (bs ++ bs') ↔ Laid start bs ∧ Laid (endOf start bs) bs' := by
  induction bs generalizing start with
  | nil => simp [Laid, endOf]
  | cons b bs ih =>
    rw [cons_append, endOf_cons]
    simp only [Laid, ih, and_assoc]

namespace Laid
variable {start : ℤ} {bs : List Batch}
section
variable (h : Laid start bs)
include h

lemma start_le_endOf : start ≤ endOf start bs := by
  induction bs generalizing start with
  | nil => exact le_rfl
  | cons b bs ih =>
    rw [endOf_cons]
    have := ih h.2
    have hb := b.base_le_last
    rw [h.1] at hb
    omega

lemma start_le_base : ∀ b ∈ bs, start ≤ b.baseOffset := by
  induction bs generalizing start with
  | nil => exact nofun
  | cons b bs ih =>
    refine forall_mem_cons.mpr ⟨h.1.ge, fun b' hb' => ?_⟩
    have := ih h.2 b' hb'
    have hb := b.base_le_last
    rw [h.1] at hb
    omega

lemma last_lt_endOf : ∀ b ∈ bs, b.lastOffset < endOf start bs := by
  induction bs generalizing start with
  | nil => exact nofun
  | cons b bs ih =>
    rw [endOf_cons]
    refine forall_mem_cons.mpr ⟨?_, ih h.2⟩
    have := h.2.start_le_endOf
    omega

lemma split (offset : ℤ) :
    ∃ pre post, bs = pre ++ post ∧ bs.takeWhile (·.lastOffset < offset) = pre ∧
      bs.dropWhile (·.lastOffset < offset) = post ∧ (∀ b ∈ pre, b.lastOffset < offset) ∧
      ∀ b ∈ post, offset ≤ b.lastOffset := by
  refine ⟨_, _, (takeWhile_append_dropWhile).symm, rfl, rfl, fun b hb => by
    simpa using mem_takeWhile_imp hb, ?_⟩
  induction bs generalizing start with
  | nil => exact nofun
  | cons b bs ih =>
    rw [dropWhile_cons]
    split
    · exact ih h.2
    · rename_i hb
      have hle : offset ≤ b.lastOffset := by simpa using hb
      refine forall_mem_cons.mpr ⟨hle, fun b' hb' => ?_⟩
      have := h.2.start_le_base b' hb'
      have := b'.base_le_last
      omega

end
end Laid

/-! ## One read -/

namespace Segment
variable {interval : ℕ} {offset : ℤ} {bs : List Batch}

lemma floorFrom_of_lt (h : ∀ b ∈ bs, offset < b.baseOffset) (gap : ℕ) (floor : List Batch) :
    floorFrom interval offset bs gap floor = floor := by
  induction bs generalizing gap with
  | nil => rfl
  | cons b bs ih =>
    obtain ⟨hb, hbs⟩ := forall_mem_cons.mp h
    unfold floorFrom
    rw [if_neg (not_le.mpr hb), ih hbs, ite_self]

variable {post : List Batch}

lemma floorFrom_spec (interval : ℕ) {target : Batch} (htarget : target.baseOffset ≤ offset)
    (hpost : ∀ b ∈ post, offset < b.baseOffset) (mid : List Batch)
    (hmid : ∀ b ∈ mid, b.lastOffset < offset) (gap : ℕ) (skipped : List Batch)
    (hskipped : ∀ b ∈ skipped, b.lastOffset < offset)
    (hgap : (skipped.map Batch.size).sum = gap ∨ skipped = [] ∧ interval ≤ gap) :
    ∃ pre, floorFrom interval offset (mid ++ target :: post) gap (skipped ++ mid ++ target :: post) =
        pre ++ target :: post ∧
      (∀ b ∈ pre, b.lastOffset < offset) ∧ (pre.map Batch.size).sum ≤ interval := by
  induction mid generalizing gap skipped with
  | nil =>
    rw [nil_append, append_nil]
    unfold floorFrom
    by_cases hfull : interval ≤ gap
    · rw [if_pos hfull, if_pos htarget, floorFrom_of_lt hpost]
      exact ⟨[], rfl, fun _ hb => absurd hb not_mem_nil, Nat.zero_le _⟩
    · rw [if_neg hfull, floorFrom_of_lt hpost]
      refine ⟨skipped, rfl, hskipped, ?_⟩
      omega
  | cons b mid ih =>
    obtain ⟨hb, hmid⟩ := forall_mem_cons.mp hmid
    have hbase : b.baseOffset ≤ offset := b.base_le_last.trans hb.le
    rw [cons_append]
    unfold floorFrom
    by_cases hfull : interval ≤ gap
    · rw [if_pos hfull, if_pos hbase]
      exact ih hmid b.size [b] (by simpa using hb) (.inl (by simp))
    · rw [if_neg hfull]
      have hsum := hgap.resolve_right fun h => hfull h.2
      have h' := ih hmid (gap + b.size) (skipped ++ [b])
        (fun x hx => by
          rcases mem_snoc.mp hx with hx | hx
          · exact hskipped x hx
          · exact hx ▸ hb)
        (.inl (by simp [hsum]))
      simpa using h'

variable {maxBytes : ℕ}

lemma decodeWithin_append {pre : List Batch} (hpre : ∀ b ∈ pre, b.lastOffset < offset)
    (buffer total : ℕ) (hfits : (pre.map Batch.size).sum ≤ buffer) :
    decodeWithin offset maxBytes (pre ++ post) buffer total =
      decodeWithin offset maxBytes post (buffer - (pre.map Batch.size).sum) total := by
  induction pre generalizing buffer with
  | nil => rfl
  | cons b pre ih =>
    obtain ⟨hb, hpre⟩ := forall_mem_cons.mp hpre
    rw [map_cons, sum_cons] at hfits
    rw [cons_append, decodeWithin, if_neg (by omega), if_pos hb,
      ih hpre _ (by omega), map_cons, sum_cons, Nat.sub_sub]

lemma decodeWithin_prefix (maxBytes : ℕ) (h : ∀ b ∈ bs, offset ≤ b.lastOffset) (buffer total : ℕ) :
    decodeWithin offset maxBytes bs buffer total <+: bs := by
  induction bs generalizing buffer total with
  | nil => exact nil_prefix
  | cons b bs ih =>
    obtain ⟨hb, hbs⟩ := forall_mem_cons.mp h
    unfold decodeWithin
    split
    · exact nil_prefix
    · rw [if_neg (not_lt.mpr hb), prefix_cons_inj]
      split
      · exact nil_prefix
      · exact ih hbs _ _

/-- **A read makes progress** when the batch it starts with fits the window. -/
theorem readFrom_prefix {seg : Segment} {start : ℤ} (h : Laid start seg.batches)
    (hstart : start ≤ offset) (hin : offset < endOf start seg.batches)
    (hfits : ∀ b ∈ seg.batches, b.size + interval ≤ maxBytes) :
    ∃ b bs, seg.readFrom interval offset maxBytes = b :: bs ∧
      b :: bs <+: seg.batches.dropWhile (·.lastOffset < offset) := by
  obtain ⟨pre, post, heq, -, hdrop, hpre, hpost⟩ := h.split offset
  rw [hdrop]
  have hlaid := laid_append.mp (heq ▸ h)
  cases post with
  | nil =>
    -- Every batch is before the offset, and so is the end.
    rw [heq, append_nil] at hin
    exact absurd (endOf_le hstart hpre) (not_le.mpr hin)
  | cons target rest =>
    have hfit := hfits target (heq ▸ mem_append_cons_self)
    have hbase : target.baseOffset ≤ offset := by
      rw [hlaid.2.1]
      exact endOf_le hstart hpre
    have hrest : ∀ b ∈ rest, offset < b.baseOffset := by
      intro b hb
      have := hlaid.2.2.start_le_base b hb
      have := hpost target mem_cons_self
      omega
    obtain ⟨skip, hfloor, hskip, hsum⟩ := floorFrom_spec interval hbase hrest pre hpre
      interval [] nofun (.inr ⟨rfl, le_rfl⟩)
    rw [nil_append, ← heq] at hfloor
    have hlast : ¬ seg.lastOffset < offset := by
      have hend := seg.lastOffset_add_one
      rw [heq, endOf_append, endOf_cons] at hin hend
      omega
    rw [readFrom, if_neg hlast, hfloor, decodeWithin_append hskip _ _ (by omega)]
    have hpfx := decodeWithin_prefix maxBytes hpost (maxBytes - (skip.map Batch.size).sum) 0
    rw [decodeWithin, if_neg (by omega), if_neg (not_lt.mpr (hpost target mem_cons_self))] at hpfx ⊢
    exact ⟨_, _, rfl, hpfx⟩

end Segment

/-! ## The bookkeeping, replayed -/

/-- The bookkeeping of the appends of a list of batches. -/
def trackOf (bs : List Batch) : Tracked := bs.foldl Tracked.note {}

lemma trackOf_append (bs bs' : List Batch) : trackOf (bs ++ bs') = bs'.foldl note (trackOf bs) := foldl_append

lemma trackOf_snoc (bs : List Batch) (b : Batch) :
    trackOf (bs ++ [b]) = (trackOf bs).note b := trackOf_append bs [b]

/-- A batch that recovery restores in full: a transactional batch has a sequence, epochs of producers
and coordinators are known. -/
@[mk_iff]
structure Batch.Regular (b : Batch) : Prop where
  sequence : b.control = none → b.isTransactional = true → 0 ≤ b.producerId → 0 ≤ b.baseSequence
  epoch : 0 ≤ b.producerId → 0 ≤ b.producerEpoch
  coordinator : ∀ c ∈ b.control, ∀ epoch ∈ c.coordinatorEpoch, 0 ≤ epoch

instance (b : Batch) : Decidable b.Regular := decidable_of_iff' _ (Batch.regular_iff b)

/-- What an entry of the producer state says about the other maps, and that it can be read back. -/
structure EntryOk (t : Tracked) (pid : ℤ) : Prop where
  pending : t.pending[pid]? = t.producerState[pid]?.bind ProducerSnapshotEntry.currentTxnFirstOffset
  epochs : t.coordinatorEpochs[pid]? = t.producerState[pid]?.bind fun e =>
    if 0 ≤ e.coordinatorEpoch then some e.coordinatorEpoch else none
  valid : ∀ e, t.producerState[pid]? = some e → 0 ≤ pid ∧ PartitionLog.validEntry e = true

namespace Tracked
variable {t : Tracked} {b : Batch}

lemma ofSnapshot_producerState (h : ∀ pid, EntryOk t pid) : ofSnapshot t.producerState = t := by
  have hpending : t.producerState.filterMap (fun _ e => e.currentTxnFirstOffset) = t.pending := by
    refine ExtTreeMap.ext_getElem? fun {pid} => ?_
    rw [getElem?_filterMap, (h pid).pending]
  have hepochs : t.producerState.filterMap (fun _ e =>
      if 0 ≤ e.coordinatorEpoch then some e.coordinatorEpoch else none) = t.coordinatorEpochs := by
    refine ExtTreeMap.ext_getElem? fun {pid} => ?_
    rw [getElem?_filterMap, (h pid).epochs]
  unfold ofSnapshot
  rw [hpending, hepochs]

lemma applyRecovered_eq_note (h : ∀ pid, EntryOk t pid) : t.applyRecovered b = t.note b := by
  unfold applyRecovered note
  by_cases hpid : b.producerId < 0
  · have hnone : t.pending[b.producerId]? = none := by
      rw [(h b.producerId).pending]
      cases hs : t.producerState[b.producerId]? with
      | none => rfl
      | some e => exact absurd ((h b.producerId).valid e hs).1 (not_le.mpr hpid)
    have herase : t.pending.erase b.producerId = t.pending := by
      refine ExtTreeMap.ext_getElem? fun {pid} => ?_
      rw [getElem?_erase]
      split_ifs with heq
      · rw [heq, hnone]
      · rfl
    cases t
    cases hc : b.control with
    | none => simp [updateOwnedProducerEntry, hpid, not_le.mpr hpid]
    | some c =>
      simp only [updateOwnedProducerEntry, if_pos hpid, noteCoordinator, if_neg (not_le.mpr hpid)] at herase ⊢
      rw [herase]
      cases c.coordinatorEpoch <;> rfl
  · rw [if_neg hpid]
    cases hc : b.control with
    | none => simp [not_lt.mp hpid]
    | some c => rfl

lemma noteVerbatim_eq_note (hdata : b.control = none) : t.noteVerbatim b = t.note b := by
  unfold noteVerbatim note updateOwnedProducerEntry updateDataProducerEntry
  simp only [hdata]
  by_cases hpid : b.producerId < 0
  · simp [hpid]
  · simp [hpid, not_lt.mp hpid]

lemma getElem?_upsert {ν : Type} (m : ExtTreeMap ℤ ν) (k : ℤ) (d : ν) (f : ν → ν) (a : ℤ) :
    (upsert m k d f)[a]? = if a = k then some (f (m[k]?.getD d)) else m[a]? :=
  getElem?_insert m k _ a

lemma getElem?_note_of_ne {pid : ℤ} (hne : pid ≠ b.producerId) :
    (t.note b).pending[pid]? = t.pending[pid]? ∧
      (t.note b).coordinatorEpochs[pid]? = t.coordinatorEpochs[pid]? ∧
      (t.note b).producerState[pid]? = t.producerState[pid]? := by
  unfold note updateOwnedProducerEntry updateDataProducerEntry noteCoordinator openTransaction
  cases b.control with
  | none =>
    refine ⟨?_, rfl, ?_⟩
    · simp only
      split
      · rw [getElem?_upsert, if_neg hne]
      · rfl
    · simp only
      split
      · rfl
      · split
        · rfl
        · rw [getElem?_upsert, if_neg hne]
  | some c =>
    refine ⟨?_, ?_, ?_⟩
    · rw [getElem?_erase, if_neg hne]
    · simp only
      split
      · split
        · rw [getElem?_insert, if_neg hne]
        · rfl
      · rfl
    · split
      · rfl
      · rw [getElem?_upsert, if_neg hne]

lemma entryOk_note_data (h : EntryOk t b.producerId) (hb : b.Regular) (hbase : 0 ≤ b.baseOffset)
    (hdata : b.control = none) (hpid : 0 ≤ b.producerId) : EntryOk (t.note b) b.producerId := by
  have hstate : (t.note b).producerState = updateDataProducerEntry t.producerState b b.isTransactional := by
    simp only [note, updateOwnedProducerEntry, hdata, if_neg (not_lt.mpr hpid)]
  have hepochs : (t.note b).coordinatorEpochs = t.coordinatorEpochs := by simp only [note, hdata]
  have hpending : (t.note b).pending = if b.isTransactional then
      openTransaction t.pending b.producerId b.baseOffset else t.pending := by
    simp only [note, hdata, hpid, decide_true, Bool.and_true]
  by_cases hseq : b.baseSequence < 0
  · -- Such a batch is not transactional, and nothing is kept about it.
    have hplain : b.isTransactional = false := by
      by_contra htxn
      have := hb.sequence hdata (by simpa using htxn) hpid
      omega
    rw [hplain, if_neg Bool.false_ne_true] at hpending
    rw [updateDataProducerEntry, if_pos (.inr hseq)] at hstate
    exact ⟨by rw [hpending, hstate, h.pending], by rw [hepochs, hstate, h.epochs], by rw [hstate]; exact h.valid⟩
  · rw [updateDataProducerEntry, if_neg (by omega)] at hstate
    have hentry : (t.note b).producerState[b.producerId]? = some (dataEntry b b.isTransactional
        (t.producerState[b.producerId]?.getD { producerEpoch := b.producerEpoch })) := by
      rw [hstate, getElem?_upsert, if_pos rfl]
    refine ⟨?_, ?_, ?_⟩
    · rw [hentry, hpending]
      have hold := h.pending
      cases ht : b.isTransactional with
      | false =>
        rw [if_neg Bool.false_ne_true, hold]
        cases t.producerState[b.producerId]? <;> rfl
      | true =>
        rw [if_pos rfl, openTransaction, getElem?_upsert, if_pos rfl, hold]
        cases hs : t.producerState[b.producerId]? with
        | none => rfl
        | some e =>
          simp only [Option.bind_some, Option.getD_some, dataEntry, id]
          cases e.currentTxnFirstOffset <;> rfl
    · rw [hentry, hepochs, h.epochs]
      cases t.producerState[b.producerId]? <;> rfl
    · intro e he
      rw [hentry] at he
      cases he
      refine ⟨hpid, ?_⟩
      have hepoch := hb.epoch hpid
      have hle : (b.lastOffsetDelta : ℤ) ≤ b.lastOffset := by
        unfold Batch.lastOffset
        omega
      simp only [validEntry, dataEntry, Bool.and_eq_true, decide_eq_true_eq,
        Bool.not_eq_true', Bool.and_eq_false_iff, Bool.or_eq_false_iff, decide_eq_false_iff_not]
      omega

lemma entryOk_note_control (h : EntryOk t b.producerId) (hb : b.Regular) {c : Control}
    (hc : b.control = some c) (hpid : 0 ≤ b.producerId) : EntryOk (t.note b) b.producerId := by
  have hentry : (t.note b).producerState[b.producerId]? = some (controlEntry b c
      (t.producerState[b.producerId]?.getD { producerEpoch := b.producerEpoch })) := by
    simp only [note, updateOwnedProducerEntry, hc, if_neg (not_lt.mpr hpid)]
    rw [getElem?_upsert, if_pos rfl]
  have hpending : (t.note b).pending[b.producerId]? = none := by
    simp only [note, hc]
    rw [getElem?_erase, if_pos rfl]
  refine ⟨?_, ?_, ?_⟩
  · rw [hentry, hpending]
    rfl
  · rw [hentry]
    simp only [note, hc, noteCoordinator, hpid, if_true, Option.bind_some, controlEntry]
    cases hepoch : c.coordinatorEpoch with
    | none =>
      rw [h.epochs]
      cases t.producerState[b.producerId]? <;> rfl
    | some epoch =>
      simp only [Option.getD_some]
      rw [getElem?_insert, if_pos rfl, if_pos (hb.coordinator c hc epoch hepoch)]
  · intro e he
    rw [hentry] at he
    cases he
    refine ⟨hpid, ?_⟩
    have hepoch := hb.epoch hpid
    have hold : validEntry (t.producerState[b.producerId]?.getD { producerEpoch := b.producerEpoch }) := by
      cases hs : t.producerState[b.producerId]? with
      | none => simp [validEntry, hepoch]
      | some e => exact (h.valid e hs).2
    simp only [controlEntry]
    split
    · simp [validEntry, hepoch]
    · simp only [validEntry, Bool.and_eq_true] at hold ⊢
      exact ⟨⟨by simpa using hepoch, hold.1.2⟩, hold.2⟩

lemma entryOk_note (h : ∀ pid, EntryOk t pid) (hb : b.Regular) (hbase : 0 ≤ b.baseOffset)
    (pid : ℤ) : EntryOk (t.note b) pid := by
  obtain rfl | heq := eq_or_ne pid b.producerId
  · by_cases hpid : 0 ≤ b.producerId
    · cases hc : b.control with
      | none => exact entryOk_note_data (h _) hb hbase hc hpid
      | some c => exact entryOk_note_control (h _) hb hc hpid
    · rw [← applyRecovered_eq_note h, applyRecovered, if_pos (not_le.mp hpid)]
      exact h _
  · obtain ⟨hpending, hepochs, hstate⟩ := getElem?_note_of_ne (t := t) heq
    exact ⟨by rw [hpending, hstate, (h pid).pending], by rw [hepochs, hstate, (h pid).epochs],
      by rw [hstate]; exact (h pid).valid⟩

end Tracked

lemma entryOk_trackOf (hstart : 0 ≤ start) (hlaid : Laid start bs) (hbs : ∀ b ∈ bs, b.Regular)
    (pid : ℤ) : EntryOk (trackOf bs) pid := by
  induction bs using List.reverseRecOn generalizing pid with
  | nil => exact ⟨by simp [trackOf], by simp [trackOf], by simp [trackOf]⟩
  | append_singleton bs b ih =>
    rw [trackOf_snoc]
    have hl := laid_append.mp hlaid
    refine entryOk_note (ih hl.1 fun x hx => hbs x (mem_append_left _ hx)) (hbs b mem_append_cons_self) ?_ pid
    rw [hl.2.1]
    exact hstart.trans hl.1.start_le_endOf

lemma foldl_applyRecovered (hlaid : Laid 0 (bs ++ bs')) (hbs : ∀ b ∈ bs ++ bs', b.Regular) :
    bs'.foldl applyRecovered (trackOf bs) = trackOf (bs ++ bs') := by
  induction bs' generalizing bs with
  | nil => rw [append_nil]; rfl
  | cons b bs' ih =>
    have hok : ∀ pid, EntryOk (trackOf bs) pid := entryOk_trackOf le_rfl (laid_append.mp hlaid).1
      fun x hx => hbs x (mem_append_left _ hx)
    rw [append_cons] at hlaid hbs ⊢
    rw [foldl_cons, applyRecovered_eq_note hok, ← trackOf_snoc, ih hlaid hbs]

/-! ## Segments one after the other -/

/-- Segments without gaps, from an offset on. -/
def SegChain : ℤ → List Segment → Prop
  | _, [] => True
  | start, seg :: segs =>
    seg.base = start ∧ Laid start seg.batches ∧ SegChain (endOf start seg.batches) segs

lemma segChain_append {segs segs' : List Segment} :
    SegChain start (segs ++ segs') ↔
      SegChain start segs ∧ SegChain (endOf start (segs.flatMap Segment.batches)) segs' := by
  induction segs generalizing start with
  | nil => simp [SegChain, endOf]
  | cons seg segs ih =>
    rw [cons_append, flatMap_cons, endOf_append]
    simp only [SegChain, ih, and_assoc]

namespace SegChain
variable {start : ℤ} {segs : List Segment}

lemma laid (h : SegChain start segs) : Laid start (segs.flatMap Segment.batches) := by
  induction segs generalizing start with
  | nil => trivial
  | cons seg segs ih => exact laid_append.mpr ⟨h.2.1, ih h.2.2⟩

lemma lastOffset_lt (h : SegChain start segs) :
    ∀ seg ∈ segs, seg.lastOffset < endOf start (segs.flatMap Segment.batches) := by
  induction segs generalizing start with
  | nil => exact nofun
  | cons seg segs ih =>
    rw [flatMap_cons, endOf_append]
    refine forall_mem_cons.mpr ⟨?_, ih h.2.2⟩
    have hend := seg.lastOffset_add_one
    rw [h.1] at hend
    exact hend.trans_le h.2.2.laid.start_le_endOf

end SegChain
namespace PartitionLog

/-- The segments of a log that was written from offset `0` on. -/
def Layout (log : PartitionLog) : Prop := SegChain 0 (log.segments ++ [log.active])

def sealedBatches (log : PartitionLog) : List Batch := log.segments.flatMap Segment.batches

variable {cfg : LogConfig} {log : PartitionLog}

lemma logEndOffset_active (log : PartitionLog) : log.logEndOffset = endOf log.active.base log.active.batches :=
  log.active.lastOffset_add_one

lemma batches_eq (log : PartitionLog) : log.batches = log.sealedBatches ++ log.active.batches := by
  simp [batches, sealedBatches]

namespace Layout
section
variable (h : log.Layout)
include h

lemma laid : Laid 0 log.batches := SegChain.laid h

lemma active_base : log.active.base = endOf 0 log.sealedBatches := (segChain_append.mp h).2.1

lemma active_laid : Laid log.active.base log.active.batches := by
  rw [h.active_base]
  exact (segChain_append.mp h).2.2.1

lemma logEndOffset_eq : log.logEndOffset = endOf 0 log.batches := by
  rw [logEndOffset_active, batches_eq, endOf_append, h.active_base]

lemma lastOffset_lt : ∀ seg ∈ log.segments, seg.lastOffset < log.active.base := by
  rw [h.active_base]
  exact (segChain_append.mp h).1.lastOffset_lt

lemma logStartOffset : log.logStartOffset = 0 := by
  unfold PartitionLog.logStartOffset
  have hchain : SegChain 0 (log.segments ++ [log.active]) := h
  cases hsegs : log.segments ++ [log.active] with
  | nil => rfl
  | cons seg segs =>
    rw [hsegs] at hchain
    exact hchain.1

end
end Layout

/-! ## The replay -/

variable {offset : ℤ}

lemma readSealed_of_lt (interval : ℕ) {segs : List Segment}
    (h : ∀ seg ∈ segs, seg.lastOffset < offset) (remaining : ℕ) :
    readSealed interval segs offset remaining = ([], offset, remaining) := by
  induction segs with
  | nil => rfl
  | cons seg segs ih =>
    obtain ⟨hseg, hsegs⟩ := forall_mem_cons.mp h
    rw [readSealed, if_pos hseg, ih hsegs]

lemma read_active (h : log.Layout) (hge : log.active.base ≤ offset) (hlt : offset < log.logEndOffset) :
    log.read cfg offset recoveryWindow = log.active.readFrom cfg.indexInterval offset recoveryWindow := by
  have hsealed := readSealed_of_lt cfg.indexInterval
    (fun seg hseg => (h.lastOffset_lt seg hseg).trans_le hge) recoveryWindow
  have hle : offset ≤ log.active.lastOffset := Int.lt_add_one_iff.mp hlt
  rw [read, if_neg (not_le.mpr hlt), hsealed]
  simp only [hle, and_true, nil_append, or_true, if_true]
  rfl

lemma replayBatches_nil (bs : List Batch) (t : Tracked) (snapshots : ExtTreeMap ℤ ProducerState) :
    replayBatches bs [] t snapshots = ([], bs.foldl applyRecovered t, snapshots) := by
  induction bs generalizing t with
  | nil => rfl
  | cons b bs ih => simp only [replayBatches, filter_nil, foldl_nil, foldl_cons, ih]

variable {next : ℤ}

/-- **The loop of the recovery**, inside the active segment. -/
theorem replay_eq (h : log.Layout)
    (hfits : ∀ b ∈ log.active.batches, b.size + cfg.indexInterval ≤ recoveryWindow) (fuel : ℕ)
    (hge : log.active.base ≤ next) (hfuel : (log.logEndOffset - next).toNat ≤ fuel) (t : Tracked)
    (snapshots : ExtTreeMap ℤ ProducerState) :
    log.replay cfg fuel next [] t snapshots =
      .ok ((log.active.batches.dropWhile (·.lastOffset < next)).foldl applyRecovered t, snapshots) := by
  have hlaid := h.active_laid
  have hdone : ∀ n, log.logEndOffset ≤ n → log.active.batches.dropWhile (·.lastOffset < n) = [] := by
    intro n hle
    rw [dropWhile_eq_nil_iff]
    intro b hb
    have := hlaid.last_lt_endOf b hb
    rw [← logEndOffset_active] at this
    simpa using this.trans_le hle
  induction fuel generalizing next t with
  | zero =>
    have hle : log.logEndOffset ≤ next := by omega
    rw [replay, if_neg (not_lt.mpr hle), hdone next hle]
    rfl
  | succ fuel ih =>
    by_cases hlt : next < log.logEndOffset
    · rw [replay, if_pos hlt, read_active h hge hlt]
      obtain ⟨b, bs, hread, hpfx⟩ := readFrom_prefix hlaid hge (log.logEndOffset_active ▸ hlt) hfits
      obtain ⟨rest, hrest⟩ := hpfx
      obtain ⟨pre, post, heq, -, hdrop, hpre, hpost⟩ := hlaid.split next
      rw [hdrop] at hrest ⊢
      -- The batches of the read, and those after it.
      obtain ⟨last, hlast⟩ : ∃ last, (b :: bs).getLast? = some last :=
        ⟨_, List.getLast?_eq_some_getLast (cons_ne_nil b bs)⟩
      have hmem : last ∈ b :: bs := mem_of_getLast? hlast
      have hnext : next < last.lastOffset + 1 := by
        have := hpost last (hrest ▸ mem_append_left _ hmem)
        omega
      have hlaid' := hlaid
      rw [heq, ← hrest, ← append_assoc, laid_append] at hlaid'
      have hend : endOf log.active.base (pre ++ b :: bs) = last.lastOffset + 1 := by
        rw [endOf_append, endOf, hlast]
      have hdrop' : log.active.batches.dropWhile (·.lastOffset < last.lastOffset + 1) = rest := by
        rw [heq, ← hrest, ← append_assoc]
        have hall : ∀ x ∈ pre ++ b :: bs, (decide (x.lastOffset < last.lastOffset + 1)) := by
          intro x hx
          have := hlaid'.1.last_lt_endOf x hx
          rw [hend] at this
          simpa using this
        rw [dropWhile_append, dropWhile_eq_nil_iff.mpr hall]
        simp only [isEmpty_nil, if_true]
        cases rest with
        | nil => rfl
        | cons x rest =>
          have := hlaid'.2.1
          have := x.base_le_last
          rw [dropWhile_cons_of_neg (by simp only [decide_eq_true_eq]; omega)]
      rw [hread, hlast]
      simp only [if_neg (not_le.mpr hnext), replayBatches_nil]
      rw [ih (by omega) (by omega), hdrop', ← hrest, foldl_append]
    · have hle := not_lt.mp hlt
      rw [replay, if_neg hlt, hdone next hle]
      rfl

/-! ## The snapshots -/

/-- The snapshots on disk hold the producer state at their offsets. -/
structure Snapshots (log : PartitionLog) : Prop where
  nonneg : ∀ (offset : ℤ) state, log.snapshots[offset]? = some state → 0 ≤ offset
  right : ∀ (offset : ℤ) state, log.snapshots[offset]? = some state → offset ≤ log.logEndOffset →
    state = (trackOf (log.batches.takeWhile (·.lastOffset < offset))).producerState

/-- Recovery finds a snapshot in the active segment, or there is no other segment. -/
def Anchored (log : PartitionLog) : Prop :=
  log.segments = [] ∨ ∃ state, log.snapshots[log.active.base]? = some state

lemma validSnapshot_of_entryOk {t : Tracked} (h : ∀ pid, EntryOk t pid) : validSnapshot t.producerState = true := by
  unfold validSnapshot
  rw [all_eq_true]
  rintro ⟨pid, e⟩ hmem
  obtain ⟨hpid, hvalid⟩ := (h pid).valid e ((mem_toList _).mp hmem)
  simp [hpid, hvalid]

lemma latestAtOrBefore_spec {stop : ℤ} (hvalid : ∀ (offset : ℤ) state,
      log.snapshots[offset]? = some state → offset ≤ stop → validSnapshot state) :
    log.snapshotsUpTo stop = log.snapshots.filter (fun offset _ => offset ≤ stop) ∧
      ((log.latestAtOrBefore stop = none ∧ ∀ (offset : ℤ) state,
          log.snapshots[offset]? = some state → stop < offset) ∨
        ∃ offset state, log.latestAtOrBefore stop = some (offset, state) ∧
          log.snapshots[offset]? = some state ∧ offset ≤ stop ∧
          ∀ (offset' : ℤ) state', log.snapshots[offset']? = some state' → offset' ≤ stop → offset' ≤ offset) := by
  cases hfind : log.latestAtOrBefore stop with
  | none =>
    have habove : ∀ (offset : ℤ) state, log.snapshots[offset]? = some state → stop < offset := by
      intro offset state hget
      have hmem := (mem_toList log.snapshots).mpr hget
      have hno := List.find?_eq_none.mp hfind (offset, state) (mem_reverse.mpr hmem)
      by_contra hle
      exact hno (by simp [not_lt.mp hle, hvalid offset state hget (not_lt.mp hle)])
    refine ⟨?_, .inl ⟨rfl, habove⟩⟩
    rw [snapshotsUpTo, hfind]
    refine ExtTreeMap.ext_getElem? fun {k} => ?_
    rw [getElem?_filter]
    cases hk : log.snapshots[k]? with
    | none => simp
    | some state => simp [Option.filter, not_le.mpr (habove k state hk)]
  | some e =>
    obtain ⟨hpe, before, after, hsplit, hbefore⟩ := List.find?_eq_some_iff_append.mp hfind
    have hmem : e ∈ log.snapshots.toList := by
      rw [← mem_reverse, hsplit]
      exact mem_append_cons_self
    have hle : e.1 ≤ stop := by
      simp only [Bool.and_eq_true, decide_eq_true_eq] at hpe
      exact hpe.1
    have hmax : ∀ (offset' : ℤ) state', log.snapshots[offset']? = some state' → offset' ≤ stop → offset' ≤ e.1 := by
      intro offset' state' hget hle'
      have hmem' := (mem_toList log.snapshots).mpr hget
      -- The list is in the order of its offsets, and what is after the entry is past the end.
      have hsorted : log.snapshots.toList.reverse.Pairwise
          fun a b => compare b.1 a.1 = Ordering.lt :=
        pairwise_reverse.mpr (ExtTreeMap.ordered_keys_toList (t := log.snapshots))
      rw [hsplit] at hsorted
      rcases mem_append.mp (hsplit ▸ mem_reverse.mpr hmem') with hin | hin
      · have hno := hbefore _ hin
        simp [hle', hvalid offset' state' hget hle'] at hno
      · rcases mem_cons.mp hin with heq | hin
        · exact (congrArg Prod.fst heq).le
        · have := (pairwise_cons.mp (pairwise_append.mp hsorted).2.1).1 _ hin
          exact (compare_lt_iff_lt.mp this).le
    refine ⟨?_, .inr ⟨e.1, e.2, rfl, (mem_toList _).mp hmem, hle, hmax⟩⟩
    rw [snapshotsUpTo, hfind]
    refine ExtTreeMap.ext_getElem? fun {k} => ?_
    rw [getElem?_filter, getElem?_filter]
    cases hk : log.snapshots[k]? with
    | none => rfl
    | some state =>
      have hkk : k ≤ e.1 ↔ k ≤ stop := ⟨fun h => h.trans hle, hmax k state hk⟩
      simp [Option.filter, hkk]

lemma dropWhile_batches (h : log.Layout) (hge : log.active.base ≤ offset) :
    log.batches.dropWhile (·.lastOffset < offset) = log.active.batches.dropWhile (·.lastOffset < offset) := by
  have hsealed : ∀ b ∈ log.sealedBatches, decide (b.lastOffset < offset) := by
    intro b hb
    have hlt := (segChain_append.mp h).1.laid.last_lt_endOf b hb
    have hbase : log.active.base = endOf 0 log.sealedBatches := h.active_base
    unfold sealedBatches at hbase
    simp only [decide_eq_true_eq]
    omega
  rw [batches_eq, dropWhile_append, dropWhile_eq_nil_iff.mpr hsealed]
  rfl

lemma base_le_active (h : log.Layout) : ∀ seg ∈ log.segments ++ [log.active], seg.base ≤ log.active.base := by
  intro seg hseg
  rcases mem_snoc.mp hseg with hin | hin
  · have hlt := h.lastOffset_lt seg hin
    suffices seg.base ≤ seg.lastOffset + 1 by omega
    obtain ⟨before, after, hsplit⟩ := append_of_mem hseg
    have hchain : SegChain 0 (log.segments ++ [log.active]) := h
    rw [hsplit] at hchain
    obtain ⟨hbase, hlaid, -⟩ := (segChain_append.mp hchain).2
    rw [seg.lastOffset_add_one, hbase]
    exact hlaid.start_le_endOf
  · rw [hin]

lemma boundaries_eq_nil (h : log.Layout) (hge : log.active.base ≤ next) :
    (((log.segments ++ [log.active]).map base).tail.filter fun b => decide (next < b)) = [] := by
  rw [filter_eq_nil_iff]
  intro base hbase
  obtain ⟨seg, hseg, rfl⟩ := mem_map.mp (mem_of_mem_tail hbase)
  have := base_le_active h seg hseg
  simp only [decide_eq_true_eq]
  omega

/-- **What recovery rebuilds**: the bookkeeping of all appends, and the last stable offset from it;
snapshots past the log end go. -/
theorem rebuild_eq (cfg : LogConfig) (log : PartitionLog) (h : log.Layout) (hsnap : log.Snapshots)
    (hanchor : log.Anchored) (hregular : ∀ b ∈ log.batches, b.Regular)
    (hfits : ∀ b ∈ log.active.batches, b.size + cfg.indexInterval ≤ recoveryWindow) :
    log.rebuild cfg = .ok { log with
      tracked := trackOf log.batches
      snapshots := log.snapshots.filter fun offset _ => offset ≤ log.logEndOffset
      lso := stableOffset (trackOf log.batches) log.logEndOffset } := by
  have hlaid := h.laid
  have hok : ∀ (offset : ℤ) pid, EntryOk (trackOf (log.batches.takeWhile (·.lastOffset < offset))) pid := by
    intro offset
    have hl := hlaid
    rw [← takeWhile_append_dropWhile (p := fun b : Batch => decide (b.lastOffset < offset))
      (l := log.batches)] at hl
    exact entryOk_trackOf le_rfl (laid_append.mp hl).1 fun b hb =>
      hregular b (takeWhile_subset _ hb)
  have hvalid : ∀ (offset : ℤ) state, log.snapshots[offset]? = some state →
      offset ≤ log.logEndOffset → validSnapshot state := by
    intro offset state hget hle
    rw [hsnap.right offset state hget hle]
    exact validSnapshot_of_entryOk (hok offset)
  -- The rest of the replay, from an offset in the active segment.
  have hreplay : ∀ (next : ℤ) snapshots, log.active.base ≤ next →
      log.replay cfg (log.logEndOffset - next).toNat next []
        (trackOf (log.batches.takeWhile (·.lastOffset < next))) snapshots =
        .ok (trackOf log.batches, snapshots) := by
    intro next snapshots hge
    rw [replay_eq h hfits _ hge le_rfl, ← dropWhile_batches h hge, foldl_applyRecovered]
    · rw [takeWhile_append_dropWhile]
    · rwa [takeWhile_append_dropWhile]
    · rwa [takeWhile_append_dropWhile]
  obtain ⟨hkept, hlatest⟩ := latestAtOrBefore_spec hvalid
  have hbase_le : log.active.base ≤ log.logEndOffset := by
    rw [logEndOffset_active]
    exact h.active_laid.start_le_endOf
  unfold rebuild
  simp only [h.logStartOffset, hkept]
  rcases hlatest with ⟨hnone, habove⟩ | ⟨offset, state, hsome, hget, hle, hmax⟩
  · -- Without a snapshot there is only the active segment.
    have hsegs : log.segments = [] := by
      refine hanchor.resolve_right ?_
      rintro ⟨state, hget⟩
      exact absurd (habove _ state hget) (not_lt.mpr hbase_le)
    have hbase : log.active.base = 0 := by
      rw [h.active_base, sealedBatches, hsegs]
      rfl
    have hstart : log.batches.takeWhile (·.lastOffset < (0 : ℤ)) = [] := by
      rw [takeWhile_eq_nil_iff]
      intro hne hlt
      have hbase := hlaid.start_le_base _ (getElem_mem hne)
      have hlast := hbase.trans (log.batches[0]).base_le_last
      exact absurd hlast (not_le.mpr (by simpa using hlt))
    have htrack : trackOf (log.batches.takeWhile (·.lastOffset < (0 : ℤ))) = {} := by
      rw [hstart]
      rfl
    have hrep := fun snapshots => hreplay 0 snapshots hbase.le
    rw [htrack] at hrep
    simp only [hnone, boundaries_eq_nil h hbase.le, hrep]
    rfl
  · have hge : log.active.base ≤ offset := by
      rcases hanchor with hs | ⟨state', hget'⟩
      · rw [h.active_base, sealedBatches, hs]
        exact hsnap.nonneg offset state hget
      · exact hmax _ _ hget' hbase_le
    have hnext : max offset 0 = offset := max_eq_left (hsnap.nonneg offset state hget)
    have hstate : ofSnapshot state = trackOf (log.batches.takeWhile (·.lastOffset < offset)) := by
      rw [hsnap.right offset state hget hle, ofSnapshot_producerState (hok offset)]
    simp only [hsome, hnext, boundaries_eq_nil h hge, hstate, hreplay offset _ hge]
    rfl

end PartitionLog
end Crabka.Log
