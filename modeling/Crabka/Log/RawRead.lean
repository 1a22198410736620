import Crabka.Log.Recovery

/-!
# Raw reads

`Log::read_raw` of `crates/log/src/log.rs` over `Segment::read_raw_with_buffer_cap` of `segment.rs`. A segment is read
from the last index entry at or before the offset into a buffer, in which batches before the offset are skipped. It
gives nothing when the buffer ends in the skipped batches, the first wanted batch alone when it ends inside that one,
and as many as it holds otherwise (`Fills`, `RawSegment.readRaw_eq`).
-/

namespace Crabka.Log
open List

/-! ## The read -/

/-- `HEADER_LEN`, the bytes of a batch header. -/
def headerLen : ℕ := 61

/-- A segment as a read sees it. `index` holds the base offsets of the batches that have an entry in the
offset index; it is empty after a compaction. -/
structure RawSegment where
  base : ℤ
  lastOffset : ℤ
  batches : List Batch
  index : List ℤ
  deriving DecidableEq

/-- The log as a read sees it: the sealed segments, the active one and the log start. -/
structure RawLog where
  segments : List RawSegment
  active : RawSegment
  logStart : ℤ
  deriving DecidableEq

def bytesOf (bs : List Batch) : ℕ := (bs.map Batch.size).sum

/-- The walk over the buffer: batches before `offset` are skipped; it ends at the limit, at `maxBytes` and where the
buffer ends. A first batch that the buffer does not hold is read on its own. -/
def walkRaw (offset limit : ℤ) (maxBytes : ℕ) : List Batch → ℕ → ℕ → List Batch
  | [], _, _ => []
  | b :: bs, buffer, total =>
    if buffer < headerLen then []
    else if b.lastOffset < offset then walkRaw offset limit maxBytes bs (buffer - b.size) total
    else if limit ≤ b.baseOffset then []
    else if buffer < b.size then if total = 0 then [b] else []
    else b :: if maxBytes ≤ total + b.size then []
      else walkRaw offset limit maxBytes bs (buffer - b.size) (total + b.size)

namespace RawSegment
variable (seg : RawSegment)

/-- The batches from the position that `offset_index_lookup` gives: that of the last entry at or before
the offset, or the start of the file. -/
def floor (offset : ℤ) : List Batch :=
  match (seg.index.filter (· ≤ offset)).getLast? with
  | some entry => seg.batches.dropWhile (·.baseOffset < entry)
  | none => seg.batches

/-- `read_raw_with_buffer_cap`. -/
def readRaw (offset limit : ℤ) (maxSize : ℕ) : List Batch :=
  if seg.lastOffset < offset ∨ limit ≤ offset then []
  else walkRaw offset limit maxSize (seg.floor offset) (max maxSize headerLen) 0

end RawSegment

/-- The loop of `read_raw` over the sealed segments: the batches, the next offset and the budget that is
left. -/
def readSealedRaw (limit : ℤ) : List RawSegment → ℤ → ℕ → List Batch × ℤ × ℕ
  | [], current, remaining => ([], current, remaining)
  | seg :: segs, current, remaining =>
    if seg.lastOffset < current then readSealedRaw limit segs current remaining
    else
      match (seg.readRaw current limit (max remaining headerLen)).getLast? with
      | none => readSealedRaw limit segs current remaining
      | some last =>
        let bs := seg.readRaw current limit (max remaining headerLen)
        let left := remaining - bytesOf bs
        if left = 0 ∨ limit ≤ last.lastOffset + 1 then (bs, last.lastOffset + 1, left)
        else
          let rest := readSealedRaw limit segs (last.lastOffset + 1) left
          (bs ++ rest.1, rest.2)

namespace RawLog
variable (log : RawLog)

/-- `read_raw`: the batches whose bytes are returned. -/
def readRaw (fetchOffset limit : ℤ) (maxSize : ℕ) : Except LogError (List Batch) :=
  if fetchOffset < log.logStart then .error .offsetTooLow
  else if limit ≤ fetchOffset then .ok []
  else
    let (bs, current, remaining) := readSealedRaw limit log.segments fetchOffset maxSize
    if (0 < remaining ∨ bs = []) ∧ current < limit ∧ current ≤ log.active.lastOffset then
      .ok (bs ++ log.active.readRaw current limit (max remaining headerLen))
    else .ok bs

def batches : List Batch := (log.segments ++ [log.active]).flatMap RawSegment.batches

end RawLog

/-! ## Well-formed logs -/

def Ascending (bs : List Batch) : Prop := bs.Pairwise fun a b => a.lastOffset < b.baseOffset

/-- A segment: its batches are whole, its last offset is not before theirs, and index entries are for
its batches. -/
structure RawSegment.WellFormed (seg : RawSegment) : Prop where
  sizes : ∀ b ∈ seg.batches, headerLen ≤ b.size
  last : ∀ b ∈ seg.batches, b.lastOffset ≤ seg.lastOffset
  index : ∀ o ∈ seg.index, ∃ b ∈ seg.batches, b.baseOffset = o

/-- A log: the batches of its segments ascend. Offsets may be missing, as compaction and retention leave
it. -/
structure RawLog.WellFormed (log : RawLog) : Prop where
  segment : ∀ seg ∈ log.segments ++ [log.active], seg.WellFormed
  ascending : Ascending log.batches

def wanted (offset limit : ℤ) (bs : List Batch) : List Batch :=
  bs.filter fun b => offset ≤ b.lastOffset && b.baseOffset < limit

/-- The bytes between the index position and the first batch that is wanted. -/
def RawSegment.skipped (seg : RawSegment) (offset : ℤ) : ℕ :=
  bytesOf ((seg.floor offset).filter (·.lastOffset < offset))

/-- The buffer reaches the first wanted batch, and the segment is the last with wanted batches, or the first of them
or the first few exactly use up the budget, or they all fit (a single one always does) and the same holds for what
follows. -/
def Seamless (limit : ℤ) : List RawSegment → ℤ → ℕ → Prop
  | [], _, _ => True
  | seg :: segs, current, remaining =>
    match wanted current limit seg.batches with
    | [] => Seamless limit segs current remaining
    | b :: bs =>
      seg.skipped current + headerLen ≤ max remaining headerLen ∧
        (wanted current limit (segs.flatMap RawSegment.batches) = [] ∨
          remaining ≤ b.size ∨
          (seg.skipped current = 0 ∧ ∃ p, p <+: b :: bs ∧ bytesOf p = remaining) ∨
          ((bs = [] ∨ seg.skipped current + bytesOf (b :: bs) ≤ max remaining headerLen) ∧
            Seamless limit segs (((b :: bs).getLast?.map (·.lastOffset + 1)).getD current)
              (remaining - bytesOf (b :: bs))))

instance (l : List Batch) (n : ℕ) : Decidable (∃ p, p <+: l ∧ bytesOf p = n) :=
  decidable_of_iff (∃ p ∈ l.inits, bytesOf p = n) (by simp only [List.mem_inits])

instance decidableSeamless (limit : ℤ) :
    ∀ segs current remaining, Decidable (Seamless limit segs current remaining)
  | [], _, _ => .isTrue trivial
  | seg :: segs, current, remaining => by
    have := decidableSeamless limit segs
    unfold Seamless
    split <;> infer_instance

/-! ## One segment -/

section walk
variable {offset limit : ℤ} {maxBytes buffer total : ℕ} {sk bs : List Batch} {b : Batch}

lemma bytesOf_cons (b : Batch) (bs : List Batch) : bytesOf (b :: bs) = b.size + bytesOf bs := by
  simp [bytesOf]

lemma bytesOf_append (as bs : List Batch) : bytesOf (as ++ bs) = bytesOf as + bytesOf bs := by
  simp [bytesOf]

lemma walkRaw_of_lt (h : buffer < headerLen) : walkRaw offset limit maxBytes bs buffer total = [] := by
  cases bs with
  | nil => rfl
  | cons b bs => rw [walkRaw, if_pos h]

lemma walkRaw_skip (hsk : ∀ b ∈ sk, b.lastOffset < offset) :
    walkRaw offset limit maxBytes (sk ++ bs) buffer total =
      walkRaw offset limit maxBytes bs (buffer - bytesOf sk) total := by
  induction sk generalizing buffer with
  | nil => rfl
  | cons b sk ih =>
    obtain ⟨hb, hsk⟩ := forall_mem_cons.mp hsk
    rw [cons_append, walkRaw, bytesOf_cons]
    by_cases hshort : buffer < headerLen
    · rw [if_pos hshort]
      exact (walkRaw_of_lt (by omega)).symm
    · rw [if_neg hshort, if_pos hb, ih hsk, Nat.sub_sub]

/-- The walk over wanted batches takes as many as the buffer holds. -/
structure Fills (E : List Batch) (buffer : ℕ) (r : List Batch) : Prop where
  isPrefix : r <+: E
  fits : bytesOf r ≤ buffer
  longest : ∀ p, p <+: E → bytesOf p ≤ buffer → p <+: r

lemma walkRaw_fills (hfirst : ∀ b ∈ bs, offset ≤ b.lastOffset) (hasc : Ascending bs)
    (hsizes : ∀ b ∈ bs, headerLen ≤ b.size) (hmax : total + buffer ≤ maxBytes)
    (hhead : 0 < total ∨ ∀ b ∈ (wanted offset limit bs).head?, b.size ≤ buffer) :
    Fills (wanted offset limit bs) buffer (walkRaw offset limit maxBytes bs buffer total) := by
  induction bs generalizing buffer total with
  | nil => exact ⟨prefix_rfl, Nat.zero_le _, fun p hp _ => hp⟩
  | cons b bs ih =>
    obtain ⟨hb, hbs⟩ := forall_mem_cons.mp hfirst
    obtain ⟨hlt, hasc⟩ := pairwise_cons.mp hasc
    obtain ⟨hsize, hsizes⟩ := forall_mem_cons.mp hsizes
    by_cases hlim : limit ≤ b.baseOffset
    · -- Past the limit nothing is wanted.
      have hnil : wanted offset limit (b :: bs) = [] := by
        refine filter_eq_nil_iff.mpr fun x hx => ?_
        have hx' : limit ≤ x.baseOffset := by
          rcases mem_cons.mp hx with rfl | hx
          · exact hlim
          · have := hlt x hx
            have := b.base_le_last
            omega
        simp [not_lt.mpr hx']
      have hwalk : walkRaw offset limit maxBytes (b :: bs) buffer total = [] := by
        rw [walkRaw, if_neg (not_lt.mpr hb), if_pos hlim]
        split <;> rfl
      rw [hnil, hwalk]
      exact ⟨prefix_rfl, Nat.zero_le _, fun p hp _ => hp⟩
    · have hcons : wanted offset limit (b :: bs) = b :: wanted offset limit bs := by
        simp [wanted, hb, not_le.mp hlim]
      rw [hcons]
      rw [hcons] at hhead
      by_cases hfit : b.size ≤ buffer
      · have hwalk : walkRaw offset limit maxBytes (b :: bs) buffer total =
            b :: walkRaw offset limit maxBytes bs (buffer - b.size) (total + b.size) := by
          rw [walkRaw, if_neg (by omega), if_neg (not_lt.mpr hb), if_neg hlim, if_neg (not_lt.mpr hfit)]
          split
          · -- The budget is used up exactly when the buffer is.
            rw [walkRaw_of_lt (by unfold headerLen at *; omega)]
          · rfl
        rw [hwalk]
        have hpos : 0 < b.size := lt_of_lt_of_le (by decide) hsize
        have hrest : Fills (wanted offset limit bs) (buffer - b.size) _ :=
          ih hbs hasc hsizes (show total + b.size + (buffer - b.size) ≤ maxBytes by omega) (.inl (by omega))
        refine ⟨(cons_prefix_cons).mpr ⟨rfl, hrest.isPrefix⟩, ?_, fun p hp hle => ?_⟩
        · have := hrest.fits
          rw [bytesOf_cons]
          omega
        · cases p with
          | nil => exact nil_prefix
          | cons x p =>
            obtain ⟨rfl, hp'⟩ := cons_prefix_cons.mp hp
            rw [bytesOf_cons] at hle
            exact cons_prefix_cons.mpr ⟨rfl, hrest.longest p hp' (by omega)⟩
      · have htotal : 0 < total := hhead.resolve_right fun h => hfit (h b rfl)
        have hwalk : walkRaw offset limit maxBytes (b :: bs) buffer total = [] := by
          rw [walkRaw]
          by_cases hshort : buffer < headerLen
          · rw [if_pos hshort]
          · rw [if_neg hshort, if_neg (not_lt.mpr hb), if_neg hlim, if_pos (not_le.mp hfit),
              if_neg (by omega)]
        rw [hwalk]
        refine ⟨ nil_prefix, Nat.zero_le _, fun p hp hle => ?_⟩
        cases p with
        | nil => exact nil_prefix
        | cons x p =>
          obtain ⟨rfl, -⟩ := cons_prefix_cons.mp hp
          rw [bytesOf_cons] at hle
          omega

lemma filter_split (hasc : Ascending bs) :
    bs = bs.filter (·.lastOffset < offset) ++ bs.filter (offset ≤ ·.lastOffset) := by
  induction bs with
  | nil => rfl
  | cons b bs ih =>
    obtain ⟨hlt, hasc⟩ := pairwise_cons.mp hasc
    by_cases hb : b.lastOffset < offset
    · rw [filter_cons_of_pos (by simpa using hb), filter_cons_of_neg (by simpa using hb),
        cons_append, ← ih hasc]
    · have hnone : (b :: bs).filter (·.lastOffset < offset) = [] := by
        refine filter_eq_nil_iff.mpr fun x hx => ?_
        rcases mem_cons.mp hx with rfl | hx
        · simpa using hb
        · have := hlt x hx
          have := x.base_le_last
          simp only [decide_eq_true_eq]
          omega
      have hall : (b :: bs).filter (offset ≤ ·.lastOffset) = b :: bs := by
        refine filter_eq_self.mpr fun x hx => ?_
        rcases mem_cons.mp hx with rfl | hx
        · simpa using hb
        · have := hlt x hx
          have := x.base_le_last
          simp only [decide_eq_true_eq]
          omega
      rw [hnone, hall]
      rfl

end walk
namespace RawSegment
variable {seg : RawSegment} {offset limit : ℤ}

lemma floor_suffix (seg : RawSegment) (offset : ℤ) : seg.floor offset <:+ seg.batches := by
  unfold floor
  split
  · exact dropWhile_suffix _
  · exact suffix_rfl

lemma wanted_floor (h : seg.WellFormed) (hasc : Ascending seg.batches) :
    wanted offset limit (seg.floor offset) = wanted offset limit seg.batches := by
  unfold floor
  split
  · rename_i entry hentry
    have hmem := mem_of_getLast? hentry
    obtain ⟨hin, hle⟩ := mem_filter.mp hmem
    have hle' : entry ≤ offset := by simpa using hle
    obtain ⟨x, hx, hxo⟩ := h.index entry hin
    have hsplit : seg.batches.takeWhile (·.baseOffset < entry) ++
        seg.batches.dropWhile (·.baseOffset < entry) = seg.batches := takeWhile_append_dropWhile
    have hpair : Ascending (seg.batches.takeWhile (·.baseOffset < entry) ++
        seg.batches.dropWhile (·.baseOffset < entry)) := by rwa [hsplit]
    have hx' : x ∈ seg.batches.dropWhile (·.baseOffset < entry) := by
      rw [← hsplit] at hx
      refine (mem_append.mp hx).resolve_left fun hin => ?_
      have hlt : x.baseOffset < entry := by simpa using mem_takeWhile_imp hin
      omega
    -- The batch of the entry is behind everything that is dropped.
    have hnil : wanted offset limit (seg.batches.takeWhile (·.baseOffset < entry)) = [] := by
      refine filter_eq_nil_iff.mpr fun b hb => ?_
      have hlt := (pairwise_append.mp hpair).2.2 b hb x hx'
      have hnot : ¬ offset ≤ b.lastOffset := by omega
      simp [hnot]
    conv_rhs => rw [← hsplit]
    rw [wanted, wanted, filter_append]
    rw [wanted] at hnil
    rw [hnil, nil_append]
  · rfl

variable {budget : ℕ}
section
variable (h : seg.WellFormed)
include h
section
variable (hasc : Ascending seg.batches)
include hasc

/-- With `budget` bytes left a read takes nothing when the buffer does not reach the first wanted batch, that batch
alone when the buffer does not hold it, and what it holds otherwise. -/
lemma readRaw_eq (hlimit : offset < limit) (hbudget : headerLen ≤ budget) :
    (budget < seg.skipped offset + headerLen → seg.readRaw offset limit budget = []) ∧
      (seg.skipped offset + headerLen ≤ budget → ∀ b ∈ (wanted offset limit seg.batches).head?,
        budget < seg.skipped offset + b.size → seg.readRaw offset limit budget = [b]) ∧
      (seg.skipped offset + headerLen ≤ budget →
        (∀ b ∈ (wanted offset limit seg.batches).head?, seg.skipped offset + b.size ≤ budget) →
        Fills (wanted offset limit seg.batches) (budget - seg.skipped offset)
          (seg.readRaw offset limit budget)) := by
  have hfloor := seg.floor_suffix offset
  have hascf : Ascending (seg.floor offset) := hasc.sublist hfloor.sublist
  obtain ⟨rest, hdef⟩ : ∃ rest, rest = (seg.floor offset).filter (offset ≤ ·.lastOffset) := ⟨_, rfl⟩
  have hsizes : ∀ b ∈ rest, headerLen ≤ b.size :=
    fun b hb => h.sizes b (hfloor.mem (mem_of_mem_filter (hdef ▸ hb)))
  have hfirst : ∀ b ∈ rest, offset ≤ b.lastOffset := fun b hb => by
    rw [hdef] at hb
    simpa using (mem_filter.mp hb).2
  have hascr : Ascending rest := hdef ▸ hascf.filter _
  have hwanted : wanted offset limit rest = wanted offset limit seg.batches := by
    rw [← wanted_floor h hasc, hdef]
    unfold wanted
    rw [filter_filter]
    refine filter_congr fun b _ => ?_
    cases decide (offset ≤ b.lastOffset) <;> simp
  by_cases hlast : seg.lastOffset < offset
  · -- The segment ends before the offset.
    have hnil : wanted offset limit seg.batches = [] := by
      refine filter_eq_nil_iff.mpr fun b hb => ?_
      have := h.last b hb
      have hnot : ¬ offset ≤ b.lastOffset := by omega
      simp [hnot]
    have hread : seg.readRaw offset limit budget = [] := by rw [readRaw, if_pos (.inl hlast)]
    rw [hread, hnil]
    refine ⟨fun _ => rfl, fun _ b hb => ?_, fun _ _ => ?_⟩
    · cases hb
    · exact ⟨prefix_rfl, Nat.zero_le _, fun p hp _ => hp⟩
  · have hread : seg.readRaw offset limit budget =
        walkRaw offset limit budget rest (budget - seg.skipped offset) 0 := by
      rw [readRaw, if_neg (by omega), max_eq_left hbudget]
      have hsplit : seg.floor offset = (seg.floor offset).filter (·.lastOffset < offset) ++ rest := hdef ▸ filter_split hascf
      conv_lhs => rw [hsplit]
      exact walkRaw_skip fun b hb => by simpa using (mem_filter.mp hb).2
    rw [hread]
    have hpos : 0 < headerLen := by decide
    refine ⟨fun hshort => walkRaw_of_lt (by omega), fun hreach b hb hbig => ?_, fun hreach hhead => ?_⟩
    · -- The buffer ends inside the first wanted batch.
      rw [← hwanted] at hb
      cases rest with
      | nil => cases hb
      | cons x xs =>
        have hx : offset ≤ x.lastOffset := hfirst x mem_cons_self
        by_cases hlim : limit ≤ x.baseOffset
        · have hnil : wanted offset limit (x :: xs) = [] := by
            refine filter_eq_nil_iff.mpr fun y hy => ?_
            have hy' : limit ≤ y.baseOffset := by
              rcases mem_cons.mp hy with rfl | hy
              · exact hlim
              · have := (pairwise_cons.mp hascr).1 y hy
                have := x.base_le_last
                omega
            simp [not_lt.mpr hy']
          rw [hnil] at hb
          cases hb
        · have hxb : x = b := by
            have hcons : wanted offset limit (x :: xs) = x :: wanted offset limit xs := by
              simp [wanted, hx, not_le.mp hlim]
            rw [hcons] at hb
            exact Option.some.inj hb
          subst hxb
          rw [walkRaw, if_neg (by omega), if_neg (not_lt.mpr hx), if_neg hlim, if_pos (by omega), if_pos rfl]
    · rw [← hwanted]
      refine walkRaw_fills hfirst hascr hsizes (by omega) (.inr fun b hb => ?_)
      rw [hwanted] at hb
      have := hhead b hb
      omega

lemma readRaw_prefix (hlimit : offset < limit) (hbudget : headerLen ≤ budget) :
    seg.readRaw offset limit budget <+: wanted offset limit seg.batches := by
  obtain ⟨hshort, hbig, hfill⟩ := seg.readRaw_eq h hasc hlimit hbudget
  by_cases hreach : seg.skipped offset + headerLen ≤ budget
  · cases hE : wanted offset limit seg.batches with
    | nil =>
      rw [hE] at hfill
      exact (hfill hreach fun b hb => by cases hb).isPrefix
    | cons b bs =>
      rw [hE] at hbig hfill
      by_cases hb : seg.skipped offset + b.size ≤ budget
      · exact (hfill hreach fun x hx => Option.some.inj hx ▸ hb).isPrefix
      · rw [hbig hreach b rfl (not_le.mp hb)]
        exact ⟨bs, rfl⟩
  · rw [hshort (not_le.mp hreach)]
    exact nil_prefix

lemma readRaw_ne_nil (hlimit : offset < limit)
    (hbudget : headerLen ≤ budget) (hreach : seg.skipped offset + headerLen ≤ budget)
    (hne : wanted offset limit seg.batches ≠ []) : seg.readRaw offset limit budget ≠ [] := by
  obtain ⟨-, hbig, hfill⟩ := seg.readRaw_eq h hasc hlimit hbudget
  cases hE : wanted offset limit seg.batches with
  | nil => exact absurd hE hne
  | cons b bs =>
    rw [hE] at hbig hfill
    by_cases hb : seg.skipped offset + b.size ≤ budget
    · have hlong := (hfill hreach fun x hx => Option.some.inj hx ▸ hb).longest [b] ⟨bs, rfl⟩ (by
        rw [bytesOf_cons]
        simp only [bytesOf, map_nil, sum_nil]
        omega)
      intro hnil
      rw [hnil] at hlong
      exact absurd (prefix_nil.mp hlong) (cons_ne_nil _ _)
    · rw [hbig hreach b rfl (not_le.mp hb)]
      exact cons_ne_nil _ _

end
omit h in
lemma skipped_eq_zero (hall : ∀ b ∈ seg.batches, offset ≤ b.lastOffset) : seg.skipped offset = 0 := by
  unfold skipped
  rw [filter_eq_nil_iff.mpr fun b hb => ?_]
  · rfl
  · have := hall b ((seg.floor_suffix offset).mem hb)
    simpa using this

lemma budget_le_iff (hasc : Ascending seg.batches) (hlimit : offset < limit)
    {remaining : ℕ} (hreach : seg.skipped offset + headerLen ≤ max remaining headerLen) {b : Batch}
    {bs : List Batch} (hE : wanted offset limit seg.batches = b :: bs) :
    remaining ≤ bytesOf (seg.readRaw offset limit (max remaining headerLen)) ↔
      remaining ≤ b.size ∨ (seg.skipped offset = 0 ∧ ∃ p, p <+: b :: bs ∧ bytesOf p = remaining) := by
  obtain ⟨-, hbig, hfill⟩ := seg.readRaw_eq h hasc hlimit (le_max_right remaining headerLen)
  rw [hE] at hbig hfill
  have hprefix : ∀ {p r : List Batch}, p <+: r → bytesOf p ≤ bytesOf r := by
    rintro p r ⟨t, rfl⟩
    rw [bytesOf_append]
    omega
  have hone : bytesOf [b] = b.size := by simp [bytesOf]
  have hsize : headerLen ≤ b.size := h.sizes b (mem_of_mem_filter (hE ▸ mem_cons_self))
  by_cases hb : seg.skipped offset + b.size ≤ max remaining headerLen
  · have hf := hfill hreach fun x hx => Option.some.inj hx ▸ hb
    have hfits := hf.fits
    constructor
    · intro hle
      by_cases hsmall : remaining < headerLen
      · exact .inl (by omega)
      · exact .inr ⟨by omega, _, hf.isPrefix, by omega⟩
    · rintro (hle | ⟨hzero, p, hp, hpb⟩)
      · have := hprefix (hf.longest [b] ⟨bs, rfl⟩ (by omega))
        omega
      · have := hprefix (hf.longest p hp (by omega))
        omega
  · rw [hbig hreach b rfl (not_le.mp hb), hone]
    constructor
    · exact .inl
    · rintro (hle | ⟨hzero, p, hp, hpb⟩)
      · exact hle
      · omega

lemma readRaw_full (hasc : Ascending seg.batches) (hlimit : offset < limit)
    (hbudget : headerLen ≤ budget) (hreach : seg.skipped offset + headerLen ≤ budget)
    {b : Batch} {bs : List Batch} (hE : wanted offset limit seg.batches = b :: bs) :
    seg.readRaw offset limit budget = b :: bs ↔ bs = [] ∨ seg.skipped offset + bytesOf (b :: bs) ≤ budget := by
  obtain ⟨-, hbig, hfill⟩ := seg.readRaw_eq h hasc hlimit hbudget
  have hpre := readRaw_prefix h hasc hlimit hbudget
  have hne := readRaw_ne_nil h hasc hlimit hbudget hreach (hE ▸ cons_ne_nil b bs)
  rw [hE] at hbig hfill hpre
  have hcons := bytesOf_cons b bs
  by_cases hb : seg.skipped offset + b.size ≤ budget
  · have hf := hfill hreach fun x hx => Option.some.inj hx ▸ hb
    constructor
    · intro heq
      have := hf.fits
      rw [heq] at this
      exact .inr (by omega)
    · intro hor
      have hle : bytesOf (b :: bs) ≤ budget - seg.skipped offset := by
        rcases hor with rfl | hle
        · simp only [bytesOf, map_nil, sum_nil] at hcons
          unfold bytesOf
          omega
        · omega
      exact List.IsPrefix.eq_of_length_le hpre (hf.longest _ prefix_rfl hle).length_le
  · rw [hbig hreach b rfl (not_le.mp hb)]
    constructor
    · intro heq
      exact .inl (List.cons.inj heq).2.symm
    · rintro (rfl | hle)
      · rfl
      · omega

end
end RawSegment
end Crabka.Log
