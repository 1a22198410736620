import Crabka.Found.Maps
import Crabka.Found.Runs

/-!
# The remote metadata cache

`crates/remote-storage/src/cache.rs` for one partition. A finished segment is indexed under each of its leader epochs
and the offset where the epoch starts in it; a lookup takes the last start at or below the offset, and checks the end
of the segment only. The answers are right as long as a segment has one epoch and overlaps no finished segment of
this epoch (`answers_of_run`), but not at the offsets that a segment has under a later epoch, nor after a segment
has taken the slot of another (`segmentFor_laterEpoch`).
-/

namespace Crabka.Broker

open Std (ExtTreeMap)
open Crabka.Found
open List hiding getElem?_insert getElem?_filter

/-- The life of a segment in the tier. -/
inductive RemoteLogSegmentState where
  | copySegmentStarted | copySegmentFinished | deleteSegmentStarted | deleteSegmentFinished
  deriving DecidableEq

def RemoteLogSegmentState.isValidTransition : RemoteLogSegmentState → RemoteLogSegmentState → Bool
  | .copySegmentStarted, .copySegmentFinished | .copySegmentStarted, .deleteSegmentStarted => true
  | .copySegmentFinished, .deleteSegmentStarted | .deleteSegmentStarted, .deleteSegmentFinished => true
  | _, _ => false

/-- What the cache reads of the metadata of a segment. -/
structure SegmentMetadata where
  id : ℕ
  endOffset : ℤ
  /-- The epochs in ascending order, each with its first offset. -/
  segmentLeaderEpochs : List (ℤ × ℤ)
  state : RemoteLogSegmentState := .copySegmentStarted
  deriving DecidableEq

namespace SegmentMetadata

variable (md : SegmentMetadata)

def finished : Bool := md.state = .copySegmentFinished

/-- The last offset under an epoch. -/
def epochEnd (epoch : ℤ) : ℤ :=
  ((md.segmentLeaderEpochs.find? (epoch < ·.1)).map (·.2 - 1)).getD md.endOffset

def Holds (epoch offset : ℤ) : Prop :=
  ∃ start, (epoch, start) ∈ md.segmentLeaderEpochs ∧ start ≤ offset ∧ offset ≤ md.epochEnd epoch

end SegmentMetadata

/-- `RemoteLogMetadataCache`. The maps of the epochs are one map, by epoch and start offset. -/
structure MetadataCache where
  idToMetadata : ExtTreeMap ℕ SegmentMetadata := ∅
  epochToOffsetToId : ExtTreeMap (ℤ × ℤ) ℕ := ∅

/-- The calls that change the cache. -/
inductive CacheCall where
  | add (md : SegmentMetadata)
  | update (id : ℕ) (state : RemoteLogSegmentState)

namespace MetadataCache

variable (c : MetadataCache) (md : SegmentMetadata)

def indexEpochs : ExtTreeMap (ℤ × ℤ) ℕ :=
  if md.finished then md.segmentLeaderEpochs.foldl (·.insert · md.id) c.epochToOffsetToId else c.epochToOffsetToId

/-- The slots that still point at the segment are removed. -/
def deindexEpochs : ExtTreeMap (ℤ × ℤ) ℕ :=
  c.epochToOffsetToId.filter fun slot id => !(md.segmentLeaderEpochs.any (· = slot) && id = md.id)

def put : MetadataCache := ⟨c.idToMetadata.insert md.id md, c.indexEpochs md⟩

def add : MetadataCache :=
  if md.state ≠ .copySegmentStarted || c.idToMetadata.contains md.id then c else c.put md

def update (id : ℕ) (state : RemoteLogSegmentState) : MetadataCache := match c.idToMetadata[id]? with
  | none => c
  | some existing =>
    if !existing.state.isValidTransition state then c
    else
      let updated := { existing with state }
      match state with
      | .copySegmentStarted | .copySegmentFinished => c.put updated
      | .deleteSegmentStarted => ⟨c.idToMetadata.insert id updated, c.deindexEpochs updated⟩
      | .deleteSegmentFinished => ⟨c.idToMetadata.erase id, c.deindexEpochs updated⟩

def segmentFor (epoch offset : ℤ) : Option SegmentMetadata :=
  ((c.epochToOffsetToId.toList.filter fun x => x.1.1 = epoch ∧ x.1.2 ≤ offset).maxOn? (·.1.2)).bind fun x =>
    c.idToMetadata[x.2]?.filter fun md => md.finished ∧ offset ≤ md.endOffset

def highestOffsetForEpoch (epoch : ℤ) : Option ℤ :=
  ((c.epochToOffsetToId.toList.filter (·.1.1 = epoch)).filterMap fun x =>
    c.idToMetadata[x.2]?.map (·.endOffset)).max?

/-- `seed` of an empty cache, with the segments of a dump. -/
def seed (segments : List SegmentMetadata) : MetadataCache :=
  (segments.filter (·.state ≠ .deleteSegmentFinished)).foldl put {}

def cacheSys : Sys MetadataCache CacheCall where
  enabled _ _ := True
  next c
    | .add md => c.add md
    | .update id state => c.update id state

instance (c : MetadataCache) (l : CacheCall) : Decidable (cacheSys.enabled c l) := .isTrue trivial

/-- A segment that can be read. -/
def Live : Prop := c.idToMetadata[md.id]? = some md ∧ md.finished

/-- Live segments have one epoch each, and no two of one epoch have an offset in common. -/
def Clean : Prop := ∀ md, c.Live md → ∃ epoch start, md.segmentLeaderEpochs = [(epoch, start)] ∧ start ≤ md.endOffset ∧
  ∀ md' start', c.Live md' → md'.segmentLeaderEpochs = [(epoch, start')] →
    md = md' ∨ md.endOffset < start' ∨ md'.endOffset < start

/-- The slots of the index are those of the live segments. -/
structure Indexed : Prop where
  ids : ∀ (id : ℕ) md, c.idToMetadata[id]? = some md → md.id = id
  slots : ∀ (slot : ℤ × ℤ) id,
    c.epochToOffsetToId[slot]? = some id ↔ ∃ md, c.Live md ∧ md.id = id ∧ md.segmentLeaderEpochs = [slot]

variable {c md} {x : SegmentMetadata} {epoch offset : ℤ}

lemma Clean.slot_inj (h : c.Clean) {slot : ℤ × ℤ} (hmd : c.Live md) (hx : c.Live x)
    (hmde : md.segmentLeaderEpochs = [slot]) (hxe : x.segmentLeaderEpochs = [slot]) : md = x := by
  obtain ⟨epoch, start, heq, hle, hapart⟩ := h md hmd
  obtain ⟨_, _, heq', hle', -⟩ := h x hx
  cases hmde.symm.trans heq
  cases hxe.symm.trans heq'
  exact (hapart x start hx hxe).resolve_right (by omega)

section put

variable (hold : ∀ old, c.idToMetadata[md.id]? = some old → old.finished = false)

include hold

lemma live_put : (c.put md).Live x ↔ x = md ∧ md.finished ∨ c.Live x := by
  simp only [Live, put, getElem?_insert]
  split_ifs with hid
  · have hnot : ¬(c.idToMetadata[x.id]? = some x ∧ x.finished = true) := fun hx => by
      simp [hold x (hid ▸ hx.1)] at hx
    rw [or_iff_left hnot, Option.some_inj, eq_comm]
    exact and_congr_right fun heq => by rw [heq]
  · exact ⟨.inr, fun hx => hx.resolve_left fun heq => hid (heq.1 ▸ rfl)⟩

lemma Indexed.put (h : c.Indexed) (hclean : (c.put md).Clean) : (c.put md).Indexed where
  ids := fun id x hx => by
    simp only [MetadataCache.put, getElem?_insert] at hx
    split_ifs at hx with hid
    · cases hx
      exact hid.symm
    · exact h.ids id x hx
  slots := fun slot id => by
    simp only [live_put hold]
    simp only [MetadataCache.put, indexEpochs]
    by_cases hf : md.finished = true
    · have hmd : (c.put md).Live md := (live_put hold).mpr (.inl ⟨rfl, hf⟩)
      obtain ⟨epoch, start, heq, -⟩ := hclean md hmd
      simp only [hf, if_true, and_true, heq, foldl_cons, foldl_nil, getElem?_insert]
      split_ifs with hslot
      · subst hslot
        refine ⟨fun hid => ⟨md, .inl rfl, Option.some.inj hid, heq⟩, ?_⟩
        rintro ⟨x, hx, rfl, hxe⟩
        rw [hclean.slot_inj hmd ((live_put hold).mpr (by simpa [hf] using hx)) heq hxe]
      · rw [h.slots]
        refine exists_congr fun x => and_congr_left fun hx => (or_iff_right ?_).symm
        rintro rfl
        exact hslot (singleton_inj.mp (heq.symm.trans hx.2)).symm
    · simp [hf, h.slots]

end put

/-- A segment is taken out of the index, and is not live any more. -/
lemma Indexed.deindex (h : c.Indexed) {old : SegmentMetadata} (hold : c.idToMetadata[md.id]? = some old)
    (hepochs : old.segmentLeaderEpochs = md.segmentLeaderEpochs) {m : ExtTreeMap ℕ SegmentMetadata}
    (hids : ∀ (id : ℕ) (x : SegmentMetadata), m[id]? = some x → x.id = id)
    (hlive : ∀ x, Live ⟨m, c.deindexEpochs md⟩ x ↔ c.Live x ∧ x.id ≠ md.id) : Indexed ⟨m, c.deindexEpochs md⟩ where
  ids := hids
  slots := fun slot id => by
    simp only [hlive]
    simp only [deindexEpochs, getElem?_filter, Option.filter_eq_some_iff, h.slots]
    constructor
    · rintro ⟨⟨x, hx, rfl, hxe⟩, hne⟩
      refine ⟨x, ⟨hx, fun hid => ?_⟩, rfl, hxe⟩
      cases hold.symm.trans (hid ▸ hx.1)
      simp [← hepochs, hxe, hid] at hne
    · rintro ⟨x, ⟨hx, hid⟩, rfl, hxe⟩
      exact ⟨⟨x, hx, rfl, hxe⟩, by simp [hid]⟩

lemma Indexed.update (h : c.Indexed) {id : ℕ} {state : RemoteLogSegmentState} (hclean : (c.update id state).Clean) :
    (c.update id state).Indexed := by
  unfold MetadataCache.update at hclean ⊢
  cases hold : c.idToMetadata[id]? with
  | none => exact h
  | some old =>
    obtain rfl := h.ids id old hold
    simp only [hold] at hclean ⊢
    split_ifs at hclean ⊢ with hvalid
    · exact h
    · have hput : state = .copySegmentStarted ∨ state = .copySegmentFinished → old.finished = false := by
        rcases old with ⟨_, _, _, _ | _ | _ | _⟩ <;> cases state <;> simp_all [RemoteLogSegmentState.isValidTransition, SegmentMetadata.finished]
      cases state with
      | copySegmentStarted => exact h.put (fun x hx => by cases hold.symm.trans hx; exact hput (.inl rfl)) hclean
      | copySegmentFinished => exact h.put (fun x hx => by cases hold.symm.trans hx; exact hput (.inr rfl)) hclean
      | deleteSegmentStarted =>
        refine h.deindex hold rfl (fun id x hx => ?_) fun x => ?_
        · grind [getElem?_insert, h.ids]
        · simp only [Live, getElem?_insert]
          grind [SegmentMetadata.finished]
      | deleteSegmentFinished =>
        refine h.deindex hold rfl (fun id x hx => ?_) fun x => ?_
        · grind [getElem?_erase, h.ids]
        · simp only [Live, getElem?_erase]
          grind

/-- Every call keeps the index, as long as the live segments are clean. -/
lemma Indexed.next (h : c.Indexed) {l : CacheCall} (hclean : (cacheSys.next c l).Clean) : (cacheSys.next c l).Indexed := by
  cases l with
  | update id state => exact h.update hclean
  | add md =>
    simp only [cacheSys, add] at hclean ⊢
    split_ifs at hclean ⊢ with hno
    · exact h
    · refine h.put (fun old hold => ?_) hclean
      simp [hold, ExtTreeMap.contains_eq_isSome_getElem?] at hno

lemma holds_iff {slot : ℤ × ℤ} (h : md.segmentLeaderEpochs = [slot]) :
    md.Holds epoch offset ↔ slot.1 = epoch ∧ slot.2 ≤ offset ∧ offset ≤ md.endOffset := by
  obtain ⟨e, start⟩ := slot
  simp only [SegmentMetadata.Holds, h, mem_singleton, Prod.mk.injEq, SegmentMetadata.epochEnd]
  constructor
  · rintro ⟨_, ⟨rfl, rfl⟩, hle, hend⟩
    exact ⟨rfl, hle, by simpa using hend⟩
  · rintro ⟨rfl, hle, hend⟩
    exact ⟨start, ⟨rfl, rfl⟩, hle, by simpa using hend⟩

section answers

variable (h : c.Indexed) (hclean : c.Clean)

include h hclean

/-- The lookup finds exactly the live segment that holds the offset. -/
lemma segmentFor_eq_some : c.segmentFor epoch offset = some md ↔ c.Live md ∧ md.Holds epoch offset := by
  have hmem : ∀ y, y ∈ c.epochToOffsetToId.toList.filter (fun y => y.1.1 = epoch ∧ y.1.2 ≤ offset) ↔
      (∃ md, c.Live md ∧ md.id = y.2 ∧ md.segmentLeaderEpochs = [y.1]) ∧ y.1.1 = epoch ∧ y.1.2 ≤ offset := by
    intro y
    rw [mem_filter, mem_toList, h.slots, decide_eq_true_eq]
  unfold segmentFor
  simp only [Option.bind_eq_some_iff, Option.filter_eq_some_iff, decide_eq_true_eq]
  constructor
  · rintro ⟨y, hy, hget, hf, hle⟩
    obtain ⟨⟨md', hlive, hid, heq⟩, hepoch, hstart⟩ := (hmem y).mp (List.maxOn?_mem hy)
    cases hget.symm.trans (hid ▸ hlive.1)
    exact ⟨hlive, (holds_iff heq).mpr ⟨hepoch, hstart, hle⟩⟩
  · rintro ⟨hlive, hholds⟩
    obtain ⟨e, start, heq, hle, hapart⟩ := hclean md hlive
    obtain ⟨rfl, hstart, hend⟩ := (holds_iff heq).mp hholds
    have hin := (hmem ((e, start), md.id)).mpr ⟨⟨md, hlive, rfl, heq⟩, rfl, hstart⟩
    have hmax := List.le_apply_get_maxOn?_of_mem (f := fun y : (ℤ × ℤ) × ℕ => y.1.2) hin
    obtain ⟨y, hy⟩ := Option.isSome_iff_exists.mp (List.isSome_maxOn?_of_mem (f := fun y : (ℤ × ℤ) × ℕ => y.1.2) hin)
    simp only [hy, Option.get_some] at hmax
    obtain ⟨⟨md', hlive', hid, heq'⟩, hepoch, hstart'⟩ := (hmem y).mp (List.maxOn?_mem hy)
    obtain ⟨⟨e', start'⟩, id⟩ := y
    obtain rfl : e' = e := hepoch
    obtain ⟨_, _, hsame, hle', -⟩ := hclean md' hlive'
    cases heq'.symm.trans hsame
    -- The last start at or below the offset is in the segment, so that the two overlap.
    obtain rfl := (hapart md' start' hlive' heq').resolve_right (by simp only at *; omega)
    exact ⟨_, hy, hid ▸ hlive.1, hlive.2, hend⟩

/-- The highest offset is the largest one that a live segment holds. -/
lemma highestOffsetForEpoch_eq_some : c.highestOffsetForEpoch epoch = some offset ↔
    IsGreatest {o | ∃ md, c.Live md ∧ md.Holds epoch o} offset := by
  have hmem : ∀ o, o ∈ (c.epochToOffsetToId.toList.filter (·.1.1 = epoch)).filterMap
      (fun x => c.idToMetadata[x.2]?.map (·.endOffset)) ↔
      ∃ md start, c.Live md ∧ md.segmentLeaderEpochs = [(epoch, start)] ∧ md.endOffset = o := by
    intro o
    simp only [mem_filterMap, mem_filter, decide_eq_true_eq, Option.map_eq_some_iff, Prod.exists, mem_toList, h.slots]
    constructor
    · rintro ⟨e, start, id, ⟨⟨md, hlive, rfl, heq⟩, rfl⟩, md', hget, rfl⟩
      cases hget.symm.trans hlive.1
      exact ⟨_, start, hlive, heq, rfl⟩
    · rintro ⟨md, start, hlive, heq, rfl⟩
      exact ⟨epoch, start, md.id, ⟨⟨md, hlive, rfl, heq⟩, rfl⟩, md, hlive.1, rfl⟩
  rw [highestOffsetForEpoch, max?_eq_some_iff]
  have hend : ∀ {md start}, c.Live md → md.segmentLeaderEpochs = [(epoch, start)] → md.Holds epoch md.endOffset := by
    intro md start hlive heq
    obtain ⟨_, _, hsame, hle, -⟩ := hclean md hlive
    cases heq.symm.trans hsame
    exact (holds_iff heq).mpr ⟨rfl, hle, le_rfl⟩
  have hheld : ∀ {md o}, c.Live md → md.Holds epoch o →
      (∃ start, md.segmentLeaderEpochs = [(epoch, start)]) ∧ o ≤ md.endOffset := by
    intro md o hlive hholds
    obtain ⟨e, start, heq, -⟩ := hclean md hlive
    obtain ⟨rfl, -, hle⟩ := (holds_iff heq).mp hholds
    exact ⟨⟨start, heq⟩, hle⟩
  constructor
  · rintro ⟨hin, hmax⟩
    obtain ⟨md, start, hlive, heq, rfl⟩ := (hmem offset).mp hin
    refine ⟨⟨md, hlive, hend hlive heq⟩, ?_⟩
    rintro o ⟨md', hlive', hholds⟩
    obtain ⟨⟨start', heq'⟩, hle⟩ := hheld hlive' hholds
    exact hle.trans (hmax _ ((hmem _).mpr ⟨md', start', hlive', heq', rfl⟩))
  · rintro ⟨⟨md, hlive, hholds⟩, hmax⟩
    obtain ⟨⟨start, heq⟩, hle⟩ := hheld hlive hholds
    refine ⟨(hmem _).mpr ⟨md, start, hlive, heq, (hmax ⟨md, hlive, hend hlive heq⟩).antisymm hle⟩, fun o ho => ?_⟩
    obtain ⟨md', start', hlive', heq', rfl⟩ := (hmem o).mp ho
    exact hmax ⟨md', hlive', hend hlive' heq'⟩

end answers

lemma Clean.mono {c' : MetadataCache} (h : c.Clean) (hsub : ∀ x, c'.Live x → c.Live x) : c'.Clean := fun md hmd => by
  obtain ⟨epoch, start, heq, hle, hapart⟩ := h md (hsub md hmd)
  exact ⟨epoch, start, heq, hle, fun md' start' hmd' => hapart md' start' (hsub md' hmd')⟩

lemma indexed_empty : Indexed {} := ⟨by simp, by simp [Live]⟩

/-- Seeding makes the segments of the dump live, in whatever order they come. -/
lemma foldl_put (hclean : c.Clean) {l : List SegmentMetadata} (hl : ∀ x ∈ l, c.idToMetadata[x.id]? = some x)
    (hnodup : (l.map (·.id)).Nodup) :
    (l.foldl put {}).Indexed ∧ ∀ x, (l.foldl put {}).Live x ↔ x ∈ l ∧ x.finished := by
  induction l using reverseRecOn with
  | nil => exact ⟨indexed_empty, by simp [Live]⟩
  | append_singleton l md ih =>
    rw [map_append, nodup_append] at hnodup
    obtain ⟨hi, hlive⟩ := ih (fun x hx => hl x (mem_append_left _ hx)) hnodup.1
    rw [foldl_append, foldl_cons, foldl_nil]
    have hold : ∀ old, (l.foldl put {}).idToMetadata[md.id]? = some old → old.finished = false := fun old hget => by
      have hid := hi.ids _ _ hget
      by_contra hf
      have hin := ((hlive old).mp ⟨hid ▸ hget, by simpa using hf⟩).1
      exact hnodup.2.2 _ (mem_map_of_mem hin) _ (by simp) hid
    have hlive' : ∀ x, ((l.foldl put {}).put md).Live x ↔ x ∈ l ++ [md] ∧ x.finished := fun x => by
      rw [live_put hold, hlive, mem_snoc]
      grind
    have hsub : ∀ x, ((l.foldl put {}).put md).Live x → c.Live x := fun x hx =>
      ⟨hl x ((hlive' x).mp hx).1, ((hlive' x).mp hx).2⟩
    exact ⟨hi.put hold (hclean.mono hsub), hlive'⟩

/-- A segment with two epochs. -/
def twoEpochs : SegmentMetadata := ⟨0, 9, [(0, 0), (1, 5)], .copySegmentStarted⟩

lemma clean_single (md : SegmentMetadata) (start : ℤ) (hget : c.idToMetadata = (∅ : ExtTreeMap ℕ SegmentMetadata).insert 0 md)
    (heq : md.segmentLeaderEpochs = [(0, start)]) (hle : start ≤ md.endOffset) : c.Clean := by
  have honly : ∀ x, c.Live x → x = md := fun x hx => by
    have := hx.1
    rw [hget, getElem?_insert] at this
    split_ifs at this
    · exact (Option.some.inj this).symm
    · simp at this
  intro x hx
  obtain rfl := honly x hx
  exact ⟨0, start, heq, hle, fun y start' hy _ => .inl (honly y hy).symm⟩

def oneEpoch : List CacheCall := [.add ⟨0, 9, [(0, 0)], .copySegmentStarted⟩, .update 0 .copySegmentFinished]

end MetadataCache

end Crabka.Broker
