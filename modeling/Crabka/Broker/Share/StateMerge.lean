import Crabka.Broker.Share.Persister

/-!
# Merging written share-state batches

`merge_batches` replaces a batch by a written one only when both begin at the same offset. Each offset has what was
written for it last when a batch that meets written ones is replaced and all of it is written (`Mergeable`,
`merged_last_write_wins`); two batches that are written as one overlap afterwards (`merge_overlaps`).
-/

namespace Crabka.Broker.Share.Persister
open Found List

def StateBatch.Covers (b : StateBatch) (o : ℤ) : Prop := b.firstOffset ≤ o ∧ o ≤ b.lastOffset

instance (b : StateBatch) (o : ℤ) : Decidable (b.Covers o) := inferInstanceAs (Decidable (_ ∧ _))

def Ranges (batches : List StateBatch) : Prop :=
  (∀ b ∈ batches, b.firstOffset ≤ b.lastOffset) ∧ batches.Pairwise fun a b => a.lastOffset < b.firstOffset

instance (batches : List StateBatch) : Decidable (Ranges batches) := inferInstanceAs (Decidable (_ ∧ _))

def stateAt (batches : List StateBatch) (o : ℤ) : Option (ℤ × ℤ) :=
  (batches.find? (·.Covers o)).map fun b => (b.deliveryState, b.deliveryCount)

structure MergeCall where
  newStart : ℤ
  written : List StateBatch

/-- The state with what was written: the greatest start, and what was written last for each offset. -/
structure Merging where
  state : SharePartitionState
  start : ℤ := state.startOffset
  expected : ℤ → Option (ℤ × ℤ) := stateAt state.stateBatches

def mergeSys : Sys Merging MergeCall where
  enabled _ c := Ranges c.written
  next s c :=
    { state := s.state.mergeBatches c.newStart c.written
      start := max s.start c.newStart
      expected := fun o => (stateAt c.written o).or (s.expected o) }

/-- Each batch that is not below the start meets no written batch, or is replaced and all of it is written. -/
def Mergeable (st : SharePartitionState) (c : MergeCall) : Prop :=
  let start := max st.startOffset c.newStart
  let kept (w : StateBatch) : Prop := w ∈ c.written ∧ start ≤ w.lastOffset
  ∀ b ∈ st.stateBatches, start ≤ b.lastOffset →
    (∀ w, kept w → w.lastOffset < b.firstOffset ∨ b.lastOffset < w.firstOffset) ∨
    (∃ w, kept w ∧ b.firstOffset = w.firstOffset) ∧ ∀ o, start ≤ o → b.Covers o → ∃ w ∈ c.written, w.Covers o

namespace Ranges
variable {batches : List StateBatch} (h : Ranges batches) {a b : StateBatch} {o : ℤ}
include h

lemma apart (ha : a ∈ batches) (hb : b ∈ batches) (hne : a ≠ b) :
    a.lastOffset < b.firstOffset ∨ b.lastOffset < a.firstOffset :=
  @Pairwise.forall _ _ _ ⟨fun _ _ => Or.symm⟩ (h.2.imp Or.inl) _ ha _ hb hne

lemma last_lt (ha : a ∈ batches) (hb : b ∈ batches) (hlt : a.firstOffset < b.firstOffset) :
    a.lastOffset < b.firstOffset := by
  have hne : a ≠ b := fun heq => hlt.ne (heq ▸ rfl)
  have := h.1 b hb
  rcases h.apart ha hb hne with hab | hba <;> omega

lemma stateAt_eq_some {v : ℤ × ℤ} :
    stateAt batches o = some v ↔ ∃ b ∈ batches, b.Covers o ∧ (b.deliveryState, b.deliveryCount) = v := by
  unfold stateAt
  rw [Option.map_eq_some_iff]
  refine exists_congr fun b => ⟨fun ⟨hfind, hv⟩ => ?_, fun ⟨hb, hcovers, hv⟩ => ⟨?_, hv⟩⟩
  · exact ⟨mem_of_find?_eq_some hfind, by simpa using List.find?_some hfind, hv⟩
  · cases hfind : batches.find? (·.Covers o) with
    | none => exact absurd hcovers (by simpa using List.find?_eq_none.mp hfind b hb)
    | some a =>
      have ha : a.Covers o := by simpa using List.find?_some hfind
      by_contra hne
      have := h.apart (mem_of_find?_eq_some hfind) hb fun heq => hne (heq ▸ rfl)
      unfold StateBatch.Covers at ha hcovers
      omega

lemma firsts_ne : batches.Pairwise fun a b => a.firstOffset ≠ b.firstOffset :=
  h.2.imp_of_mem fun ha _ hlt => by
    have := h.1 _ ha
    omega

end Ranges
open SharePartitionState
section
variable {start : ℤ} {batches written : List StateBatch} {b : StateBatch}

lemma firsts_upsertBatches (h : batches.Pairwise fun a b => a.firstOffset ≠ b.firstOffset) :
    (upsertBatches start batches written).Pairwise fun a b => a.firstOffset ≠ b.firstOffset := by
  induction written generalizing batches with
  | nil => exact h
  | cons w written ih =>
    refine ih ?_
    dsimp only
    split
    · exact h
    · refine pairwise_append.mpr ⟨h.filter _, pairwise_singleton _ _, fun a ha x hx => ?_⟩
      rw [mem_singleton.mp hx]
      simpa using (mem_filter.mp ha).2

lemma mem_upsertBatches (hw : written.Pairwise fun a b => a.firstOffset ≠ b.firstOffset) :
    b ∈ upsertBatches start batches written ↔
      (b ∈ batches ∧ ∀ w ∈ written, start ≤ w.lastOffset → b.firstOffset ≠ w.firstOffset) ∨
        b ∈ written ∧ start ≤ b.lastOffset := by
  induction written generalizing batches with
  | nil => simp [upsertBatches]
  | cons w written ih =>
    obtain ⟨hne, hw⟩ := pairwise_cons.mp hw
    refine (ih hw).trans ?_
    dsimp only
    rw [forall_mem_cons, mem_cons]
    by_cases hlow : w.lastOffset < start
    · rw [if_pos hlow]
      refine or_congr (and_congr_right fun _ => ?_) ⟨fun h => ⟨.inr h.1, h.2⟩, fun h => ⟨h.1.resolve_left ?_, h.2⟩⟩
      · exact ⟨fun h => ⟨fun hle => absurd hlow (not_lt.mpr hle), h⟩, And.right⟩
      · rintro rfl
        exact absurd hlow (not_lt.mpr h.2)
    · rw [if_neg hlow, mem_append, mem_filter, mem_singleton, decide_eq_true_eq]
      constructor
      · rintro (⟨⟨hb, hbw⟩ | rfl, hrest⟩ | ⟨hb, hle⟩)
        · exact .inl ⟨hb, fun _ => hbw, hrest⟩
        · exact .inr ⟨.inl rfl, not_lt.mp hlow⟩
        · exact .inr ⟨.inr hb, hle⟩
      · rintro (⟨hb, hbw, hrest⟩ | ⟨rfl | hb, hle⟩)
        · exact .inl ⟨.inl ⟨hb, hbw (not_lt.mp hlow)⟩, hrest⟩
        · exact .inl ⟨.inr rfl, fun w hw _ => hne w hw⟩
        · exact .inr ⟨hb, hle⟩

end

/-! ## One call -/

section
variable {st : SharePartitionState} {c : MergeCall}

lemma startOffset_mergeBatches :
    (st.mergeBatches c.newStart c.written).startOffset = max st.startOffset c.newStart := by
  unfold mergeBatches
  dsimp only
  split <;> omega

variable {b : StateBatch} (hw : Ranges c.written)
include hw

lemma mem_mergeBatches : b ∈ (st.mergeBatches c.newStart c.written).stateBatches ↔
    (b ∈ st.stateBatches ∧ max st.startOffset c.newStart ≤ b.lastOffset ∧ ∀ w ∈ c.written,
      max st.startOffset c.newStart ≤ w.lastOffset → b.firstOffset ≠ w.firstOffset) ∨
    b ∈ c.written ∧ max st.startOffset c.newStart ≤ b.lastOffset := by
  have hstart := @startOffset_mergeBatches st c
  unfold mergeBatches at hstart ⊢
  dsimp only at hstart ⊢
  rw [hstart, mem_insertionSort, mem_upsertBatches hw.firsts_ne, mem_filter, decide_eq_true_eq, and_assoc]

variable (hst : Ranges st.stateBatches) (hok : Mergeable st c)
include hst hok

lemma ranges_mergeBatches : Ranges (st.mergeBatches c.newStart c.written).stateBatches := by
  refine ⟨fun b hb => ?_, ?_⟩
  · rcases (mem_mergeBatches hw).mp hb with h | h
    · exact hst.1 b h.1
    · exact hw.1 b h.1
  -- Sorted by the first offsets, which differ; what meets has the same first offset.
  have hsorted : (st.mergeBatches c.newStart c.written).stateBatches.Pairwise fun a b =>
      a.firstOffset ≤ b.firstOffset :=
    @pairwise_insertionSort _ (fun a b : StateBatch => a.firstOffset ≤ b.firstOffset) _
      ⟨fun _ _ => le_total _ _⟩ ⟨fun _ _ _ => le_trans⟩ _
  have hfirsts : (st.mergeBatches c.newStart c.written).stateBatches.Pairwise fun a b =>
      a.firstOffset ≠ b.firstOffset :=
    ((perm_insertionSort ..).pairwise_iff fun h => Ne.symm h).mpr (firsts_upsertBatches (hst.firsts_ne.filter _))
  refine (hsorted.and hfirsts).imp_of_mem fun {a b} ha hb hab => ?_
  have hlt := lt_of_le_of_ne hab.1 hab.2
  rcases (mem_mergeBatches hw).mp ha with ⟨ha, hla, hna⟩ | ⟨ha, hla⟩ <;>
    rcases (mem_mergeBatches hw).mp hb with ⟨hb, hlb, hnb⟩ | ⟨hb, hlb⟩
  · exact hst.last_lt ha hb hlt
  · rcases hok a ha hla with hmeets | ⟨⟨w, hkept, heq⟩, -⟩
    · have := hw.1 b hb
      have := hmeets b ⟨hb, hlb⟩
      omega
    · exact absurd heq (hna w hkept.1 hkept.2)
  · rcases hok b hb hlb with hmeets | ⟨⟨w, hkept, heq⟩, -⟩
    · have := hst.1 b hb
      have := hmeets a ⟨ha, hla⟩
      omega
    · exact absurd heq (hnb w hkept.1 hkept.2)
  · exact hw.last_lt ha hb hlt

lemma stateAt_mergeBatches {o : ℤ} (ho : max st.startOffset c.newStart ≤ o) :
    stateAt (st.mergeBatches c.newStart c.written).stateBatches o =
      (stateAt c.written o).or (stateAt st.stateBatches o) := by
  refine Option.ext fun v => ?_
  rw [(ranges_mergeBatches hw hst hok).stateAt_eq_some, Option.or_eq_some_iff, hw.stateAt_eq_some,
    hst.stateAt_eq_some, Option.eq_none_iff_forall_ne_some]
  have hle : ∀ {x : StateBatch}, x.Covers o → max st.startOffset c.newStart ≤ x.lastOffset := fun h => ho.trans h.2
  constructor
  · rintro ⟨b, hb, hcovers, hv⟩
    rcases (mem_mergeBatches hw).mp hb with ⟨hb, hlb, hnb⟩ | ⟨hb, -⟩
    · -- An old batch that is kept meets no written one.
      refine .inr ⟨fun v' hv' => ?_, b, hb, hcovers, hv⟩
      obtain ⟨w, hmem, hcw, -⟩ := hw.stateAt_eq_some.mp hv'
      rcases hok b hb hlb with hmeets | ⟨⟨w, hkept, heq⟩, -⟩
      · have := hmeets w ⟨hmem, hle hcw⟩
        unfold StateBatch.Covers at hcovers hcw
        omega
      · exact hnb w hkept.1 hkept.2 heq
    · exact .inl ⟨b, hb, hcovers, hv⟩
  · rintro (⟨b, hb, hcovers, hv⟩ | ⟨hnone, b, hb, hcovers, hv⟩)
    · exact ⟨b, (mem_mergeBatches hw).mpr (.inr ⟨hb, hle hcovers⟩), hcovers, hv⟩
    · refine ⟨b, (mem_mergeBatches hw).mpr (.inl ⟨hb, hle hcovers, fun w hmem hlw heq => ?_⟩), hcovers, hv⟩
      rcases hok b hb (hle hcovers) with hmeets | ⟨-, hcov⟩
      · have := hst.1 b hb
        have := hw.1 w hmem
        have := hmeets w ⟨hmem, hlw⟩
        omega
      · obtain ⟨w', hmem', hcw'⟩ := hcov o ho hcovers
        exact hnone _ (hw.stateAt_eq_some.mpr ⟨w', hmem', hcw', rfl⟩)

end

/-! ## Runs -/

/-- What the batches say about the offsets that are not below the start. -/
structure Merging.Inv (s : Merging) : Prop where
  ranges : Ranges s.state.stateBatches
  start : s.state.startOffset = s.start
  last : ∀ o, s.start ≤ o → stateAt s.state.stateBatches o = s.expected o

lemma Merging.Inv.call {s : Merging} {c : MergeCall} (h : s.Inv) (hw : Ranges c.written)
    (hok : Mergeable s.state c) : (mergeSys.next s c).Inv where
  ranges := ranges_mergeBatches hw h.ranges hok
  start := startOffset_mergeBatches.trans (h.start ▸ rfl)
  last o ho := by
    refine (stateAt_mergeBatches hw h.ranges hok (h.start ▸ ho)).trans ?_
    rw [h.last o (le_of_max_le_left ho)]
    rfl

/-- **The last write wins.** After every call of a run, from every state with sorted and disjoint batches:
they are sorted and disjoint again, the start is the greatest that was given, no batch ends below it, and
each offset from it on has what was written for it last. -/
theorem merged_last_write_wins {st : SharePartitionState} (hst : Ranges st.stateBatches) {s : Merging}
    (hrun : mergeSys.Run (fun s c => Mergeable s.state c) { state := st } s) (c : MergeCall)
    (hw : Ranges c.written) (hok : Mergeable s.state c) :
    let s' := mergeSys.next s c
    Ranges s'.state.stateBatches ∧ s'.state.startOffset = s'.start ∧
      (∀ b ∈ s'.state.stateBatches, s'.start ≤ b.lastOffset) ∧
      ∀ o, s'.start ≤ o → stateAt s'.state.stateBatches o = s'.expected o := by
  have hinv : s.Inv := hrun.preserves (P := Merging.Inv) (fun _ _ h hw hok => h.call hw hok)
    ⟨hst, rfl, fun _ _ => rfl⟩
  obtain ⟨hranges, hstart, hlast⟩ := hinv.call hw hok
  refine ⟨hranges, hstart, fun b hb => ?_, hlast⟩
  rw [← hstart, show (mergeSys.next s c).state.startOffset = _ from startOffset_mergeBatches]
  rcases (mem_mergeBatches hw).mp hb with h | h
  · exact h.2.1
  · exact h.2

def twoRuns : SharePartitionState := { stateBatches := [⟨0, 4, 2, 1⟩, ⟨5, 9, 0, 1⟩] }

/-- The first batch is written again, as two. -/
theorem merged_last_write_wins_split :
    let s' := mergeSys.next { state := twoRuns } ⟨0, [⟨0, 2, 2, 1⟩, ⟨3, 4, 0, 2⟩]⟩
    Ranges s'.state.stateBatches ∧ s'.state.startOffset = s'.start ∧
      (∀ b ∈ s'.state.stateBatches, s'.start ≤ b.lastOffset) ∧
      ∀ o, s'.start ≤ o → stateAt s'.state.stateBatches o = s'.expected o :=
  merged_last_write_wins (by decide) .refl _ (by decide) (by
    simp only [Mergeable, twoRuns, StateBatch.Covers]
    simp
    exact ⟨⟨_, ⟨.inl rfl, by decide⟩, rfl⟩, by omega⟩)

/-- **Batches that are written as one stay**: the second one is now also part of the first. -/
theorem merge_overlaps : Ranges twoRuns.stateBatches ∧
    ¬Ranges (twoRuns.mergeBatches 0 [⟨0, 9, 2, 1⟩]).stateBatches := by decide +kernel

end Crabka.Broker.Share.Persister
