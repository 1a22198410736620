import Crabka.Log.RawRead

/-!
# Raw reads over segments

A read should return the next batches without a gap. It does when the buffer reaches the first of them, and a segment
that does not fit is the last one read (`readRaw_complete_iff`). Otherwise the read goes on with the next segment, and
batches are passed over (`readRaw_passes_over`).
-/

namespace Crabka.Log
open List RawSegment Bool

/-! ## Several segments -/

def readSegments (limit : ℤ) : List RawSegment → ℤ → ℕ → List Batch
  | [], _, _ => []
  | seg :: segs, current, remaining =>
    match (seg.readRaw current limit (max remaining headerLen)).getLast? with
    | none => readSegments limit segs current remaining
    | some last =>
      let bs := seg.readRaw current limit (max remaining headerLen)
      if remaining - bytesOf bs = 0 ∨ limit ≤ last.lastOffset + 1 then bs
      else bs ++ readSegments limit segs (last.lastOffset + 1) (remaining - bytesOf bs)

section segments
variable {limit current : ℤ} {remaining : ℕ} {segs : List RawSegment} {active : RawSegment}

/-- What `read_raw` does after the sealed segments. -/
def thenActive (limit : ℤ) (active : RawSegment) (x : List Batch × ℤ × ℕ) : List Batch :=
  if (0 < x.2.2 ∨ x.1 = []) ∧ x.2.1 < limit ∧ x.2.1 ≤ active.lastOffset then
    x.1 ++ active.readRaw x.2.1 limit (max x.2.2 headerLen)
  else x.1

lemma readSealedRaw_nil (h : (readSealedRaw limit segs current remaining).1 = []) :
    (readSealedRaw limit segs current remaining).2 = (current, remaining) := by
  induction segs generalizing current remaining with
  | nil => rfl
  | cons seg segs ih =>
    rw [readSealedRaw] at h ⊢
    split_ifs at h with hlt
    · rw [if_pos hlt]
      exact ih h
    · rw [if_neg hlt]
      split at h
      · exact ih h
      · rename_i last hlast
        have hne : seg.readRaw current limit (max remaining headerLen) ≠ [] := by
          intro hnil
          rw [hnil] at hlast
          cases hlast
        simp only at h
        split at h
        · exact absurd h hne
        · exact absurd (append_eq_nil_iff.mp h).1 hne

lemma thenActive_readSealedRaw (hlimit : current < limit) :
    thenActive limit active (readSealedRaw limit segs current remaining) =
      readSegments limit (segs ++ [active]) current remaining := by
  induction segs generalizing current remaining with
  | nil =>
    rw [nil_append, readSegments, readSealedRaw, thenActive]
    have hread : active.lastOffset < current →
        active.readRaw current limit (max remaining headerLen) = [] := fun hlt => by
      rw [readRaw, if_pos (.inl hlt)]
    by_cases hlt : active.lastOffset < current
    · rw [if_neg fun h => absurd h.2.2 (not_le.mpr hlt), hread hlt]
      rfl
    · rw [if_pos ⟨.inr rfl, hlimit, not_lt.mp hlt⟩, nil_append]
      cases hlast : (active.readRaw current limit (max remaining headerLen)).getLast? with
      | none => exact List.getLast?_eq_none_iff.mp hlast
      | some last => simp [readSegments]
  | cons seg segs ih =>
    rw [cons_append, readSegments, readSealedRaw]
    set got := seg.readRaw current limit (max remaining headerLen) with hgot
    by_cases hlt : seg.lastOffset < current
    · have hread : got = [] := by
        rw [hgot, readRaw, if_pos (.inl hlt)]
      rw [if_pos hlt, hread]
      exact ih hlimit
    · rw [if_neg hlt]
      cases hlast : got.getLast? with
      | none => exact ih hlimit
      | some last =>
        have hne : got ≠ [] := by
          intro hnil
          rw [hnil] at hlast
          cases hlast
        simp only
        by_cases hstop : remaining - bytesOf got = 0 ∨ limit ≤ last.lastOffset + 1
        · rw [if_pos hstop, if_pos hstop, thenActive, if_neg]
          rintro ⟨hgo, hcur, -⟩
          have hleft := hgo.resolve_right hne
          simp only at hleft hcur
          omega
        · rw [if_neg hstop, if_neg hstop, ← ih (by omega)]
          set rest := readSealedRaw limit segs (last.lastOffset + 1) (remaining - bytesOf got) with hrest
          have hgo : (0 < rest.2.2 ∨ got ++ rest.1 = []) ↔ (0 < rest.2.2 ∨ rest.1 = []) := by
            constructor
            · exact fun h => .inl (h.resolve_right fun h => hne (append_eq_nil_iff.mp h).1)
            · rintro (hpos | hnil)
              · exact .inl hpos
              · left
                rw [hrest, readSealedRaw_nil hnil]
                omega
          simp only [thenActive, hgo]
          split
          · rw [append_assoc]
          · rfl

lemma readRaw_ok {log : RawLog} {fetchOffset : ℤ} {maxSize : ℕ} (hstart : log.logStart ≤ fetchOffset)
    (hlimit : fetchOffset < limit) : log.readRaw fetchOffset limit maxSize =
      .ok (readSegments limit (log.segments ++ [log.active]) fetchOffset maxSize) := by
  rw [← thenActive_readSealedRaw hlimit, RawLog.readRaw, if_neg (not_lt.mpr hstart),
    if_neg (not_le.mpr hlimit), thenActive]
  simp only
  split <;> rfl

lemma wanted_append (offset limit : ℤ) (as bs : List Batch) :
    wanted offset limit (as ++ bs) = wanted offset limit as ++ wanted offset limit bs :=
  filter_append _ _

variable {seg : RawSegment}

lemma mem_readSegments (hwf : ∀ seg ∈ segs, seg.WellFormed)
    (hasc : Ascending (segs.flatMap batches)) (hlimit : current < limit) {x : Batch}
    (hx : x ∈ readSegments limit segs current remaining) :
    x ∈ wanted current limit (segs.flatMap batches) := by
  induction segs generalizing current remaining with
  | nil => cases hx
  | cons seg segs ih =>
    obtain ⟨hseg, hsegs⟩ := forall_mem_cons.mp hwf
    obtain ⟨hasc₁, hasc₂, hcross⟩ := pairwise_append.mp hasc
    have hpre := seg.readRaw_prefix hseg hasc₁ hlimit (le_max_right remaining headerLen)
    rw [flatMap_cons, wanted_append]
    rw [readSegments] at hx
    split at hx
    · exact mem_append_right _ (ih hsegs hasc₂ hlimit hx)
    · rename_i last hlast
      simp only at hx
      split at hx
      · exact mem_append_left _ (hpre.mem hx)
      · rename_i hgo
        rcases mem_append.mp hx with hx | hx
        · exact mem_append_left _ (hpre.mem hx)
        · have hin := ih hsegs hasc₂ (by omega) hx
          obtain ⟨hmem, hcond⟩ := mem_filter.mp hin
          have hcur : current ≤ last.lastOffset := by
            have := (mem_filter.mp (hpre.mem (mem_of_getLast? hlast))).2
            simp only [and_eq_true, decide_eq_true_eq] at this
            exact this.1
          refine mem_append_right _ (mem_filter.mpr ⟨hmem, ?_⟩)
          simp only [and_eq_true, decide_eq_true_eq] at hcond ⊢
          exact ⟨by omega, hcond.2⟩

lemma readSegments_ne_nil (hwf : ∀ seg ∈ segs, seg.WellFormed)
    (hasc : Ascending (segs.flatMap batches)) (hlimit : current < limit)
    (hall : ∀ b ∈ segs.flatMap batches, current ≤ b.lastOffset)
    (hne : wanted current limit (segs.flatMap batches) ≠ []) :
    readSegments limit segs current remaining ≠ [] := by
  induction segs generalizing remaining with
  | nil => exact absurd rfl hne
  | cons seg segs ih =>
    obtain ⟨hseg, hsegs⟩ := forall_mem_cons.mp hwf
    obtain ⟨hasc₁, hasc₂, -⟩ := pairwise_append.mp hasc
    rw [flatMap_cons] at hall hne
    rw [wanted_append] at hne
    rw [readSegments]
    split
    · rename_i hnone
      have hnil : wanted current limit seg.batches = [] := by
        by_contra hsome
        refine seg.readRaw_ne_nil hseg hasc₁ hlimit (le_max_right remaining headerLen) ?_ hsome
          (List.getLast?_eq_none_iff.mp hnone)
        rw [seg.skipped_eq_zero fun b hb => hall b (mem_append_left _ hb), Nat.zero_add]
        exact le_max_right _ _
      rw [hnil, nil_append] at hne
      exact ih hsegs hasc₂ (fun b hb => hall b (mem_append_right _ hb)) hne
    · rename_i last hlast
      have hsome : seg.readRaw current limit (max remaining headerLen) ≠ [] := by
        intro hnil
        rw [hnil] at hlast
        cases hlast
      simp only
      split
      · exact hsome
      · exact fun h => hsome (append_eq_nil_iff.mp h).1

/-- The read of some segments is as wanted. -/
def Complete (limit : ℤ) (segs : List RawSegment) (current : ℤ) (remaining : ℕ) : Prop :=
  wanted current limit (segs.flatMap RawSegment.batches) ≠ [] →
    readSegments limit segs current remaining ≠ [] ∧
      readSegments limit segs current remaining <+: wanted current limit (segs.flatMap RawSegment.batches)

section
variable (hwf : ∀ s ∈ seg :: segs, s.WellFormed)
include hwf
section
variable (hasc : Ascending ((seg :: segs).flatMap RawSegment.batches))
include hasc
section
variable (hlimit : current < limit)
include hlimit

lemma not_complete_of_short
    (hshort : max remaining headerLen < seg.skipped current + headerLen) {b : Batch} {bs : List Batch}
    (hE : wanted current limit seg.batches = b :: bs) :
    ¬ Complete limit (seg :: segs) current remaining := by
  obtain ⟨hseg, hsegs⟩ := forall_mem_cons.mp hwf
  obtain ⟨hasc₁, hasc₂, hcross⟩ := pairwise_append.mp hasc
  have hread := (seg.readRaw_eq hseg hasc₁ hlimit (le_max_right remaining headerLen)).1 hshort
  have hskip : readSegments limit (seg :: segs) current remaining = readSegments limit segs current remaining := by
    rw [readSegments, hread]
    rfl
  intro hcomplete
  rw [Complete, hskip, flatMap_cons, wanted_append, hE] at hcomplete
  obtain ⟨hne, hpre⟩ := hcomplete (cons_ne_nil _ _)
  cases hr : readSegments limit segs current remaining with
  | nil => exact hne hr
  | cons x xs =>
    rw [hr, cons_append] at hpre
    obtain ⟨rfl, -⟩ := cons_prefix_cons.mp hpre
    have hlater := mem_readSegments hsegs hasc₂ hlimit (hr ▸ mem_cons_self)
    have hlt := hcross x (mem_of_mem_filter (hE ▸ mem_cons_self)) x (mem_of_mem_filter hlater)
    have := x.base_le_last
    omega

lemma complete_of_inner
    {E r : List Batch} {last : Batch} (hE : wanted current limit seg.batches = E) (hEne : E ≠ [])
    (hr : seg.readRaw current limit (max remaining headerLen) = r) (hlast : r.getLast? = some last)
    (hmore : wanted current limit (segs.flatMap batches) ≠ [])
    (hgo : ¬ (remaining - bytesOf r = 0 ∨ limit ≤ last.lastOffset + 1)) :
    Complete limit (seg :: segs) current remaining ↔
      r = E ∧ Complete limit segs (last.lastOffset + 1) (remaining - bytesOf r) := by
  obtain ⟨hseg, hsegs⟩ := forall_mem_cons.mp hwf
  obtain ⟨hasc₁, hasc₂, hcross⟩ := pairwise_append.mp hasc
  have hpre : r <+: E := by
    rw [← hr, ← hE]
    exact seg.readRaw_prefix hseg hasc₁ hlimit (le_max_right remaining headerLen)
  have hinE : ∀ x ∈ E, x ∈ seg.batches ∧ current ≤ x.lastOffset := fun x hx => by
    rw [← hE] at hx
    obtain ⟨hmem, hcond⟩ := mem_filter.mp hx
    simp only [and_eq_true, decide_eq_true_eq] at hcond
    exact ⟨hmem, hcond.1⟩
  obtain ⟨hlastmem, hlastcur⟩ := hinE last (hpre.mem (mem_of_getLast? hlast))
  have hlater : ∀ b ∈ segs.flatMap batches, last.lastOffset + 1 ≤ b.lastOffset := by
    intro b hb
    have := hcross last hlastmem b hb
    have := b.base_le_last
    omega
  have hsame : wanted (last.lastOffset + 1) limit (segs.flatMap batches) =
      wanted current limit (segs.flatMap batches) :=
    filter_congr fun b hb => by
      have := hlater b hb
      simp [this, show current ≤ b.lastOffset by omega]
  have hlimit' : last.lastOffset + 1 < limit := by omega
  have hread : readSegments limit (seg :: segs) current remaining =
      r ++ readSegments limit segs (last.lastOffset + 1) (remaining - bytesOf r) := by
    rw [readSegments, hr, hlast]
    simp only
    rw [if_neg hgo]
  set rest := readSegments limit segs (last.lastOffset + 1) (remaining - bytesOf r) with hrest
  have hrestne : rest ≠ [] := readSegments_ne_nil hsegs hasc₂ hlimit' hlater (hsame ▸ hmore)
  have hrne : r ≠ [] := by
    rintro rfl
    cases hlast
  unfold Complete
  rw [hread, flatMap_cons, wanted_append, hE, hsame, ← hrest]
  constructor
  · intro hcomplete
    obtain ⟨-, hwhole⟩ := hcomplete fun h => hEne (append_eq_nil_iff.mp h).1
    have hfull : r = E := by
      -- Otherwise the next batch of the segment is passed over.
      obtain ⟨t, ht⟩ := hpre
      rw [← ht, append_assoc, prefix_append_right_inj] at hwhole
      cases t with
      | nil => rw [← ht, append_nil]
      | cons e t =>
        cases hx : rest with
        | nil => exact absurd hx hrestne
        | cons x xs =>
          rw [hx, cons_append] at hwhole
          obtain ⟨rfl, -⟩ := cons_prefix_cons.mp hwhole
          have hin := mem_readSegments hsegs hasc₂ hlimit' (hrest ▸ hx ▸ mem_cons_self)
          have hlt := hcross x (hinE x (ht ▸ mem_append_cons_self)).1 x (mem_of_mem_filter hin)
          have := x.base_le_last
          omega
    rw [hfull, prefix_append_right_inj] at hwhole
    exact ⟨hfull, fun _ => ⟨hrestne, hwhole⟩⟩
  · rintro ⟨rfl, hcomplete⟩ -
    exact ⟨fun h => hrne (append_eq_nil_iff.mp h).1, (prefix_append_right_inj _).mpr (hcomplete hmore).2⟩

lemma readSegments_of_last
    {last : Batch}
    (hlast : (seg.readRaw current limit (max remaining headerLen)).getLast? = some last)
    (hnone : wanted current limit (segs.flatMap batches) = []) :
    readSegments limit (seg :: segs) current remaining = seg.readRaw current limit (max remaining headerLen) := by
  obtain ⟨hseg, hsegs⟩ := forall_mem_cons.mp hwf
  obtain ⟨hasc₁, hasc₂, -⟩ := pairwise_append.mp hasc
  have hpre := seg.readRaw_prefix hseg hasc₁ hlimit (le_max_right remaining headerLen)
  rw [readSegments, hlast]
  simp only
  split
  · rfl
  · rename_i hgo
    rw [append_right_eq_self, eq_nil_iff_forall_not_mem]
    intro x hx
    have hin := mem_readSegments hsegs hasc₂ (by omega) hx
    have hcond := (mem_filter.mp hin).2
    have hlcur := (mem_filter.mp (hpre.mem (mem_of_getLast? hlast))).2
    simp only [and_eq_true, decide_eq_true_eq] at hcond hlcur
    have hx' : x ∈ wanted current limit (segs.flatMap batches) :=
      mem_filter.mpr ⟨mem_of_mem_filter hin, by
        simp only [and_eq_true, decide_eq_true_eq]
        exact ⟨by omega, hcond.2⟩⟩
    rw [hnone] at hx'
    cases hx'

end
end
end

/-- **Reads without a gap, segment by segment.** -/
theorem complete_iff_seamless (hwf : ∀ seg ∈ segs, seg.WellFormed)
    (hasc : Ascending (segs.flatMap batches)) (hlimit : current < limit) :
    Complete limit segs current remaining ↔ Seamless limit segs current remaining := by
  induction segs generalizing current remaining with
  | nil => exact iff_of_true (fun h => absurd rfl h) trivial
  | cons seg segs ih =>
    obtain ⟨hseg, hsegs⟩ := forall_mem_cons.mp hwf
    obtain ⟨hasc₁, hasc₂, hcross⟩ := pairwise_append.mp hasc
    have hbudget := le_max_right remaining headerLen
    have hpre := seg.readRaw_prefix hseg hasc₁ hlimit hbudget
    rw [Seamless]
    cases hE : wanted current limit seg.batches with
    | nil =>
      -- Nothing is wanted from this segment, and nothing is read.
      rw [hE] at hpre
      simp only
      rw [← ih hsegs hasc₂ hlimit, Complete, Complete, readSegments, prefix_nil.mp hpre,
        flatMap_cons, wanted_append, hE]
      rfl
    | cons b bs =>
      simp only
      by_cases hreach : seg.skipped current + headerLen ≤ max remaining headerLen
      swap
      · exact iff_of_false
          (not_complete_of_short hwf hasc hlimit (not_le.mp hreach) hE) fun h => hreach h.1
      have hstop := seg.budget_le_iff hseg hasc₁ hlimit hreach hE
      have hfull := seg.readRaw_full hseg hasc₁ hlimit hbudget hreach hE
      have hne := seg.readRaw_ne_nil hseg hasc₁ hlimit hbudget hreach (hE ▸ cons_ne_nil b bs)
      rw [hE] at hpre
      obtain ⟨last, hlast⟩ := List.getLast?_isSome.mpr hne |> Option.isSome_iff_exists.mp
      by_cases hmore : wanted current limit (segs.flatMap batches) = []
      · -- The segment is the last one with wanted batches.
        refine iff_of_true (fun _ => ?_) ⟨hreach, .inl hmore⟩
        rw [readSegments_of_last hwf hasc hlimit hlast hmore, flatMap_cons, wanted_append, hE, hmore, append_nil]
        exact ⟨hne, hpre⟩
      · have hlt : last.lastOffset + 1 < limit := by
          obtain ⟨y, hy⟩ := exists_mem_of_ne_nil _ hmore
          obtain ⟨hymem, hycond⟩ := mem_filter.mp hy
          simp only [and_eq_true, decide_eq_true_eq] at hycond
          have := hcross last (mem_of_mem_filter (hE ▸ hpre.mem (mem_of_getLast? hlast))) y hymem
          omega
        by_cases hused : remaining ≤ bytesOf (seg.readRaw current limit (max remaining headerLen))
        · -- The budget is used up.
          refine iff_of_true (fun _ => ?_) ⟨hreach, .inr ?_⟩
          · have hread : readSegments limit (seg :: segs) current remaining =
                seg.readRaw current limit (max remaining headerLen) := by
              rw [readSegments, hlast]
              simp only
              rw [if_pos (.inl (by omega))]
            rw [hread, flatMap_cons, wanted_append, hE]
            exact ⟨hne, hpre.trans (prefix_append _ _)⟩
          · rcases hstop.mp hused with hone | hsome
            · exact .inl hone
            · exact .inr (.inl hsome)
        · rw [complete_of_inner hwf hasc hlimit hE (cons_ne_nil b bs) rfl hlast hmore
            (by omega), hfull, ih hsegs hasc₂ hlt]
          have hends : (bs = [] ∨ seg.skipped current + bytesOf (b :: bs) ≤
              max remaining headerLen) →
              seg.readRaw current limit (max remaining headerLen) = b :: bs := hfull.mpr
          constructor
          · rintro ⟨hall, hrest⟩
            refine ⟨hreach, .inr (.inr (.inr ⟨hall, ?_⟩))⟩
            rw [hends hall] at hlast hrest
            rwa [hlast]
          · rintro ⟨-, hnone | hone | hsome | ⟨hall, hrest⟩⟩
            · exact absurd hnone hmore
            · exact absurd (hstop.mpr (.inl hone)) hused
            · exact absurd (hstop.mpr (.inr hsome)) hused
            · refine ⟨hall, ?_⟩
              rw [hends hall] at hlast ⊢
              rwa [hlast] at hrest

end segments

/-! ## The log -/

/-- Fetching from the offset after the last batch, again and again. -/
def RawLog.fetchAll (log : RawLog) (limit : ℤ) (maxSize : ℕ) : ℕ → ℤ → List Batch
  | 0, _ => []
  | n + 1, offset =>
    match log.readRaw offset limit maxSize with
    | .ok bs =>
      match bs.getLast? with
      | some last => bs ++ fetchAll log limit maxSize n (last.lastOffset + 1)
      | none => []
    | .error _ => []

section log
variable {log : RawLog} {limit offset : ℤ} {maxSize : ℕ}

lemma isInfix_wanted {bs : List Batch} (hasc : Ascending bs) : wanted offset limit bs <:+: bs := by
  have hsplit : bs = bs.filter (·.lastOffset < offset) ++ bs.filter (offset ≤ ·.lastOffset) :=
    filter_split hasc
  have hprefix : ∀ {cs : List Batch}, Ascending cs → (∀ b ∈ cs, offset ≤ b.lastOffset) →
      wanted offset limit cs <+: cs := by
    intro cs hcs hall
    induction cs with
    | nil => exact prefix_rfl
    | cons c cs ih =>
      obtain ⟨hlt, hcs⟩ := pairwise_cons.mp hcs
      obtain ⟨hc, hall⟩ := forall_mem_cons.mp hall
      by_cases hlim : c.baseOffset < limit
      · rw [wanted, filter_cons_of_pos (by simp [hc, hlim])]
        exact cons_prefix_cons.mpr ⟨rfl, ih hcs hall⟩
      · have hnil : wanted offset limit (c :: cs) = [] := by
          refine filter_eq_nil_iff.mpr fun x hx => ?_
          have hx' : limit ≤ x.baseOffset := by
            rcases mem_cons.mp hx with rfl | hx
            · exact not_lt.mp hlim
            · have := hlt x hx
              have := c.base_le_last
              omega
          simp [not_lt.mpr hx']
        rw [hnil]
        exact nil_prefix
  have hwanted : wanted offset limit bs = wanted offset limit (bs.filter (offset ≤ ·.lastOffset)) := by
    unfold wanted
    rw [filter_filter]
    refine filter_congr fun b _ => ?_
    cases decide (offset ≤ b.lastOffset) <;> simp
  obtain ⟨t, ht⟩ : wanted offset limit (bs.filter (offset ≤ ·.lastOffset)) <+:
      bs.filter (offset ≤ ·.lastOffset) :=
    hprefix (hasc.filter _) fun b hb => by simpa using (mem_filter.mp hb).2
  exact ⟨bs.filter (·.lastOffset < offset), t, by rw [hwanted, append_assoc, ht, ← hsplit]⟩

lemma wanted_rest {bs r rest : List Batch} (hasc : Ascending bs)
    (hr : wanted offset limit bs = r ++ rest) {last : Batch} (hlast : r.getLast? = some last) :
    wanted (last.lastOffset + 1) limit bs = rest := by
  have hw : Ascending (r ++ rest) := hr ▸ hasc.filter _
  obtain ⟨hascr, -, hcross⟩ := pairwise_append.mp hw
  have hin : ∀ b ∈ r ++ rest, offset ≤ b.lastOffset := fun b hb => by
    rw [← hr] at hb
    have := (mem_filter.mp hb).2
    simp only [and_eq_true, decide_eq_true_eq] at this
    exact this.1
  have hlastin := hin last (mem_append_left _ (mem_of_getLast? hlast))
  have heq : wanted (last.lastOffset + 1) limit bs =
      (wanted offset limit bs).filter (last.lastOffset + 1 ≤ ·.lastOffset) := by
    unfold wanted
    rw [filter_filter]
    refine filter_congr fun b _ => ?_
    by_cases hb : last.lastOffset + 1 ≤ b.lastOffset
    · have hb' : offset ≤ b.lastOffset := by omega
      simp [hb, hb']
    · simp [hb]
  have hbefore : ∀ b ∈ r, b.lastOffset ≤ last.lastOffset := by
    intro b hb
    obtain ⟨init, x, rfl⟩ := eq_nil_or_concat' r |>.resolve_left (ne_nil_of_mem hb)
    rw [List.getLast?_concat] at hlast
    obtain rfl := Option.some.inj hlast
    rcases Found.mem_snoc.mp hb with hb | hb
    · have := (pairwise_append.mp hascr).2.2 b hb x mem_cons_self
      have := x.base_le_last
      omega
    · rw [hb]
  rw [heq, hr, filter_append, filter_eq_nil_iff.mpr fun b hb => ?_, filter_eq_self.mpr fun b hb => ?_]
  · rfl
  · have := hcross last (mem_of_getLast? hlast) b hb
    have := b.base_le_last
    simp only [decide_eq_true_eq]
    omega
  · have := hbefore b hb
    simp only [decide_eq_true_eq]
    omega

lemma fetchAll_eq (h : log.WellFormed) (hstart : log.logStart ≤ offset)
    (hseamless : ∀ o, offset ≤ o → o < limit → Seamless limit (log.segments ++ [log.active]) o maxSize) {n : ℕ}
    (hn : (wanted offset limit log.batches).length ≤ n)
    (hlimit : wanted offset limit log.batches ≠ [] → offset < limit) :
    log.fetchAll limit maxSize n offset = wanted offset limit log.batches := by
  induction n generalizing offset with
  | zero => rw [RawLog.fetchAll, length_eq_zero_iff.mp (Nat.le_zero.mp hn)]
  | succ n ih =>
    set W := wanted offset limit log.batches
    set got := readSegments limit (log.segments ++ [log.active]) offset maxSize with hgot
    by_cases hnone : W = []
    · have hread : log.readRaw offset limit maxSize = .ok [] := by
        by_cases hlt : offset < limit
        · have hempty : got = [] := by
            refine eq_nil_iff_forall_not_mem.mpr fun x hx => ?_
            have hin : x ∈ W := mem_readSegments h.segment h.ascending hlt hx
            rw [hnone] at hin
            cases hin
          rw [readRaw_ok hstart hlt, ← hgot, hempty]
        · rw [RawLog.readRaw, if_neg (not_lt.mpr hstart), if_pos (not_lt.mp hlt)]
      rw [RawLog.fetchAll, hread, hnone]
      rfl
    · have hlt := hlimit hnone
      obtain ⟨hne, rest, hrest⟩ : got ≠ [] ∧ got <+: W :=
        (complete_iff_seamless h.segment h.ascending hlt).mpr (hseamless offset le_rfl hlt) hnone
      obtain ⟨last, hlast⟩ := Option.isSome_iff_exists.mp (List.getLast?_isSome.mpr hne)
      have hafter := wanted_rest h.ascending hrest.symm hlast
      have hin : offset ≤ last.lastOffset := by
        have hmem : last ∈ W := hrest ▸ mem_append_left _ (mem_of_getLast? hlast)
        have := (mem_filter.mp hmem).2
        simp only [and_eq_true, decide_eq_true_eq] at this
        exact this.1
      rw [RawLog.fetchAll, readRaw_ok hstart hlt, ← hgot]
      simp only [hlast]
      rw [ih (by omega) (fun o ho => hseamless o (by omega)) ?_ fun hmore => ?_, hafter]
      · exact hrest
      · rw [hafter]
        have hlen := congrArg List.length hrest
        have hpos := length_pos_iff.mpr hne
        rw [length_append] at hlen
        omega
      · -- The next wanted batch starts after the last one and below the limit.
        obtain ⟨y, hy⟩ := exists_mem_of_ne_nil _ hmore
        rw [hafter] at hy
        have hw : Ascending (got ++ rest) := hrest ▸ h.ascending.filter _
        have hcross := (pairwise_append.mp hw).2.2 last (mem_of_getLast? hlast) y hy
        have hmem : y ∈ W := hrest ▸ mem_append_right _ hy
        have := (mem_filter.mp hmem).2
        simp only [and_eq_true, decide_eq_true_eq] at this
        omega

end log

/-- **A raw read returns the next batches without a gap exactly when it is seamless**: a non-empty run of
consecutive batches, from the first one that is wanted on. And when all reads from an offset on are,
fetching again and again visits every wanted batch once. -/
theorem readRaw_complete_iff {log : RawLog} (h : log.WellFormed) {fetchOffset limit : ℤ} (maxSize : ℕ)
    (hstart : log.logStart ≤ fetchOffset) (hlimit : fetchOffset < limit)
    (hsome : wanted fetchOffset limit log.batches ≠ []) :
    ((∃ bs, log.readRaw fetchOffset limit maxSize = .ok bs ∧ bs ≠ [] ∧ bs <:+: log.batches ∧
          bs <+: wanted fetchOffset limit log.batches) ↔
        Seamless limit (log.segments ++ [log.active]) fetchOffset maxSize) ∧
      ((∀ o, fetchOffset ≤ o → o < limit → Seamless limit (log.segments ++ [log.active]) o maxSize) →
        log.fetchAll limit maxSize (wanted fetchOffset limit log.batches).length fetchOffset =
          wanted fetchOffset limit log.batches) := by
  refine ⟨?_, fun hall => fetchAll_eq h hstart hall le_rfl fun _ => hlimit⟩
  rw [← complete_iff_seamless h.segment h.ascending hlimit, readRaw_ok hstart hlimit]
  constructor
  · rintro ⟨bs, hbs, hne, -, hpre⟩ -
    cases hbs
    exact ⟨hne, hpre⟩
  · intro hcomplete
    obtain ⟨hne, hpre⟩ := hcomplete hsome
    exact ⟨_, rfl, hne, hpre.isInfix.trans (isInfix_wanted h.ascending), hpre⟩

/-! ## Logs that were appended to -/

/-- The index entries that appending leaves: the first batch, and each one that starts `interval` bytes
or more after the last entry. -/
def indexEntries (interval : ℕ) : List Batch → ℕ → List ℤ
  | [], _ => []
  | b :: bs, gap =>
    if interval ≤ gap then b.baseOffset :: indexEntries interval bs b.size
    else indexEntries interval bs (gap + b.size)

def Segment.raw (interval : ℕ) (seg : Segment) : RawSegment where
  base := seg.base
  lastOffset := seg.lastOffset
  batches := seg.batches
  index := indexEntries interval seg.batches interval

/-- The partition log as a read sees it. -/
def PartitionLog.raw (cfg : LogConfig) (log : PartitionLog) : RawLog where
  segments := log.segments.map (Segment.raw cfg.indexInterval)
  active := log.active.raw cfg.indexInterval
  logStart := log.logStartOffset

lemma exists_mem_of_indexEntries {interval gap : ℕ} {bs : List Batch} {o : ℤ}
    (ho : o ∈ indexEntries interval bs gap) : ∃ b ∈ bs, b.baseOffset = o := by
  induction bs generalizing gap with
  | nil => cases ho
  | cons b bs ih =>
    rw [indexEntries] at ho
    split at ho
    · rcases mem_cons.mp ho with rfl | ho
      · exact ⟨b, mem_cons_self, rfl⟩
      · obtain ⟨x, hx, hxo⟩ := ih ho
        exact ⟨x, mem_cons_of_mem _ hx, hxo⟩
    · obtain ⟨x, hx, hxo⟩ := ih ho
      exact ⟨x, mem_cons_of_mem _ hx, hxo⟩

lemma Laid.ascending {start : ℤ} {bs : List Batch} (h : Laid start bs) : Ascending bs := by
  induction bs generalizing start with
  | nil => exact .nil
  | cons b bs ih =>
    refine pairwise_cons.mpr ⟨fun x hx => ?_, ih h.2⟩
    have := h.2.start_le_base x hx
    omega

lemma PartitionLog.Layout.raw_wellFormed {cfg : LogConfig} {log : PartitionLog} (h : log.Layout)
    (hsizes : ∀ b ∈ log.batches, headerLen ≤ b.size) : (log.raw cfg).WellFormed := by
  have hsegs : (log.raw cfg).segments ++ [(log.raw cfg).active] =
      (log.segments ++ [log.active]).map (Segment.raw cfg.indexInterval) := by
    simp [PartitionLog.raw]
  have hbatches : (log.raw cfg).batches = log.batches := by
    rw [RawLog.batches, hsegs, flatMap_map]
    rfl
  refine ⟨fun seg hseg => ?_, hbatches ▸ h.laid.ascending⟩
  rw [hsegs] at hseg
  obtain ⟨s, hs, rfl⟩ := mem_map.mp hseg
  have hsub : ∀ b ∈ s.batches, b ∈ log.batches := fun b hb => mem_flatMap.mpr ⟨s, hs, hb⟩
  have hasc : Ascending s.batches :=
    h.laid.ascending.sublist (sublist_flatten_of_mem (mem_map_of_mem hs))
  refine ⟨fun b hb => hsizes b (hsub b hb), fun b hb => ?_, fun o ho => exists_mem_of_indexEntries ho⟩
  -- The last batch of a segment gives its last offset.
  show b.lastOffset ≤ s.lastOffset
  rcases eq_nil_or_concat' s.batches with hnil | ⟨init, x, hcat⟩
  · rw [Segment.raw, hnil] at hb
    cases hb
  · have hlast : s.lastOffset = x.lastOffset := by
      rw [Segment.lastOffset, hcat, List.getLast?_concat]
    rw [hlast]
    have hb' : b ∈ init ++ [x] := hcat ▸ hb
    rcases Found.mem_snoc.mp hb' with hb' | hb'
    · have := (pairwise_append.mp (hcat ▸ hasc)).2.2 b hb' x mem_cons_self
      have := x.base_le_last
      omega
    · rw [hb']

def threeBatches (cfg : LogConfig) : PartitionLog :=
  (({} : PartitionLog).append cfg { size := 70 }).append cfg { size := 70 } |>.append cfg { size := 70 }

/-- Segments that are full with two of them. -/
def shortSegments : LogConfig where
  segmentSize := 140
  indexInterval := 4096

def longSegment : LogConfig where
  segmentSize := 4096
  indexInterval := 4096

lemma layout_threeBatches_short : (threeBatches shortSegments).Layout :=
  ⟨rfl, ⟨rfl, rfl, trivial⟩, rfl, ⟨rfl, trivial⟩, trivial⟩

lemma layout_threeBatches_long : (threeBatches longSegment).Layout :=
  ⟨rfl, ⟨rfl, rfl, rfl, trivial⟩, trivial⟩

/-- With room for both segments, a read goes over the roll. -/
theorem readRaw_complete_acrossRoll :
    let log := (threeBatches shortSegments).raw shortSegments
    (∃ bs, log.readRaw 1 3 1000 = .ok bs ∧ bs ≠ [] ∧ bs <:+: log.batches ∧
        bs <+: wanted 1 3 log.batches) ∧
      (log.readRaw 1 3 1000).toOption.map (·.map Batch.baseOffset) = some [1, 2] :=
  ⟨(readRaw_complete_iff (layout_threeBatches_short.raw_wellFormed (by decide +kernel)) 1000
      (by decide +kernel) (by decide) (by decide +kernel)).1.mpr (by decide +kernel),
    by decide +kernel⟩

/-- With room for one batch and a part of the next, the second batch of the first segment is passed over.
And in one segment, a read of the third batch finds nothing. -/
theorem readRaw_passes_over :
    ((threeBatches shortSegments).raw shortSegments).WellFormed ∧
      (((threeBatches shortSegments).raw shortSegments).readRaw 0 3 100).toOption.map
        (·.map Batch.baseOffset) = some [0, 2] ∧
      ((threeBatches longSegment).raw longSegment).WellFormed ∧
      (wanted 2 3 ((threeBatches longSegment).raw longSegment).batches).length = 1 ∧
      (((threeBatches longSegment).raw longSegment).readRaw 2 3 100).toOption = some [] :=
  ⟨layout_threeBatches_short.raw_wellFormed (by decide +kernel), by decide +kernel,
    layout_threeBatches_long.raw_wellFormed (by decide +kernel), by decide +kernel,
    by decide +kernel⟩

end Crabka.Log
