import Crabka.Log.Built

/-!
# Truncation equals never having appended

`truncate_to` cuts segments and the checkpoint and rebuilds what is tracked about producers. At a batch boundary the
log is then the one built from the batches below it (`truncateTo_eq_build`), in runs in which recovery is exact and no
truncation leaves an aborted transaction in the index of the segment that it cuts: the `.txnindex` is not truncated
(`truncateTo_keeps_aborted`).
-/

namespace Crabka.Log
open List hiding getElem?_filter
open Found
open Std (ExtTreeMap)
namespace PartitionLog
variable {cfg : LogConfig} {log : PartitionLog} {b : Batch} {pre post : List Batch} {o : ℤ}

/-! ## Prefixes of the batches -/

lemma takeWhile_of_le (h : Laid 0 (pre ++ post)) (ho : o ≤ endOf 0 pre) :
    (pre ++ post).takeWhile (·.lastOffset < o) = pre.takeWhile (·.lastOffset < o) := by
  rw [takeWhile_append]
  split_ifs with hall
  · have hpost : post.takeWhile (·.lastOffset < o) = [] := by
      rw [takeWhile_eq_nil_iff]
      intro hne hlt
      have hbase := (laid_append.mp h).2.start_le_base _ (getElem_mem hne)
      have hlast := (ho.trans hbase).trans (post[0]).base_le_last
      exact absurd hlast (not_le.mpr (by simpa using hlt))
    rw [hpost, append_nil, (takeWhile_sublist _).eq_of_length hall]
  · rfl

lemma takeWhile_endOf (h : Laid 0 (pre ++ post)) : (pre ++ post).takeWhile (·.lastOffset < endOf 0 pre) = pre := by
  rw [takeWhile_of_le h le_rfl, takeWhile_eq_self_iff]
  exact fun b hb => by simpa using (laid_append.mp h).1.last_lt_endOf b hb

lemma endOf_snoc (bs : List Batch) (b : Batch) : endOf 0 (bs ++ [b]) = b.lastOffset + 1 := by
  rw [endOf_append]
  rfl

lemma pending_lt_endOf {bs : List Batch} (h : Laid 0 bs) {pid x : ℤ}
    (hx : (trackOf bs).pending[pid]? = some x) : x < endOf 0 bs := by
  induction bs using List.reverseRecOn with
  | nil => simp [trackOf] at hx
  | append_singleton bs b ih =>
    obtain ⟨hbs, hb, -⟩ := laid_append.mp h
    have hlast := b.base_le_last
    have hend := endOf_snoc bs b
    rw [trackOf_snoc] at hx
    rcases pending_note hx with hold | ⟨-, rfl, -⟩
    · have := ih hbs hold
      omega
    · omega

variable {t : Tracked}

lemma isSome_producerState_note {pid : ℤ} (h : t.producerState[pid]?.isSome) (b : Batch) :
    (t.note b).producerState[pid]?.isSome := by
  have hupsert : ∀ d f, (upsert t.producerState b.producerId d f)[pid]?.isSome := by
    intro d f
    rw [Tracked.getElem?_upsert]
    split
    · rfl
    · exact h
  unfold Tracked.note updateOwnedProducerEntry updateDataProducerEntry
  split
  · exact h
  · split
    · exact hupsert _ _
    · split
      · exact h
      · exact hupsert _ _

lemma isSome_producerState_foldl {pid : ℤ} (h : t.producerState[pid]?.isSome)
    (bs : List Batch) : (bs.foldl Tracked.note t).producerState[pid]?.isSome := by
  induction bs generalizing t with
  | nil => exact h
  | cons b bs ih => exact ih (isSome_producerState_note h b)

lemma eq_empty_of_producerState (hok : ∀ pid, EntryOk t pid)
    (h : ∀ pid : ℤ, t.producerState[pid]? = none) : t = {} := by
  have hstate : t.producerState = ∅ := by
    refine ExtTreeMap.ext_getElem? fun {pid} => ?_
    rw [h pid]
    simp
  rw [← Tracked.ofSnapshot_producerState hok, hstate]
  rfl

lemma trackOf_eq_empty (h : Laid 0 (pre ++ post)) (hregular : ∀ b ∈ pre ++ post, b.Regular)
    (hempty : (trackOf (pre ++ post)).producerState.isEmpty) :
    trackOf (pre ++ post) = {} ∧ trackOf pre = {} := by
  have hnone := isEmpty_iff_forall.mp hempty
  refine ⟨eq_empty_of_producerState (entryOk_trackOf le_rfl h hregular) hnone,
    eq_empty_of_producerState (entryOk_trackOf le_rfl (laid_append.mp h).1 fun b hb =>
      hregular b (mem_append_left _ hb)) fun pid => ?_⟩
  by_contra hsome
  have := isSome_producerState_foldl (Option.isSome_iff_ne_none.mpr hsome) post
  rw [← trackOf_append, hnone pid] at this
  cases this

/-! ## The checkpoint -/

lemma startOffset_lt_epochsOf {bs : List Batch} (h : Laid 0 bs) :
    ∀ e ∈ epochsOf bs, e.startOffset < endOf 0 bs := by
  induction bs using List.reverseRecOn with
  | nil => exact fun _ he => nomatch he
  | append_singleton bs b ih =>
    obtain ⟨hbs, hb, -⟩ := laid_append.mp h
    have hlast := b.base_le_last
    have hend := endOf_snoc bs b
    rw [hend, epochsOf, foldl_append]
    exact startOffset_lt_noteEpoch (ih hbs) (by omega) (by omega)

lemma truncateTo_noteEpoch {c : LeaderEpochCheckpoint} {epoch base : ℤ} (h : o ≤ base) :
    (c.noteEpoch epoch base).truncateTo o = c.truncateTo o := by
  unfold LeaderEpochCheckpoint.noteEpoch LeaderEpochCheckpoint.appendTo LeaderEpochCheckpoint.truncateTo
  split
  · split
    · rfl
    · rw [filter_append, filter_cons_of_neg (by simpa using h), filter_nil,
        append_nil]
  · rfl

lemma truncateTo_epochsOf (h : Laid 0 (pre ++ post)) :
    (epochsOf (pre ++ post)).truncateTo (endOf 0 pre) = epochsOf pre := by
  have hpre : (epochsOf pre).truncateTo (endOf 0 pre) = epochsOf pre := by
    unfold LeaderEpochCheckpoint.truncateTo
    rw [filter_eq_self]
    exact fun e he => by simpa using startOffset_lt_epochsOf (laid_append.mp h).1 e he
  have hpost : ∀ (bs : List Batch) (c : LeaderEpochCheckpoint),
      (∀ b ∈ bs, endOf 0 pre ≤ b.baseOffset) →
      (bs.foldl (fun c b => c.noteEpoch b.leaderEpoch b.baseOffset) c).truncateTo (endOf 0 pre) =
        c.truncateTo (endOf 0 pre) := by
    intro bs
    induction bs with
    | nil => exact fun _ _ => rfl
    | cons b bs ih =>
      intro c hbs
      obtain ⟨hb, hbs⟩ := forall_mem_cons.mp hbs
      rw [foldl_cons, ih _ hbs, truncateTo_noteEpoch hb]
  rwa [epochsOf, foldl_append, hpost _ _ (laid_append.mp h).2.start_le_base]

/-! ## The cut -/

/-- No aborted transaction from the offset on is in the index of a segment that stays. -/
def IndexBelow (log : PartitionLog) (o : ℤ) : Prop :=
  ∀ seg ∈ log.segments ++ [log.active], seg.base < o → ∀ e ∈ seg.txnIndex, e.lastOffset < o

lemma SegmentGrows.truncateTo {seg seg' : Segment} (h : SegmentGrows o seg seg')
    (hbelow : ∀ b ∈ seg.batches, b.lastOffset < o) (hindex : ∀ e ∈ seg'.txnIndex, e.lastOffset < o) :
    seg'.truncateTo o = seg := by
  obtain ⟨hbase, ⟨bs, hbs, hbs'⟩, es, hes, hes'⟩ := h
  have hnil : es = [] := by
    rw [eq_nil_iff_forall_not_mem]
    intro e he
    exact absurd (hindex e (hes ▸ mem_append_right _ he)) (not_lt.mpr (hes' e he))
  have hcut : seg'.batches.takeWhile (·.lastOffset < o) = seg.batches := by
    rw [hbs, takeWhile_append_of_pos fun b hb => by simpa using hbelow b hb]
    have hadded : bs.takeWhile (·.lastOffset < o) = [] := by
      rw [takeWhile_eq_nil_iff]
      intro hne hlt
      have hlast := (hbs' _ (getElem_mem hne)).trans (bs[0]).base_le_last
      exact absurd hlast (not_le.mpr (by simpa using hlt))
    rw [hadded, append_nil]
  unfold Segment.truncateTo
  rw [hcut, hbase, hes, hnil, append_nil]

lemma cutSegments_eq {short : PartitionLog} (hlayout : short.Layout)
    (h : Extends short.logEndOffset short (log.segments ++ [log.active]))
    (hactive : short.active.base < short.logEndOffset)
    (hindex : log.IndexBelow short.logEndOffset) :
    log.cutSegments short.logEndOffset = { log with segments := short.segments, active := short.active } := by
  obtain ⟨seg, rest, heq, hseg, hrest⟩ := h
  have hbase : seg.base < short.logEndOffset := hseg.base ▸ hactive
  have hdrop : (log.segments ++ [log.active]).reverse.dropWhile
      (short.logEndOffset ≤ ·.base) = seg :: short.segments.reverse := by
    rw [heq, reverse_append, reverse_cons, append_assoc,
      dropWhile_append_of_pos fun s hs => by simpa using hrest s (mem_reverse.mp hs)]
    exact dropWhile_cons_of_neg (by simpa using hbase)
  have hcut : seg.truncateTo short.logEndOffset = short.active := by
    refine hseg.truncateTo (fun b hb => ?_) (hindex seg ?_ hbase)
    · rw [logEndOffset_active]
      exact hlayout.active_laid.last_lt_endOf b hb
    · rw [heq]
      exact mem_append_cons_self
  unfold cutSegments
  rw [hdrop]
  simp only [reverse_reverse, hcut]

lemma cutSegments_zero (h : log.Layout) :
    log.cutSegments 0 = { log with segments := [], active := { base := 0 } } := by
  have hdrop : (log.segments ++ [log.active]).reverse.dropWhile (fun s => decide (0 ≤ s.base)) = [] := by
    rw [dropWhile_eq_nil_iff]
    intro seg hseg
    obtain ⟨before, after, hsplit⟩ := append_of_mem (mem_reverse.mp hseg)
    have hchain : SegChain 0 (log.segments ++ [log.active]) := h
    rw [hsplit] at hchain
    obtain ⟨hbefore, hbase, -⟩ := segChain_append.mp hchain
    simpa [hbase] using hbefore.laid.start_le_endOf
  unfold cutSegments
  rw [hdrop]

/-! ## Logs that are built from their batches -/

/-- In a clean run the log is the one built from its batches, and the last stable offset was always where recovery
finds it. -/
structure Rewound (cfg : LogConfig) (log : PartitionLog) : Prop where
  inv : Inv cfg log
  built : log.core = (build cfg log.batches).core
  stable : ∀ pre post, log.batches = pre ++ post → IsStable (trackOf pre).pending (endOf 0 pre) (build cfg pre).lso

/-- The log built from a prefix, with the snapshots up to its end. -/
def rewind (cfg : LogConfig) (log : PartitionLog) (pre : List Batch) : PartitionLog :=
  { build cfg pre with snapshots := log.snapshots.filter fun s _ => s ≤ endOf 0 pre }

/-- The indexes that stay hold nothing past the offset, and snapshots past it are only there when they are removed. -/
def CleanCut (log : PartitionLog) (o : ℤ) : Prop :=
  log.IndexBelow o ∧
    (log.segments ≠ [] ∨ log.tracked.producerState.isEmpty = false ∨ ∀ s ∈ log.snapshots.toList, s.1 ≤ o)

lemma getElem?_rewind {offset : ℤ} {state : ProducerState}
    (h : (log.rewind cfg pre).snapshots[offset]? = some state) :
    log.snapshots[offset]? = some state ∧ offset ≤ endOf 0 pre := by
  unfold rewind at h
  rw [getElem?_filter] at h
  simpa using Option.filter_eq_some_iff.mp h

namespace Rewound
section
variable (h : Rewound cfg log)
include h

lemma epochCheckpoint_eq :
    log.epochCheckpoint = (build cfg log.batches).epochCheckpoint :=
  show log.core.epochCheckpoint = (build cfg log.batches).core.epochCheckpoint from congrArg epochCheckpoint h.built

lemma lso_eq : log.lso = (build cfg log.batches).lso :=
  show log.core.lso = (build cfg log.batches).core.lso from congrArg lso h.built

section
variable (hsplit : log.batches = pre ++ post)
include hsplit

lemma extends_rewind : Extends (build cfg pre).logEndOffset (build cfg pre) (log.segments ++ [log.active]) := by
  have hext := (extends_refl _ (build cfg pre)).appends le_rfl cfg post
  rw [← build_append] at hext
  have hcore := h.built
  rw [hsplit] at hcore
  have hsegs : log.core.segments = (build cfg (pre ++ post)).core.segments := congrArg segments hcore
  have hactive : log.core.active = (build cfg (pre ++ post)).core.active := congrArg active hcore
  change log.segments = _ at hsegs
  change log.active = _ at hactive
  rwa [hsegs, hactive]

lemma anchored_rewind :
    ∀ seg ∈ ((build cfg pre).segments ++ [(build cfg pre).active]).tail, ∃ state,
      (log.rewind cfg pre).snapshots[seg.base]? = some state := by
  intro seg hseg
  have hlaid : Laid 0 pre := (laid_append.mp (hsplit ▸ h.inv.layout.laid)).1
  have hlayout := layout_build cfg pre
  have hle : seg.base ≤ endOf 0 pre := by
    rw [← logEndOffset_build cfg hlaid, logEndOffset_active]
    exact (base_le_active hlayout seg (mem_of_mem_tail hseg)).trans hlayout.active_laid.start_le_endOf
  obtain ⟨grown, rest, heq, hgrown, -⟩ := h.extends_rewind hsplit
  obtain ⟨seg', hseg', hbase⟩ := exists_base_eq (build cfg pre).segments hgrown.base hseg
  have hmem : seg' ∈ (log.segments ++ [log.active]).tail := by
    rw [heq, append_cons, tail_append_of_ne_nil (by simp)]
    exact mem_append_left _ hseg'
  obtain ⟨state, hget⟩ := h.inv.anchored seg' hmem
  refine ⟨state, ?_⟩
  unfold rewind
  rw [getElem?_filter, ← hbase, hget]
  simpa [hbase] using hle

lemma rewind : Rewound cfg (log.rewind cfg pre) := by
  have hlaid : Laid 0 (pre ++ post) := hsplit ▸ h.inv.layout.laid
  have hpre := (laid_append.mp hlaid).1
  have hbatches : (log.rewind cfg pre).batches = pre := batches_build cfg hpre
  have hend : (log.rewind cfg pre).logEndOffset = endOf 0 pre := logEndOffset_build cfg hpre
  have htracked : (log.rewind cfg pre).tracked = trackOf pre := tracked_build cfg hpre
  have hsub : ∀ b ∈ pre, b ∈ log.batches := fun b hb => hsplit ▸ mem_append_left _ hb
  refine
    { inv :=
        { layout := layout_build cfg pre
          snapshots :=
            { nonneg := fun offset state hs =>
                h.inv.snapshots.nonneg offset state (getElem?_rewind hs).1
              right := fun offset state hs hle => ?_ }
          snapshotsLe := fun offset state hs => hend ▸ (getElem?_rewind hs).2
          anchored := h.anchored_rewind hsplit
          tracked := by rw [htracked, hbatches]
          below := fun pid x hx => ?_
          epochs := ?_
          stable := ?_
          regular := fun b hb => h.inv.regular b (hsub b (hbatches ▸ hb))
          fits := fun b hb => h.inv.fits b (hsub b (hbatches ▸ hb)) }
      built := ?_
      stable := fun p q hpq => ?_ }
  · obtain ⟨hget, hle'⟩ := getElem?_rewind hs
    have hright := h.inv.snapshots.right offset state hget (h.inv.snapshotsLe offset state hget)
    rw [hsplit, takeWhile_of_le hlaid hle'] at hright
    rw [hbatches, hright]
  · rw [htracked] at hx
    rw [hend]
    exact pending_lt_endOf hpre hx
  · have hepochs : (log.rewind cfg pre).epochCheckpoint = epochsOf pre :=
      epochCheckpoint_build cfg hpre
    rw [hend, hepochs]
    exact startOffset_lt_epochsOf hpre
  · rw [hend, htracked]
    exact h.stable pre post hsplit
  · rw [hbatches]
    rfl
  · rw [hbatches] at hpq
    exact h.stable p (q ++ post) (by rw [hsplit, hpq, append_assoc])

lemma stableOffset_eq :
    stableOffset (trackOf pre) (endOf 0 pre) = (build cfg pre).lso :=
  stableOffset_eq_of_isStable (h.stable pre post hsplit)

lemma lso_le : (build cfg pre).lso ≤ endOf 0 pre := by
  have hlaid : Laid 0 pre := (laid_append.mp (hsplit ▸ h.inv.layout.laid)).1
  rcases h.stable pre post hsplit with ⟨-, hlso⟩ | ⟨⟨pid, hpid⟩, -⟩
  · exact hlso.le
  · exact (pending_lt_endOf hlaid hpid).le

end

lemma rewind_self : log.rewind cfg log.batches = log := by
  have hsnap : log.snapshots.filter (fun s _ => s ≤ endOf 0 log.batches) = log.snapshots :=
    filter_eq_self_iff.mpr fun s state hs => by
      simpa [← h.inv.layout.logEndOffset_eq] using h.inv.snapshotsLe s state hs
  have hcore := h.built
  unfold PartitionLog.rewind
  rw [hsnap]
  exact (congrArg (fun l : PartitionLog => { l with snapshots := log.snapshots }) hcore).symm

section
variable (hsplit : log.batches = pre ++ post)
include hsplit

lemma cutSegments_eq (hindex : log.IndexBelow (endOf 0 pre)) :
    log.cutSegments (endOf 0 pre) =
      { log with segments := (build cfg pre).segments, active := (build cfg pre).active } := by
  by_cases hnil : pre = []
  · subst hnil
    exact cutSegments_zero h.inv.layout
  · have hlaid : Laid 0 pre := (laid_append.mp (hsplit ▸ h.inv.layout.laid)).1
    have hend := logEndOffset_build cfg hlaid
    rw [← hend] at hindex ⊢
    exact PartitionLog.cutSegments_eq (layout_build cfg pre) (h.extends_rewind hsplit)
      (active_base_build_lt cfg hnil) hindex

lemma rebuild_rewind
    (snapshots : ExtTreeMap ℤ ProducerState)
    (hsnap : snapshots.filter (fun s _ => s ≤ endOf 0 pre) = (log.rewind cfg pre).snapshots)
    (hsub : ∀ (s : ℤ) state, snapshots[s]? = some state → log.snapshots[s]? = some state) :
    PartitionLog.rebuild cfg { log with
        segments := (build cfg pre).segments
        active := (build cfg pre).active
        snapshots := snapshots } =
      .ok { log.rewind cfg pre with epochCheckpoint := log.epochCheckpoint } := by
  set R := log.rewind cfg pre
  have hinv := (h.rewind hsplit).inv
  have hpre : Laid 0 pre := (laid_append.mp (hsplit ▸ h.inv.layout.laid)).1
  have hbatches : R.batches = pre := batches_build cfg hpre
  have hend : R.logEndOffset = endOf 0 pre := logEndOffset_build cfg hpre
  have hget : ∀ (s : ℤ) state, s ≤ endOf 0 pre → snapshots[s]? = some state → R.snapshots[s]? = some state := by
    intro s state hle hs
    rw [← hsnap, getElem?_filter, hs]
    simpa using hle
  have hrebuild := rebuild_eq cfg
    { log with
      segments := (build cfg pre).segments
      active := (build cfg pre).active
      snapshots := snapshots }
    hinv.layout
    { nonneg := fun s state hs => h.inv.snapshots.nonneg s state (hsub s state hs)
      right := fun s state hs hle =>
        hinv.snapshots.right s state (hget s state (hend ▸ hle) hs) hle }
    ?_ hinv.regular
    (fun b hb => hinv.fits b (by rw [batches_eq]; exact mem_append_right _ hb))
  · rw [hrebuild]
    show Except.ok { log with
      segments := (build cfg pre).segments
      active := (build cfg pre).active
      tracked := trackOf R.batches
      snapshots := snapshots.filter fun s _ => s ≤ R.logEndOffset
      lso := stableOffset (trackOf R.batches) R.logEndOffset } = _
    rw [hbatches, hend, hsnap, h.stableOffset_eq hsplit, ← tracked_build cfg hpre]
    rfl
  · by_cases hsegs : (build cfg pre).segments = []
    · exact .inl hsegs
    · obtain ⟨state, hstate⟩ := h.anchored_rewind hsplit (build cfg pre).active (by
        rw [tail_append_of_ne_nil hsegs]
        exact mem_append_cons_self)
      refine .inr ⟨state, ?_⟩
      rw [← hsnap, getElem?_filter] at hstate
      exact (Option.filter_eq_some_iff.mp hstate).1

lemma truncateTo_epochCheckpoint :
    log.epochCheckpoint.truncateTo (endOf 0 pre) = (build cfg pre).epochCheckpoint := by
  have hlaid : Laid 0 (pre ++ post) := hsplit ▸ h.inv.layout.laid
  have heq : log.epochCheckpoint = epochsOf (pre ++ post) := by
    rw [← epochCheckpoint_build cfg hlaid, ← hsplit]
    exact h.epochCheckpoint_eq
  rw [heq, truncateTo_epochsOf hlaid, epochCheckpoint_build cfg (laid_append.mp hlaid).1]

lemma truncateTo_end (hdone : log.logEndOffset ≤ endOf 0 pre) :
    log.truncateTo cfg (endOf 0 pre) = .ok (log.rewind cfg pre) := by
  obtain ⟨-, hpost⟩ := laid_append.mp (hsplit ▸ h.inv.layout.laid)
  have hend : log.logEndOffset = endOf (endOf 0 pre) post := by
    rw [h.inv.layout.logEndOffset_eq, hsplit, endOf_append]
  have hnil : post = [] := by
    rw [eq_nil_iff_forall_not_mem]
    intro b hb
    have hge := hpost.start_le_base b hb
    have hlt := hpost.last_lt_endOf b hb
    have := b.base_le_last
    omega
  rw [hnil, append_nil] at hsplit
  unfold PartitionLog.truncateTo
  rw [if_pos hdone, ← hsplit, h.rewind_self]

/-- **A truncation gives the log built from the batches below it.** -/
theorem truncateTo_eq (hclean : log.CleanCut (endOf 0 pre)) :
    log.truncateTo cfg (endOf 0 pre) = .ok (log.rewind cfg pre) := by
  have hlaid : Laid 0 (pre ++ post) := hsplit ▸ h.inv.layout.laid
  obtain ⟨hpre, hpost⟩ := laid_append.mp hlaid
  have hepochs := h.truncateTo_epochCheckpoint hsplit
  by_cases hdone : log.logEndOffset ≤ endOf 0 pre
  · exact h.truncateTo_end hsplit hdone
  · have hstart : ¬ endOf 0 pre < log.logStartOffset := by
      rw [h.inv.layout.logStartOffset]
      exact not_lt.mpr hpre.start_le_endOf
    -- Either way the snapshots that matter are those up to the offset.
    obtain ⟨snapshots, hsnapshots⟩ : ∃ s, s = if log.segments.isEmpty then log.snapshots
        else log.snapshots.filter fun s _ => s ≤ endOf 0 pre := ⟨_, rfl⟩
    unfold PartitionLog.truncateTo
    rw [if_neg hdone, if_neg hstart]
    simp only [h.cutSegments_eq hsplit hclean.1, ← hsnapshots]
    by_cases hempty : log.tracked.producerState.isEmpty
    · -- No producer is known, and nothing is rebuilt.
      have htracked := h.inv.tracked
      rw [hsplit] at htracked
      obtain ⟨hall, hshort⟩ := trackOf_eq_empty hlaid (hsplit ▸ h.inv.regular) (htracked ▸ hempty)
      have hlso : ∀ {p q : List Batch}, log.batches = p ++ q → trackOf p = {} → (build cfg p).lso = endOf 0 p := by
        intro p q hpq hp
        rw [← h.stableOffset_eq hpq, hp]
        rfl
      have hlive : log.lso = endOf 0 (pre ++ post) := by
        rw [← hlso (q := []) (by rw [append_nil, hsplit]) hall, ← hsplit]
        exact h.lso_eq
      have hkept : snapshots = log.snapshots.filter fun s _ => s ≤ endOf 0 pre := by
        rw [hsnapshots]
        split_ifs with hsegs
        · have hle := (hclean.2.resolve_left (not_not.mpr (by simpa using hsegs))).resolve_left
            (by rw [hempty]; decide)
          exact (filter_eq_self_iff.mpr fun s state hs => by
            simpa using hle (s, state) ((mem_toList _).mpr hs)).symm
        · rfl
      have hmin : min log.lso (build cfg pre).logEndOffset = (build cfg pre).lso := by
        rw [hlso hsplit hshort, logEndOffset_build cfg hpre, hlive, endOf_append]
        exact min_eq_right hpost.start_le_endOf
      rw [if_pos hempty, ok_bind]
      show Except.ok { log with
        segments := (build cfg pre).segments
        active := (build cfg pre).active
        snapshots := snapshots
        lso := min log.lso (build cfg pre).logEndOffset
        epochCheckpoint := log.epochCheckpoint.truncateTo (build cfg pre).logEndOffset } = _
      rw [hmin, logEndOffset_build cfg hpre, hepochs, htracked, hall, hkept, ← hshort, ← tracked_build cfg hpre]
      rfl
    · have hsub : ∀ (s : ℤ) state, snapshots[s]? = some state → log.snapshots[s]? = some state := by
        intro s state hs
        rw [hsnapshots] at hs
        split at hs
        · exact hs
        · rw [getElem?_filter] at hs
          exact (Option.filter_eq_some_iff.mp hs).1
      have hkept : snapshots.filter (fun s _ => s ≤ endOf 0 pre) = (log.rewind cfg pre).snapshots := by
        rw [hsnapshots]
        split
        · rfl
        · refine filter_eq_self_iff.mpr fun s state hs => ?_
          rw [getElem?_filter] at hs
          exact (Option.filter_eq_some_iff.mp hs).2
      rw [if_neg hempty, h.rebuild_rewind hsplit snapshots hkept hsub, ok_bind]
      show Except.ok { log.rewind cfg pre with
        lso := min (build cfg pre).lso (build cfg pre).logEndOffset
        epochCheckpoint := log.epochCheckpoint.truncateTo (build cfg pre).logEndOffset } = _
      rw [logEndOffset_build cfg hpre, min_eq_left (h.lso_le hsplit), hepochs]
      rfl

end

lemma append (hregular : b.Regular) (hfits : Fits cfg b)
    (hrel : log.Releases b) : Rewound cfg (log.append cfg b) := by
  have hinv := h.inv.append hregular hfits hrel
  have hbatches := batches_append cfg log b
  have hbuilt : (log.append cfg b).core = (build cfg (log.append cfg b).batches).core := by
    rw [hbatches, build_snoc]
    exact core_append_congr h.built b
  refine ⟨hinv, hbuilt, fun pre post hsplit => ?_⟩
  rcases eq_nil_or_concat' post with rfl | ⟨init, last, rfl⟩
  · have hlso : (log.append cfg b).lso = (build cfg (log.append cfg b).batches).lso :=
      show (log.append cfg b).core.lso = (build cfg (log.append cfg b).batches).core.lso from congrArg lso hbuilt
    have hstable := hinv.stable
    rwa [hinv.tracked, hinv.layout.logEndOffset_eq, hlso, hsplit, append_nil] at hstable
  · rw [hbatches, ← append_assoc] at hsplit
    exact h.stable pre init (append_inj' hsplit rfl).1

end

lemma empty (cfg : LogConfig) : Rewound cfg {} where
  inv := inv_empty cfg
  built := rfl
  stable := by
    intro pre post hsplit
    obtain ⟨rfl, -⟩ := append_eq_nil_iff.mp hsplit.symm
    exact .inl ⟨fun _ => by simp [trackOf], rfl⟩

end Rewound

/-! ## Runs -/

/-- The calls of a live log, and truncations. -/
inductive EditStep where
  | step (l : LogStep)
  | truncateTo (o : ℤ)
  deriving DecidableEq

/-- The batch boundaries between the log start and the log end. -/
def Boundary (log : PartitionLog) (o : ℤ) : Prop := o = 0 ∨ ∃ b ∈ log.batches, o = b.lastOffset + 1

def editSys (cfg : LogConfig) : Sys PartitionLog EditStep where
  enabled log
    | .step l => (sys cfg).enabled log l
    | .truncateTo o => log.Boundary o
  next log
    | .step l => (sys cfg).next log l
    | .truncateTo o => ((log.truncateTo cfg o).toOption).getD log

/-- The steps after which recovery is exact, and truncations that leave nothing behind. -/
def CleanEdit (cfg : LogConfig) (log : PartitionLog) : EditStep → Prop
  | .step l => Proper cfg log l
  | .truncateTo o => log.CleanCut o

instance (log : PartitionLog) (o : ℤ) : Decidable (log.Boundary o) :=
  inferInstanceAs (Decidable (_ ∨ _))

instance (log : PartitionLog) (o : ℤ) : Decidable (log.IndexBelow o) :=
  inferInstanceAs (Decidable (∀ seg ∈ _, _))

instance (log : PartitionLog) (o : ℤ) : Decidable (log.CleanCut o) :=
  inferInstanceAs (Decidable (_ ∧ _))

instance (cfg : LogConfig) (log : PartitionLog) (l : EditStep) :
    Decidable ((editSys cfg).enabled log l) := by
  cases l <;> unfold editSys <;> infer_instance

instance (cfg : LogConfig) (log : PartitionLog) (l : EditStep) :
    Decidable (CleanEdit cfg log l) := by
  cases l <;> unfold CleanEdit <;> infer_instance

lemma Boundary.exists_prefix (h : log.Boundary o) : ∃ pre post, log.batches = pre ++ post ∧ endOf 0 pre = o := by
  rcases h with rfl | ⟨b, hb, rfl⟩
  · exact ⟨[], log.batches, rfl, rfl⟩
  · obtain ⟨before, after, hsplit⟩ := append_of_mem hb
    refine ⟨before ++ [b], after, by rw [hsplit, append_cons], ?_⟩
    rw [endOf_append]
    rfl

lemma Rewound.edit (h : Rewound cfg log) {l : EditStep} (hen : (editSys cfg).enabled log l)
    (hok : CleanEdit cfg log l) : Rewound cfg ((editSys cfg).next log l) := by
  match l, hen, hok with
  | .step (.append b), _, hok => exact h.append hok.1 hok.2.1 hok.2.2
  | .step (.appendVerbatim b), hen, hok =>
    show Rewound cfg (log.appendVerbatim cfg b)
    rw [appendVerbatim_eq_append hen]
    exact h.append hok.1 hok.2.1 hok.2.2
  | .step .reopen, _, _ =>
    have hsame := h.inv.reopen (fun _ => true) (.inr rfl)
    rw [withSnapshots_true] at hsame
    show Rewound cfg ((log.reopen cfg).toOption.getD log)
    rwa [hsame]
  | .truncateTo o, hen, hok =>
    obtain ⟨pre, post, hsplit, rfl⟩ := Boundary.exists_prefix hen
    show Rewound cfg ((log.truncateTo cfg (endOf 0 pre)).toOption.getD log)
    rw [h.truncateTo_eq hsplit hok]
    exact h.rewind hsplit

lemma rewound_of_run (hrun : (editSys cfg).Run (CleanEdit cfg) {} log) : Rewound cfg log :=
  hrun.preserves (fun _ _ h hen hok => h.edit hen hok) (Rewound.empty cfg)

/-- **Truncation equals never having appended.** In every state of a clean run, a clean truncation to
a batch boundary succeeds, and what it leaves is what appends of the batches below the boundary make,
now and after any later appends. -/
theorem truncateTo_eq_build (hrun : (editSys cfg).Run (CleanEdit cfg) {} log)
    (hbound : log.Boundary o) (hclean : log.CleanCut o) :
    ∃ cut, log.truncateTo cfg o = .ok cut ∧ ∀ later : List Batch,
      (cut.appends cfg later).core = (build cfg (log.batches.takeWhile (·.lastOffset < o) ++ later)).core := by
  obtain ⟨pre, post, hsplit, rfl⟩ := hbound.exists_prefix
  have h := rewound_of_run hrun
  refine ⟨_, h.truncateTo_eq hsplit hclean, fun later => ?_⟩
  have hpre : log.batches.takeWhile (·.lastOffset < endOf 0 pre) = pre := by
    rw [hsplit]
    exact takeWhile_endOf (hsplit ▸ h.inv.layout.laid)
  have hcore : (log.rewind cfg pre).core = (build cfg pre).core := rfl
  rw [hpre, build_append]
  exact core_appends_congr hcore later

/-- An aborted transaction in a sealed segment, and one that is cut in the middle. -/
def abortedThenCut : List EditStep :=
  [.step (.append (txnBatch 1)), .step (.append (marker 1 0)), .step (.append (txnBatch 2)),
    .step (.append (marker 2 1))]

theorem truncateTo_eq_build_cut :
    let log := (editSys smallSegments).execs {} abortedThenCut
    ∃ cut, log.truncateTo smallSegments 3 = .ok cut ∧ ∀ later : List Batch,
      (cut.appends smallSegments later).core =
        (build smallSegments (log.batches.takeWhile (·.lastOffset < 3) ++ later)).core :=
  truncateTo_eq_build (Sys.run_of_runsOk (by decide +kernel)) (by decide +kernel) (by decide +kernel)

/-- The marker of an aborted transaction is cut off. Its entry stays in the index, so the transaction
is still listed as aborted while it is open again. -/
theorem truncateTo_keeps_aborted :
    let log := (editSys smallSegments).execs {}
      [.step (.append (txnBatch 1)), .step (.append (marker 1 0))]
    (editSys smallSegments).AnyRun {} log ∧ log.Boundary 1 ∧
      (log.truncateTo smallSegments 1).toOption.map (·.abortedInRange 0 1) = some [⟨0, 1, 1⟩] ∧
      (build smallSegments (log.batches.takeWhile (·.lastOffset < 1))).abortedInRange 0 1 = [] :=
  ⟨Sys.run_of_runs, by decide +kernel⟩

end PartitionLog
end Crabka.Log
