import Crabka.Kraft.Log.ControlState

/-!
# The control state follows the log

In every run whose steps meet `Accounted`, the committed voter set and `kraft.version` are those of the newest record
below the high watermark, and the latest ones those of the newest in the log (`controls_follow_log`). A restart replays
the records below the high watermark only, so one above it is never accounted for, also not when it is committed later
(`restart_forgets_voters`).
-/

namespace Crabka.Kraft
open Found List ControlRecord KraftControlState

/-! ## Batches one after the other -/

section batches
variable {ρ : Type} {start stop o : ℤ} {bs : List (RecordBatch ρ)} {b : RecordBatch ρ}

def Contiguous : ℤ → List (RecordBatch ρ) → ℤ → Prop
  | start, [], stop => start = stop
  | start, b :: bs, stop => b.baseOffset = start ∧ Contiguous (b.lastOffset + 1) bs stop

namespace Contiguous
section
variable (h : Contiguous start bs stop)
include h

lemma start_le : start ≤ stop := by
  induction bs generalizing start with
  | nil => exact le_of_eq h
  | cons b bs ih =>
    have hrest := ih h.2
    have hbase := h.1
    unfold RecordBatch.lastOffset at hrest
    omega

lemma bounds : ∀ b ∈ bs, start ≤ b.baseOffset ∧ b.lastOffset < stop := by
  induction bs generalizing start with
  | nil => exact nofun
  | cons b bs ih =>
    have hrest := h.2.start_le
    have hlast : b.lastOffset = b.baseOffset + b.lastOffsetDelta := rfl
    refine forall_mem_cons.mpr ⟨⟨h.1.ge, by omega⟩, fun x hx => ?_⟩
    obtain ⟨hge, hlt⟩ := ih h.2 x hx
    have hbase := h.1
    exact ⟨by omega, hlt⟩

lemma snoc (hb : b.baseOffset = stop) : Contiguous start (bs ++ [b]) (b.lastOffset + 1) := by
  induction bs generalizing start with
  | nil => exact ⟨hb.trans (Eq.symm h), rfl⟩
  | cons x bs ih => exact ⟨h.1, ih h.2⟩

lemma takeWhile_eq_self (ho : stop ≤ o) : bs.takeWhile (·.lastOffset < o) = bs := by
  refine takeWhile_eq_self_iff.mpr fun b hb => ?_
  have hlt := (h.bounds b hb).2
  simp only [decide_eq_true_eq]
  omega

lemma takeWhile (hstart : start ≤ o) (hstop : o ≤ stop) (hcut : ∀ b ∈ bs, b.baseOffset < o → b.lastOffset < o) :
    Contiguous start (bs.takeWhile (·.lastOffset < o)) o := by
  induction bs generalizing start with
  | nil =>
    have heq : start = stop := h
    exact le_antisymm hstart (heq ▸ hstop)
  | cons b bs ih =>
    obtain ⟨hb, hbs⟩ := forall_mem_cons.mp hcut
    have hbase := h.1
    rw [takeWhile_cons]
    split
    · rename_i hlt
      have hlt' : b.lastOffset < o := by simpa using hlt
      exact ⟨hbase, ih h.2 hlt' hbs⟩
    · rename_i hge
      have hge' : ¬ b.lastOffset < o := by simpa using hge
      have hnot : ¬ b.baseOffset < o := fun hlt => hge' (hb hlt)
      show start = o
      omega

end

lemma logEndOffset_eq (log : KraftLog ρ) (hbase : log.base = start)
    (h : Contiguous start log.batches stop) : log.logEndOffset = stop := by
  have hgen : ∀ {start : ℤ} {bs : List (RecordBatch ρ)}, Contiguous start bs stop →
      bs.getLast?.elim start (·.lastOffset + 1) = stop := by
    intro start bs hbs
    induction bs generalizing start with
    | nil => exact hbs
    | cons b bs ih =>
      rw [List.getLast?_cons]
      have hrest := ih hbs.2
      cases hlast : bs.getLast? with
      | none | some x => rwa [hlast] at hrest
  rw [← hgen (hbase ▸ h), KraftLog.logEndOffset]
  cases log.batches.getLast? <;> rfl

end Contiguous
end batches

/-! ## Entries of the log -/

section entries
variable {α : Type} {pick : ControlRecord → Option α} {bs : List (RecordBatch ControlRecord)}
  {b : RecordBatch ControlRecord} {start stop o : ℤ}

section
variable (pick)

lemma controlEntries_singleton (b : RecordBatch ControlRecord) :
    controlEntries pick [b] = if b.isControlBatch then
      b.records.filterMap fun r => (pick r.payload).map fun a => (b.baseOffset + r.offsetDelta, a)
    else [] := by
  rw [controlEntries, flatMap_singleton]

lemma controlEntries_append (bs bs' : List (RecordBatch ControlRecord)) :
    controlEntries pick (bs ++ bs') = controlEntries pick bs ++ controlEntries pick bs' :=
  flatMap_append

lemma controlEntries_cons (b : RecordBatch ControlRecord) (bs : List (RecordBatch ControlRecord)) :
    controlEntries pick (b :: bs) = controlEntries pick [b] ++ controlEntries pick bs :=
  controlEntries_append pick [b] bs

lemma controlEntries_bounds (hb : b.Ordered) :
    ∀ e ∈ controlEntries pick [b], b.baseOffset ≤ e.1 ∧ e.1 ≤ b.lastOffset := by
  intro e he
  rw [controlEntries_singleton] at he
  split at he
  · obtain ⟨r, hr, hre⟩ := mem_filterMap.mp he
    obtain ⟨a, -, rfl⟩ := Option.map_eq_some_iff.mp hre
    have := hb.2 r hr
    unfold RecordBatch.lastOffset
    simp only
    omega
  · cases he

end

lemma controlEntries_sorted (hb : b.Ordered) : (controlEntries pick [b]).Pairwise fun x y => x.1 < y.1 := by
  rw [controlEntries_singleton]
  split
  · refine pairwise_filterMap.mpr ((pairwise_map.mp hb.1).imp fun hlt => ?_)
    rintro e he e' he'
    obtain ⟨a, -, rfl⟩ := Option.map_eq_some_iff.mp he
    obtain ⟨a', -, rfl⟩ := Option.map_eq_some_iff.mp he'
    simp only
    omega
  · exact List.Pairwise.nil

lemma mem_controlEntries_iff {e : ℤ × α} : e ∈ controlEntries pick bs ↔ ∃ b ∈ bs, e ∈ controlEntries pick [b] := by
  unfold controlEntries
  simp only [mem_flatMap, flatMap_singleton]

lemma controlEntries_takeWhile (h : Contiguous start bs stop) (hord : ∀ b ∈ bs, b.Ordered)
    (hcut : ∀ b ∈ bs, b.baseOffset < o → b.lastOffset < o) :
    controlEntries pick (bs.takeWhile (·.lastOffset < o)) = (controlEntries pick bs).filter (·.1 < o) := by
  induction bs generalizing start with
  | nil => rfl
  | cons b bs ih =>
    obtain ⟨hb, hbs⟩ := forall_mem_cons.mp hcut
    obtain ⟨hbo, hbos⟩ := forall_mem_cons.mp hord
    have hin := controlEntries_bounds pick hbo
    rw [takeWhile_cons, controlEntries_cons, filter_append]
    split
    · rename_i hlt
      have hlt' : b.lastOffset < o := by simpa using hlt
      have hall : (controlEntries pick [b]).filter (·.1 < o) = controlEntries pick [b] := by
        rw [filter_eq_self]
        intro e he
        simpa using (hin e he).2.trans_lt hlt'
      rw [controlEntries_cons, hall, ih h.2 hbos hbs]
    · rename_i hge
      have hge' : ¬ b.lastOffset < o := by simpa using hge
      have hbase : o ≤ b.baseOffset := not_lt.mp fun hlt => hge' (hb hlt)
      have hnone : ∀ e ∈ controlEntries pick [b] ++ controlEntries pick bs, ¬ e.1 < o := by
        intro e he
        rcases mem_append.mp he with he | he
        · exact not_lt.mpr (hbase.trans (hin e he).1)
        · obtain ⟨x, hx, hex⟩ := mem_controlEntries_iff.mp he
          have hafter := (h.2.bounds x hx).1
          have hxin := (controlEntries_bounds pick (hbos x hx) e hex).1
          have hlast : b.lastOffset = b.baseOffset + b.lastOffsetDelta := rfl
          omega
      rw [← filter_append, filter_eq_nil_iff.mpr fun e he => by simpa using hnone e he]
      rfl

lemma replayControlRecords_eq {target : ℤ} (hord : ∀ b ∈ bs, b.Ordered)
    (hbelow : ∀ e ∈ controlEntries pick bs, e.1 < target) (initial : α) :
    replayControlRecords pick target bs initial =
      ((controlEntries pick bs).getLast?.map Prod.snd).getD initial := by
  have hfold : ∀ (es : List (ℤ × α)) (a : α), es.foldl (fun _ e => e.2) a = (es.getLast?.map Prod.snd).getD a := by
    intro es
    induction es with
    | nil => exact fun _ => rfl
    | cons e es ih =>
      intro a
      rw [foldl_cons, ih, List.getLast?_cons]
      cases es.getLast? <;> rfl
  rw [← hfold, controlEntries, foldl_flatMap, replayControlRecords]
  refine foldl_ext _ _ _ fun a b hb => ?_
  by_cases hc : b.isControlBatch
  · have hrecords : ∀ (rs : List (Record ControlRecord)) (a : α),
        rs.foldl (fun a r => (pick r.payload).getD a) a =
          (rs.filterMap fun r => (pick r.payload).map fun a =>
            (b.baseOffset + r.offsetDelta, a)).foldl (fun _ e => e.2) a := by
      intro rs
      induction rs with
      | nil => exact fun _ => rfl
      | cons r rs ih =>
        intro a
        rw [foldl_cons, filterMap_cons]
        cases hp : pick r.payload <;> simp [ih]
    by_cases ht : target ≤ b.baseOffset
    · -- A batch at or past the target has no entries.
      have hnil : controlEntries pick [b] = [] := by
        rw [eq_nil_iff_forall_not_mem]
        intro e he
        have hlt := hbelow e (mem_controlEntries_iff.mpr ⟨b, hb, he⟩)
        have hge := (controlEntries_bounds pick (hord b hb) e he).1
        omega
      rw [controlEntries_singleton] at hnil
      rw [hnil]
      simp [ht]
    · simp [ht, hc, hrecords]
  · simp [hc]

end entries

/-! ## Appends -/

section applying

lemma applyRecords_eq (base : ℤ) (rs : List (Record ControlRecord)) (s : KraftControlState)
    (hvalid : ∀ r ∈ rs, r.payload ≠ .invalid) :
    s.applyRecords base rs =
      { voters := (rs.filterMap fun r => (votersOf r.payload).map fun a =>
          (base + r.offsetDelta, a)).foldl (fun t e => t.note e.1 e.2) s.voters
        version := (rs.filterMap fun r => (versionOf r.payload).map fun a =>
          (base + r.offsetDelta, a)).foldl (fun t e => t.note e.1 e.2) s.version } := by
  induction rs generalizing s with
  | nil => rfl
  | cons r rs ih =>
    obtain ⟨hr, hrs⟩ := forall_mem_cons.mp hvalid
    rw [applyRecords]
    cases hp : r.payload with
    | kraftVersion v | voters vs | other =>
      simp only [apply]
      rw [ih _ hrs]
      simp [hp, votersOf, versionOf]
    | invalid => exact absurd hp hr

lemma applyControlBatch_eq (s : KraftControlState) (b : RecordBatch ControlRecord)
    (hvalid : b.isControlBatch → ∀ r ∈ b.records, r.payload ≠ .invalid) :
    s.applyControlBatch b =
      { voters := (controlEntries votersOf [b]).foldl
          (fun t e => t.note e.1 e.2) s.voters
        version := (controlEntries versionOf [b]).foldl (fun t e => t.note e.1 e.2) s.version } := by
  rw [controlEntries_singleton, controlEntries_singleton, applyControlBatch]
  split_ifs with hc
  · exact applyRecords_eq _ _ _ (hvalid hc)
  · rfl

end applying

/-! ## Runs -/

/-- The control state tracks the control records of the log. -/
structure NodeInv (n : ControlNode) : Prop where
  base : n.log.base = 0
  unpruned : n.log.startOffsetOverride = none
  contiguous : Contiguous 0 n.log.batches n.log.logEndOffset
  ordered : ∀ b ∈ n.log.batches, b.Ordered
  hwm_nonneg : 0 ≤ n.log.hwm
  hwm_le : n.log.hwm ≤ n.log.logEndOffset
  voters : TrackInv (controlEntries ControlRecord.votersOf n.log.batches) n.log.hwm n.controls.voters
  version : TrackInv (controlEntries ControlRecord.versionOf n.log.batches) n.log.hwm n.controls.version

namespace NodeInv
variable {n : ControlNode} {α : Type}

lemma entries_lt (h : NodeInv n) (pick : ControlRecord → Option α) :
    ∀ e ∈ controlEntries pick n.log.batches, e.1 < n.log.logEndOffset := by
  intro e he
  obtain ⟨b, hb, heb⟩ := mem_controlEntries_iff.mp he
  exact (controlEntries_bounds pick (h.ordered b hb) e heb).2.trans_lt (h.contiguous.bounds b hb).2

variable {pick : ControlRecord → Option α} {b : RecordBatch ControlRecord}
section
variable (h : NodeInv n)
include h

lemma track_append
    {t : ControlTrack α} (ht : TrackInv (controlEntries pick n.log.batches) n.log.hwm t)
    (hb : b.Ordered) (hbase : b.baseOffset = n.log.logEndOffset) :
    TrackInv (controlEntries pick (n.log.batches ++ [b])) n.log.hwm
      ((controlEntries pick [b]).foldl (fun t e => t.note e.1 e.2) t) := by
  rw [controlEntries_append]
  have hin := controlEntries_bounds pick hb
  have hwm_le := h.hwm_le
  refine ht.notes (controlEntries_sorted hb) (fun e he x hx => ?_) fun x hx => ?_
  · have hlt := h.entries_lt pick e he
    have hge := (hin x hx).1
    omega
  · have hge := (hin x hx).1
    omega

lemma append (hb : b.Ordered) (hvalid : b.isControlBatch → ∀ r ∈ b.records, r.payload ≠ .invalid) :
    NodeInv (controlSys.next n (.append b)) := by
  let placed := b.atBase n.log.logEndOffset
  have hplaced : placed.Ordered := hb
  have hcont : Contiguous 0 (n.log.append b).1.batches (placed.lastOffset + 1) :=
    h.contiguous.snoc (show placed.baseOffset = n.log.logEndOffset from rfl)
  have hend : (n.log.append b).1.logEndOffset = placed.lastOffset + 1 :=
    Contiguous.logEndOffset_eq _ h.base hcont
  have hcontrols := applyControlBatch_eq n.controls placed hvalid
  refine
    { base := h.base
      unpruned := h.unpruned
      contiguous := hend ▸ hcont
      ordered := fun x hx => ?_
      hwm_nonneg := h.hwm_nonneg
      hwm_le := ?_
      voters := ?_
      version := ?_ }
  · rcases mem_snoc.mp hx with hin | hin
    · exact h.ordered x hin
    · rwa [hin]
  · have hlast : placed.lastOffset = n.log.logEndOffset + b.lastOffsetDelta := rfl
    have hle := h.hwm_le
    show n.log.hwm ≤ (n.log.append b).1.logEndOffset
    omega
  · show TrackInv _ n.log.hwm (n.controls.applyControlBatch placed).voters
    rw [hcontrols]
    exact h.track_append h.voters hplaced rfl
  · show TrackInv _ n.log.hwm (n.controls.applyControlBatch placed).version
    rw [hcontrols]
    exact h.track_append h.version hplaced rfl

lemma logStartOffset_eq : n.log.logStartOffset = 0 := by
  unfold KraftLog.logStartOffset
  rw [h.unpruned, h.base]

section
variable {o : ℤ} (ho : n.log.hwm ≤ o) (hcut : ∀ b ∈ n.log.batches, b.baseOffset < o → b.lastOffset < o)
include ho hcut

lemma truncateTo_ok :
    ∃ log, n.log.truncateTo o = .ok log ∧ log.base = 0 ∧ log.startOffsetOverride = none ∧
      log.hwm = n.log.hwm ∧ log.batches = n.log.batches.takeWhile (·.lastOffset < o) ∧
      log.logEndOffset = min o n.log.logEndOffset := by
  have hnonneg := h.hwm_nonneg
  have hstart := h.logStartOffset_eq
  unfold KraftLog.truncateTo KraftLog.truncateLog
  by_cases hend : n.log.logEndOffset ≤ o
  · rw [if_pos hend]
    refine ⟨_, rfl, h.base, h.unpruned, min_eq_left ho, ?_, (min_eq_right hend).symm⟩
    exact (h.contiguous.takeWhile_eq_self hend).symm
  · rw [if_neg hend, if_neg (show ¬ o < n.log.logStartOffset by omega)]
    refine ⟨_, rfl, h.base, h.unpruned, min_eq_left ho, rfl, ?_⟩
    have hcont := h.contiguous.takeWhile (by omega) (by omega) hcut
    rw [show min o n.log.logEndOffset = o from min_eq_left (by omega)]
    exact Contiguous.logEndOffset_eq _ h.base hcont

lemma track_truncateTo {t : ControlTrack α} (ht : TrackInv (controlEntries pick n.log.batches) n.log.hwm t) :
    TrackInv (controlEntries pick (n.log.batches.takeWhile (·.lastOffset < o))) n.log.hwm (t.truncateTo o) := by
  rw [controlEntries_takeWhile h.contiguous h.ordered hcut]
  exact ht.truncateTo ho

lemma truncateTo : NodeInv (controlSys.next n (.truncateTo o)) := by
  obtain ⟨log, hok, hbase, hstart, hhwm, hbatches, hend⟩ := h.truncateTo_ok ho hcut
  have hnext : controlSys.next n (.truncateTo o) =
      ⟨log, ⟨n.controls.voters.truncateTo o, n.controls.version.truncateTo o⟩⟩ := by
    simp only [controlSys, hok]
  have hnonneg := h.hwm_nonneg
  have hle := h.hwm_le
  rw [hnext]
  refine
    { base := hbase
      unpruned := hstart
      contiguous := ?_
      ordered := fun b hb => h.ordered b (takeWhile_sublist _ |>.mem (hbatches ▸ hb))
      hwm_nonneg := hhwm ▸ hnonneg
      hwm_le := ?_
      voters := by
        simp only [hhwm, hbatches]
        exact h.track_truncateTo ho hcut h.voters
      version := by
        simp only [hhwm, hbatches]
        exact h.track_truncateTo ho hcut h.version }
  · simp only [hend, hbatches]
    by_cases hlong : n.log.logEndOffset ≤ o
    · rw [min_eq_right hlong, h.contiguous.takeWhile_eq_self hlong]
      exact h.contiguous
    · rw [min_eq_left (by omega)]
      exact h.contiguous.takeWhile (by omega) (by omega) hcut
  · simp only [hend, hhwm]
    omega

end

lemma advance (newHwm : ℤ) : NodeInv (controlSys.next n (.advance newHwm)) := by
  have hnonneg := h.hwm_nonneg
  have hle := h.hwm_le
  have hmono : n.log.hwm ≤ (n.log.advanceHwm newHwm).hwm := le_max_left _ _
  exact
    { base := h.base
      unpruned := h.unpruned
      contiguous := h.contiguous
      ordered := h.ordered
      hwm_nonneg := hnonneg.trans hmono
      hwm_le := max_le hle (min_le_right _ _)
      voters := h.voters.commitTo hmono
      version := h.version.commitTo hmono }

lemma track_restart (pick : ControlRecord → Option α)
    (hbelow : ∀ e ∈ controlEntries pick n.log.batches, e.1 < n.log.hwm) (initial : α)
    (hs : (controlEntries pick n.log.batches).Pairwise fun a b => a.1 < b.1)
    (hn : ∀ e ∈ controlEntries pick n.log.batches, 0 ≤ e.1) :
    TrackInv (controlEntries pick n.log.batches) n.log.hwm
      (.new (replayControlRecords pick n.log.hwm n.log.batches initial)) := by
  refine TrackInv.new hs hn h.hwm_nonneg hbelow fun hex => ?_
  rw [replayControlRecords_eq h.ordered hbelow]
  generalize controlEntries pick n.log.batches = es at *
  rcases eq_nil_or_concat' es with rfl | ⟨init, last, rfl⟩
  · obtain ⟨e, he, -⟩ := hex
    cases he
  · rw [List.getLast?_concat]
    have hmem : last ∈ init ++ [last] := mem_append_cons_self
    refine ⟨last.1, hbelow last hmem, hmem, fun e he _ => ?_⟩
    rcases mem_snoc.mp he with he | he
    · exact ((pairwise_append.mp hs).2.2 e he last mem_cons_self).le
    · exact (congrArg Prod.fst he).le

lemma restart {voters : VoterSet} {version : ℕ} (hok : Accounted n (.restart voters version)) :
    NodeInv (controlSys.next n (.restart voters version)) := by
  have hstart := h.logStartOffset_eq
  have hhwm : min (max n.log.hwm n.log.logStartOffset) n.log.logEndOffset = n.log.hwm := by
    have hnonneg := h.hwm_nonneg
    have hle := h.hwm_le
    omega
  have hnext : controlSys.next n (.restart voters version) = ⟨n.log, reopenedControls n.log voters version⟩ := by
    simp only [controlSys, hhwm]
  rw [hnext]
  exact
    { h with
      voters := h.track_restart _ hok.1 voters h.voters.sorted h.voters.nonneg
      version := h.track_restart _ hok.2 version h.version.sorted h.version.nonneg }

lemma step {a : ControlStep} (ha : controlSys.enabled n a) (hok : Accounted n a) :
    NodeInv (controlSys.next n a) := by
  cases a with
  | append b => exact h.append ha hok
  | truncateTo o => exact h.truncateTo ha hok
  | advance newHwm => exact h.advance newHwm
  | restart voters version => exact h.restart hok

end

lemma start (voters : VoterSet) (version : ℕ) : NodeInv { controls := .new voters version } := by
  have hnone : ∀ {α : Type} (a : α), TrackInv ([] : List (ℤ × α)) 0 (.new a) := fun a =>
    TrackInv.new .nil nofun le_rfl nofun fun ⟨_, he, _⟩ => nomatch he
  exact
    { base := rfl
      unpruned := rfl
      contiguous := rfl
      ordered := nofun
      hwm_nonneg := le_rfl
      hwm_le := le_rfl
      voters := hnone voters
      version := hnone version }

end NodeInv

/-- In every state of a run with the condition, voter sets and versions follow the log. -/
theorem controls_follow_log {voters : VoterSet} {version : ℕ} {n : ControlNode}
    (h : controlSys.Run Accounted { controls := .new voters version } n) :
    FollowsLog (controlEntries votersOf n.log.batches) n.log.hwm n.log.logEndOffset
        n.controls.voters ∧
      FollowsLog (controlEntries versionOf n.log.batches) n.log.hwm n.log.logEndOffset n.controls.version := by
  have hinv : NodeInv n := h.preserves (fun _ _ hn hen hok => hn.step hen hok) (.start _ _)
  exact ⟨hinv.voters.followsLog hinv.hwm_le (hinv.entries_lt _),
    hinv.version.followsLog hinv.hwm_le (hinv.entries_lt _)⟩

def controlBatch (r : ControlRecord) : RecordBatch ControlRecord where
  partitionLeaderEpoch := 1
  lastOffsetDelta := 0
  isControlBatch := true
  records := [⟨0, r⟩]

def soleVoter (id : NodeId) : VoterSet := .fromVoters [{ id }]

/-- A node that restarts with a committed voter set, appends another, and commits that too. -/
def restartCommitted : List ControlStep :=
  [.append (controlBatch (.voters (soleVoter 1))), .advance 1, .restart (soleVoter 0) 0,
    .append (controlBatch (.voters (soleVoter 2))), .advance 2]

/-- A restart after a committed voter set. -/
theorem controls_follow_log_restartCommitted :
    let n := controlSys.execs { controls := .new (soleVoter 0) 0 } restartCommitted
    IsNewest (controlEntries votersOf n.log.batches) n.log.hwm
        n.controls.voters.committed ∧
      n.controls.voters.committed = soleVoter 2 :=
  have hrun : controlSys.Run Accounted { controls := .new (soleVoter 0) 0 }
      (controlSys.execs { controls := .new (soleVoter 0) 0 } restartCommitted) :=
    Sys.run_of_runsOk
  ⟨((controls_follow_log hrun).1 (by decide +kernel)).1, by decide +kernel⟩

/-- A node that restarts between the append of a voter set and its commitment. -/
def restartUncommitted : List ControlStep :=
  [.append (controlBatch (.voters (soleVoter 1))), .advance 1,
    .append (controlBatch (.voters (soleVoter 2))), .restart (soleVoter 0) 0, .advance 2]

/-- The voter set above the high watermark at the restart is never accounted for: the high watermark
passes it, and the committed voter set stays the one before it. -/
theorem restart_forgets_voters :
    let n := controlSys.execs { controls := .new (soleVoter 0) 0 } restartUncommitted
    controlSys.AnyRun { controls := .new (soleVoter 0) 0 } n ∧ n.log.hwm = 2 ∧
      controlEntries votersOf n.log.batches = [(0, soleVoter 1), (1, soleVoter 2)] ∧
      n.controls.voters.committed = soleVoter 1 ∧
      ¬ FollowsLog (controlEntries votersOf n.log.batches) n.log.hwm n.log.logEndOffset n.controls.voters :=
  ⟨Sys.run_of_runs, by decide +kernel⟩

end Crabka.Kraft
