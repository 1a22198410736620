import Crabka.Metadata.Reservations

/-!
# Reservations over whole runs

The intervals of a partition are disjoint, and each starts where the image stands when its record is applied, as long
as no request advances a partition that an uncommitted batch advances too (`reservations_disjoint`). Two such requests
get the same interval (`reservations_overlap`).
-/

namespace Crabka.Metadata
open Found List
open Kraft (KraftLog RecordBatch Record)
open CommitWaiter LeaderEngine

/-! ## The engine -/

namespace LeaderEngine
variable {scan : Scan} {e e' e'' : LeaderEngine} {vs ws : List KraftMetadataRecord}

/-- What applying values changes of the engine. -/
structure Applied (scan : Scan) (e : LeaderEngine) (vs : List KraftMetadataRecord)
    (e' : LeaderEngine) : Prop where
  log : e'.log = e.log
  image : e'.image = (commitValues scan e.image vs).1
  applied : e'.applied = e.applied ++ shownReservations scan e.image vs
  results : e'.commitWaiters.map CommitWaiter.result = e.commitWaiters.map CommitWaiter.result
  replies : e'.replies = e.replies
  granted : e'.granted = e.granted

lemma Applied.refl (scan : Scan) (e : LeaderEngine) : Applied scan e [] e :=
  ⟨rfl, rfl, (append_nil _).symm, rfl, rfl, rfl⟩

lemma Applied.trans (h : Applied scan e vs e') (h' : Applied scan e' ws e'') :
    Applied scan e (vs ++ ws) e'' where
  log := h'.log.trans h.log
  image := by rw [h'.image, h.image, commitValues_append]
  applied := by rw [h'.applied, h.applied, h.image, shownReservations_append, append_assoc]
  results := h'.results.trans h.results
  replies := h'.replies.trans h.replies
  granted := h'.granted.trans h.granted

lemma applied_applyValue (e : LeaderEngine) (base : ℤ) (kr : KraftMetadataRecord) :
    Applied scan e [kr] (e.applyValue scan base kr) where
  log := rfl
  image := rfl
  applied := by simp [applyValue, shownReservations]
  results := by
    unfold applyValue
    simp only
    split
    · rw [map_map]
      refine map_congr_left fun w _ => ?_
      simp only [Function.comp_apply, noteRejection]
      split <;> rfl
    · rfl
  replies := rfl
  granted := rfl

lemma applied_applyBatch (e : LeaderEngine) (b : RecordBatch KraftMetadataRecord) :
    Applied scan e (b.records.map Record.payload) (e.applyBatch scan b) := by
  unfold applyBatch
  induction b.records generalizing e with
  | nil => exact .refl scan e
  | cons r rs ih => exact (applied_applyValue e _ r.payload).trans (ih _)

lemma applied_applyBatches (e : LeaderEngine) (bs : List (RecordBatch KraftMetadataRecord)) :
    Applied scan e (bs.flatMap fun b => b.records.map Record.payload) (bs.foldl (applyBatch scan) e) := by
  induction bs generalizing e with
  | nil => exact .refl scan e
  | cons b bs ih => exact (applied_applyBatch e b).trans (ih _)

/-- The image when everything in the log is committed. -/
def frontier (scan : Scan) (e : LeaderEngine) : MetadataImage :=
  (commitValues scan e.image e.pending).1

/-- The reservations that were granted are apart and lie before where their counters stand. -/
structure Inv (scan : Scan) (e : LeaderEngine) : Prop where
  sorted : e.log.batches.Pairwise fun a b => a.baseOffset < b.baseOffset
  below : ∀ b ∈ e.log.batches, b.baseOffset < e.log.logEndOffset
  hwm_le : e.log.hwm ≤ e.log.logEndOffset
  tame : ∀ kr ∈ e.pending, Tame kr
  granted : e.granted = e.applied ++ shownReservations scan e.image e.pending
  range : ∀ k, -2 ^ 63 ≤ (e.frontier scan).standsAt k
  within : ∀ g ∈ e.granted, g.baseOffset + g.count ≤ (e.frontier scan).standsAt g.key
  apart : e.granted.Pairwise OffsetReservation.Apart
  returned : (e.returned ++ e.commitWaiters.flatMap CommitWaiter.result).Subperm e.granted

lemma Inv.tryResolveWaiters (h : Inv scan e) : Inv scan e.tryResolveWaiters := by
  refine { h with returned := List.Subperm.trans ?_ h.returned }
  have hreplies : ∀ {reply : CommitWaiter → Except RaftError (List OffsetReservation)}
      {taken : Except RaftError (List OffsetReservation) → List OffsetReservation},
      (∀ w, (taken (reply w)).Sublist w.result) → ∀ ws : List CommitWaiter,
      ((ws.map reply).flatMap taken).Sublist (ws.flatMap result) := by
    intro reply taken hreply ws
    induction ws with
    | nil => exact .slnil
    | cons w ws ih =>
      rw [map_cons, flatMap_cons, flatMap_cons]
      exact (hreply w).append ih
  unfold LeaderEngine.tryResolveWaiters LeaderEngine.returned
  simp only [flatMap_append, append_assoc]
  refine (subperm_append_left _).mpr ?_
  refine ((hreplies (fun w => ?_) _).append_right _).subperm.trans ?_
  · cases w.rejection with
    | some err => exact nil_sublist _
    | none => exact List.Sublist.refl _
  rw [← flatMap_append]
  exact ((filter_append_perm _ _).flatMap_right _).subperm

lemma pending_split {bs : List (RecordBatch KraftMetadataRecord)}
    (hs : bs.Pairwise fun a b => a.baseOffset < b.baseOffset) {low high : ℤ} (hle : low ≤ high) :
    (bs.filter fun b => low ≤ b.baseOffset && !b.isControlBatch) =
      (bs.filter fun b => low ≤ b.baseOffset && b.baseOffset < high && !b.isControlBatch) ++
        bs.filter fun b => high ≤ b.baseOffset && !b.isControlBatch := by
  induction bs with
  | nil => rfl
  | cons b bs ih =>
    obtain ⟨hb, hbs⟩ := pairwise_cons.mp hs
    by_cases hhigh : high ≤ b.baseOffset
    · -- All further batches are past the cut.
      have hpast : ∀ x ∈ b :: bs, high ≤ x.baseOffset := by
        intro x hx
        rcases mem_cons.mp hx with rfl | hx
        · exact hhigh
        · exact hhigh.trans (hb x hx).le
      have hnone : (b :: bs).filter (fun b => low ≤ b.baseOffset && b.baseOffset < high &&
          !b.isControlBatch) = [] := by
        refine filter_eq_nil_iff.mpr fun x hx => ?_
        simp [not_lt.mpr (hpast x hx)]
      rw [hnone, nil_append]
      refine filter_congr fun x hx => ?_
      simp [hpast x hx, hle.trans (hpast x hx)]
    · rw [filter_cons, filter_cons, filter_cons, ih hbs]
      simp only [hhigh, decide_false, Bool.false_and, not_le.mp hhigh, decide_true, Bool.and_true]
      split <;> rfl

lemma Inv.advance (h : Inv scan e) (newHwm : ℤ) : Inv scan (e.advanceAndApply scan newHwm) := by
  refine Inv.tryResolveWaiters ?_
  set log := e.log.advanceHwm newHwm with hlog
  set window := e.batchesBetween e.log.hwm log.hwm with hwindow
  have hmono : e.log.hwm ≤ log.hwm := le_max_left _ _
  have happ : Applied scan { e with log } _ _ := applied_applyBatches { e with log } window
  set e' := window.foldl (applyBatch scan) { e with log } with he'
  have hpending : e.pending = (window.flatMap fun b => b.records.map Record.payload) ++ e'.pending := by
    unfold pending
    rw [happ.log, pending_split h.sorted hmono, flatMap_append]
    rfl
  have hfrontier : e'.frontier scan = e.frontier scan := by
    rw [frontier, frontier, happ.image, hpending, commitValues_append]
  exact
    { sorted := happ.log ▸ h.sorted
      below := happ.log ▸ h.below
      hwm_le := by
        rw [happ.log]
        exact max_le h.hwm_le (min_le_right _ _)
      tame := fun kr hkr => h.tame kr (hpending ▸ mem_append_right _ hkr)
      granted := by
        rw [happ.granted, happ.applied, happ.image, append_assoc, ← shownReservations_append, ← hpending]
        exact h.granted
      range := hfrontier ▸ h.range
      within := by
        rw [hfrontier, happ.granted]
        exact h.within
      apart := happ.granted ▸ h.apart
      returned := by
        have hresults : e'.commitWaiters.flatMap result = e.commitWaiters.flatMap result := by
          rw [flatMap_def, happ.results, ← flatMap_def]
        rw [LeaderEngine.returned, happ.replies, hresults, happ.granted]
        exact h.returned }

/-- The engine after a batch was appended, before waiters are resolved. -/
def appended (e : LeaderEngine) (s : Submission) : LeaderEngine :=
  { e with
    log := (e.log.append (metadataRecordBatch e.leaderEpoch s.blobs)).1
    commitWaiters := e.commitWaiters ++
      [{ baseOffset := e.log.logEndOffset
         needOffset := e.log.logEndOffset + s.blobs.length
         result := s.offsetReservations }]
    granted := e.granted ++ s.offsetReservations }

lemma pending_appended (h : Inv scan e) (s : Submission) : (e.appended s).pending = e.pending ++ s.blobs := by
  show ((e.log.batches ++ [(metadataRecordBatch e.leaderEpoch s.blobs).atBase
    e.log.logEndOffset]).filter _).flatMap _ = _
  rw [filter_append, flatMap_append]
  congr 1
  have hpass : (e.log.hwm ≤ ((metadataRecordBatch e.leaderEpoch s.blobs).atBase
      e.log.logEndOffset).baseOffset) := h.hwm_le
  have hlog : (e.appended s).log.hwm = e.log.hwm := rfl
  simp only [hlog, filter_cons, hpass, decide_true, Bool.true_and]
  simp [metadataRecordBatch, RecordBatch.atBase]
  exact zipIdx_map_fst 0 s.blobs

variable {records : List MetadataRecord}

lemma Inv.inStep (h : Inv scan e) (hok : Sequenced e (.submit records)) :
    InStep scan (e.frontier scan) { scratch := e.image } records (e.frontier scan) := by
  have hagree : ∀ r ∈ records.filterMap advanceOf,
      (e.frontier scan).standsAt r.key = e.image.standsAt r.key := fun r hr =>
    standsAt_commitValues h.tame (hok.2 r hr).1
  exact
    { committed := rfl
      shown := rfl
      tame := nofun
      agree := fun r hr => (hagree r hr).symm
      room := fun r hr => (hagree r hr) ▸ (hok.2 r hr).2
      range := h.range
      grows := fun _ => le_rfl
      within := nofun
      apart := .nil }

lemma logEndOffset_appended (e : LeaderEngine) (s : Submission) :
    (e.appended s).log.logEndOffset = e.log.logEndOffset + (s.blobs.length - 1 : ℕ) + 1 := by
  simp only [appended, KraftLog.logEndOffset, KraftLog.append, KraftLog.write, List.getLast?_concat]
  rfl

lemma Inv.appended (h : Inv scan e) {s : Submission} {J : MetadataImage}
    (hin : InStep scan (e.frontier scan) s [] J) : Inv scan (e.appended s) := by
  have hpending := pending_appended h s
  have hfrontier : (e.appended s).frontier scan = J := by
    rw [hin.committed, frontier, hpending, commitValues_append]
    rfl
  have hend := logEndOffset_appended e s
  refine
    { sorted := ?_
      below := ?_
      hwm_le := ?_
      tame := ?_
      granted := ?_
      range := hfrontier ▸ hin.range
      within := ?_
      apart := ?_
      returned := ?_ }
  · refine pairwise_append.mpr ⟨h.sorted, pairwise_singleton _ _, fun b hb x hx => ?_⟩
    rw [mem_singleton.mp hx]
    exact h.below b hb
  · intro b hb
    rw [hend]
    rcases mem_snoc.mp hb with hb | hb
    · have := h.below b hb
      omega
    · rw [hb]
      show e.log.logEndOffset < _
      omega
  · rw [hend]
    have := h.hwm_le
    show e.log.hwm ≤ _
    omega
  · intro kr hkr
    rw [hpending] at hkr
    exact (mem_append.mp hkr).elim (h.tame kr) (hin.tame kr)
  · rw [hpending, shownReservations_append]
    show e.granted ++ s.offsetReservations = e.applied ++ _
    rw [h.granted, append_assoc, ← hin.shown]
    rfl
  · intro g hg
    rw [hfrontier]
    rcases mem_append.mp hg with hg | hg
    · exact (h.within g hg).trans (hin.grows _)
    · exact (hin.within g hg).2
  · refine pairwise_append.mpr ⟨h.apart, hin.apart, fun g hg x hx hkey => ?_⟩
    -- The new intervals start where the log will have taken the partition.
    have hold := h.within g hg
    have hnew := (hin.within x hx).1
    rw [hkey] at hold
    exact .inl (hold.trans hnew)
  · show (e.returned ++ (e.commitWaiters ++ [_]).flatMap _).Subperm (e.granted ++ _)
    rw [flatMap_append, flatMap_singleton, ← append_assoc]
    exact (subperm_append_right _).mpr h.returned

lemma Inv.submit (h : Inv scan e)
    (hen : (submitSys scan).enabled e (.submit records)) (hok : Sequenced e (.submit records)) :
    Inv scan (e.onSubmitChange scan records) := by
  unfold onSubmitChange
  split
  · rename_i err hrun
    refine { h with returned := ?_ }
    simpa [LeaderEngine.returned] using h.returned
  · rename_i s hrun
    obtain ⟨J, hin⟩ := (h.inStep hok).run hok.1 hen hrun
    split
    · -- Without values there are no reservations.
      rename_i hempty
      have hnone : s.offsetReservations = [] := by
        rw [← hin.shown, isEmpty_iff.mp hempty]
        rfl
      refine { h with returned := ?_ }
      simpa [LeaderEngine.returned, hnone] using h.returned
    · exact (h.appended hin).tryResolveWaiters

lemma Settled.inv (h : e.Settled) : Inv scan e := by
  have hpending : e.pending = [] := by
    unfold pending
    rw [filter_eq_nil_iff.mpr fun b hb => by simp [h.below b hb]]
    rfl
  exact
    { sorted := h.sorted
      below := h.hwm_eq ▸ h.below
      hwm_le := h.hwm_eq.le
      tame := by simp [hpending]
      granted := by
        rw [h.granted, h.applied, hpending]
        rfl
      range := by
        rw [frontier, hpending]
        exact h.range
      within := by simp [h.granted]
      apart := h.granted ▸ .nil
      returned := by simp [returned, h.replies, h.waiters] }

end LeaderEngine

/-- **Reservations are disjoint, and records reserve what they were answered with**, in every run whose
requests are sequenced: each applied record finds the offset that its reservation starts at. -/
theorem reservations_disjoint {scan : Scan} {e₀ e : LeaderEngine} (h : e₀.Settled)
    (hrun : (submitSys scan).Run Sequenced e₀ e) :
    e.returned.Pairwise OffsetReservation.Apart ∧ e.returned ⊆ e.granted ∧ e.applied <+: e.granted := by
  have hinv : e.Inv scan := hrun.preserves (fun e l he hen hok => by
    cases l with
    | submit records => exact he.submit hen hok
    | advance newHwm => exact he.advance newHwm) h.inv
  have hsub : e.returned.Subperm e.granted := (sublist_append_left _ _).subperm.trans hinv.returned
  refine ⟨?_, hsub.subset, hinv.granted ▸ prefix_append _ _⟩
  obtain ⟨l, hperm, hsublist⟩ := hsub
  have hsymm : ∀ {a b : OffsetReservation}, a.Apart b → b.Apart a := fun hab hkey =>
    (hab hkey.symm).symm
  exact (hperm.pairwise_iff hsymm).mp (hinv.apart.sublist hsublist)

def advanceOrders (count : ℤ) : SubmitStep :=
  .submit [.v1PartitionOffsetAdvance ⟨"orders", 0, count⟩]

def idleLeader : LeaderEngine where
  image := MetadataImage.new 0

lemma settled_idleLeader : idleLeader.Settled where
  below := by decide
  hwm_eq := rfl
  sorted := .nil
  waiters := rfl
  replies := rfl
  granted := rfl
  applied := rfl
  range k := by
    have hzero : idleLeader.image.standsAt k = 0 := by
      simp [idleLeader, MetadataImage.standsAt, MetadataImage.partitionNextOffset, MetadataImage.new]
    rw [hzero]
    decide

/-- Two requests, the second after the first was committed. -/
theorem reservations_disjoint_sequenced :
    let e := (submitSys Scan.keyOrder).execs idleLeader
      [advanceOrders 3, .advance 1, advanceOrders 5, .advance 2]
    e.returned.Pairwise OffsetReservation.Apart ∧ e.returned = [⟨"orders", 0, 0, 3⟩, ⟨"orders", 0, 3, 5⟩] := by
  have hrun : (submitSys Scan.keyOrder).Run Sequenced idleLeader
      ((submitSys Scan.keyOrder).execs idleLeader [advanceOrders 3, .advance 1, advanceOrders 5, .advance 2]) :=
    Sys.run_of_runsOk
  exact ⟨(reservations_disjoint settled_idleLeader hrun).1, by decide +kernel⟩

/-- Two requests for one partition before the first is committed: both reserve from offset zero, and
the second record is applied at offset three. -/
theorem reservations_overlap :
    let e := (submitSys Scan.keyOrder).execs idleLeader
      [advanceOrders 3, advanceOrders 5, .advance 2]
    idleLeader.Settled ∧ (submitSys Scan.keyOrder).AnyRun idleLeader e ∧
      e.returned = [⟨"orders", 0, 0, 3⟩, ⟨"orders", 0, 0, 5⟩] ∧
      e.applied = [⟨"orders", 0, 0, 3⟩, ⟨"orders", 0, 3, 5⟩] ∧
      ¬ e.returned.Pairwise OffsetReservation.Apart :=
  ⟨settled_idleLeader, Sys.run_of_runs, by decide +kernel⟩

end Crabka.Metadata
