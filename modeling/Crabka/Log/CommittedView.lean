import Crabka.Log.Compaction

/-!
# What compaction does to the committed view

A log of keyed records, written by appends, and any number of `Log::compact` passes. Transactions resolve as before
(`KeepsTransactions`). The newest committed record of a key survives exactly when no other record of the key in the
sealed segments is newer (`compact_committed_iff`): an aborted or undecided record supersedes a committed one
(`compact_loses_committed`).
-/

namespace Crabka.Log.Compaction
open Found List PartitionLog
variable {κ ν : Type}

/-! ## Logs with records -/

/-- `Segment`, with the records of its batches. -/
structure KeyedSegment (κ ν : Type) where
  base : ℤ
  batches : List (RecordBatch κ ν)
  txnIndex : TxnIndex

/-- The part of `Log` that compaction is about. -/
structure KeyedLog (κ ν : Type) where
  segments : List (KeyedSegment κ ν)
  active : KeyedSegment κ ν
  lso : ℤ

/-- What a batch carries besides its header. -/
structure Contents (κ ν : Type) where
  baseTimestamp : ℤ
  hasDeleteHorizon : Bool := false
  records : List (Record κ ν)

def fill (contents : ℤ → Contents κ ν) (b : Batch) : RecordBatch κ ν where
  header := b
  baseTimestamp := (contents b.baseOffset).baseTimestamp
  hasDeleteHorizon := (contents b.baseOffset).hasDeleteHorizon
  records := (contents b.baseOffset).records

def fillSegment (contents : ℤ → Contents κ ν) (seg : Segment) : KeyedSegment κ ν where
  base := seg.base
  batches := seg.batches.map (fill contents)
  txnIndex := seg.txnIndex

namespace KeyedLog

/-- A log of headers, with the contents of its batches. -/
def ofLog (log : PartitionLog) (contents : ℤ → Contents κ ν) : KeyedLog κ ν where
  segments := log.segments.map (fillSegment contents)
  active := fillSegment contents log.active
  lso := log.lso

variable (log : KeyedLog κ ν)

def sealedBatches : List (RecordBatch κ ν) := log.segments.flatMap KeyedSegment.batches

def sealedIndex : TxnIndex := log.segments.flatMap KeyedSegment.txnIndex

def all : List (RecordBatch κ ν) := log.sealedBatches ++ log.active.batches

def headers : List Batch := log.all.map RecordBatch.header

def txnEntries : List AbortedTxn := log.sealedIndex ++ log.active.txnIndex

/-- `Log::compact`, for the policy that compacts: one segment replaces the sealed ones. -/
def compact [DecidableEq κ] (deleteRetentionMs : ℤ) (log : KeyedLog κ ν) (ctx : CompactionContext) :
    KeyedLog κ ν :=
  match log.segments with
  | [] => log
  | first :: _ =>
    { log with segments := [
      { base := first.base
        batches := compactAll deleteRetentionMs ctx log.sealedBatches
        txnIndex := log.sealedIndex.filter fun e =>
          (cleanerFor deleteRetentionMs ctx log.sealedBatches).survivors e.producerId }] }

/-- The records that a read-committed consumer can see: plain ones and those of committed transactions,
below the last stable offset. -/
def visible : List (Entry κ ν) :=
  (log.all.filter fun b => Committed log.headers b.header).flatMap fun b =>
    b.entries.filter fun e => e.offset < log.lso

def NewestVisible (e : Entry κ ν) : Prop := e ∈ log.visible ∧ Newest log.visible e

/-- The newest visible record of each key is still there, unless it is a tombstone. -/
def KeepsCommitted (before after : KeyedLog κ ν) : Prop :=
  ∀ e, before.NewestVisible e → e.value.isSome = true → e ∈ entries after.all

/-- No record in the sealed segments is newer than the newest visible one of its key there. -/
def Unshadowed : Prop :=
  ∀ e, log.NewestVisible e → e.value.isSome = true → e ∈ entries log.sealedBatches →
    Newest (entries log.sealedBatches) e

/-- What is left of a transaction is decided as before, now and by any later markers; an aborted one has its marker
and is listed. -/
def KeepsTransactions (before after : KeyedLog κ ν) : Prop :=
  ∀ b' ∈ after.sealedBatches, b'.isControl = false → b'.records ≠ [] →
    ∃ b ∈ before.sealedBatches, Remains b b' ∧ (b.header.inTransaction = true →
      (∀ later m, Ends (before.headers ++ later) b.header m ↔ Ends (after.headers ++ later) b'.header m) ∧
      ∀ m, Ends before.headers b.header m → m.aborts = true → m ∈ after.headers ∧
        ∃ e ∈ after.txnEntries, e.producerId = b'.header.producerId ∧
          e.startOffset ≤ b'.header.baseOffset ∧ e.lastOffset = m.lastOffset)

end KeyedLog

/-! ## Passes -/

lemma Remains.trans {x y z : RecordBatch κ ν} (hxy : Remains x y) (hyz : Remains y z) :
    Remains x z where
  data := hxy.data
  data' := hyz.data'
  records := hxy.records
  base := hyz.base.trans hxy.base
  producerId := hyz.producerId.trans hxy.producerId
  inTransaction := hyz.inTransaction.trans hxy.inTransaction

section passes
variable [DecidableEq κ] {retention : ℤ} {ctx : CompactionContext} {ctxs : List CompactionContext}
  {all : List (RecordBatch κ ν)} {index : TxnIndex} {b' : RecordBatch κ ν} {e : Entry κ ν}

/-- The sealed batches and their index, pass after pass. -/
def passes (retention : ℤ) (ctxs : List CompactionContext)
    (s : List (RecordBatch κ ν) × TxnIndex) : List (RecordBatch κ ν) × TxnIndex :=
  ctxs.foldl
    (fun s ctx => (compactAll retention ctx s.1,
      s.2.filter fun e => (cleanerFor retention ctx s.1).survivors e.producerId)) s

def TimelyPasses (retention : ℤ) (ctxs : List CompactionContext) : Prop :=
  0 ≤ retention ∧ ∀ ctx ∈ ctxs, 0 ≤ ctx.nowMs

lemma entries_compactAll_sublist (hfit : TimesFit all) (hnow : 0 ≤ ctx.nowMs) (hret : 0 ≤ retention) :
    (entries (compactAll retention ctx all)).Sublist (entries all) :=
  entries_rewriteAll_sublist ⟨hnow, hret⟩ hfit

lemma entries_passes_sublist (hfit : TimesFit all) (ht : TimelyPasses retention ctxs) :
    (entries (passes retention ctxs (all, index)).1).Sublist (entries all) := by
  induction ctxs generalizing all index with
  | nil => exact List.Sublist.refl _
  | cons ctx ctxs ih =>
    obtain ⟨hret, hnow, hnows⟩ := And.imp_right forall_mem_cons.mp ht
    exact (ih (timesFit_compactAll hfit hnow hret) ⟨hret, hnows⟩).trans (entries_compactAll_sublist hfit hnow hret)

lemma mem_entries_passes (hord : Ordered (entries all)) (hfit : TimesFit all)
    (ht : TimelyPasses retention ctxs) (he : e ∈ entries all) (hnew : Newest (entries all) e)
    (hval : e.value.isSome) : e ∈ entries (passes retention ctxs (all, index)).1 := by
  induction ctxs generalizing all index with
  | nil => exact he
  | cons ctx ctxs ih =>
    obtain ⟨hret, hnow, hnows⟩ := And.imp_right forall_mem_cons.mp ht
    have hsub := entries_compactAll_sublist hfit hnow hret
    exact ih (hord.sublist hsub) (timesFit_compactAll hfit hnow hret) ⟨hret, hnows⟩
      (mem_entries_compactAll hord hfit hnow hret he hnew hval)
      fun e' he' => hnew e' (hsub.subset he')

lemma newest_of_mem_passes (hord : Ordered (entries all)) (hfit : TimesFit all)
    (ht : TimelyPasses retention ctxs) (hne : ctxs ≠ [])
    (he : e ∈ entries (passes retention ctxs (all, index)).1) : Newest (entries all) e := by
  cases ctxs with
  | nil => exact absurd rfl hne
  | cons ctx ctxs =>
    obtain ⟨hret, hnow, hnows⟩ := And.imp_right forall_mem_cons.mp ht
    exact newest_of_mem_entries hord hfit hnow hret
      ((entries_passes_sublist (timesFit_compactAll hfit hnow hret) ⟨hret, hnows⟩).subset he)

/-- The markers of producers with data are as they were written. -/
def Marked (all : List (RecordBatch κ ν)) : Prop :=
  ∀ d ∈ all, d.isControl = false → d.records ≠ [] → 0 ≤ d.header.producerId →
    ∀ x ∈ all, x.isControl = true → x.header.producerId = d.header.producerId → IsMarker x

lemma pass_keeps (hmark : Marked all) (hb' : b' ∈ compactAll retention ctx all)
    (hdata : b'.isControl = false) (hne : b'.records ≠ []) :
    ∃ b ∈ all, Remains b b' ∧ (0 ≤ b'.header.producerId →
      (∀ x, (x ∈ compactAll retention ctx all ∧ x.isControl ∧
          x.header.producerId = b'.header.producerId) ↔
        x ∈ all ∧ x.isControl ∧ x.header.producerId = b'.header.producerId) ∧
      (cleanerFor retention ctx all).survivors b'.header.producerId) := by
  obtain ⟨b, hb, hrem, hsurv⟩ := exists_remains hb' hdata hne
  refine ⟨b, hb, hrem, fun hpid => ⟨fun x => ?_, hsurv hpid⟩⟩
  refine mem_control_compactAll (hsurv hpid) fun x hx hcontrol hxp => ?_
  exact hmark b hb hrem.data hrem.records (hrem.producerId ▸ hpid) x hx hcontrol (hxp.trans hrem.producerId)

lemma Marked.compactAll (hmark : Marked all) : Marked (compactAll retention ctx all) := by
  intro d hd hdata hne hpid x hx hcontrol hxp
  obtain ⟨b, hb, hrem, hkeeps⟩ := pass_keeps hmark hd hdata hne
  obtain ⟨hx', -, -⟩ := ((hkeeps hpid).1 x).mp ⟨hx, hcontrol, hxp⟩
  exact hmark b hb hrem.data hrem.records (hrem.producerId ▸ hpid) x hx' hcontrol (hxp.trans hrem.producerId)

/-- **Passes keep the markers and index entries of surviving data.** -/
theorem passes_keep (hmark : Marked all) (hb' : b' ∈ (passes retention ctxs (all, index)).1)
    (hdata : b'.isControl = false) (hne : b'.records ≠ []) :
    ∃ b ∈ all, Remains b b' ∧ (0 ≤ b'.header.producerId →
      (∀ x, (x ∈ (passes retention ctxs (all, index)).1 ∧ x.isControl ∧
          x.header.producerId = b'.header.producerId) ↔
        x ∈ all ∧ x.isControl ∧ x.header.producerId = b'.header.producerId) ∧
      ∀ e ∈ index, e.producerId = b'.header.producerId → e ∈ (passes retention ctxs (all, index)).2) := by
  induction ctxs generalizing all index with
  | nil =>
    exact ⟨b', hb', ⟨hdata, hdata, hne, rfl, rfl, rfl⟩, fun _ => ⟨fun _ => Iff.rfl, fun _ he _ => he⟩⟩
  | cons ctx ctxs ih =>
    obtain ⟨b₁, hb₁, hrem₁, hlater⟩ := ih hmark.compactAll hb'
    obtain ⟨b, hb, hrem, hfirst⟩ := pass_keeps hmark hb₁ hrem₁.data hrem₁.records
    rw [← hrem₁.producerId] at hfirst
    refine ⟨b, hb, hrem.trans hrem₁, fun hpid => ?_⟩
    obtain ⟨hcontrols, hsurv⟩ := hfirst hpid
    obtain ⟨hcontrols', hindex⟩ := hlater hpid
    refine ⟨fun x => (hcontrols' x).trans (hcontrols x), fun e he hep => hindex e ?_ hep⟩
    exact mem_filter.mpr ⟨he, by rw [hep]; exact hsurv⟩

end passes

/-! ## Logs -/

section logs
variable [DecidableEq κ] {retention : ℤ} {ctxs : List CompactionContext} {log : PartitionLog}
  {contents : ℤ → Contents κ ν}

def KeyedLog.compacts (retention : ℤ) (log : KeyedLog κ ν) (ctxs : List CompactionContext) :
    KeyedLog κ ν :=
  ctxs.foldl (KeyedLog.compact retention) log

lemma KeyedLog.compact_spec (retention : ℤ) (log : KeyedLog κ ν) (ctx : CompactionContext) :
    (log.compact retention ctx).sealedBatches = compactAll retention ctx log.sealedBatches ∧
      (log.compact retention ctx).sealedIndex = (log.sealedIndex.filter fun e =>
        (cleanerFor retention ctx log.sealedBatches).survivors e.producerId) ∧
      (log.compact retention ctx).active = log.active := by
  obtain ⟨segments, active, lso⟩ := log
  cases segments with
  | nil => exact ⟨rfl, rfl, rfl⟩
  | cons first rest => exact ⟨flatMap_singleton _ _, flatMap_singleton _ _, rfl⟩

lemma KeyedLog.compacts_spec (retention : ℤ) (log : KeyedLog κ ν) (ctxs : List CompactionContext) :
    (log.compacts retention ctxs).sealedBatches =
        (passes retention ctxs (log.sealedBatches, log.sealedIndex)).1 ∧
      (log.compacts retention ctxs).sealedIndex = (passes retention ctxs (log.sealedBatches, log.sealedIndex)).2 ∧
      (log.compacts retention ctxs).active = log.active := by
  induction ctxs generalizing log with
  | nil => exact ⟨rfl, rfl, rfl⟩
  | cons ctx ctxs ih =>
    obtain ⟨hbatches, hindex, hactive⟩ := log.compact_spec retention ctx
    obtain ⟨hbatches', hindex', hactive'⟩ := ih (log.compact retention ctx)
    rw [hbatches, hindex] at hbatches' hindex'
    exact ⟨hbatches', hindex', hactive'.trans hactive⟩

end logs
section keyed
variable {log : PartitionLog} {contents : ℤ → Contents κ ν} {e : Entry κ ν}

/-- Records are in the order of their offsets and inside the batch, at times that clocks show; a marker has one
record. -/
def Keyed (log : PartitionLog) (contents : ℤ → Contents κ ν) : Prop :=
  ∀ b ∈ log.batches,
    ((contents b.baseOffset).records.map Record.offsetDelta).Pairwise (· < ·) ∧
    (∀ r ∈ (contents b.baseOffset).records, r.offsetDelta ≤ b.lastOffsetDelta) ∧
    (∀ r ∈ (contents b.baseOffset).records,
      -1 ≤ (fill contents b).timestamp r ∧ (fill contents b).timestamp r < 2 ^ 63) ∧
    (b.control.isSome = true → IsMarker (fill contents b))

lemma sealedBatches_ofLog :
    (KeyedLog.ofLog log contents).sealedBatches = log.sealedBatches.map (fill contents) := by
  simp only [KeyedLog.sealedBatches, KeyedLog.ofLog, sealedBatches, flatMap_map, map_flatMap, fillSegment]

lemma all_ofLog : (KeyedLog.ofLog log contents).all = log.batches.map (fill contents) := by
  rw [KeyedLog.all, sealedBatches_ofLog, batches_eq, map_append]
  rfl

lemma headers_ofLog : (KeyedLog.ofLog log contents).headers = log.batches := by
  rw [KeyedLog.headers, all_ofLog, map_map]
  exact map_id _

lemma ordered_entries_fill {b : Batch}
    (hord : ((contents b.baseOffset).records.map Record.offsetDelta).Pairwise (· < ·))
    (hle : ∀ r ∈ (contents b.baseOffset).records, r.offsetDelta ≤ b.lastOffsetDelta) :
    Ordered (fill contents b).entries ∧
      ∀ e ∈ (fill contents b).entries, b.baseOffset ≤ e.offset ∧ e.offset ≤ b.lastOffset := by
  constructor
  · unfold RecordBatch.entries
    split
    · exact List.Pairwise.nil
    · refine pairwise_filterMap.mpr ((pairwise_map.mp hord).imp fun hlt => ?_)
      rintro e he e' he'
      obtain ⟨k, -, rfl⟩ := entry_eq_some.mp he
      obtain ⟨k', -, rfl⟩ := entry_eq_some.mp he'
      simp only [RecordBatch.offset]
      omega
  · intro e he
    obtain ⟨-, r, hr, hre⟩ := mem_batch_entries.mp he
    obtain ⟨k, -, rfl⟩ := entry_eq_some.mp hre
    have := hle r hr
    simp only [RecordBatch.offset, Batch.lastOffset, fill]
    omega

lemma ordered_entries {start : ℤ} {bs : List Batch} (hl : Laid start bs)
    (hord : ∀ b ∈ bs, ((contents b.baseOffset).records.map Record.offsetDelta).Pairwise (· < ·))
    (hle : ∀ b ∈ bs, ∀ r ∈ (contents b.baseOffset).records, r.offsetDelta ≤ b.lastOffsetDelta) :
    Ordered (entries (bs.map (fill contents))) ∧ ∀ e ∈ entries (bs.map (fill contents)), start ≤ e.offset := by
  induction bs generalizing start with
  | nil => exact ⟨List.Pairwise.nil, fun _ he => nomatch he⟩
  | cons b bs ih =>
    obtain ⟨hb, hbs⟩ := forall_mem_cons.mp hord
    obtain ⟨hb', hbs'⟩ := forall_mem_cons.mp hle
    obtain ⟨hhead, hin⟩ := ordered_entries_fill hb hb'
    obtain ⟨htail, hafter⟩ := ih hl.2 hbs hbs'
    have hbase := hl.1
    rw [map_cons, entries, flatMap_cons]
    refine ⟨pairwise_append.mpr ⟨hhead, htail, fun e he e' he' => ?_⟩, fun e he => ?_⟩
    · have h₁ := (hin e he).2
      have h₂ := hafter e' he'
      omega
    · rcases mem_append.mp he with he | he
      · exact hbase ▸ (hin e he).1
      · have h₁ := hafter e he
        have h₂ := b.base_le_last
        omega

lemma Keyed.ordered (hk : Keyed log contents) (hl : Laid 0 log.batches) :
    Ordered (entries (KeyedLog.ofLog log contents).all) := by
  rw [all_ofLog]
  exact (ordered_entries hl (fun b hb => (hk b hb).1) fun b hb => (hk b hb).2.1).1

lemma mem_fill_sealed {b : RecordBatch κ ν} (hb : b ∈ (KeyedLog.ofLog log contents).sealedBatches) :
    ∃ h ∈ log.batches, fill contents h = b := by
  rw [sealedBatches_ofLog] at hb
  obtain ⟨h, hh, rfl⟩ := mem_map.mp hb
  exact ⟨h, by rw [batches_eq]; exact mem_append_left _ hh, rfl⟩

lemma Keyed.timesFit (hk : Keyed log contents) : TimesFit (KeyedLog.ofLog log contents).sealedBatches := by
  intro b hb r hr
  obtain ⟨h, hh, rfl⟩ := mem_fill_sealed hb
  exact (hk h hh).2.2.1 r hr

lemma Keyed.marked (hk : Keyed log contents) : Marked (KeyedLog.ofLog log contents).sealedBatches := by
  intro d hd _ _ _ x hx hcontrol _
  obtain ⟨h, hh, rfl⟩ := mem_fill_sealed hx
  exact (hk h hh).2.2.2 hcontrol

end keyed

/-! ## Transactions -/

lemma ends_congr {h h' : List Batch} {d d' m : Batch} (hd : d ∈ h) (hd' : d' ∈ h')
    (hbase : d'.baseOffset = d.baseOffset) (hpid : d'.producerId = d.producerId)
    (htxn : d'.inTransaction = d.inTransaction)
    (hcontrols : ∀ c, c ∈ h ∧ c.control.isSome ∧ c.producerId = d.producerId ↔
      c ∈ h' ∧ c.control.isSome ∧ c.producerId = d.producerId) :
    Ends h d m ↔ Ends h' d' m := by
  constructor
  · rintro ⟨-, hin, hm, hmc, hmp, hafter, hfirst⟩
    refine ⟨hd', htxn.trans hin, ((hcontrols m).mp ⟨hm, hmc, hmp⟩).1, hmc, hmp.trans hpid.symm,
      hbase ▸ hafter, fun c hc hcc hcp hlt => ?_⟩
    exact hfirst c ((hcontrols c).mpr ⟨hc, hcc, hcp.trans hpid⟩).1 hcc (hcp.trans hpid) (hbase ▸ hlt)
  · rintro ⟨-, hin, hm, hmc, hmp, hafter, hfirst⟩
    refine ⟨hd, htxn.symm.trans hin, ((hcontrols m).mpr ⟨hm, hmc, hmp.trans hpid⟩).1, hmc,
      hmp.trans hpid, hbase ▸ hafter, fun c hc hcc hcp hlt => ?_⟩
    exact hfirst c ((hcontrols c).mp ⟨hc, hcc, hcp⟩).1 hcc (hcp.trans hpid.symm) (hbase ▸ hlt)

/-- Every aborted transaction is in the index of some segment. -/
def Covered (log : PartitionLog) : Prop :=
  ∀ e, IsAborted log.batches e → ∃ seg ∈ log.segments ++ [log.active], e ∈ seg.txnIndex

variable {log : PartitionLog}

lemma Covered.roll (h : Covered log) : Covered log.roll := by
  intro e he
  rw [batches_roll] at he
  obtain ⟨seg, hseg, hin⟩ := h e he
  exact ⟨seg, mem_append_left _ hseg, hin⟩

lemma Covered.write {b : Batch} (h : Covered log) (hi : log.Indexed)
    (hb : b.baseOffset = log.logEndOffset) : Covered (log.write b (log.tracked.note b)) := by
  intro e he
  have hstep := hi.toInStep.write hb
  have hbs := batches_write log b (log.tracked.note b)
  rw [hbs, isAborted_snoc (hbs ▸ hstep.layout.laid) hi.tracked] at he
  have hactive : (log.write b (log.tracked.note b)).active.txnIndex = log.active.txnIndex ++ log.abortedBy b := rfl
  rcases he with he | he
  · obtain ⟨seg, hseg, hin⟩ := h e he
    rcases mem_snoc.mp hseg with hseg | rfl
    · exact ⟨seg, mem_append_left _ hseg, hin⟩
    · refine ⟨_, mem_append_cons_self, ?_⟩
      rw [hactive]
      exact mem_append_left _ hin
  · refine ⟨_, mem_append_cons_self, ?_⟩
    rw [hactive]
    exact mem_append_right _ he

lemma Covered.append (h : Covered log) (hi : log.Indexed) (cfg : LogConfig)
    (b : Batch) : Covered (log.append cfg b) := by
  unfold PartitionLog.append PartitionLog.rollIfFull
  split
  · exact h.roll.write hi.roll rfl
  · exact h.write hi rfl

lemma covered_of_run {cfg : LogConfig} (hrun : (sys cfg).Run (PartitionLog.Recovers cfg) {} log) :
    log.Indexed ∧ Covered log := by
  refine hrun.preserves (P := fun log => log.Indexed ∧ Covered log) ?_ ⟨indexed_empty, ?_⟩
  · rintro log l ⟨hi, hcov⟩ hen hok
    refine ⟨hi.step hen hok, ?_⟩
    match l, hen, hok with
    | .append b, _, _ => exact hcov.append hi cfg b
    | .appendVerbatim b, hen, _ =>
      show Covered (log.appendVerbatim cfg b)
      rw [appendVerbatim_eq_append hen]
      exact hcov.append hi cfg b
    | .reopen, _, hok =>
      have hsame := hi.toInStep.reopen (fun b hb => (hok b hb).1) (fun b hb => (hok b hb).2)
        (fun _ => true) (.inr rfl)
      rw [withSnapshots_true] at hsame
      show Covered ((log.reopen cfg).toOption.getD log)
      rwa [hsame]
  · rintro e ⟨m, hm, -⟩
    cases hm

/-! ## The committed view -/

lemma mem_headers {l : KeyedLog κ ν} {h : Batch} : h ∈ l.headers ↔
    (∃ x ∈ l.sealedBatches, x.header = h) ∨ ∃ x ∈ l.active.batches, x.header = h := by
  unfold KeyedLog.headers KeyedLog.all
  rw [map_append, mem_append, mem_map, mem_map]

lemma entries_all (l : KeyedLog κ ν) :
    entries l.all = entries l.sealedBatches ++ entries l.active.batches := flatMap_append

lemma mem_entries_of_visible {l : KeyedLog κ ν} {e : Entry κ ν} (he : e ∈ l.visible) : e ∈ entries l.all := by
  obtain ⟨b, hb, heb⟩ := mem_flatMap.mp he
  exact mem_entries.mpr ⟨b, mem_of_mem_filter hb, mem_of_mem_filter heb⟩

section view
variable [DecidableEq κ] {cfg : LogConfig} {retention : ℤ} {ctxs : List CompactionContext}
  {log : PartitionLog} {contents : ℤ → Contents κ ν}

/-- **Transactions resolve as before.** -/
theorem keepsTransactions (hcov : Covered log) (hk : Keyed log contents) :
    (KeyedLog.ofLog log contents).KeepsTransactions ((KeyedLog.ofLog log contents).compacts retention ctxs) := by
  set K := KeyedLog.ofLog log contents with hK
  set K' := K.compacts retention ctxs
  intro b' hb' hdata hne
  obtain ⟨hbatches, hindex, hactive⟩ := K.compacts_spec retention ctxs
  have hmem := hb'
  rw [hbatches] at hb'
  obtain ⟨b, hb, hrem, hkeeps⟩ := passes_keep hk.marked hb' hdata hne
  refine ⟨b, hb, hrem, fun htxn => ?_⟩
  have hpid : 0 ≤ b'.header.producerId := by
    rw [hrem.producerId]
    simp only [Batch.inTransaction, Bool.and_eq_true, decide_eq_true_eq] at htxn
    exact htxn.2
  obtain ⟨hcontrols, hentries⟩ := hkeeps hpid
  rw [hrem.producerId] at hcontrols hentries
  -- The control batches of the producer are the same, sealed and active.
  have hheaders : ∀ c : Batch, c ∈ K.headers ∧ c.control.isSome ∧ c.producerId = b.header.producerId ↔
      c ∈ K'.headers ∧ c.control.isSome ∧ c.producerId = b.header.producerId := by
    intro c
    rw [mem_headers, mem_headers, hbatches, hactive]
    refine and_congr_left fun hc => or_congr_left ⟨?_, ?_⟩
    · rintro ⟨x, hx, rfl⟩
      exact ⟨x, ((hcontrols x).mpr ⟨hx, hc.1, hc.2⟩).1, rfl⟩
    · rintro ⟨x, hx, rfl⟩
      exact ⟨x, ((hcontrols x).mp ⟨hx, hc.1, hc.2⟩).1, rfl⟩
  have hends : ∀ later m, Ends (K.headers ++ later) b.header m ↔ Ends (K'.headers ++ later) b'.header m := by
    intro later m
    refine ends_congr (mem_append_left _ (mem_headers.mpr (.inl ⟨b, hb, rfl⟩)))
      (mem_append_left _ (mem_headers.mpr (.inl ⟨b', hmem, rfl⟩))) hrem.base hrem.producerId
      hrem.inTransaction fun c => ?_
    rw [mem_append, mem_append, or_and_right, or_and_right, hheaders c]
  refine ⟨hends, fun m hm hab => ⟨?_, ?_⟩⟩
  · have hm' := hends [] m
    rw [append_nil, append_nil] at hm'
    exact (hm'.mp hm).marker
  · rw [hK, headers_ofLog] at hm
    obtain ⟨e, he, hep, hstart, hlast⟩ := exists_isAborted hm hab
    refine ⟨e, ?_, hep.trans hrem.producerId.symm, hrem.base ▸ hstart, hlast.symm⟩
    obtain ⟨seg, hseg, hin⟩ := hcov e he
    unfold KeyedLog.txnEntries
    rw [hindex, hactive]
    rcases mem_snoc.mp hseg with hseg | rfl
    · refine mem_append_left _ (hentries e ?_ hep)
      exact mem_flatMap.mpr ⟨fillSegment contents seg, mem_map_of_mem hseg, hin⟩
    · exact mem_append_right _ hin

lemma keepsCommitted_iff (hi : log.Indexed) (hk : Keyed log contents)
    (ht : TimelyPasses retention ctxs) (hne : ctxs ≠ []) :
    (KeyedLog.ofLog log contents).KeepsCommitted
        ((KeyedLog.ofLog log contents).compacts retention ctxs) ↔
      (KeyedLog.ofLog log contents).Unshadowed := by
  obtain ⟨hbatches, -, hactive⟩ := (KeyedLog.ofLog log contents).compacts_spec retention ctxs
  have hord := hk.ordered hi.layout.laid
  rw [entries_all] at hord
  obtain ⟨hsealed, -, hcross⟩ := pairwise_append.mp hord
  unfold KeyedLog.KeepsCommitted
  rw [entries_all, hbatches, hactive]
  constructor
  · intro hkeeps e he hval hin
    rcases mem_append.mp (hkeeps e he hval) with hin' | hin'
    · exact newest_of_mem_passes hsealed hk.timesFit ht hne hin'
    · exact absurd (hcross e hin e hin') (lt_irrefl _)
  · intro hclear e he hval
    have hall := mem_entries_of_visible he.1
    rw [entries_all] at hall
    rcases mem_append.mp hall with hin | hin
    · exact mem_append_left _
        (mem_entries_passes hsealed hk.timesFit ht hin (hclear e he hval hin) hval)
    · exact mem_append_right _ hin

end view

/-- **Compaction and the committed view.** For every log written by appends, rolls and reopenings, with
keyed records, and any passes over it: transactions resolve as before, and the newest committed record
of each key survives, tombstones aside, exactly when no record of the key in the sealed segments is
newer. -/
theorem compact_committed_iff [DecidableEq κ] {cfg : LogConfig} {log : PartitionLog}
    {contents : ℤ → Contents κ ν} {retention : ℤ} {ctxs : List CompactionContext}
    (hrun : (sys cfg).Run (PartitionLog.Recovers cfg) {} log)
    (hk : Keyed log contents) (ht : TimelyPasses retention ctxs) (hne : ctxs ≠ []) :
    ((KeyedLog.ofLog log contents).KeepsCommitted
        ((KeyedLog.ofLog log contents).compacts retention ctxs) ↔
      (KeyedLog.ofLog log contents).Unshadowed) ∧
      (KeyedLog.ofLog log contents).KeepsTransactions ((KeyedLog.ofLog log contents).compacts retention ctxs) := by
  obtain ⟨hi, hcov⟩ := covered_of_run hrun
  exact ⟨keepsCommitted_iff hi hk ht hne, keepsTransactions hcov hk⟩

/-! ## Two small logs -/

instance (log : PartitionLog) (contents : ℤ → Contents κ ν) : Decidable (Keyed log contents) := by
  unfold Keyed IsMarker
  infer_instance

instance [DecidableEq κ] (es : List (Entry κ ν)) (e : Entry κ ν) : Decidable (Newest es e) :=
  inferInstanceAs (Decidable (∀ e' ∈ es, _))

instance [DecidableEq κ] [DecidableEq ν] (l : KeyedLog κ ν) (e : Entry κ ν) :
    Decidable (l.NewestVisible e) :=
  inferInstanceAs (Decidable (_ ∧ _))

instance (retention : ℤ) (ctxs : List CompactionContext) : Decidable (TimelyPasses retention ctxs) :=
  inferInstanceAs (Decidable (_ ∧ ∀ ctx ∈ ctxs, _))

/-- One key in every batch; the values are the offsets. -/
def oneKey (o : ℤ) : Contents ℕ ℤ where
  baseTimestamp := 0
  records := [⟨0, 0, some 1, some o⟩]

def committedThenRolled : PartitionLog :=
  (PartitionLog.sys PartitionLog.smallSegments).execs {}
    [.append (PartitionLog.txnBatch 1), .append (PartitionLog.marker 1 1), .append { size := 100 }]

theorem compact_committed_oneKey :
    ((KeyedLog.ofLog committedThenRolled oneKey).KeepsCommitted
        ((KeyedLog.ofLog committedThenRolled oneKey).compacts 1000 [⟨5, []⟩, ⟨9, [1]⟩]) ↔
      (KeyedLog.ofLog committedThenRolled oneKey).Unshadowed) ∧
      (KeyedLog.ofLog committedThenRolled oneKey).KeepsTransactions
        ((KeyedLog.ofLog committedThenRolled oneKey).compacts 1000 [⟨5, []⟩, ⟨9, [1]⟩]) :=
  compact_committed_iff
    (show (sys smallSegments).Run
        (PartitionLog.Recovers smallSegments) {} committedThenRolled from
      Sys.run_of_runsOk)
    (by decide +kernel) (by decide +kernel) (cons_ne_nil _ _)

/-- A plain record, and a newer one of the same key in a transaction that aborts. -/
def plainThenAborted : PartitionLog :=
  (PartitionLog.sys PartitionLog.smallSegments).execs {}
    [.append { size := 100 }, .append (PartitionLog.txnBatch 1), .append (PartitionLog.marker 1 0)]

/-- The aborted record is the newest of the key, and the committed one is dropped. -/
theorem compact_loses_committed :
    (sys smallSegments).AnyRun {} plainThenAborted ∧
      Keyed plainThenAborted oneKey ∧
      (KeyedLog.ofLog plainThenAborted oneKey).NewestVisible ⟨0, 1, some 0, 0, -1, false⟩ ∧
      (⟨0, 1, some 0, 0, -1, false⟩ : Entry ℕ ℤ) ∉
        entries ((KeyedLog.ofLog plainThenAborted oneKey).compacts 1000 [⟨5, []⟩]).all :=
  ⟨Sys.run_of_runs, by decide +kernel⟩

end Crabka.Log.Compaction
