import Crabka.Found.Runs
import Crabka.Metadata.Image

/-!
# Idempotent produce

`crates/broker/src/producer_state.rs` and the produce path of `handlers/produce.rs` for one partition: a batch is
checked against the tracker, appended, and recorded once the response is decided, with other requests in between.
The batches here carry the number of their first record (`start`), of which the code sees only `baseSequence`. A number
is written twice when a batch is sent again while the first attempt waits, when an attempt is given up after its
append, or when a truncation makes the tracker forget a producer.
-/

namespace Crabka.Broker
open List hiding getElem?_filter getElem?_insert
open Found
open Metadata (i32Max)
open Std (ExtTreeMap)

/-! ## The tracker -/

/-- `increment_sequence`: the low 31 bits of the sum. -/
def incrementSequence (sequence increment : ℤ) : ℤ := (sequence + increment) % 2 ^ 31

def decrementSequence (sequence decrement : ℤ) : ℤ := (sequence - decrement) % 2 ^ 31

/-- `ProducerEntry`, without its times. -/
structure ProducerEntry where
  epoch : ℤ
  lastSequence : ℤ
  lastOffset : ℤ
  baseOffset : ℤ
  deriving DecidableEq, Repr

inductive Decision where
  | append
  | duplicate (baseOffset : ℤ)
  | outOfOrder
  | fenced
  deriving DecidableEq, Repr

def matchesLastBatch (entry : ProducerEntry) (baseSequence lastOffsetDelta : ℤ) : Bool :=
  let committedDelta := entry.lastOffset - entry.baseOffset
  committedDelta ≤ i32Max && -2 ^ 31 ≤ committedDelta &&
    baseSequence == decrementSequence entry.lastSequence committedDelta &&
    incrementSequence baseSequence lastOffsetDelta == entry.lastSequence

def checkPure (entry : Option ProducerEntry) (producerEpoch baseSequence lastOffsetDelta : ℤ) :
    Decision :=
  match entry with
  | none => .append
  | some entry =>
    if producerEpoch < entry.epoch then .fenced
    -- A higher epoch starts a new numbering.
    else if entry.epoch < producerEpoch then .append
    else if baseSequence = incrementSequence entry.lastSequence 1 then .append
    else if matchesLastBatch entry baseSequence lastOffsetDelta then .duplicate entry.baseOffset
    else .outOfOrder

/-! ## Requests on one partition -/

/-- A batch of an idempotent producer: `count` records, numbered from `start`. -/
structure SentBatch where
  pid : ℕ
  epoch : ℤ
  start : ℕ
  count : ℕ
  deriving DecidableEq, Repr

namespace SentBatch
variable (b : SentBatch)

def stop : ℕ := b.start + b.count

def baseSequence : ℤ := (b.start : ℤ) % 2 ^ 31

def lastOffsetDelta : ℤ := (b.count : ℤ) - 1

/-- Two batches of one producer and epoch do not share a number. -/
def Apart (b c : SentBatch) : Prop :=
  b.pid = c.pid → b.epoch = c.epoch → b.stop ≤ c.start ∨ c.stop ≤ b.start

instance (b c : SentBatch) : Decidable (b.Apart c) := inferInstanceAs (Decidable (_ → _ → _))

end SentBatch

structure LoggedBatch where
  batch : SentBatch
  base : ℤ
  deriving DecidableEq, Repr

/-- A request that passed the check: the offset it was appended at, and whether its handler gave up.
-/
structure ProduceRequest where
  batch : SentBatch
  base : Option ℤ := none
  abandoned : Bool := false
  deriving DecidableEq, Repr

/-- A tracked producer, with the number that follows its last recorded one. -/
structure Tracked where
  entry : ProducerEntry
  last : ℕ
  deriving DecidableEq

/-- The partition: the idempotent batches of the log, the log end, the tracker and the requests. -/
structure ProduceState where
  log : List LoggedBatch := []
  logEnd : ℤ := 0
  tracker : ExtTreeMap ℕ Tracked := ∅
  inflight : List ProduceRequest := []
  deriving DecidableEq

/-- The await points of a produce request. -/
inductive ProduceStep where
  /-- `handle_duplicate` checks a batch that a producer sent. -/
  | check (b : SentBatch)
  /-- The writer appends. -/
  | append (r : ProduceRequest)
  /-- `finalize_ack` records the batch. -/
  | finalize (r : ProduceRequest)
  /-- The handler times out or is dropped; a queued batch is still appended. -/
  | abandon (r : ProduceRequest)
  /-- A batch without a producer id is appended. -/
  | appendPlain (count : ℕ)
  | truncateLog (offset : ℤ)
  /-- `ProducerState::truncate`. -/
  | truncateTracker (offset : ℤ)
  deriving DecidableEq

namespace ProduceState
variable (s : ProduceState)

def decision (b : SentBatch) : Decision :=
  checkPure (s.tracker[b.pid]?.map Tracked.entry) b.epoch b.baseSequence b.lastOffsetDelta

/-- `commit`: the entry of a batch appended at an offset. -/
def committed (b : SentBatch) (base : ℤ) : Tracked where
  entry :=
    { epoch := b.epoch
      lastSequence := incrementSequence b.baseSequence b.lastOffsetDelta
      lastOffset := base + b.lastOffsetDelta
      baseOffset := base }
  last := b.stop

def Enabled : ProduceStep → Prop
  | .check b => 0 < b.count
  | .append r => r ∈ s.inflight ∧ r.base = none
  | .finalize r => r ∈ s.inflight ∧ r.base.isSome ∧ r.abandoned = false
  | .abandon r => r ∈ s.inflight
  | .appendPlain _ => True
  | .truncateLog offset => offset ≤ s.logEnd
  | .truncateTracker _ => True

instance (l : ProduceStep) : Decidable (s.Enabled l) := by
  cases l <;> unfold Enabled <;> infer_instance

def next : ProduceStep → ProduceState
  | .check b =>
    if s.decision b = .append then { s with inflight := { batch := b } :: s.inflight } else s
  | .append r =>
    { s with
      log := { batch := r.batch, base := s.logEnd } :: s.log
      logEnd := s.logEnd + r.batch.count
      inflight :=
        if r.abandoned then s.inflight.erase r
        else { r with base := some s.logEnd } :: s.inflight.erase r }
  | .finalize r =>
    let base := r.base.getD 0
    { s with
      inflight := s.inflight.erase r
      -- A batch that was truncated away is not recorded.
      tracker := if base + r.batch.lastOffsetDelta + 1 ≤ s.logEnd then
        s.tracker.insert r.batch.pid (committed r.batch base) else s.tracker }
  | .abandon r =>
    { s with
      inflight :=
        if r.base.isSome then s.inflight.erase r
        else { r with abandoned := true } :: s.inflight.erase r }
  | .appendPlain count => { s with logEnd := s.logEnd + count }
  | .truncateLog offset =>
    { s with log := s.log.filter fun e => e.base + e.batch.count ≤ offset, logEnd := offset }
  | .truncateTracker offset =>
    { s with tracker := s.tracker.filter fun _ t => t.entry.lastOffset < offset }

def sys : Sys ProduceState ProduceStep where
  enabled := Enabled
  next := next

instance (l : ProduceStep) : Decidable (sys.enabled s l) := inferInstanceAs (Decidable (s.Enabled l))

def WrittenOnce : Prop := s.log.Pairwise fun e e' => e.batch.Apart e'.batch

instance : Decidable s.WrittenOnce := inferInstanceAs (Decidable (List.Pairwise _ _))

/-- The tracker keeps up: a batch arrives when its producer has no request in flight, and is not `2 ^ 31` numbers
behind; no handler gives up; a truncation forgets only producers without batches and requests. -/
def Serial : ProduceStep → Prop
  | .check b => (∀ r ∈ s.inflight, r.batch.pid ≠ b.pid) ∧
      ∀ t ∈ s.tracker[b.pid]?, t.entry.epoch = b.epoch → t.last < b.start + 2 ^ 31
  | .abandon _ => False
  | .truncateTracker offset => ∀ e ∈ s.tracker.toList, offset ≤ e.2.entry.lastOffset →
      (∀ l ∈ s.log, l.batch.pid ≠ e.1) ∧ ∀ r ∈ s.inflight, r.batch.pid ≠ e.1
  | _ => True

instance (l : ProduceStep) : Decidable (s.Serial l) := by
  cases l <;> unfold Serial <;> infer_instance

/-! ## The invariant -/

def Behind (b : SentBatch) (t : Tracked) : Prop :=
  b.epoch < t.entry.epoch ∨ b.epoch = t.entry.epoch ∧ b.stop ≤ t.last

def Ahead (b : SentBatch) (t : Tracked) : Prop :=
  t.entry.epoch < b.epoch ∨ t.entry.epoch = b.epoch ∧ t.last ≤ b.start

/-- A batch of the log is behind the tracker, or its request is about to record it. -/
def Covered (e : LoggedBatch) : Prop :=
  (∃ t, s.tracker[e.batch.pid]? = some t ∧ Behind e.batch t) ∨
    ∃ r ∈ s.inflight, r.batch = e.batch ∧ r.base = some e.base

/-- Every number is written once, and the tracker is at or behind the log for each request in flight. -/
structure Inv : Prop where
  once : s.WrittenOnce
  within : ∀ e ∈ s.log, e.base + e.batch.count ≤ s.logEnd
  single : s.inflight.Pairwise fun r r' => r.batch.pid ≠ r'.batch.pid
  served : ∀ r ∈ s.inflight, r.abandoned = false
  covered : ∀ e ∈ s.log, s.Covered e
  ahead : ∀ r ∈ s.inflight, ∀ t, s.tracker[r.batch.pid]? = some t → Ahead r.batch t
  /-- The tracker holds the last number as the wire shows it. -/
  wire : ∀ (pid : ℕ) t, s.tracker[pid]? = some t → t.entry.lastSequence = ((t.last : ℤ) - 1) % 2 ^ 31

variable {s}
variable {b c : SentBatch} {t : Tracked}

lemma apart_of_behind_ahead (hb : Behind b t) (hc : Ahead c t) : c.Apart b := by
  intro _ hepoch
  rcases hb with hlt | ⟨heq, hstop⟩ <;> rcases hc with hlt' | ⟨heq', hstart⟩
  · omega
  · omega
  · omega
  · exact .inr (hstop.trans hstart)

lemma Behind.committed (hb : Behind b t) (hc : Ahead c t) (base : ℤ) : Behind b (committed c base) := by
  unfold Behind ProduceState.committed SentBatch.stop at *
  rcases hb with hlt | ⟨heq, hstop⟩ <;> rcases hc with hlt' | ⟨heq', hstart⟩
  · exact .inl (hlt.trans hlt')
  · exact .inl (heq' ▸ hlt)
  · exact .inl (heq ▸ hlt')
  · exact .inr ⟨heq.trans heq', by simp only; omega⟩

lemma ahead_of_append (hd : s.decision b = .append) (ht : s.tracker[b.pid]? = some t)
    (hwire : t.entry.lastSequence = ((t.last : ℤ) - 1) % 2 ^ 31)
    (hnear : t.entry.epoch = b.epoch → t.last < b.start + 2 ^ 31) : Ahead b t := by
  unfold decision checkPure at hd
  simp only [ht, Option.map_some] at hd
  split at hd
  · cases hd
  · split at hd
    · rename_i hlt
      exact .inl hlt
    · rename_i hge hle
      have heq : t.entry.epoch = b.epoch := le_antisymm (not_lt.mp hge) (not_lt.mp hle)
      split at hd
      · -- The numbers agree modulo `2 ^ 31`, and the batch is not that far behind.
        rename_i hseq
        have hclose := hnear heq
        rw [SentBatch.baseSequence, incrementSequence, hwire] at hseq
        refine .inr ⟨heq, ?_⟩
        omega
      · split at hd <;> cases hd

variable {r r' : ProduceRequest}

section
variable (h : s.Inv)
include h

lemma Inv.pid_ne_of_mem_erase (hr : r ∈ s.inflight) (hr' : r' ∈ s.inflight.erase r) :
    r'.batch.pid ≠ r.batch.pid := by
  have hperm := (perm_cons_erase hr).pairwise_iff (fun h => Ne.symm h) |>.mp h.single
  exact ((pairwise_cons.mp hperm).1 r' hr').symm

lemma Inv.eq_of_pid (hr : r ∈ s.inflight) (hr' : r' ∈ s.inflight) (hpid : r.batch.pid = r'.batch.pid) : r = r' := by
  by_contra hne
  exact h.pid_ne_of_mem_erase hr' ((mem_erase_of_ne hne).mpr hr) hpid

lemma Inv.check (hfree : ∀ r ∈ s.inflight, r.batch.pid ≠ b.pid)
    (hnear : ∀ t ∈ s.tracker[b.pid]?, t.entry.epoch = b.epoch → t.last < b.start + 2 ^ 31) :
    (s.next (.check b)).Inv := by
  by_cases hd : s.decision b = .append
  · simp only [next, if_pos hd]
    exact {
      once := h.once
      within := h.within
      single := pairwise_cons.mpr ⟨fun r hr => (hfree r hr).symm, h.single⟩
      served := forall_mem_cons.mpr ⟨rfl, h.served⟩
      covered := fun e he => (h.covered e he).imp_right fun ⟨r, hr, hrest⟩ =>
        ⟨r, mem_cons_of_mem _ hr, hrest⟩
      ahead := forall_mem_cons.mpr ⟨fun t ht =>
        ahead_of_append hd ht (h.wire b.pid t ht) (hnear t ht), h.ahead⟩
      wire := h.wire }
  · simp only [next, if_neg hd]
    exact h

/-- An append writes the next numbers of its producer. -/
lemma Inv.append (hr : r ∈ s.inflight) (hbase : r.base = none) : (s.next (.append r)).Inv := by
  have hserved := h.served r hr
  simp only [next, hserved]
  -- A batch of the same producer in the log is behind the tracker.
  have hbehind : ∀ e ∈ s.log, e.batch.pid = r.batch.pid →
      ∃ t, s.tracker[e.batch.pid]? = some t ∧ Behind e.batch t := by
    intro e he hpid
    refine (h.covered e he).resolve_right ?_
    rintro ⟨r', hr', hbatch, hbase'⟩
    have heq := h.eq_of_pid hr' hr (by rw [hbatch, hpid])
    rw [heq, hbase] at hbase'
    cases hbase'
  exact {
    once := by
      refine pairwise_cons.mpr ⟨fun e he hpid => ?_, h.once⟩
      obtain ⟨t, ht, hb⟩ := hbehind e he hpid.symm
      exact apart_of_behind_ahead hb (h.ahead r hr t (hpid ▸ ht)) hpid
    within := by
      refine forall_mem_cons.mpr ⟨le_rfl, fun e he => ?_⟩
      exact (h.within e he).trans (Int.le_add_of_nonneg_right (Int.natCast_nonneg _))
    single := pairwise_cons.mpr ⟨fun r' hr' => (h.pid_ne_of_mem_erase hr hr').symm, h.single.sublist erase_sublist⟩
    served := forall_mem_cons.mpr ⟨rfl, fun r' hr' => h.served r' (mem_of_mem_erase hr')⟩
    covered := by
      refine forall_mem_cons.mpr ⟨.inr ⟨_, mem_cons_self, rfl, rfl⟩, fun e he => ?_⟩
      rcases h.covered e he with ht | ⟨r', hr', hbatch, hbase'⟩
      · exact .inl ht
      · have hne : r' ≠ r := by
          rintro rfl
          rw [hbase] at hbase'
          cases hbase'
        exact .inr ⟨r', mem_cons_of_mem _ ((mem_erase_of_ne hne).mpr hr'), hbatch, hbase'⟩
    ahead := forall_mem_cons.mpr ⟨h.ahead r hr, fun r' hr' => h.ahead r' (mem_of_mem_erase hr')⟩
    wire := h.wire }

variable {base : ℤ}

lemma Inv.finalize_recorded (hr : r ∈ s.inflight) (hbase : r.base = some base)
    (hkept : base + r.batch.lastOffsetDelta + 1 ≤ s.logEnd) :
    (s.next (.finalize r)).Inv := by
  simp only [next, hbase, Option.getD_some]
  rw [if_pos hkept]
  exact {
    once := h.once
    within := h.within
    single := h.single.sublist erase_sublist
    served := fun r' hr' => h.served r' (mem_of_mem_erase hr')
    covered := by
      intro e he
      by_cases hpid : e.batch.pid = r.batch.pid
      · -- The producer's batches are behind the new entry.
        refine .inl ⟨committed r.batch base, ?_, ?_⟩
        · show (s.tracker.insert _ _)[e.batch.pid]? = _
          rw [hpid, getElem?_insert, if_pos rfl]
        · rcases h.covered e he with ⟨t, ht, hb⟩ | ⟨r', hr', hbatch, -⟩
          · exact hb.committed (h.ahead r hr t (hpid ▸ ht)) base
          · have heq := h.eq_of_pid hr' hr (by rw [hbatch, hpid])
            rw [← hbatch, heq]
            exact .inr ⟨rfl, le_rfl⟩
      · refine (h.covered e he).imp (fun ⟨t, ht, hb⟩ => ⟨t, ?_, hb⟩)
          fun ⟨r', hr', hbatch, hbase'⟩ => ⟨r', ?_, hbatch, hbase'⟩
        · show (s.tracker.insert _ _)[e.batch.pid]? = _
          rwa [getElem?_insert, if_neg hpid]
        · refine (mem_erase_of_ne ?_).mpr hr'
          rintro rfl
          exact hpid (hbatch ▸ rfl)
    ahead := by
      intro r' hr' t ht
      replace ht : (s.tracker.insert r.batch.pid (committed r.batch base))[r'.batch.pid]? = some t := ht
      rw [getElem?_insert, if_neg (h.pid_ne_of_mem_erase hr hr')] at ht
      exact h.ahead r' (mem_of_mem_erase hr') t ht
    wire := by
      intro pid t ht
      replace ht : (s.tracker.insert r.batch.pid (committed r.batch base))[pid]? = some t := ht
      rw [getElem?_insert] at ht
      split at ht
      · cases ht
        show incrementSequence r.batch.baseSequence r.batch.lastOffsetDelta = ((r.batch.stop : ℤ) - 1) % 2 ^ 31
        simp only [incrementSequence, SentBatch.baseSequence, SentBatch.lastOffsetDelta,
          SentBatch.stop, Int.natCast_add]
        omega
      · exact h.wire pid t ht }

lemma Inv.finalize_dropped (hbase : r.base = some base) (hkept : ¬ base + r.batch.lastOffsetDelta + 1 ≤ s.logEnd) :
    (s.next (.finalize r)).Inv := by
  simp only [next, hbase, Option.getD_some]
  rw [if_neg hkept]
  exact {
    once := h.once
    within := h.within
    single := h.single.sublist erase_sublist
    served := fun r' hr' => h.served r' (mem_of_mem_erase hr')
    covered := by
      intro e he
      refine (h.covered e he).imp_right fun ⟨r', hr', hbatch, hbase'⟩ => ?_
      refine ⟨r', (mem_erase_of_ne ?_).mpr hr', hbatch, hbase'⟩
      -- The request's own batch is no longer in the log.
      rintro rfl
      have hwithin := h.within e he
      rw [hbase] at hbase'
      cases hbase'
      rw [← hbatch] at hwithin
      unfold SentBatch.lastOffsetDelta at hkept
      omega
    ahead := fun r' hr' => h.ahead r' (mem_of_mem_erase hr')
    wire := h.wire }

lemma Inv.truncateLog (offset : ℤ) : (s.next (.truncateLog offset)).Inv := by
  have hsub : ∀ e ∈ (s.next (.truncateLog offset)).log, e ∈ s.log := fun e he =>
    mem_of_mem_filter he
  exact {
    once := h.once.sublist filter_sublist
    within := fun e he => of_decide_eq_true (mem_filter.mp he).2
    single := h.single
    served := h.served
    covered := fun e he => h.covered e (hsub e he)
    ahead := h.ahead
    wire := h.wire }

lemma Inv.truncateTracker {offset : ℤ} (hok : s.Serial (.truncateTracker offset)) :
    (s.next (.truncateTracker offset)).Inv := by
  have hlookup : ∀ (pid : ℕ) t, (s.next (.truncateTracker offset)).tracker[pid]? = some t →
      s.tracker[pid]? = some t := by
    intro pid t ht
    replace ht : (s.tracker.filter fun _ t => t.entry.lastOffset < offset)[pid]? = some t := ht
    rw [getElem?_filter] at ht
    exact (Option.filter_eq_some_iff.mp ht).1
  exact {
    once := h.once
    within := h.within
    single := h.single
    served := h.served
    covered := by
      intro e he
      refine (h.covered e he).imp_left fun ⟨t, ht, hb⟩ => ⟨t, ?_, hb⟩
      show (s.tracker.filter fun _ t => t.entry.lastOffset < offset)[e.batch.pid]? = some t
      rw [getElem?_filter, ht]
      refine Option.filter_eq_some_iff.mpr ⟨rfl, decide_eq_true ?_⟩
      -- A forgotten producer has no batch in the log.
      by_contra hge
      exact (hok (e.batch.pid, t) ((mem_toList _).mpr ht) (not_lt.mp hge)).1 e he rfl
    ahead := fun r hr t ht => h.ahead r hr t (hlookup _ t ht)
    wire := fun pid t ht => h.wire pid t (hlookup pid t ht) }

/-- Every serial step keeps the invariant. -/
lemma Inv.step {l : ProduceStep} (hen : s.Enabled l) (hok : s.Serial l) : (s.next l).Inv := by
  cases l with
  | check b => exact h.check hok.1 hok.2
  | append r => exact h.append hen.1 hen.2
  | finalize r =>
    obtain ⟨hr, hsome, -⟩ := hen
    obtain ⟨base, hbase⟩ := Option.isSome_iff_exists.mp hsome
    by_cases hkept : base + r.batch.lastOffsetDelta + 1 ≤ s.logEnd
    · exact h.finalize_recorded hr hbase hkept
    · exact h.finalize_dropped hbase hkept
  | abandon r => exact hok.elim
  | appendPlain count =>
    exact { h with within := fun e he =>
      (h.within e he).trans (Int.le_add_of_nonneg_right (Int.natCast_nonneg count)) }
  | truncateLog offset => exact h.truncateLog offset
  | truncateTracker offset => exact h.truncateTracker hok

end

lemma Inv.empty : ({} : ProduceState).Inv where
  once := .nil
  within := by simp
  single := .nil
  served := by simp
  covered := by simp
  ahead := by simp
  wire pid t ht := by simp at ht

/-- **Every number is written at most once**, in every run whose steps the tracker keeps up with. -/
theorem sequences_written_once {s : ProduceState} (hrun : sys.Run Serial {} s) : s.WrittenOnce :=
  (Sys.Run.preserves hrun (fun _ _ h hen hok => h.step hen hok) Inv.empty).once

/-- A batch is sent again after it was recorded, and the next one across the end of the range of
sequence numbers. -/
theorem sequences_written_once_across_wrap :
    let b : SentBatch := ⟨7, 0, 2 ^ 31 - 2, 2⟩
    let c : SentBatch := ⟨7, 0, 2 ^ 31, 3⟩
    (sys.execs {} [.check b, .append { batch := b }, .finalize { batch := b, base := some 0 },
      .check b, .check c, .append { batch := c }]).WrittenOnce :=
  sequences_written_once Sys.run_of_runsOk

/-- A batch is sent again while the first attempt waits for the high watermark: both are appended. -/
theorem retry_appended_twice :
    let b : SentBatch := ⟨7, 0, 0, 1⟩
    let ls : List ProduceStep := [.check b, .append { batch := b }, .check b, .append { batch := b }]
    sys.AnyRun {} (sys.execs {} ls) ∧ ¬ (sys.execs {} ls).WrittenOnce :=
  ⟨Sys.run_of_runs, by decide +kernel⟩

end ProduceState
end Crabka.Broker
