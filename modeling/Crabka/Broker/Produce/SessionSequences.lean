import Crabka.Broker.Produce.Idempotent

/-!
# The sequence numbers of a session

`crates/client-producer/src/sender.rs` for one partition and one producer epoch, with the entry that the leader keeps.
The sender advances `next_seq` for every batch that it drains and wraps it as an `i32`; the leader expects the number
after the last batch that it appended, modulo `2 ^ 31`.

How the counter, the batches that are out and the leader's entry belong together is one invariant (`Numbered`), which
every event keeps. By it the next batch is appended exactly if its number is the one expected
(`next_batch_appended_iff`); a batch that the sender gives up leaves a gap (`next_batch_outOfOrder`).
-/

namespace Crabka.Broker
open Found
open Metadata (i32Max)

/-- `BatchVerdict`, with `Classification::Routing` among the retries. -/
inductive BatchVerdict where
  | acked | retry | fence | terminal
  deriving DecidableEq, Repr

def classifyVerdict (errorCode : ℤ) : BatchVerdict :=
  if errorCode = 0 ∨ errorCode = 46 then .acked
  else if errorCode = 45 ∨ errorCode = 6 ∨ errorCode = 3 then .retry
  else if errorCode = 47 then .fence
  else .terminal

/-- `PreparedBatch`: the first sequence number, and how many records there are. -/
structure PreparedBatch where
  baseSequence : ℤ
  records : ℕ
  deriving DecidableEq, Repr

namespace PreparedBatch
variable (b : PreparedBatch)

/-- The sequence numbers that `prepare_batch` takes. -/
def count : ℤ := min b.records i32Max

def lastOffsetDelta : ℤ := min ((b.records - 1 : ℕ) : ℤ) i32Max

/-- `validate_client_batch_fields`. -/
def valid : Prop := b.lastOffsetDelta < i32Max ∧ 0 ≤ b.baseSequence

instance : Decidable b.valid := inferInstanceAs (Decidable (_ ∧ _))

end PreparedBatch

/-- The sender and the leader's entry, with the count of numbers taken so far, and at the last append. -/
structure Session where
  entry : Option ProducerEntry
  nextSeq : ℤ := 0
  outstanding : Option PreparedBatch := none
  fenced : Bool := false
  taken : ℤ := 0
  appended : Option ℤ := none
  deriving DecidableEq

/-- What happens to the batches. A request or an answer that is lost is no event. -/
inductive SessionEvent where
  | drain (records : ℕ)
  /-- The leader checks the batch; the log ends at `base`. -/
  | check (base : ℤ)
  /-- The sender is answered, by the leader or by a broker that refused the batch unchecked. -/
  | answer (errorCode : ℤ)
  /-- The retries or the routing budget are used up. -/
  | giveUp
  deriving DecidableEq

namespace Session
variable (epoch : ℤ) (s : Session)

def prepareBatch (records : ℕ) : PreparedBatch := ⟨s.nextSeq, records⟩

def decision (b : PreparedBatch) : Decision := checkPure s.entry epoch b.baseSequence b.lastOffsetDelta

def Enabled : SessionEvent → Prop
  | .drain records => 0 < records ∧ s.outstanding = none ∧ s.fenced = false
  | .check _ | .answer _ | .giveUp => s.outstanding.isSome

instance (l : SessionEvent) : Decidable (s.Enabled l) := by cases l <;> unfold Enabled <;> infer_instance

def next : SessionEvent → Session
  | .drain records =>
    let b := s.prepareBatch records
    { s with
      nextSeq := Int.bmod (s.nextSeq + b.count) (2 ^ 32)
      outstanding := some b
      taken := s.taken + b.count }
  | .check base => match s.outstanding with
    | none => s
    | some b =>
      if b.valid ∧ s.decision epoch b = .append then
        { s with
          entry := some
            { epoch
              lastSequence := incrementSequence b.baseSequence b.lastOffsetDelta
              lastOffset := base + b.lastOffsetDelta
              baseOffset := base }
          appended := some s.taken }
      else s
  | .answer errorCode => match classifyVerdict errorCode with
    | .acked | .terminal => { s with outstanding := none }
    -- The batch stays, and is sent again as it is.
    | .retry => s
    | .fence => { s with outstanding := none, fenced := true }
  | .giveUp => { s with outstanding := none, fenced := true }

def sys : Sys Session SessionEvent where
  enabled := Enabled
  next := next epoch

instance (s : Session) (l : SessionEvent) : Decidable ((sys epoch).enabled s l) :=
  inferInstanceAs (Decidable (s.Enabled l))

/-- What the leader expects: any number of a new epoch, or the one after the last batch. -/
def Expects : Option ProducerEntry → Option ℤ → Prop
  | entry, none => ∀ e ∈ entry, e.epoch < epoch
  | entry, some n => ∃ e, entry = some e ∧ e.epoch = epoch ∧ incrementSequence e.lastSequence 1 = n % 2 ^ 31

/-- The counter is the numbers taken, as an `i32`, and the outstanding batch has the last of them. -/
structure Numbered : Prop where
  counter : s.nextSeq = s.taken.bmod (2 ^ 32)
  outstanding : ∀ b ∈ s.outstanding, 0 < b.records ∧ b.baseSequence = (s.taken - b.count).bmod (2 ^ 32)
  expects : Expects epoch s.entry s.appended

variable {epoch s}

lemma checkPure_eq_append_iff {entry : Option ProducerEntry} {appended : Option ℤ}
    (h : Expects epoch entry appended) (baseSequence delta : ℤ) :
    checkPure entry epoch baseSequence delta = .append ↔ ∀ n ∈ appended, baseSequence = n % 2 ^ 31 := by
  cases appended with
  | none =>
    refine iff_of_true ?_ (by simp)
    cases entry with
    | none => rfl
    | some e =>
      have hlt : e.epoch < epoch := h e rfl
      simp [checkPure, hlt, hlt.not_gt]
  | some n =>
    obtain ⟨e, rfl, rfl, hnext⟩ := h
    simp only [checkPure, lt_irrefl, if_false, hnext, Option.mem_some_iff, forall_eq']
    split_ifs with heq <;> simp only [heq]

/-- Every event keeps the numbers of the session, of its batches, and what the broker expects. -/
lemma Numbered.next (h : s.Numbered epoch) {l : SessionEvent} (hl : s.Enabled l) :
    (s.next epoch l).Numbered epoch := by
  obtain ⟨hcounter, hout, hexpects⟩ := h
  cases l with
  | drain records =>
    refine ⟨?_, ?_, hexpects⟩
    · show Int.bmod (s.nextSeq + _) _ = Int.bmod (s.taken + _) _
      rw [hcounter, Int.bmod_add_bmod]
    · rintro b ⟨⟩
      refine ⟨hl.1, ?_⟩
      show s.nextSeq = Int.bmod (s.taken + _ - _) _
      rw [hcounter, add_sub_cancel_right]
  | check base =>
    simp only [Session.next]
    split
    · exact ⟨hcounter, hout, hexpects⟩
    · rename_i b hb
      split_ifs with hok
      · obtain ⟨hpos, hbase⟩ := hout b hb
        refine ⟨hcounter, hout, _, rfl, rfl, ?_⟩
        obtain ⟨⟨hdelta, hnonneg⟩, -⟩ := hok
        -- A valid batch has as many numbers as records.
        simp only [PreparedBatch.lastOffsetDelta, PreparedBatch.count, incrementSequence, Int.bmod] at *
        grind
      · exact ⟨hcounter, hout, hexpects⟩
  | answer errorCode =>
    simp only [Session.next]
    split
    all_goals first | exact ⟨hcounter, hout, hexpects⟩ | exact ⟨hcounter, by simp, hexpects⟩
  | giveUp => exact ⟨hcounter, by simp [Session.next], hexpects⟩

/-- **When the next batch is appended.** In every state of every run from an entry of an older epoch or none, the
leader appends the batch that is drained next exactly if the numbers taken are in an even block of `2 ^ 31`, and
those taken since it last appended a batch, all by batches that failed, are a multiple of `2 ^ 31`. -/
theorem next_batch_appended_iff {entry : Option ProducerEntry} (hentry : ∀ e ∈ entry, e.epoch < epoch)
    (hrun : (sys epoch).AnyRun { entry } s) (records : ℕ) :
    0 ≤ (s.prepareBatch records).baseSequence ∧ s.decision epoch (s.prepareBatch records) = .append ↔
      s.taken % 2 ^ 32 < 2 ^ 31 ∧ ∀ n ∈ s.appended, 2 ^ 31 ∣ s.taken - n := by
  have h : s.Numbered epoch := hrun.preserves (fun _ _ h hl _ => h.next hl) ⟨rfl, by simp, hentry⟩
  have hcounter := h.counter
  rw [Int.bmod] at hcounter
  have hsign : 0 ≤ s.nextSeq ↔ s.taken % 2 ^ 32 < 2 ^ 31 := by split_ifs at hcounter <;> omega
  rw [decision, checkPure_eq_append_iff h.expects, ← hsign]
  refine and_congr_right fun hnonneg => forall₂_congr fun n _ => ?_
  change 0 ≤ s.nextSeq at hnonneg
  show s.nextSeq = n % 2 ^ 31 ↔ _
  split_ifs at hcounter <;> omega

/-- A batch of three records is appended; the answer is lost, and the resend is acknowledged. -/
def resent : List SessionEvent := [.drain 3, .check 0, .check 3, .answer 0]

theorem next_batch_appended_iff_resent :
    let s := (sys 0).execs { entry := none } resent
    0 ≤ (s.prepareBatch 1).baseSequence ∧ s.decision 0 (s.prepareBatch 1) = .append :=
  (next_batch_appended_iff (by simp) Sys.run_of_runs 1).mpr (by decide +kernel)

/-- Batches that the sender gives up leave a gap, and the counter becomes negative after `i32::MAX`. -/
theorem next_batch_outOfOrder :
    let refused := (sys 0).execs { entry := none } (resent ++ [.drain 1, .answer 10])
    let wrapped := (sys 0).execs { entry := none } [.drain (2 ^ 31 - 1), .check 0, .answer 0, .drain 1, .check 1, .answer 0]
    (sys 0).AnyRun { entry := none } refused ∧ refused.decision 0 (refused.prepareBatch 1) = .outOfOrder ∧
      (sys 0).AnyRun { entry := none } wrapped ∧ (wrapped.prepareBatch 1).baseSequence < 0 :=
  ⟨Sys.run_of_runs, by decide +kernel, Sys.run_of_runs, by decide +kernel⟩

end Session
end Crabka.Broker
