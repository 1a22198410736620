import Crabka.Log.Reopen

/-!
# The last stable offset of a live log

The offset is moved to the log end when no transaction is open after a batch, and is left alone otherwise. It is the
first offset of the oldest open transaction as long as the transaction that holds it is not ended before the others
(`lso_eq_first_open`).
-/

namespace Crabka.Log.PartitionLog
open Found
open Std (ExtTreeMap)
variable {cfg : LogConfig} {log : PartitionLog}

/-- The first offset of the transaction that a producer has open after the batches. -/
def firstOpen (pid : ℤ) (bs : List Batch) : Option ℤ :=
  bs.foldl (fun first b =>
    if b.producerId ≠ pid then first
    else if b.control.isSome then none
    else if b.inTransaction then first.or (some b.baseOffset)
    else first) none

/-- The smallest first offset of an open transaction, or the log end when none is open. -/
def IsLastStable (bs : List Batch) (logEnd x : ℤ) : Prop :=
  (∀ pid, firstOpen pid bs = none) ∧ x = logEnd ∨
    (∃ pid, firstOpen pid bs = some x) ∧ ∀ pid o, firstOpen pid bs = some o → x ≤ o

lemma pending_trackOf (bs : List Batch) (pid : ℤ) : (trackOf bs).pending[pid]? = firstOpen pid bs := by
  induction bs using List.reverseRecOn with
  | nil => simp [trackOf, firstOpen]
  | append_singleton bs b ih =>
    rw [trackOf_snoc, firstOpen, List.foldl_concat, ← firstOpen, ← ih]
    cases hc : b.control with
    | some c =>
      simp only [Tracked.note, hc, getElem?_erase, Option.isSome_some, if_true, ne_eq, ite_not, eq_comm]
    | none =>
      by_cases htxn : b.inTransaction
      · have hopen : (b.isTransactional && decide (0 ≤ b.producerId)) := by
          simpa [Batch.inTransaction, hc] using htxn
        simp only [Tracked.note, hc, hopen, htxn, if_true, openTransaction, Tracked.getElem?_upsert]
        obtain rfl | hpid := eq_or_ne pid b.producerId
        · cases (trackOf bs).pending[b.producerId]? <;> simp
        · simp [hpid, Ne.symm hpid]
      · have hopen : (b.isTransactional && decide (0 ≤ b.producerId)) = false := by
          simpa [Batch.inTransaction, hc] using htxn
        simp [Tracked.note, hc, hopen, htxn]

/-- What happens to a log between two openings. -/
inductive LiveStep where
  | append (b : Batch)
  | appendVerbatim (b : Batch)
  | roll
  deriving DecidableEq

def liveSys (cfg : LogConfig) : Sys PartitionLog LiveStep where
  enabled _
    | .appendVerbatim b => b.control = none
    | _ => True
  next log
    | .append b => log.append cfg b
    | .appendVerbatim b => log.appendVerbatim cfg b
    | .roll => log.roll

instance (cfg : LogConfig) (log : PartitionLog) (l : LiveStep) :
    Decidable ((liveSys cfg).enabled log l) := by
  cases l <;> unfold liveSys <;> infer_instance

/-- A marker ends the transaction that holds the offset only when no other one is open. -/
def KeepsHolder (log : PartitionLog) : LiveStep → Prop
  | .append b => log.Releases b
  | _ => True

instance (log : PartitionLog) : DecidablePred (KeepsHolder log)
  | .append b => inferInstanceAs (Decidable (log.Releases b))
  | .appendVerbatim _ | .roll => .isTrue trivial

lemma liveSys_cases {l : LiveStep} (hen : (liveSys cfg).enabled log l) :
    (liveSys cfg).next log l = log.roll ∨ ∃ b, (KeepsHolder log l → log.Releases b) ∧
      (liveSys cfg).next log l = log.append cfg b := by
  cases l with
  | append b => exact .inr ⟨b, id, rfl⟩
  | appendVerbatim b =>
    have hcontrol : b.control = none := hen
    exact .inr ⟨b, fun _ hsome => by simp [hcontrol] at hsome, appendVerbatim_eq_append hen⟩
  | roll => exact .inl rfl

lemma stable_append {b : Batch} (h : log.InStep)
    (hstable : IsStable log.tracked.pending log.logEndOffset log.lso) (hrel : log.Releases b) :
    IsStable (log.append cfg b).tracked.pending (log.append cfg b).logEndOffset (log.append cfg b).lso := by
  unfold PartitionLog.append rollIfFull
  split
  · rw [logEndOffset_write]
    rw [← logEndOffset_roll] at hstable
    exact IsStable.note hstable h.roll.below rfl hrel
  · rw [logEndOffset_write]
    exact hstable.note h.below rfl hrel

lemma lso_append (hle : log.lso ≤ log.logEndOffset) (b : Batch) :
    log.lso ≤ (log.append cfg b).lso ∧ (log.append cfg b).lso ≤ (log.append cfg b).logEndOffset := by
  have hwrite : ∀ l : PartitionLog, l.lso ≤ l.logEndOffset → ∀ t,
      l.lso ≤ (l.write (b.atBase l.logEndOffset) t).lso ∧ (l.write (b.atBase l.logEndOffset) t).lso ≤
        (l.write (b.atBase l.logEndOffset) t).logEndOffset := by
    intro l hl t
    rw [logEndOffset_write]
    have hend : l.logEndOffset < (b.atBase l.logEndOffset).lastOffset + 1 := by
      simp only [Batch.lastOffset, Batch.atBase]
      omega
    simp only [write, advanceLso]
    split
    · omega
    · split <;> omega
  unfold PartitionLog.append rollIfFull
  split
  · exact hwrite log.roll (by rw [logEndOffset_roll]; exact hle) _
  · exact hwrite log hle _

/-- In runs in which a marker never ends the transaction that holds the offset while another one is open,
the last stable offset is that of the oldest open transaction. In every run it never decreases. -/
theorem lso_eq_first_open :
    (∀ log, (liveSys cfg).Run KeepsHolder {} log → IsLastStable log.batches log.logEndOffset log.lso) ∧
    ∀ log l, (liveSys cfg).AnyRun {} log → (liveSys cfg).enabled log l →
      log.lso ≤ ((liveSys cfg).next log l).lso := by
  constructor
  · intro log hrun
    obtain ⟨hin, hstable⟩ : log.InStep ∧ IsStable log.tracked.pending log.logEndOffset log.lso := by
      refine hrun.preserves (P := fun log => log.InStep ∧
        IsStable log.tracked.pending log.logEndOffset log.lso) (fun log l h hen hok => ?_)
        ⟨inStep_empty, .inl ⟨fun _ => by simp, rfl⟩⟩
      obtain hroll | ⟨b, hrel, happ⟩ := liveSys_cases hen
      · rw [hroll]
        exact ⟨h.1.roll, by rw [logEndOffset_roll]; exact h.2⟩
      · rw [happ]
        exact ⟨h.1.append cfg b, stable_append h.1 h.2 (hrel hok)⟩
    simpa only [IsLastStable, IsStable, hin.tracked, pending_trackOf] using hstable
  · intro log l hrun hen
    have hle : log.lso ≤ log.logEndOffset := by
      refine hrun.preserves (P := fun log => log.lso ≤ log.logEndOffset) (fun log l h hen _ => ?_) le_rfl
      obtain hroll | ⟨b, -, happ⟩ := liveSys_cases hen
      · rw [hroll, logEndOffset_roll]
        exact h
      · rw [happ]
        exact (lso_append h b).2
    obtain hroll | ⟨b, -, happ⟩ := liveSys_cases hen
    · rw [hroll]
      exact le_rfl
    · rw [happ]
      exact (lso_append hle b).1

/-- The second of two open transactions commits, and the offset is still that of the first. -/
theorem lso_eq_first_open_secondEnds :
    let log := (liveSys smallSegments).execs {} [.append (txnBatch 1), .append (txnBatch 2), .append (marker 2 1)]
    IsLastStable log.batches log.logEndOffset log.lso ∧ log.lso = 0 ∧ firstOpen 1 log.batches = some 0 :=
  ⟨lso_eq_first_open.1 _ Sys.run_of_runsOk, by decide +kernel⟩

/-- The first of two open transactions commits, and the offset stays behind at its first batch. -/
theorem lso_stays_behind :
    let log := (liveSys smallSegments).execs {} [.append (txnBatch 1), .append (txnBatch 2), .append (marker 1 1)]
    (liveSys smallSegments).AnyRun {} log ∧ log.lso = 0 ∧ firstOpen 1 log.batches = none ∧
      firstOpen 2 log.batches = some 1 :=
  ⟨Sys.run_of_runs, by decide +kernel⟩

end Crabka.Log.PartitionLog
