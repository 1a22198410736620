import Crabka.Kraft.Core.Machine
import Crabka.Kraft.Log.KraftLog

/-!
# Divergence detection over the metadata log

A leader answers a Fetch with a truncation point, or accepts it as an acknowledgement of everything below its offset.
The test takes no entry for the follower's last epoch to mean no divergence, but an epoch that the leader never
recorded is exactly the case in which the logs differ. The verdict is right when the leader has a record of the epoch
below the follower's log end (`fetchVerdictSound_iff`).
-/

namespace Crabka.Kraft
open List QuorumStateMachine History
variable {ρ : Type}

/-! ## Log matching -/

/-- Raft's log matching: logs with records of one epoch at one offset agree up to this offset. -/
def LogMatching (l f : List (LogRecord ρ)) : Prop :=
  ∀ i x y, l[i]? = some x → f[i]? = some y → x.epoch = y.epoch → l.take (i + 1) = f.take (i + 1)

/-- A log that agrees with another one in the epoch of its own last record is a prefix of it. -/
lemma LogMatching.prefix {l f : List (LogRecord ρ)} (h : LogMatching l f) {x y : LogRecord ρ}
    (hx : l[f.length - 1]? = some x) (hy : f.getLast? = some y) (he : x.epoch = y.epoch) :
    f <+: l := by
  have hpos : 0 < f.length := by
    rcases eq_nil_or_concat f with rfl | ⟨t, a, rfl⟩
    · cases hy
    · simp
  have hagree := h (f.length - 1) x y hx (by rw [← getLast?_eq_getElem?]; exact hy) he
  rw [Nat.sub_add_cancel hpos, take_length] at hagree
  rw [← hagree]
  exact take_prefix _ _

/-! ## The verdict -/

/-- A Fetch with the tip of `F`, handled over the log of `L`: accepted logs are prefixes, and a truncation point lies
below the end of `F` and keeps all that the logs share. -/
def FetchVerdictSound (m : QuorumStateMachine) (src : NodeId) (L F : History ρ) : Prop :=
  let acts := (m.handleFetch L.log.view src F.log.view.lastEpoch F.log.view.endOffset).2
  ((∀ p, .truncateTo p ∉ acts) → F.records <+: L.records) ∧
    ∀ p, .truncateTo p ∈ acts →
      p.offset < F.log.view.endOffset ∧ ∀ n ≤ F.records.length, F.records.take n <+: L.records → (n : ℤ) ≤ p.offset

lemma truncateTo_mem_handleFetch {m : QuorumStateMachine} {log : LogView} {src : NodeId}
    {e : ℕ} {off : ℤ} {p : LogOffsetMetadata} (hlead : m.role.isLeader) :
    .truncateTo p ∈ (m.handleFetch log src e off).2 ↔ divergence log e off = some p := by
  unfold handleFetch
  cases hrole : m.role with
  | leader replicas hwm start =>
    simp only
    cases hdiv : divergence log e off with
    | some q => simp [eq_comm]
    | none =>
      simp only
      split <;> simp
  | _ => rw [hrole] at hlead; cases hlead

lemma divergence_view (L : History ρ) (e : ℕ) (off : ℕ) :
    divergence L.log.view e off =
      if 0 < off ∧ (e : ℤ) ∈ L.epochs ∧ L.epochs.countP (· ≤ (e : ℤ)) < off then
        some ⟨L.epochs.countP (· ≤ (e : ℤ)), e⟩
      else none := by
  unfold divergence
  rw [L.endOffsetForEpoch_view]
  by_cases hpos : 0 < off
  · rw [if_pos (by exact_mod_cast hpos)]
    by_cases hmem : (e : ℤ) ∈ L.epochs
    · simp [hmem, hpos]
    · simp [hmem]
  · rw [if_neg (by exact_mod_cast hpos), if_neg fun h => hpos h.1]

section
variable {l f : List (LogRecord ρ)} (hl : (l.map LogRecord.epoch).Pairwise (· ≤ ·))
include hl

lemma epoch_le_iff {i : ℕ} {x : LogRecord ρ} {e : ℤ} (hx : l[i]? = some x) :
    x.epoch ≤ e ↔ i < (l.map LogRecord.epoch).countP (· ≤ e) := by
  obtain ⟨hi, rfl⟩ := List.getElem?_eq_some_iff.mp hx
  rw [← Found.getElem_le_iff_lt_countP hl (by rwa [length_map])]
  simp

lemma le_countP_of_shared (hf : (f.map LogRecord.epoch).Pairwise (· ≤ ·)) {last : LogRecord ρ}
    (hlast : f.getLast? = some last) {n : ℕ} (hn : n ≤ f.length) (hshared : f.take n <+: l) :
    n ≤ (l.map LogRecord.epoch).countP (· ≤ last.epoch) := by
  cases n with
  | zero => exact Nat.zero_le _
  | succ n =>
    obtain ⟨x, hx⟩ : ∃ x, f[n]? = some x := ⟨_, getElem?_eq_getElem hn⟩
    have hxL : l[n]? = some x := by
      obtain ⟨t, ht⟩ := hshared
      rwa [← ht, getElem?_append_left (by simp; omega), getElem?_take_of_lt (by omega)]
    -- epochs do not decrease in `f`, so the shared record is not of a later epoch
    have hle : x.epoch ≤ last.epoch := by
      have hmax := Found.max?_eq_getLast? hf
      rw [getLast?_map, hlast] at hmax
      exact (max?_eq_some_iff.mp hmax).2 _ (mem_map.mpr ⟨x, mem_of_getElem? hx, rfl⟩)
    exact (epoch_le_iff hl hxL).mp hle

lemma records_prefix (hmatch : LogMatching l f) {last : LogRecord ρ} (hF : f.getLast? = some last)
    (hle : f.length ≤ (l.map LogRecord.epoch).countP (· ≤ last.epoch)) {i : ℕ} {x : LogRecord ρ}
    (hi : i < f.length) (hx : l[i]? = some x) (he : x.epoch = last.epoch) : f <+: l := by
  have hlen : (l.map LogRecord.epoch).countP (· ≤ last.epoch) ≤ l.length :=
    countP_le_length.trans_eq (length_map _)
  obtain ⟨y, hy⟩ : ∃ y, l[f.length - 1]? = some y := ⟨_, getElem?_eq_getElem (by omega)⟩
  -- The record of `l` under the last one of `f` lies between two of the same epoch.
  refine hmatch.prefix hy hF (le_antisymm ?_ ?_)
  · exact (epoch_le_iff hl hy).mpr (by omega)
  · have hmono : x.epoch ≤ y.epoch := by
      rw [epoch_le_iff hl hx]
      have hyd := (epoch_le_iff hl hy).mp le_rfl
      omega
    omega

end

lemma History.exists_lt_countP (L : History ρ) {e : ℤ} (he : e ∈ L.epochs) :
    ∃ (i : ℕ) (x : LogRecord ρ), i < L.epochs.countP (· ≤ e) ∧ L.records[i]? = some x ∧ x.epoch = e := by
  obtain ⟨x, hx, hxe⟩ := mem_map.mp he
  obtain ⟨i, hi, rfl⟩ := getElem_of_mem hx
  have hx' := getElem?_eq_getElem hi
  exact ⟨i, _, (epoch_le_iff L.epochs_sorted hx').mp hxe.le, hx', hxe⟩

/-- **When a Fetch verdict is right**: the follower's log is empty, or the leader's log has a record
of the follower's last epoch below the follower's log end. -/
theorem fetchVerdictSound_iff {m : QuorumStateMachine} (hlead : m.role.isLeader = true)
    (src : NodeId) (L F : History ρ) (hmatch : LogMatching L.records F.records) :
    FetchVerdictSound m src L F ↔
      F.records = [] ∨
        ∃ i x last, i < F.records.length ∧ L.records[i]? = some x ∧
          F.records.getLast? = some last ∧ x.epoch = last.epoch := by
  have hoff : F.log.view.endOffset = (F.records.length : ℤ) := F.logEndOffset_log
  unfold FetchVerdictSound
  simp only [truncateTo_mem_handleFetch hlead, hoff, divergence_view]
  rcases hF : F.records.getLast? with _ | last
  · -- an empty follower is always accepted
    have hnil : F.records = [] := getLast?_eq_none_iff.mp hF
    simp [hnil]
  have hpos : 0 < F.records.length := by
    rcases eq_nil_or_concat F.records with h | ⟨t, a, h⟩
    · rw [h] at hF; cases hF
    · simp [h]
  have hne : F.records ≠ [] := ne_nil_of_length_pos hpos
  have hlastEpoch : (F.log.view.lastEpoch : ℤ) = last.epoch := by
    rw [F.lastEpoch_view, epochs, getLast?_map, hF]
    rfl
  rw [hlastEpoch]
  set d := L.epochs.countP (· ≤ last.epoch) with hd
  have hmemL : ∀ {i : ℕ} {x : LogRecord ρ}, L.records[i]? = some x → x.epoch = last.epoch →
      last.epoch ∈ L.epochs :=
    fun hx he => he ▸ mem_map.mpr ⟨_, mem_of_getElem? hx, rfl⟩
  constructor
  · rintro ⟨haccept, -⟩
    refine .inr ?_
    by_cases hdiv : last.epoch ∈ L.epochs ∧ d < F.records.length
    · -- rejected: the epoch is recorded, and its records lie below its end
      obtain ⟨i, x, hlt, hx, he⟩ := L.exists_lt_countP hdiv.1
      exact ⟨i, x, last, by omega, hx, rfl, he⟩
    · -- accepted: the prefix shows the last record of `F` in `L`
      have hprefix : F.records <+: L.records := by
        refine haccept fun p hp => ?_
        rw [if_neg fun h => hdiv h.2] at hp
        cases hp
      obtain ⟨t, ht⟩ := hprefix
      refine ⟨F.records.length - 1, last, last, by omega, ?_, rfl, rfl⟩
      rw [← ht, getElem?_append_left (by omega), ← getLast?_eq_getElem?, hF]
  · rintro (hnil | ⟨i, x, last', hi, hx, hl, he⟩)
    · exact absurd hnil hne
    obtain rfl : last = last' := Option.some.inj hl
    refine ⟨fun haccept => ?_, fun p hp => ?_⟩
    · have hge : F.records.length ≤ d := by
        by_contra hlt
        exact haccept _ (if_pos ⟨hpos, hmemL hx he, by omega⟩)
      exact records_prefix L.epochs_sorted hmatch hF hge hi hx he
    · split at hp
      · rename_i hcond
        cases hp
        refine ⟨Int.ofNat_lt.mpr hcond.2.2, fun n hn hshared => ?_⟩
        exact Int.ofNat_le.mpr (le_countP_of_shared L.epochs_sorted F.epochs_sorted hF hn hshared)
      · cases hp

/-! ## Concrete histories -/

def singleRecordBatch (epoch : ℕ) (payload : ρ) : RecordBatch ρ where
  partitionLeaderEpoch := epoch
  lastOffsetDelta := 0
  records := [⟨0, payload⟩]

def exampleLeader : QuorumStateMachine where
  me := 1
  state := { QuorumState.bootstrap 0 (.fromVoters [{ id := 1 }, { id := 2 }, { id := 3 }]) with
    leaderEpoch := 3, leaderId := some 1 }
  adjacentVoters := none
  role := .leader ((Std.ExtTreeMap.empty.insert 2 {}).insert 3 {}) 0 1
  electionTimeoutMs := 1000

/-- A leader's log in which epoch `2` left nothing. -/
def leaderHistory : History ℕ where
  batches := [singleRecordBatch 1 10, singleRecordBatch 3 30]
  wellFormed := by
    intro b hb
    simp only [List.mem_cons, List.not_mem_nil, or_false] at hb
    rcases hb with rfl | rfl <;> exact ⟨by decide, by decide, rfl⟩
  sorted := by decide

/-- The log of a follower that has a record of epoch `2`. -/
def abandonedHistory : History ℕ where
  batches := [singleRecordBatch 1 10, singleRecordBatch 2 20]
  wellFormed := by
    intro b hb
    simp only [List.mem_cons, List.not_mem_nil, or_false] at hb
    rcases hb with rfl | rfl <;> exact ⟨by decide, by decide, rfl⟩
  sorted := by decide

def laggingHistory : History ℕ where
  batches := [singleRecordBatch 1 10]
  wellFormed := by
    intro b hb
    simp only [List.mem_singleton] at hb
    subst hb
    exact ⟨by decide, by decide, rfl⟩
  sorted := by decide

lemma logMatching_abandoned : LogMatching leaderHistory.records abandonedHistory.records := by
  have hl : leaderHistory.records = [⟨1, 10⟩, ⟨3, 30⟩] := rfl
  have hf : abandonedHistory.records = [⟨1, 10⟩, ⟨2, 20⟩] := rfl
  intro i x y hx hy he
  rw [hl] at hx ⊢
  rw [hf] at hy ⊢
  match i with
  | 0 => rfl
  | 1 =>
    simp only [getElem?_cons_succ, getElem?_cons_zero, Option.some.injEq] at hx hy
    subst hx hy
    cases he
  | i + 2 => simp at hx

lemma logMatching_lagging : LogMatching leaderHistory.records laggingHistory.records := by
  have hl : leaderHistory.records = [⟨1, 10⟩, ⟨3, 30⟩] := rfl
  have hf : laggingHistory.records = [⟨1, 10⟩] := rfl
  intro i x y hx hy _
  rw [hl]
  rw [hf] at hy ⊢
  match i with
  | 0 => rfl
  | i + 1 => simp at hy

theorem fetchVerdictSound_lagging :
    exampleLeader.role.isLeader = true ∧
      LogMatching leaderHistory.records laggingHistory.records ∧
      FetchVerdictSound exampleLeader 2 leaderHistory laggingHistory :=
  ⟨rfl, logMatching_lagging,
    (fetchVerdictSound_iff rfl 2 leaderHistory laggingHistory logMatching_lagging).mpr
      (.inr ⟨0, ⟨1, 10⟩, ⟨1, 10⟩, by decide, rfl, rfl, rfl⟩)⟩

/-- **The Fetch of a follower from an abandoned epoch is accepted**: its records of epoch `2` are
not in the leader's log, no truncation is asked for, and yet the log is no prefix. -/
theorem fetch_accepted_from_abandoned_epoch :
    exampleLeader.role.isLeader = true ∧
      LogMatching leaderHistory.records abandonedHistory.records ∧
      ¬ FetchVerdictSound exampleLeader 2 leaderHistory abandonedHistory := by
  refine ⟨rfl, logMatching_abandoned, fun hsound => ?_⟩
  have hprefix : abandonedHistory.records <+: leaderHistory.records := by
    refine hsound.1 fun p hp => ?_
    have hnone : divergence leaderHistory.log.view abandonedHistory.log.view.lastEpoch
        abandonedHistory.log.view.endOffset = none := by decide
    rw [truncateTo_mem_handleFetch rfl, hnone] at hp
    cases hp
  revert hprefix
  decide

end Crabka.Kraft
