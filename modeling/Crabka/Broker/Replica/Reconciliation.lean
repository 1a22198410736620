import Crabka.Kraft.Log.Divergence

/-!
# Reconciling the log of a follower

A leader without the follower's latest epoch answers a fetch with the end of the epoch in its own log, and the follower
truncates to it (KIP-101, KIP-320). Such rounds reach a prefix of the leader's log (`rounds_reconcile`) when in each the
leader has fewer records up to the epoch than the follower has in all, or one of the epoch below the follower's end;
otherwise nothing may ever be truncated (`round_stuck`).
-/

namespace Crabka.Log.LeaderEpochCheckpoint
open List
variable {entries : LeaderEpochCheckpoint} {eps : List ℤ} {e : ℤ}

/-- `epoch_and_offset_for_entries`. -/
def epochAndOffsetFor (entries : LeaderEpochCheckpoint) (requested logEnd : ℤ) : ℤ × ℤ :=
  if requested = undefinedEpoch then (undefinedEpoch, logEnd)
  else if latestEpoch entries = some requested then (requested, logEnd)
  else match (entries.filter (requested < ·.epoch)).minOn? (·.epoch) with
    | none => (undefinedEpoch, logEnd)
    | some next => match ((entries.filter (·.epoch ≤ requested)).map (·.epoch)).max? with
      | some floor => (floor, next.startOffset)
      | none => (requested, next.startOffset)

lemma Mirrors.epochAndOffsetFor_spec (h : Mirrors entries eps) (he : 0 ≤ e) :
    (epochAndOffsetFor entries e eps.length).2 = eps.countP (· ≤ e) ∧
      (e ∈ eps ↔ e ≤ (epochAndOffsetFor entries e eps.length).1 ∧ 0 < eps.countP (· ≤ e)) := by
  have hentry : ∀ x ∈ eps, ⟨x, eps.countP (· < x)⟩ ∈ entries := fun x hx => (h _).mpr ⟨hx, rfl⟩
  have hlater : ∀ x ∈ eps, e < x → ⟨x, eps.countP (· < x)⟩ ∈ entries.filter (e < ·.epoch) :=
    fun x hx hlt => mem_filter.mpr ⟨hentry x hx, decide_eq_true hlt⟩
  have hpos : e ∈ eps → 0 < eps.countP (· ≤ e) := fun hmem => countP_pos_iff.mpr ⟨e, hmem, by simp⟩
  have hlength : (∀ x ∈ eps, x ≤ e) → eps.countP (· ≤ e) = eps.length := fun hall =>
    countP_eq_length.mpr fun x hx => decide_eq_true (hall x hx)
  unfold epochAndOffsetFor
  rw [if_neg (by unfold undefinedEpoch; omega), h.latestEpoch_eq]
  by_cases hmax : eps.max? = some e
  · obtain ⟨hmem, hall⟩ := max?_eq_some_iff.mp hmax
    rw [if_pos hmax, hlength hall]
    exact ⟨rfl, fun _ => ⟨le_rfl, length_pos_of_mem hmem⟩, fun _ => hmem⟩
  rw [if_neg hmax]
  cases hnext : (entries.filter (e < ·.epoch)).minOn? (·.epoch) with
  | none =>
    have hall : ∀ x ∈ eps, x ≤ e := by
      intro x hx
      by_contra hlt
      have hsome := List.isSome_minOn?_of_mem (f := (·.epoch)) (hlater x hx (not_le.mp hlt))
      rw [hnext] at hsome
      cases hsome
    rw [hlength hall]
    refine ⟨rfl, fun hmem => absurd (max?_eq_some_iff.mpr ⟨hmem, hall⟩) hmax, fun ⟨hle, _⟩ => ?_⟩
    exact absurd (show 0 ≤ undefinedEpoch from he.trans hle) (by decide)
  | some next =>
    obtain ⟨hmem, hlt⟩ := mem_filter.mp (List.minOn?_mem hnext)
    have hleast : ∀ x ∈ eps, e < x → next.epoch ≤ x := by
      intro x hx hex
      simpa [hnext] using List.apply_get_minOn?_le_of_mem (f := (·.epoch)) (hlater x hx hex)
    have hstart : next.startOffset = eps.countP (· ≤ e) := by
      rw [((h next).mp hmem).2]
      refine congrArg Nat.cast (countP_congr fun x hx => ?_)
      have := hleast x hx
      rw [decide_eq_true_eq] at hlt
      simp only [decide_eq_true_eq]
      omega
    have hfloor : ∀ x, x ∈ (entries.filter (·.epoch ≤ e)).map (·.epoch) ↔ x ∈ eps ∧ x ≤ e := by
      intro x
      rw [mem_map]
      constructor
      · rintro ⟨y, hy, rfl⟩
        obtain ⟨hy, hle⟩ := mem_filter.mp hy
        exact ⟨((h y).mp hy).1, of_decide_eq_true hle⟩
      · exact fun ⟨hx, hle⟩ => ⟨_, mem_filter.mpr ⟨hentry x hx, decide_eq_true hle⟩, rfl⟩
    cases hf : ((entries.filter (·.epoch ≤ e)).map (·.epoch)).max? with
    | some floor =>
      obtain ⟨hmemf, hle⟩ := max?_eq_some_iff.mp hf
      refine ⟨hstart, fun hin => ⟨hle e ((hfloor e).mpr ⟨hin, le_rfl⟩), hpos hin⟩, fun ⟨hef, _⟩ => ?_⟩
      obtain ⟨hin, hfe⟩ := (hfloor floor).mp hmemf
      exact le_antisymm hfe hef ▸ hin
    | none =>
      refine ⟨hstart, fun hin => ⟨le_rfl, hpos hin⟩, fun ⟨_, hcount⟩ => ?_⟩
      obtain ⟨x, hx, hle⟩ := countP_pos_iff.mp hcount
      have hmem := (hfloor x).mpr ⟨hx, of_decide_eq_true hle⟩
      rw [max?_eq_none_iff.mp hf] at hmem
      cases hmem

lemma Mirrors.truncateTo (h : Mirrors entries eps) (hs : eps.Pairwise (· ≤ ·)) (n : ℕ) :
    Mirrors (truncateTo entries n) (eps.take n) := by
  intro ⟨e, start⟩
  have hsplit : eps.countP (· < e) = (eps.take n).countP (· < e) + (eps.drop n).countP (· < e) := by
    rw [← countP_append, take_append_drop]
  rw [← take_append_drop n eps] at hs
  have hord := (pairwise_append.mp hs).2.2
  have hdrop : e ∈ eps.take n → (eps.drop n).countP (· < e) = 0 := fun hin =>
    countP_eq_zero.mpr fun b hb => by simpa using hord e hin b hb
  unfold LeaderEpochCheckpoint.truncateTo
  rw [mem_filter, h, decide_eq_true_eq]
  constructor
  · rintro ⟨⟨hmem, hstart⟩, hlt⟩
    dsimp only at hmem hstart hlt
    by_cases hin : e ∈ eps.take n
    · exact ⟨hin, by rw [hstart, hsplit, hdrop hin, add_zero]⟩
    -- Otherwise all of the first `n` epochs are smaller, so that it starts behind them.
    rw [← take_append_drop n eps] at hmem
    have hmem := (mem_append.mp hmem).resolve_left hin
    have hall : (eps.take n).countP (· < e) = (eps.take n).length := countP_eq_length.mpr fun a ha =>
      decide_eq_true (lt_of_le_of_ne (hord a ha e hmem) fun heq => hin (heq ▸ ha))
    have hpos := length_pos_of_mem hmem
    rw [length_take] at hall
    rw [length_drop] at hpos
    omega
  · rintro ⟨hin, hstart⟩
    dsimp only at hin hstart
    refine ⟨⟨mem_of_mem_take hin, by rw [hstart, hsplit, hdrop hin, add_zero]⟩, ?_⟩
    have hlt : (eps.take n).countP (· < e) < (eps.take n).length :=
      countP_lt_length_iff.mpr ⟨e, hin, by simp⟩
    have := length_take_le n eps
    dsimp only
    omega

end Crabka.Log.LeaderEpochCheckpoint
namespace Crabka.Broker
open Kraft Crabka.Log List
variable {ρ : Type}

/-- The log of a replica, with one record for each offset, and its checkpoint. -/
structure ReplicaLog (ρ : Type) where
  records : List (LogRecord ρ)
  checkpoint : LeaderEpochCheckpoint
  sorted : (records.map LogRecord.epoch).Pairwise (· ≤ ·)
  known : ∀ r ∈ records, 0 ≤ r.epoch
  mirrors : checkpoint.Mirrors (records.map LogRecord.epoch)

/-- What `apply_epoch_checks` answers. -/
inductive EpochCheck where
  | accepted
  | fencedLeaderEpoch
  | unknownLeaderEpoch
  | diverging (epoch endOffset : ℤ)
  deriving DecidableEq

namespace ReplicaLog
variable (leader follower : ReplicaLog ρ)

def upTo (e : ℤ) : ℕ := (leader.records.map LogRecord.epoch).countP (· ≤ e)

def truncateTo (offset : ℕ) : ReplicaLog ρ where
  records := follower.records.take offset
  checkpoint := follower.checkpoint.truncateTo offset
  sorted := by
    rw [map_take]
    exact follower.sorted.sublist (take_sublist _ _)
  known r hr := follower.known r (mem_of_mem_take hr)
  mirrors := by
    rw [map_take]
    exact follower.mirrors.truncateTo follower.sorted offset

/-- `apply_epoch_checks`, by the leader of `currentEpoch`. -/
def applyEpochChecks (currentEpoch requestEpoch fetchOffset lastFetchedEpoch : ℤ) : EpochCheck :=
  if 0 ≤ requestEpoch ∧ requestEpoch ≠ currentEpoch then
    if requestEpoch < currentEpoch then .fencedLeaderEpoch else .unknownLeaderEpoch
  else if lastFetchedEpoch < 0 then .accepted
  else
    let (foundEpoch, endOffset) := leader.checkpoint.epochAndOffsetFor lastFetchedEpoch leader.records.length
    if lastFetchedEpoch ≤ foundEpoch ∧ fetchOffset ≤ endOffset then .accepted
    else .diverging foundEpoch endOffset

/-- The leader's answer to the Fetch that `build_fetch_request` makes, in the leader epoch of both. -/
def answer (epoch : ℤ) : EpochCheck :=
  leader.applyEpochChecks epoch epoch follower.records.length (follower.checkpoint.latestEpoch.getD (-1))

/-- What `handle_response` makes of the answer. -/
def round (epoch : ℤ) : ReplicaLog ρ :=
  match leader.answer follower epoch with
  | .diverging _ endOffset => if 0 ≤ endOffset then follower.truncateTo endOffset.toNat else follower
  | _ => follower

/-- A prefix of the leader's log is accepted, and another log gets shorter. -/
def RoundRight (epoch : ℤ) : Prop :=
  if leader.answer follower epoch = .accepted then follower.records <+: leader.records
  else (leader.round follower epoch).records.length < follower.records.length

/-- The leader has fewer records up to the follower's last epoch than the follower has in all, or one of this
epoch below the follower's end. -/
def Reconcilable : Prop :=
  ∀ last ∈ follower.records.getLast?, follower.records.length ≤ leader.upTo last.epoch →
    ∃ i < follower.records.length, ∃ x ∈ leader.records[i]?, x.epoch = last.epoch

variable {leader follower} {epoch : ℤ}

lemma latestEpoch_eq : follower.checkpoint.latestEpoch = follower.records.getLast?.map LogRecord.epoch := by
  rw [follower.mirrors.latestEpoch_eq, Found.max?_eq_getLast? follower.sorted, getLast?_map]

lemma answer_nil (h : follower.records.getLast? = none) : leader.answer follower epoch = .accepted := by
  simp [answer, applyEpochChecks, latestEpoch_eq, h]

lemma answer_spec (leader : ReplicaLog ρ) (epoch : ℤ) {last : LogRecord ρ}
    (hlast : follower.records.getLast? = some last) :
    ∃ found, leader.answer follower epoch =
      if last.epoch ∈ leader.records.map LogRecord.epoch ∧ follower.records.length ≤ leader.upTo last.epoch
      then .accepted else .diverging found (leader.upTo last.epoch) := by
  have hknown := follower.known last (mem_of_getLast? hlast)
  have hpos := length_pos_of_mem (mem_of_getLast? hlast)
  obtain ⟨hend, hin⟩ := leader.mirrors.epochAndOffsetFor_spec hknown
  rw [length_map] at hend hin
  refine ⟨(leader.checkpoint.epochAndOffsetFor last.epoch leader.records.length).1, ?_⟩
  unfold answer applyEpochChecks
  rw [latestEpoch_eq, hlast]
  simp only [Option.map_some, Option.getD_some, ne_eq, not_true, and_false, if_false, not_lt.mpr hknown, hend]
  refine if_congr ?_ rfl rfl
  rw [hin, Nat.cast_le, and_assoc, and_congr_right_iff]
  exact fun _ => ⟨fun hle => ⟨hpos.trans_le hle, hle⟩, And.right⟩

lemma round_of_accepted (h : leader.answer follower epoch = .accepted) :
    leader.round follower epoch = follower := by
  unfold round
  rw [h]

lemma round_of_diverging {found : ℤ} {n : ℕ} (h : leader.answer follower epoch = .diverging found n) :
    leader.round follower epoch = follower.truncateTo n := by
  unfold round
  rw [h]
  exact if_pos (Int.natCast_nonneg n)

lemma round_cases (leader follower : ReplicaLog ρ) (epoch : ℤ) :
    leader.round follower epoch = follower ∨ ∃ last, follower.records.getLast? = some last ∧
      leader.round follower epoch = follower.truncateTo (leader.upTo last.epoch) := by
  cases hlast : follower.records.getLast? with
  | none => exact .inl (round_of_accepted (answer_nil hlast))
  | some last =>
    obtain ⟨found, h⟩ := answer_spec leader epoch hlast
    split at h
    · exact .inl (round_of_accepted h)
    · exact .inr ⟨last, rfl, round_of_diverging h⟩

lemma logMatching_round (h : LogMatching leader.records follower.records) :
    LogMatching leader.records (leader.round follower epoch).records := by
  rcases round_cases leader follower epoch with heq | ⟨last, -, heq⟩
  · rwa [heq]
  rw [heq]
  intro i x y hx hy he
  obtain ⟨hi, -⟩ := List.getElem?_eq_some_iff.mp hy
  have hi : i < (follower.records.take (leader.upTo last.epoch)).length := hi
  rw [length_take] at hi
  have hy : (follower.records.take (leader.upTo last.epoch))[i]? = some y := hy
  rw [getElem?_take_of_lt (by omega)] at hy
  show _ = (follower.records.take _).take _
  rw [h i x y hx hy he, take_take, min_eq_left (by omega)]

lemma shared_round {p : List (LogRecord ρ)} (hf : p <+: follower.records) (hl : p <+: leader.records) :
    p <+: (leader.round follower epoch).records := by
  rcases round_cases leader follower epoch with heq | ⟨last, hlast, heq⟩
  · rwa [heq]
  · rw [heq]
    rw [prefix_iff_eq_take.mp hf] at hl
    exact prefix_take_iff.mpr ⟨hf, le_countP_of_shared leader.sorted follower.sorted hlast hf.length_le hl⟩

lemma roundRight_iff (epoch : ℤ) (hmatch : LogMatching leader.records follower.records) :
    leader.RoundRight follower epoch ↔ leader.Reconcilable follower := by
  unfold RoundRight Reconcilable
  cases hlast : follower.records.getLast? with
  | none =>
    rw [if_pos (answer_nil hlast), getLast?_eq_none_iff.mp hlast]
    exact iff_of_true nil_prefix nofun
  | some last =>
    have hpos := length_pos_of_mem (mem_of_getLast? hlast)
    simp only [Option.mem_some_iff, forall_eq']
    obtain ⟨found, h⟩ := answer_spec leader epoch hlast
    split at h
    · rename_i hok
      rw [if_pos h]
      refine ⟨fun hprefix _ => ⟨follower.records.length - 1, by omega, last, ?_, rfl⟩, fun hrec => ?_⟩
      · obtain ⟨t, ht⟩ := hprefix
        rw [← ht, getElem?_append_left (by omega), ← getLast?_eq_getElem?, hlast]
        rfl
      · obtain ⟨i, hi, x, hx, he⟩ := hrec hok.2
        exact records_prefix leader.sorted hmatch hlast hok.2 hi hx he
    · rename_i hno
      rw [if_neg (by rw [h]; nofun), round_of_diverging h]
      show (follower.records.take _).length < _ ↔ _
      rw [length_take]
      refine ⟨fun hlt hle => by omega, fun hrec => ?_⟩
      -- A cut that removes nothing would need the epoch in the leader's log, and then it was accepted.
      by_contra hge
      obtain ⟨i, hi, x, hx, he⟩ := hrec (by omega)
      exact hno ⟨he ▸ mem_map.mpr ⟨x, mem_of_getElem? hx, rfl⟩, by omega⟩

def rounds (leader follower : ReplicaLog ρ) (epoch : ℤ) (k : ℕ) : ReplicaLog ρ :=
  (leader.round · epoch)^[k] follower

/-- **Rounds reach a common prefix.** A round is right exactly for reconcilable logs; no round removes what the
logs share; and rounds over reconcilable logs end with an accepted prefix. -/
theorem rounds_reconcile (leader follower : ReplicaLog ρ) (epoch : ℤ)
    (hmatch : LogMatching leader.records follower.records) :
    (leader.RoundRight follower epoch ↔ leader.Reconcilable follower) ∧
    (∀ p, p <+: follower.records → p <+: leader.records → ∀ k, p <+: (leader.rounds follower epoch k).records) ∧
    ((∀ k, leader.Reconcilable (leader.rounds follower epoch k)) →
      ∃ k ≤ follower.records.length, leader.answer (leader.rounds follower epoch k) epoch = .accepted ∧
        (leader.rounds follower epoch k).records <+: leader.records) := by
  refine ⟨roundRight_iff epoch hmatch, fun p hf hl k => ?_, fun hok => ?_⟩
  · induction k generalizing follower with
    | zero => exact hf
    | succ k ih => exact ih _ (logMatching_round hmatch) (shared_round hf hl)
  -- By induction on the length: a round that does not accept makes the log shorter.
  induction hn : follower.records.length using Nat.strong_induction_on generalizing follower with
  | _ n ih =>
    have hright := (roundRight_iff epoch hmatch).mpr (hok 0)
    unfold RoundRight at hright
    split_ifs at hright with hacc
    · exact ⟨0, Nat.zero_le _, hacc, hright⟩
    · obtain ⟨k, hk, h⟩ := ih _ (hn ▸ hright) _ (logMatching_round hmatch) (fun k => hok (k + 1)) rfl
      exact ⟨k + 1, by omega, h⟩

def ofHistory (H : History ρ) : ReplicaLog ρ where
  records := H.records
  checkpoint := H.log.epochCheckpoint
  sorted := H.epochs_sorted
  known _ hr := (H.epoch_bounds (mem_map.mpr ⟨_, hr, rfl⟩)).1
  mirrors := H.mirrors

/-- A follower with a record of an abandoned epoch. -/
theorem rounds_reconcile_abandoned :
    (ofHistory leaderHistory).RoundRight (ofHistory abandonedHistory) 3 ∧
      [⟨1, 10⟩] <+: ((ofHistory leaderHistory).rounds (ofHistory abandonedHistory) 3 5).records := by
  obtain ⟨hright, hshared, -⟩ :=
    rounds_reconcile (ofHistory leaderHistory) (ofHistory abandonedHistory) 3 logMatching_abandoned
  exact ⟨hright.mpr (by unfold Reconcilable; decide), hshared _ (by decide) (by decide) 5⟩

def soleRecord : ReplicaLog ℕ where
  records := [⟨2, 20⟩]
  checkpoint := [⟨2, 0⟩]
  sorted := by simp
  known := by simp
  mirrors := by
    intro ⟨e, start⟩
    constructor
    · rw [mem_singleton]
      rintro ⟨⟩
      decide
    · rintro ⟨hmem, hstart⟩
      obtain rfl := mem_singleton.mp hmem
      rw [mem_singleton, show start = 0 from hstart]

/-- **Rounds that truncate nothing.** The leader has records of the epochs `1` and `3`, and answers that epoch
`1` ends at offset `1`, where the follower's log ends. -/
theorem round_stuck : LogMatching (ofHistory leaderHistory).records soleRecord.records ∧
    ∀ k, (ofHistory leaderHistory).answer ((ofHistory leaderHistory).rounds soleRecord 3 k) 3 = .diverging 1 1 := by
  refine ⟨fun i x y hx hy he => ?_, fun k => ?_⟩
  · have hy : [⟨2, 20⟩][i]? = some y := hy
    cases i with
    | zero =>
      cases hx
      cases hy
      cases he
    | succ i => cases hy
  · have hstep : (ofHistory leaderHistory).answer soleRecord 3 = .diverging 1 1 := by decide +kernel
    have hfix : (ofHistory leaderHistory).rounds soleRecord 3 k = soleRecord :=
      Function.iterate_fixed (round_of_diverging hstep) k
    rw [hfix, hstep]

end ReplicaLog
end Crabka.Broker
