import Crabka.Found.Maps
import Crabka.Kraft.Core.Types

/-!
# Replica progress on a partition leader

`crates/broker/src/replica_state.rs` and the ISR proposal of `isr_maintenance.rs`. The leader records how far each
follower has fetched, and caches the least log end over the in-sync replicas. A member without an entry does not count.
-/

namespace Crabka.Broker
open Kraft (NodeId)
open Found
open Std (ExtTreeMap)

/-- `FollowerStats`, with instants as ticks of a clock. -/
structure FollowerStats where
  leo : ℤ
  lastFetch : ℕ
  lastCaughtUp : ℕ
  deriving DecidableEq, Repr

/-- `ReplicaState`: the high watermark, the in-sync set and what the followers reported. -/
structure ReplicaState where
  isr : Finset NodeId := ∅
  perFollower : ExtTreeMap NodeId FollowerStats := ∅
  hw : ℤ := 0
  currentLeaderEpoch : ℤ := 0
  deriving DecidableEq

namespace ReplicaState
variable (s : ReplicaState)

/-- The log end that a member contributes to the high watermark. -/
def memberLeo (leaderLeo : ℤ) (f : NodeId) : ℤ :=
  match s.perFollower[f]? with
  | some stats => stats.leo
  | none => leaderLeo

def computeHw (leaderLeo : ℤ) : ℤ := s.isr.fold min leaderLeo (s.memberLeo leaderLeo)

def recomputeHwForLeaderAppend (leaderLeo : ℤ) : ReplicaState :=
  { s with hw := s.computeHw leaderLeo }

def seed (now : ℕ) : FollowerStats := ⟨0, now, now⟩

/-- The entries after every member but the leader got one. -/
def seedAll (leader : NodeId) (now : ℕ) (isr : List NodeId)
    (m : ExtTreeMap NodeId FollowerStats) : ExtTreeMap NodeId FollowerStats :=
  isr.foldl (fun m r => if r ≠ leader ∧ m[r]? = none then m.insert r (seed now) else m) m

def installIsr (isr replicas : List NodeId) (leader : NodeId) (now : ℕ) : ReplicaState :=
  { s with
    isr := isr.toFinset
    perFollower := (seedAll leader now isr s.perFollower).filter fun k _ => k ∈ replicas }

def fetched (followerLeo leaderLeo : ℤ) (now : ℕ) (stats : FollowerStats) : FollowerStats where
  leo := min followerLeo leaderLeo
  lastFetch := now
  lastCaughtUp := if leaderLeo ≤ min followerLeo leaderLeo then now else stats.lastCaughtUp

/-- `update_follower_leo`. Both of its branches write the same entry and recompute the high
watermark. -/
def updateFollowerLeo (follower : NodeId) (followerLeo leaderLeo : ℤ) (now : ℕ) : ReplicaState :=
  let stats := s.perFollower[follower]?.getD (seed now)
  recomputeHwForLeaderAppend
    { s with
      perFollower := s.perFollower.insert follower (fetched followerLeo leaderLeo now stats) }
    leaderLeo

/-- `Proposal`, with the sorted vectors as sets. -/
structure Proposal where
  prevIsr : Finset NodeId
  newIsr : Finset NodeId
  leaderEpoch : ℤ
  deriving DecidableEq

/-- The members that fetched recently; one without an entry stays. -/
def keptMembers (now lagMax : ℕ) : Finset NodeId :=
  s.isr.filter fun n => ∀ stats ∈ s.perFollower[n]?, now - stats.lastFetch ≤ lagMax

/-- The replicas out of the ISR that were caught up recently. -/
def admittedReplicas (now lagMax : ℕ) : Finset NodeId :=
  ((s.perFollower.toList.filter fun e =>
    e.1 ∉ s.isr ∧ now - e.2.lastCaughtUp ≤ lagMax).map Prod.fst).toFinset

def computeProposal (now lagMax : ℕ) : Option Proposal :=
  let newIsr := s.keptMembers now lagMax ∪ s.admittedReplicas now lagMax
  if newIsr = s.isr then none else some ⟨s.isr, newIsr, s.currentLeaderEpoch⟩

/-! ## The high watermark -/

variable {s}

lemma le_computeHw_iff {x leaderLeo : ℤ} :
    x ≤ s.computeHw leaderLeo ↔ x ≤ leaderLeo ∧
      ∀ f ∈ s.isr, ∀ stats, s.perFollower[f]? = some stats → x ≤ stats.leo := by
  unfold computeHw
  rw [Finset.le_fold_min]
  refine and_congr_right fun hx => forall₂_congr fun f hf => ?_
  unfold memberLeo
  cases hs : s.perFollower[f]? with
  | none => simpa using hx
  | some stats => simp

lemma computeHw_le (leaderLeo : ℤ) : s.computeHw leaderLeo ≤ leaderLeo :=
  (le_computeHw_iff.mp le_rfl).1

lemma computeHw_le_member {leaderLeo : ℤ} {f : NodeId} (hf : f ∈ s.isr) {stats : FollowerStats}
    (hs : s.perFollower[f]? = some stats) : s.computeHw leaderLeo ≤ stats.leo :=
  (le_computeHw_iff.mp le_rfl).2 f hf stats hs

/-! ## The entries -/

lemma getElem?_seedAll (leader : NodeId) (now : ℕ) (isr : List NodeId)
    (m : ExtTreeMap NodeId FollowerStats) (k : NodeId) :
    (seedAll leader now isr m)[k]? = (m[k]?).or (if k ∈ isr ∧ k ≠ leader then some (seed now) else none) := by
  unfold seedAll
  induction isr generalizing m with
  | nil => simp
  | cons r isr ih =>
    rw [List.foldl_cons, ih]
    by_cases hr : r ≠ leader ∧ m[r]? = none
    · rw [if_pos hr, getElem?_insert]
      obtain rfl | hk := eq_or_ne k r
      · simp [hr.1, hr.2]
      · simp [hk]
    · rw [if_neg hr]
      obtain rfl | hk := eq_or_ne k r
      · by_cases hlead : k = leader
        · simp [hlead]
        · have hsome : m[k]? ≠ none := fun hn => hr ⟨hlead, hn⟩
          obtain ⟨v, hv⟩ := Option.ne_none_iff_exists'.mp hsome
          simp [hv]
      · simp [hk]

lemma getElem?_installIsr (isr replicas : List NodeId) (leader : NodeId) (now : ℕ) (k : NodeId) :
    (s.installIsr isr replicas leader now).perFollower[k]? =
      if k ∈ replicas then (s.perFollower[k]?).or
        (if k ∈ isr ∧ k ≠ leader then some (seed now) else none) else none := by
  unfold installIsr
  rw [getElem?_filter, getElem?_seedAll]
  generalize (s.perFollower[k]?).or _ = entry
  cases entry <;> by_cases hk : k ∈ replicas <;> simp [Option.filter, hk]

lemma getElem?_updateFollowerLeo (f : NodeId) (followerLeo leaderLeo : ℤ) (now : ℕ) (k : NodeId) :
    (s.updateFollowerLeo f followerLeo leaderLeo now).perFollower[k]? =
      if k = f then some (fetched followerLeo leaderLeo now (s.perFollower[f]?.getD (seed now)))
      else s.perFollower[k]? :=
  getElem?_insert s.perFollower f _ k

end ReplicaState
end Crabka.Broker
