import Crabka.Broker.Replica.ReplicaState
import Crabka.Found.Runs

/-!
# The high watermark of a partition on one broker

`crates/broker/src/partition.rs`. A follower takes the high watermark that the leader reports and only raises it; a
leader recomputes it from the entries of the followers. A new leader starts without entries, and `install_isr` seeds
them at zero (`promotion_resets_highWatermark`). It never moves back when no ISR is installed, and no unknown member
reports, below it (`highWatermark_monotone`).
-/

namespace Crabka.Broker
open Kraft (NodeId)
open Found ReplicaState Option Function

/-- A partition on a broker, without diskless storage. -/
structure PartitionState where
  rs : ReplicaState := {}
  logEnd : ℤ
  currentLeader : NodeId
  currentLeaderEpoch : ℤ
  /-- The offset that each follower reported last. -/
  reported : NodeId → ℤ := fun _ => 0

/-- What happens to a replica of a partition, as leader and as follower. -/
inductive PartitionOp where
  | setFollowerHw (reportedHw : ℤ)
  | replicate (logEnd : ℤ)
  | installReplicationTarget (leader : NodeId) (epoch : ℤ)
  | installIsr (isr replicas : List NodeId) (now : ℕ)
  | fetch (follower : NodeId) (offset : ℤ) (now : ℕ)
  | append (logEnd : ℤ)
  deriving DecidableEq

namespace PartitionState

def setFollowerHw (s : PartitionState) (reportedHw : ℤ) : PartitionState :=
  let newHw := min reportedHw s.logEnd
  if s.rs.hw < newHw then { s with rs := { s.rs with hw := newHw } } else s

/-- `install_replication_target`: a change of the leader or of the epoch drops the entries. -/
def installReplicationTarget (s : PartitionState) (leader : NodeId) (epoch : ℤ) : PartitionState :=
  if s.currentLeader = leader ∧ s.currentLeaderEpoch = epoch then s
  else
    { s with
      currentLeader := leader
      currentLeaderEpoch := epoch
      rs := { s.rs with perFollower := ∅, currentLeaderEpoch := epoch } }

def installIsr (s : PartitionState) (isr replicas : List NodeId) (leader : NodeId) (now : ℕ) :
    PartitionState :=
  { s with rs := (s.rs.installIsr isr replicas leader now).recomputeHwForLeaderAppend s.logEnd }

variable (node : NodeId)

/-- A leader installs ISRs that contain it; its log and the offsets that a follower reports only grow. -/
def Enabled (s : PartitionState) : PartitionOp → Prop
  | .setFollowerHw _ => s.currentLeader ≠ node
  | .replicate logEnd => s.currentLeader ≠ node ∧ s.logEnd ≤ logEnd
  | .installReplicationTarget _ _ => True
  | .installIsr isr _ _ => s.currentLeader = node ∧ node ∈ isr
  | .fetch f offset _ => s.currentLeader = node ∧ f ≠ node ∧ s.reported f ≤ offset
  | .append logEnd => s.currentLeader = node ∧ s.logEnd ≤ logEnd

instance (s : PartitionState) (op : PartitionOp) : Decidable (Enabled node s op) := by
  cases op <;> unfold Enabled <;> infer_instance

def next (s : PartitionState) : PartitionOp → PartitionState
  | .setFollowerHw reportedHw => s.setFollowerHw reportedHw
  | .replicate logEnd => { s with logEnd }
  | .installReplicationTarget leader epoch => s.installReplicationTarget leader epoch
  | .installIsr isr replicas now => s.installIsr isr replicas node now
  | .fetch f offset now =>
    { s with
      rs := s.rs.updateFollowerLeo f offset s.logEnd now
      reported := Function.update s.reported f offset }
  | .append logEnd => { s with logEnd, rs := s.rs.recomputeHwForLeaderAppend logEnd }

def sys : Sys PartitionState PartitionOp where
  enabled := Enabled node
  next := next node

instance (s : PartitionState) (op : PartitionOp) : Decidable ((sys node).enabled s op) :=
  inferInstanceAs (Decidable (Enabled node s op))

/-- The log end that is known of a replica, zero when nothing is. -/
def knownLeo (rs : ReplicaState) (n : NodeId) : ℤ := (rs.perFollower[n]?.map (·.leo)).getD 0

/-- No operation brings a member below the high watermark into the ISR. -/
def KeepsMembers (s : PartitionState) : PartitionOp → Prop
  | .installIsr isr replicas _ => ∀ n ∈ isr, n ∈ replicas → n ≠ node → s.rs.hw ≤ knownLeo s.rs n
  | .fetch f offset _ => f ∈ s.rs.isr → s.rs.perFollower[f]? = none → s.rs.hw ≤ offset
  | _ => True

instance (s : PartitionState) (op : PartitionOp) : Decidable (KeepsMembers node s op) := by
  cases op <;> unfold KeepsMembers <;> infer_instance

/-! ## The invariant -/

/-- The high watermark is within the log and at most the log ends of the members. -/
structure Inv (s : PartitionState) : Prop where
  within : s.rs.hw ≤ s.logEnd
  /-- The members with an entry are at the high watermark. -/
  members : ∀ f ∈ s.rs.isr, ∀ stats, s.rs.perFollower[f]? = some stats → s.rs.hw ≤ stats.leo
  /-- A follower has no entries. -/
  following : s.currentLeader ≠ node → s.rs.perFollower = ∅
  own : s.rs.perFollower[node]? = none
  nonneg : 0 ≤ s.logEnd
  reported : ∀ f, 0 ≤ s.reported f
  /-- A recorded log end was reported, and is within the log. -/
  recorded : ∀ (f : NodeId) stats, s.rs.perFollower[f]? = some stats →
    stats.leo ≤ s.reported f ∧ stats.leo ≤ s.logEnd

variable {node}

lemma Inv.recompute {s s' : PartitionState} (h : Inv node s)
    (hhw : s'.rs.hw = s'.rs.computeHw s'.logEnd) (hlog : s.logEnd ≤ s'.logEnd)
    (hlead : s'.currentLeader = node) (hown : s'.rs.perFollower[node]? = none)
    (hmembers : ∀ f ∈ s'.rs.isr, ∀ stats, s'.rs.perFollower[f]? = some stats → s.rs.hw ≤ stats.leo)
    (hreported : ∀ f, s.reported f ≤ s'.reported f)
    (hrecorded : ∀ (f : NodeId) stats, s'.rs.perFollower[f]? = some stats →
      stats.leo ≤ s'.reported f ∧ stats.leo ≤ s'.logEnd) :
    Inv node s' ∧ s.rs.hw ≤ s'.rs.hw := by
  refine ⟨⟨?_, fun f hf stats hs => ?_, fun hne => absurd hlead hne, hown, h.nonneg.trans hlog,
    fun f => (h.reported f).trans (hreported f), hrecorded⟩, ?_⟩
  · rw [hhw]
    exact computeHw_le _
  · rw [hhw]
    exact computeHw_le_member hf hs
  · rw [hhw]
    exact le_computeHw_iff.mpr ⟨h.within.trans hlog, hmembers⟩

variable {s : PartitionState}

lemma Inv.installIsr (h : Inv node s) {isr replicas : List NodeId} {now : ℕ}
    (hlead : s.currentLeader = node) (hok : KeepsMembers node s (.installIsr isr replicas now)) :
    Inv node (next node s (.installIsr isr replicas now)) ∧
      s.rs.hw ≤ (next node s (.installIsr isr replicas now)).rs.hw := by
  have hentry := getElem?_installIsr (s := s.rs) isr replicas node now
  refine h.recompute rfl le_rfl hlead ?_ (fun f hf stats hs => ?_) (fun _ => le_rfl) fun f stats hs => ?_
  · show (s.rs.installIsr isr replicas node now).perFollower[node]? = none
    rw [hentry, h.own]
    simp
  · -- A member is at the high watermark by what is known of it.
    have hmem : f ∈ isr := List.mem_toFinset.mp hf
    have hle := fun hrep hne => hok f hmem hrep hne
    replace hs : (s.rs.installIsr isr replicas node now).perFollower[f]? = some stats := hs
    rw [hentry] at hs
    unfold knownLeo at hle
    split at hs
    · rename_i hrep
      obtain rfl | hne := eq_or_ne f node
      · simp [h.own] at hs
      · cases hf : s.rs.perFollower[f]? with
        | none =>
          simp only [hf, none_or, hmem, ne_eq, hne, not_false_eq_true, and_self, if_true, some.injEq] at hs
          subst hs
          simpa [hf, seed] using hle hrep hne
        | some stats' =>
          simp only [hf, some_or, some.injEq] at hs
          subst hs
          simpa [hf] using hle hrep hne
    · cases hs
  · replace hs : (s.rs.installIsr isr replicas node now).perFollower[f]? = some stats := hs
    rw [hentry] at hs
    split at hs
    · cases hf : s.rs.perFollower[f]? with
      | some stats' =>
        simp only [hf, some_or, some.injEq] at hs
        subst hs
        exact h.recorded f stats' hf
      | none =>
        simp only [hf, none_or] at hs
        split at hs
        · cases hs
          exact ⟨h.reported f, h.nonneg⟩
        · cases hs
    · cases hs

lemma Inv.fetch (h : Inv node s) {f : NodeId} {offset : ℤ} {now : ℕ}
    (hen : Enabled node s (.fetch f offset now)) (hok : KeepsMembers node s (.fetch f offset now)) :
    Inv node (next node s (.fetch f offset now)) ∧ s.rs.hw ≤ (next node s (.fetch f offset now)).rs.hw := by
  obtain ⟨hlead, hne, hmono⟩ := hen
  have hentry := getElem?_updateFollowerLeo (s := s.rs) f offset s.logEnd now
  refine h.recompute rfl le_rfl hlead ?_ (fun g hg stats hs => ?_) (fun g => ?_) fun g stats hs => ?_
  · show (s.rs.updateFollowerLeo f offset s.logEnd now).perFollower[node]? = none
    rw [hentry, if_neg hne.symm]
    exact h.own
  · replace hs : (s.rs.updateFollowerLeo f offset s.logEnd now).perFollower[g]? = some stats := hs
    rw [hentry] at hs
    obtain rfl | hgf := eq_or_ne g f
    · rw [if_pos rfl] at hs
      cases hs
      refine le_min ?_ h.within
      cases hg' : s.rs.perFollower[g]? with
      | none => exact hok hg hg'
      | some stats' =>
        exact (h.members g hg stats' hg').trans ((h.recorded g stats' hg').1.trans hmono)
    · rw [if_neg hgf] at hs
      exact h.members g hg stats hs
  · show s.reported g ≤ update s.reported f offset g
    obtain rfl | hgf := eq_or_ne g f
    · rwa [update_self]
    · rw [update_of_ne hgf]
  · replace hs : (s.rs.updateFollowerLeo f offset s.logEnd now).perFollower[g]? = some stats := hs
    show _ ≤ update s.reported f offset g ∧ _
    rw [hentry] at hs
    obtain rfl | hgf := eq_or_ne g f
    · rw [if_pos rfl] at hs
      cases hs
      rw [update_self]
      exact ⟨min_le_left _ _, min_le_right _ _⟩
    · rw [if_neg hgf] at hs
      rw [update_of_ne hgf]
      exact h.recorded g stats hs

lemma Inv.step (h : Inv node s) {op : PartitionOp} (hen : Enabled node s op) (hok : KeepsMembers node s op) :
    Inv node (next node s op) ∧ s.rs.hw ≤ (next node s op).rs.hw := by
  cases op with
  | setFollowerHw reportedHw =>
    -- A follower has no entries that could fall behind.
    have hempty := h.following hen
    show Inv node (s.setFollowerHw reportedHw) ∧ _ ≤ (s.setFollowerHw reportedHw).rs.hw
    by_cases hlt : s.rs.hw < min reportedHw s.logEnd
    · simp only [setFollowerHw, if_pos hlt]
      refine ⟨⟨min_le_right _ _, fun f _ stats hs => ?_, h.following, h.own, h.nonneg,
        h.reported, h.recorded⟩, hlt.le⟩
      replace hs : s.rs.perFollower[f]? = some stats := hs
      simp [hempty] at hs
    · simp only [setFollowerHw, if_neg hlt]
      exact ⟨h, le_rfl⟩
  | replicate logEnd =>
    refine ⟨⟨h.within.trans hen.2, h.members, h.following, h.own,
      h.nonneg.trans hen.2, h.reported, fun f stats hs => ?_⟩, le_rfl⟩
    obtain ⟨hrep, hle⟩ := h.recorded f stats hs
    exact ⟨hrep, hle.trans hen.2⟩
  | installReplicationTarget leader epoch =>
    show Inv node (s.installReplicationTarget leader epoch) ∧ _ ≤ (s.installReplicationTarget leader epoch).rs.hw
    unfold installReplicationTarget
    split
    · exact ⟨h, le_rfl⟩
    · refine ⟨⟨h.within, fun f _ stats hs => ?_, fun _ => rfl, ?_, h.nonneg, h.reported,
        fun f stats hs => ?_⟩, le_rfl⟩
      · simp at hs
      · simp
      · simp at hs
  | installIsr isr replicas now => exact h.installIsr hen.1 hok
  | fetch f offset now => exact h.fetch hen hok
  | append logEnd =>
    refine h.recompute rfl hen.2 hen.1 h.own h.members (fun _ => le_rfl) fun f stats hs => ?_
    obtain ⟨hrep, hle⟩ := h.recorded f stats hs
    exact ⟨hrep, hle.trans hen.2⟩

def opened (logEnd : ℤ) (leader : NodeId) (epoch : ℤ) : PartitionState :=
  { logEnd, currentLeader := leader, currentLeaderEpoch := epoch }

lemma Inv.opened {logEnd : ℤ} (hlog : 0 ≤ logEnd) (leader : NodeId) (epoch : ℤ) :
    Inv node (opened logEnd leader epoch) where
  within := hlog
  members f hf := by simp [PartitionState.opened] at hf
  following _ := rfl
  own := by simp [PartitionState.opened]
  nonneg := hlog
  reported _ := le_rfl
  recorded f stats hs := by simp [PartitionState.opened] at hs

/-- **The high watermark never moves back** and stays within the log, in every run whose operations
keep the members of the ISR at the high watermark. -/
theorem highWatermark_monotone {logEnd : ℤ} (hlog : 0 ≤ logEnd) {leader : NodeId} {epoch : ℤ}
    {s s' : PartitionState}
    (hrun : (sys node).Run (KeepsMembers node) (opened logEnd leader epoch) s)
    (hrun' : (sys node).Run (KeepsMembers node) s s') :
    s.rs.hw ≤ s'.rs.hw ∧ s'.rs.hw ≤ s'.logEnd := by
  have hinv : Inv node s := Sys.Run.preserves hrun
    (fun _ _ h hen hok => (Inv.step h hen hok).1) (Inv.opened hlog leader epoch)
  obtain ⟨hinv', hle⟩ := Sys.Run.relates (P := Inv node)
    (R := fun a b : PartitionState => a.rs.hw ≤ b.rs.hw) hrun' hinv (fun _ => le_rfl)
    (fun hab hbc => hab.trans hbc) fun _ _ h hen hok => Inv.step h hen hok
  exact ⟨hle, hinv'.within⟩

/-- Broker `1` follows, takes over at a high watermark of zero, and leads two followers. -/
theorem highWatermark_monotone_promotion :
    let s := (sys 1).execs (opened 0 2 1) [.replicate 4, .installReplicationTarget 1 2,
      .installIsr [1, 2] [1, 2, 3] 0, .fetch 2 4 1, .fetch 3 4 2]
    let s' := (sys 1).execs s [.installIsr [1, 2, 3] [1, 2, 3] 3, .append 9]
    s.rs.hw ≤ s'.rs.hw ∧ s'.rs.hw ≤ s'.logEnd :=
  highWatermark_monotone le_rfl Sys.run_of_runsOk Sys.run_of_runsOk

/-- Broker `1` follows up to a high watermark of `10`. When it takes over, the follower `2` is seeded
at zero, and so is the high watermark. -/
theorem promotion_resets_highWatermark :
    let s := (sys 1).execs (opened 10 2 1) [.setFollowerHw 10]
    let ls : List PartitionOp := [.installReplicationTarget 1 2, .installIsr [1, 2] [1, 2] 0]
    (sys 1).AnyRun (opened 10 2 1) s ∧ (sys 1).AnyRun s ((sys 1).execs s ls) ∧
      s.rs.hw = 10 ∧ ((sys 1).execs s ls).rs.hw = 0 :=
  ⟨Sys.run_of_runs, Sys.run_of_runs, by decide +kernel⟩

end PartitionState
end Crabka.Broker
