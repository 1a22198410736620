import Crabka.Broker.Replica.ReplicaState
import Crabka.Found.Runs

/-!
# The ISR of a partition leader

A leader appends, answers fetches, proposes changes of the ISR and installs those that the controller accepted. A
replica that was not seen before counts as caught up (`isr_admits_lagging_follower`). Every in-sync follower holds what
was ever committed in runs that admit only replicas whose recorded log end is at the high watermark
(`isr_holds_committed`).
-/

namespace Crabka.Broker
open Kraft (NodeId)
open Found ReplicaState

/-- One leadership of a partition. -/
structure Leadership where
  leader : NodeId
  replicas : List NodeId
  /-- `replica_lag_time_max`. -/
  lagMax : ℕ

/-- The leader, with the history that the property speaks about. -/
structure LeaderState where
  rs : ReplicaState
  leaderLeo : ℤ
  now : ℕ
  /-- The offset that each follower reported last. -/
  reported : NodeId → ℤ
  /-- The proposals computed so far. -/
  proposals : List (Finset NodeId)
  /-- The largest high watermark so far. -/
  maxHw : ℤ

/-- Appends, fetches, and changes of the in-sync set, which are proposed and then installed. -/
inductive LeaderStep where
  | append (leo : ℤ)
  | fetch (follower : NodeId) (offset : ℤ) (now : ℕ)
  | propose (now : ℕ)
  | install (isr : List NodeId) (now : ℕ)
  deriving DecidableEq

namespace LeaderState

/-- The state with a new replica state, whose high watermark is noted. -/
def record (s : LeaderState) (rs : ReplicaState) : LeaderState :=
  { s with rs, maxHw := max s.maxHw rs.hw }

end LeaderState
namespace Leadership
variable (p : Leadership)

/-- Log, clock and followers only advance; the controller accepts a proposal within the replica set. -/
def Enabled (s : LeaderState) : LeaderStep → Prop
  | .append leo => s.leaderLeo ≤ leo
  | .fetch f offset now => f ≠ p.leader ∧ s.reported f ≤ offset ∧ s.now ≤ now
  | .propose now => s.now ≤ now
  | .install isr now =>
    isr.toFinset ∈ s.proposals ∧ isr ≠ [] ∧ (∀ n ∈ isr, n ∈ p.replicas) ∧ s.now ≤ now

instance (s : LeaderState) (l : LeaderStep) : Decidable (p.Enabled s l) := by
  cases l <;> unfold Enabled <;> infer_instance

/-- The state after a step. An installation recomputes the high watermark, as
`Partition::install_isr` does. -/
def next (s : LeaderState) : LeaderStep → LeaderState
  | .append leo => { s with leaderLeo := leo }.record (s.rs.recomputeHwForLeaderAppend leo)
  | .fetch f offset now =>
    { s with now, reported := Function.update s.reported f offset }.record
      (s.rs.updateFollowerLeo f offset s.leaderLeo now)
  | .propose now =>
    { s with
      now
      proposals := ((s.rs.computeProposal now p.lagMax).map Proposal.newIsr).toList ++ s.proposals }
  | .install isr now =>
    { s with now }.record ((s.rs.installIsr isr p.replicas p.leader now).recomputeHwForLeaderAppend
      s.leaderLeo)

def sys : Sys LeaderState LeaderStep where
  enabled := p.Enabled
  next := p.next

instance (s : LeaderState) (l : LeaderStep) : Decidable (p.sys.enabled s l) :=
  inferInstanceAs (Decidable (p.Enabled s l))

def started (isr : List NodeId) (now : ℕ) : ReplicaState :=
  ({} : ReplicaState).installIsr isr p.replicas p.leader now

def start (isr : List NodeId) (leaderLeo : ℤ) (now : ℕ) : LeaderState :=
  let rs := (p.started isr now).recomputeHwForLeaderAppend leaderLeo
  { rs, leaderLeo, now, reported := fun _ => 0, proposals := [], maxHw := rs.hw }

def Reached (rs : ReplicaState) (n : NodeId) (offset : ℤ) : Prop :=
  ∃ stats ∈ rs.perFollower[n]?, offset ≤ stats.leo

/-- Only replicas at the high watermark join the ISR. -/
def Admits (s : LeaderState) : LeaderStep → Prop
  | .install isr _ => ∀ n ∈ isr, n ∉ s.rs.isr → n ≠ p.leader → Reached s.rs n s.rs.hw
  | _ => True

instance (s : LeaderState) (l : LeaderStep) : Decidable (p.Admits s l) := by
  cases l <;> unfold Admits Reached <;> infer_instance

/-- Every in-sync follower holds what was ever committed. -/
def HoldsCommitted (s : LeaderState) : Prop :=
  ∀ f ∈ s.rs.isr, f ≠ p.leader → Reached s.rs f s.maxHw

instance (s : LeaderState) : Decidable (p.HoldsCommitted s) := by
  unfold HoldsCommitted Reached
  infer_instance

/-! ## The invariant -/

/-- The members of the in-sync set have what is committed. -/
structure Inv (s : LeaderState) : Prop where
  holds : p.HoldsCommitted s
  /-- The high watermark never went back. -/
  current : s.maxHw = s.rs.hw
  within : s.rs.hw ≤ s.leaderLeo
  /-- The leader has no entry of its own. -/
  leader : s.rs.perFollower[p.leader]? = none
  /-- A recorded log end was reported, and is within the leader's log. -/
  recorded : ∀ (f : NodeId) stats, s.rs.perFollower[f]? = some stats →
    stats.leo ≤ s.reported f ∧ stats.leo ≤ s.leaderLeo

variable {p}

lemma Inv.record {s s' : LeaderState} (h : p.Inv s) {rs : ReplicaState}
    (hhw : rs.hw = rs.computeHw s'.leaderLeo) (hmax : s'.maxHw = s.maxHw)
    (hleo : s.leaderLeo ≤ s'.leaderLeo) (hleader : rs.perFollower[p.leader]? = none)
    (hmembers : ∀ f ∈ rs.isr, f ≠ p.leader → Reached rs f s.maxHw)
    (hrecorded : ∀ (f : NodeId) stats, rs.perFollower[f]? = some stats →
      stats.leo ≤ s'.reported f ∧ stats.leo ≤ s'.leaderLeo) :
    p.Inv (s'.record rs) := by
  -- Nothing that counts lies below the old high watermark, so the new one does not either.
  have hgrow : s.maxHw ≤ rs.hw := by
    rw [hhw]
    refine le_computeHw_iff.mpr ⟨?_, fun f hf stats hs => ?_⟩
    · exact (h.current ▸ h.within).trans hleo
    · have hne : f ≠ p.leader := by
        rintro rfl
        rw [hleader] at hs
        cases hs
      obtain ⟨stats', hs', hle⟩ := hmembers f hf hne
      rw [hs] at hs'
      cases hs'
      exact hle
  have hnew : max s'.maxHw rs.hw = rs.hw := max_eq_right (hmax ▸ hgrow)
  refine ⟨fun f hf hne => ?_, hnew, ?_, hleader, hrecorded⟩
  · obtain ⟨stats, hs, -⟩ := hmembers f hf hne
    refine ⟨stats, hs, ?_⟩
    show max s'.maxHw rs.hw ≤ stats.leo
    rw [hnew, hhw]
    exact computeHw_le_member hf hs
  · show rs.hw ≤ s'.leaderLeo
    rw [hhw]
    exact computeHw_le _

lemma Inv.start {isr : List NodeId} (hisr : ∀ n ∈ isr, n ∈ p.replicas) {leaderLeo : ℤ}
    (hleo : 0 ≤ leaderLeo) (now : ℕ) : p.Inv (p.start isr leaderLeo now) := by
  have hentry : ∀ k : NodeId, (p.start isr leaderLeo now).rs.perFollower[k]? =
      if k ∈ isr ∧ k ≠ p.leader then some (seed now) else none := by
    intro k
    refine (getElem?_installIsr isr p.replicas p.leader now k).trans ?_
    by_cases hk : k ∈ isr ∧ k ≠ p.leader
    · simp [hk, hisr k hk.1]
    · simp [hk]
  refine ⟨fun f hf hne => ?_, rfl, computeHw_le (s := p.started isr now) leaderLeo, ?_, fun f stats hs => ?_⟩
  · have hs := hentry f
    rw [if_pos ⟨List.mem_toFinset.mp hf, hne⟩] at hs
    exact ⟨_, hs, computeHw_le_member hf hs⟩
  · rw [hentry]
    simp
  · rw [hentry] at hs
    split at hs
    · cases hs
      exact ⟨le_rfl, hleo⟩
    · cases hs

lemma Inv.step {s : LeaderState} (h : p.Inv s) {l : LeaderStep} (hen : p.Enabled s l)
    (hok : p.Admits s l) : p.Inv (p.next s l) := by
  cases l with
  | append leo =>
    refine h.record rfl rfl hen h.leader h.holds fun f stats hs => ?_
    obtain ⟨hrep, hle⟩ := h.recorded f stats hs
    exact ⟨hrep, hle.trans hen⟩
  | fetch f offset now =>
    obtain ⟨hne, hmono, -⟩ := hen
    have hentry := getElem?_updateFollowerLeo (s := s.rs) f offset s.leaderLeo now
    refine h.record rfl rfl le_rfl ?_ (fun g hg hgl => ?_) fun g stats hs => ?_
    · rw [hentry, if_neg hne.symm]
      exact h.leader
    · unfold Reached
      rw [hentry]
      obtain ⟨stats, hs, hle⟩ := h.holds g hg hgl
      by_cases hgf : g = f
      · -- The member reports at least what it reported before.
        subst hgf
        obtain ⟨hrep, hlog⟩ := h.recorded g stats hs
        rw [if_pos rfl]
        exact ⟨_, rfl, hle.trans (le_min (hrep.trans hmono) hlog)⟩
      · rw [if_neg hgf]
        exact ⟨stats, hs, hle⟩
    · rw [hentry] at hs
      obtain rfl | hgf := eq_or_ne g f
      · rw [if_pos rfl] at hs
        cases hs
        show min offset s.leaderLeo ≤ Function.update s.reported g offset g ∧ _
        rw [Function.update_self]
        exact ⟨min_le_left _ _, min_le_right _ _⟩
      · rw [if_neg hgf] at hs
        show stats.leo ≤ Function.update s.reported f offset g ∧ _
        rw [Function.update_of_ne hgf]
        exact h.recorded g stats hs
  | propose now => exact ⟨h.holds, h.current, h.within, h.leader, h.recorded⟩
  | install isr now =>
    obtain ⟨-, -, hrep, -⟩ := hen
    have hentry := getElem?_installIsr (s := s.rs) isr p.replicas p.leader now
    -- A member was in the ISR before, or is admitted at the high watermark.
    have hold : ∀ g ∈ isr, g ≠ p.leader → Reached s.rs g s.maxHw := by
      intro g hg hgl
      by_cases hin : g ∈ s.rs.isr
      · exact h.holds g hin hgl
      · rw [h.current]
        exact hok g hg hin hgl
    refine h.record rfl rfl le_rfl ?_ (fun g hg hgl => ?_) fun g stats hs => ?_
    · show (s.rs.installIsr isr p.replicas p.leader now).perFollower[p.leader]? = none
      rw [hentry, h.leader]
      simp
    · have hmem : g ∈ isr := List.mem_toFinset.mp hg
      obtain ⟨stats, hs, hle⟩ := hold g hmem hgl
      refine ⟨stats, ?_, hle⟩
      show (s.rs.installIsr isr p.replicas p.leader now).perFollower[g]? = some stats
      rw [hentry, if_pos (hrep g hmem), hs]
      rfl
    · refine h.recorded g stats ?_
      replace hs : (s.rs.installIsr isr p.replicas p.leader now).perFollower[g]? = some stats := hs
      rw [hentry] at hs
      split at hs
      · cases hg : s.rs.perFollower[g]? with
        | some stats' => rwa [hg] at hs
        | none =>
          -- Nothing is seeded: every member has an entry.
          rw [hg, Option.none_or] at hs
          split at hs
          · rename_i hnew
            obtain ⟨stats', hs', -⟩ := hold g hnew.1 hnew.2
            rw [hg] at hs'
            cases hs'
          · cases hs
      · cases hs

/-- **In-sync followers hold what was ever committed**, in every run that admits to the ISR only
replicas at the high watermark. -/
theorem isr_holds_committed {isr : List NodeId} (hisr : ∀ n ∈ isr, n ∈ p.replicas) {leaderLeo : ℤ}
    (hleo : 0 ≤ leaderLeo) {now : ℕ} {s : LeaderState}
    (hrun : p.sys.Run p.Admits (p.start isr leaderLeo now) s) : p.HoldsCommitted s :=
  (Sys.Run.preserves hrun (fun _ _ h hen hok => h.step hen hok) (Inv.start hisr hleo now)).holds

def threeReplicas : Leadership := ⟨1, [1, 2, 3], 100⟩

/-- A follower catches up and joins the set. -/
theorem isr_holds_committed_after_expansion :
    threeReplicas.HoldsCommitted (threeReplicas.sys.execs (threeReplicas.start [1, 2] 0 0)
      [.append 10, .fetch 2 10 1, .fetch 3 10 2, .propose 3, .install [1, 2, 3] 4, .append 20]) :=
  isr_holds_committed (by decide) le_rfl Sys.run_of_runsOk

/-- Replica `3` fetches for the first time, from the start of a log that is committed up to `10`. Its
entry counts as caught up, and the proposal admits it. -/
theorem isr_admits_lagging_follower :
    let s := threeReplicas.start [1, 2] 0 0
    let ls : List LeaderStep :=
      [.append 10, .fetch 2 10 1, .fetch 3 0 2, .propose 3, .install [1, 2, 3] 4]
    threeReplicas.sys.AnyRun s (threeReplicas.sys.execs s ls) ∧
      ¬ threeReplicas.HoldsCommitted (threeReplicas.sys.execs s ls) := by
  exact ⟨Sys.run_of_runs, by decide +kernel⟩

end Leadership
end Crabka.Broker
