import Crabka.Found.Runs
import Crabka.Metadata.Image

/-!
# Changes of a partition record by the controller

Four writers rebuild a partition record: the scans for a dead broker and for an offline log directory
(`leader_election.rs`), the reassignment task (`reassignment.rs`) and the handler of `AlterPartition`. The scans drop
every member of the ISR that is not alive, also the leader when another broker is dead; the handler takes an ISR
without the leader or with a replica twice.
-/

namespace Crabka.Broker
open List
open Kraft (NodeId Uuid)
open Found Metadata Option

/-- An `i32` plus one, which wraps. -/
def bump (e : ℤ) : ℤ := if e = i32Max then -2 ^ 31 else e + 1

/-! ## Failover -/

inductive RecoveryStrategy where
  | none
  | balanced
  | aggressive
  deriving DecidableEq, Repr

/-- What the failover of a partition does. -/
inductive FailoverDecision where
  | elect (leader : NodeId) (isr : List NodeId) (unclean : Bool)
  | recover (strategy : RecoveryStrategy)
  | shrinkIsr (isr : List NodeId)
  | unavailable
  | noChange
  deriving DecidableEq, Repr

def aliveIsr (pr : PartitionRecord) (dead : NodeId) (alive : Finset NodeId) : List NodeId :=
  pr.isr.filter fun n => n ≠ dead ∧ n ∈ alive

def failoverOne (pr : PartitionRecord) (dead : NodeId) (alive : Finset NodeId)
    (strategy : RecoveryStrategy) (uncleanEnabled : Bool) : FailoverDecision :=
  if pr.leader = dead then
    match (aliveIsr pr dead alive).head? with
    | some newLeader => .elect newLeader (aliveIsr pr dead alive) false
    | none =>
      match strategy with
      | .balanced | .aggressive => .recover strategy
      | .none =>
        if uncleanEnabled then
          match pr.replicas.find? fun n => n ≠ dead ∧ n ∈ alive with
          | some newLeader => .elect newLeader [newLeader] true
          | none => .unavailable
        else .unavailable
  else if (aliveIsr pr dead alive).length < pr.isr.length then
    .shrinkIsr (aliveIsr pr dead alive)
  else .noChange

/-- A record that a writer emits, and whether it comes from an unclean election. -/
structure Emitted where
  record : PartitionRecord
  unclean : Bool := false
  deriving DecidableEq

def FailoverDecision.emitted (pr : PartitionRecord) : FailoverDecision → Option Emitted
  | .elect leader isr unclean => some
      { record := { pr with
          leader, isr, leaderEpoch := bump pr.leaderEpoch, partitionEpoch := bump pr.partitionEpoch }
        unclean }
  | .shrinkIsr isr => some { record := { pr with isr, partitionEpoch := bump pr.partitionEpoch } }
  | _ => none

structure FailoverPlan where
  changes : List Emitted := []
  recoveries : List (String × ℤ × RecoveryStrategy) := []
  unavailable : List (String × ℤ) := []

def FailoverPlan.add (plan : FailoverPlan) (pr : PartitionRecord) (d : FailoverDecision) :
    FailoverPlan where
  changes := plan.changes ++ (d.emitted pr).toList
  recoveries := match d with
    | .recover strategy => plan.recoveries ++ [(pr.topic, pr.partition, strategy)]
    | _ => plan.recoveries
  unavailable := match d with
    | .unavailable => plan.unavailable ++ [(pr.topic, pr.partition)]
    | _ => plan.unavailable

structure FailoverPolicy where
  strategy : String → RecoveryStrategy
  uncleanEnabled : String → Bool

def FailoverPolicy.decide (policy : FailoverPolicy) (pr : PartitionRecord) (dead : NodeId)
    (alive : Finset NodeId) : FailoverDecision :=
  failoverOne pr dead alive (policy.strategy pr.topic) (policy.uncleanEnabled pr.topic)

/-- The partitions that the scan for a dead broker looks at. -/
def hosts (pr : PartitionRecord) (dead : NodeId) : Prop := dead ∈ pr.replicas ∨ dead ∈ pr.isr

instance (pr : PartitionRecord) (dead : NodeId) : Decidable (hosts pr dead) :=
  inferInstanceAs (Decidable (_ ∨ _))

def computeFailoverChanges (partitions : List PartitionRecord) (policy : FailoverPolicy)
    (dead : NodeId) (alive : Finset NodeId) : FailoverPlan :=
  partitions.foldl
    (fun (plan : FailoverPlan) pr =>
      if hosts pr dead then plan.add pr (policy.decide pr dead alive) else plan) {}

def onOffline (pr : PartitionRecord) (broker : NodeId) (offline : Finset Uuid) : Prop :=
  ∃ slot ∈ pr.replicas.findIdx? (· == broker), ∃ d ∈ pr.directories[slot]?, d ∈ offline

instance (pr : PartitionRecord) (broker : NodeId) (offline : Finset Uuid) :
    Decidable (onOffline pr broker offline) := by
  unfold onOffline
  infer_instance

/-- `compute_offline_dir_failover_changes`, which reports nothing unavailable. -/
def computeOfflineDirFailoverChanges (partitions : List PartitionRecord) (policy : FailoverPolicy)
    (broker : NodeId) (offline : Finset Uuid) (alive : Finset NodeId) : FailoverPlan :=
  let plan := partitions.foldl
    (fun (plan : FailoverPlan) pr =>
      if onOffline pr broker offline then plan.add pr (policy.decide pr broker alive) else plan) {}
  { plan with unavailable := [] }

/-! ## Reassignment -/

/-- `remap_directories`: the last slot of a replica counts, as in the collected map. -/
def remapDirectories (oldReplicas : List NodeId) (oldDirectories : List Uuid)
    (newReplicas : List NodeId) : List Uuid :=
  newReplicas.map fun n =>
    (((oldReplicas.zip oldDirectories).reverse.find? (·.1 == n)).map Prod.snd).getD 0

def reassignmentTarget (pr : PartitionRecord) : List NodeId :=
  pr.replicas.filter fun r => r ∉ pr.removingReplicas

def reassignOne (pr : PartitionRecord) (alive : Finset NodeId) : Option PartitionRecord :=
  if ¬ ∀ n ∈ pr.addingReplicas, n ∈ pr.isr then none
  else if pr.leader ∈ pr.removingReplicas then
    ((reassignmentTarget pr).find? fun n => n ∈ pr.isr ∧ n ∈ alive).map fun newLeader =>
      { pr with
        leader := newLeader
        leaderEpoch := bump pr.leaderEpoch
        partitionEpoch := bump pr.partitionEpoch }
  else
    some { pr with
      replicas := reassignmentTarget pr
      isr := pr.isr.filter fun n => n ∈ reassignmentTarget pr
      addingReplicas := []
      removingReplicas := []
      directories := remapDirectories pr.replicas pr.directories (reassignmentTarget pr)
      partitionEpoch := bump pr.partitionEpoch }

/-! ## `AlterPartition` -/

inductive AlterPartitionCode where
  | none
  | unknownTopicOrPartition
  | fencedLeaderEpoch
  | invalidRequest
  | ineligibleReplica
  deriving DecidableEq, Repr

/-- `RespPartitionData`, without the recovery state, which is always zero. -/
structure RespPartitionData where
  partitionIndex : ℤ
  errorCode : AlterPartitionCode
  leaderId : ℤ
  leaderEpoch : ℤ
  isr : List ℤ
  partitionEpoch : ℤ
  deriving DecidableEq, Repr

/-- The proposal of a request: `new_isr` of version 2, `new_isr_with_epochs` of version 3. -/
structure IsrProposal where
  leaderEpoch : ℤ
  newIsr : List ℤ
  newIsrWithEpochs : List (ℤ × ℤ)
  deriving DecidableEq, Repr

def IsrProposal.effective (q : IsrProposal) : List ℤ :=
  if q.newIsr.isEmpty && !q.newIsrWithEpochs.isEmpty then q.newIsrWithEpochs.map Prod.fst
  else q.newIsr

/-- `u64::try_from(n).unwrap_or(0)`, for each broker of the proposal. -/
def IsrProposal.isr (q : IsrProposal) : List NodeId := q.effective.map Int.toNat

/-- `i32::try_from(n).unwrap_or(0)`. -/
def toI32 (n : NodeId) : ℤ := if (n : ℤ) ≤ i32Max then n else 0

/-- A broker that is not registered, or not with the epoch of the request. -/
def ineligible (brokerEpoch : NodeId → Option ℤ) (b : ℤ × ℤ) : Prop :=
  let node := if b.1 < 0 then 2 ^ 64 - 1 else b.1.toNat
  brokerEpoch node = none ∨ b.2 ≠ -1 ∧ brokerEpoch node ≠ some b.2

instance (brokerEpoch : NodeId → Option ℤ) (b : ℤ × ℤ) : Decidable (ineligible brokerEpoch b) := by
  unfold ineligible
  infer_instance

def validIsr (pr : PartitionRecord) (q : IsrProposal) : Prop :=
  q.isr ≠ [] ∧ ∀ n ∈ q.isr, n ∈ pr.replicas

instance (pr : PartitionRecord) (q : IsrProposal) : Decidable (validIsr pr q) :=
  inferInstanceAs (Decidable (_ ∧ _))

/-- The checks of `handle_partition`, in their order. -/
def alterPartitionCode (brokerEpoch : NodeId → Option ℤ) (pr : PartitionRecord) (q : IsrProposal) :
    AlterPartitionCode :=
  if q.leaderEpoch ≠ pr.leaderEpoch then .fencedLeaderEpoch
  else if ¬ validIsr pr q then .invalidRequest
  else if ∃ b ∈ q.newIsrWithEpochs, ineligible brokerEpoch b then .ineligibleReplica
  else .none

/-- `handle_partition`: the response, and the record that is submitted. -/
def handlePartition (I : MetadataImage) (topicName : Option String) (partitionIndex : ℤ)
    (q : IsrProposal) : RespPartitionData × Option PartitionRecord :=
  match topicName.bind (I.partition · partitionIndex) with
  | none => (⟨partitionIndex, .unknownTopicOrPartition, 0, 0, [], 0⟩, none)
  | some pr =>
    match alterPartitionCode I.brokerEpoch pr q with
    | .none =>
      let epoch := bump pr.partitionEpoch
      (⟨partitionIndex, .none, toI32 pr.leader, pr.leaderEpoch, q.effective, epoch⟩,
        some { pr with
          topic := topicName.getD pr.topic
          partition := partitionIndex
          isr := q.isr
          partitionEpoch := epoch })
    | code => (⟨partitionIndex, code, toI32 pr.leader, pr.leaderEpoch, pr.isr.map toI32, 0⟩, none)

/-! ## The writers, one record at a time -/

/-- A writer, with everything it reads besides the record. -/
inductive Writer where
  | failover (policy : FailoverPolicy) (dead : NodeId) (alive : Finset NodeId)
  | offlineDir (policy : FailoverPolicy) (broker : NodeId) (offline : Finset Uuid)
      (alive : Finset NodeId)
  | reassign (alive : Finset NodeId)
  | alterPartition (brokerEpoch : NodeId → Option ℤ) (q : IsrProposal)

namespace Writer

def emit (pr : PartitionRecord) : Writer → Option Emitted
  | .failover policy dead alive =>
    if hosts pr dead then (policy.decide pr dead alive).emitted pr else none
  | .offlineDir policy broker offline alive =>
    if onOffline pr broker offline then (policy.decide pr broker alive).emitted pr else none
  | .reassign alive => (reassignOne pr alive).map ({ record := · })
  | .alterPartition brokerEpoch q =>
    match alterPartitionCode brokerEpoch pr q with
    | .none => some
        { record := { pr with isr := q.isr, partitionEpoch := bump pr.partitionEpoch } }
    | _ => none

def next (pr : PartitionRecord) (w : Writer) : PartitionRecord :=
  match w.emit pr with
  | some e => e.record
  | none => pr

def sys : Sys PartitionRecord Writer where
  enabled _ _ := True
  next := next

end Writer

/-- A partition has a leader in its in-sync set, which is a set of replicas. -/
structure WellFormedRecord (pr : PartitionRecord) : Prop where
  nonempty : pr.isr ≠ []
  nodup : pr.isr.Nodup
  leader : pr.leader ∈ pr.isr
  subset : ∀ n ∈ pr.isr, n ∈ pr.replicas
  directories : pr.directories = [] ∨ pr.directories.length = pr.replicas.length

/-- What an emitted record should be, next to the record it replaces. -/
structure SoundChange (pr : PartitionRecord) (e : Emitted) : Prop where
  wellFormed : WellFormedRecord e.record
  partitionEpoch : e.record.partitionEpoch = pr.partitionEpoch + 1
  leaderEpoch : pr.leaderEpoch ≤ e.record.leaderEpoch
  newEpoch : e.record.leader ≠ pr.leader → pr.leaderEpoch < e.record.leaderEpoch
  clean : e.unclean = false → e.record.leader ≠ pr.leader → e.record.leader ∈ pr.isr

/-- A leader is elected: from the ISR, or uncleanly. -/
def Electable (policy : FailoverPolicy) (pr : PartitionRecord) (dead : NodeId)
    (alive : Finset NodeId) : Prop :=
  (∃ n ∈ pr.isr, n ≠ dead ∧ n ∈ alive) ∨
    policy.strategy pr.topic = .none ∧ policy.uncleanEnabled pr.topic = true ∧
      ∃ n ∈ pr.replicas, n ≠ dead ∧ n ∈ alive

/-- The scans find the leader alive when they drop another member, and epochs have room. -/
def FailoverProper (policy : FailoverPolicy) (pr : PartitionRecord) (dead : NodeId)
    (alive : Finset NodeId) : Prop :=
  if pr.leader = dead then
    Electable policy pr dead alive → pr.partitionEpoch ≠ i32Max ∧ pr.leaderEpoch ≠ i32Max
  else (∃ n ∈ pr.isr, n = dead ∨ n ∉ alive) → pr.leader ∈ alive ∧ pr.partitionEpoch ≠ i32Max

/-- The condition under which a writer does what it should. -/
def Proper (pr : PartitionRecord) : Writer → Prop
  | .failover policy dead alive => hosts pr dead → FailoverProper policy pr dead alive
  | .offlineDir policy broker offline alive =>
    onOffline pr broker offline → FailoverProper policy pr broker alive
  | .reassign alive => (∀ n ∈ pr.addingReplicas, n ∈ pr.isr) →
      if pr.leader ∈ pr.removingReplicas then
        (∃ n ∈ pr.isr, n ∉ pr.removingReplicas ∧ n ∈ alive) → pr.partitionEpoch ≠ i32Max ∧ pr.leaderEpoch ≠ i32Max
      else pr.partitionEpoch ≠ i32Max
  | .alterPartition brokerEpoch q => alterPartitionCode brokerEpoch pr q = .none →
      pr.leader ∈ q.isr ∧ q.isr.Nodup ∧ pr.partitionEpoch ≠ i32Max

/-! ## Epochs -/

lemma bump_eq_iff {e : ℤ} : bump e = e + 1 ↔ e ≠ i32Max := by
  unfold bump
  split_ifs with h
  · simp [h, i32Max]
  · simp [h]

lemma lt_bump_iff {e : ℤ} : e < bump e ↔ e ≠ i32Max := by
  unfold bump
  split_ifs with h
  · simp [h, i32Max]
  · simp only [ne_eq, h, not_false_eq_true, iff_true]
    omega

/-! ## Failover -/

section
variable {pr : PartitionRecord} {dead : NodeId} {alive : Finset NodeId} {policy : FailoverPolicy}

lemma mem_aliveIsr {n : NodeId} : n ∈ aliveIsr pr dead alive ↔ n ∈ pr.isr ∧ n ≠ dead ∧ n ∈ alive := by
  simp [aliveIsr]

lemma length_aliveIsr_lt_iff :
    (aliveIsr pr dead alive).length < pr.isr.length ↔ ∃ n ∈ pr.isr, n = dead ∨ n ∉ alive := by
  unfold aliveIsr
  rw [length_filter_lt_length_iff_exists]
  refine exists_congr fun n => and_congr_right fun _ => ?_
  by_cases hn : n = dead <;> simp [hn]

section
variable (hwf : WellFormedRecord pr)
include hwf

lemma soundChange_elect_iff {leader : NodeId} (isr : List NodeId)
    (unclean : Bool) (hne : leader ≠ pr.leader) (hmem : leader ∈ isr) (hnd : isr.Nodup)
    (hsub : ∀ n ∈ isr, n ∈ pr.replicas) (hclean : unclean = false → leader ∈ pr.isr) :
    SoundChange pr
        { record := { pr with
            leader, isr, leaderEpoch := bump pr.leaderEpoch
            partitionEpoch := bump pr.partitionEpoch }
          unclean } ↔
      pr.partitionEpoch ≠ i32Max ∧ pr.leaderEpoch ≠ i32Max := by
  constructor
  · intro h
    exact ⟨bump_eq_iff.mp h.partitionEpoch, lt_bump_iff.mp (h.newEpoch hne)⟩
  · rintro ⟨hp, hl⟩
    exact {
      wellFormed := ⟨ne_nil_of_mem hmem, hnd, hmem, hsub, hwf.directories⟩
      partitionEpoch := bump_eq_iff.mpr hp
      leaderEpoch := (lt_bump_iff.mpr hl).le
      newEpoch := fun _ => lt_bump_iff.mpr hl
      clean := fun hu _ => hclean hu }

lemma soundChange_isr_iff (isr : List NodeId) (hsub : ∀ n ∈ isr, n ∈ pr.replicas) :
    SoundChange pr { record := { pr with isr, partitionEpoch := bump pr.partitionEpoch } } ↔
      pr.leader ∈ isr ∧ isr.Nodup ∧ pr.partitionEpoch ≠ i32Max := by
  constructor
  · intro h
    exact ⟨h.wellFormed.leader, h.wellFormed.nodup, bump_eq_iff.mp h.partitionEpoch⟩
  · rintro ⟨hl, hnd, hp⟩
    exact {
      wellFormed := ⟨ne_nil_of_mem hl, hnd, hl, hsub, hwf.directories⟩
      partitionEpoch := bump_eq_iff.mpr hp
      leaderEpoch := le_rfl
      newEpoch := fun hne => absurd rfl hne
      clean := fun _ hne => absurd rfl hne }

lemma uncleanElection_sound_iff (hlead : pr.leader = dead) {strategy : RecoveryStrategy} {uncleanEnabled : Bool} :
    (∀ e, FailoverDecision.emitted pr
        (match strategy with
          | .balanced | .aggressive => .recover strategy
          | .none =>
            if uncleanEnabled then
              match pr.replicas.find? fun n => n ≠ dead ∧ n ∈ alive with
              | some newLeader => .elect newLeader [newLeader] true
              | none => .unavailable
            else .unavailable) = some e → SoundChange pr e) ↔
      (strategy = .none ∧ uncleanEnabled ∧ (∃ n ∈ pr.replicas, n ≠ dead ∧ n ∈ alive) →
        pr.partitionEpoch ≠ i32Max ∧ pr.leaderEpoch ≠ i32Max) := by
  cases strategy with
  | balanced | aggressive => simp [FailoverDecision.emitted]
  | none =>
    cases uncleanEnabled with
    | false => simp [FailoverDecision.emitted]
    | true =>
      simp only [if_true, true_and]
      cases hfind : pr.replicas.find? fun n => n ≠ dead ∧ n ∈ alive with
      | none =>
        have hno : ¬ ∃ n ∈ pr.replicas, n ≠ dead ∧ n ∈ alive := by
          rintro ⟨n, hn, hcond⟩
          exact List.find?_eq_none.mp hfind n hn (by simpa using hcond)
        simp [FailoverDecision.emitted, hno]
      | some newLeader =>
        have hcond : newLeader ≠ dead ∧ newLeader ∈ alive := by simpa using List.find?_some hfind
        have hmem := mem_of_find?_eq_some hfind
        have hsound := soundChange_elect_iff hwf [newLeader] true
          (hlead ▸ hcond.1) mem_cons_self (nodup_singleton _)
          (fun n hn => mem_singleton.mp hn ▸ hmem) fun h => nomatch h
        have hex : ∃ n ∈ pr.replicas, n ≠ dead ∧ n ∈ alive := ⟨newLeader, hmem, hcond⟩
        simp only [FailoverDecision.emitted, some.injEq, forall_eq', hsound, hex, forall_const]

lemma failover_sound_iff :
    (∀ e, (policy.decide pr dead alive).emitted pr = some e → SoundChange pr e) ↔
      FailoverProper policy pr dead alive := by
  unfold FailoverProper FailoverPolicy.decide failoverOne
  by_cases hlead : pr.leader = dead
  · rw [if_pos hlead, if_pos hlead]
    cases hhead : (aliveIsr pr dead alive).head? with
    | some newLeader =>
      -- A clean election.
      have hin : newLeader ∈ aliveIsr pr dead alive := mem_of_mem_head? hhead
      obtain ⟨hisr, hnd, hal⟩ := mem_aliveIsr.mp hin
      have hsound := soundChange_elect_iff hwf _ false (hlead ▸ hnd) hin
        (hwf.nodup.filter _) (fun n hn => hwf.subset n (mem_aliveIsr.mp hn).1) fun _ => hisr
      have helect : Electable policy pr dead alive := .inl ⟨newLeader, hisr, hnd, hal⟩
      simp only [FailoverDecision.emitted, some.injEq, forall_eq', hsound, helect, forall_const]
    | none =>
      have hempty : ¬ ∃ n ∈ pr.isr, n ≠ dead ∧ n ∈ alive := by
        rintro ⟨n, hn⟩
        have := mem_aliveIsr.mpr hn
        rw [List.head?_eq_none_iff.mp hhead] at this
        cases this
      simp only [Electable, hempty, false_or]
      exact uncleanElection_sound_iff hwf hlead
  · rw [if_neg hlead, if_neg hlead]
    by_cases hlt : (aliveIsr pr dead alive).length < pr.isr.length
    · have hsound := soundChange_isr_iff hwf (aliveIsr pr dead alive)
        fun n hn => hwf.subset n (mem_aliveIsr.mp hn).1
      rw [if_pos hlt]
      simp only [FailoverDecision.emitted, some.injEq, forall_eq', hsound,
        length_aliveIsr_lt_iff.mp hlt, forall_const, mem_aliveIsr, hwf.leader, true_and, ne_eq,
        hlead, not_false_eq_true]
      exact and_congr_right fun _ => ⟨fun h => h.2, fun h => ⟨hwf.nodup.filter _, h⟩⟩
    · rw [if_neg hlt]
      simp only [FailoverDecision.emitted, reduceCtorEq, IsEmpty.forall_iff, implies_true, true_iff]
      exact fun hlost => absurd (length_aliveIsr_lt_iff.mpr hlost) hlt

end
end

/-! ## Reassignment -/

section
variable {pr : PartitionRecord} {alive : Finset NodeId}

lemma mem_reassignmentTarget {n : NodeId} :
    n ∈ reassignmentTarget pr ↔ n ∈ pr.replicas ∧ n ∉ pr.removingReplicas := by
  simp [reassignmentTarget]

lemma soundChange_complete_iff (hwf : WellFormedRecord pr) (hlead : pr.leader ∉ pr.removingReplicas) :
    SoundChange pr { record := { pr with
        replicas := reassignmentTarget pr
        isr := pr.isr.filter fun n => n ∈ reassignmentTarget pr
        addingReplicas := []
        removingReplicas := []
        directories := remapDirectories pr.replicas pr.directories (reassignmentTarget pr)
        partitionEpoch := bump pr.partitionEpoch } } ↔ pr.partitionEpoch ≠ i32Max := by
  have hleader : pr.leader ∈ pr.isr.filter fun n => n ∈ reassignmentTarget pr := by
    refine mem_filter.mpr ⟨hwf.leader, ?_⟩
    simpa using mem_reassignmentTarget.mpr ⟨hwf.subset _ hwf.leader, hlead⟩
  constructor
  · exact fun h => bump_eq_iff.mp h.partitionEpoch
  · intro hp
    exact {
      wellFormed := {
        nonempty := ne_nil_of_mem hleader
        nodup := hwf.nodup.filter _
        leader := hleader
        subset := fun n hn => by simpa using (mem_filter.mp hn).2
        directories := .inr (by simp [remapDirectories]) }
      partitionEpoch := bump_eq_iff.mpr hp
      leaderEpoch := le_rfl
      newEpoch := fun hne => absurd rfl hne
      clean := fun _ hne => absurd rfl hne }

lemma reassign_sound_iff (hwf : WellFormedRecord pr) :
    (∀ e, (Writer.reassign alive).emit pr = some e → SoundChange pr e) ↔ Proper pr (.reassign alive) := by
  simp only [Writer.emit, Proper]
  unfold reassignOne
  by_cases hadd : ∀ n ∈ pr.addingReplicas, n ∈ pr.isr
  · rw [if_neg (not_not.mpr hadd), forall_prop_of_true hadd]
    by_cases hlead : pr.leader ∈ pr.removingReplicas
    · rw [if_pos hlead, if_pos hlead]
      cases hfind : (reassignmentTarget pr).find? fun n => n ∈ pr.isr ∧ n ∈ alive with
      | none =>
        have hno : ¬ ∃ n ∈ pr.isr, n ∉ pr.removingReplicas ∧ n ∈ alive := by
          rintro ⟨n, hn, hrem, hal⟩
          have htarget := mem_reassignmentTarget.mpr ⟨hwf.subset n hn, hrem⟩
          exact List.find?_eq_none.mp hfind n htarget (by simpa using ⟨hn, hal⟩)
        simp [hno]
      | some newLeader =>
        have hcond : newLeader ∈ pr.isr ∧ newLeader ∈ alive := by simpa using List.find?_some hfind
        have htarget := mem_reassignmentTarget.mp (mem_of_find?_eq_some hfind)
        have hne : newLeader ≠ pr.leader := fun heq => htarget.2 (heq ▸ hlead)
        have hsound := soundChange_elect_iff hwf _ false hne hcond.1 hwf.nodup hwf.subset fun _ => hcond.1
        have hex : ∃ n ∈ pr.isr, n ∉ pr.removingReplicas ∧ n ∈ alive :=
          ⟨newLeader, hcond.1, htarget.2, hcond.2⟩
        simp only [map_some, some.injEq, forall_eq', hsound, hex, forall_const]
    · rw [if_neg hlead, if_neg hlead]
      simp only [map_some, some.injEq, forall_eq', soundChange_complete_iff hwf hlead]
  · rw [if_pos hadd]
    simp [hadd]

end

/-! ## All writers -/

variable {pr : PartitionRecord}

lemma alterPartition_sound_iff (hwf : WellFormedRecord pr) {brokerEpoch : NodeId → Option ℤ} {q : IsrProposal} :
    (∀ e, (Writer.alterPartition brokerEpoch q).emit pr = some e → SoundChange pr e) ↔
      Proper pr (.alterPartition brokerEpoch q) := by
  simp only [Writer.emit, Proper]
  cases hcode : alterPartitionCode brokerEpoch pr q with
  | none =>
    have hvalid : validIsr pr q := by
      by_contra hinvalid
      unfold alterPartitionCode at hcode
      split at hcode
      · cases hcode
      · cases hcode
    simp only [some.injEq, forall_eq', soundChange_isr_iff hwf _ hvalid.2, forall_const]
  | _ => simp

lemma emit_sound_iff (hwf : WellFormedRecord pr) (w : Writer) :
    (∀ e, w.emit pr = some e → SoundChange pr e) ↔ Proper pr w := by
  cases w with
  | failover policy dead alive =>
    simp only [Writer.emit, Proper]
    by_cases h : hosts pr dead
    · simp only [h, if_true, forall_const, failover_sound_iff hwf]
    · simp [h]
  | offlineDir policy broker offline alive =>
    simp only [Writer.emit, Proper]
    by_cases h : onOffline pr broker offline
    · simp only [h, if_true, forall_const, failover_sound_iff hwf]
    · simp [h]
  | reassign alive => exact reassign_sound_iff hwf
  | alterPartition brokerEpoch q => exact alterPartition_sound_iff hwf

lemma changes_foldl_add {touched : PartitionRecord → Prop} [DecidablePred touched]
    (d : PartitionRecord → FailoverDecision) (partitions : List PartitionRecord)
    (plan : FailoverPlan) :
    (partitions.foldl (fun (plan : FailoverPlan) pr =>
        if touched pr then plan.add pr (d pr) else plan) plan).changes =
      plan.changes ++ partitions.filterMap fun pr =>
        if touched pr then (d pr).emitted pr else none := by
  induction partitions generalizing plan with
  | nil => simp
  | cons pr partitions ih =>
    rw [foldl_cons, ih, filterMap_cons]
    by_cases h : touched pr
    · simp only [h, if_true, FailoverPlan.add, append_assoc]
      cases (d pr).emitted pr <;> simp
    · simp [h]

/-- **Partition records stay well formed.** A writer emits a sound record for a well-formed one if
and only if its condition holds; the scans and the handler emit what the writers emit, record by
record; and in every sequence of updates that meet their conditions the record stays well formed,
and its epochs do not fall. -/
theorem partition_updates_sound_iff (pr : PartitionRecord) (hwf : WellFormedRecord pr) :
    (∀ w : Writer, (∀ e, w.emit pr = some e → SoundChange pr e) ↔ Proper pr w) ∧
    (∀ partitions policy dead alive, (computeFailoverChanges partitions policy dead alive).changes =
      partitions.filterMap fun pr => (Writer.failover policy dead alive).emit pr) ∧
    (∀ partitions policy broker offline alive,
      (computeOfflineDirFailoverChanges partitions policy broker offline alive).changes =
        partitions.filterMap fun pr => (Writer.offlineDir policy broker offline alive).emit pr) ∧
    (∀ (I : MetadataImage) q, I.partition pr.topic pr.partition = some pr →
      (handlePartition I (some pr.topic) pr.partition q).2 =
        ((Writer.alterPartition I.brokerEpoch q).emit pr).map Emitted.record) ∧
    ∀ pr', Writer.sys.Run Proper pr pr' →
      WellFormedRecord pr' ∧ pr.leaderEpoch ≤ pr'.leaderEpoch ∧ pr.partitionEpoch ≤ pr'.partitionEpoch := by
  refine ⟨fun w => emit_sound_iff hwf w, fun ps _ _ _ => (changes_foldl_add _ ps {}).trans (nil_append _),
    fun ps _ _ _ _ => (changes_foldl_add _ ps {}).trans (nil_append _),
    fun I q h => ?_, fun pr' hrun => ?_⟩
  · simp only [handlePartition, bind_some, h, Writer.emit]
    cases alterPartitionCode I.brokerEpoch pr q <;> rfl
  refine Sys.Run.relates (P := WellFormedRecord)
    (R := fun a b => a.leaderEpoch ≤ b.leaderEpoch ∧ a.partitionEpoch ≤ b.partitionEpoch) hrun hwf
    (fun _ => ⟨le_rfl, le_rfl⟩) (fun hab hbc => ⟨hab.1.trans hbc.1, hab.2.trans hbc.2⟩) ?_
  intro t w ht _ hproper
  have hsound := (emit_sound_iff ht w).mpr hproper
  show WellFormedRecord (Writer.next t w) ∧ _
  unfold Writer.next
  cases he : w.emit t with
  | none =>
    refine ⟨ht, ?_⟩
    show t.leaderEpoch ≤ (Writer.next t w).leaderEpoch ∧ _ ≤ (Writer.next t w).partitionEpoch
    simp [Writer.next, he]
  | some e =>
    have h := hsound e he
    refine ⟨h.wellFormed, ?_⟩
    show t.leaderEpoch ≤ (Writer.next t w).leaderEpoch ∧ _ ≤ (Writer.next t w).partitionEpoch
    simp only [Writer.next, he]
    exact ⟨h.leaderEpoch, by rw [h.partitionEpoch]; omega⟩

def threeInSync : PartitionRecord := ⟨"orders", 0, 1, [1, 2, 3], [1, 2, 3], 5, [], [], [], 9⟩

lemma wellFormed_threeInSync : WellFormedRecord threeInSync :=
  ⟨by decide, by decide, by decide, by decide, .inl rfl⟩

/-- The scan for the dead broker `2` while the other two are alive. -/
theorem partition_updates_sound_shrink :
    SoundChange threeInSync { record := { threeInSync with isr := [1, 3], partitionEpoch := 10 } } := by
  have hiff := (partition_updates_sound_iff threeInSync wellFormed_threeInSync).1
    (.failover ⟨fun _ => .none, fun _ => false⟩ 2 {1, 3})
  refine hiff.mpr (fun _ => ?_) _ (by decide)
  unfold FailoverProper
  rw [if_neg (by decide)]
  exact fun _ => by decide

/-- The scan for the dead broker `2` runs while the leader `1` is not alive either: the ISR is left
without the leader. And the handler accepts an ISR without the leader. -/
theorem partition_updates_lose_leader :
    let policy : FailoverPolicy := ⟨fun _ => .none, fun _ => false⟩
    WellFormedRecord threeInSync ∧
    (Writer.failover policy 2 {3}).emit threeInSync =
      some { record := { threeInSync with isr := [3], partitionEpoch := 10 } } ∧
    (Writer.alterPartition (fun _ => some 0) ⟨5, [2, 3], []⟩).emit threeInSync =
      some { record := { threeInSync with isr := [2, 3], partitionEpoch := 10 } } ∧
    ¬ WellFormedRecord { threeInSync with isr := [3], partitionEpoch := 10 } ∧
    ¬ WellFormedRecord { threeInSync with isr := [2, 3], partitionEpoch := 10 } := by
  refine ⟨wellFormed_threeInSync, by decide, by decide, fun h => ?_, fun h => ?_⟩
  · exact absurd h.leader (by decide)
  · exact absurd h.leader (by decide)

end Crabka.Broker
