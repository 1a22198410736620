import Crabka.Broker.Txn.TxnEntry
import Crabka.Found.Runs

/-!
# The identities of a transactional producer

From transaction version 2 on, every completion and every recovery of a prepared transaction gives the client a new
producer identity, and none twice. The marker of a transaction has the producer id of its data and a larger epoch
(`identities_advance`), unless the data have the epoch `i16::MAX`, where it saturates (`marker_epoch_saturates`).
-/

namespace Crabka.Broker.Txn
open Found List
open Metadata (i16Max)
namespace TxnEntry

/-- `stage_recovery_identity`, with the id that the allocator would give. -/
def stageRecoveryIdentity (e : TxnEntry) (allocated : ℤ) : Option TxnEntry := do
  let (pid, epoch) := e.clientProducerIdentity
  let next ←
    if e.hasStagedProducerIdentity then
      nextRecoveryProducerIdentityWithFresh pid epoch (if epoch = i16Max then some allocated else none)
    else
      nextProducerIdentityWithFresh .twoPhase pid epoch (if i16Max - 1 ≤ epoch then some allocated else none)
  return { e with nextProducerId := next.1, nextProducerEpoch := next.2 }

end TxnEntry

/-- The entry, the identities that the client was given, those of the data of the open transaction, and the ended
transactions with their data and marker. -/
structure Identities where
  entry : TxnEntry
  given : List (ℤ × ℤ)
  data : List (ℤ × ℤ) := []
  ended : List (List (ℤ × ℤ) × ℤ × ℤ) := []

/-- A producer writes under its identity, or the identity is staged or adopted. -/
inductive IdentityStep where
  /-- A data batch, under the identity of the entry. -/
  | write
  | stage (allocated : ℤ)
  /-- `prepare_completion_identities`, the markers, and the adoption of the completion identity. -/
  | complete (allocated : ℤ) (committed : Bool)

/-- The transactions of one transactional id. Allocated ids are new; nothing is written under a staged
identity. -/
def identitySys (txnv : TxnVersion) : Sys Identities IdentityStep where
  enabled s
    | .write => s.entry.hasStagedProducerIdentity = false
    | .stage allocated | .complete allocated _ => ∀ g ∈ s.given, g.1 ≠ allocated
  next s
    | .write => { s with data := (s.entry.producerId, s.entry.producerEpoch) :: s.data }
    | .stage allocated => (s.entry.stageRecoveryIdentity allocated).elim s fun e =>
      { s with entry := e, given := e.clientProducerIdentity :: s.given }
    | .complete allocated committed =>
      (s.entry.prepareCompletionIdentities txnv allocated).elim s fun e =>
        { entry := e.finish committed e.completionProducerIdentity e.producerId
          given := e.completionProducerIdentity :: s.given
          ended := (s.data, e.producerId, e.producerEpoch) :: s.ended }

instance (txnv : TxnVersion) (s : Identities) (l : IdentityStep) : Decidable ((identitySys txnv).enabled s l) :=
  match l with
  | .write | .stage _ | .complete _ _ => by unfold identitySys; infer_instance

def Identities.start (e : TxnEntry) : Identities := { entry := e, given := [(e.producerId, e.producerEpoch)] }

/-- An identity after another one: the next epoch, or a fresh id. -/
def Advances (fresh : ℤ) (identity next : ℤ × ℤ) : Prop :=
  next = (identity.1, identity.2 + 1) ∧ identity.2 < i16Max ∨ next = (fresh, 0)

namespace TxnEntry
variable {e : TxnEntry} {txnv : TxnVersion} {supply : Option ℤ} (fresh pid epoch : ℤ)

lemma nextRecovery_spec (h : i16Max ≤ epoch → supply = some fresh) :
    ∃ next, nextRecoveryProducerIdentityWithFresh pid epoch supply = some next ∧
      Advances fresh (pid, epoch) next := by
  unfold nextRecoveryProducerIdentityWithFresh
  by_cases hlt : epoch < i16Max
  · exact ⟨_, if_pos hlt, .inl ⟨rfl, hlt⟩⟩
  · rw [if_neg hlt, h (not_lt.mp hlt)]
    exact ⟨_, rfl, .inr rfl⟩

lemma nextProducer_spec (hv : txnv.isVerified) (h : i16Max - 1 ≤ epoch → supply = some fresh) :
    ∃ next, nextProducerIdentityWithFresh txnv pid epoch supply = some next ∧ Advances fresh (pid, epoch) next := by
  unfold nextProducerIdentityWithFresh
  rw [if_neg (by simp [hv])]
  by_cases hlt : epoch < i16Max - 1
  · exact ⟨_, if_pos hlt, .inl ⟨rfl, by dsimp only; omega⟩⟩
  · rw [if_neg hlt, h (not_lt.mp hlt)]
    exact ⟨_, rfl, .inr rfl⟩

lemma stageRecoveryIdentity_spec (hmax : e.clientProducerIdentity.2 ≤ i16Max) :
    ∃ e', e.stageRecoveryIdentity fresh = some e' ∧ e'.producerId = e.producerId ∧
      e'.producerEpoch = e.producerEpoch ∧
      Advances fresh e.clientProducerIdentity (e'.nextProducerId, e'.nextProducerEpoch) := by
  unfold stageRecoveryIdentity
  dsimp only
  split
  · obtain ⟨next, hnext, hadv⟩ := nextRecovery_spec fresh _ _ fun h => if_pos (le_antisymm hmax h)
    rw [hnext]
    exact ⟨_, rfl, rfl, rfl, hadv⟩
  · obtain ⟨next, hnext, hadv⟩ := @nextProducer_spec .twoPhase _ fresh _ _ rfl fun h => if_pos h
    rw [hnext]
    exact ⟨_, rfl, rfl, rfl, hadv⟩

lemma prepare_spec (hv : txnv.isVerified) (hmax : e.clientProducerIdentity.2 ≤ i16Max)
    (hfresh : fresh ≠ e.producerId) :
    ∃ e', e.prepareCompletionIdentities txnv fresh = some e' ∧ e'.producerId = e.producerId ∧
      e'.producerEpoch = min (e.producerEpoch + 1) i16Max ∧
      Advances fresh e.clientProducerIdentity e'.completionProducerIdentity := by
  unfold prepareCompletionIdentities prepareCompletionIdentitiesWithFresh atRotationBoundary
  rw [if_neg (by simp [hv])]
  dsimp only
  cases hstaged : e.hasStagedProducerIdentity with
  | true =>
    obtain ⟨next, hnext, hadv⟩ := @nextRecovery_spec (if txnv.isVerified = true ∧ _ then some fresh else none)
      fresh e.clientProducerIdentity.1 e.clientProducerIdentity.2
      fun h => if_pos ⟨hv, decide_eq_true (le_antisymm hmax h)⟩
    have hpos : 0 ≤ e.clientProducerIdentity.2 := by
      rw [clientProducerIdentity, if_pos hstaged]
      simpa [hasStagedProducerIdentity] using hstaged
    have hnow : 0 ≤ next.2 := by
      rcases hadv with ⟨rfl, -⟩ | rfl
      · exact Int.le_add_one hpos
      · exact le_rfl
    simp only [if_true, hnext]
    refine ⟨_, rfl, rfl, rfl, ?_⟩
    simpa [completionProducerIdentity, clientProducerIdentity, hasStagedProducerIdentity, hnow] using hadv
  | false =>
    have hclient : e.clientProducerIdentity = (e.producerId, e.producerEpoch) := if_neg (by simp [hstaged])
    rw [hclient]
    by_cases hlt : e.producerEpoch < i16Max - 1
    · refine ⟨{ e with
        producerEpoch := min (e.producerEpoch + 1) i16Max, nextProducerId := -1, nextProducerEpoch := -1 },
        by simp [nextProducerIdentityWithFresh, hv, hlt], rfl, rfl, .inl ⟨?_, by dsimp only; omega⟩⟩
      simp only [completionProducerIdentity, clientProducerIdentity, hasStagedProducerIdentity]
      simpa using le_of_lt (by omega : e.producerEpoch + 1 < i16Max)
    · exact ⟨{ e with
        producerEpoch := min (e.producerEpoch + 1) i16Max, nextProducerId := fresh, nextProducerEpoch := 0 },
        by simp [nextProducerIdentityWithFresh, hv, hlt, not_lt.mp hlt, hfresh], rfl, rfl, .inr rfl⟩

end TxnEntry

/-- The identity of the client is the last one under its id. -/
structure Identities.Inv (s : Identities) : Prop where
  nodup : s.given.Nodup
  epochs : ∀ g ∈ s.given, 0 ≤ g.2 ∧ g.2 ≤ i16Max
  client : s.entry.clientProducerIdentity ∈ s.given
  last : ∀ g ∈ s.given, g.1 = s.entry.clientProducerIdentity.1 → g.2 ≤ s.entry.clientProducerIdentity.2
  entry : (s.entry.producerId, s.entry.producerEpoch) ∈ s.given
  data : ∀ d ∈ s.data, d = (s.entry.producerId, s.entry.producerEpoch)
  ended : ∀ t ∈ s.ended, t.2.2 ≤ i16Max ∧ ∀ d ∈ t.1, d.1 = t.2.1 ∧ (d.2 < t.2.2 ↔ d.2 < i16Max)

namespace Identities.Inv
variable {s : Identities} {fresh : ℤ} {next : ℤ × ℤ} {e : TxnEntry}

lemma give (h : s.Inv) (hnew : ∀ g ∈ s.given, g.1 ≠ fresh)
    (hadv : Advances fresh s.entry.clientProducerIdentity next) :
    (next :: s.given).Nodup ∧ (∀ g ∈ next :: s.given, 0 ≤ g.2 ∧ g.2 ≤ i16Max) ∧
      ∀ g ∈ next :: s.given, g.1 = next.1 → g.2 ≤ next.2 := by
  have hclient := h.epochs _ h.client
  have hlt : ∀ g ∈ s.given, g.1 = next.1 → g.2 < next.2 := by
    intro g hg heq
    rcases hadv with ⟨rfl, -⟩ | rfl
    · exact Int.lt_add_one_of_le (h.last g hg heq)
    · exact absurd heq (hnew g hg)
  refine ⟨nodup_cons.mpr ⟨fun hmem => (hlt _ hmem rfl).false, h.nodup⟩,
    forall_mem_cons.mpr ⟨?_, h.epochs⟩, forall_mem_cons.mpr ⟨fun _ => le_rfl, fun g hg heq => (hlt g hg heq).le⟩⟩
  rcases hadv with ⟨rfl, hroom⟩ | rfl
  · exact ⟨Int.le_add_one hclient.1, hroom⟩
  · exact ⟨le_rfl, show 0 ≤ i16Max by decide⟩

lemma step {txnv : TxnVersion} (hv : txnv.isVerified) (h : s.Inv) {l : IdentityStep}
    (hen : (identitySys txnv).enabled s l) : ((identitySys txnv).next s l).Inv := by
  have hmax := (h.epochs _ h.client).2
  cases l with
  | write => exact { h with data := forall_mem_cons.mpr ⟨rfl, h.data⟩ }
  | stage fresh =>
    obtain ⟨e, he, hpid, hepoch, hadv⟩ := TxnEntry.stageRecoveryIdentity_spec fresh hmax
    obtain ⟨hnodup, hepochs, hlast⟩ := h.give hen hadv
    have hclient : e.clientProducerIdentity = (e.nextProducerId, e.nextProducerEpoch) :=
      if_pos (decide_eq_true (hepochs _ mem_cons_self).1)
    rw [← hclient] at hnodup hepochs hlast
    simp only [identitySys, he, Option.elim_some]
    refine ⟨hnodup, hepochs, mem_cons_self, hlast, ?_, ?_, h.ended⟩
    · rw [hpid, hepoch]
      exact mem_cons_of_mem _ h.entry
    · rw [hpid, hepoch]
      exact h.data
  | complete fresh committed =>
    obtain ⟨e, he, hpid, hepoch, hadv⟩ :=
      TxnEntry.prepare_spec fresh hv hmax fun heq => hen _ h.entry heq.symm
    obtain ⟨hnodup, hepochs, hlast⟩ := h.give hen hadv
    simp only [identitySys, he, Option.elim_some]
    refine ⟨hnodup, hepochs, mem_cons_self, hlast, mem_cons_self, nofun, forall_mem_cons.mpr ⟨⟨?_, ?_⟩, h.ended⟩⟩
    · exact hepoch.trans_le (min_le_right _ _)
    · -- The data are under the entry's identity, which the marker's epoch exceeds unless it saturates.
      intro d hd
      rw [h.data d hd]
      refine ⟨hpid.symm, ?_⟩
      dsimp only
      omega

end Identities.Inv

/-- **Identities advance.** In every run at a verified version, no identity is given to the client twice, all
epochs are in range, a completion and a recovery find their identity, and the marker of each transaction has
the id of its data and a larger epoch exactly when the data's epoch is not `i16::MAX`. -/
theorem identities_advance {txnv : TxnVersion} (hv : txnv.isVerified = true) {e : TxnEntry}
    (hepoch : 0 ≤ e.producerEpoch ∧ e.producerEpoch ≤ i16Max) (hunstaged : e.nextProducerEpoch = -1)
    {s : Identities} (hrun : (identitySys txnv).AnyRun (.start e) s) :
    s.given.Nodup ∧ (∀ g ∈ s.given, 0 ≤ g.2 ∧ g.2 ≤ i16Max) ∧
      (∀ fresh, (∀ g ∈ s.given, g.1 ≠ fresh) → (s.entry.stageRecoveryIdentity fresh).isSome ∧
        (s.entry.prepareCompletionIdentities txnv fresh).isSome) ∧
      ∀ t ∈ s.ended, t.2.2 ≤ i16Max ∧ ∀ d ∈ t.1, d.1 = t.2.1 ∧ (d.2 < t.2.2 ↔ d.2 < i16Max) := by
  have hclient : e.clientProducerIdentity = (e.producerId, e.producerEpoch) :=
    if_neg (by simp [TxnEntry.hasStagedProducerIdentity, hunstaged])
  have hstart : (Identities.start e).Inv :=
    ⟨nodup_singleton _, by simpa [Identities.start] using hepoch, by simp [Identities.start, hclient],
      by simp [Identities.start, hclient], mem_singleton_self _, nofun, nofun⟩
  have h : s.Inv := hrun.preserves (P := Identities.Inv) (fun _ _ h hen _ => h.step hv hen) hstart
  have hmax := (h.epochs _ h.client).2
  refine ⟨h.nodup, h.epochs, fun fresh hnew => ⟨?_, ?_⟩, h.ended⟩
  · obtain ⟨e', he, -⟩ := TxnEntry.stageRecoveryIdentity_spec fresh hmax
    rw [he]
    rfl
  · obtain ⟨e', he, -⟩ := TxnEntry.prepare_spec fresh hv hmax fun heq => hnew _ h.entry heq.symm
    rw [he]
    rfl

def nearEnd : TxnEntry := { producerId := 7, producerEpoch := i16Max - 2, txnTimeoutMs := 0, startMs := 0 }

def recoveredThenNext : List IdentityStep := [.write, .stage 8, .complete 8 true, .write, .complete 8 true]

def rotated : Identities := (identitySys .twoPhase).execs (.start nearEnd) recoveredThenNext

/-- The epoch runs out and the producer id is rotated. -/
theorem identities_advance_rotated : rotated.given.Nodup :=
  (@identities_advance .twoPhase rfl nearEnd (by decide) rfl _ Sys.run_of_runs).1

/-- **A marker with the epoch of its data.** -/
theorem marker_epoch_saturates :
    (identitySys .twoPhase).AnyRun (.start nearEnd) rotated ∧
      rotated.given = [(8, 0), (7, i16Max), (7, i16Max - 1), (7, i16Max - 2)] ∧
      rotated.ended.head? = some ([(7, i16Max)], 7, i16Max) :=
  ⟨Sys.run_of_runs, by decide +kernel⟩

end Crabka.Broker.Txn
