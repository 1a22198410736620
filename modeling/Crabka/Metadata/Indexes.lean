import Crabka.Metadata.Fidelity

/-!
# The indexes of the image

The id index, the partition counts and the per-topic maps agree with the live topics when no topic takes the id of
another live one, no count passes its `i32`, and offsets are advanced for live topics only (`indexes_consistent`).
`validate` asks for none of the three (`offset_advance_without_topic`).
-/

namespace Crabka.Metadata
open Option Found
open Kraft (Uuid)
open Std (ExtTreeMap)
open MetadataImage
namespace MetadataImage
variable {I : MetadataImage} {clusterId : Uuid}

/-- The number of partition records of a topic. -/
def partitionEntries (I : MetadataImage) (topic : String) : ℕ := (I.partitions[topic]?.map (·.size)).getD 0

/-- The derived maps say what the topics and partitions say. -/
structure Indexed (I : MetadataImage) : Prop where
  topicIds : ∀ (id : Uuid) n, I.topicIds[id]? = some n ↔ ∃ t, I.topics[n]? = some t ∧ t.topicId = id
  count : ∀ (n : String) t, I.topics[n]? = some t → t.partitions = I.partitionEntries n
  partitions : ∀ n, I.partitions.contains n → I.topics.contains n
  nextOffsets : ∀ k, I.partitionNextOffsets.contains k → I.topics.contains k.1
  topicConfigs : ∀ n, I.topicConfigs.contains n → I.topics.contains n

/-- The id of a topic is new or its own, a new partition is counted, and an offset that is advanced
has a live topic. -/
def KeepsIndexes (I : MetadataImage) : MetadataRecord → Prop
  | .v1Topic t => ∀ e ∈ I.topics.toList, e.2.topicId = t.topicId → e.1 = t.name
  | .v1Partition p => (I.partition p.topic p.partition).isNone → (I.partitionEntries p.topic : ℤ) < i32Max
  | .v1PartitionOffsetAdvance r => I.topics.contains r.topic
  | _ => True

instance : ∀ rec, Decidable (KeepsIndexes I rec) := by
  intro rec
  apply rec.casesOn (motive := fun rec => Decidable (KeepsIndexes I rec)) <;> intro _ <;>
    dsimp only [KeepsIndexes] <;> infer_instance

/-- What the run condition adds to `WellFormed`. -/
structure IndexInv (I : MetadataImage) : Prop where
  wellFormed : WellFormed I
  ids : IdsNamed I
  offsets : ∀ (k : String × ℤ) v, I.partitionNextOffsets[k]? = some v → I.topics.contains k.1
  small : ∀ n, (I.partitionEntries n : ℤ) ≤ i32Max

/-- **A record that `validate` accepts and that keeps to the condition keeps the indexes.** -/
lemma IndexInv.apply (h : IndexInv I) {rec : MetadataRecord} (hacc : I.accepts rec)
    (hok : KeepsIndexes I rec) : IndexInv (I.apply rec) := by
  have hwf := h.wellFormed.apply hacc
  have hids : IdsNamed (I.apply rec) := by
    refine h.ids.apply h.wellFormed (?_ : ∀ t, _ = _ → Faithful 0 I rec) hacc
    rintro t rfl hnew n t' ht' hid
    obtain rfl := hok (n, t') ((mem_toList _).mpr ht') hid
    cases hnew.symm.trans ht'
  cases rec with
  | v1Topic t => exact ⟨hwf, hids, fun k v hv => by simp [MetadataImage.apply, h.offsets k v hv], h.small⟩
  | v1Partition p =>
    refine ⟨hwf, hids, fun k v hv => (contains_modify _ _ _ _).trans (h.offsets k v hv), fun n => ?_⟩
    have hold := h.small n
    simp only [KeepsIndexes, partition, partitionEntries, MetadataImage.apply, upsert, getElem?_insert] at hok hold ⊢
    split_ifs with hn
    · subst hn
      cases hp : I.partitions[p.topic]? with
      | none => simp [size_insert_partition, i32Max]
      | some parts =>
        rw [hp] at hok hold
        simp only [map_some, getD_some, bind_some, size_insert_partition] at hok hold ⊢
        split_ifs with hnew
        · have := hok hnew
          omega
        · exact hold
    · exact hold
  | v1DeleteTopic name =>
    refine ⟨hwf, hids, fun k v hv => ?_, fun n => ?_⟩
    · simp only [MetadataImage.apply, getElem?_filter, filter_eq_some_iff, bne_iff_ne] at hv
      simp [MetadataImage.apply, h.offsets k v hv.1, Ne.symm hv.2]
    · simp only [partitionEntries, MetadataImage.apply, getElem?_erase]
      split_ifs
      · simp [i32Max]
      · exact h.small n
  | v1PartitionOffsetAdvance r => exact ⟨hwf, hids, forall_insert h.offsets hok, h.small⟩
  | v1PartitionDirAssignment r =>
    refine ⟨hwf, hids, h.offsets, fun n => ?_⟩
    have hsize : (I.apply (.v1PartitionDirAssignment r)).partitionEntries n = I.partitionEntries n := by
      simp only [partitionEntries, MetadataImage.apply, getElem?_modify]
      split_ifs
      · cases I.partitions[n]? <;> simp [ExtTreeMap.size_modify]
      · rfl
    exact hsize ▸ h.small n
  | v1AccessControlEntry e =>
    cases hp : e.patternType <;>
    · simp only [MetadataImage.apply, hp] at hwf hids ⊢
      exact ⟨hwf, hids, h.offsets, h.small⟩
  | v1ProducerIds r =>
    simp only [MetadataImage.apply] at hwf hids ⊢
    split_ifs at hwf hids ⊢ <;> exact ⟨hwf, hids, h.offsets, h.small⟩
  | _ => exact ⟨hwf, hids, h.offsets, h.small⟩

lemma IndexInv.indexed (h : IndexInv I) : Indexed I where
  topicIds id n := ⟨h.wellFormed.topicId id n, fun ⟨t, ht, hid⟩ => hid ▸ h.ids n t ht⟩
  count n t ht := by
    have hsmall := h.small n
    rw [h.wellFormed.topicCount n t ht]
    unfold partitionEntries at hsmall ⊢
    unfold topicPartitionCount
    cases hp : I.partitions[n]? with
    | none => rfl
    | some parts =>
      rw [hp] at hsmall
      exact min_eq_left hsmall
  partitions n hn := by
    obtain ⟨parts, hp⟩ := exists_of_contains hn
    exact (h.wellFormed.partitionOwner n parts hp).1
  nextOffsets k hk := by
    obtain ⟨v, hv⟩ := exists_of_contains hk
    exact h.offsets k v hv
  topicConfigs n hn := by
    obtain ⟨c, hc⟩ := exists_of_contains hn
    exact h.wellFormed.topicConfigOwner n c hc

/-- **The indexes are consistent.** -/
theorem indexes_consistent (h : records.Run KeepsIndexes (new clusterId) I) : Indexed I := by
  have hinv : IndexInv I := Sys.Run.preserves h (fun _ _ hI hacc hok => hI.apply hacc hok)
    ⟨WellFormed.new, fun n t ht => by simp [new] at ht,
      fun k v hv => by simp [new] at hv, fun n => by simp [partitionEntries, new, i32Max]⟩
  exact hinv.indexed

/-- A topic with a partition, whose offset is advanced. -/
theorem indexes_consistent_orders :
    Indexed ((new 0).applyAll [.v1Topic ⟨"orders", 7, 1, 1⟩,
      .v1Partition ⟨"orders", 0, 1, [1], [1], 0, [], [], [], 0⟩, .v1PartitionOffsetAdvance ⟨"orders", 0, 5⟩]) :=
  indexes_consistent Sys.run_of_runsOk

/-- **A counterexample**: `validate` accepts an advance for a topic that does not exist. -/
theorem offset_advance_without_topic :
    records.AnyRun (new 0) ((new 0).applyAll [.v1PartitionOffsetAdvance ⟨"orders", 0, 5⟩]) ∧
      ¬ Indexed ((new 0).applyAll [.v1PartitionOffsetAdvance ⟨"orders", 0, 5⟩]) :=
  ⟨Sys.run_of_runs, fun h => absurd (h.nextOffsets ("orders", 0) (by decide +kernel)) (by decide +kernel)⟩

end MetadataImage
end Crabka.Metadata
