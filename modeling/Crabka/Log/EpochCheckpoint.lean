import Crabka.Found.Lists

/-!
# The leader-epoch checkpoint

`crates/log/src/leader_epoch_checkpoint.rs`: the `(epoch, start offset)` pairs of a log and the lookups that divergence
detection uses. Epochs are `i32`, offsets `i64`. `Mirrors` says that there is one entry per epoch of the records, at the
offset where it first occurs; the lookups are then counts (`endOffsetForEpoch_eq`, `latestEpoch_eq`).
-/

namespace Crabka.Log
open List

structure EpochEntry where
  epoch : ℤ
  startOffset : ℤ
  deriving DecidableEq, Repr

def undefinedEpoch : ℤ := -1

def undefinedOffset : ℤ := -1

def isKnown (epoch : ℤ) : Bool := 0 ≤ epoch

/-- The rows of `LeaderEpochCheckpoint`, in the order in which they were recorded. -/
abbrev LeaderEpochCheckpoint := List EpochEntry

namespace LeaderEpochCheckpoint
variable (entries : LeaderEpochCheckpoint)

/-- `append_to`: push if the epoch is absent. -/
def appendTo (epoch startOffset : ℤ) : LeaderEpochCheckpoint :=
  if entries.any (·.epoch == epoch) then entries else entries ++ [⟨epoch, startOffset⟩]

/-- `truncate_to`, the core of `truncate_from_end`. -/
def truncateTo (endOffset : ℤ) : LeaderEpochCheckpoint :=
  entries.filter (·.startOffset < endOffset)

def latestEpoch : Option ℤ := (entries.map (·.epoch)).max?

/-- `end_offset_for_epoch`: the start of the next larger epoch, or the log end. An epoch without
an entry has no end offset. -/
def endOffsetForEpoch (epoch logEndOffset : ℤ) : ℤ :=
  if entries.any (·.epoch == epoch) then
    (((entries.filter (epoch < ·.epoch)).map (·.startOffset)).min?).getD logEndOffset
  else undefinedOffset

/-- The epoch bookkeeping at the end of `Log::append` and `Log::append_at`: a known epoch above the
latest one starts at the batch. -/
def noteEpoch (epoch base : ℤ) : LeaderEpochCheckpoint :=
  if isKnown epoch && (latestEpoch entries).all (· < epoch) then appendTo entries epoch base
  else entries

/-! ## Mirrors of an epoch sequence -/

/-- The entries record the epochs of `eps`, each at its first offset. -/
def Mirrors (eps : List ℤ) : Prop :=
  ∀ x, x ∈ entries ↔ x.epoch ∈ eps ∧ x.startOffset = eps.countP (· < x.epoch)

variable {entries} {eps : List ℤ} {epoch : ℤ}
section
variable (h : Mirrors entries eps)
include h

lemma Mirrors.any_iff : entries.any (·.epoch == epoch) ↔ epoch ∈ eps := by
  simp only [any_eq_true, beq_iff_eq]
  constructor
  · rintro ⟨x, hx, rfl⟩
    exact ((h x).mp hx).1
  · intro hmem
    exact ⟨⟨epoch, eps.countP (· < epoch)⟩, (h _).mpr ⟨hmem, rfl⟩, rfl⟩

/-- **The end of a recorded epoch** is the number of records of this or an earlier epoch. -/
theorem Mirrors.endOffsetForEpoch_eq :
    endOffsetForEpoch entries epoch eps.length =
      if epoch ∈ eps then (eps.countP (· ≤ epoch) : ℤ) else undefinedOffset := by
  unfold endOffsetForEpoch
  by_cases hmem : epoch ∈ eps
  swap
  · rw [if_neg (fun hc => hmem (h.any_iff.mp hc)), if_neg hmem]
  rw [if_pos (h.any_iff.mpr hmem), if_pos hmem]
  set later := (entries.filter (epoch < ·.epoch)).map (·.startOffset) with hlater
  have hmemLater : ∀ z, z ∈ later ↔ ∃ e ∈ eps, epoch < e ∧ z = eps.countP (· < e) := by
    intro z
    simp only [hlater, mem_map, mem_filter, decide_eq_true_eq]
    constructor
    · rintro ⟨x, ⟨hx, hlt⟩, rfl⟩
      obtain ⟨hx, hstart⟩ := (h x).mp hx
      exact ⟨x.epoch, hx, hlt, hstart⟩
    · rintro ⟨e, he, hlt, rfl⟩
      exact ⟨⟨e, eps.countP (· < e)⟩, ⟨(h _).mpr ⟨he, rfl⟩, hlt⟩, rfl⟩
  by_cases hgreater : ∃ e ∈ eps, epoch < e
  · -- the next epoch is the least greater one, and nothing lies between the two
    obtain ⟨e, he, hlt, hleast⟩ : ∃ e ∈ eps, epoch < e ∧ ∀ e' ∈ eps, epoch < e' → e ≤ e' := by
      obtain ⟨e₀, he₀, hlt₀⟩ := hgreater
      have hne : eps.filter (epoch < ·) ≠ [] := by
        intro hnil
        have : e₀ ∈ eps.filter (epoch < ·) := mem_filter.mpr ⟨he₀, by simpa using hlt₀⟩
        simp [hnil] at this
      obtain ⟨e, he⟩ := Option.isSome_iff_exists.mp (isSome_min?_of_ne_nil hne)
      obtain ⟨hmemE, hle⟩ := min?_eq_some_iff.mp he
      obtain ⟨h1, h2⟩ := mem_filter.mp hmemE
      refine ⟨e, h1, by simpa using h2, fun e' he' hlt' => hle e' ?_⟩
      exact mem_filter.mpr ⟨he', by simpa using hlt'⟩
    have hcount : ∀ e', epoch < e' → eps.countP (· ≤ epoch) ≤ eps.countP (· < e') := by
      intro e' hlt'
      refine countP_mono_left fun x _ hx => ?_
      simp only [decide_eq_true_eq] at hx ⊢
      omega
    have hmin : later.min? = some (eps.countP (· ≤ epoch) : ℤ) := by
      refine min?_eq_some_iff.mpr ⟨(hmemLater _).mpr ⟨e, he, hlt, ?_⟩, ?_⟩
      · refine congrArg Nat.cast (countP_congr fun x hx => ?_)
        have := hleast x hx
        simp only [decide_eq_true_eq]
        omega
      · intro z hz
        obtain ⟨e', he', hlt', rfl⟩ := (hmemLater z).mp hz
        exact_mod_cast hcount e' hlt'
    rw [hmin, Option.getD_some]
  · have hnil : later = [] := by
      rw [eq_nil_iff_forall_not_mem]
      intro z hz
      obtain ⟨e, he, hlt, -⟩ := (hmemLater z).mp hz
      exact hgreater ⟨e, he, hlt⟩
    have hall : eps.countP (· ≤ epoch) = eps.length := by
      rw [countP_eq_length]
      intro x hx
      simp only [decide_eq_true_eq]
      by_contra hc
      exact hgreater ⟨x, hx, by omega⟩
    rw [hnil, hall]
    rfl

lemma Mirrors.latestEpoch_eq : latestEpoch entries = eps.max? := by
  unfold latestEpoch
  cases hmax : eps.max? with
  | none =>
    rw [max?_eq_none_iff] at hmax ⊢
    rw [map_eq_nil_iff, eq_nil_iff_forall_not_mem]
    intro x hx
    have := ((h x).mp hx).1
    simp [hmax] at this
  | some e =>
    obtain ⟨hmem, hle⟩ := max?_eq_some_iff.mp hmax
    refine max?_eq_some_iff.mpr ⟨?_, ?_⟩
    · exact mem_map.mpr ⟨⟨e, eps.countP (· < e)⟩, (h _).mpr ⟨hmem, rfl⟩, rfl⟩
    · intro z hz
      obtain ⟨x, hx, rfl⟩ := mem_map.mp hz
      exact hle _ ((h x).mp hx).1

end

lemma Mirrors.nil : Mirrors [] [] := by
  intro x
  simp

/-- **Appending a batch keeps the mirror**: `n + 1` records of an epoch that is known and not below
any earlier one. -/
theorem Mirrors.noteEpoch (h : Mirrors entries eps) (hknown : 0 ≤ epoch) (hle : ∀ e ∈ eps, e ≤ epoch) (n : ℕ) :
    Mirrors (noteEpoch entries epoch eps.length) (eps ++ replicate (n + 1) epoch) := by
  -- records of `epoch` do not move the starts of the epochs up to `epoch`
  have hcount : ∀ e, e ≤ epoch → (eps ++ replicate (n + 1) epoch).countP (· < e) = eps.countP (· < e) := by
    intro e he
    rw [countP_append, countP_replicate]
    simp [he]
  have hmem : ∀ e, e ∈ eps ++ replicate (n + 1) epoch ↔ e ∈ eps ∨ e = epoch := by
    intro e
    simp [mem_append, mem_replicate]
  have hnote : LeaderEpochCheckpoint.noteEpoch entries epoch eps.length =
      if epoch ∈ eps then entries else entries ++ [⟨epoch, eps.length⟩] := by
    unfold LeaderEpochCheckpoint.noteEpoch
    rw [h.latestEpoch_eq]
    by_cases hin : epoch ∈ eps
    · have hmax : eps.max? = some epoch := max?_eq_some_iff.mpr ⟨hin, hle⟩
      simp [hmax, hin]
    · have hbelow : eps.max?.all (· < epoch) := by
        cases hmax : eps.max? with
        | none => rfl
        | some e =>
          obtain ⟨he, -⟩ := max?_eq_some_iff.mp hmax
          have hne : e ≠ epoch := fun heq => hin (heq ▸ he)
          have := hle e he
          simp only [Option.all_some, decide_eq_true_eq]
          omega
      have habsent : entries.any (·.epoch == epoch) ≠ true := fun hc => hin (h.any_iff.mp hc)
      simp only [isKnown, hknown, decide_true, hbelow, Bool.and_self, if_true, appendTo, if_neg habsent, if_neg hin]
  rw [hnote]
  intro x
  rw [hmem]
  by_cases hin : epoch ∈ eps
  · rw [if_pos hin, h x]
    constructor
    · rintro ⟨hx, hstart⟩
      exact ⟨.inl hx, by rw [hstart, hcount _ (hle _ hx)]⟩
    · rintro ⟨hx | hx, hstart⟩
      · exact ⟨hx, by rw [hstart, hcount _ (hle _ hx)]⟩
      · exact ⟨hx ▸ hin, by rw [hstart, hcount _ hx.le]⟩
  · have hfirst : eps.countP (· < epoch) = eps.length := by
      rw [countP_eq_length]
      intro e he
      have hne : e ≠ epoch := fun heq => hin (heq ▸ he)
      have := hle e he
      simp only [decide_eq_true_eq]
      omega
    rw [if_neg hin, mem_append, mem_singleton, h x]
    constructor
    · rintro (⟨hx, hstart⟩ | rfl)
      · exact ⟨.inl hx, by rw [hstart, hcount _ (hle _ hx)]⟩
      · exact ⟨.inr rfl, by rw [hcount _ le_rfl, hfirst]⟩
    · rintro ⟨hx | hx, hstart⟩
      · exact .inl ⟨hx, by rw [hstart, hcount _ (hle _ hx)]⟩
      · refine .inr ?_
        rw [hcount _ hx.le, hx, hfirst] at hstart
        cases x
        simp_all

end LeaderEpochCheckpoint
end Crabka.Log
