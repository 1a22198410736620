import Crabka.Found.Maps
import Crabka.Found.Runs
import Crabka.Kraft.Log.KraftLog

/-!
# Voter sets in the log

`KraftControlState` of `crates/raft/src/kraft/controller.rs`: the voter sets and `kraft.version`s of the control records
in the log, keyed by offset, next to the committed ones, and the calls that edit it (`controlSys`). `TrackInv` says how
one kind of record stands to the log, and each edit keeps it.
-/

namespace Crabka.Kraft
open List hiding getElem?_filter getElem?_insert
open Found
open Std (ExtTreeMap)

/-! ## The control state -/

/-- A control record as the engine decodes it. `invalid` is one that does not decode, or does not
convert. -/
inductive ControlRecord where
  | kraftVersion (version : ℕ)
  | voters (voters : VoterSet)
  | other
  | invalid
  deriving DecidableEq

namespace ControlRecord

def votersOf : ControlRecord → Option VoterSet
  | .voters vs => some vs
  | _ => none

def versionOf : ControlRecord → Option ℕ
  | .kraftVersion v => some v
  | _ => none

end ControlRecord

/-- The history of one kind of record, and its committed value: `voter_history` with
`committed_voters`, and `version_history` with `committed_version`. -/
structure ControlTrack (α : Type) where
  history : ExtTreeMap ℤ α
  committed : α

namespace ControlTrack
variable {α : Type} (t : ControlTrack α)

/-- The track of `KraftControlState::new`: the value is older than the log. -/
def new (a : α) : ControlTrack α := ⟨(∅ : ExtTreeMap ℤ α).insert (-1) a, a⟩

/-- `latest_voters`, `latest_version`. -/
def latest : α := (t.history.toList.getLast?.map Prod.snd).getD t.committed

/-- `voters_at`, `version_at`: the last entry below an offset. -/
def atEnd (endOffset : ℤ) : α :=
  ((t.history.toList.filter (·.1 < endOffset)).getLast?.map Prod.snd).getD t.committed

def note (offset : ℤ) (a : α) : ControlTrack α := { t with history := t.history.insert offset a }

def truncateTo (offset : ℤ) : ControlTrack α :=
  { t with history := t.history.filter fun k _ => k < offset }

def commitTo (highWatermark : ℤ) : ControlTrack α := { t with committed := t.atEnd highWatermark }

end ControlTrack

structure KraftControlState where
  voters : ControlTrack VoterSet
  version : ControlTrack ℕ

namespace KraftControlState
variable (s : KraftControlState)

def new (voters : VoterSet) (version : ℕ) : KraftControlState := ⟨.new voters, .new version⟩

/-- `apply`, after the decoding; an invalid record is an error. -/
def apply (offset : ℤ) : ControlRecord → Option KraftControlState
  | .kraftVersion v => some { s with version := s.version.note offset v }
  | .voters vs => some { s with voters := s.voters.note offset vs }
  | .other => some s
  | .invalid => none

/-- The loop of `apply_control_batch`, which stops at an error. -/
def applyRecords (base : ℤ) : List (Record ControlRecord) → KraftControlState → KraftControlState
  | [], s => s
  | r :: rs, s => match s.apply (base + r.offsetDelta) r.payload with
    | some s' => applyRecords base rs s'
    | none => s

def applyControlBatch (b : RecordBatch ControlRecord) : KraftControlState :=
  if b.isControlBatch then applyRecords b.baseOffset b.records s else s

end KraftControlState

/-- `replay_control_records` for one kind of record: the batches that start below the high watermark,
with reads that pass over none of them. -/
def replayControlRecords {α : Type} (pick : ControlRecord → Option α) (target : ℤ)
    (bs : List (RecordBatch ControlRecord)) (initial : α) : α :=
  bs.foldl
    (fun a b => if target ≤ b.baseOffset || !b.isControlBatch then a
      else b.records.foldl (fun a r => (pick r.payload).getD a) a) initial

/-! ## One node -/

structure ControlNode where
  log : KraftLog ControlRecord := {}
  controls : KraftControlState

/-- Appends, truncations, watermark advances and restarts. -/
inductive ControlStep where
  /-- The leader's append, or a fetched batch at the log end. -/
  | append (b : RecordBatch ControlRecord)
  | truncateTo (offset : ℤ)
  | advance (newHwm : ℤ)
  /-- `KraftController::open`, with what the quorum-state file says. -/
  | restart (voters : VoterSet) (version : ℕ)

/-- A batch as the writers build it: its records are in the order of their offsets. -/
def RecordBatch.Ordered {ρ : Type} (b : RecordBatch ρ) : Prop :=
  (b.records.map Record.offsetDelta).Pairwise (· < ·) ∧ ∀ r ∈ b.records, r.offsetDelta ≤ b.lastOffsetDelta

def reopenedControls (log : KraftLog ControlRecord) (voters : VoterSet) (version : ℕ) :
    KraftControlState :=
  .new (replayControlRecords ControlRecord.votersOf log.hwm log.batches voters)
    (replayControlRecords ControlRecord.versionOf log.hwm log.batches version)

/-- A node, step by step. Truncations go to offsets that are not below the high watermark. -/
def controlSys : Sys ControlNode ControlStep where
  enabled n
    | .append b => b.Ordered
    | .truncateTo offset => n.log.hwm ≤ offset
    | .advance _ => True
    | .restart _ _ => True
  next n
    | .append b =>
      { log := (n.log.append b).1
        controls := n.controls.applyControlBatch (b.atBase n.log.logEndOffset) }
    | .truncateTo offset => match n.log.truncateTo offset with
      | .ok log => ⟨log, ⟨n.controls.voters.truncateTo offset, n.controls.version.truncateTo offset⟩⟩
      | .error _ => n
    | .advance newHwm =>
      let log := n.log.advanceHwm newHwm
      ⟨log, ⟨n.controls.voters.commitTo log.hwm, n.controls.version.commitTo log.hwm⟩⟩
    | .restart voters version =>
      let log := { n.log with
        hwm := min (max n.log.hwm n.log.logStartOffset) n.log.logEndOffset }
      ⟨log, reopenedControls log voters version⟩

/-- The control records of one kind in the log, with their offsets. -/
def controlEntries {α : Type} (pick : ControlRecord → Option α)
    (bs : List (RecordBatch ControlRecord)) : List (ℤ × α) :=
  bs.flatMap fun b => if b.isControlBatch then
    b.records.filterMap fun r => (pick r.payload).map fun a => (b.baseOffset + r.offsetDelta, a)
    else []

/-- No invalid record is appended, a truncation cuts between batches, and no control record lies at or above the high
watermark at a restart. -/
def Accounted (n : ControlNode) : ControlStep → Prop
  | .append b => b.isControlBatch = true → ∀ r ∈ b.records, r.payload ≠ .invalid
  | .truncateTo offset => ∀ b ∈ n.log.batches, b.baseOffset < offset → b.lastOffset < offset
  | .advance _ => True
  | .restart _ _ => (∀ e ∈ controlEntries ControlRecord.votersOf n.log.batches, e.1 < n.log.hwm) ∧
      ∀ e ∈ controlEntries ControlRecord.versionOf n.log.batches, e.1 < n.log.hwm

instance {ρ : Type} (b : RecordBatch ρ) : Decidable b.Ordered :=
  inferInstanceAs (Decidable (_ ∧ _))

instance (n : ControlNode) (a : ControlStep) : Decidable (controlSys.enabled n a) := by
  cases a <;> unfold controlSys <;> infer_instance

instance (n : ControlNode) (a : ControlStep) : Decidable (Accounted n a) := by
  cases a <;> unfold Accounted <;> infer_instance

/-! ## Newest entries -/

section newest
variable {α : Type} {es : List (ℤ × α)} {n : ℤ} {v : α} {t : ControlTrack α}

/-- The value of the newest entry below an offset. -/
def IsNewest (es : List (ℤ × α)) (n : ℤ) (v : α) : Prop :=
  ∃ k < n, (k, v) ∈ es ∧ ∀ e ∈ es, e.1 < n → e.1 ≤ k

/-- Once there is a committed entry, the committed value is that of the newest one; the latest value is that of the
newest entry. -/
def FollowsLog (es : List (ℤ × α)) (hwm logEnd : ℤ) (t : ControlTrack α) : Prop :=
  (∃ e ∈ es, e.1 < hwm) → IsNewest es hwm t.committed ∧ IsNewest es logEnd t.latest

instance [DecidableEq α] : Decidable (IsNewest es n v) :=
  decidable_of_iff (∃ e ∈ es, e.1 < n ∧ e.2 = v ∧ ∀ e' ∈ es, e'.1 < n → e'.1 ≤ e.1)
    ⟨fun ⟨e, he, hlt, hv, hmax⟩ => ⟨e.1, hlt, hv ▸ he, hmax⟩,
      fun ⟨k, hk, hmem, hmax⟩ => ⟨(k, v), hmem, hk, rfl, hmax⟩⟩

instance [DecidableEq α] {hwm logEnd : ℤ} : Decidable (FollowsLog es hwm logEnd t) :=
  inferInstanceAs (Decidable ((∃ e ∈ es, e.1 < hwm) → _ ∧ _))

lemma exists_isNewest (h : ∃ e ∈ es, e.1 < n) : ∃ v, IsNewest es n v := by
  induction es with
  | nil =>
    obtain ⟨e, he, -⟩ := h
    cases he
  | cons x es ih =>
    by_cases hrest : ∃ e ∈ es, e.1 < n
    · obtain ⟨v, k, hk, hmem, hmax⟩ := ih hrest
      by_cases hx : x.1 < n ∧ k < x.1
      · refine ⟨x.2, x.1, hx.1, mem_cons_self, fun e he hlt => ?_⟩
        rcases mem_cons.mp he with rfl | he
        · exact le_rfl
        · exact (hmax e he hlt).trans hx.2.le
      · refine ⟨v, k, hk, mem_cons_of_mem _ hmem, fun e he hlt => ?_⟩
        rcases mem_cons.mp he with rfl | he
        · exact not_lt.mp fun hlt' => hx ⟨hlt, hlt'⟩
        · exact hmax e he hlt
    · obtain ⟨e, he, hlt⟩ := h
      rcases mem_cons.mp he with rfl | he
      · refine ⟨e.2, e.1, hlt, mem_cons_self, fun e' he' hlt' => ?_⟩
        rcases mem_cons.mp he' with rfl | he'
        · exact le_rfl
        · exact absurd ⟨e', he', hlt'⟩ hrest
      · exact absurd ⟨e, he, hlt⟩ hrest

lemma getLast?_filter_toList {m : ExtTreeMap ℤ α} {p : ℤ → Bool} {k : ℤ} (hk : m[k]? = some v)
    (hp : p k) (hmax : ∀ (k' : ℤ) v', m[k']? = some v' → p k' → k' ≤ k) :
    (m.toList.filter fun e => p e.1).getLast? = some (k, v) := by
  have hmem : (k, v) ∈ m.toList.filter fun e => p e.1 := mem_filter.mpr ⟨(mem_toList m).mpr hk, hp⟩
  have hsorted : (m.toList.filter fun e => p e.1).Pairwise
      fun a b => compare a.1 b.1 = Ordering.lt :=
    (ExtTreeMap.ordered_keys_toList (t := m)).filter _
  rcases eq_nil_or_concat' (m.toList.filter fun e => p e.1) with hnil | ⟨init, last, hlast⟩
  · rw [hnil] at hmem
    cases hmem
  · rw [hlast] at hmem hsorted ⊢
    rw [List.getLast?_concat]
    rcases mem_snoc.mp hmem with hin | hin
    · have hlt := compare_lt_iff_lt.mp
        ((pairwise_append.mp hsorted).2.2 _ hin last mem_cons_self)
      have hlast' : last ∈ m.toList.filter fun e => p e.1 := by
        rw [hlast]
        exact mem_append_cons_self
      obtain ⟨hget, hp'⟩ := mem_filter.mp hlast'
      exact absurd (hmax last.1 last.2 ((mem_toList m).mp hget) hp') (not_le.mpr hlt)
    · rw [hin]

lemma atEnd_eq {k : ℤ} (hk : t.history[k]? = some v) (hlt : k < n)
    (hmax : ∀ (k' : ℤ) v', t.history[k']? = some v' → k' < n → k' ≤ k) : t.atEnd n = v := by
  unfold ControlTrack.atEnd
  rw [getLast?_filter_toList (p := fun k => decide (k < n)) hk (by simpa using hlt)
    fun k' v' hk' hp => hmax k' v' hk' (by simpa using hp)]
  rfl

lemma latest_eq_atEnd (h : ∀ (k : ℤ) v, t.history[k]? = some v → k < n) : t.latest = t.atEnd n := by
  unfold ControlTrack.latest ControlTrack.atEnd
  rw [filter_eq_self.mpr]
  rintro ⟨k, v⟩ hmem
  simpa using h k v ((mem_toList _).mp hmem)

/-! ## The invariant of a track -/

/-- The history of a track has the entries from some offset on, and before them the newest of the rest;
the committed value is the newest one. -/
structure TrackInv (es : List (ℤ × α)) (hwm : ℤ) (t : ControlTrack α) : Prop where
  sorted : es.Pairwise fun a b => a.1 < b.1
  nonneg : ∀ e ∈ es, 0 ≤ e.1
  history : ∃ start seed, 0 ≤ start ∧ start ≤ hwm ∧
    (∀ (k : ℤ) v, t.history[k]? = some v ↔ k = -1 ∧ v = seed ∨ start ≤ k ∧ (k, v) ∈ es) ∧
    ((∃ e ∈ es, e.1 < start) → IsNewest es start seed)
  committed : (∃ e ∈ es, e.1 < hwm) → IsNewest es hwm t.committed

namespace TrackInv
variable {hwm : ℤ}

lemma isNewest_atEnd (h : TrackInv es hwm t) (hn : hwm ≤ n) (hex : ∃ e ∈ es, e.1 < n) :
    IsNewest es n (t.atEnd n) := by
  obtain ⟨start, seed, hstart, hle, hhist, hseed⟩ := h.history
  obtain ⟨v, k, hk, hmem, hmax⟩ := exists_isNewest hex
  by_cases hin : start ≤ k
  · have hlast : t.atEnd n = v := by
      refine atEnd_eq ((hhist k v).mpr (.inr ⟨hin, hmem⟩)) hk fun k' v' hk' hlt => ?_
      rcases (hhist k' v').mp hk' with ⟨rfl, -⟩ | ⟨-, hmem'⟩
      · have := h.nonneg _ hmem
        simp only at this
        omega
      · exact hmax _ hmem' hlt
    rw [hlast]
    exact ⟨k, hk, hmem, hmax⟩
  · -- All entries are below the start, and the seed stands for them.
    obtain ⟨k₀, hk₀, hmem₀, hmax₀⟩ := hseed ⟨_, hmem, not_le.mp hin⟩
    have hlast : t.atEnd n = seed := by
      refine atEnd_eq ((hhist (-1) seed).mpr (.inl ⟨rfl, rfl⟩)) (by omega) fun k' v' hk' hlt => ?_
      rcases (hhist k' v').mp hk' with ⟨rfl, -⟩ | ⟨hge, hmem'⟩
      · exact le_rfl
      · have := hmax _ hmem' hlt
        simp only at this
        omega
    rw [hlast]
    refine ⟨k₀, by omega, hmem₀, fun e he hlt => hmax₀ e he ?_⟩
    have := hmax e he hlt
    omega

lemma followsLog (h : TrackInv es hwm t) {logEnd : ℤ} (hle : hwm ≤ logEnd)
    (hbound : ∀ e ∈ es, e.1 < logEnd) : FollowsLog es hwm logEnd t := by
  rintro ⟨e, he, hlt⟩
  refine ⟨h.committed ⟨e, he, hlt⟩, ?_⟩
  obtain ⟨start, seed, hstart, hle', hhist, -⟩ := h.history
  rw [latest_eq_atEnd (n := logEnd) fun k v hk => ?_]
  · exact h.isNewest_atEnd hle ⟨e, he, by omega⟩
  · rcases (hhist k v).mp hk with ⟨rfl, -⟩ | ⟨-, hmem⟩
    · omega
    · exact hbound _ hmem

lemma new (hsorted : es.Pairwise fun a b => a.1 < b.1) (hnonneg : ∀ e ∈ es, 0 ≤ e.1)
    (hhwm : 0 ≤ hwm) (hbelow : ∀ e ∈ es, e.1 < hwm)
    (hnew : (∃ e ∈ es, e.1 < hwm) → IsNewest es hwm v) : TrackInv es hwm (.new v) where
  sorted := hsorted
  nonneg := hnonneg
  history := by
    refine ⟨hwm, v, hhwm, le_rfl, fun k a => ?_, hnew⟩
    unfold ControlTrack.new
    rw [getElem?_insert]
    constructor
    · intro hk
      split_ifs at hk with heq
      · exact .inl ⟨heq, (Option.some.inj hk).symm⟩
      · simp at hk
    · rintro (⟨rfl, rfl⟩ | ⟨hge, hmem⟩)
      · simp
      · exact absurd (hbelow _ hmem) (not_lt.mpr hge)
  committed := hnew

section
variable (h : TrackInv es hwm t)
include h

lemma note {k : ℤ} (hk : ∀ e ∈ es, e.1 < k) (hge : hwm ≤ k) (a : α) :
    TrackInv (es ++ [(k, a)]) hwm (t.note k a) := by
  obtain ⟨start, seed, hstart, hle, hhist, hseed⟩ := h.history
  have hbelow : ∀ {m : ℤ} {v : α}, m ≤ hwm → (∃ e ∈ es ++ [(k, a)], e.1 < m) →
      ((∃ e ∈ es, e.1 < m) → IsNewest es m v) → IsNewest (es ++ [(k, a)]) m v := by
    rintro m v hm ⟨e, he, hlt⟩ hold
    have hold' : ∀ e ∈ es ++ [(k, a)], e.1 < m → e ∈ es := by
      intro e he hlt
      rcases mem_snoc.mp he with he | he
      · exact he
      · rw [he] at hlt
        simp only at hlt
        omega
    obtain ⟨k', hk', hmem, hmax⟩ := hold ⟨e, hold' e he hlt, hlt⟩
    exact ⟨k', hk', mem_append_left _ hmem, fun e he hlt => hmax e (hold' e he hlt) hlt⟩
  refine
    { sorted := pairwise_append.mpr ⟨h.sorted, pairwise_singleton _ _, fun e he x hx => by
        rw [mem_singleton.mp hx]
        exact hk e he⟩
      nonneg := fun e he => ?_
      history := ⟨start, seed, hstart, hle, fun k' v => ?_, fun hex => hbelow hle hex hseed⟩
      committed := fun hex => hbelow le_rfl hex h.committed }
  · rcases mem_snoc.mp he with he | he
    · exact h.nonneg e he
    · rw [he]
      simp only
      omega
  · unfold ControlTrack.note
    rw [getElem?_insert]
    simp only [mem_append, mem_singleton, Prod.mk.injEq]
    split
    · rename_i heq
      subst heq
      constructor
      · intro hv
        exact .inr ⟨by omega, .inr ⟨rfl, (Option.some.inj hv).symm⟩⟩
      · rintro (⟨rfl, -⟩ | ⟨-, hmem | ⟨-, rfl⟩⟩)
        · omega
        · exact absurd (hk _ hmem) (lt_irrefl _)
        · rfl
    · rename_i hne
      rw [hhist]
      constructor
      · rintro (hseed' | ⟨hge', hmem⟩)
        · exact .inl hseed'
        · exact .inr ⟨hge', .inl hmem⟩
      · rintro (hseed' | ⟨hge', hmem | ⟨rfl, -⟩⟩)
        · exact .inl hseed'
        · exact .inr ⟨hge', hmem⟩
        · exact absurd rfl hne

lemma notes {new : List (ℤ × α)}
    (hsorted : new.Pairwise fun a b => a.1 < b.1) (hafter : ∀ e ∈ es, ∀ x ∈ new, e.1 < x.1)
    (hge : ∀ x ∈ new, hwm ≤ x.1) :
    TrackInv (es ++ new) hwm (new.foldl (fun t e => t.note e.1 e.2) t) := by
  induction new generalizing es t with
  | nil => rwa [append_nil]
  | cons x new ih =>
    obtain ⟨hx, hnew⟩ := pairwise_cons.mp hsorted
    have hstep := h.note (fun e he => hafter e he x mem_cons_self) (hge x mem_cons_self) x.2
    rw [append_cons]
    refine ih hstep hnew (fun e he y hy => ?_) fun y hy => hge y (mem_cons_of_mem _ hy)
    rcases mem_snoc.mp he with he | he
    · exact hafter e he y (mem_cons_of_mem _ hy)
    · rw [he]
      exact hx y hy

lemma truncateTo (ho : hwm ≤ n) : TrackInv (es.filter (·.1 < n)) hwm (t.truncateTo n) := by
  obtain ⟨start, seed, hstart, hle, hhist, hseed⟩ := h.history
  have hbelow : ∀ {m : ℤ} {v : α}, m ≤ hwm → (∃ e ∈ es.filter (·.1 < n), e.1 < m) →
      ((∃ e ∈ es, e.1 < m) → IsNewest es m v) → IsNewest (es.filter (·.1 < n)) m v := by
    rintro m v hm ⟨e, he, hlt⟩ hold
    obtain ⟨k, hk, hmem, hmax⟩ := hold ⟨e, mem_of_mem_filter he, hlt⟩
    exact ⟨k, hk, mem_filter.mpr ⟨hmem, by simp only [decide_eq_true_eq]; omega⟩,
      fun e he hlt => hmax e (mem_of_mem_filter he) hlt⟩
  refine
    { sorted := h.sorted.filter _
      nonneg := fun e he => h.nonneg e (mem_of_mem_filter he)
      history := ⟨start, seed, hstart, hle, fun k v => ?_, fun hex => hbelow hle hex hseed⟩
      committed := fun hex => hbelow le_rfl hex h.committed }
  unfold ControlTrack.truncateTo
  rw [getElem?_filter, Option.filter_eq_some_iff, hhist, mem_filter]
  simp only [decide_eq_true_eq]
  constructor
  · rintro ⟨hseed' | ⟨hge, hmem⟩, hlt⟩
    · exact .inl hseed'
    · exact .inr ⟨hge, hmem, hlt⟩
  · rintro (⟨rfl, rfl⟩ | ⟨hge, hmem, hlt⟩)
    · exact ⟨.inl ⟨rfl, rfl⟩, by omega⟩
    · exact ⟨.inr ⟨hge, hmem⟩, hlt⟩

lemma commitTo (hn : hwm ≤ n) : TrackInv es n (t.commitTo n) := by
  obtain ⟨start, seed, hstart, hle, hhist, hseed⟩ := h.history
  exact
    { sorted := h.sorted
      nonneg := h.nonneg
      history := ⟨start, seed, hstart, hle.trans hn, hhist, hseed⟩
      committed := fun hex => h.isNewest_atEnd hn hex }

end
end TrackInv
end newest
end Crabka.Kraft
