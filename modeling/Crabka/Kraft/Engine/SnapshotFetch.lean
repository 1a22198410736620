import Crabka.Found.Runs
import Crabka.Kraft.Core.Types

/-!
# A follower reassembles a snapshot

`crates/kraft-core/src/snapshot_fetch.rs`, with a leader's byte ranges (`SnapshotReader::byte_range`) and the exchange
that `on_fetch_snapshot_response` drives. An honest leader's snapshot arrives whole, and no sequence of responses
completes to anything but the chunks that were accepted, in their order (`snapshot_reassembled`). The engine drops the
state after a `Complete` or a `Restart`; here it may be fed on.
-/

namespace Crabka.Kraft
open Found List

/-- End offset and epoch. -/
abbrev SnapshotId := ℤ × ℤ

/-- `METADATA_SNAPSHOT_FETCH_HARD_MAX`: 1 GiB. -/
def metadataSnapshotFetchHardMax : ℕ := 2 ^ 30

structure MetadataSnapshotFetchMax where
  bytes : ℕ
  pos : 1 ≤ bytes
  le_hardMax : bytes ≤ metadataSnapshotFetchHardMax

/-- `i64::try_from(len).unwrap_or(i64::MAX)`. -/
def lenI64 (bytes : List UInt8) : ℤ := min bytes.length (2 ^ 63 - 1)

lemma lenI64_eq {limit : MetadataSnapshotFetchMax} {bytes : List UInt8} (h : bytes.length ≤ limit.bytes) :
    lenI64 bytes = bytes.length := by
  have hle := limit.le_hardMax
  unfold metadataSnapshotFetchHardMax at hle
  unfold lenI64
  omega

/-- The fetcher of one snapshot. -/
structure SnapshotFetchState where
  snapshotId : SnapshotId
  buf : List UInt8 := []
  size : Option ℤ := none
  maxSize : MetadataSnapshotFetchMax

inductive SnapshotFetchStep where
  | continue (nextPosition : ℤ)
  | complete (bytes : List UInt8)
  | restart

/-- A `FetchSnapshot` response without an error. -/
structure SnapshotChunk where
  id : SnapshotId
  size : ℤ
  position : ℤ
  chunk : List UInt8

namespace SnapshotFetchState

def withMax (snapshotId : SnapshotId) (maxSize : MetadataSnapshotFetchMax) :
    SnapshotFetchState := { snapshotId, maxSize }

def nextPosition (s : SnapshotFetchState) : ℤ := lenI64 s.buf

def onChunk (s : SnapshotFetchState) (r : SnapshotChunk) : SnapshotFetchState × SnapshotFetchStep :=
  if r.id ≠ s.snapshotId ∨ r.position ≠ s.nextPosition ∨ r.size < 0 ∨ r.size > s.maxSize.bytes then
    (s, .restart)
  else if s.size.any (· != r.size) then (s, .restart)
  else
    let s := { s with size := some r.size }
    if lenI64 r.chunk > r.size - r.position then (s, .restart)
    else
      let s := { s with buf := s.buf ++ r.chunk }
      if s.nextPosition ≥ r.size then ({ s with buf := [] }, .complete s.buf)
      else (s, .continue s.nextPosition)

end SnapshotFetchState

/-! ## The leader -/

def byteRange (bytes : List UInt8) (position max : ℕ) : List UInt8 :=
  let start := min position bytes.length
  let stop := min (min (start + max) u64Max) bytes.length
  (bytes.take stop).drop start

/-- The answer to a request for `id`, whose checkpoint has the bytes. -/
def serveSnapshot (id : SnapshotId) (bytes : List UInt8) (position maxBytes : ℤ) : SnapshotChunk where
  id := id
  size := lenI64 bytes
  position := position
  chunk := byteRange bytes position.toNat maxBytes.toNat

/-- Requests and answers, from a position on, until the follower asks for nothing more. -/
def fetchLoop (bytes : List UInt8) (maxBytes : ℤ) :
    ℕ → SnapshotFetchState → ℤ → Option SnapshotFetchStep
  | 0, _, _ => none
  | fuel + 1, s, position =>
    match s.onChunk (serveSnapshot s.snapshotId bytes position maxBytes) with
    | (s', .continue next) => fetchLoop bytes maxBytes fuel s' next
    | (_, step) => some step

/-! ## Arbitrary responses -/

/-- The state, and the chunks that were accepted since the last `Complete`, with their positions. -/
structure Reassembly where
  state : SnapshotFetchState
  accepted : List (ℤ × List UInt8) := []

def reassembly : Sys Reassembly SnapshotChunk where
  enabled _ _ := True
  next s r :=
    { state := (s.state.onChunk r).1
      accepted := match (s.state.onChunk r).2 with
        | .restart => s.accepted
        | .continue _ => s.accepted ++ [(r.position, r.chunk)]
        | .complete _ => [] }

/-- The chunks lie one after the other, the first of them at `start`. -/
def Placed : ℤ → List (ℤ × List UInt8) → Prop
  | _, [] => True
  | start, (position, chunk) :: rest => position = start ∧ Placed (start + chunk.length) rest

lemma Placed.snoc {start : ℤ} {chunks : List (ℤ × List UInt8)} (h : Placed start chunks)
    (chunk : List UInt8) :
    Placed start (chunks ++ [(start + (chunks.flatMap Prod.snd).length, chunk)]) := by
  induction chunks generalizing start with
  | nil => simp [Placed]
  | cons c chunks ih => exact ⟨h.1, by simpa [add_assoc] using ih h.2⟩

/-- The buffer is what the accepted chunks hold, one behind the other. -/
structure ReassemblyInv (limit : MetadataSnapshotFetchMax) (s : Reassembly) : Prop where
  maxSize : s.state.maxSize = limit
  buf : s.state.buf = s.accepted.flatMap Prod.snd
  placed : Placed 0 s.accepted
  bounded : (s.state.buf.length : ℤ) ≤ s.state.size.getD 0
  size : s.state.size.getD 0 ≤ limit.bytes

section
variable {limit : MetadataSnapshotFetchMax} {s : Reassembly} (h : ReassemblyInv limit s)
include h

lemma ReassemblyInv.nextPosition : s.state.nextPosition = s.state.buf.length :=
  lenI64_eq (Int.ofNat_le.mp (h.bounded.trans h.size))

/-- **One response**: the invariant is kept, and a completed snapshot is what was accepted. -/
lemma ReassemblyInv.next (r : SnapshotChunk) : ReassemblyInv limit (reassembly.next s r) ∧
    ∀ c, (s.state.onChunk r).2 = .complete c →
      (c.length : ℤ) = r.size ∧ r.size ≤ limit.bytes ∧
        c = (s.accepted ++ [(r.position, r.chunk)]).flatMap Prod.snd ∧
        Placed 0 (s.accepted ++ [(r.position, r.chunk)]) := by
  have hhard := limit.le_hardMax
  unfold metadataSnapshotFetchHardMax at hhard
  have hpos := h.nextPosition
  have hplaced := h.placed.snoc r.chunk
  rw [← h.buf, zero_add, ← hpos] at hplaced
  simp only [reassembly]
  generalize hout : s.state.onChunk r = out
  simp only [SnapshotFetchState.onChunk] at hout
  split at hout
  · subst hout
    exact ⟨h, nofun⟩
  rename_i hcheck
  split at hout
  · subst hout
    exact ⟨h, nofun⟩
  rename_i hsize
  obtain ⟨-, hposition, hnonneg, hmax⟩ : r.id = s.state.snapshotId ∧ r.position = s.state.nextPosition ∧
      0 ≤ r.size ∧ r.size ≤ limit.bytes := by
    simpa [h.maxSize, not_or] using hcheck
  rw [← hposition] at hplaced
  have hle : (s.state.buf.length : ℤ) ≤ r.size := by
    have hb := h.bounded
    cases hs : s.state.size with
    | none =>
      rw [hs] at hb
      exact hb.trans hnonneg
    | some size =>
      obtain rfl : size = r.size := by simpa [hs] using hsize
      rwa [hs] at hb
  split_ifs at hout with hlong hdone <;> subst hout
  · exact ⟨⟨h.maxSize, h.buf, h.placed, hle, hmax⟩, nofun⟩
  all_goals
    have hbuf : s.state.buf ++ r.chunk = (s.accepted ++ [(r.position, r.chunk)]).flatMap Prod.snd := by
      simp [h.buf]
    have htotal : ((s.state.buf ++ r.chunk).length : ℤ) ≤ r.size := by
      unfold lenI64 at hlong
      rw [length_append]
      omega
  · refine ⟨⟨h.maxSize, rfl, trivial, hnonneg, hmax⟩, fun c hc => ?_⟩
    cases hc
    refine ⟨htotal.antisymm ?_, hmax, hbuf, hplaced⟩
    exact hdone.le.trans (min_le_left _ _)
  · exact ⟨⟨h.maxSize, hbuf, hplaced, htotal, hmax⟩, nofun⟩

end

/-! ## An honest leader -/

lemma take_append_byteRange {bytes : List UInt8} {position max : ℕ} (h : position ≤ bytes.length)
    (hlen : bytes.length ≤ u64Max) :
    bytes.take position ++ byteRange bytes position max = bytes.take (position + max) := by
  have hstop : min (min (position + max) u64Max) bytes.length = min (position + max) bytes.length := by omega
  simp only [byteRange, min_eq_left h, hstop, ← take_eq_take_min]
  nth_rewrite 1 [← min_eq_left (Nat.le_add_right position max)]
  rw [← take_take, take_append_drop]

lemma fetchLoop_complete {bytes : List UInt8} {maxBytes : ℤ} (hmax : 0 < maxBytes) {fuel : ℕ}
    {s : SnapshotFetchState} (hlen : bytes.length ≤ s.maxSize.bytes) (hbuf : s.buf = bytes.take s.buf.length)
    (hsize : s.size.any (· != (bytes.length : ℤ)) = false) (hrest : s.buf.length < bytes.length)
    (hfuel : bytes.length ≤ s.buf.length + fuel) :
    fetchLoop bytes maxBytes fuel s s.buf.length = some (.complete bytes) := by
  induction fuel generalizing s with
  | zero => omega
  | succ fuel ih =>
    have hlenI64 (l : List UInt8) (hl : l.length ≤ bytes.length) := lenI64_eq (hl.trans hlen)
    have hfits : bytes.length ≤ u64Max := (hlen.trans s.maxSize.le_hardMax).trans (by decide)
    obtain ⟨chunk, hchunk⟩ : ∃ c, c = byteRange bytes s.buf.length maxBytes.toNat := ⟨_, rfl⟩
    have hnext : s.buf ++ chunk = bytes.take (s.buf.length + maxBytes.toNat) := by
      rw [hchunk, ← take_append_byteRange hrest.le hfits, ← hbuf]
    have htotal := congrArg length hnext
    rw [length_take, length_append] at htotal
    have hlong : (s.buf ++ chunk).length = s.buf.length + chunk.length := length_append
    simp only [fetchLoop, SnapshotFetchState.onChunk, serveSnapshot, Int.toNat_natCast, ← hchunk,
      hlenI64 bytes le_rfl, SnapshotFetchState.nextPosition, hlenI64 s.buf hrest.le, hsize]
    rw [if_neg (by simp; omega), if_neg (by simp), hlenI64 chunk (by omega), if_neg (by omega),
      hlenI64 (s.buf ++ chunk) (by omega)]
    split_ifs with hdone
    · show some (SnapshotFetchStep.complete (s.buf ++ chunk)) = _
      rw [hnext, take_of_length_le (by omega)]
    · have hbuf' : s.buf ++ chunk = bytes.take (s.buf ++ chunk).length := by
        rw [hnext, length_take, ← take_eq_take_min]
      exact ih (s := { s with size := some (bytes.length : ℤ), buf := s.buf ++ chunk }) hlen hbuf' (by simp)
        (by dsimp only; omega) (by dsimp only; omega)

/-- **Snapshot transfer reassembles exactly.** -/
theorem snapshot_reassembled (id : SnapshotId) (limit : MetadataSnapshotFetchMax) :
    (∀ (bytes : List UInt8) (maxBytes : ℤ), 1 ≤ bytes.length → bytes.length ≤ limit.bytes → 0 < maxBytes →
      fetchLoop bytes maxBytes bytes.length (.withMax id limit) 0 = some (.complete bytes)) ∧
    ∀ s, reassembly.AnyRun { state := .withMax id limit } s →
      (s.state.buf.length : ℤ) ≤ s.state.size.getD 0 ∧
      ∀ r c, (s.state.onChunk r).2 = .complete c →
        (c.length : ℤ) = r.size ∧ r.size ≤ limit.bytes ∧
          c = (s.accepted ++ [(r.position, r.chunk)]).flatMap Prod.snd ∧
          Placed 0 (s.accepted ++ [(r.position, r.chunk)]) := by
  refine ⟨fun bytes maxBytes hpos hlen hmax => ?_, fun s hrun => ?_⟩
  · exact fetchLoop_complete hmax hlen rfl rfl hpos (Nat.le_add_left ..)
  · have hinv : ReassemblyInv limit s := Sys.Run.preserves hrun (fun t r ht _ _ => (ht.next r).1)
      ⟨rfl, rfl, trivial, le_rfl, Int.natCast_nonneg _⟩
    exact ⟨hinv.bounded, fun r => (hinv.next r).2⟩

/-- Three bytes, two at a time. -/
theorem snapshot_reassembled_threeBytes :
    fetchLoop [1, 2, 3] 2 3 (.withMax (0, 1) ⟨3, by decide, by decide⟩) 0 = some (.complete [1, 2, 3]) :=
  (snapshot_reassembled (0, 1) ⟨3, by decide, by decide⟩).1 [1, 2, 3] 2 (by decide) (by decide) (by decide)

end Crabka.Kraft
