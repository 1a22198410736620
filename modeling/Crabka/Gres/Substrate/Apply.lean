import Crabka.Found.Maps

/-!
# Write batches and frames

`crates/pgkv/src/store.rs`, `crates/gres-substrate/src/apply.rs` and `writer.rs`: a store of byte strings, batches that
are applied as a whole, and `apply_frame`, which merges counters by their maximum, keeps the first terminal commit-log
entry and drops notify records. Operations are cut into frames by their encoded size.
-/

namespace Crabka.Gres.Substrate
open Std (ExtTreeMap)
open Found

/-! ## Stores -/

abbrev Bytes := List UInt8

/-- The content of a `MemKv`. -/
abbrev Kv := ExtTreeMap Bytes Bytes

inductive WriteOp where
  | put (key value : Bytes)
  | conditionalPut (key : Bytes) (expected : Option Bytes) (value : Bytes)
  | delete (key : Bytes)
  deriving DecidableEq, Repr

namespace WriteOp

def key : WriteOp → Bytes
  | .put key _ | .conditionalPut key _ _ | .delete key => key

def isPut : WriteOp → Bool
  | .put _ _ => true
  | _ => false

def fails (kv : Kv) : WriteOp → Bool
  | .conditionalPut key expected _ => decide (kv[key]? ≠ expected)
  | _ => false

def apply (kv : Kv) : WriteOp → Kv
  | .put key value | .conditionalPut key _ value => kv.insert key value
  | .delete key => kv.erase key

end WriteOp

def writeBatch (kv : Kv) (ops : List WriteOp) : Kv :=
  if ops.any (WriteOp.fails kv) then kv else ops.foldl WriteOp.apply kv

/-! ## Keys with merge rules -/

/-- `system_prefix` with the bytes of the tag. -/
def systemPrefix (tag : Bytes) : Bytes := [0, 0, 0, 0] ++ tag ++ [47]

def seqPrefix : Bytes := systemPrefix [115, 101, 113]

def nextXidKey : Bytes := systemPrefix [109, 101, 116, 97] ++ [110, 101, 120, 116, 95, 120, 105, 100]

/-- `MAX_TS_KEY`, the bytes of `/0/meta/max_ts`. -/
def maxTsKey : Bytes := [47, 48, 47, 109, 101, 116, 97, 47, 109, 97, 120, 95, 116, 115]

def clogPrefix : Bytes := systemPrefix [99, 108, 111, 103]

def notifyPrefix : Bytes := systemPrefix [110, 111, 116, 105, 102, 121]

def isCounterKey (k : Bytes) : Bool :=
  decide (k = nextXidKey) || decide (k = maxTsKey) || seqPrefix.isPrefixOf k

def isClogKey (k : Bytes) : Bool := clogPrefix.isPrefixOf k

/-- `is_notify_op`. -/
def WriteOp.isNotify (op : WriteOp) : Bool := notifyPrefix.isPrefixOf op.key

def isTerminal : Bytes → Bool
  | 1 :: _ | 2 :: _ => true
  | _ => false

/-! ## Counter values -/

def beValue (bytes : Bytes) : ℕ := bytes.foldl (fun acc b => acc * 256 + b.toNat) 0

def toBeBytes (v : ℕ) : Bytes :=
  [UInt8.ofNat (v / 256 ^ 7), UInt8.ofNat (v / 256 ^ 6), UInt8.ofNat (v / 256 ^ 5),
    UInt8.ofNat (v / 256 ^ 4), UInt8.ofNat (v / 256 ^ 3), UInt8.ofNat (v / 256 ^ 2),
    UInt8.ofNat (v / 256), UInt8.ofNat v]

/-- `u64_be`: the last eight bytes, padded with zeros in front. -/
def u64Be (bytes : Bytes) : ℕ := beValue (bytes.drop (bytes.length - 8))

inductive KvError where
  /-- The TSO horizon must be exactly 8 bytes. -/
  | horizonLength (got : ℕ)
  deriving DecidableEq, Repr

def counterValue (key value : Bytes) : Except KvError ℕ :=
  if key = maxTsKey then
    if value.length = 8 then .ok (beValue value) else .error (.horizonLength value.length)
  else .ok (u64Be value)

lemma beValue_append (bytes : Bytes) (b : UInt8) : beValue (bytes ++ [b]) = beValue bytes * 256 + b.toNat := by
  simp [beValue]

lemma beValue_lt (bytes : Bytes) : beValue bytes < 256 ^ bytes.length := by
  induction bytes using List.reverseRecOn with
  | nil => decide
  | append_singleton bytes b ih =>
    have hb := b.toNat_lt
    rw [beValue_append, List.length_append, List.length_singleton, Nat.pow_succ]
    omega

lemma beValue_toBeBytes {v : ℕ} (h : v < 2 ^ 64) : beValue (toBeBytes v) = v := by
  simp only [beValue, toBeBytes, List.foldl_cons, List.foldl_nil, UInt8.toNat_ofNat']
  omega

lemma counterValue_toBeBytes {v : ℕ} (h : v < 2 ^ 64) (key : Bytes) : counterValue key (toBeBytes v) = .ok v := by
  unfold counterValue
  split
  · rw [if_pos (by rfl), beValue_toBeBytes h]
  · exact congrArg Except.ok (beValue_toBeBytes h)

lemma counterValue_lt {key value : Bytes} {v : ℕ} (h : counterValue key value = .ok v) : v < 2 ^ 64 := by
  unfold counterValue at h
  split at h
  · split at h
    · rename_i hlen
      cases h
      have := beValue_lt value
      rw [hlen] at this
      exact lt_of_lt_of_le this (by decide)
    · cases h
  · cases h
    refine lt_of_lt_of_le (beValue_lt _) (Nat.pow_le_pow_right (by decide) ?_ |>.trans
      (by decide : 256 ^ 8 ≤ 2 ^ 64))
    rw [List.length_drop]
    omega

/-! ## Applying a frame -/

/-- The accumulators of `apply_frame`. -/
structure Adjusting where
  counters : ExtTreeMap Bytes ℕ := ∅
  decided : List Bytes := []
  adjusted : List WriteOp := []

/-- The value that a counter put is merged with: the one of this batch, or the stored one. -/
def currentCounter (kv : Kv) (acc : Adjusting) (key : Bytes) : Except KvError ℕ :=
  match acc.counters[key]? with
  | some v => .ok v
  | none => match kv[key]? with
    | some stored => counterValue key stored
    | none => .ok 0

/-- The commit-log entry is terminal, in this batch or in the store. -/
def alreadyTerminal (kv : Kv) (acc : Adjusting) (key : Bytes) : Bool :=
  decide (key ∈ acc.decided) || kv[key]?.any isTerminal

def Adjusting.push (acc : Adjusting) (op : WriteOp) : Adjusting :=
  { acc with adjusted := acc.adjusted ++ [op] }

def pushCounterOp (kv : Kv) (acc : Adjusting) (key value : Bytes) : Except KvError Adjusting := do
  let incoming ← counterValue key value
  let current ← currentCounter kv acc key
  let merged := max incoming current
  return { acc.push (.put key (toBeBytes merged)) with counters := acc.counters.insert key merged }

def pushClogOp (kv : Kv) (acc : Adjusting) (key value : Bytes) : Adjusting :=
  if alreadyTerminal kv acc key then acc
  else { acc.push (.put key value) with
    decided := if isTerminal value then key :: acc.decided else acc.decided }

/-- The body of the loop of `apply_frame`. -/
def adjustOp (kv : Kv) (acc : Adjusting) (op : WriteOp) : Except KvError Adjusting :=
  if op.isNotify then .ok acc
  else match op with
    | .put key value =>
      if isCounterKey key then pushCounterOp kv acc key value
      else if isClogKey key then .ok (pushClogOp kv acc key value)
      else .ok (acc.push op)
    | .conditionalPut _ _ _ | .delete _ => .ok (acc.push op)

def applyFrame (kv : Kv) (ops : List WriteOp) : Except KvError Kv :=
  (ops.foldlM (adjustOp kv) {}).map fun acc => writeBatch kv acc.adjusted

/-- The store after a batch: an error leaves it as it was. -/
def storeAfter (kv : Kv) (ops : List WriteOp) : Kv := (applyFrame kv ops).toOption.getD kv

/-! ## Frames -/

def barrierSeq : ℕ := 2 ^ 64 - 1

/-- A frame of the log, with its sequence number. -/
structure WalFrame where
  journalSeq : ℕ
  ops : List WriteOp
  deriving DecidableEq, Repr

def WriteOp.encodedLen : WriteOp → ℕ
  | .put key value => 9 + key.length + value.length
  | .conditionalPut key expected value =>
    14 + key.length + (expected.map List.length).getD 0 + value.length
  | .delete key => 5 + key.length

def encodedLen (ops : List WriteOp) : ℕ := 13 + (ops.map WriteOp.encodedLen).sum

/-- The state of the loop in `chunk_frames`. -/
structure Chunking where
  frames : List WalFrame := []
  current : List WriteOp := []
  seq : ℕ

/-- The current operations become a frame; `none` when the journal sequence is exhausted. -/
def Chunking.flush (acc : Chunking) : Option Chunking :=
  if acc.seq < barrierSeq then
    some { frames := acc.frames ++ [⟨acc.seq, acc.current⟩], current := [], seq := acc.seq + 1 }
  else none

def Chunking.flushNonempty (acc : Chunking) : Option Chunking :=
  if acc.current = [] then some acc else acc.flush

/-- The body of the loop of `chunk_frames`. -/
def chunkOp (maxFrameBytes : ℕ) (acc : Chunking) (op : WriteOp) : Option Chunking :=
  if encodedLen [op] > maxFrameBytes then do
    let acc ← acc.flushNonempty
    { acc with current := [op] }.flush
  else if acc.current ≠ [] ∧ encodedLen (acc.current ++ [op]) > maxFrameBytes then do
    let acc ← acc.flush
    return { acc with current := [op] }
  else some { acc with current := acc.current ++ [op] }

def chunkFrames (ops : List WriteOp) (firstSeq maxFrameBytes : ℕ) : Option (List WalFrame) :=
  if ops = [] then some [⟨firstSeq, ops⟩]
  else do
    let acc ← ops.foldlM (chunkOp maxFrameBytes) { seq := firstSeq }
    return if acc.current = [] then acc.frames else acc.frames ++ [⟨acc.seq, acc.current⟩]

/-- The frames of a commit, as `commit_in_span` applies them: an error leaves what was applied before. -/
def applyFrames (kv : Kv) : List WalFrame → Kv × Bool
  | [] => (kv, true)
  | frame :: frames => match applyFrame kv frame.ops with
    | .ok kv' => applyFrames kv' frames
    | .error _ => (kv, false)

def withoutNotifyOps (ops : List WriteOp) : List WriteOp := ops.filter fun op => !op.isNotify

/-- Replay of frames without barriers: the frames as `replay_committed_frames` applies them. -/
def replayFrames (kv : Kv) (frames : List WalFrame) : Kv × Bool :=
  applyFrames kv (frames.map fun frame => { frame with ops := withoutNotifyOps frame.ops })

end Crabka.Gres.Substrate
