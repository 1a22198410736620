import Crabka.Found.Runs
import Crabka.Gres.Substrate.Chunking

/-!
# Recovery of a range

`commit_in_span` writes the frames of a commit to the log and then applies them; `crates/gres-substrate/src/replay.rs`
applies the logged frames to an empty store or a checkpoint. The two agree as long as `apply_frame` refuses no logged
frame. The invariant says it for every starting point: replay from there leads to the live store (`Leads`).
-/

namespace Crabka.Gres.Substrate
open List hiding getElem?_insert
open Std (ExtTreeMap)
open Found Except WriteOp Substrate Nat

/-! ## Replay -/

structure ReplayItem where
  offset : ℕ
  frame : WalFrame
  deriving DecidableEq

inductive ReplayError where
  | sequenceGap (expected found offset : ℕ)
  | kv (error : KvError)
  /-- The journal sequence is exhausted before the barrier. -/
  | exhausted
  /-- Replay reached the end before the recovery barrier. -/
  | noBarrier
  deriving DecidableEq, Repr

/-- `replay_committed_frames_from`: the store and the next journal sequence. -/
def replayCommittedFramesFrom (ownBarrierOffset replayStartOffset : ℕ) :
    Kv → ℕ → List ReplayItem → Except ReplayError (Kv × ℕ)
  | _, _, [] => .error .noBarrier
  | kv, expected, item :: items =>
    if item.offset < replayStartOffset then
      replayCommittedFramesFrom ownBarrierOffset replayStartOffset kv expected items
    else if item.frame.journalSeq = barrierSeq then
      if ownBarrierOffset ≤ item.offset then .ok (kv, expected)
      else replayCommittedFramesFrom ownBarrierOffset replayStartOffset kv expected items
    else if item.frame.journalSeq ≠ expected then
      .error (.sequenceGap expected item.frame.journalSeq item.offset)
    else match applyFrame kv (withoutNotifyOps item.frame.ops) with
      | .error e => .error (.kv e)
      | .ok kv' =>
        if expected + 1 < 2 ^ 64 then
          replayCommittedFramesFrom ownBarrierOffset replayStartOffset kv' (expected + 1) items
        else .error .exhausted

/-! ## The live range -/

/-- A checkpoint: the pairs of the store, the last offset it covers and the next journal sequence. -/
structure CheckpointSnapshot where
  pairs : List (Bytes × Bytes)
  coveredOffset : ℕ
  journalSeq : ℕ

/-- `restore_sorted` into an empty store. -/
def restoreSorted (pairs : List (Bytes × Bytes)) : Kv := ExtTreeMap.ofList pairs

/-- A range: the live store, the committed log, and the checkpoints that were due after each frame. -/
structure Range where
  kv : Kv := ∅
  log : List ReplayItem := []
  nextOffset : ℕ := 0
  nextJournalSeq : ℕ := 0
  checkpoints : List CheckpointSnapshot := []

def logItems : ℕ → List WalFrame → List ReplayItem
  | _, [] => []
  | offset, frame :: frames => ⟨offset, frame⟩ :: logItems (offset + 1) frames

def checkpointsOf : ℕ → Kv → List WalFrame → List CheckpointSnapshot
  | _, _, [] => []
  | offset, kv, frame :: frames => match applyFrame kv frame.ops with
    | .ok kv' => ⟨kv'.toList, offset, frame.journalSeq + 1⟩ :: checkpointsOf (offset + 1) kv' frames
    | .error _ => []

/-- `commit_in_span`, with the write to the log acknowledged. -/
def Range.commit (s : Range) (ops : List WriteOp) (maxFrameBytes : ℕ) : Range :=
  match chunkFrames ops s.nextJournalSeq maxFrameBytes with
  | none => s
  | some frames =>
    let applied := applyFrames s.kv frames
    let next := s.nextJournalSeq + frames.length
    { kv := applied.1
      log := s.log ++ logItems s.nextOffset frames
      nextOffset := s.nextOffset + frames.length
      -- `checked_add`, and only after every frame was applied.
      nextJournalSeq := if applied.2 ∧ next < 2 ^ 64 then next else s.nextJournalSeq
      checkpoints := s.checkpoints ++ checkpointsOf s.nextOffset s.kv frames }

def barrierFrame : WalFrame := ⟨barrierSeq, []⟩

/-- What comes into the log of a range. -/
inductive RangeEvent where
  | commit (ops : List WriteOp) (maxFrameBytes : ℕ)
  /-- A barrier of another recovery. -/
  | barrier
  /-- An offset without a committed frame: a transaction marker or an aborted record. -/
  | skip

def RangeEvent.next (s : Range) : RangeEvent → Range
  | .commit ops maxFrameBytes => s.commit ops maxFrameBytes
  | .barrier => { s with log := s.log ++ [⟨s.nextOffset, barrierFrame⟩], nextOffset := s.nextOffset + 1 }
  | .skip => { s with nextOffset := s.nextOffset + 1 }

def rangeSys : Sys Range RangeEvent := ⟨fun _ _ => True, RangeEvent.next⟩

instance (s : Range) (l : RangeEvent) : Decidable (rangeSys.enabled s l) := .isTrue trivial

/-- `recover_store_after_barrier`: the log up to a new barrier is replayed onto a store. -/
def Range.recover (s : Range) (kv : Kv) (replayStart expected : ℕ) : Except ReplayError (Kv × ℕ) :=
  replayCommittedFramesFrom s.nextOffset replayStart kv expected (s.log ++ [⟨s.nextOffset, barrierFrame⟩])

/-! ## Frames that are applied without an error -/

/-- The operation leaves eight bytes under the key of the horizon, if it writes there. -/
def WriteOp.keepsHorizon : WriteOp → Bool
  | .put key value | .conditionalPut key _ value => key ≠ maxTsKey || value.length = 8
  | .delete _ => true

def horizonOk (kv : Kv) : Bool := kv[maxTsKey]?.all fun stored => stored.length = 8

/-- Every horizon that a frame puts has eight bytes, and so has the stored one, as long as no earlier frame has put
another one under a condition. -/
def horizonSafe : Bool → List WalFrame → Bool
  | _, [] => true
  | found, frame :: frames =>
    (frame.ops.all fun op => !op.isPut || op.key ≠ maxTsKey || (found && op.keepsHorizon)) &&
      horizonSafe (found && frame.ops.all fun op => op.isPut || op.keepsHorizon) frames

/-- The commit is refused before anything is written, or it does not exhaust the journal sequence and no
horizon is malformed. -/
def Durable (s : Range) : RangeEvent → Prop
  | .commit ops maxFrameBytes => match chunkFrames ops s.nextJournalSeq maxFrameBytes with
    | none => True
    | some frames =>
      s.nextJournalSeq + frames.length ≤ barrierSeq ∧ horizonSafe (horizonOk s.kv) frames = true
  | _ => True

instance (s : Range) (l : RangeEvent) : Decidable (Durable s l) := by
  unfold Durable
  split
  · split <;> infer_instance
  · infer_instance

lemma isCounterKey_maxTsKey : isCounterKey maxTsKey = true := by decide

variable {op : WriteOp} {kv : Kv}

lemma horizonOk_apply (hop : op.keepsHorizon) (h : horizonOk kv) : horizonOk (op.apply kv) = true := by
  unfold horizonOk at h ⊢
  by_cases hkey : op.key = maxTsKey
  · cases op with
    | put key value | conditionalPut key expected value =>
      obtain rfl : key = maxTsKey := hkey
      simpa [apply, keepsHorizon] using hop
    | delete key =>
      obtain rfl : key = maxTsKey := hkey
      simp [apply]
  · rwa [getElem?_apply_of_ne hkey]

variable {ops : List WriteOp}

lemma horizonOk_foldl (hops : ∀ op ∈ ops, op.keepsHorizon) (h : horizonOk kv) :
    horizonOk (ops.foldl apply kv) = true := by
  refine foldlRecOn (motive := (horizonOk · = true)) ops apply h fun kv h op hop => ?_
  exact horizonOk_apply (hops op hop) h

variable {acc acc' : Adjusting}

lemma adjustOp_keepsHorizon (hop : op.isPut = false → op.keepsHorizon)
    (hok : adjustOp kv acc op = .ok acc') (h : ∀ op' ∈ acc.adjusted, op'.keepsHorizon) :
    ∀ op' ∈ acc'.adjusted, op'.keepsHorizon = true := by
  have hpush : ∀ op₁ : WriteOp, op₁.keepsHorizon → ∀ op' ∈ acc.adjusted ++ [op₁], op'.keepsHorizon := by
    intro op₁ h₁ op' hmem
    obtain hmem | hmem := mem_snoc.mp hmem
    · exact h op' hmem
    · exact hmem ▸ h₁
  unfold adjustOp at hok
  split at hok
  · cases hok
    exact h
  · cases op with
    | put key value =>
      dsimp only at hok
      split at hok
      · obtain ⟨incoming, -, hok⟩ := bind_eq_ok.mp hok
        obtain ⟨current, -, hok⟩ := bind_eq_ok.mp hok
        cases hok
        refine hpush (.put key (toBeBytes (max incoming current))) ?_
        exact Bool.or_eq_true_iff.mpr (.inr rfl)
      · rename_i hcounter
        -- The horizon is a counter, so this put is of another key.
        have hne : (put key value).keepsHorizon := by
          refine Bool.or_eq_true_iff.mpr (.inl (decide_eq_true fun hkey => hcounter ?_))
          rw [hkey]
          exact isCounterKey_maxTsKey
        split at hok
        · cases hok
          unfold pushClogOp
          split
          · exact h
          · exact hpush _ hne
        · cases hok
          exact hpush _ hne
    | conditionalPut key expected value =>
      cases hok
      exact hpush _ (hop rfl)
    | delete key =>
      cases hok
      exact hpush _ rfl

variable {kv' : Kv}

lemma applyFrame_eq_ok (h : applyFrame kv ops = .ok kv') :
    ∃ acc, ops.foldlM (adjustOp kv) {} = .ok acc ∧ kv' = writeBatch kv acc.adjusted := by
  unfold applyFrame at h
  cases hfold : ops.foldlM (adjustOp kv) {} with
  | error e =>
    rw [hfold] at h
    cases h
  | ok acc =>
    rw [hfold] at h
    exact ⟨acc, rfl, (ok.inj h).symm⟩

lemma horizonOk_applyFrame (hok : applyFrame kv ops = .ok kv')
    (hops : ∀ op ∈ ops, op.isPut = false → op.keepsHorizon) (h : horizonOk kv) :
    horizonOk kv' = true := by
  obtain ⟨acc, hacc, rfl⟩ := applyFrame_eq_ok hok
  unfold writeBatch
  split
  · exact h
  · have hkeeps : ∀ op' ∈ acc.adjusted, op'.keepsHorizon :=
      foldlM_preserves (fun op hop _ _ h hstep => adjustOp_keepsHorizon (hops op hop) hstep h) (by simp) hacc
    exact horizonOk_foldl hkeeps h

variable {frames : List WalFrame}

lemma applyFrames_done {found : Bool} (hsafe : horizonSafe found frames) (hfound : found → horizonOk kv) :
    (applyFrames kv frames).2 = true := by
  induction frames generalizing found kv with
  | nil => rfl
  | cons frame frames ih =>
    unfold horizonSafe at hsafe
    rw [Bool.and_eq_true_iff, all_eq_true] at hsafe
    obtain ⟨hframe, hrest⟩ := hsafe
    have hhorizon : HorizonOk kv frame.ops := by
      rintro op hop value rfl
      have := hframe _ hop
      simp only [isPut, key, keepsHorizon] at this
      have hboth : found ∧ value.length = 8 := by simpa using this
      refine ⟨hboth.2, fun stored hstored => ?_⟩
      have hok := hfound hboth.1
      unfold horizonOk at hok
      simpa [hstored] using hok
    obtain ⟨acc, hacc⟩ := foldlM_adjustOp_ok hhorizon {}
    have hok : applyFrame kv frame.ops = .ok (writeBatch kv acc.adjusted) := by
      unfold applyFrame
      rw [hacc]
      rfl
    unfold applyFrames
    rw [hok]
    refine ih hrest fun hnext => ?_
    rw [Bool.and_eq_true_iff, all_eq_true] at hnext
    refine horizonOk_applyFrame hok (fun op hop hput => ?_) (hfound hnext.1)
    simpa [hput] using hnext.2 op hop

/-! ## Journal sequences -/

def Numbered : ℕ → List WalFrame → Prop
  | _, [] => True
  | n, frame :: frames => frame.journalSeq = n ∧ Numbered (n + 1) frames

lemma Numbered.append {n : ℕ} (h : Numbered n frames) {frame : WalFrame}
    (hframe : frame.journalSeq = n + frames.length) : Numbered n (frames ++ [frame]) := by
  induction frames generalizing n with
  | nil => exact ⟨hframe, trivial⟩
  | cons f frames ih =>
    refine ⟨h.1, ih h.2 ?_⟩
    rw [hframe, length_cons]
    omega

/-- The frames made so far are numbered, and the next number follows. -/
def Chunking.Counts (first : ℕ) (acc : Chunking) : Prop :=
  Numbered first acc.frames ∧ acc.seq = first + acc.frames.length

variable {first : ℕ}

lemma Chunking.Counts.flush {acc acc' : Chunking} (h : acc.Counts first)
    (hflush : acc.flush = some acc') : acc'.Counts first := by
  unfold Chunking.flush at hflush
  split at hflush
  · cases hflush
    refine ⟨h.1.append h.2, ?_⟩
    show acc.seq + 1 = _
    rw [length_append, length_singleton, h.2]
    omega
  · cases hflush

variable {maxFrameBytes : ℕ}

lemma Chunking.Counts.chunkOp {acc acc' : Chunking} (h : acc.Counts first)
    (hop : chunkOp maxFrameBytes acc op = some acc') :
    acc'.Counts first := by
  unfold Substrate.chunkOp at hop
  split at hop
  · obtain ⟨acc₁, hfirst, hsecond⟩ := Option.bind_eq_some_iff.mp hop
    have h₁ : acc₁.Counts first := by
      unfold Chunking.flushNonempty at hfirst
      split at hfirst
      · exact Option.some.inj hfirst ▸ h
      · exact h.flush hfirst
    have h₂ : Chunking.Counts first { acc₁ with current := [op] } := h₁
    exact h₂.flush hsecond
  · split at hop
    · obtain ⟨acc₁, hfirst, hsecond⟩ := Option.bind_eq_some_iff.mp hop
      cases hsecond
      exact (h.flush hfirst : acc₁.Counts first)
    · cases hop
      exact h

lemma Chunking.Counts.foldlM {acc acc' : Chunking} (h : acc.Counts first)
    (hops : ops.foldlM (Substrate.chunkOp maxFrameBytes) acc = some acc') :
    acc'.Counts first := by
  induction ops generalizing acc with
  | nil => exact Option.some.inj hops ▸ h
  | cons op ops ih =>
    obtain ⟨acc₁, hstep, hrest⟩ := Option.bind_eq_some_iff.mp hops
    exact ih (h.chunkOp hstep) hrest

lemma numbered_chunkFrames {firstSeq : ℕ}
    (h : chunkFrames ops firstSeq maxFrameBytes = some frames) : Numbered firstSeq frames := by
  unfold chunkFrames at h
  split at h
  · cases h
    exact ⟨rfl, trivial⟩
  · obtain ⟨acc, hfold, h⟩ := Option.bind_eq_some_iff.mp h
    cases h
    have hstart : Chunking.Counts firstSeq { seq := firstSeq } := ⟨trivial, rfl⟩
    have hcounts := hstart.foldlM hfold
    split
    · exact hcounts.1
    · exact hcounts.1.append hcounts.2

/-! ## Replay of a log -/

section Replay
variable {own start : ℕ} {rest : List ReplayItem}

lemma replay_skip {items : List ReplayItem} (h : ∀ item ∈ items, item.offset < start) (kv : Kv)
    (expected : ℕ) : replayCommittedFramesFrom own start kv expected (items ++ rest) =
      replayCommittedFramesFrom own start kv expected rest := by
  induction items with
  | nil => rfl
  | cons item items ih =>
    rw [cons_append, replayCommittedFramesFrom, if_pos (h item mem_cons_self)]
    exact ih fun item' h' => h item' (mem_cons_of_mem _ h')

variable {offset : ℕ}

lemma replay_barrier (h : offset < own) (kv : Kv) (expected : ℕ) :
    replayCommittedFramesFrom own start kv expected (⟨offset, barrierFrame⟩ :: rest) =
      replayCommittedFramesFrom own start kv expected rest := by
  rw [replayCommittedFramesFrom]
  split
  · rfl
  · exact (if_pos rfl).trans (if_neg (not_le.mpr h))

lemma replay_frames {frames : List WalFrame} {seq : ℕ} {kv kv' : Kv} (hstart : start ≤ offset)
    (hnum : Numbered seq frames) (hseq : seq + frames.length ≤ barrierSeq)
    (happly : applyFrames kv frames = (kv', true)) :
    replayCommittedFramesFrom own start kv seq (logItems offset frames ++ rest) =
      replayCommittedFramesFrom own start kv' (seq + frames.length) rest := by
  induction frames generalizing offset seq kv with
  | nil =>
    obtain rfl := congrArg Prod.fst happly
    rfl
  | cons frame frames ih =>
    obtain ⟨hframe, hnum⟩ := hnum
    rw [length_cons] at hseq
    unfold applyFrames at happly
    cases hok : applyFrame kv frame.ops with
    | error e =>
      rw [hok] at happly
      cases happly
    | ok kv₁ =>
      rw [hok] at happly
      have hlt : seq + 1 < 2 ^ 64 := by
        unfold barrierSeq at hseq
        omega
      rw [logItems, cons_append, replayCommittedFramesFrom, if_neg (by simpa using hstart),
        if_neg (show frame.journalSeq ≠ barrierSeq by omega), if_neg (by simp [hframe])]
      rw [applyFrame_withoutNotifyOps, hok]
      dsimp only
      rw [if_pos hlt, ih (by omega) hnum (by omega) happly, length_cons]
      congr 1
      omega

end Replay

lemma restoreSorted_toList (kv : Kv) : restoreSorted kv.toList = kv := by
  refine ExtTreeMap.ext_getElem? fun {k} => ?_
  cases hk : kv[k]? with
  | some v =>
    exact ExtTreeMap.getElem?_ofList_of_mem Std.ReflCmp.compare_self ExtTreeMap.distinct_keys_toList
      (ExtTreeMap.mem_toList_iff_getElem?_eq_some.mpr hk)
  | none =>
    refine ExtTreeMap.getElem?_ofList_of_contains_eq_false ?_
    rw [ExtTreeMap.map_fst_toList_eq_keys, contains_eq_mem, decide_eq_false_iff_not,
      ExtTreeMap.mem_keys, ExtTreeMap.mem_iff_isSome_getElem?, hk]
    decide

variable {offset : ℕ}

lemma replay_checkpointsOf (own : ℕ) (rest : List ReplayItem) {seq : ℕ}
    (hnum : Numbered seq frames) (hseq : seq + frames.length ≤ barrierSeq)
    (happly : applyFrames kv frames = (kv', true)) {cp : CheckpointSnapshot}
    (hcp : cp ∈ checkpointsOf offset kv frames) :
    offset ≤ cp.coveredOffset ∧ cp.coveredOffset < offset + frames.length ∧
      replayCommittedFramesFrom own (cp.coveredOffset + 1) (restoreSorted cp.pairs) cp.journalSeq
          (logItems offset frames ++ rest) =
        replayCommittedFramesFrom own (cp.coveredOffset + 1) kv' (seq + frames.length) rest := by
  induction frames generalizing offset seq kv with
  | nil => cases hcp
  | cons frame frames ih =>
    obtain ⟨hframe, hnum⟩ := hnum
    unfold applyFrames at happly
    unfold checkpointsOf at hcp
    cases hok : applyFrame kv frame.ops with
    | error e =>
      rw [hok] at happly
      cases happly
    | ok kv₁ =>
      rw [hok] at happly hcp
      have hlen : seq + 1 + frames.length = seq + (frame :: frames).length := by
        rw [length_cons]
        omega
      obtain rfl | hcp := mem_cons.mp hcp
      · refine ⟨le_rfl, by simp, ?_⟩
        -- The frame itself is covered; the others are replayed.
        rw [logItems, cons_append, replayCommittedFramesFrom,
          if_pos (show offset < offset + 1 by omega), restoreSorted_toList, hframe,
          replay_frames le_rfl hnum (by omega) happly, hlen]
      · obtain ⟨hle, hlt, hreplay⟩ := ih hnum (by omega) happly hcp
        refine ⟨by omega, by rw [length_cons]; omega, ?_⟩
        rw [logItems, cons_append, replayCommittedFramesFrom,
          if_pos (show offset < cp.coveredOffset + 1 by omega), hreplay, hlen]

/-! ## The invariant -/

/-- Replay of the log from a starting point leads to the live store. -/
def Leads (s : Range) (replayStart : ℕ) (kv : Kv) (expected : ℕ) : Prop :=
  replayStart ≤ s.nextOffset ∧ ∀ own, s.nextOffset ≤ own → ∀ rest,
    replayCommittedFramesFrom own replayStart kv expected (s.log ++ rest) =
      replayCommittedFramesFrom own replayStart s.kv s.nextJournalSeq rest

/-- The log after a checkpoint, or the whole log, leads from its store to the live one. -/
structure RangeInv (s : Range) : Prop where
  offsets : ∀ item ∈ s.log, item.offset < s.nextOffset
  empty : Leads s 0 ∅ 0
  checkpoint : ∀ cp ∈ s.checkpoints, Leads s (cp.coveredOffset + 1) (restoreSorted cp.pairs) cp.journalSeq

lemma rangeInv_start : RangeInv {} :=
  ⟨by simp, ⟨le_rfl, fun _ _ _ => rfl⟩, by simp⟩

lemma lt_of_mem_logItems {item : ReplayItem} (h : item ∈ logItems offset frames) :
    item.offset < offset + frames.length := by
  induction frames generalizing offset with
  | nil => cases h
  | cons frame frames ih =>
    rw [length_cons]
    obtain rfl | h := mem_cons.mp h
    · show offset < _
      omega
    · have := ih h
      omega

def Range.committed (s : Range) (frames : List WalFrame) (kv' : Kv) : Range where
  kv := kv'
  log := s.log ++ logItems s.nextOffset frames
  nextOffset := s.nextOffset + frames.length
  nextJournalSeq := s.nextJournalSeq + frames.length
  checkpoints := s.checkpoints ++ checkpointsOf s.nextOffset s.kv frames

variable {s : Range}
section
variable (h : RangeInv s)
include h

lemma RangeInv.committed (hnum : Numbered s.nextJournalSeq frames)
    (hseq : s.nextJournalSeq + frames.length ≤ barrierSeq)
    (happly : applyFrames s.kv frames = (kv', true)) : RangeInv (s.committed frames kv') := by
  have hleads : ∀ {start kv expected}, Leads s start kv expected →
      Leads (s.committed frames kv') start kv expected := by
    rintro start kv expected ⟨hstart, hreplay⟩
    refine ⟨hstart.trans (Nat.le_add_right ..), fun own hown rest => ?_⟩
    have hown : s.nextOffset + frames.length ≤ own := hown
    unfold Range.committed
    rw [append_assoc, hreplay own (by omega), replay_frames hstart hnum hseq happly]
  refine ⟨fun item hitem => ?_, hleads h.empty, fun cp hcp => ?_⟩
  · obtain hitem | hitem := mem_append.mp hitem
    · exact (h.offsets item hitem).trans_le (Nat.le_add_right ..)
    · exact lt_of_mem_logItems hitem
  · obtain hcp | hcp := mem_append.mp hcp
    · exact hleads (h.checkpoint cp hcp)
    · refine ⟨?_, fun own hown rest => ?_⟩
      · exact (replay_checkpointsOf 0 [] hnum hseq happly hcp).2.1
      · obtain ⟨hle, -, hreplay⟩ := replay_checkpointsOf own rest hnum hseq happly hcp
        unfold Range.committed
        rw [append_assoc, replay_skip fun item hitem => ?_, hreplay]
        have := h.offsets item hitem
        omega

/-- A commit extends what every checkpoint leads to. -/
lemma RangeInv.commit (hdur : Durable s (.commit ops maxFrameBytes)) : RangeInv (s.commit ops maxFrameBytes) := by
  unfold Range.commit
  dsimp only [Durable] at hdur
  cases hchunk : chunkFrames ops s.nextJournalSeq maxFrameBytes with
  | none => exact h
  | some frames =>
    rw [hchunk] at hdur
    obtain ⟨hseq, hsafe⟩ := hdur
    have hdone := applyFrames_done hsafe id
    have happly : applyFrames s.kv frames = ((applyFrames s.kv frames).1, true) :=
      Prod.ext rfl hdone
    have hnext : (applyFrames s.kv frames).2 ∧ s.nextJournalSeq + frames.length < 2 ^ 64 := by
      refine ⟨hdone, ?_⟩
      unfold barrierSeq at hseq
      omega
    dsimp only
    rw [if_pos hnext]
    exact h.committed (numbered_chunkFrames hchunk) hseq happly

lemma RangeInv.barrier : RangeInv (RangeEvent.next s .barrier) := by
  have hleads : ∀ {start kv expected}, Leads s start kv expected →
      Leads (RangeEvent.next s .barrier) start kv expected := by
    rintro start kv expected ⟨hstart, hreplay⟩
    refine ⟨hstart.trans (le_succ _), fun own hown rest => ?_⟩
    have hown : s.nextOffset + 1 ≤ own := hown
    show replayCommittedFramesFrom own start kv expected (s.log ++ [⟨s.nextOffset, barrierFrame⟩] ++ rest) =
      replayCommittedFramesFrom own start s.kv s.nextJournalSeq rest
    rw [append_assoc, hreplay own (by omega)]
    exact replay_barrier hown _ _
  refine ⟨fun item hitem => ?_, hleads h.empty, fun cp hcp => hleads (h.checkpoint cp hcp)⟩
  obtain hitem | rfl := mem_snoc.mp hitem
  · exact (h.offsets item hitem).trans (lt_succ_self _)
  · exact lt_succ_self _

lemma RangeInv.skip : RangeInv (RangeEvent.next s .skip) := by
  have hleads : ∀ {start kv expected}, Leads s start kv expected →
      Leads (RangeEvent.next s .skip) start kv expected := by
    rintro start kv expected ⟨hstart, hreplay⟩
    exact ⟨hstart.trans (le_succ _), fun own hown => hreplay own ((le_succ _).trans hown)⟩
  exact ⟨fun item hitem => (h.offsets item hitem).trans (lt_succ_self _), hleads h.empty,
    fun cp hcp => hleads (h.checkpoint cp hcp)⟩

end

lemma rangeInv_of_run (hrun : rangeSys.Run Durable {} s) : RangeInv s := by
  refine hrun.preserves (P := RangeInv) (fun t l h _ hok => ?_) rangeInv_start
  cases l with
  | commit ops maxFrameBytes => exact h.commit hok
  | barrier => exact h.barrier
  | skip => exact h.skip

lemma Leads.recover {start : ℕ} {expected : ℕ} (h : Leads s start kv expected) :
    s.recover kv start expected = .ok (s.kv, s.nextJournalSeq) := by
  unfold Range.recover
  rw [h.2 _ le_rfl, replayCommittedFramesFrom, if_neg (not_lt.mpr h.1)]
  exact (if_pos rfl).trans (if_pos le_rfl)

/-! ## Merged keys -/

def storedCounter (kv : Kv) (key : Bytes) : ℕ := (currentCounter kv {} key).toOption.getD 0

variable {k : Bytes}

lemma currentCounter_mono {v : ℕ} (hok : adjustOp kv acc op = .ok acc') (hv : currentCounter kv acc k = .ok v) :
    ∃ v', currentCounter kv acc' k = .ok v' ∧ v ≤ v' := by
  have hsame : acc'.counters = acc.counters → ∃ v', currentCounter kv acc' k = .ok v' ∧ v ≤ v' := by
    intro heq
    refine ⟨v, ?_, le_rfl⟩
    unfold currentCounter at hv ⊢
    rwa [heq]
  unfold adjustOp at hok
  split at hok
  · obtain rfl := ok.inj hok
    exact hsame rfl
  · cases op with
    | put key value =>
      dsimp only at hok
      split at hok
      · obtain ⟨incoming, -, hok⟩ := bind_eq_ok.mp hok
        obtain ⟨current, hcur, hok⟩ := bind_eq_ok.mp hok
        obtain rfl := ok.inj hok
        obtain rfl | hk := eq_or_ne k key
        · obtain rfl := ok.inj (hcur.symm.trans hv)
          exact ⟨max incoming current, by simp [currentCounter], le_max_right _ _⟩
        · refine ⟨v, ?_, le_rfl⟩
          unfold currentCounter at hv ⊢
          rwa [getElem?_insert, if_neg hk]
      · split at hok
        · obtain rfl := ok.inj hok
          refine hsame ?_
          unfold pushClogOp
          split <;> rfl
        · obtain rfl := ok.inj hok
          exact hsame rfl
    | conditionalPut key expected value | delete key =>
      obtain rfl := ok.inj hok
      exact hsame rfl

lemma currentCounter_foldlM_mono {v : ℕ} (hok : ops.foldlM (adjustOp kv) acc = .ok acc')
    (hv : currentCounter kv acc k = .ok v) :
    ∃ v', currentCounter kv acc' k = .ok v' ∧ v ≤ v' := by
  refine foldlM_preserves (P := fun acc => ∃ v', currentCounter kv acc k = .ok v' ∧ v ≤ v')
    (fun op _ acc₁ acc₂ hacc hstep => ?_) ⟨v, hv, le_rfl⟩ hok
  obtain ⟨v₁, hv₁, hle⟩ := hacc
  obtain ⟨v₂, hv₂, hle₂⟩ := currentCounter_mono hstep hv₁
  exact ⟨v₂, hv₂, hle.trans hle₂⟩

lemma storedCounter_applyFrame (hok : applyFrame kv ops = .ok kv') (hk : isCounterKey k) (hput : OnlyPut ops k) :
    storedCounter kv k ≤ storedCounter kv' k := by
  obtain ⟨acc, hacc, rfl⟩ := applyFrame_eq_ok hok
  unfold writeBatch
  split
  · exact le_rfl
  · unfold storedCounter
    cases hv : currentCounter kv {} k with
    | error e => exact zero_le _
    | ok v =>
      obtain ⟨v', hv', hle⟩ := currentCounter_foldlM_mono hacc hv
      rwa [← (tracks_foldlM (.start kv k) hput hacc).counter hk, hv']

lemma isCounterKey_of_isClogKey (h : isClogKey k) : isCounterKey k = false := by
  obtain ⟨tail, rfl⟩ := isPrefixOf_iff_prefix.mp h
  simp [isCounterKey, clogPrefix, nextXidKey, maxTsKey, seqPrefix, systemPrefix, List.isPrefixOf]

lemma adjusted_ne_of_terminal (hclog : isClogKey k) (hterm : kv[k]?.any isTerminal)
    (hput : OnlyPut ops k) (hok : ops.foldlM (adjustOp kv) acc = .ok acc')
    (h : ∀ op ∈ acc.adjusted, op.key ≠ k) :
    ∀ op ∈ acc'.adjusted, op.key ≠ k := by
  refine foldlM_preserves (P := fun acc => ∀ op ∈ acc.adjusted, op.key ≠ k)
    (fun op hop acc acc₁ h hstep => ?_) h hok
  obtain heq | ⟨op₁, heq, hkey, -⟩ := adjustOp_eq_ok hstep
  · rwa [heq]
  · intro op' hop'
    rw [heq] at hop'
    obtain hop' | rfl := mem_snoc.mp hop'
    · exact h op' hop'
    · -- A put of the entry itself would have been dropped.
      intro hk
      have hopk : op.key = k := hkey.symm.trans hk
      cases op with
      | put key value =>
        obtain rfl : key = k := hopk
        have hskip : adjustOp kv acc (.put key value) = .ok acc := by
          unfold adjustOp
          split
          · rfl
          · dsimp only
            rw [isCounterKey_of_isClogKey hclog, if_neg (by simp), if_pos hclog, pushClogOp,
              if_pos (by simp [alreadyTerminal, hterm])]
        cases hskip.symm.trans hstep
        have := congrArg List.length heq
        simp at this
      | conditionalPut key expected value | delete key => cases hput _ hop hopk

lemma terminal_applyFrame {v : Bytes} (hok : applyFrame kv ops = .ok kv')
    (hclog : isClogKey k) (hput : OnlyPut ops k) (hv : kv[k]? = some v)
    (hterm : isTerminal v) : kv'[k]? = some v := by
  obtain ⟨acc, hacc, rfl⟩ := applyFrame_eq_ok hok
  unfold writeBatch
  split
  · exact hv
  · rw [getElem?_foldl_apply_of_ne (adjusted_ne_of_terminal hclog (by simp [hv, hterm]) hput hacc
      (by simp)), hv]

/-- What a store keeps of a merged key under puts. -/
structure MergedKept (k : Bytes) (kv kv' : Kv) : Prop where
  counter : isCounterKey k = true → storedCounter kv k ≤ storedCounter kv' k
  clog : isClogKey k = true → ∀ v, kv[k]? = some v → isTerminal v = true → kv'[k]? = some v

lemma MergedKept.refl (k : Bytes) (kv : Kv) : MergedKept k kv kv :=
  ⟨fun _ => le_rfl, fun _ _ hv _ => hv⟩

lemma MergedKept.trans {kv₁ kv₂ kv₃ : Kv} (h : MergedKept k kv₁ kv₂) (h' : MergedKept k kv₂ kv₃) :
    MergedKept k kv₁ kv₃ :=
  ⟨fun hk => (h.counter hk).trans (h'.counter hk), fun hk v hv ht => h'.clog hk v (h.clog hk v hv ht) ht⟩

lemma MergedKept.applyFrames (hput : OnlyPut (frames.map WalFrame.ops).flatten k) :
    MergedKept k kv (applyFrames kv frames).1 := by
  induction frames generalizing kv with
  | nil => exact .refl k kv
  | cons frame frames ih =>
    unfold applyFrames
    cases hok : applyFrame kv frame.ops with
    | error e => exact .refl k kv
    | ok kv₁ =>
      have hframe : OnlyPut frame.ops k := fun op hop => hput op (by simp [hop])
      have hstep : MergedKept k kv kv₁ :=
        ⟨fun hk => storedCounter_applyFrame hok hk hframe,
          fun hk _ hv ht => terminal_applyFrame hok hk hframe hv ht⟩
      exact hstep.trans (ih fun op hop => hput op (by
        exact mem_append_right _ hop))

/-- The commit does not delete or conditionally put the key. -/
def PutsOnly (k : Bytes) : RangeEvent → Prop
  | .commit ops _ => OnlyPut ops k
  | _ => True

lemma MergedKept.next {l : RangeEvent} (hput : PutsOnly k l) : MergedKept k s.kv (RangeEvent.next s l).kv := by
  cases l with
  | barrier | skip => exact .refl k _
  | commit ops maxFrameBytes =>
    show MergedKept k s.kv (s.commit ops maxFrameBytes).kv
    unfold Range.commit
    cases hchunk : chunkFrames ops s.nextJournalSeq maxFrameBytes with
    | none => exact .refl k _
    | some frames =>
      refine MergedKept.applyFrames ?_
      rwa [flatten_chunkFrames hchunk]

/-! ## Recovery -/

/-- In every run of commits that meet the condition, replay of the whole log and replay from every
checkpoint give the live store and its next journal sequence; under puts, merged counters do not decrease
and terminal commit-log entries do not change. -/
theorem recovery_eq_live {s : Range} (hrun : rangeSys.Run Durable {} s) :
    s.recover ∅ 0 0 = .ok (s.kv, s.nextJournalSeq) ∧
      (∀ cp ∈ s.checkpoints, s.recover (restoreSorted cp.pairs) (cp.coveredOffset + 1) cp.journalSeq =
        .ok (s.kv, s.nextJournalSeq)) ∧
      ∀ k t, rangeSys.Run (fun _ l => PutsOnly k l) s t →
        (isCounterKey k = true → storedCounter s.kv k ≤ storedCounter t.kv k) ∧
        (isClogKey k = true → ∀ v, s.kv[k]? = some v → isTerminal v = true → t.kv[k]? = some v) := by
  have hinv := rangeInv_of_run hrun
  refine ⟨hinv.empty.recover, fun cp hcp => (hinv.checkpoint cp hcp).recover, fun k t hputs => ?_⟩
  have hkept : MergedKept k s.kv t.kv :=
    (hputs.relates (P := fun _ => True) (R := fun a b => MergedKept k a.kv b.kv) trivial
      (fun _ => .refl k _) MergedKept.trans fun _ _ _ _ hput => ⟨trivial, .next hput⟩).2
  exact ⟨hkept.counter, hkept.clog⟩

/-- A commit in two frames, a barrier of another recovery, and a commit with a conditional put. -/
def twoCommits : List RangeEvent :=
  [.commit [.put maxTsKey [0, 0, 0, 0, 0, 0, 0, 9], .put [97] [1]] 40, .skip, .barrier,
    .commit [.conditionalPut [97] (some [1]) [2], .put maxTsKey [0, 0, 0, 0, 0, 0, 0, 3]] 100]

/-- Two commits, recovered from the beginning of the log. -/
theorem recovery_eq_live_twoCommits :
    (rangeSys.execs {} twoCommits).recover ∅ 0 0 = .ok ((rangeSys.execs {} twoCommits).kv, 3) :=
  (recovery_eq_live (rangeSys.run_of_runsOk)).1

/-- A malformed horizon is logged and refused; the next commit reuses its journal sequence. -/
theorem refused_frame_blocks_recovery :
    rangeSys.AnyRun {} (rangeSys.execs {} [.commit [.put maxTsKey [1, 2, 3]] 100, .commit [.put [97] [1]] 100]) ∧
      (rangeSys.execs {} [.commit [.put maxTsKey [1, 2, 3]] 100, .commit [.put [97] [1]] 100]).kv =
        (∅ : Kv).insert [97] [1] ∧
      ((rangeSys.execs {} [.commit [.put maxTsKey [1, 2, 3]] 100, .commit [.put [97] [1]] 100]).recover
        ∅ 0 0).toOption = none := by
  refine ⟨Sys.run_of_runs, ?_⟩
  decide +kernel

end Crabka.Gres.Substrate
