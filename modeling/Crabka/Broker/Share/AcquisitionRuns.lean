import Crabka.Broker.Share.AcquisitionState

/-!
# Share deliveries over whole runs

A call leaves an offset in the window with its delivery count, hands it out with the count raised by one, makes it new,
or drops it at the front (`Follows`). Each call is a chain of such steps, and everything about whole runs follows from
`Follows` alone.
-/

namespace Crabka.Broker.Share
open Found List
open AcquisitionState hiding splitAtOffset

/-! ## One call -/

/-- A lock is there exactly while the record is acquired. -/
def Delivery.LockFits (d : Delivery) : Prop :=
  (d.acquiredBy.isSome ↔ d.state = .acquired) ∧ (d.lockDeadline.isSome ↔ d.state = .acquired)

/-- The batches tile the window and their locks fit their states. -/
structure AcquisitionState.Sound (sm : AcquisitionState) : Prop where
  tiles : Tiles sm.startOffset sm.batches sm.endOffset
  locks : ∀ b ∈ sm.batches, b.value.LockFits

def Covered (ranges : List AcquiredRange) (o : ℤ) : Prop := ∃ r ∈ ranges, r.first ≤ o ∧ o ≤ r.last

instance (ranges : List AcquiredRange) (o : ℤ) : Decidable (Covered ranges o) :=
  inferInstanceAs (Decidable (∃ r ∈ ranges, _))

/-- What a call that returns `ranges` does to the machine. -/
structure Follows (maxAttempts : ℤ) (sm sm' : AcquisitionState) (ranges : List AcquiredRange) :
    Prop where
  sound : sm'.Sound
  start_le : sm.startOffset ≤ sm'.startOffset
  end_le : sm.endOffset ≤ sm'.endOffset
  /-- Only available records below the limit are handed out. -/
  handed : ∀ o, Covered ranges o → ∃ d, valueAt sm.batches o = some d ∧ d.state = .available ∧
    d.deliveryCount < maxAttempts
  /-- A record of the window is new, or was there with the count that the call leaves it. -/
  each : ∀ o d', valueAt sm'.batches o = some d' →
    (sm.endOffset ≤ o ∧ d'.deliveryCount = 0) ∨
      ∃ d, valueAt sm.batches o = some d ∧
        d'.deliveryCount = (if Covered ranges o then d.deliveryCount + 1 else d.deliveryCount) ∧
        (d.state.terminal = true → d'.state.terminal = true)

section call
variable {maxAttempts : ℤ} {sm sm₁ sm₂ : AcquisitionState} {ranges : List AcquiredRange}

lemma not_covered_nil (o : ℤ) : ¬ Covered [] o := by rintro ⟨r, hr, -⟩; cases hr

lemma Follows.trans (h : Follows maxAttempts sm sm₁ ranges) (h' : Follows maxAttempts sm₁ sm₂ []) :
    Follows maxAttempts sm sm₂ ranges where
  sound := h'.sound
  start_le := h.start_le.trans h'.start_le
  end_le := h.end_le.trans h'.end_le
  handed := h.handed
  each o d' hd' := by
    rcases h'.each o d' hd' with ⟨hend, hzero⟩ | ⟨d₁, hd₁, hcount, hterm⟩
    · exact .inl ⟨h.end_le.trans hend, hzero⟩
    · rw [if_neg (not_covered_nil o)] at hcount
      rcases h.each o d₁ hd₁ with ⟨hend, hzero⟩ | ⟨d, hd, hcount', hterm'⟩
      · exact .inl ⟨hend, hcount.trans hzero⟩
      · exact .inr ⟨d, hd, hcount.trans hcount', fun ht => hterm (hterm' ht)⟩

lemma Follows.of_window (hsound : sm₁.Sound) (hstart : sm.startOffset ≤ sm₁.startOffset)
    (hend : sm.endOffset = sm₁.endOffset)
    (heach : ∀ o d', valueAt sm₁.batches o = some d' → ∃ d, valueAt sm.batches o = some d ∧
      d'.deliveryCount = d.deliveryCount ∧ (d.state.terminal → d'.state.terminal)) :
    Follows maxAttempts sm sm₁ [] where
  sound := hsound
  start_le := hstart
  end_le := hend.le
  handed o ho := absurd ho (not_covered_nil o)
  each o d' hd' := by
    obtain ⟨d, hd, hcount, hterm⟩ := heach o d' hd'
    exact .inr ⟨d, hd, by rw [if_neg (not_covered_nil o)]; exact hcount, hterm⟩

section
variable (h : sm.Sound)
include h

lemma follows_self : Follows maxAttempts sm sm [] :=
  .of_window h le_rfl rfl fun _ d hd => ⟨d, hd, rfl, id⟩

lemma follows_splitAtOffset (cut : ℤ) : Follows maxAttempts sm (sm.splitAtOffset cut) [] := by
  refine .of_window ⟨h.tiles.splitAtOffset cut, fun b hb => ?_⟩ le_rfl rfl fun o d hd =>
    ⟨d, (valueAt_splitAtOffset cut sm.batches o).symm.trans hd, rfl, id⟩
  obtain ⟨b', hb', heq⟩ := exists_of_mem_splitAtOffset hb
  exact heq ▸ h.locks b' hb'

lemma follows_coalesce : Follows maxAttempts sm sm.coalesce [] := by
  refine .of_window ⟨h.tiles.coalesce, fun b hb => ?_⟩ le_rfl rfl fun o d hd =>
    ⟨d, (valueAt_coalesce h.tiles o).symm.trans hd, rfl, id⟩
  obtain ⟨b', hb', heq⟩ := exists_of_mem_coalesce hb
  exact heq ▸ h.locks b' hb'

omit h in
lemma Follows.coalesce (h : Follows maxAttempts sm sm₁ ranges) :
    Follows maxAttempts sm sm₁.coalesce ranges := h.trans (follows_coalesce h.sound)

lemma follows_revalue {f : InFlightBatch → Delivery}
    (hstart : sm₁.startOffset = sm.startOffset) (hend : sm₁.endOffset = sm.endOffset)
    (hbatches : sm₁.batches = revalue f sm.batches)
    (hf : ∀ b ∈ sm.batches, (f b).LockFits ∧ (f b).deliveryCount = b.value.deliveryCount ∧
      (b.value.state.terminal → (f b).state.terminal)) :
    Follows maxAttempts sm sm₁ [] := by
  refine .of_window ⟨?_, ?_⟩ hstart.ge hend.symm ?_
  · rw [hstart, hend, hbatches]
    exact h.tiles.revalue f
  · intro b hb
    rw [hbatches] at hb
    obtain ⟨b', hb', rfl⟩ := mem_map.mp hb
    exact (hf b' hb').1
  · intro o d' hd'
    rw [hbatches] at hd'
    obtain ⟨b, hb, -, hval, rfl⟩ := exists_of_valueAt_revalue hd'
    exact ⟨b.value, hval, (hf b hb).2⟩

lemma follows_advanceSpso : Follows maxAttempts sm sm.advanceSpso [] := by
  have hdrop : Tiles (dropDone (fun d : Delivery => d.state.terminal) sm.startOffset sm.batches).1
      (dropDone (fun d : Delivery => d.state.terminal) sm.startOffset sm.batches).2 sm.endOffset :=
    h.tiles.dropDone
  have hend : ¬ sm.endOffset <
      (dropDone (fun d : Delivery => d.state.terminal) sm.startOffset sm.batches).1 :=
    not_lt.mpr hdrop.le
  unfold advanceSpso
  simp only [if_neg hend]
  refine Follows.coalesce (.of_window ⟨hdrop, fun b hb => ?_⟩ h.tiles.le_dropDone rfl fun o d hd => ?_)
  · exact h.locks b ((dropDone_suffix _ _ _).subset hb)
  · exact ⟨d, h.tiles.valueAt_dropDone hd, rfl, id⟩

end

lemma Follows.advanceSpso (h : Follows maxAttempts sm sm₁ ranges) :
    Follows maxAttempts sm sm₁.advanceSpso ranges := h.trans (follows_advanceSpso h.sound)

variable {d : Delivery}

lemma lockFits_unlocked {state : RecordState} (h : state ≠ .acquired) :
    (d.unlocked state).LockFits := by simp [Delivery.LockFits, Delivery.unlocked, h]

section
variable (h : sm.Sound)
include h

lemma follows_materialize (hwm maxInflight : ℤ) : Follows maxAttempts sm (sm.materialize hwm maxInflight) [] := by
  unfold materialize
  split
  · exact follows_self h
  · simp only
    split
    · exact follows_self h
    · rename_i hlast
      set last := min (hwm - 1) (wrap64 (sm.endOffset + max maxInflight 1 - 1)) with hl
      set b : InFlightBatch := ⟨sm.endOffset, last, { state := .available, deliveryCount := 0 }⟩ with hb
      have htiles : Tiles sm.startOffset (sm.batches ++ [b]) (last + 1) :=
        h.tiles.concat rfl (not_lt.mp hlast)
      have hsound : AcquisitionState.Sound { sm with batches := sm.batches ++ [b], endOffset := last + 1 } := by
        refine ⟨htiles, fun b' hb' => ?_⟩
        rcases mem_snoc.mp hb' with hb' | rfl
        · exact h.locks b' hb'
        · simp [Delivery.LockFits, hb]
      refine Follows.coalesce ⟨hsound, le_rfl, ?_, fun o ho => absurd ho (not_covered_nil o), fun o d hd => ?_⟩
      · show sm.endOffset ≤ last + 1
        omega
      · rw [valueAt_append] at hd
        cases hold : valueAt sm.batches o with
        | some d₀ =>
          rw [hold] at hd
          obtain rfl := Option.some.inj hd
          exact .inr ⟨d₀, rfl, by rw [if_neg (not_covered_nil o)], id⟩
        | none =>
          rw [hold] at hd
          obtain ⟨s, hs, hso, rfl⟩ := exists_of_valueAt (show valueAt [b] o = some d from hd)
          obtain rfl := mem_singleton.mp hs
          exact .inl ⟨hso.1, rfl⟩

lemma follows_carve (first last : ℤ) : Follows maxAttempts sm ((sm.splitAtOffset first).splitAtOffset last) [] := by
  have hfirst : Follows maxAttempts sm (sm.splitAtOffset first) [] := follows_splitAtOffset h first
  exact hfirst.trans (follows_splitAtOffset hfirst.sound last)

lemma follows_archiveInternal (first last : ℤ) : Follows maxAttempts sm (sm.archiveInternal first last) [] := by
  unfold archiveInternal
  split
  · exact follows_self h
  · have hcarve : Follows maxAttempts sm _ [] := follows_carve h first (wrap64 (last + 1))
    simp only
    split
    · refine hcarve.trans (Follows.advanceSpso
        (follows_revalue hcarve.sound rfl rfl rfl fun b hb => ?_))
      split
      · exact ⟨lockFits_unlocked (by decide), rfl, fun _ => rfl⟩
      · exact ⟨hcarve.sound.locks b hb, rfl, id⟩
    · exact hcarve

omit h in
lemma acquired_of_inRange {first last : ℤ} {b : InFlightBatch}
    (h : inRange first last b) : b.value.state = .acquired := by
  simp only [inRange, Bool.and_eq_true, beq_iff_eq] at h
  exact h.2

lemma follows_acknowledge (member : String) (first last : ℤ) (ack : AckType) :
    Follows maxAttempts sm ((sm.acknowledge member first last ack).toOption.getD sm) [] := by
  unfold acknowledge
  split
  · exact follows_self h
  · split
    · exact follows_self h
    · have hcarve : Follows maxAttempts sm _ [] := follows_carve h first (wrap64 (last + 1))
      refine hcarve.trans (Follows.advanceSpso (follows_revalue hcarve.sound rfl rfl rfl fun b hb => ?_))
      split_ifs with hin
      · have hres : ack.result ≠ .acquired := by cases ack <;> decide
        refine ⟨lockFits_unlocked hres, rfl, fun ht => ?_⟩
        rw [acquired_of_inRange hin] at ht
        cases ht
      · exact ⟨hcarve.sound.locks b hb, rfl, id⟩

lemma follows_renew (member : String) (first last now lockDur : ℤ) :
    Follows maxAttempts sm ((sm.renew member first last now lockDur).toOption.getD sm) [] := by
  unfold renew
  split
  · exact follows_self h
  · split
    · exact follows_self h
    · have hcarve : Follows maxAttempts sm _ [] := follows_carve h first (wrap64 (last + 1))
      refine hcarve.trans (follows_revalue hcarve.sound rfl rfl rfl fun b hb => ?_)
      split_ifs with hin
      · have hacq := acquired_of_inRange hin
        exact ⟨⟨(hcarve.sound.locks b hb).1, by simp [hacq]⟩, rfl, id⟩
      · exact ⟨hcarve.sound.locks b hb, rfl, id⟩

omit h in
lemma acquired_of_and {p : Bool} (h : (d.state == .acquired && p) = true) : d.state = .acquired := by
  simp only [Bool.and_eq_true, beq_iff_eq] at h
  exact h.1

lemma follows_releaseWhere {p : Delivery → Bool} (hp : ∀ d, p d → d.state = .acquired) :
    Follows maxAttempts sm (sm.releaseWhere p) [] := by
  unfold releaseWhere
  split
  · refine Follows.coalesce (follows_revalue h rfl rfl rfl fun b hb => ?_)
    split_ifs with hpb
    · refine ⟨lockFits_unlocked (by decide), rfl, fun ht => ?_⟩
      rw [hp _ hpb] at ht
      cases ht
    · exact ⟨h.locks b hb, rfl, id⟩
  · exact follows_self h

lemma follows_expireLocks (now : ℤ) : Follows maxAttempts sm (sm.expireLocks now) [] := by
  unfold expireLocks
  exact follows_releaseWhere h fun d hd => acquired_of_and hd

lemma follows_releaseMember (member : String) : Follows maxAttempts sm (sm.releaseMember member) [] := by
  unfold releaseMember
  exact follows_releaseWhere h fun d hd => acquired_of_and hd

end

/-! ### The walk of `acquire` -/

/-- What the walk makes of the batches `bs`, which tile `[low, high)`. -/
structure Walked (maxAttempts : ℤ) (bs : List InFlightBatch) (low high : ℤ)
    (bs' : List InFlightBatch) (acquired : List AcquiredRange) : Prop where
  tiles : Tiles low bs' high
  locks : ∀ b ∈ bs', b.value.LockFits
  handed : ∀ o, Covered acquired o → ∃ d, valueAt bs o = some d ∧ d.state = .available ∧
    d.deliveryCount < maxAttempts
  each : ∀ o d', valueAt bs' o = some d' → ∃ d, valueAt bs o = some d ∧
    d'.deliveryCount = (if Covered acquired o then d.deliveryCount + 1 else d.deliveryCount) ∧
    (d.state.terminal = true → d'.state.terminal = true)

section walk
variable {b : InFlightBatch} {bs bs' : List InFlightBatch} {low high : ℤ} {acquired : List AcquiredRange}

lemma walked_self (htiles : Tiles low bs high) (hlocks : ∀ b ∈ bs, b.value.LockFits) :
    Walked maxAttempts bs low high bs [] :=
  ⟨htiles, hlocks, fun o ho => absurd ho (not_covered_nil o),
    fun o d hd => ⟨d, hd, by rw [if_neg (not_covered_nil o)], id⟩⟩

section
variable (h : Walked maxAttempts bs (b.last + 1) high bs' acquired)
include h

lemma Walked.not_covered (htiles : Tiles (b.last + 1) bs high) {o : ℤ} (ho : b.Has o) : ¬ Covered acquired o := by
  intro hcov
  obtain ⟨d, hd, -⟩ := h.handed o hcov
  have := (htiles.bounds_of_valueAt hd).1
  unfold Span.Has at ho
  omega

lemma Walked.pass
    (htiles : Tiles low (b :: bs) high) (hd : d.LockFits)
    (hcount : d.deliveryCount = b.value.deliveryCount)
    (hterm : b.value.state.terminal → d.state.terminal) :
    Walked maxAttempts (b :: bs) low high (b.with d :: bs') acquired := by
  obtain ⟨rfl, hle, hbs⟩ := htiles
  refine ⟨⟨rfl, hle, h.tiles⟩, ?_, fun o ho => ?_, fun o d' hd' => ?_⟩
  · intro b' hb'
    rcases mem_cons.mp hb' with rfl | hb'
    · exact hd
    · exact h.locks b' hb'
  · have hb : ¬ b.Has o := fun hb => h.not_covered hbs hb ho
    rw [valueAt, if_neg hb]
    exact h.handed o ho
  · rw [valueAt] at hd' ⊢
    by_cases hb : b.Has o
    · have hb' : (b.with d).Has o := hb
      rw [if_pos hb'] at hd'
      cases hd'
      refine ⟨b.value, if_pos hb, ?_, hterm⟩
      rwa [if_neg (h.not_covered hbs hb)]
    · have hb' : ¬ (b.with d).Has o := hb
      rw [if_neg hb'] at hd'
      rw [if_neg hb]
      exact h.each o d' hd'

end

lemma Walked.take (h : Walked maxAttempts bs (b.last + 1) high bs' acquired)
    (htiles : Tiles low (b :: bs) high) (hstate : b.value.state = .available)
    (hlt : b.value.deliveryCount < maxAttempts) (member : String) (deadline n : ℤ) :
    Walked maxAttempts (b :: bs) low high (b.with (b.value.handedOut member deadline) :: bs')
      (⟨b.first, b.last, n⟩ :: acquired) := by
  obtain ⟨rfl, hle, hbs⟩ := htiles
  have hcov : ∀ o, Covered (⟨b.first, b.last, n⟩ :: acquired) o ↔ b.Has o ∨ Covered acquired o :=
    fun o => by simp [Covered, Span.Has]
  refine ⟨⟨rfl, hle, h.tiles⟩, ?_, fun o ho => ?_, fun o d' hd' => ?_⟩
  · intro b' hb'
    rcases mem_cons.mp hb' with rfl | hb'
    · simp [Delivery.LockFits, Delivery.handedOut, Span.with]
    · exact h.locks b' hb'
  · rw [valueAt]
    by_cases hb : b.Has o
    · exact ⟨b.value, if_pos hb, hstate, hlt⟩
    · rw [if_neg hb]
      exact h.handed o (((hcov o).mp ho).resolve_left hb)
  · rw [valueAt] at hd' ⊢
    by_cases hb : b.Has o
    · have hb' : (b.with (b.value.handedOut member deadline)).Has o := hb
      rw [if_pos hb'] at hd'
      cases hd'
      refine ⟨b.value, if_pos hb, ?_, fun ht => ?_⟩
      · rw [if_pos ((hcov o).mpr (.inl hb))]
        rfl
      · rw [hstate] at ht
        cases ht
    · have hb' : ¬ (b.with (b.value.handedOut member deadline)).Has o := hb
      rw [if_neg hb'] at hd'
      rw [if_neg hb]
      obtain ⟨d, hd, hcount, hterm⟩ := h.each o d' hd'
      have hiff : Covered (⟨b.first, b.last, n⟩ :: acquired) o ↔ Covered acquired o :=
        (hcov o).trans (or_iff_right hb)
      exact ⟨d, hd, by simp only [hiff]; exact hcount, hterm⟩

lemma walked_acquireLoop (member : String) (deadline : ℤ) {remaining : ℤ} (completed : ℤ)
    (hremaining : 0 ≤ remaining) (htiles : Tiles low bs high)
    (hlocks : ∀ b ∈ bs, b.value.LockFits) :
    Walked maxAttempts bs low high
      (acquireLoop member deadline maxAttempts bs remaining completed).batches
      (acquireLoop member deadline maxAttempts bs remaining completed).acquired := by
  -- The walk goes batch by batch, with the records that are still wanted.
  induction bs generalizing low remaining completed with
  | nil => exact walked_self htiles hlocks
  | cons b bs ih =>
    obtain ⟨hb, hbs⟩ := forall_mem_cons.mp hlocks
    have htiles' := htiles.2.2
    rw [acquireLoop]
    by_cases hzero : remaining = 0
    · rw [if_pos hzero]
      exact walked_self htiles hlocks
    rw [if_neg hzero]
    by_cases hstate : b.value.state ≠ .available
    · rw [if_pos hstate]
      exact (ih completed hremaining htiles' hbs).pass htiles hb rfl id
    rw [if_neg hstate]
    by_cases hmax : b.value.deliveryCount ≥ maxAttempts
    · rw [if_pos hmax]
      exact (ih _ hremaining htiles' hbs).pass htiles (lockFits_unlocked (by decide)) rfl fun _ => rfl
    rw [if_neg hmax]
    have hstate' := not_not.mp hstate
    have hlt := not_le.mp hmax
    by_cases hlen : b.len > remaining
    · simp only [if_pos hlen]
      -- The first part is handed out whole, and the walk ends there.
      set first : InFlightBatch := ⟨b.first, b.first + remaining - 1, b.value⟩ with hfirst
      set rest : InFlightBatch := ⟨b.first + remaining, b.last, b.value⟩ with hrest
      obtain ⟨rfl, hle, -⟩ := htiles
      unfold Span.len at hlen
      have hsplit : splitAtOffset (b.first + remaining) (b :: bs) = first :: rest :: bs := by
        rw [splitAtOffset, if_pos (by omega)]
      have htiles₂ : Tiles b.first (first :: rest :: bs) high :=
        hsplit ▸ Tiles.splitAtOffset (b.first + remaining) ⟨rfl, hle, htiles'⟩
      have hself : Walked maxAttempts (rest :: bs) (first.last + 1) high (rest :: bs) [] :=
        walked_self htiles₂.2.2 (forall_mem_cons.mpr ⟨hb, hbs⟩)
      have htake := hself.take htiles₂ hstate' hlt member deadline (b.value.handedOut member deadline).deliveryCount
      have hvalue : ∀ o, valueAt (first :: rest :: bs) o = valueAt (b :: bs) o := fun o =>
        hsplit ▸ valueAt_splitAtOffset (b.first + remaining) (b :: bs) o
      exact ⟨htake.tiles, htake.locks, fun o ho => hvalue o ▸ htake.handed o ho,
        fun o d' hd' => hvalue o ▸ htake.each o d' hd'⟩
    · simp only [if_neg hlen]
      exact (ih completed (by omega) htiles' hbs).take htiles hstate' hlt member deadline _

end walk

lemma follows_acquire (h : sm.Sound) (member : String) (maxRecords now lockDur : ℤ) :
    Follows maxAttempts sm (sm.acquire member maxRecords now lockDur maxAttempts).1
      (sm.acquire member maxRecords now lockDur maxAttempts).2 := by
  have hwalk : Walked maxAttempts sm.batches sm.startOffset sm.endOffset _ _ :=
    walked_acquireLoop member (now + lockDur) sm.deliveryCompleteCount (le_max_right maxRecords 0) h.tiles h.locks
  have hfollows : ∀ sm₁ : AcquisitionState, sm₁.startOffset = sm.startOffset →
      sm₁.endOffset = sm.endOffset → sm₁.batches = (acquireLoop member (now + lockDur) maxAttempts
        sm.batches (max maxRecords 0) sm.deliveryCompleteCount).batches →
      Follows maxAttempts sm sm₁ (acquireLoop member (now + lockDur) maxAttempts
        sm.batches (max maxRecords 0) sm.deliveryCompleteCount).acquired := by
    intro sm₁ hstart hend hbatches
    refine ⟨⟨?_, ?_⟩, hstart.ge, hend.ge, hwalk.handed, fun o d' hd' => .inr ?_⟩
    · rw [hstart, hend, hbatches]
      exact hwalk.tiles
    · rw [hbatches]
      exact hwalk.locks
    · rw [hbatches] at hd'
      exact hwalk.each o d' hd'
  unfold acquire
  simp only
  split
  · exact (hfollows { sm with batches := _, deliveryCompleteCount := _, dirty := true }
      rfl rfl rfl).advanceSpso
  · exact hfollows _ rfl rfl rfl

/-! ### Leader changes -/

def Delivery.reloaded (d : Delivery) : Delivery := d.unlocked (.ofCode d.state.code)

lemma follows_reload (h : sm.Sound) (stateEpoch leaderEpoch : ℤ) :
    Follows maxAttempts sm (sm.reload stateEpoch leaderEpoch) [] := by
  unfold reload loadFrom toPersistBatches
  refine Follows.coalesce (follows_revalue h (f := fun b => b.value.reloaded) rfl ?_ ?_ fun b _ => ?_)
  · simp only [map_map]
    exact h.tiles.max_end
  · simp only [map_map]
    rfl
  · refine ⟨lockFits_unlocked ?_, rfl, fun ht => ?_⟩
    · cases b.value.state <;> decide
    · have : (RecordState.ofCode b.value.state.code).terminal := by
        revert ht
        cases b.value.state <;> decide
      exact this

lemma follows_after (h : sm.Sound) (l : ShareStep) :
    Follows maxAttempts sm (sm.after maxAttempts l).1 (sm.after maxAttempts l).2 := by
  cases l with
  | materialize hwm maxInflight => exact follows_materialize h hwm maxInflight
  | acquire member maxRecords now lockDur => exact follows_acquire h member maxRecords now lockDur
  | acknowledge member first last ack _ => exact follows_acknowledge h member first last ack
  | renew member first last now lockDur => exact follows_renew h member first last now lockDur
  | expireLocks now => exact follows_expireLocks h now
  | releaseMember member => exact follows_releaseMember h member
  | archiveInternal first last => exact follows_archiveInternal h first last
  | reload stateEpoch leaderEpoch => exact follows_reload h stateEpoch leaderEpoch

end call

/-! ## Runs -/

section runs
variable {maxAttempts : ℤ} {r r' : ShareRun}

/-- How many calls of `acquire` returned the offset. -/
def ShareRun.deliveries (r : ShareRun) (o : ℤ) : ℕ :=
  r.answers.countP fun ranges => decide (Covered ranges o)

/-- The state is sound, and it counts the deliveries of each record. -/
structure ShareInv (maxAttempts : ℤ) (r : ShareRun) : Prop where
  sound : r.sm.Sound
  counted : ∀ o d, valueAt r.sm.batches o = some d →
    d.deliveryCount = r.deliveries o ∧ d.deliveryCount ≤ maxAttempts
  fresh : ∀ o, r.sm.endOffset ≤ o → r.deliveries o = 0

lemma deliveries_next (r : ShareRun) (l : ShareStep) (o : ℤ) :
    ((shareSys maxAttempts).next r l).deliveries o =
      r.deliveries o + if Covered (r.sm.after maxAttempts l).2 o then 1 else 0 := by
  simp [ShareRun.deliveries, shareSys, countP_append, countP_singleton]

lemma ShareInv.next (hmax : 1 ≤ maxAttempts) (h : ShareInv maxAttempts r) (l : ShareStep) :
    ShareInv maxAttempts ((shareSys maxAttempts).next r l) := by
  have hf : Follows maxAttempts r.sm (r.sm.after maxAttempts l).1 (r.sm.after maxAttempts l).2 :=
    follows_after h.sound l
  -- A record that is handed out was in the window.
  have hbelow : ∀ o, r.sm.endOffset ≤ o → ¬ Covered (r.sm.after maxAttempts l).2 o := by
    intro o ho hcov
    obtain ⟨d, hd, -⟩ := hf.handed o hcov
    have := (h.sound.tiles.bounds_of_valueAt hd).2
    omega
  refine ⟨hf.sound, fun o d' hd' => ?_, fun o ho => ?_⟩
  · rw [deliveries_next]
    rcases hf.each o d' hd' with ⟨hend, hzero⟩ | ⟨d, hd, hcount, -⟩
    · rw [if_neg (hbelow o hend), h.fresh o hend, hzero]
      exact ⟨rfl, by omega⟩
    · obtain ⟨hc, hle⟩ := h.counted o d hd
      by_cases hcov : Covered (r.sm.after maxAttempts l).2 o
      · obtain ⟨d₀, hd₀, -, hlt⟩ := hf.handed o hcov
        cases hd.symm.trans hd₀
        rw [if_pos hcov] at hcount ⊢
        push_cast
        omega
      · rw [if_neg hcov] at hcount ⊢
        omega
  · have hend : r.sm.endOffset ≤ o := hf.end_le.trans ho
    rw [deliveries_next, if_neg (hbelow o hend), h.fresh o hend]

/-- The record is acknowledged or archived, or was before it left the window. -/
def AcquisitionState.Finished (sm : AcquisitionState) (o : ℤ) : Prop :=
  o < sm.startOffset ∨ ∃ d, valueAt sm.batches o = some d ∧ d.state.terminal = true

/-- What a run from `r` to `r'` keeps. -/
structure Keeps (r r' : ShareRun) : Prop where
  start_le : r.sm.startOffset ≤ r'.sm.startOffset
  finished : ∀ o, r.sm.Finished o → r'.sm.Finished o
  later : ∃ later, r'.answers = r.answers ++ later ∧ ∀ ranges ∈ later, ∀ o, r.sm.Finished o → ¬ Covered ranges o

lemma Keeps.refl (r : ShareRun) : Keeps r r :=
  ⟨le_rfl, fun _ => id, [], (append_nil _).symm, nofun⟩

lemma Keeps.trans {r'' : ShareRun} (h : Keeps r r') (h' : Keeps r' r'') : Keeps r r'' := by
  obtain ⟨later, heq, hlater⟩ := h.later
  obtain ⟨later', heq', hlater'⟩ := h'.later
  refine ⟨h.start_le.trans h'.start_le, fun o ho => h'.finished o (h.finished o ho),
    later ++ later', by rw [heq', heq, append_assoc], fun ranges hr o ho => ?_⟩
  rcases mem_append.mp hr with hr | hr
  · exact hlater ranges hr o ho
  · exact hlater' ranges hr o (h.finished o ho)

lemma ShareInv.keeps (h : ShareInv maxAttempts r) (l : ShareStep) : Keeps r ((shareSys maxAttempts).next r l) := by
  have hf : Follows maxAttempts r.sm (r.sm.after maxAttempts l).1 (r.sm.after maxAttempts l).2 :=
    follows_after h.sound l
  refine ⟨hf.start_le, fun o ho => ?_, _, rfl, fun ranges hr o ho hcov => ?_⟩
  · rcases ho with ho | ⟨d, hd, hterm⟩
    · exact .inl (ho.trans_le hf.start_le)
    · by_cases hstart : o < (r.sm.after maxAttempts l).1.startOffset
      · exact .inl hstart
      · have hend := (h.sound.tiles.bounds_of_valueAt hd).2
        obtain ⟨d', hd'⟩ := hf.sound.tiles.exists_valueAt (not_lt.mp hstart) (hend.trans_le hf.end_le)
        refine .inr ⟨d', hd', ?_⟩
        rcases hf.each o d' hd' with ⟨hge, -⟩ | ⟨d₀, hd₀, -, hterm'⟩
        · omega
        · cases hd.symm.trans hd₀
          exact hterm' hterm
  · obtain rfl := mem_singleton.mp hr
    obtain ⟨d, hd, hstate, -⟩ := hf.handed o hcov
    rcases ho with ho | ⟨d₀, hd₀, hterm⟩
    · have := (h.sound.tiles.bounds_of_valueAt hd).1
      omega
    · cases hd.symm.trans hd₀
      rw [hstate] at hterm
      cases hterm

lemma ShareInv.start (s : ℤ) :
    ShareInv maxAttempts { sm := .new s } where
  sound := ⟨rfl, nofun⟩
  counted o d hd := by cases hd
  fresh o _ := rfl

/-- In every state of a run the batches tile the window, a batch has an owner and a deadline exactly
when it is acquired, and its delivery count is the number of calls of `acquire` that returned its
offsets, at most `maxAttempts`. What `acquire` returns next is held by nobody. Later in the run the
start has not gone back, and no record that was finished is handed out again. -/
theorem share_deliveries_sound {s : ℤ} (hmax : 1 ≤ maxAttempts)
    (hrun : (shareSys maxAttempts).AnyRun { sm := .new s } r)
    (hrun' : (shareSys maxAttempts).AnyRun r r') :
    Tiles r.sm.startOffset r.sm.batches r.sm.endOffset ∧
      (∀ b ∈ r.sm.batches, (b.value.acquiredBy.isSome ↔ b.value.state = .acquired) ∧
        (b.value.lockDeadline.isSome ↔ b.value.state = .acquired)) ∧
      (∀ b ∈ r.sm.batches, ∀ o, b.Has o →
        b.value.deliveryCount = r.deliveries o ∧ b.value.deliveryCount ≤ maxAttempts) ∧
      (∀ member maxRecords now lockDur, ∀ b ∈ r.sm.batches, b.value.state = .acquired → ∀ o, b.Has o →
        ¬ Covered (r.sm.acquire member maxRecords now lockDur maxAttempts).2 o) ∧
      r.sm.startOffset ≤ r'.sm.startOffset ∧
      ∃ later, r'.answers = r.answers ++ later ∧ ∀ ranges ∈ later, ∀ o, r.sm.Finished o → ¬ Covered ranges o := by
  have hinv : ShareInv maxAttempts r :=
    hrun.preserves (fun _ l h _ _ => h.next hmax l) (ShareInv.start s)
  have hkeeps : Keeps r r' := (hrun'.relates (R := Keeps) hinv Keeps.refl Keeps.trans
    fun _ l h _ _ => ⟨h.next hmax l, h.keeps l⟩).2
  refine ⟨hinv.sound.tiles, hinv.sound.locks, fun b hb o ho => ?_, ?_, hkeeps.start_le, hkeeps.later⟩
  · exact hinv.counted o b.value (hinv.sound.tiles.valueAt_of_mem hb ho)
  · intro member maxRecords now lockDur b hb hstate o ho hcov
    have hf : Follows maxAttempts r.sm _ _ :=
      follows_acquire hinv.sound member maxRecords now lockDur
    obtain ⟨d, hd, havail, -⟩ := hf.handed o hcov
    cases (hinv.sound.tiles.valueAt_of_mem hb ho).symm.trans hd
    rw [hstate] at havail
    cases havail

/-- Three of five records are handed out, two of them accepted. -/
def acceptedTwo : List ShareStep :=
  [.materialize 5 100, .acquire "m1" 3 0 30, .acknowledge "m1" 0 1 .accept 5]

/-- The third one is released and handed out again, to another member. -/
def redelivered : List ShareStep :=
  [.releaseMember "m1", .reload 1 1, .acquire "m2" 1 40 30]

theorem share_deliveries_sound_redelivered :
    ((shareSys 5).execs { sm := .new 0 } acceptedTwo).sm.startOffset = 2 ∧
      ((shareSys 5).execs ((shareSys 5).execs { sm := .new 0 } acceptedTwo) redelivered).deliveries 2 = 2 ∧
      Tiles 2 ((shareSys 5).execs { sm := .new 0 } acceptedTwo).sm.batches 5 := by
  have hrun : (shareSys 5).AnyRun { sm := .new 0 } ((shareSys 5).execs { sm := .new 0 } acceptedTwo) :=
    Sys.run_of_runs
  have hrun' : (shareSys 5).AnyRun ((shareSys 5).execs { sm := .new 0 } acceptedTwo)
      ((shareSys 5).execs ((shareSys 5).execs { sm := .new 0 } acceptedTwo) redelivered) :=
    Sys.run_of_runs
  exact ⟨by decide +kernel, by decide +kernel, (share_deliveries_sound (by decide) hrun hrun').1⟩

end runs
end Crabka.Broker.Share
