import Crabka.Broker.Wal.ShardEngine

/-!
# What the watermark of a shard says about the disks

The leader counts itself up to the end of its log, not its last sync, so the watermark may pass what a majority has on
disk (`watermark_passes_sync`). When the unsynced tail makes no difference, and a new placement has a majority that is
up to date, the watermark is on the disks of a majority (`watermark_on_quorum`).
-/

namespace Crabka.Broker.Wal
open Found Function List
open Kraft (NodeId)
open WalShardEngine

/-! ## The recomputed watermark -/

section recompute
variable {logEnd cand : ℤ} {offsets : List ℤ} {majority : ℕ}

lemma foldl_capped (offsets : List ℤ) (cand : ℤ) {count : ℕ} (h : count ≤ majority) :
    offsets.foldl (fun count x => if x ≥ cand ∧ count < majority then count + 1 else count) count =
      min majority (count + offsets.countP fun x => decide (cand ≤ x)) := by
  induction offsets generalizing count with
  | nil => simp [h]
  | cons x xs ih =>
    rw [foldl_cons, countP_cons]
    by_cases hx : cand ≤ x
    · by_cases hc : count < majority
      · rw [if_pos ⟨hx, hc⟩, ih hc]
        simp only [hx, decide_true, if_true]
        omega
      · rw [if_neg (fun hcon => hc hcon.2), ih h]
        omega
    · rw [if_neg (fun hcon => hx hcon.1), ih h]
      simp [hx]

lemma candidateHasMajority_iff (hm : 0 < majority) :
    candidateHasMajority logEnd offsets cand majority ↔
      majority ≤ (if cand ≤ logEnd then 1 else 0) + offsets.countP fun x => decide (cand ≤ x) := by
  have hown : (if logEnd ≥ cand ∧ 0 < majority then 1 else 0) = if cand ≤ logEnd then 1 else 0 := by
    simp [hm]
  have hle : (if cand ≤ logEnd then 1 else 0) ≤ majority := by split <;> omega
  simp only [candidateHasMajority, hown, foldl_capped offsets cand hle, decide_eq_true_eq]
  omega

lemma hasMajority_of_lt_recompute {watermark logStart : ℤ} (hstart : logStart ≤ watermark)
    (hlow : -2 ^ 63 ≤ watermark)
    (hlt : watermark < recomputeHighWatermark logEnd offsets majority watermark logStart) :
    candidateHasMajority logEnd offsets
      (recomputeHighWatermark logEnd offsets majority watermark logStart) majority = true := by
  unfold recomputeHighWatermark at hlt ⊢
  dsimp only at hlt ⊢
  generalize hb : offsets.foldl _ _ = best at hlt ⊢
  -- The best candidate so far is none yet or has a majority.
  have hown : best = -2 ^ 63 ∨ candidateHasMajority logEnd offsets best majority := by
    rw [← hb]
    refine foldlRecOn (motive := fun b => b = -2 ^ 63 ∨
      candidateHasMajority logEnd offsets b majority) offsets _ ?_ fun b h cand _ => ?_
    · split_ifs with h
      · exact .inr h
      · exact .inl rfl
    · split_ifs with hc
      · exact .inr hc.2
      · exact h
  by_cases hgt : best > watermark
  · rw [if_pos hgt] at hlt ⊢
    rw [max_eq_left (by omega)]
    rcases hown with hown | hown
    · omega
    · exact hown
  · rw [if_neg hgt, max_self] at hlt
    omega

end recompute

/-! ## What the disks hold -/

/-- A number of distinct voters have everything below the offset on disk. -/
def WalShardEngine.OnDisks (e : WalShardEngine) (n : ℕ) (offset : ℤ) : Prop :=
  ∃ vs : List NodeId, vs.Nodup ∧ n ≤ vs.length ∧ ∀ v ∈ vs, offset ≤ e.onDisk v

/-- A majority of the placement has everything below the watermark on disk. -/
def WalShardEngine.upToDate (e : WalShardEngine) (voters : List NodeId) : ℕ :=
  voters.countP fun v => decide (e.durableWatermark ≤ e.onDisk v)

/-- What holds of a placement: acknowledged offsets are on disk. -/
structure PlacementInv (f : ℕ) (me : NodeId) (fsynced : NodeId → ℤ) (q : DistributedQuorum) :
    Prop where
  leader : q.me = me
  nodup : q.voters.Nodup
  length : q.voters.length = 2 * f + 1
  mem : me ∈ q.voters
  acks : ∀ v o, v ≠ me → q.durableOffsets v = some o → o ≤ fsynced v

/-- The end that a call of `replicate_and_sync` read is in the log, and after its sync on disk. -/
def TaskFits (synced logEnd : ℤ) : ReplicateTask → Prop
  | .syncing _ sourceEnd => sourceEnd ≤ logEnd
  | .synced _ sourceEnd => sourceEnd ≤ synced
  | .syncingLocally _ => False
  | .idle | .waiting _ => True

/-- What is below the watermark is on the disks of a majority of the placement. -/
structure WalInv (f : ℕ) (e : WalShardEngine) : Prop where
  expected : e.expectedVoters = 2 * f + 1
  low : -2 ^ 63 ≤ e.logStart
  start_le : e.logStart ≤ e.durableWatermark
  synced_le : e.synced ≤ e.logEnd
  disk_start : ∀ v, e.logStart ≤ e.onDisk v
  placement : ∀ q, e.distributed = some q → PlacementInv f e.me e.fsynced q
  upToDate : ∀ q, e.distributed = some q → f + 1 ≤ e.upToDate q.voters
  task : ∀ i, TaskFits e.synced e.logEnd (e.tasks i)
  watermark : e.OnDisks (f + 1) e.durableWatermark
  oks : ∀ target ∈ e.oks, e.OnDisks (f + 1) target

section steps
variable {f : ℕ} {e e' : WalShardEngine} {q : DistributedQuorum}

lemma WalShardEngine.OnDisks.mono {n : ℕ} {a b : ℤ} (h : e.OnDisks n a) (hab : b ≤ a)
    (hdisk : ∀ v, e.onDisk v ≤ e'.onDisk v) : e'.OnDisks n b := by
  obtain ⟨vs, hnd, hlen, hvs⟩ := h
  exact ⟨vs, hnd, hlen, fun v hv => hab.trans ((hvs v hv).trans (hdisk v))⟩

lemma onDisks_of_countP {n : ℕ} {vs : List NodeId} {o : ℤ} (hnd : vs.Nodup)
    (h : n ≤ vs.countP fun v => decide (o ≤ e.onDisk v)) : e.OnDisks n o := by
  refine ⟨vs.filter fun v => decide (o ≤ e.onDisk v), hnd.filter _, ?_, fun v hv => ?_⟩
  · rwa [← countP_eq_length_filter]
  · simpa using (mem_filter.mp hv).2

lemma countP_voters {vs : List NodeId} {me : NodeId} (hnd : vs.Nodup) (hme : me ∈ vs) (p : NodeId → Bool) :
    vs.countP p = (if p me then 1 else 0) + (vs.filter (· ≠ me)).countP p := by
  rw [(perm_cons_erase hme).countP_eq p, countP_cons, hnd.erase_eq_filter, Nat.add_comm]
  simp only [bne, ne_eq, decide_not, Bool.beq_eq_decide_eq]

/-- A watermark that rises, with the leader counted up to its last sync, is on the disks of a majority. -/
lemma WalInv.majority_of_lt (h : WalInv f e) (hq : PlacementInv f e.me e.fsynced q) {leaderEnd : ℤ}
    (hend : leaderEnd ≤ e.synced) (hlt : e.durableWatermark < e.watermarkOf q leaderEnd) :
    f + 1 ≤ q.voters.countP fun v => decide (e.watermarkOf q leaderEnd ≤ e.onDisk v) := by
  have hmaj : strictMajority q.voters.length = f + 1 := by
    rw [hq.length, strictMajority]
    omega
  have hcand := hasMajority_of_lt_recompute h.start_le (h.low.trans h.start_le) hlt
  rw [candidateHasMajority_iff (by rw [hmaj]; omega)] at hcand
  change strictMajority q.voters.length ≤ (if e.watermarkOf q leaderEnd ≤ leaderEnd then 1 else 0) +
    (e.followerEnds q).countP fun x => decide (e.watermarkOf q leaderEnd ≤ x) at hcand
  rw [hmaj] at hcand
  set w := e.watermarkOf q leaderEnd with hw
  rw [countP_voters hq.nodup hq.mem]
  -- The leader's part and the followers' part are each at most what is on disk.
  have hown : (if w ≤ leaderEnd then 1 else 0) ≤
      if decide (w ≤ e.onDisk e.me) = true then 1 else 0 := by
    have : e.onDisk e.me = e.synced := if_pos rfl
    rw [this]
    simp only [decide_eq_true_eq]
    split
    · rw [if_pos (by omega)]
    · exact Nat.zero_le _
  have hfollowers : ((e.followerEnds q).countP fun x => decide (w ≤ x)) ≤
      (q.voters.filter (· ≠ e.me)).countP fun v => decide (w ≤ e.onDisk v) := by
    rw [followerEnds, hq.leader, countP_map]
    refine countP_mono_left fun v hv hw' => ?_
    have hne : v ≠ e.me := by simpa using (mem_filter.mp hv).2
    simp only [comp_apply, decide_eq_true_eq] at hw' ⊢
    rw [onDisk, if_neg hne]
    have hstart := h.start_le
    cases hack : q.durableOffsets v with
    | none =>
      rw [hack, Option.getD_none] at hw'
      omega
    | some o =>
      rw [hack, Option.getD_some] at hw'
      exact hw'.trans (hq.acks v o hne hack)
  omega

variable {voter : NodeId}

lemma PlacementInv.noteAck (hq : PlacementInv f e.me e.fsynced q) {offset : ℤ}
    (hack : voter ≠ e.me → offset ≤ e.fsynced voter) :
    PlacementInv f e.me e.fsynced (e.noteAck q voter offset) := by
  unfold WalShardEngine.noteAck
  split
  · refine { hq with acks := fun v o hv ho => ?_ }
    obtain rfl | heq := eq_or_ne v voter
    · simp only [update_self, Option.some.injEq] at ho
      exact ho ▸ hack hv
    · simp only [update_of_ne heq] at ho
      exact hq.acks v o hv ho
  · exact hq

@[simp] lemma voters_noteAck (voter : NodeId) (offset : ℤ) : (e.noteAck q voter offset).voters = q.voters := by
  unfold noteAck
  split <;> rfl

lemma le_recordDurableOffset (voter : NodeId) (offset leaderEnd : ℤ) :
    e.durableWatermark ≤ (e.recordDurableOffset voter offset leaderEnd).durableWatermark := by
  unfold recordDurableOffset
  split
  · exact le_rfl
  · split
    · dsimp only
      split
      · exact le_rfl
      · omega
    · exact le_rfl

lemma WalInv.recordDurableOffset (h : WalInv f e) {offset leaderEnd : ℤ}
    (hack : voter ≠ e.me → offset ≤ e.fsynced voter) (hend : leaderEnd ≤ e.synced) :
    WalInv f (e.recordDurableOffset voter offset leaderEnd) := by
  unfold WalShardEngine.recordDurableOffset
  split
  · exact h
  · rename_i q hq
    split
    · have hq' := (h.placement q hq).noteAck hack
      simp only
      split
      · -- The watermark stays.
        refine { h with placement := ?_, upToDate := ?_ }
        · rintro q' ⟨⟩
          exact hq'
        · rintro q' ⟨⟩
          rw [voters_noteAck]
          exact h.upToDate q hq
      · rename_i hlt
        have hlt := not_le.mp hlt
        have hmaj := h.majority_of_lt hq' hend hlt
        refine { h with
          start_le := h.start_le.trans hlt.le
          placement := ?_
          upToDate := ?_
          watermark := onDisks_of_countP hq'.nodup hmaj }
        · rintro q' ⟨⟩
          exact hq'
        · rintro q' ⟨⟩
          exact hmaj
    · exact h

lemma recordDurableOffset_congr {offset a b : ℤ}
    (h : (e.recordDurableOffset voter offset a).durableWatermark =
      (e.recordDurableOffset voter offset b).durableWatermark) :
    e.recordDurableOffset voter offset a = e.recordDurableOffset voter offset b := by
  unfold recordDurableOffset at h ⊢
  split
  · rfl
  · rename_i q hq
    rw [hq] at h
    simp only at h
    split_ifs with hv
    · rw [if_pos hv, if_pos hv] at h
      simp only at h ⊢
      rw [h]
    · rfl

lemma TaskFits.mono {synced synced' logEnd logEnd' : ℤ} {task : ReplicateTask}
    (h : TaskFits synced logEnd task) (hs : synced ≤ synced') (hl : logEnd ≤ logEnd') :
    TaskFits synced' logEnd' task := by
  cases task with
  | syncing target sourceEnd => exact le_trans h hl
  | synced target sourceEnd => exact le_trans h hs
  | idle | waiting | syncingLocally => exact h

lemma WalInv.move (h : WalInv f e) (i : ℕ) {task : ReplicateTask}
    (htask : TaskFits e.synced e.logEnd task) : WalInv f (e.move i task) := by
  refine { h with task := fun j => ?_ }
  obtain rfl | hj := eq_or_ne j i
  · simpa [WalShardEngine.move] using htask
  · simpa [WalShardEngine.move, update_of_ne hj] using h.task j

lemma WalInv.answer (h : WalInv f e) (i : ℕ) {target : ℤ} (hle : target ≤ e.durableWatermark) :
    WalInv f (e.answer i target) := by
  have hmove : WalInv f (e.move i .idle) := h.move i trivial
  refine { hmove with oks := fun t ht => ?_ }
  rcases mem_cons.mp ht with rfl | ht
  · exact h.watermark.mono hle fun _ => le_rfl
  · exact h.oks t ht

lemma WalInv.disk (h : WalInv f e) {synced : ℤ} {fsynced : NodeId → ℤ} (hs : e.synced ≤ synced)
    (hle : synced ≤ e.logEnd) (hf : ∀ v, e.fsynced v ≤ fsynced v) :
    WalInv f { e with synced, fsynced } := by
  have hdisk : ∀ v, e.onDisk v ≤ ({ e with synced, fsynced } : WalShardEngine).onDisk v := by
    intro v
    unfold onDisk
    split
    · exact hs
    · exact hf v
  refine { h with
    synced_le := hle
    disk_start := fun v => (h.disk_start v).trans (hdisk v)
    placement := fun q hq => ?_
    upToDate := fun q hq => ?_
    task := fun i => (h.task i).mono hs le_rfl
    watermark := h.watermark.mono le_rfl hdisk
    oks := fun t ht => (h.oks t ht).mono le_rfl hdisk }
  · have hq' := h.placement q hq
    exact { hq' with acks := fun v o hv ho => (hq'.acks v o hv ho).trans (hf v) }
  · refine (h.upToDate q hq).trans (countP_mono_left fun v _ hv => ?_)
    simp only [decide_eq_true_eq] at hv ⊢
    exact hv.trans (hdisk v)

/-! ## The condition -/

/-- When the watermark is recomputed, the unsynced tail of the leader makes no difference; a new placement has
distinct voters and a majority with everything below the watermark on disk; `replicate_and_sync` is called once there
was a placement. -/
def Secured (f : ℕ) (e : WalShardEngine) : WalStep → Prop
  | .configure voters => e.changes voters = true →
      voters.Nodup ∧ f + 1 ≤ e.upToDate voters ∧
      ((e.install voters).recordDurableOffset e.me (max e.logStart (min e.localDurable e.logEnd))
          e.logEnd).durableWatermark =
        ((e.install voters).recordDurableOffset e.me (max e.logStart (min e.localDurable e.logEnd))
          e.synced).durableWatermark
  | .ack voter offset => (e.recordDurableOffset voter offset e.logEnd).durableWatermark =
      (e.recordDurableOffset voter offset e.synced).durableWatermark
  | .adopt durable => (e.recordDurableOffset e.me durable e.logEnd).durableWatermark =
      (e.recordDurableOffset e.me durable e.synced).durableWatermark
  | .replicateBegin _ _ => e.distributedRequired = true
  | _ => True

instance (f : ℕ) (e : WalShardEngine) (l : WalStep) : Decidable (Secured f e l) :=
  match l with
  | .configure _ | .append _ | .sync | .fsync _ _ | .ack _ _ | .adopt _ | .replicateBegin _ _
  | .replicateSynced _ | .replicateFailed _ | .replicateRecord _ | .replicatePoll _ => by
    unfold Secured; infer_instance

section
variable (h : WalInv f e)
include h

lemma WalInv.install {voters : List NodeId} (hnew : e.changes voters → voters.Nodup ∧ f + 1 ≤ e.upToDate voters) :
    WalInv f (e.install voters) := by
  by_cases hacc : e.accepts voters
  · by_cases hchange : e.changes voters
    · obtain ⟨hnd, hup⟩ := hnew hchange
      simp only [accepts, Bool.and_eq_true, beq_iff_eq] at hacc
      have hmem : e.me ∈ voters := mem_of_mem_head? (by rw [hacc.1]; rfl)
      have hlen : voters.length = 2 * f + 1 := hacc.2.trans h.expected
      have hplace : ∀ q, (e.install voters).distributed = some q →
          PlacementInv f e.me e.fsynced q ∧ q.voters = voters := by
        intro q hq
        simp only [WalShardEngine.install, WalShardEngine.accepts, hacc.1, hacc.2, beq_self_eq_true,
          Bool.and_self, if_true] at hq
        cases hd : e.distributed with
        | none =>
          rw [hd] at hq
          cases hq
          exact ⟨⟨rfl, hnd, hlen, hmem, nofun⟩, rfl⟩
        | some q₀ =>
          rw [hd] at hq
          simp only at hq
          have hne : q₀.voters ≠ voters := by
            intro heq
            simp [changes, hd, heq] at hchange
          rw [if_neg hne] at hq
          cases hq
          refine ⟨⟨rfl, hnd, hlen, hmem, fun v o hv ho => ?_⟩, rfl⟩
          simp only at ho
          split at ho
          · exact (h.placement q₀ hd).acks v o hv ho
          · cases ho
      exact { h with
        placement := fun q hq => (hplace q hq).1
        upToDate := fun q hq => (hplace q hq).2 ▸ hup }
    · -- The placement is the one that is there.
      have hsame : (e.install voters).distributed = e.distributed := by
        simp only [changes, hacc, Bool.true_and, Bool.not_eq_true', Bool.not_eq_false] at hchange
        cases hd : e.distributed with
        | none => simp [hd] at hchange
        | some q =>
          simp only [hd, Option.any_some, beq_iff_eq] at hchange
          simp [WalShardEngine.install, hacc, hd, hchange]
      exact { h with
        placement := fun q hq => h.placement q (hsame ▸ hq)
        upToDate := fun q hq => h.upToDate q (hsame ▸ hq) }
  · have hnone : (e.install voters).distributed = none := by
      simp [WalShardEngine.install, hacc]
    exact { h with
      placement := fun q hq => by rw [hnone] at hq; cases hq
      upToDate := fun q hq => by rw [hnone] at hq; cases hq }

lemma WalInv.configure {voters : List NodeId} (hok : Secured f e (.configure voters)) :
    WalInv f (walSys.next e (.configure voters)) := by
  simp only [walSys, configureDistributed]
  split_ifs with hchange
  · obtain ⟨hnd, hup, heq⟩ := hok hchange
    have hinst : WalInv f (e.install voters) := h.install fun _ => ⟨hnd, hup⟩
    rw [recordDurableOffset_congr heq]
    exact hinst.recordDurableOffset (fun hne => absurd rfl hne) le_rfl
  · exact h.install fun hc => absurd hc hchange

lemma WalInv.adopt {durable : ℤ} (hok : Secured f e (.adopt durable)) :
    WalInv f (walSys.next e (.adopt durable)) := by
  simp only [walSys, adoptLocalDurablePrefix]
  split
  · have hlocal : WalInv f { e with localDurable := max e.localDurable durable } :=
      { h with }
    have heq : ({ e with localDurable := max e.localDurable durable } :
        WalShardEngine).recordDurableOffset e.me durable e.logEnd =
        ({ e with localDurable := max e.localDurable durable } :
          WalShardEngine).recordDurableOffset e.me durable e.synced := by
      refine recordDurableOffset_congr ?_
      have hok : (e.recordDurableOffset e.me durable e.logEnd).durableWatermark =
        (e.recordDurableOffset e.me durable e.synced).durableWatermark := hok
      unfold WalShardEngine.recordDurableOffset at hok ⊢
      cases hd : e.distributed with
      | none => rfl
      | some q =>
        rw [hd] at hok
        simp only at hok ⊢
        split
        · rename_i hv
          rwa [if_pos hv, if_pos hv] at hok
        · rfl
    rw [heq]
    exact hlocal.recordDurableOffset (fun hne => absurd rfl hne) le_rfl
  · exact h

lemma WalInv.replicateBegin {i : ℕ} {target : ℤ} (hok : Secured f e (.replicateBegin i target)) :
    WalInv f (walSys.next e (.replicateBegin i target)) := by
  simp only [walSys, WalShardEngine.replicateBegin]
  split
  · rename_i hle
    exact h.answer i hle
  · split
    · exact h
    · split
      · split
        · exact h.move i (le_refl e.logEnd)
        · exact h
      · rename_i hreq
        exact absurd hok hreq

lemma WalInv.replicateSynced (i : ℕ) : WalInv f (walSys.next e (.replicateSynced i)) := by
  simp only [walSys, WalShardEngine.replicateSynced]
  split
  · rename_i target sourceEnd hi
    have hdisk : WalInv f { e with synced := e.logEnd } := h.disk h.synced_le le_rfl fun _ => le_rfl
    have hend : sourceEnd ≤ e.logEnd := by
      have := h.task i
      rwa [hi] at this
    exact hdisk.move i hend
  · rename_i target hi
    have := h.task i
    rw [hi] at this
    exact this.elim
  · exact h

lemma WalInv.replicateRecord (i : ℕ) : WalInv f (walSys.next e (.replicateRecord i)) := by
  simp only [walSys, WalShardEngine.replicateRecord]
  split
  · rename_i target sourceEnd hi
    have hlocal : WalInv f { e with localDurable := max e.localDurable target } := { h with }
    have hend : sourceEnd ≤ e.synced := by
      have := h.task i
      rwa [hi] at this
    split
    · exact hlocal.move i trivial
    · rename_i q hq
      have hme : q.me = e.me := (h.placement q hq).leader
      exact (hlocal.recordDurableOffset (fun hne => absurd hme hne) hend).move i trivial
  · exact h

lemma WalInv.replicatePoll (i : ℕ) : WalInv f (walSys.next e (.replicatePoll i)) := by
  simp only [walSys, WalShardEngine.replicatePoll]
  split
  · split
    · rename_i hle
      exact h.answer i hle
    · split
      · exact h.move i trivial
      · exact h
  · exact h

/-- Every secured step keeps the invariant. -/
lemma WalInv.step {l : WalStep} (hen : walSys.enabled e l) (hok : Secured f e l) : WalInv f (walSys.next e l) := by
  cases l with
  | configure voters => exact h.configure hok
  | append logEnd =>
    exact { h with
      synced_le := h.synced_le.trans hen
      task := fun i => (h.task i).mono le_rfl hen }
  | sync => exact h.disk h.synced_le le_rfl fun _ => le_rfl
  | fsync voter offset =>
    refine h.disk le_rfl h.synced_le fun v => ?_
    obtain rfl | hv := eq_or_ne v voter
    · rw [update_self]
      exact hen.2.1
    · rw [update_of_ne hv]
  | ack voter offset =>
    simp only [walSys, recordFollowerAck]
    split
    · rw [recordDurableOffset_congr hok]
      refine h.recordDurableOffset (fun hne => ?_) le_rfl
      have : offset ≤ e.onDisk voter := hen
      rwa [onDisk, if_neg hne] at this
    · exact h
  | adopt durable => exact h.adopt hok
  | replicateBegin i target => exact h.replicateBegin hok
  | replicateSynced i => exact h.replicateSynced i
  | replicateFailed i => exact h.move i trivial
  | replicateRecord i => exact h.replicateRecord i
  | replicatePoll i => exact h.replicatePoll i

lemma WalInv.le_next {l : WalStep} : e.durableWatermark ≤ (walSys.next e l).durableWatermark := by
  cases l with
  | configure voters =>
    simp only [walSys, WalShardEngine.configureDistributed]
    split
    · exact le_recordDurableOffset (e := e.install voters) _ _ _
    · exact le_rfl
  | append | sync | fsync | replicateFailed => exact le_rfl
  | ack voter offset =>
    simp only [walSys, WalShardEngine.recordFollowerAck]
    split
    · exact le_recordDurableOffset _ _ _
    · exact le_rfl
  | adopt durable =>
    simp only [walSys, WalShardEngine.adoptLocalDurablePrefix]
    split
    · exact le_recordDurableOffset (e := { e with localDurable := _ }) _ _ _
    · exact le_rfl
  | replicateBegin i target =>
    simp only [walSys, WalShardEngine.replicateBegin]
    split
    · exact le_rfl
    · split
      · exact le_rfl
      · split
        · split <;> exact le_rfl
        · exact le_rfl
  | replicateSynced i =>
    simp only [walSys, WalShardEngine.replicateSynced]
    split
    · exact le_rfl
    · rename_i target hi
      have := h.task i
      rw [hi] at this
      exact this.elim
    · exact le_rfl
  | replicateRecord i =>
    simp only [walSys, WalShardEngine.replicateRecord]
    split
    · split
      · exact le_rfl
      · exact le_recordDurableOffset (e := { e with localDurable := _ }) _ _ _
    · exact le_rfl
  | replicatePoll i =>
    simp only [walSys, WalShardEngine.replicatePoll]
    split
    · split
      · exact le_rfl
      · split <;> exact le_rfl
    · exact le_rfl

end

lemma WalInv.start (me : NodeId) {logStart logEnd : ℤ} (hlow : -2 ^ 63 ≤ logStart) (hle : logStart ≤ logEnd) :
    WalInv f (.newDistributed me (2 * f + 1) logStart logEnd) := by
  have hdisk : ∀ v, logStart ≤ (newDistributed me (2 * f + 1) logStart logEnd).onDisk v := by
    intro v
    unfold onDisk
    split
    · exact hle
    · exact le_rfl
  refine {
    expected := rfl
    low := hlow
    start_le := le_rfl
    synced_le := le_rfl
    disk_start := hdisk
    placement := nofun
    upToDate := nofun
    task := fun _ => trivial
    watermark := ⟨range (f + 1), nodup_range, by simp, fun v _ => hdisk v⟩
    oks := nofun }

end steps

/-! ## Runs -/

/-- In every run whose steps meet the condition, a majority of the placement has everything below the
watermark on disk, `replicate_and_sync` answers `Ok` only for targets that as many nodes have on disk,
and the watermark never falls. -/
theorem watermark_on_quorum {f : ℕ} {me : NodeId} {logStart logEnd : ℤ} (hlow : -2 ^ 63 ≤ logStart)
    (hle : logStart ≤ logEnd) {e e' : WalShardEngine}
    (hrun : walSys.Run (Secured f) (.newDistributed me (2 * f + 1) logStart logEnd) e)
    (hrun' : walSys.Run (Secured f) e e') :
    (∀ q, e.distributed = some q →
      f + 1 ≤ q.voters.countP fun v => decide (e.durableWatermark ≤ e.onDisk v)) ∧
      (∀ target ∈ e.oks, ∃ vs : List NodeId, vs.Nodup ∧ f + 1 ≤ vs.length ∧ ∀ v ∈ vs, target ≤ e.onDisk v) ∧
      e.durableWatermark ≤ e'.durableWatermark := by
  have hinv : WalInv f e := hrun.preserves (fun _ _ h hen hok => h.step hen hok) (WalInv.start me hlow hle)
  have hmono : e.durableWatermark ≤ e'.durableWatermark :=
    (hrun'.relates (R := fun a b => a.durableWatermark ≤ b.durableWatermark) hinv (fun _ => le_rfl)
      le_trans fun _ _ h hen hok => ⟨h.step hen hok, h.le_next⟩).2
  exact ⟨hinv.upToDate, hinv.oks, hmono⟩

/-- The leader syncs before a follower acknowledges. -/
def syncedFirst : List WalStep :=
  [.configure [1, 2, 3], .append 5, .replicateBegin 0 5, .replicateSynced 0, .replicateRecord 0,
    .fsync 2 5, .ack 2 5, .replicatePoll 0]

/-- The leader syncs, and then one follower acknowledges. -/
theorem watermark_on_quorum_syncedFirst :
    (walSys.execs (.newDistributed 1 3 0 0) syncedFirst).durableWatermark = 5 ∧
      (walSys.execs (.newDistributed 1 3 0 0) syncedFirst).oks = [5] ∧
      ∃ vs : List NodeId, vs.Nodup ∧ 2 ≤ vs.length ∧
        ∀ v ∈ vs, 5 ≤ (walSys.execs (.newDistributed 1 3 0 0) syncedFirst).onDisk v := by
  have hrun : walSys.Run (Secured 1) (.newDistributed 1 3 0 0)
      (walSys.execs (.newDistributed 1 3 0 0) syncedFirst) := Sys.run_of_runsOk
  exact ⟨by decide +kernel, by decide +kernel,
    (watermark_on_quorum (by decide) le_rfl hrun .refl).2.1 5 (by decide +kernel)⟩

/-- A follower acknowledges the unsynced tail, and `replicate_and_sync` is called after that. -/
def unsyncedTail : List WalStep :=
  [.configure [1, 2, 3], .append 5, .fsync 2 5, .ack 2 5, .replicateBegin 0 5]

/-- The watermark is 5 and `replicate_and_sync` has answered `Ok`, with one voter of three that has
the records on disk. -/
theorem watermark_passes_sync :
    ∃ e, walSys.AnyRun (.newDistributed 1 3 0 0) e ∧ e.durableWatermark = 5 ∧ e.oks = [5] ∧
      e.distributed.map (·.voters) = some [1, 2, 3] ∧
      ([1, 2, 3].filter fun v => decide (5 ≤ e.onDisk v)) = [2] :=
  ⟨walSys.execs (.newDistributed 1 3 0 0) unsyncedTail, Sys.run_of_runs, by decide +kernel, by decide +kernel⟩

end Crabka.Broker.Wal
