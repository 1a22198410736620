import Crabka.Broker.Wal.FollowerFiles

/-!
# Crash safety of a WAL follower

Recovery needs segments that follow one another with the checkpointed range in their synced part (`Covers`). All
operations on segments but a removal keep it, and the rename of the temporary file changes the range to one that the
segments cover. Between the first removal and that rename recovery may refuse the old range, and it does not find the
batches of an index that is ahead of its log. At all other points a crash is safe (`follower_crash_safe`).
-/

namespace Crabka.Broker.Wal.Follower
open Found List SegmentFile SegmentOp FileOp CheckpointOp

/-! ## Contiguous batches -/

/-- Each batch starts where the one before it ends. -/
def Contiguous : ℤ → List Batch → ℤ → Prop
  | lo, [], hi => lo = hi
  | lo, b :: bs, hi => b.baseOffset = lo ∧ Contiguous (b.lastOffset + 1) bs hi

variable {lo hi : ℤ}

lemma contiguous_append {xs ys : List Batch} :
    Contiguous lo (xs ++ ys) hi ↔ ∃ mid, Contiguous lo xs mid ∧ Contiguous mid ys hi := by
  induction xs generalizing lo with
  | nil => exact ⟨fun h => ⟨lo, rfl, h⟩, fun ⟨mid, h, h'⟩ => h.symm ▸ h'⟩
  | cons b bs ih =>
    simp only [cons_append, Contiguous, ih]
    exact ⟨fun ⟨h, mid, h', h''⟩ => ⟨mid, ⟨h, h'⟩, h''⟩, fun ⟨mid, ⟨h, h'⟩, h''⟩ => ⟨h, mid, h', h''⟩⟩

namespace Contiguous
variable {lo hi hi' : ℤ} {xs ys : List Batch}
section
variable (h : Contiguous lo xs hi)
include h

lemma le : lo ≤ hi := by
  induction xs generalizing lo with
  | nil => exact le_of_eq h
  | cons b bs ih =>
    have := ih h.2
    have := h.1
    have := b.nonempty
    omega

lemma unique (h' : Contiguous lo xs hi') : hi = hi' := by
  induction xs generalizing lo with
  | nil => exact h.symm.trans h'
  | cons b bs ih => exact ih h.2 h'.2

lemma endFrom_eq : endFrom lo xs = hi := by
  induction xs generalizing lo with
  | nil => exact h
  | cons b bs ih =>
    rw [← ih h.2]
    cases bs with
    | nil => rfl
    | cons c cs => simp only [endFrom, getLast?_cons, Option.map_some, Option.getD_some]

lemma mem {b : Batch} (hb : b ∈ xs) : lo ≤ b.baseOffset ∧ b.lastOffset < hi := by
  induction xs generalizing lo with
  | nil => cases hb
  | cons c cs ih =>
    have hle := h.2.le
    have := h.1
    have := c.nonempty
    rcases mem_cons.mp hb with rfl | hb
    · omega
    · have := ih h.2 hb
      omega

end

lemma eq_nil (h : Contiguous lo xs lo) : xs = [] := by
  cases xs with
  | nil => rfl
  | cons b bs =>
    have := h.2.le
    have := h.1
    have := b.nonempty
    omega

lemma rest (h : Contiguous lo (xs ++ ys) hi) {mid : ℤ} (hx : Contiguous lo xs mid) : Contiguous mid ys hi := by
  obtain ⟨mid', hx', hy⟩ := contiguous_append.mp h
  rwa [hx.unique hx']

lemma takeWhile_eq (h : Contiguous lo (xs ++ ys) hi) {stop : ℤ} (hx : Contiguous lo xs stop) :
    (xs ++ ys).takeWhile (·.lastOffset < stop) = xs := by
  rw [takeWhile_append_of_pos fun b hb => decide_eq_true (hx.mem hb).2]
  have hy := h.rest hx
  cases ys with
  | nil => exact append_nil xs
  | cons b bs =>
    rw [takeWhile_cons_of_neg, append_nil]
    have := hy.1
    have := b.nonempty
    simp only [decide_eq_true_eq]
    omega

end Contiguous

lemma expectedEnd_eq_some {bs : List Batch} : expectedEnd lo bs = some hi ↔ Contiguous lo bs hi := by
  induction bs generalizing lo with
  | nil => exact Option.some_inj
  | cons b bs ih =>
    simp only [expectedEnd, Contiguous]
    split
    next h => exact ⟨nofun, fun h' => absurd h'.1 h⟩
    next h => rw [ih]; exact ⟨fun h' => ⟨not_not.mp h, h'⟩, And.right⟩

/-! ## Segments that follow one another -/

def nextBase (rest : List SegmentFile) (base : ℤ) : ℤ := (rest.head?.map SegmentFile.base).getD base

/-- Sealed segments, synced and each ending where the next one starts. -/
def Sealed : List SegmentFile → ℤ → Prop
  | [], _ => True
  | s :: rest, base => s.unsynced = [] ∧ s.base < nextBase rest base ∧
      Contiguous s.base s.synced (nextBase rest base) ∧ Sealed rest base

lemma nextBase_append (xs ys : List SegmentFile) (base : ℤ) :
    nextBase (xs ++ ys) base = nextBase xs (nextBase ys base) := by
  cases xs <;> rfl

lemma sealed_append {xs ys : List SegmentFile} {base : ℤ} :
    Sealed (xs ++ ys) base ↔ Sealed xs (nextBase ys base) ∧ Sealed ys base := by
  induction xs with
  | nil => exact ⟨fun h => ⟨trivial, h⟩, And.right⟩
  | cons s xs ih =>
    simp only [cons_append, Sealed, ih, nextBase_append]
    exact ⟨fun ⟨a, b, c, d, e⟩ => ⟨⟨a, b, c, d⟩, e⟩, fun ⟨⟨a, b, c, d⟩, e⟩ => ⟨a, b, c, d, e⟩⟩

variable {s : SegmentFile}

lemma batches_of_clean (h : s.unsynced = []) : s.batches = s.synced := by
  rw [batches, h, append_nil]

namespace Sealed
variable {xs : List SegmentFile} {base : ℤ} {s : SegmentFile}
section
variable (h : Sealed xs base)
include h

lemma nextBase_le : nextBase xs base ≤ base := by
  induction xs with
  | nil => exact le_refl base
  | cons s xs ih => exact h.2.1.le.trans (ih h.2.2.2)

lemma base_lt (hs : s ∈ xs) : nextBase xs base ≤ s.base ∧ s.base < base := by
  induction xs with
  | nil => cases hs
  | cons t xs ih =>
    rcases mem_cons.mp hs with rfl | hs
    · exact ⟨le_refl _, h.2.1.trans_le h.2.2.2.nextBase_le⟩
    · have := ih h.2.2.2 hs
      exact ⟨h.2.1.le.trans this.1, this.2⟩

lemma clean (hs : s ∈ xs) : s.unsynced = [] := by
  induction xs with
  | nil => cases hs
  | cons t xs ih =>
    rcases mem_cons.mp hs with rfl | hs
    · exact h.1
    · exact ih h.2.2.2 hs

lemma contiguous : Contiguous (nextBase xs base) (xs.flatMap batches) base := by
  induction xs with
  | nil => rfl
  | cons s xs ih =>
    rw [flatMap_cons, batches_of_clean h.1]
    exact contiguous_append.mpr ⟨_, h.2.2.1, ih h.2.2.2⟩

lemma map_eq {f : SegmentFile → SegmentFile}
    (hf : ∀ s, s.unsynced = [] → s.base < base → f s = s) : xs.map f = xs :=
  (map_congr_left fun s hs => hf s (h.clean hs) (h.base_lt hs).2).trans (map_id xs)

end
end Sealed

/-- Sealed segments and an active one, up to an end offset. -/
def WellFormed (segments : List SegmentFile) (hi : ℤ) : Prop :=
  ∃ older active, segments = older ++ [active] ∧ Sealed older active.base ∧ Contiguous active.base active.batches hi

lemma firstBase_append (xs : List SegmentFile) (s : SegmentFile) : firstBase (xs ++ [s]) = nextBase xs s.base := by
  cases xs <;> rfl

lemma flush_of_clean (h : s.unsynced = []) : s.flush = s := by
  obtain ⟨base, stale, synced, unsynced⟩ := s
  obtain rfl : unsynced = [] := h
  simp [flush, batches]

lemma batches_flush (s : SegmentFile) : s.flush.batches = s.batches := append_nil _

namespace WellFormed
variable {segments : List SegmentFile} {hi : ℤ}
section
variable (h : WellFormed segments hi)
include h

lemma contiguous : Contiguous (firstBase segments) (segments.flatMap batches) hi := by
  obtain ⟨older, active, rfl, hsealed, hactive⟩ := h
  rw [firstBase_append, flatMap_append]
  refine contiguous_append.mpr ⟨_, hsealed.contiguous, ?_⟩
  rwa [flatMap_singleton]

lemma logEndOffset_eq : logEndOffset segments = hi := by
  obtain ⟨older, active, rfl, -, hactive⟩ := h
  unfold logEndOffset
  rw [getLast?_concat]
  exact hactive.endFrom_eq

lemma ne_nil : segments ≠ [] := by
  obtain ⟨older, active, rfl, -, -⟩ := h
  simp

lemma synced_le : segments.flatMap synced <+: segments.flatMap batches := by
  obtain ⟨older, active, rfl, hsealed, -⟩ := h
  have holder : older.flatMap synced = older.flatMap batches :=
    flatMap_congr fun s hs => (batches_of_clean (hsealed.clean hs)).symm
  rw [flatMap_append, flatMap_append, holder, flatMap_singleton, flatMap_singleton]
  exact (prefix_append_right_inj _).mpr (prefix_append _ _)

lemma cons {s : SegmentFile} (hclean : s.unsynced = [])
    (hlt : s.base < firstBase segments) (hs : Contiguous s.base s.synced (firstBase segments)) :
    WellFormed (s :: segments) hi := by
  obtain ⟨older, active, rfl, hsealed, hactive⟩ := h
  rw [firstBase_append] at hlt hs
  exact ⟨s :: older, active, rfl, ⟨hclean, hlt, hs, hsealed⟩, hactive⟩

lemma map_flush : WellFormed (segments.map flush) hi := by
  obtain ⟨older, active, rfl, hsealed, hactive⟩ := h
  refine ⟨older, active.flush, ?_, hsealed, by rwa [batches_flush]⟩
  rw [map_append, hsealed.map_eq fun s hs _ => flush_of_clean hs]
  rfl

end
end WellFormed

/-! ## Operations on segments -/

section
variable {older : List SegmentFile} {active : SegmentFile}

lemma apply_write (h : Sealed older active.base) (b : Batch) :
    apply (older ++ [active]) (.write active.base b) =
      older ++ [{ active with unsynced := active.unsynced ++ [b] }] := by
  simp only [SegmentOp.apply, map_append]
  rw [h.map_eq fun s _ hlt => if_neg hlt.ne, map_singleton, if_pos rfl]

lemma apply_sync_active (h : Sealed older active.base) :
    apply (older ++ [active]) (.sync active.base) = older ++ [active.flush] := by
  simp only [SegmentOp.apply, map_append]
  rw [h.map_eq fun s _ hlt => if_neg hlt.ne, map_singleton, if_pos rfl]

variable {base : ℤ}

lemma apply_sync (h : Sealed older active.base) (hne : base ≠ active.base) :
    apply (older ++ [active]) (.sync base) = older ++ [active] := by
  simp only [SegmentOp.apply, map_append]
  rw [h.map_eq fun s hs _ => by rw [flush_of_clean hs, ite_self], map_singleton, if_neg (Ne.symm hne)]

lemma orderedInsert_last {segments : List SegmentFile} {s : SegmentFile} (h : ∀ t ∈ segments, t.base < s.base) :
    segments.orderedInsert (fun a b => a.base ≤ b.base) s = segments ++ [s] := by
  induction segments with
  | nil => rfl
  | cons t segments ih =>
    rw [orderedInsert_cons, if_neg (not_le.mpr (h t mem_cons_self)), ih fun u hu => h u (mem_cons_of_mem t hu)]
    rfl

lemma apply_create (h : Sealed older active.base) (hlt : active.base < base) :
    apply (older ++ [active]) (.create base) = older ++ [active] ++ [{ base := base }] := by
  refine orderedInsert_last fun s hs => ?_
  rcases mem_snoc.mp hs with hs | hs
  · exact (h.base_lt hs).2.trans hlt
  · rwa [hs]

lemma foldl_remove (segments : List SegmentFile) (bases : List ℤ) :
    (bases.map SegmentOp.remove).foldl SegmentOp.apply segments = segments.filter (·.base ∉ bases) := by
  induction bases generalizing segments with
  | nil => simp
  | cons b bases ih =>
    rw [map_cons, foldl_cons, ih, SegmentOp.apply, filter_filter]
    refine filter_congr fun s _ => ?_
    simp only [mem_cons, not_or, decide_not, Bool.decide_and, Bool.and_comm]

end

/-- Recovery has found all batches of the files. -/
def Whole (segments : List SegmentFile) : Prop := ∀ s ∈ segments, s.stale = []

lemma Whole.apply {segments : List SegmentFile} (h : Whole segments) (op : SegmentOp) :
    Whole (op.apply segments) := by
  intro s hs
  cases op with
  | create base =>
    rcases (mem_orderedInsert ..).mp hs with rfl | hs
    · rfl
    · exact h s hs
  | write base batch | sync base =>
    obtain ⟨t, ht, rfl⟩ := mem_map.mp hs
    split <;> exact h t ht
  | remove base => exact h s (mem_of_mem_filter hs)

lemma Whole.foldl {segments : List SegmentFile} (h : Whole segments) (ops : List SegmentOp) :
    Whole (ops.foldl SegmentOp.apply segments) :=
  foldlRecOn ops _ h fun _ h op _ => h.apply op

/-! ## What recovery needs -/

/-- The segments follow one another and a range with all that was reported lies in their synced part. -/
structure Covers (sent reported : List Batch) (segments : List SegmentFile) (r : DurableRange) : Prop where
  wellFormed : ∃ hi, WellFormed segments hi
  nonneg : 0 ≤ r.start
  first : firstBase segments ≤ r.start
  le : r.start ≤ r.stop
  durable : ∃ pre, pre <+: segments.flatMap SegmentFile.synced ∧
    Contiguous (firstBase segments) pre r.stop ∧ ∀ b ∈ reported, r.start ≤ b.lastOffset → b ∈ pre
  sent : ∀ b ∈ segments.flatMap SegmentFile.batches, b ∈ sent

/-- The segments after steps that only add to them. -/
structure Extends (sent : List Batch) (segments segments' : List SegmentFile) : Prop where
  wellFormed : ∃ hi, WellFormed segments' hi
  first : firstBase segments' = firstBase segments
  synced : segments.flatMap SegmentFile.synced <+: segments'.flatMap SegmentFile.synced
  sent : ∀ b ∈ segments'.flatMap SegmentFile.batches, b ∈ sent

variable {sent sent' reported : List Batch} {segments : List SegmentFile} {r : DurableRange}

lemma Covers.of_extends {segments' : List SegmentFile} (h : Covers sent reported segments r)
    (hext : Extends sent' segments segments') :
    Covers sent' reported segments' r := by
  obtain ⟨pre, hpre, hcont, hrep⟩ := h.durable
  exact ⟨hext.wellFormed, h.nonneg, hext.first ▸ h.first, h.le,
    ⟨pre, hpre.trans hext.synced, hext.first.symm ▸ hcont, hrep⟩, hext.sent⟩

lemma Extends.trans {a b c : List SegmentFile} (h : Extends sent a b) (h' : Extends sent' b c) :
    Extends sent' a c :=
  ⟨h'.wellFormed, h'.first.trans h.first, h.synced.trans h'.synced, h'.sent⟩

lemma Extends.refl (h : WellFormed segments hi)
    (hsent : ∀ b ∈ segments.flatMap batches, b ∈ sent) : Extends sent segments segments :=
  ⟨⟨hi, h⟩, rfl, prefix_rfl, hsent⟩

lemma WellFormed.covers {start : ℤ} (h : WellFormed segments hi)
    (hclean : segments.flatMap synced = segments.flatMap batches)
    (hnonneg : 0 ≤ start) (hfirst : firstBase segments ≤ start) (hle : start ≤ hi)
    (hrep : ∀ b ∈ reported, start ≤ b.lastOffset → b ∈ segments.flatMap batches)
    (hsent : ∀ b ∈ segments.flatMap batches, b ∈ sent) :
    Covers sent reported segments ⟨start, hi⟩ :=
  ⟨⟨hi, h⟩, hnonneg, hfirst, hle, ⟨_, prefix_rfl, hclean ▸ h.contiguous, hclean ▸ hrep⟩, hsent⟩

section
variable {sent : List Batch} {older : List SegmentFile} {active : SegmentFile} {hi : ℤ}
section
variable (hsealed : Sealed older active.base)
include hsealed
section
variable (hactive : Contiguous active.base active.batches hi)
include hactive
section
variable (hsent : ∀ b ∈ (older ++ [active]).flatMap SegmentFile.batches, b ∈ sent)
include hsent

lemma extends_write {b : Batch} (hb : b.baseOffset = hi) (hmem : b ∈ sent) :
    let segments := apply (older ++ [active]) (.write active.base b)
    Extends sent (older ++ [active]) segments ∧ WellFormed segments (b.lastOffset + 1) := by
  have hbatches : batches { active with unsynced := active.unsynced ++ [b] } =
      active.batches ++ [b] := (append_assoc _ _ _).symm
  have hwf : WellFormed (older ++ [{ active with unsynced := active.unsynced ++ [b] }]) (b.lastOffset + 1) := by
    refine ⟨older, _, rfl, hsealed, ?_⟩
    rw [hbatches]
    exact contiguous_append.mpr ⟨hi, hactive, hb, rfl⟩
  intro segments
  have hseg : segments = _ := apply_write hsealed b
  rw [hseg]
  refine ⟨⟨⟨_, hwf⟩, ?_, ?_, ?_⟩, hwf⟩
  · rw [firstBase_append, firstBase_append]
  · rw [flatMap_append, flatMap_append]
    exact prefix_rfl
  · intro c hc
    rw [flatMap_append, flatMap_singleton, hbatches, ← append_assoc] at hc
    rcases mem_snoc.mp hc with hc | hc
    · exact hsent c (by rwa [flatMap_append, flatMap_singleton])
    · rwa [hc]

lemma extends_flush : Extends sent (older ++ [active]) (older ++ [active.flush]) := by
  refine ⟨⟨hi, older, _, rfl, hsealed, by rwa [batches_flush]⟩, ?_, ?_, ?_⟩
  · rw [firstBase_append, firstBase_append]
    rfl
  · rw [flatMap_append, flatMap_append, flatMap_singleton, flatMap_singleton]
    exact (prefix_append_right_inj _).mpr (prefix_append _ _)
  · rw [flatMap_append, flatMap_singleton] at hsent ⊢
    rwa [batches_flush]

end

lemma extends_create
    (hclean : active.unsynced = []) (hlt : active.base < hi)
    (hsent : ∀ b ∈ (older ++ [active]).flatMap batches, b ∈ sent) :
    Sealed (older ++ [active]) hi ∧ Extends sent (older ++ [active]) (older ++ [active] ++ [{ base := hi }]) := by
  have hnew : Sealed (older ++ [active]) hi := by
    refine sealed_append.mpr ⟨hsealed, hclean, hlt, ?_, trivial⟩
    rwa [batches_of_clean hclean] at hactive
  refine ⟨hnew, ⟨hi, _, _, rfl, hnew, rfl⟩, ?_, ?_, ?_⟩
  · rw [firstBase_append, firstBase_append, nextBase_append]
    rfl
  · exact ⟨_, flatMap_append.symm⟩
  · intro b hb
    obtain ⟨s, hs, hb⟩ := mem_flatMap.mp hb
    rcases mem_snoc.mp hs with hs | hs
    · exact hsent b (mem_flatMap.mpr ⟨s, hs, hb⟩)
    · rw [hs] at hb
      cases hb

end
end
end

/-- A property of the segments at every point of a sequence of operations. -/
def Along (P : List SegmentFile → Prop) (segments : List SegmentFile) (ops : List SegmentOp) : Prop :=
  ∀ k, P ((ops.take k).foldl SegmentOp.apply segments)

variable {P : List SegmentFile → Prop}

lemma Along.nil (h : P segments) : Along P segments [] := fun k => by rwa [take_nil]

variable {ops : List SegmentOp}

lemma Along.cons {op : SegmentOp} (h : P segments) (hrest : Along P (op.apply segments) ops) :
    Along P segments (op :: ops) := by
  intro k
  cases k with
  | zero => exact h
  | succ k => exact hrest k

lemma Along.append {ops' : List SegmentOp} (h : Along P segments ops)
    (h' : Along P (ops.foldl apply segments) ops') :
    Along P segments (ops ++ ops') := by
  induction ops generalizing segments with
  | nil => exact h'
  | cons op ops ih => exact .cons (h 0) (ih (fun k => h (k + 1)) h')

lemma Along.last (h : Along P segments ops) : P (ops.foldl apply segments) := by
  simpa only [take_length] using h ops.length

lemma Along.mono {Q : List SegmentFile → Prop} (h : Along P segments ops) (hPQ : ∀ s, P s → Q s) :
    Along Q segments ops := fun k => hPQ _ (h k)

/-! ## Append -/

section
variable {sent : List Batch} {segments : List SegmentFile} {hi : ℤ}

variable {older : List SegmentFile} {active : SegmentFile} {b : Batch}

lemma foldl_syncs (hsealed : Sealed older active.base) {xs : List SegmentFile}
    (hxs : ∀ s ∈ xs, s.base < active.base) :
    (syncAll xs).foldl SegmentOp.apply (older ++ [active]) = older ++ [active] := by
  induction xs with
  | nil => rfl
  | cons s xs ih =>
    rw [syncAll, map_cons, foldl_cons, apply_sync hsealed (hxs s mem_cons_self).ne]
    exact ih fun t ht => hxs t (mem_cons_of_mem s ht)

lemma foldl_syncAll (h : WellFormed segments hi) :
    (syncAll segments).foldl SegmentOp.apply segments = segments.map flush := by
  obtain ⟨older, active, rfl, hsealed, hactive⟩ := h
  rw [syncAll, map_append, foldl_append, ← syncAll,
    foldl_syncs hsealed fun s hs => (hsealed.base_lt hs).2, map_append,
    hsealed.map_eq fun s hs _ => flush_of_clean hs]
  exact apply_sync_active hsealed

section
variable (h : WellFormed segments hi) (hsent : ∀ b ∈ segments.flatMap batches, b ∈ sent)
include h hsent

lemma extends_sync (base : ℤ) :
    Extends sent segments (apply segments (.sync base)) ∧ WellFormed (apply segments (.sync base)) hi := by
  obtain ⟨older, active, rfl, hsealed, hactive⟩ := h
  by_cases hbase : base = active.base
  · rw [hbase, apply_sync_active hsealed]
    exact ⟨extends_flush hsealed hactive hsent, older, _, rfl, hsealed, by rwa [batches_flush]⟩
  · rw [apply_sync hsealed hbase]
    have hwf : WellFormed (older ++ [active]) hi := ⟨older, active, rfl, hsealed, hactive⟩
    exact ⟨.refl hwf hsent, hwf⟩

omit h hsent in
lemma along_write (hsealed : Sealed older active.base)
    (hactive : Contiguous active.base active.batches hi)
    (hsent : ∀ b ∈ (older ++ [active]).flatMap batches, b ∈ sent)
    (hb : b.baseOffset = hi) (hmem : b ∈ sent) (flush : Bool) :
    let ops := write active.base b :: if flush then [.sync active.base] else []
    Along (Extends sent (older ++ [active])) (older ++ [active]) ops ∧
      WellFormed (ops.foldl apply (older ++ [active])) (b.lastOffset + 1) := by
  have hwf : WellFormed (older ++ [active]) hi := ⟨older, active, rfl, hsealed, hactive⟩
  obtain ⟨hext, hwf'⟩ := extends_write hsealed hactive hsent hb hmem
  obtain ⟨hsync, hwf''⟩ := extends_sync hwf' hext.sent active.base
  intro ops
  cases flush with
  | false => exact ⟨.cons (.refl hwf hsent) (.nil hext), hwf'⟩
  | true => exact ⟨.cons (.refl hwf hsent) (.cons hext (.nil (hext.trans hsync))), hwf''⟩

lemma along_appendVerbatim (hwhole : Whole segments) (config : LogConfig) (hb : b.baseOffset = hi) (hmem : b ∈ sent) :
    Along (Extends sent segments) segments (appendVerbatim config segments b) ∧
      WellFormed ((appendVerbatim config segments b).foldl apply segments) (b.lastOffset + 1) := by
  have hrefl := Extends.refl h hsent
  obtain ⟨older, active, rfl, hsealed, hactive⟩ := h
  unfold appendVerbatim
  rw [getLast?_concat]
  by_cases hroll : config.segmentSize ≤ active.size
  · -- a full segment has a batch, so that the new one gets a name of its own
    have hne : active.batches ≠ [] := by
      intro hnil
      have hpos := config.segmentSize_pos
      rw [size, file, hnil, hwhole active (by simp)] at hroll
      simp at hroll
      omega
    have hlt : active.base < hi := by
      rcases hactive.le.lt_or_eq with hlt | heq
      · exact hlt
      · exact absurd (heq ▸ hactive).eq_nil hne
    have hend : active.endOffset = hi := hactive.endFrom_eq
    have hflush := extends_flush hsealed hactive hsent
    have hactive' : Contiguous active.flush.base active.flush.batches hi := by rwa [batches_flush]
    have hsealed_flush : Sealed older active.flush.base := hsealed
    obtain ⟨hsealed', hcreate⟩ := extends_create hsealed_flush hactive' rfl hlt hflush.sent
    have hempty : Contiguous (base { base := hi }) (batches { base := hi }) hi := rfl
    obtain ⟨halong, hwf⟩ := along_write hsealed' hempty hcreate.sent hb hmem config.flushOnAppend
    simp only [decide_eq_true hroll, if_true, hend, cons_append, nil_append]
    refine ⟨.cons hrefl ?_, ?_⟩
    · rw [apply_sync_active hsealed]
      refine .cons hflush ?_
      rw [apply_create hsealed_flush hlt]
      exact halong.mono fun s hs => (hflush.trans hcreate).trans hs
    · rw [foldl_cons, apply_sync_active hsealed, foldl_cons,
        apply_create hsealed_flush hlt]
      exact hwf
  · simp only [decide_eq_false hroll, Bool.false_eq_true, if_false, nil_append]
    exact along_write hsealed hactive hsent hb hmem config.flushOnAppend

lemma along_appendBatches (hwhole : Whole segments) (config : LogConfig) {bs : List Batch} {hi' : ℤ} (hbs : Contiguous hi bs hi')
    (hmem : ∀ b ∈ bs, b ∈ sent) :
    (appendBatches config segments bs).2 ∧
      Along (Extends sent segments) segments (appendBatches config segments bs).1 ∧
      WellFormed ((appendBatches config segments bs).1.foldl apply segments) hi' := by
  induction bs generalizing segments hi with
  | nil =>
    obtain rfl : hi = hi' := hbs
    exact ⟨rfl, .nil (.refl h hsent), h⟩
  | cons b bs ih =>
    obtain ⟨halong, hwf⟩ := along_appendVerbatim h hsent hwhole config hbs.1 (hmem b mem_cons_self)
    have hext := halong.last
    obtain ⟨hdone, halong', hwf'⟩ := ih hwf hext.sent (hwhole.foldl _) hbs.2 fun c hc => hmem c (mem_cons_of_mem b hc)
    have hend : logEndOffset segments = b.baseOffset := h.logEndOffset_eq.trans hbs.1.symm
    simp only [appendBatches, hend, le_refl, if_true, ne_eq, not_true_eq_false, if_false]
    refine ⟨hdone, halong.append (halong'.mono fun s hs => hext.trans hs), ?_⟩
    rwa [foldl_append]

lemma along_syncs (xs : List SegmentFile) : Along (Extends sent segments) segments (syncAll xs) := by
  induction xs generalizing segments with
  | nil => exact .nil (.refl h hsent)
  | cons s xs ih =>
    obtain ⟨hext, hwf⟩ := extends_sync h hsent s.base
    exact .cons (.refl h hsent) ((ih hwf hext.sent).mono fun s hs => hext.trans hs)

end
end

/-! ## Trim and truncation -/

lemma droppedBases_eq (older : List SegmentFile) (active : SegmentFile) (target : ℤ) :
    ∃ front back, older = front ++ back ∧
      droppedBases target (older ++ [active]) = front.map base ∧
      (front = [] ∨ nextBase back active.base ≤ target) := by
  induction older with
  | nil => exact ⟨[], [], rfl, rfl, .inl rfl⟩
  | cons s older ih =>
    obtain ⟨front, back, rfl, hdropped, hfront⟩ := ih
    have hcons : droppedBases target (s :: (front ++ back) ++ [active]) =
        if nextBase (front ++ back) active.base ≤ target then
          s.base :: droppedBases target (front ++ back ++ [active])
        else [] := by
      cases front ++ back <;> rfl
    rw [hcons]
    split
    next hle =>
      refine ⟨s :: front, back, rfl, by rw [hdropped]; rfl, .inr ?_⟩
      rcases hfront with rfl | hback
      · exact hle
      · exact hback
    next => exact ⟨[], s :: (front ++ back), rfl, rfl, .inl rfl⟩

variable {front back : List SegmentFile} {active : SegmentFile}

lemma filter_front (h : Sealed (front ++ back) active.base) :
    (front ++ back ++ [active]).filter (·.base ∉ front.map base) = back ++ [active] := by
  obtain ⟨hfront, hback⟩ := sealed_append.mp h
  rw [append_assoc, filter_append, filter_eq_nil_iff.mpr, nil_append, filter_eq_self.mpr]
  · intro t ht
    rw [decide_eq_true_eq]
    intro hmem
    obtain ⟨s, hs, hst⟩ := mem_map.mp hmem
    have hlt := (hfront.base_lt hs).2
    rcases mem_snoc.mp ht with ht | ht
    · have := (hback.base_lt ht).1
      omega
    · have := hback.nextBase_le
      rw [ht] at hst
      omega
  · intro s hs
    simpa using ⟨s, hs, rfl⟩

lemma firstBase_le_logStartOffset (segments : List SegmentFile) (startOverride : Option ℤ) :
    firstBase segments ≤ logStartOffset segments startOverride := by
  cases startOverride with
  | none => exact le_refl _
  | some o => exact le_max_left _ _

variable {startOverride : Option ℤ}

lemma logStartOffset_trimmed {target : ℤ}
    (hlt : logStartOffset (front ++ back ++ [active]) startOverride < target)
    (hfront : front = [] ∨ nextBase back active.base ≤ target) :
    logStartOffset (back ++ [active])
      (if nextBase back active.base < target then some target else startOverride) = target := by
  split
  next hnext => exact (congrArg (max · target) (firstBase_append back active)).trans (max_eq_right hnext.le)
  next hnext =>
    have hfirst := firstBase_le_logStartOffset (front ++ back ++ [active]) startOverride
    have heq : nextBase back active.base = target := by
      rcases hfront with rfl | hle
      · rw [nil_append, firstBase_append] at hfirst
        rw [nil_append] at hlt
        omega
      · omega
    cases startOverride with
    | none => exact (firstBase_append back active).trans heq
    | some o =>
      have ho : o ≤ logStartOffset (front ++ back ++ [active]) (some o) := le_max_right _ _
      simp only [logStartOffset, firstBase_append, heq]
      exact max_eq_left (ho.trans hlt.le)

/-- The log after `trim_to_offset` starts at the target; what was removed lies before it. -/
lemma trimToOffset_spec (h : WellFormed segments hi)
    (hle : logStartOffset segments startOverride ≤ hi) (target : ℤ) :
    let trimmed := trimToOffset segments startOverride target
    let rest := segments.filter (·.base ∉ trimmed.1)
    let start := max (logStartOffset segments startOverride) (min target hi)
    WellFormed rest hi ∧ logStartOffset rest trimmed.2 = start ∧
      ∀ b ∈ segments.flatMap batches, start ≤ b.lastOffset → b ∈ rest.flatMap batches := by
  unfold trimToOffset
  rw [h.logEndOffset_eq]
  dsimp only
  by_cases hstart : min target hi ≤ logStartOffset segments startOverride
  · rw [if_pos hstart, max_eq_left hstart]
    have hrest : segments.filter (·.base ∉ ([] : List ℤ)) = segments :=
      filter_eq_self.mpr fun _ _ => by simp
    rw [hrest]
    exact ⟨h, rfl, fun b hb _ => hb⟩
  · rw [if_neg hstart, max_eq_right (not_le.mp hstart).le]
    obtain ⟨older, active, rfl, hsealed, hactive⟩ := h
    obtain ⟨front, back, rfl, hdropped, hfront⟩ := droppedBases_eq older active (min target hi)
    obtain ⟨hf, hb⟩ := sealed_append.mp hsealed
    rw [hdropped, filter_front hsealed, firstBase_append]
    refine ⟨⟨back, active, rfl, hb, hactive⟩, ?_, fun b hmem hle' => ?_⟩
    · exact logStartOffset_trimmed (not_le.mp hstart) hfront
    · rw [append_assoc, flatMap_append] at hmem
      rcases mem_append.mp hmem with hmem | hmem
      · have hlt := (hf.contiguous.mem hmem).2
        rcases hfront with rfl | hfront
        · cases hmem
        · omega
      · exact hmem

lemma Covers.crash (h : Covers sent reported segments r) (kept : ℤ → ℕ) :
    Covers sent reported (segments.map (crash kept)) r := by
  obtain ⟨hi, older, active, rfl, hsealed, hactive⟩ := h.wellFormed
  have hcrash : ∀ s : SegmentFile, s.unsynced = [] → s.base < active.base → s.crash kept = s := by
    rintro ⟨base, stale, synced, unsynced⟩ hs -
    obtain rfl : unsynced = [] := hs
    simp [crash]
  have hbatches : (active.crash kept).batches <+: active.batches := by
    simp only [batches, crash, append_nil]
    exact (prefix_append_right_inj _).mpr ( take_prefix _ _)
  obtain ⟨lost, hlost⟩ := hbatches
  rw [← hlost] at hactive
  obtain ⟨mid, hmid, -⟩ := contiguous_append.mp hactive
  refine h.of_extends ⟨⟨mid, ?_⟩, ?_, ?_, ?_⟩
  · refine ⟨older, active.crash kept, ?_, hsealed, hmid⟩
    rw [map_append, hsealed.map_eq hcrash]
    rfl
  · rw [map_append, hsealed.map_eq hcrash, map_singleton, firstBase_append, firstBase_append]
    rfl
  · rw [map_append, hsealed.map_eq hcrash, flatMap_append, flatMap_append]
    refine (prefix_append_right_inj _).mpr ?_
    simp only [map_singleton, flatMap_singleton, crash]
    exact prefix_append _ _
  · intro b hb
    rw [map_append, hsealed.map_eq hcrash, flatMap_append, map_singleton, flatMap_singleton] at hb
    refine h.sent b ?_
    rw [flatMap_append, flatMap_singleton, ← hlost]
    rcases mem_append.mp hb with hb | hb
    · exact mem_append_left _ hb
    · exact mem_append_right _ (mem_append_left _ hb)

lemma promote_cons {kept : List SegmentFile} (h : kept ≠ []) (offset : ℤ) :
    promote offset (s :: kept) = s :: promote offset kept := by
  obtain ⟨older, last, rfl⟩ := eq_nil_or_concat kept |>.resolve_left h
  simp only [promote, concat_eq_append, ← cons_append, getLast?_concat, dropLast_concat]

variable {stop : ℤ} {pre : List Batch}

lemma promote_nil (hle : stop ≤ lo) (hpre : Contiguous lo pre stop) :
    WellFormed (promote stop []) stop ∧ firstBase (promote stop []) = lo ∧
      (promote stop []).flatMap batches = pre := by
  obtain rfl : lo = stop := le_antisymm hpre.le hle
  exact ⟨⟨[], _, rfl, trivial, rfl⟩, rfl, hpre.eq_nil.symm⟩

variable {post : List Batch}

lemma promote_singleton (hs : Contiguous s.base s.batches hi) (hflat : s.batches = pre ++ post)
    (hpre : Contiguous s.base pre stop) :
    WellFormed (promote stop [s]) stop ∧ firstBase (promote stop [s]) = s.base ∧
      (promote stop [s]).flatMap batches = pre := by
  have hcut : (s.truncate stop).batches = pre := by
    simp only [batches, truncate, append_nil]
    rw [← batches, hflat]
    rw [hflat] at hs
    exact hs.takeWhile_eq hpre
  refine ⟨⟨[], s.truncate stop, rfl, trivial, ?_⟩, rfl, ?_⟩
  · rwa [hcut]
  · exact (flatMap_singleton _ _).trans hcut

variable {older : List SegmentFile}

lemma takeWhile_ne_nil (h : nextBase older active.base < stop) :
    (older ++ [active]).takeWhile (·.base < stop) ≠ [] := by
  cases older with
  | nil | cons t older =>
    exact ne_of_eq_of_ne (takeWhile_cons_of_pos (by simpa [nextBase] using h)) (cons_ne_nil _ _)

lemma takeWhile_eq_nil (h : ¬ nextBase older active.base < stop) :
    (older ++ [active]).takeWhile (·.base < stop) = [] := by
  cases older with
  | nil | cons t older => exact takeWhile_cons_of_neg (by simpa [nextBase] using h)

lemma promote_spec (hsealed : Sealed older active.base)
    (hactive : Contiguous active.base active.batches hi)
    (hflat : (older ++ [active]).flatMap batches = pre ++ post)
    (hpre : Contiguous (nextBase older active.base) pre stop) :
    let cut := promote stop ((older ++ [active]).takeWhile (·.base < stop))
    WellFormed cut stop ∧ firstBase cut = nextBase older active.base ∧ cut.flatMap batches = pre := by
  induction older generalizing pre with
  | nil =>
    rw [nil_append, flatMap_singleton] at hflat
    by_cases hlt : active.base < stop
    · rw [nil_append, takeWhile_cons_of_pos (by simpa using hlt)]
      exact promote_singleton hactive hflat hpre
    · rw [nil_append, takeWhile_cons_of_neg (by simpa using hlt)]
      exact promote_nil (not_lt.mp hlt) hpre
  | cons s older ih =>
    obtain ⟨hclean, hbase, hs, hrest⟩ := hsealed
    rw [cons_append] at hflat ⊢
    rw [flatMap_cons, batches_of_clean hclean] at hflat
    by_cases hlt : s.base < stop
    · rw [takeWhile_cons_of_pos (by simpa using hlt)]
      have hs' : Contiguous s.base s.batches (nextBase older active.base) := by
        rwa [batches_of_clean hclean]
      by_cases hnext : nextBase older active.base < stop
      · -- the whole segment stays
        obtain ⟨pre', rfl, hflat'⟩ : ∃ pre', pre = s.synced ++ pre' ∧
            (older ++ [active]).flatMap batches = pre' ++ post := by
          rcases append_eq_append_iff.mp hflat with h | ⟨post', hsynced, -⟩
          · exact h
          · rw [hsynced] at hs
            have := (hs.rest hpre).le
            omega
        obtain ⟨hwf, hfirst, hbatches⟩ := ih hrest hflat' (hpre.rest hs)
        rw [promote_cons (takeWhile_ne_nil hnext)]
        refine ⟨hwf.cons hclean (hfirst.symm ▸ hbase) (hfirst.symm ▸ hs), rfl, ?_⟩
        rw [flatMap_cons, batches_of_clean hclean, hbatches]
      · obtain ⟨post', hflat'⟩ : ∃ post', s.batches = pre ++ post' := by
          rw [batches_of_clean hclean]
          rcases append_eq_append_iff.mp hflat with ⟨pre', rfl, -⟩ | ⟨post', hsynced, -⟩
          · have hpre' := hpre.rest hs
            have heq : nextBase older active.base = stop := le_antisymm hpre'.le (not_lt.mp hnext)
            rw [heq] at hpre'
            exact ⟨[], by rw [hpre'.eq_nil, append_nil, append_nil]⟩
          · exact ⟨post', hsynced⟩
        rw [takeWhile_eq_nil hnext]
        exact promote_singleton hs' hflat' hpre
    · rw [takeWhile_cons_of_neg (by simpa using hlt)]
      exact promote_nil (not_lt.mp hlt) hpre

/-! ## Recovery -/

def Recoverable (sent reported : List Batch) (disk : Disk) : Prop :=
  Whole disk.segments ∧ ∃ r, Covers sent reported disk.segments r ∧ disk.files.reading = some [r.start, r.stop]

/-- Between operations the checkpoint has the range of the log. -/
structure FollowerInv (sent reported : List Batch) (log : FollowerLog) : Prop where
  whole : Whole log.disk.segments
  covers : Covers sent reported log.disk.segments ⟨log.startOffset, log.endOffset⟩
  checkpoint : log.disk.files.checkpoint = some [log.startOffset, log.endOffset]

lemma FollowerInv.recoverable {log : FollowerLog} (h : FollowerInv sent reported log) :
    Recoverable sent reported log.disk :=
  ⟨h.whole, _, h.covers, by rw [CheckpointFiles.reading, h.checkpoint]; rfl⟩

lemma checkpoint_writeDurableOffset (files : CheckpointFiles) (r : DurableRange) :
    ((writeDurableOffset r).foldl CheckpointOp.apply files).checkpoint = some [r.start, r.stop] := by
  obtain ⟨checkpoint, backup, temporary⟩ := files
  cases checkpoint <;> rfl

lemma reading_writeDurableOffset {files : CheckpointFiles} {offsets : List ℤ}
    (h : files.checkpoint = some offsets) (r : DurableRange) (k : ℕ) :
    (((writeDurableOffset r).take k).foldl CheckpointOp.apply files).reading =
      if k < 5 then some offsets else some [r.start, r.stop] := by
  obtain ⟨checkpoint, backup, temporary⟩ := files
  obtain rfl : checkpoint = some offsets := h
  match k with
  | 0 | 1 | 2 | 3 | 4 | 5 => rfl
  | k + 6 =>
    rw [take_of_length_le (Nat.le_add_left 6 k), if_neg (by omega)]
    rfl

lemma batches_map_flush (segments : List SegmentFile) :
    (segments.map flush).flatMap batches = segments.flatMap batches := by
  rw [flatMap_map]
  exact flatMap_congr fun s _ => batches_flush s

lemma logStartOffset_map_flush (segments : List SegmentFile) (startOverride : Option ℤ) :
    logStartOffset (segments.map flush) startOverride = logStartOffset segments startOverride := by
  cases segments <;> rfl

lemma WellFormed.covers_flush (h : WellFormed segments hi)
    (hnonneg : 0 ≤ logStartOffset segments startOverride)
    (hle : logStartOffset segments startOverride ≤ hi)
    (hrep : ∀ b ∈ reported, logStartOffset segments startOverride ≤ b.lastOffset → b ∈ segments.flatMap batches)
    (hsent : ∀ b ∈ segments.flatMap batches, b ∈ sent) :
    Covers sent reported (segments.map flush) ⟨logStartOffset segments startOverride, hi⟩ := by
  have hclean : (segments.map flush).flatMap synced = (segments.map flush).flatMap batches := by
    simp only [flatMap_map, batches_flush]
    rfl
  refine h.map_flush.covers hclean hnonneg ?_ hle ?_ ?_
  · rw [← logStartOffset_map_flush]
    exact firstBase_le_logStartOffset _ _
  · rwa [batches_map_flush]
  · rwa [batches_map_flush]

lemma truncateTo_spec (h : WellFormed segments hi)
    (hflat : segments.flatMap batches = pre ++ post)
    (hpre : Contiguous (firstBase segments) pre stop) :
    WellFormed (truncateTo segments stop) stop ∧
      firstBase (truncateTo segments stop) = firstBase segments ∧
      (truncateTo segments stop).flatMap batches = pre := by
  have hpost : Contiguous stop post hi := (hflat ▸ h.contiguous).rest hpre
  unfold truncateTo
  rw [h.logEndOffset_eq]
  split
  next hle =>
    obtain rfl : stop = hi := le_antisymm hpost.le hle
    exact ⟨h, rfl, by rw [hflat, hpost.eq_nil, append_nil]⟩
  next =>
    obtain ⟨older, active, rfl, hsealed, hactive⟩ := h
    rw [firstBase_append] at hpre ⊢
    exact promote_spec hsealed hactive hflat hpre

/-- The index has no entry beyond the file of the active segment. -/
def Disk.indexBehind (disk : Disk) : Bool := disk.segments.getLast?.all fun active => disk.indexed ≤ active.file.length

lemma openSegments_eq {disk : Disk} (hne : disk.segments ≠ []) (hwhole : Whole disk.segments)
    (hclean : ∀ s ∈ disk.segments, s.unsynced = []) (hindex : disk.indexBehind) : openSegments disk = disk.segments := by
  unfold openSegments
  obtain ⟨older, active, hsegments⟩ := eq_nil_or_concat disk.segments |>.resolve_left hne
  rw [concat_eq_append] at hsegments
  have hmem : active ∈ disk.segments := by simp [hsegments]
  rw [Disk.indexBehind, hsegments, getLast?_concat, Option.all_some, decide_eq_true_eq] at hindex
  rw [hsegments, getLast?_concat]
  have hstale := hwhole active hmem
  have hunsynced := hclean active hmem
  obtain ⟨base, stale, synced, unsynced⟩ := active
  obtain rfl : stale = [] := hstale
  obtain rfl : unsynced = [] := hunsynced
  have hrecover : recoverActiveTail disk.indexed { base, synced } = { base, synced } := by
    unfold recoverActiveTail
    rw [if_neg (not_lt.mpr hindex)]
    simp [file, batches]
  simp [hrecover]

lemma whole_truncateTo (h : Whole segments) (offset : ℤ) : Whole (truncateTo segments offset) := by
  unfold truncateTo promote
  split
  · exact h
  · split
    · rename_i last hlast
      intro s hs
      rcases mem_append.mp hs with hs | hs
      · exact h s ((takeWhile_subset _) (mem_of_mem_dropLast hs))
      · rw [mem_singleton.mp hs]
        exact h last ((takeWhile_subset _) (mem_of_getLast? hlast))
    · intro s hs
      rw [mem_singleton.mp hs]

/-- **Recovery succeeds** on what a crash leaves of a covered range, and the log then has that range. -/
theorem Recoverable.openAt {disk : Disk} (h : Recoverable sent reported disk) (kept : ℤ → ℕ) {indexed : ℕ}
    (hindex : Disk.indexBehind { disk with segments := disk.segments.map (crash kept), indexed }) :
    ∃ log, openAt { disk with segments := disk.segments.map (crash kept), indexed } = .ok log ∧
      FollowerInv sent reported log := by
  obtain ⟨hwhole, r, hcov, hread⟩ := h
  replace hcov := hcov.crash kept
  have hwhole : Whole (disk.segments.map (crash kept)) := forall_mem_map.mpr fun s hs => hwhole s hs
  have hclean : ∀ s ∈ disk.segments.map (crash kept), s.unsynced = [] := forall_mem_map.mpr fun _ _ => rfl
  generalize disk.segments.map (crash kept) = segments at hcov hwhole hclean hindex ⊢
  obtain ⟨hi, hwf⟩ := hcov.wellFormed
  obtain ⟨pre, hpre, hcont, hrep⟩ := hcov.durable
  obtain ⟨post, hflat⟩ := hpre.trans hwf.synced_le
  have hstop : r.stop ≤ hi := (Contiguous.rest (hflat.symm ▸ hwf.contiguous) hcont).le
  obtain ⟨hwf', hfirst', hbatches'⟩ := truncateTo_spec hwf hflat.symm hcont
  have hle' : logStartOffset (truncateTo segments r.stop) none ≤ r.stop :=
    hfirst'.le.trans (hcov.first.trans hcov.le)
  obtain ⟨hwf'', hstart, hmem⟩ := trimToOffset_spec hwf' hle' r.start
  have hmax : max (logStartOffset (truncateTo segments r.stop) none) (min r.start r.stop) = r.start := by
    rw [min_eq_left hcov.le]
    exact max_eq_right (hfirst'.le.trans hcov.first)
  rw [hmax] at hstart hmem
  have hread' : readDurable disk.files (logStartOffset segments none) = .ok r := by
    unfold readDurable
    rw [hread]
  have hcheck : logStartOffset segments none ≤ r.start ∧ r.start ≤ logEndOffset segments ∧
      r.start ≤ r.stop ∧ r.stop ≤ logEndOffset segments := by
    rw [hwf.logEndOffset_eq]
    exact ⟨hcov.first, hcov.le.trans hstop, hcov.le, hstop⟩
  unfold Follower.openAt
  have hopen := openSegments_eq hwf.ne_nil hwhole hclean hindex
  simp only [hopen, hread', if_pos hcheck, if_neg (not_lt.mpr hcov.nonneg)]
  refine ⟨_, rfl, forall_mem_map.mpr fun s hs => whole_truncateTo hwhole r.stop s (mem_of_mem_filter hs), ?_, ?_⟩
  · rw [FollowerLog.startOffset, FollowerLog.endOffset, logStartOffset_map_flush, hwf''.map_flush.logEndOffset_eq]
    refine hwf''.covers_flush (hcov.nonneg.trans hstart.ge) (hstart.le.trans hcov.le) (fun b hb hle => ?_)
      (fun b hb => ?_)
    · rw [hstart] at hle
      exact hmem b (hbatches' ▸ hrep b hb hle) hle
    · obtain ⟨s, hs, hb⟩ := mem_flatMap.mp hb
      have hpre : b ∈ pre := hbatches' ▸ mem_flatMap.mpr ⟨s, mem_of_mem_filter hs, hb⟩
      exact hcov.sent b (hflat ▸ mem_append_left post hpre)
  · rw [FollowerLog.startOffset, FollowerLog.endOffset, logStartOffset_map_flush, hwf''.map_flush.logEndOffset_eq,
      hstart]
    exact checkpoint_writeDurableOffset disk.files r

/-! ## The operations -/

section
variable {sent sent' reported : List Batch} {log : FollowerLog}

lemma foldl_segment (ops : List SegmentOp) (disk : Disk) :
    (ops.map FileOp.segment).foldl FileOp.apply disk = { disk with segments := ops.foldl apply disk.segments } := by
  induction ops generalizing disk with
  | nil => rfl
  | cons op ops ih => exact ih _

lemma foldl_checkpoint (ops : List CheckpointOp) (disk : Disk) :
    (ops.map FileOp.checkpoint).foldl FileOp.apply disk =
      { disk with files := ops.foldl CheckpointOp.apply disk.files } := by
  induction ops generalizing disk with
  | nil => rfl
  | cons op ops ih => exact ih _

lemma foldl_take_fileOps (p : Plan) (k : ℕ) (disk : Disk) :
    (p.fileOps.take k).foldl FileOp.apply disk =
      { disk with
        segments := (p.segmentOps.take k).foldl apply disk.segments
        files := ((p.range.toList.flatMap writeDurableOffset).take (k - p.segmentOps.length)).foldl
          CheckpointOp.apply disk.files } := by
  rw [Plan.fileOps, take_append, foldl_append, length_map, ← map_take, ← map_take, foldl_segment, foldl_checkpoint]

variable {p : Plan}

def Idle (log : FollowerLog) (p : Plan) : Prop :=
  p.segmentOps = [] ∧ p.range = none ∧ p.startOverride = log.startOverride

/-- A plan that checkpoints the range of its log, and its segments cover it. -/
def Checkpoints (sent reported : List Batch) (log : FollowerLog) (p : Plan) : Prop :=
  ∃ r, p.range = some r ∧
    Covers sent reported (p.segmentOps.foldl SegmentOp.apply log.disk.segments) r ∧
    logStartOffset (p.segmentOps.foldl SegmentOp.apply log.disk.segments) p.startOverride = r.start ∧
    logEndOffset (p.segmentOps.foldl SegmentOp.apply log.disk.segments) = r.stop

lemma FollowerInv.recoverable_of_along (h : FollowerInv sent reported log)
    (halong : Along (Extends sent' log.disk.segments) log.disk.segments p.segmentOps)
    (hcp : Checkpoints sent' reported log p) (k : ℕ) :
    Recoverable sent' reported ((p.fileOps.take k).foldl FileOp.apply log.disk) := by
  obtain ⟨r, hr, hdone, -, -⟩ := hcp
  rw [foldl_take_fileOps, hr]
  have hold : Covers sent' reported ((p.segmentOps.take k).foldl apply log.disk.segments)
      ⟨log.startOffset, log.endOffset⟩ := h.covers.of_extends (halong k)
  have hread := reading_writeDurableOffset h.checkpoint r (k - p.segmentOps.length)
  by_cases hk : k - p.segmentOps.length < 5
  · rw [if_pos hk] at hread
    exact ⟨h.whole.foldl _, _, hold, hread⟩
  · rw [if_neg hk] at hread
    rw [take_of_length_le (by omega)]
    exact ⟨h.whole.foldl _, r, hdone, hread⟩

lemma FollowerInv.recoverable_of_installed (h : FollowerInv sent reported log)
    {reported' : List Batch} (hcp : Checkpoints sent' reported' log p) {k : ℕ}
    (hk : FileOp.checkpoint .renameTemporary ∈ p.fileOps.take k) :
    Recoverable sent' reported' ((p.fileOps.take k).foldl apply log.disk) := by
  obtain ⟨r, hr, hdone, -, -⟩ := hcp
  have hlen : ¬ k - p.segmentOps.length < 5 := by
    intro hlt
    rw [Plan.fileOps, hr, take_append, length_map] at hk
    rcases mem_append.mp hk with hk | hk
    · obtain ⟨op, -, hop⟩ := mem_map.mp (mem_of_mem_take hk)
      cases hop
    · generalize k - p.segmentOps.length = j at hk hlt
      match j with
      | 0 | 1 | 2 | 3 | 4 => simp [writeDurableOffset] at hk
  have hread := reading_writeDurableOffset h.checkpoint r (k - p.segmentOps.length)
  rw [if_neg hlen] at hread
  rw [foldl_take_fileOps, take_of_length_le (by omega), hr]
  exact ⟨h.whole.foldl _, r, hdone, hread⟩

def Operation.batches : Operation → List Batch
  | .append _ _ records => records.getD []
  | .trimTo _ | .resetTo _ => []

section
variable (h : FollowerInv sent reported log)
include h

lemma FollowerInv.wellFormed : WellFormed log.disk.segments log.endOffset := by
  obtain ⟨hi, hwf⟩ := h.covers.wellFormed
  rwa [FollowerLog.endOffset, hwf.logEndOffset_eq]

lemma FollowerInv.reported_mem {b : Batch} (hb : b ∈ reported)
    (hle : log.startOffset ≤ b.lastOffset) : b ∈ log.batches := by
  obtain ⟨pre, hpre, -, hrep⟩ := h.covers.durable
  exact (hpre.trans h.wellFormed.synced_le).subset (hrep b hb hle)

lemma FollowerInv.report : FollowerInv sent (reported ++ log.batches) log := by
  obtain ⟨pre, hpre, hcont, hrep⟩ := h.covers.durable
  obtain ⟨post, hflat⟩ := hpre.trans h.wellFormed.synced_le
  have hnil : post = [] := (Contiguous.rest (hflat.symm ▸ h.wellFormed.contiguous) hcont).eq_nil
  refine ⟨h.whole, { h.covers with durable := ⟨pre, hpre, hcont, fun b hb hle => ?_⟩ }, h.checkpoint⟩
  rcases mem_append.mp hb with hb | hb
  · exact hrep b hb hle
  · rwa [FollowerLog.batches, ← hflat, hnil, append_nil] at hb

lemma FollowerInv.mono (hsent : ∀ b ∈ sent, b ∈ sent') :
    FollowerInv sent' reported log :=
  ⟨h.whole, { h.covers with sent := fun b hb => hsent b (h.covers.sent b hb) }, h.checkpoint⟩

end

lemma appendPlan_spec (config : LogConfig) (h : FollowerInv sent reported log) (requested leaderEnd : ℤ)
    (records : Option (List Batch)) (hsent : ∀ b ∈ sent, b ∈ sent') (hmem : ∀ b ∈ records.getD [], b ∈ sent') :
    (Idle log (appendPlan config log requested leaderEnd records) ∨
        Checkpoints sent' reported log (appendPlan config log requested leaderEnd records)) ∧
      Along (Extends sent' log.disk.segments) log.disk.segments
        (appendPlan config log requested leaderEnd records).segmentOps := by
  have hsent' : ∀ b ∈ log.disk.segments.flatMap batches, b ∈ sent' :=
    fun b hb => hsent b (h.covers.sent b hb)
  have hrefl : Along (Extends sent' log.disk.segments) log.disk.segments [] := .nil (.refl h.wellFormed hsent')
  unfold appendPlan
  match records with
  | none => exact ⟨.inl ⟨rfl, rfl, rfl⟩, hrefl⟩
  | some batches =>
    dsimp only
    match hexp : expectedEnd requested batches with
    | none => exact ⟨.inl ⟨rfl, rfl, rfl⟩, hrefl⟩
    | some expected =>
      dsimp only
      split
      next => exact ⟨.inl ⟨rfl, rfl, rfl⟩, hrefl⟩
      next hok =>
        rw [not_or, not_not] at hok
        have hcont : Contiguous log.endOffset batches expected := by
          rw [hok.1]
          exact expectedEnd_eq_some.mp hexp
        obtain ⟨hdone, halong, hwf⟩ := along_appendBatches h.wellFormed hsent' h.whole config hcont hmem
        generalize appendBatches config log.disk.segments batches = result at hdone halong hwf
        obtain ⟨ops, done⟩ := result
        obtain rfl : done := hdone
        simp only [if_true, if_pos hwf.logEndOffset_eq]
        have hext := halong.last
        have hstart : logStartOffset (ops.foldl apply log.disk.segments) log.startOverride = log.startOffset := by
          unfold FollowerLog.startOffset logStartOffset
          rw [hext.first]
        have hfold : (ops ++ syncAll (ops.foldl SegmentOp.apply log.disk.segments)).foldl SegmentOp.apply
            log.disk.segments = (ops.foldl SegmentOp.apply log.disk.segments).map flush := by
          rw [foldl_append, foldl_syncAll hwf]
        refine ⟨.inr ⟨_, rfl, ?_, ?_, ?_⟩, ?_⟩
        · rw [hfold]
          refine hwf.covers_flush ?_ ?_ ?_ hext.sent
          · rw [hstart]
            exact h.covers.nonneg
          · rw [hstart]
            exact h.covers.le.trans hcont.le
          · intro b hb hle
            rw [hstart] at hle
            obtain ⟨pre, hpre, -, hrep⟩ := h.covers.durable
            exact ((hpre.trans hext.synced).trans hwf.synced_le).subset (hrep b hb hle)
        · rw [hfold, logStartOffset_map_flush]
        · rw [hfold]
          exact hwf.map_flush.logEndOffset_eq
        · exact halong.append ((along_syncs hwf hext.sent _).mono fun s hs => hext.trans hs)

lemma trimPlan_spec (h : FollowerInv sent reported log) (offset : ℤ) :
    (Idle log (trimPlan log offset) ∨ Checkpoints sent reported log (trimPlan log offset)) ∧
      (Along (Extends sent log.disk.segments) log.disk.segments (trimPlan log offset).segmentOps ∨
        ∃ base rest, (trimPlan log offset).segmentOps = .remove base :: rest) := by
  have hrefl : Along (Extends sent log.disk.segments) log.disk.segments [] :=
    .nil (.refl h.wellFormed h.covers.sent)
  unfold trimPlan
  split
  next => exact ⟨.inl ⟨rfl, rfl, rfl⟩, .inl hrefl⟩
  next =>
    obtain ⟨hwf, hstart, hmem⟩ := trimToOffset_spec h.wellFormed h.covers.le offset
    generalize trimToOffset log.disk.segments log.startOverride offset = trimmed at hwf hstart hmem
    obtain ⟨dropped, startOverride⟩ := trimmed
    have hfold : (dropped.map remove ++
        syncAll (log.disk.segments.filter (·.base ∉ dropped))).foldl SegmentOp.apply log.disk.segments =
          (log.disk.segments.filter (·.base ∉ dropped)).map flush := by
      rw [foldl_append, foldl_remove, foldl_syncAll hwf]
    have hge : log.startOffset ≤ logStartOffset (log.disk.segments.filter (·.base ∉ dropped)) startOverride :=
      hstart ▸ le_max_left _ _
    refine ⟨.inr ⟨_, rfl, ?_, ?_, ?_⟩, ?_⟩
    · rw [hfold, hwf.logEndOffset_eq]
      refine hwf.covers_flush (h.covers.nonneg.trans hge) ?_ (fun b hb hle => ?_) (fun b hb => ?_)
      · rw [hstart]
        exact max_le h.covers.le (min_le_right _ _)
      · exact hmem b (h.reported_mem hb (hge.trans hle)) (hstart ▸ hle)
      · obtain ⟨s, hs, hb⟩ := mem_flatMap.mp hb
        exact h.covers.sent b (mem_flatMap.mpr ⟨s, mem_of_mem_filter hs, hb⟩)
    · rw [hfold, logStartOffset_map_flush]
    · rw [hfold, hwf.map_flush.logEndOffset_eq, hwf.logEndOffset_eq]
    · cases dropped with
      | nil => exact .inl (along_syncs h.wellFormed h.covers.sent _)
      | cons base dropped => exact .inr ⟨_, _, rfl⟩

lemma resetPlan_spec (h : FollowerInv sent reported log) (offset : ℤ) :
    Idle log (resetPlan log offset) ∨
      Checkpoints sent [] log (resetPlan log offset) ∧
        ∃ base rest, (resetPlan log offset).segmentOps = .remove base :: rest := by
  unfold resetPlan
  split
  next => exact .inl ⟨rfl, rfl, rfl⟩
  next hoffset =>
    obtain ⟨older, active, hseg, -, -⟩ := h.wellFormed
    rw [hseg, dropLast_concat, List.getLast?_concat]
    refine .inr ⟨?_, ?_⟩
    · have hremoves : older.reverse.map (fun s => remove s.base) ++
          (some active).toList.map (fun s => remove s.base) =
            ((older.reverse ++ [active]).map base).map remove := by
        simp only [map_append, map_map, Option.toList_some]
        rfl
      have hall : (older ++ [active]).filter (·.base ∉ (older.reverse ++ [active]).map base) = [] := by
        refine filter_eq_nil_iff.mpr fun s hs => ?_
        rw [decide_eq_true_eq, not_not]
        exact mem_map_of_mem (by simpa using hs)
      have hfold : (((older.reverse ++ [active]).map base).map remove ++
          [create offset, sync offset]).foldl SegmentOp.apply (older ++ [active]) = [{ base := offset }] := by
        rw [foldl_append, foldl_remove, hall]
        simp [SegmentOp.apply, flush, batches]
      rw [← hremoves] at hfold
      refine ⟨_, rfl, ?_, ?_, ?_⟩
      · rw [hseg, hfold]
        have hwf : WellFormed [{ base := offset }] offset := ⟨[], _, rfl, trivial, rfl⟩
        exact hwf.covers rfl (not_lt.mp hoffset) (le_refl _) (le_refl _) nofun
          nofun
      · rw [hseg, hfold]
        rfl
      · rw [hseg, hfold]
        rfl
    · cases older.reverse with
      | nil | cons s rest => exact ⟨_, _, rfl⟩

end

/-! ## Runs -/

def FileOp.removes : FileOp → Bool
  | .segment (.remove _) => true
  | .segment (.create _) | .segment (.write ..) | .segment (.sync _) | .checkpoint _ => false

/-- The process does not stop between the removal of a segment and the rename of the new checkpoint, and no index entry
survives whose batch is lost. -/
def CrashSafe (config : LogConfig) (log : FollowerLog) (op : Operation) (k : ℕ) (kept : ℤ → ℕ) (indexed : ℕ) : Prop :=
  ((∀ o ∈ (plan config log op).fileOps.take k, o.removes = false) ∨
    FileOp.checkpoint .renameTemporary ∈ (plan config log op).fileOps.take k) ∧
  (crashed config log op k kept indexed).indexBehind = true

instance (config : LogConfig) (log : FollowerLog) (op : Operation) (k : ℕ) (kept : ℤ → ℕ) (indexed : ℕ) :
    Decidable (CrashSafe config log op k kept indexed) := by
  unfold CrashSafe
  infer_instance

/-- What was reported, but for a reset that has removed segments. -/
def Operation.stillReported (op : Operation) (done : List FileOp) (reported : List Batch) : List Batch :=
  match op with
  | .append .. | .trimTo _ => reported
  | .resetTo _ => if done.any FileOp.removes then [] else reported

section
variable {sent reported : List Batch} {log : FollowerLog}
variable {p : Plan}

lemma FollowerInv.of_idle (h : FollowerInv sent reported log) (hidle : Idle log p) :
    p.fileOps = [] ∧ FollowerInv sent reported
      { disk := p.fileOps.foldl apply log.disk, startOverride := p.startOverride } := by
  obtain ⟨hops, hrange, hover⟩ := hidle
  have hnil : p.fileOps = [] := by
    rw [Plan.fileOps, hops, hrange]
    rfl
  rw [hnil, hover]
  exact ⟨rfl, h⟩

lemma Checkpoints.inv (h : Checkpoints sent reported log p) (hwhole : Whole log.disk.segments) :
    FollowerInv sent reported { disk := p.fileOps.foldl apply log.disk, startOverride := p.startOverride } := by
  obtain ⟨r, hr, hcov, hstart, hstop⟩ := h
  have hdisk : p.fileOps.foldl FileOp.apply log.disk =
      { log.disk with
        segments := p.segmentOps.foldl apply log.disk.segments
        files := (writeDurableOffset r).foldl CheckpointOp.apply log.disk.files } := by
    rw [Plan.fileOps, foldl_append, foldl_segment, foldl_checkpoint, hr]
    simp only [Option.toList_some, flatMap_singleton]
  rw [hdisk]
  refine ⟨hwhole.foldl _, ?_, ?_⟩ <;> rw [FollowerLog.startOffset, FollowerLog.endOffset, hstart, hstop]
  · exact hcov
  · exact checkpoint_writeDurableOffset log.disk.files r

section
variable (h : FollowerInv sent reported log)
include h

/-- A plan that begins with a removal stops before it or after the rename. -/
lemma FollowerInv.recoverable_of_remove
    {reported' : List Batch} (hcp : Checkpoints sent reported' log p)
    (hremove : ∃ base rest, p.segmentOps = .remove base :: rest) {k : ℕ}
    (hsafe : (∀ o ∈ p.fileOps.take k, o.removes = false) ∨ FileOp.checkpoint .renameTemporary ∈ p.fileOps.take k) :
    k = 0 ∨ Recoverable sent reported' ((p.fileOps.take k).foldl apply log.disk) ∧
      (p.fileOps.take k).any removes = true := by
  obtain ⟨base, rest, hops⟩ := hremove
  cases k with
  | zero => exact .inl rfl
  | succ k =>
    have hhead : segment (.remove base) ∈ p.fileOps.take (k + 1) := by
      rw [Plan.fileOps, hops]
      exact mem_cons_self
    rcases hsafe with hnone | hmem
    · cases hnone _ hhead
    · exact .inr ⟨h.recoverable_of_installed hcp hmem, any_eq_true.mpr ⟨_, hhead, rfl⟩⟩

lemma FollowerInv.recoverable_crash (config : LogConfig) (op : Operation)
    {k : ℕ} (hsafe : (∀ o ∈ (plan config log op).fileOps.take k, o.removes = false) ∨
      FileOp.checkpoint .renameTemporary ∈ (plan config log op).fileOps.take k) :
    Recoverable (sent ++ op.batches)
      (op.stillReported ((plan config log op).fileOps.take k) reported)
      (((plan config log op).fileOps.take k).foldl FileOp.apply log.disk) := by
  have hsent : ∀ b ∈ sent, b ∈ sent ++ op.batches := fun b hb => mem_append_left _ hb
  have hidle : ∀ {p : Plan}, Idle log p →
      Recoverable (sent ++ op.batches) reported ((p.fileOps.take k).foldl FileOp.apply log.disk) := by
    intro p hp
    rw [(h.of_idle hp).1, take_nil]
    exact (h.mono hsent).recoverable
  match op with
  | .append requested leaderEnd records =>
    obtain ⟨hplan, halong⟩ := appendPlan_spec config h requested leaderEnd records hsent
      fun b hb => mem_append_right _ hb
    rcases hplan with hp | hcp
    · exact hidle hp
    · exact h.recoverable_of_along halong hcp k
  | .trimTo offset =>
    rw [Operation.batches, append_nil] at hidle ⊢
    obtain ⟨hplan, hops⟩ := trimPlan_spec h offset
    rcases hplan with hp | hcp
    · exact hidle hp
    · rcases hops with halong | hremove
      · exact h.recoverable_of_along halong hcp k
      · rcases h.recoverable_of_remove hcp hremove hsafe with rfl | ⟨hrec, -⟩
        · exact h.recoverable
        · exact hrec
  | .resetTo offset =>
    rw [Operation.batches, append_nil] at hidle ⊢
    rcases resetPlan_spec h offset with hp | ⟨hcp, hremove⟩
    · have hreported : Operation.stillReported (.resetTo offset)
          ((plan config log (.resetTo offset)).fileOps.take k) reported = reported := by
        rw [show (plan config log (.resetTo offset)).fileOps = [] from (h.of_idle hp).1, take_nil]
        rfl
      rw [hreported]
      exact hidle hp
    · rcases h.recoverable_of_remove hcp hremove hsafe with rfl | ⟨hrec, hany⟩
      · exact h.recoverable
      · have hreported : Operation.stillReported (.resetTo offset)
            ((plan config log (.resetTo offset)).fileOps.take k) reported = [] := if_pos hany
        rwa [hreported]

/-- A call that completes keeps the invariant. -/
lemma FollowerInv.complete (config : LogConfig) (op : Operation) :
    FollowerInv (sent ++ op.batches) (op.stillReported (plan config log op).fileOps reported)
      (complete config log op) := by
  have hsent : ∀ b ∈ sent, b ∈ sent ++ op.batches := fun b hb => mem_append_left _ hb
  match op with
  | .append requested leaderEnd records =>
    obtain ⟨hplan, -⟩ := appendPlan_spec config h requested leaderEnd records hsent
      fun b hb => mem_append_right _ hb
    rcases hplan with hp | hcp
    · exact ((h.mono hsent).of_idle hp).2
    · exact hcp.inv h.whole
  | .trimTo offset =>
    rw [Operation.batches, append_nil]
    obtain ⟨hplan, -⟩ := trimPlan_spec h offset
    rcases hplan with hp | hcp
    · exact (h.of_idle hp).2
    · exact hcp.inv h.whole
  | .resetTo offset =>
    rw [Operation.batches, append_nil]
    set ops := (plan config log (.resetTo offset)).fileOps
    rcases resetPlan_spec h offset with hp | ⟨hcp, base, rest, hops⟩
    · obtain ⟨hnil, hinv⟩ := h.of_idle hp
      have hreported : Operation.stillReported (.resetTo offset) ops reported = reported := by
        rw [show ops = [] from hnil]
        rfl
      rwa [hreported]
    · have hany : ops.any removes := by
        rw [show ops = (resetPlan log offset).fileOps from rfl, Plan.fileOps, hops]
        rfl
      have hreported : Operation.stillReported (.resetTo offset) ops reported = [] := if_pos hany
      rw [hreported]
      exact hcp.inv h.whole

end

end

/-- The follower with the batches that the leader sent and those that the log had when an append
returned. -/
structure FollowerState where
  log : FollowerLog
  sent : List Batch := []
  reported : List Batch := []

/-- A call that completes, or a crash within one and the recovery after it. -/
inductive FollowerEvent where
  | finish (op : Operation)
  | crash (op : Operation) (k : ℕ) (kept : ℤ → ℕ) (indexed : ℕ)

def Operation.reports (op : Operation) (log : FollowerLog) : List Batch :=
  match op with
  | .append .. => log.batches
  | .trimTo _ | .resetTo _ => []

/-- Operations come to their end, or the process stops inside one and starts again. -/
def follower (config : LogConfig) : Sys FollowerState FollowerEvent where
  enabled s
    | .finish _ => True
    | .crash op k kept indexed => (openAt (crashed config s.log op k kept indexed)).isOk = true
  next s
    | .finish op =>
      { log := complete config s.log op
        sent := s.sent ++ op.batches
        reported := op.stillReported (plan config s.log op).fileOps s.reported ++
          op.reports (complete config s.log op) }
    | .crash op k kept indexed =>
      match openAt (crashed config s.log op k kept indexed) with
      | .ok log =>
        { log
          sent := s.sent ++ op.batches
          reported := op.stillReported ((plan config s.log op).fileOps.take k) s.reported }
      | .error _ => s

def SafeCrash (config : LogConfig) (s : FollowerState) : FollowerEvent → Prop
  | .finish _ => True
  | .crash op k kept indexed => CrashSafe config s.log op k kept indexed

lemma FollowerInv.fresh : FollowerInv [] [] fresh := by
  have hwf : WellFormed [{ base := 0 }] 0 := ⟨[], _, rfl, trivial, rfl⟩
  exact ⟨by simp [Whole, Follower.fresh], hwf.covers rfl (le_refl _) (le_refl _) (le_refl _) nofun nofun, rfl⟩

/-- Every call and every safe crash keeps the invariant. -/
lemma FollowerInv.step (config : LogConfig) (s : FollowerState) (e : FollowerEvent)
    (h : FollowerInv s.sent s.reported s.log) (_ : (follower config).enabled s e) (hsafe : SafeCrash config s e) :
    FollowerInv ((follower config).next s e).sent ((follower config).next s e).reported
      ((follower config).next s e).log := by
  match e with
  | .finish op =>
    have hinv := h.complete config op
    match op with
    | .append requested leaderEnd records => exact hinv.report
    | .trimTo offset | .resetTo offset =>
      simp only [follower, Operation.reports, append_nil]
      exact hinv
  | .crash op k kept indexed =>
    obtain ⟨log, hopen, hinv⟩ := (h.recoverable_crash config op hsafe.1).openAt kept hsafe.2
    have hopen' : openAt (crashed config s.log op k kept indexed) = .ok log := hopen
    simp only [follower, hopen']
    exact hinv

/-- One byte per segment, so that each batch gets its own. -/
def smallSegments : LogConfig := { segmentSize := 1, flushOnAppend := false, segmentSize_pos := by decide }

def recordAt (offset : ℤ) : Batch := { baseOffset := offset, lastOffset := offset, bytes := [7], nonempty := le_refl _ }

def twoBatches : List FollowerEvent := [.finish (.append 0 2 (some [recordAt 0, recordAt 1]))]

def twoSegments : FollowerState := (follower smallSegments).execs { log := fresh } twoBatches

lemma runsOk_twoBatches :
    (follower smallSegments).RunsOk (SafeCrash smallSegments) { log := fresh } twoBatches :=
  ⟨trivial, trivial, trivial⟩

end Crabka.Broker.Wal.Follower
