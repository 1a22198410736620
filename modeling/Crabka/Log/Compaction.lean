import Crabka.Log.AbortedIndex

/-!
# Compaction

`crates/log/src/compact.rs`, the retain decision of `crates/verified/src/compaction.rs`, and `Log::compact`, which
rewrites the sealed segments into one. A batch carries its records, with keys and values of arbitrary types;
timestamps are `i64` with the saturating arithmetic of the source. One pass keeps exactly the newest record of each
key, tombstones that aged out excepted, and the markers of a producer whose data survives.
-/

namespace Crabka.Log.Compaction
open List
variable {κ ν : Type}

/-! ## Batches with their records -/

structure Record (κ ν : Type) where
  offsetDelta : ℕ
  timestampDelta : ℤ
  key : Option κ
  value : Option ν
  deriving DecidableEq

structure RecordBatch (κ ν : Type) where
  header : Batch
  baseTimestamp : ℤ
  hasDeleteHorizon : Bool
  records : List (Record κ ν)
  deriving DecidableEq

def saturate (x : ℤ) : ℤ := max (-2 ^ 63) (min x (2 ^ 63 - 1))

namespace RecordBatch
variable (b : RecordBatch κ ν)

def isControl : Bool := b.header.control.isSome

def offset (r : Record κ ν) : ℤ := b.header.baseOffset + r.offsetDelta

def timestamp (r : Record κ ν) : ℤ := b.baseTimestamp + r.timestampDelta

def deleteHorizonMs : Option ℤ := if b.hasDeleteHorizon then some b.baseTimestamp else none

def withDeleteHorizon (horizonMs : ℤ) : RecordBatch κ ν :=
  { b with
    baseTimestamp := horizonMs
    hasDeleteHorizon := true
    records := b.records.map fun r =>
      { r with timestampDelta := saturate (saturate (b.timestamp r) - horizonMs) } }

end RecordBatch

/-! ## The retain decision -/

inductive TxnDataState where
  | notTransactional
  | dataSurvives
  | dataFullyGone
  deriving DecidableEq, Repr

/-- What compaction decides: to keep, to set a delete horizon first, or to delete. -/
inductive RetainDecision where
  | keep
  | setHorizon (horizon : ℤ)
  | delete
  deriving DecidableEq, Repr

def computeHorizon (nowMs deleteRetentionMs : ℤ) : ℤ := saturate (nowMs + deleteRetentionMs)

/-- What becomes of a tombstone or a marker that nothing needs: it is stamped once, and goes when its
horizon has passed. -/
def ageOut (existingHorizon : Option ℤ) (nowMs deleteRetentionMs : ℤ) : RetainDecision :=
  match existingHorizon with
  | some h => if h ≤ nowMs then .delete else .keep
  | none => .setHorizon (computeHorizon nowMs deleteRetentionMs)

def retainDecision (hasKey hasValue isControl : Bool) (existingHorizon : Option ℤ)
    (isNewestForKey : Bool) (txn : TxnDataState) (nowMs deleteRetentionMs : ℤ) : RetainDecision :=
  if isControl then
    match txn with
    | .dataSurvives | .notTransactional => .keep
    | .dataFullyGone => ageOut existingHorizon nowMs deleteRetentionMs
  else if !hasKey then .delete
  else if !isNewestForKey then .delete
  else if hasValue then .keep
  else ageOut existingHorizon nowMs deleteRetentionMs

/-! ## The passes over the sealed segments -/

/-- `build_offset_map`: later records overwrite earlier ones; control batches are skipped. -/
def buildOffsetMap [DecidableEq κ] (batches : List (RecordBatch κ ν)) : κ → Option ℤ :=
  batches.foldl
    (fun m b => if b.isControl then m else
      b.records.foldl
        (fun m r => match r.key with
          | some k => Function.update m k (some (b.offset r))
          | none => m) m)
    fun _ => none

def isNewestForKey (offsetMap : κ → Option ℤ) (b : RecordBatch κ ν) (r : Record κ ν) : Bool :=
  match r.key with
  | some k => offsetMap k == some (b.offset r)
  | none => false

/-- The producers with surviving data (`CleanedTransactionMetadata::build`). -/
def survivors (batches : List (RecordBatch κ ν)) (offsetMap : κ → Option ℤ) (pid : ℤ) : Bool :=
  batches.any fun b => !b.isControl && 0 ≤ b.header.producerId && b.header.producerId == pid &&
    b.records.any (isNewestForKey offsetMap b)

/-- What the rewrite reads: the map, the surviving producers and the clock. -/
structure Cleaner (κ : Type) where
  offsetMap : κ → Option ℤ
  survivors : ℤ → Bool
  nowMs : ℤ
  deleteRetentionMs : ℤ

def Cleaner.txnState (c : Cleaner κ) (pid : ℤ) : TxnDataState :=
  if pid < 0 then .notTransactional else if c.survivors pid then .dataSurvives else .dataFullyGone

def Cleaner.decision (c : Cleaner κ) (b : RecordBatch κ ν) (r : Record κ ν) : RetainDecision :=
  retainDecision r.key.isSome r.value.isSome b.isControl b.deleteHorizonMs
    (isNewestForKey c.offsetMap b r) (c.txnState b.header.producerId) c.nowMs c.deleteRetentionMs

def Cleaner.kept (c : Cleaner κ) (b : RecordBatch κ ν) : List (Record κ ν) :=
  b.records.filter fun r => c.decision b r ≠ .delete

/-- The horizon that the batch is stamped with, if a record asks for one. -/
def Cleaner.stampHorizon (c : Cleaner κ) (b : RecordBatch κ ν) : Option ℤ :=
  (b.records.filterMap fun r => match c.decision b r with
    | .setHorizon h => some h
    | _ => none).getLast?

def Cleaner.rewritten (c : Cleaner κ) (b : RecordBatch κ ν) : RecordBatch κ ν :=
  let out : RecordBatch κ ν :=
    { b with
      header := { b.header with
        lastOffsetDelta := ((c.kept b).map Record.offsetDelta).max?.getD 0 }
      records := c.kept b }
  match c.stampHorizon b with
  | some h => out.withDeleteHorizon h
  | none => out

/-- The bare header of an emptied batch. The type of a marker is in its record. -/
def bareHeader (b : RecordBatch κ ν) : RecordBatch κ ν :=
  { b with
    header := { b.header with control := b.header.control.map fun _ => ⟨none, none⟩ }
    records := [] }

/-- One batch of `rewrite_segments`: an emptied batch is only kept as the last one of an active
producer, or of the output. -/
def Cleaner.rewriteBatch (c : Cleaner κ) (isProducerLast isOutputLast : Bool)
    (b : RecordBatch κ ν) : Option (RecordBatch κ ν) :=
  if (c.kept b).isEmpty then
    if isProducerLast || isOutputLast then some (bareHeader b) else none
  else some (c.rewritten b)

/-- The loop of `rewrite_segments`. -/
def Cleaner.rewriteAll (c : Cleaner κ) (activeProducers : List ℤ) :
    List (RecordBatch κ ν) → List (RecordBatch κ ν)
  | [] => []
  | b :: rest =>
    let isProducerLast := activeProducers.contains b.header.producerId &&
      rest.all (·.header.producerId != b.header.producerId)
    (c.rewriteBatch isProducerLast rest.isEmpty b).toList ++ c.rewriteAll activeProducers rest

/-- `CompactionContext`; of the active producers only the ids are read. -/
structure CompactionContext where
  nowMs : ℤ
  activeProducers : List ℤ

def cleanerFor [DecidableEq κ] (deleteRetentionMs : ℤ) (ctx : CompactionContext)
    (all : List (RecordBatch κ ν)) : Cleaner κ where
  offsetMap := buildOffsetMap all
  survivors := survivors all (buildOffsetMap all)
  nowMs := ctx.nowMs
  deleteRetentionMs := deleteRetentionMs

def compactAll [DecidableEq κ] (deleteRetentionMs : ℤ) (ctx : CompactionContext)
    (all : List (RecordBatch κ ν)) : List (RecordBatch κ ν) :=
  (cleanerFor deleteRetentionMs ctx all).rewriteAll ctx.activeProducers all

/-! ## Entries -/

/-- A keyed record with what a reader gets to know of it. -/
structure Entry (κ ν : Type) where
  offset : ℤ
  key : κ
  value : Option ν
  timestamp : ℤ
  producerId : ℤ
  isTransactional : Bool
  deriving DecidableEq

def RecordBatch.entry (b : RecordBatch κ ν) (r : Record κ ν) : Option (Entry κ ν) :=
  r.key.map fun k =>
    ⟨b.offset r, k, r.value, b.timestamp r, b.header.producerId, b.header.isTransactional⟩

def RecordBatch.entries (b : RecordBatch κ ν) : List (Entry κ ν) :=
  if b.isControl then [] else b.records.filterMap b.entry

def entries (bs : List (RecordBatch κ ν)) : List (Entry κ ν) := bs.flatMap RecordBatch.entries

def Ordered (es : List (Entry κ ν)) : Prop := es.Pairwise fun e e' => e.offset < e'.offset

def Newest (es : List (Entry κ ν)) (e : Entry κ ν) : Prop :=
  ∀ e' ∈ es, e'.key = e.key → e'.offset ≤ e.offset

/-- Timestamps that the arithmetic does not change: those of clocks, and `-1`. -/
def TimesFit (bs : List (RecordBatch κ ν)) : Prop :=
  ∀ b ∈ bs, ∀ r ∈ b.records, -1 ≤ b.timestamp r ∧ b.timestamp r < 2 ^ 63

section entries
variable {b b' : RecordBatch κ ν} {r : Record κ ν} {e : Entry κ ν} {bs all : List (RecordBatch κ ν)}
  {es : List (Entry κ ν)} {c : Cleaner κ} {active : List ℤ}

lemma entry_eq_some : b.entry r = some e ↔ ∃ k, r.key = some k ∧
    e = ⟨b.offset r, k, r.value, b.timestamp r, b.header.producerId, b.header.isTransactional⟩ := by
  unfold RecordBatch.entry
  rw [Option.map_eq_some_iff]
  exact ⟨fun ⟨k, hk, he⟩ => ⟨k, hk, he.symm⟩, fun ⟨k, hk, he⟩ => ⟨k, hk, he.symm⟩⟩

lemma mem_batch_entries : e ∈ b.entries ↔ b.isControl = false ∧ ∃ r ∈ b.records, b.entry r = some e := by
  unfold RecordBatch.entries
  cases hc : b.isControl <;> simp [mem_filterMap]

lemma mem_entries : e ∈ entries bs ↔ ∃ b ∈ bs, e ∈ b.entries := mem_flatMap

/-- What the map does with an entry. -/
def noteEntry [DecidableEq κ] (m : κ → Option ℤ) (e : Entry κ ν) : κ → Option ℤ :=
  Function.update m e.key (some e.offset)

lemma buildOffsetMap_eq [DecidableEq κ] (bs : List (RecordBatch κ ν)) :
    buildOffsetMap bs = (entries bs).foldl noteEntry fun _ => none := by
  have hbatch : ∀ (b : RecordBatch κ ν) (m : κ → Option ℤ),
      (if b.isControl then m else b.records.foldl
        (fun m r => match r.key with
          | some k => Function.update m k (some (b.offset r))
          | none => m) m) =
      b.entries.foldl noteEntry m := by
    intro b m
    unfold RecordBatch.entries
    split
    · rfl
    · rw [foldl_filterMap]
      congr 1
      funext m r
      unfold RecordBatch.entry
      cases r.key <;> rfl
  unfold buildOffsetMap entries
  rw [foldl_flatMap]
  congr 1
  funext m b
  exact hbatch b m

lemma foldl_noteEntry_eq_some [DecidableEq κ] (h : Ordered es) {k : κ} {o : ℤ} :
    es.foldl noteEntry (fun _ => none) k = some o ↔ ∃ e ∈ es, e.key = k ∧ e.offset = o ∧ Newest es e := by
  induction es using List.reverseRecOn generalizing o with
  | nil => simp
  | append_singleton es x ih =>
    obtain ⟨hes, -, hx⟩ := pairwise_append.mp h
    have hlt : ∀ e ∈ es, e.offset < x.offset := fun e he => hx e he x mem_cons_self
    rw [foldl_append, foldl_cons, foldl_nil, noteEntry]
    obtain rfl | hk := eq_or_ne k x.key
    · rw [Function.update_self]
      constructor
      · intro ho
        cases ho
        refine ⟨x, mem_append_cons_self, rfl, rfl, fun e he _ => ?_⟩
        rcases Found.mem_snoc.mp he with he | he
        · exact (hlt e he).le
        · exact (congrArg Entry.offset he).le
      · rintro ⟨e, he, hkey, rfl, hnew⟩
        have hge := hnew x mem_append_cons_self hkey.symm
        rcases Found.mem_snoc.mp he with he | he
        · exact absurd hge (not_le.mpr (hlt e he))
        · rw [he]
    · rw [Function.update_of_ne hk, ih hes]
      constructor
      · rintro ⟨e, he, rfl, ho, hnew⟩
        refine ⟨e, mem_append_left _ he, rfl, ho, fun e' he' hkey => ?_⟩
        rcases Found.mem_snoc.mp he' with he' | he'
        · exact hnew e' he' hkey
        · exact absurd (he' ▸ hkey).symm hk
      · rintro ⟨e, he, rfl, ho, hnew⟩
        rcases Found.mem_snoc.mp he with he | he
        · exact ⟨e, he, rfl, ho, fun e' he' => hnew e' (mem_append_left _ he')⟩
        · exact absurd (congrArg Entry.key he) hk

lemma isNewestForKey_iff [DecidableEq κ] (h : Ordered (entries all)) (he : e ∈ entries all)
    (hr : b.entry r = some e) :
    isNewestForKey (buildOffsetMap all) b r ↔ Newest (entries all) e := by
  obtain ⟨k, hk, rfl⟩ := entry_eq_some.mp hr
  unfold isNewestForKey
  rw [hk, buildOffsetMap_eq]
  simp only [beq_iff_eq]
  rw [foldl_noteEntry_eq_some h]
  constructor
  · rintro ⟨e', -, hkey, hoffset, hnew⟩
    intro x hx hxk
    exact (hnew x hx (hxk.trans hkey.symm)).trans hoffset.le
  · exact fun hnew => ⟨_, he, rfl, rfl, hnew⟩

/-! ## One pass -/

lemma saturate_of_fits {x : ℤ} (h₁ : -2 ^ 63 ≤ x) (h₂ : x < 2 ^ 63) : saturate x = x := by
  unfold saturate
  omega

lemma timestamp_stamped {h t : ℤ} (hh : 0 ≤ h ∧ h < 2 ^ 63) (ht : -1 ≤ t ∧ t < 2 ^ 63) :
    h + saturate (saturate t - h) = t := by
  rw [saturate_of_fits (x := t) (by omega) ht.2, saturate_of_fits (by omega) (by omega)]
  omega

lemma stampHorizon_eq {h : ℤ} (hs : c.stampHorizon b = some h) :
    h = computeHorizon c.nowMs c.deleteRetentionMs := by
  have hage : ∀ {x : Option ℤ} {h : ℤ}, ageOut x c.nowMs c.deleteRetentionMs = .setHorizon h →
      h = computeHorizon c.nowMs c.deleteRetentionMs := by
    intro x h hx
    unfold ageOut at hx
    split at hx
    · split at hx <;> cases hx
    · cases hx
      rfl
  obtain ⟨r, -, hr⟩ := mem_filterMap.mp (mem_of_getLast? hs)
  have hdec : c.decision b r = .setHorizon h := by
    split at hr
    · rename_i heq
      cases hr
      exact heq
    · cases hr
  unfold Cleaner.decision retainDecision at hdec
  split at hdec
  · split at hdec
    · cases hdec
    · cases hdec
    · exact hage hdec
  · split at hdec
    · cases hdec
    · split at hdec
      · cases hdec
      · split at hdec
        · cases hdec
        · exact hage hdec

def Cleaner.Timely (c : Cleaner κ) : Prop := 0 ≤ c.nowMs ∧ 0 ≤ c.deleteRetentionMs

lemma records_rewritten (hc : c.Timely) (hb : ∀ r ∈ b.records, -1 ≤ b.timestamp r ∧ b.timestamp r < 2 ^ 63) :
    ∃ f : Record κ ν → Record κ ν, (c.rewritten b).records = (c.kept b).map f ∧
      ∀ r ∈ c.kept b, (f r).offsetDelta = r.offsetDelta ∧ (f r).key = r.key ∧
        (f r).value = r.value ∧ (c.rewritten b).timestamp (f r) = b.timestamp r := by
  cases hs : c.stampHorizon b with
  | none =>
    have hrw : c.rewritten b = { b with
        header := { b.header with
          lastOffsetDelta := ((c.kept b).map Record.offsetDelta).max?.getD 0 }
        records := c.kept b } := by
      simp only [Cleaner.rewritten, hs]
    rw [hrw]
    exact ⟨id, (map_id _).symm, fun r _ => ⟨rfl, rfl, rfl, rfl⟩⟩
  | some h =>
    have hh : 0 ≤ h ∧ h < 2 ^ 63 := by
      obtain ⟨hnow, hretention⟩ := hc
      rw [stampHorizon_eq hs]
      unfold computeHorizon saturate
      omega
    have hrw : c.rewritten b = RecordBatch.withDeleteHorizon { b with
        header := { b.header with
          lastOffsetDelta := ((c.kept b).map Record.offsetDelta).max?.getD 0 }
        records := c.kept b } h := by
      simp only [Cleaner.rewritten, hs]
    rw [hrw]
    refine ⟨_, rfl, fun r hr => ⟨rfl, rfl, rfl, ?_⟩⟩
    exact timestamp_stamped hh (hb r (mem_of_mem_filter hr))

lemma header_rewritten (c : Cleaner κ) (b : RecordBatch κ ν) :
    (c.rewritten b).header = { b.header with
      lastOffsetDelta := ((c.kept b).map Record.offsetDelta).max?.getD 0 } := by
  unfold Cleaner.rewritten
  simp only
  split <;> rfl

lemma isControl_rewritten (c : Cleaner κ) (b : RecordBatch κ ν) : (c.rewritten b).isControl = b.isControl := by
  unfold RecordBatch.isControl
  rw [header_rewritten]

section
variable (hc : c.Timely) (hb : ∀ r ∈ b.records, -1 ≤ b.timestamp r ∧ b.timestamp r < 2 ^ 63)
include hc hb

lemma entries_rewritten : (c.rewritten b).entries =
      if b.isControl then [] else (c.kept b).filterMap b.entry := by
  obtain ⟨f, hrec, hf⟩ := records_rewritten hc hb
  unfold RecordBatch.entries
  rw [isControl_rewritten]
  split
  · rfl
  · rw [hrec, filterMap_map]
    refine filterMap_congr fun r hr => ?_
    obtain ⟨hoff, hkey, hval, htime⟩ := hf r hr
    simp only [Function.comp, RecordBatch.entry, RecordBatch.offset, hoff, hkey, hval, htime, header_rewritten]

lemma entries_rewriteBatch_sublist (p q : Bool) :
    (entries (c.rewriteBatch p q b).toList).Sublist b.entries := by
  unfold Cleaner.rewriteBatch
  split
  · split
    · have hnil : (bareHeader b).entries = [] := by
        unfold RecordBatch.entries bareHeader
        split <;> rfl
      simp [entries, hnil]
    · exact nil_sublist _
  · rw [Option.toList_some, entries, flatMap_singleton, entries_rewritten hc hb]
    unfold RecordBatch.entries
    split
    · exact nil_sublist _
    · exact filter_sublist.filterMap _

end

/-- **A pass only drops entries.** -/
theorem entries_rewriteAll_sublist (hc : c.Timely) (hb : TimesFit bs) :
    (entries (c.rewriteAll active bs)).Sublist (entries bs) := by
  induction bs with
  | nil => exact List.Sublist.refl _
  | cons b bs ih =>
    obtain ⟨hhead, htail⟩ := forall_mem_cons.mp hb
    rw [Cleaner.rewriteAll, entries, flatMap_append, entries, flatMap_cons]
    exact (entries_rewriteBatch_sublist hc hhead _ _).append (ih htail)

lemma of_mem_rewriteAll (hb' : b' ∈ c.rewriteAll active bs) :
    ∃ b ∈ bs, (b' = c.rewritten b ∧ c.kept b ≠ []) ∨ (b' = bareHeader b ∧ c.kept b = []) := by
  induction bs with
  | nil => cases hb'
  | cons b bs ih =>
    rw [Cleaner.rewriteAll] at hb'
    rcases mem_append.mp hb' with hin | hin
    · refine ⟨b, mem_cons_self, ?_⟩
      unfold Cleaner.rewriteBatch at hin
      by_cases hk : c.kept b = []
      · rw [if_pos (isEmpty_iff.mpr hk)] at hin
        split at hin
        · exact .inr ⟨by simpa using hin, hk⟩
        · simp at hin
      · rw [if_neg (by simpa using hk)] at hin
        exact .inl ⟨by simpa using hin, hk⟩
    · obtain ⟨x, hx, hcase⟩ := ih hin
      exact ⟨x, mem_cons_of_mem _ hx, hcase⟩

lemma rewritten_mem_rewriteAll (hb : b ∈ bs) (hk : c.kept b ≠ []) : c.rewritten b ∈ c.rewriteAll active bs := by
  induction bs with
  | nil => cases hb
  | cons x bs ih =>
    rw [Cleaner.rewriteAll, mem_append]
    rcases mem_cons.mp hb with rfl | hin
    · refine .inl ?_
      rw [Cleaner.rewriteBatch, if_neg (by simpa using hk)]
      simp
    · exact .inr (ih hin)

lemma isNewestForKey_of_kept (hdata : b.isControl = false) (hr : r ∈ c.kept b) :
    isNewestForKey c.offsetMap b r = true := by
  obtain ⟨-, hdec⟩ := mem_filter.mp hr
  by_contra hnew
  have hdel : c.decision b r = .delete := by
    unfold Cleaner.decision retainDecision
    rw [hdata, Bool.eq_false_iff.mpr hnew]
    simp
  simp [hdel] at hdec

lemma mem_kept_of_newest (hdata : b.isControl = false) (hr : r ∈ b.records)
    (hnew : isNewestForKey c.offsetMap b r) (hval : r.value.isSome) : r ∈ c.kept b := by
  have hkey : r.key.isSome := by
    unfold isNewestForKey at hnew
    cases hk : r.key with
    | none => simp [hk] at hnew
    | some k => rfl
  have hkeep : c.decision b r = .keep := by
    unfold Cleaner.decision retainDecision
    rw [hdata, hnew, hval, hkey]
    rfl
  exact mem_filter.mpr ⟨hr, by simp [hkeep]⟩

end entries

/-! ## A pass over the sealed segments -/

section pass
variable [DecidableEq κ] {b b' : RecordBatch κ ν} {e : Entry κ ν} {all : List (RecordBatch κ ν)}
  {retention : ℤ} {ctx : CompactionContext}

/-- **Only newest records survive.** -/
theorem newest_of_mem_entries (hord : Ordered (entries all)) (hfit : TimesFit all)
    (hnow : 0 ≤ ctx.nowMs) (hret : 0 ≤ retention)
    (he : e ∈ entries (compactAll retention ctx all)) : Newest (entries all) e := by
  have htimely : (cleanerFor retention ctx all).Timely := ⟨hnow, hret⟩
  have hold : e ∈ entries all := (entries_rewriteAll_sublist htimely hfit).subset he
  obtain ⟨b', hb', heb⟩ := mem_entries.mp he
  obtain ⟨b, hb, ⟨rfl, -⟩ | ⟨rfl, -⟩⟩ := of_mem_rewriteAll hb'
  · rw [entries_rewritten htimely (hfit b hb)] at heb
    split at heb
    · cases heb
    · rename_i hdata
      obtain ⟨r, hr, hre⟩ := mem_filterMap.mp heb
      exact (isNewestForKey_iff hord hold hre).mp (isNewestForKey_of_kept (Bool.eq_false_iff.mpr hdata) hr)
  · obtain ⟨-, r, hr, -⟩ := mem_batch_entries.mp heb
    cases hr

/-- **Newest records with a value survive.** -/
theorem mem_entries_compactAll (hord : Ordered (entries all)) (hfit : TimesFit all)
    (hnow : 0 ≤ ctx.nowMs) (hret : 0 ≤ retention) (he : e ∈ entries all)
    (hnew : Newest (entries all) e) (hval : e.value.isSome) :
    e ∈ entries (compactAll retention ctx all) := by
  have htimely : (cleanerFor retention ctx all).Timely := ⟨hnow, hret⟩
  obtain ⟨b, hb, heb⟩ := mem_entries.mp he
  obtain ⟨hdata, r, hr, hre⟩ := mem_batch_entries.mp heb
  have hrval : r.value.isSome := by
    obtain ⟨k, -, rfl⟩ := entry_eq_some.mp hre
    exact hval
  have hkept : r ∈ (cleanerFor retention ctx all).kept b :=
    mem_kept_of_newest hdata hr ((isNewestForKey_iff hord he hre).mpr hnew) hrval
  refine mem_entries.mpr ⟨_, rewritten_mem_rewriteAll hb (ne_nil_of_mem hkept), ?_⟩
  rw [entries_rewritten htimely (hfit b hb), hdata]
  exact mem_filterMap.mpr ⟨r, hkept, hre⟩

lemma timesFit_compactAll (hfit : TimesFit all) (hnow : 0 ≤ ctx.nowMs) (hret : 0 ≤ retention) :
    TimesFit (compactAll retention ctx all) := by
  intro b' hb' r' hr'
  obtain ⟨b, hb, ⟨rfl, -⟩ | ⟨rfl, -⟩⟩ := of_mem_rewriteAll hb'
  · obtain ⟨f, hrec, hf⟩ := records_rewritten
      (c := cleanerFor retention ctx all) ⟨hnow, hret⟩ (hfit b hb)
    rw [hrec] at hr'
    obtain ⟨r, hr, rfl⟩ := mem_map.mp hr'
    rw [(hf r hr).2.2.2]
    exact hfit b hb r (mem_of_mem_filter hr)
  · cases hr'

/-- What compaction leaves of a data batch. -/
structure Remains (b b' : RecordBatch κ ν) : Prop where
  data : b.isControl = false
  data' : b'.isControl = false
  records : b.records ≠ []
  base : b'.header.baseOffset = b.header.baseOffset
  producerId : b'.header.producerId = b.header.producerId
  inTransaction : b'.header.inTransaction = b.header.inTransaction

lemma exists_remains (hb' : b' ∈ compactAll retention ctx all) (hdata : b'.isControl = false)
    (hne : b'.records ≠ []) :
    ∃ b ∈ all, Remains b b' ∧
      (0 ≤ b'.header.producerId → (cleanerFor retention ctx all).survivors b'.header.producerId) := by
  obtain ⟨b, hb, ⟨rfl, hk⟩ | ⟨rfl, -⟩⟩ := of_mem_rewriteAll hb'
  · rw [isControl_rewritten] at hdata
    obtain ⟨r, hr⟩ := exists_mem_of_ne_nil _ hk
    refine ⟨b, hb, ⟨hdata, by rw [isControl_rewritten]; exact hdata,
      ne_nil_of_mem (mem_of_mem_filter hr), ?_, ?_, ?_⟩, fun hpid => ?_⟩
    · rw [header_rewritten]
    · rw [header_rewritten]
    · rw [header_rewritten]
      rfl
    · rw [header_rewritten] at hpid ⊢
      simp only at hpid ⊢
      refine any_eq_true.mpr ⟨b, hb, ?_⟩
      have hnew : b.records.any (isNewestForKey (buildOffsetMap all) b) :=
        any_eq_true.mpr ⟨r, mem_of_mem_filter hr, isNewestForKey_of_kept hdata hr⟩
      simp [hdata, hpid, hnew]
  · exact absurd rfl hne

/-- A marker as it is written: one record, at the offset of the batch's end. -/
def IsMarker (b : RecordBatch κ ν) : Prop :=
  b.records.map Record.offsetDelta = [b.header.lastOffsetDelta]

lemma mem_control_compactAll {x : RecordBatch κ ν} {pid : ℤ}
    (hsurv : (cleanerFor retention ctx all).survivors pid)
    (hmark : ∀ x ∈ all, x.isControl → x.header.producerId = pid → IsMarker x) :
    (x ∈ compactAll retention ctx all ∧ x.isControl ∧ x.header.producerId = pid) ↔
      x ∈ all ∧ x.isControl ∧ x.header.producerId = pid := by
  set c := cleanerFor retention ctx all
  -- The rewrite of such a marker is the marker.
  have hsame : ∀ x ∈ all, x.isControl → x.header.producerId = pid → c.kept x ≠ [] ∧ c.rewritten x = x := by
    intro x hx hcontrol hpid
    obtain ⟨r, hrec, hdelta⟩ := map_eq_singleton_iff.mp (hmark x hx hcontrol hpid)
    have hkeep : ∀ r, c.decision x r = .keep := by
      intro r
      unfold Cleaner.decision retainDecision Cleaner.txnState
      rw [hcontrol, hpid, hsurv]
      by_cases hneg : pid < 0 <;> simp [hneg]
    have hkept : c.kept x = [r] := by
      unfold Cleaner.kept
      rw [hrec]
      simp [hkeep]
    have hstamp : c.stampHorizon x = none := by
      unfold Cleaner.stampHorizon
      rw [hrec]
      simp [hkeep]
    refine ⟨by rw [hkept]; exact cons_ne_nil _ _, ?_⟩
    unfold Cleaner.rewritten
    rw [hstamp, hkept]
    simp only [map_cons, map_nil, hdelta]
    obtain ⟨header, base, horizon, records⟩ := x
    obtain rfl : records = [r] := hrec
    rfl
  constructor
  · rintro ⟨hx, hcontrol, hpid⟩
    obtain ⟨y, hy, ⟨rfl, -⟩ | ⟨rfl, hk⟩⟩ := of_mem_rewriteAll hx
    · rw [isControl_rewritten] at hcontrol
      rw [header_rewritten] at hpid
      rw [(hsame y hy hcontrol hpid).2]
      exact ⟨hy, hcontrol, hpid⟩
    · have hcontrol' : y.isControl := by
        simpa [bareHeader, RecordBatch.isControl] using hcontrol
      exact absurd hk (hsame y hy hcontrol' hpid).1
  · rintro ⟨hx, hcontrol, hpid⟩
    obtain ⟨hk, hrw⟩ := hsame x hx hcontrol hpid
    have hmem : c.rewritten x ∈ compactAll retention ctx all := rewritten_mem_rewriteAll hx hk
    rw [hrw] at hmem
    exact ⟨hmem, hcontrol, hpid⟩

end pass
end Crabka.Log.Compaction
