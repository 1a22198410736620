import Crabka.Found.Newest
import Crabka.Pgexec.TsStore

/-!
# Scans of timestamp versions

`scan_ts_live_interval` of `crates/pgexec/src/exec.rs`: a version is a candidate by its state, the decision of its
descriptor and whether the descriptor or the intent identity names the row, and the candidate with the largest commit
timestamp is seen. The scan is written over what a version contributes, so that scans are compared version by version
(`scanBy_map`).
-/

namespace Crabka.Pgexec
open Found List
variable {α : Type}

/-! ## Candidates -/

def localOperationMatchesDescriptor (d : TimestampTxnDescriptor) (rangeId : ℕ) (key : RowKey) : Bool :=
  decide (rangeId ∈ d.prepared) && d.operations.any fun op => op.rangeId = rangeId ∧ op.key = key

def localTerminalOperationMatchesDescriptor (d : TimestampTxnDescriptor) (key : RowKey) : Bool :=
  d.operations.any fun op => op.rangeId ∈ d.prepared ∧ op.key = key

def localIntentMatchesDescriptor (kv : TsStore α) (d : TimestampTxnDescriptor) (key : RowKey) : Bool :=
  match kv.identities key d.startTs with
  | none => false
  | some (identity, rangeId) =>
    decide (identity.startTs = d.startTs) && decide (identity.globalXid = d.globalXid) &&
      localOperationMatchesDescriptor d rangeId key

/-- The descriptor and the intent identity name the row. -/
def verifiedIntent (kv : TsStore α) (primary : ℕ → Option TimestampTxnDescriptor) (key : RowKey)
    (startTs : ℕ) : Bool :=
  (primary startTs).any fun d => localIntentMatchesDescriptor kv d key

def descriptorOperation (primary : ℕ → Option TimestampTxnDescriptor) (key : RowKey)
    (startTs : ℕ) : Bool :=
  (primary startTs).any fun d => localTerminalOperationMatchesDescriptor d key

/-- The decision of a descriptor that names the row in one of the two ways. -/
def primaryDecision (kv : TsStore α) (primary : ℕ → Option TimestampTxnDescriptor) (key : RowKey)
    (startTs : ℕ) : Option PrimaryTxnDecision :=
  if verifiedIntent kv primary key startTs || descriptorOperation primary key startTs then
    (primary startTs).map TimestampTxnDescriptor.decision
  else none

/-- What a version contributes to a read: its commit timestamp and its row, or none for a delete. -/
def candidate (kv : TsStore α) (primary : ℕ → Option TimestampTxnDescriptor) (readTs : ℕ)
    (ownStartTs : Option ℕ) (key : RowKey) (v : TsVersion α) : Option (ℕ × Option α) :=
  match v.state, primaryDecision kv primary key v.startTs, verifiedIntent kv primary key v.startTs with
  | .intent, some .pending, true =>
    if ownStartTs = some v.startTs then some (2 ^ 64 - 1, some v.row) else none
  | .intent, some (.committed commitTs), true =>
    if commitTs ≤ readTs then some (commitTs, some v.row) else none
  | .committed commitTs, some (.committed primaryTs), _ =>
    if commitTs = primaryTs ∧ commitTs ≤ readTs ∧ descriptorOperation primary key v.startTs then
      some (commitTs, some v.row) else none
  | .deleted commitTs, some (.committed primaryTs), _ =>
    if commitTs = primaryTs ∧ commitTs ≤ readTs ∧ descriptorOperation primary key v.startTs then
      some (commitTs, none) else none
  | .committed commitTs, none, _ => if commitTs ≤ readTs then some (commitTs, some v.row) else none
  | .deleted commitTs, none, _ => if commitTs ≤ readTs then some (commitTs, none) else none
  | _, _, _ => none

/-! ## The scan -/

/-- Rowids from `start` on and below `stop`. -/
structure RowInterval where
  start : Option ℕ := none
  stop : Option ℕ := none
  deriving DecidableEq

def RowInterval.contains (interval : RowInterval) (rowid : ℕ) : Bool :=
  (interval.start.all fun start => start ≤ rowid) && interval.stop.all fun stop => rowid < stop

/-- A row as a scan shows it; `xmin` is the start timestamp of its version. -/
structure ScannedRow (α : Type) where
  rowid : ℕ
  xmin : ℕ
  row : α
  deriving DecidableEq

/-- One round of the loop over the versions of a row. -/
def seeVersion (cand : TsVersion α → Option (ℕ × Option α)) (visible : Option (ℕ × ℕ × Option α))
    (v : TsVersion α) : Option (ℕ × ℕ × Option α) :=
  match cand v with
  | some (commitTs, row) =>
    if visible.all fun current => current.2.1 < commitTs then some (v.startTs, commitTs, row) else visible
  | none => visible

/-- The start timestamp, commit timestamp and row that the reader sees. -/
def visibleOf (cand : TsVersion α → Option (ℕ × Option α)) (versions : List (TsVersion α)) :
    Option (ℕ × ℕ × Option α) :=
  versions.foldl (seeVersion cand) none

def versionsOf (versions : List (RowKey × TsVersion α)) (key : RowKey) : List (TsVersion α) :=
  ((versions.filter fun e => e.1 = key).map Prod.snd).insertionSort fun a b => a.startTs ≤ b.startTs

def scannedKeys (versions : List (RowKey × TsVersion α)) (tableId : ℕ) (interval : RowInterval) :
    List RowKey :=
  ((versions.map Prod.fst).filter fun key => key.tableId = tableId ∧ interval.contains key.rowid).dedup
    |>.insertionSort fun a b => [(a.bucket.map (· + 1)).getD 0, a.rowid] ≤ [(b.bucket.map (· + 1)).getD 0, b.rowid]

def shownRow (cand : RowKey → TsVersion α → Option (ℕ × Option α))
    (versions : List (RowKey × TsVersion α)) (key : RowKey) : Option (ScannedRow α) :=
  match visibleOf (cand key) (versionsOf versions key) with
  | some (startTs, _, some row) => some ⟨key.rowid, startTs, row⟩
  | _ => none

/-- The scan for a function that says what each version contributes. -/
def scanBy (cand : RowKey → TsVersion α → Option (ℕ × Option α))
    (versions : List (RowKey × TsVersion α)) (tableId : ℕ) (interval : RowInterval) :
    List (ScannedRow α) :=
  ((scannedKeys versions tableId interval).filterMap (shownRow cand versions)).insertionSort
    fun a b => [a.rowid, a.xmin] ≤ [b.rowid, b.xmin]

def scanTsLiveInterval (kv : TsStore α) (primary : ℕ → Option TimestampTxnDescriptor) (tableId readTs : ℕ)
    (ownStartTs : Option ℕ) (interval : RowInterval) : List (ScannedRow α) :=
  scanBy (candidate kv primary readTs ownStartTs) kv.versions tableId interval

/-! ## What a scan sees -/

lemma mem_versionsOf {versions : List (RowKey × TsVersion α)} {key : RowKey} {v : TsVersion α} : v ∈ versionsOf versions key ↔ (key, v) ∈ versions := by
  unfold versionsOf
  rw [mem_insertionSort, mem_map]
  constructor
  · rintro ⟨e, he, rfl⟩
    obtain ⟨he, hkey⟩ := mem_filter.mp he
    have hkey : e.1 = key := by simpa using hkey
    exact hkey ▸ he
  · exact fun h => ⟨(key, v), mem_filter.mpr ⟨h, by simp⟩, rfl⟩

/-- What the loop sees of a version. -/
def seen (cand : TsVersion α → Option (ℕ × Option α)) (v : TsVersion α) : Option (ℕ × ℕ × Option α) :=
  (cand v).map fun x => (v.startTs, x.1, x.2)

lemma visibleOf_eq_argmax (cand : TsVersion α → Option (ℕ × Option α)) (versions : List (TsVersion α)) :
    visibleOf cand versions = (versions.filterMap (seen cand)).argmax fun x => x.2.1 := by
  rw [← newest_eq_argmax]
  refine foldl_ext _ _ _ fun visible v' _ => ?_
  simp only [seeVersion, keepNewer, seen]
  cases cand v' <;> rfl

/-- What is seen comes from a candidate, and no candidate is newer. -/
lemma visibleOf_spec {cand : TsVersion α → Option (ℕ × Option α)} {versions : List (TsVersion α)} {startTs commitTs : ℕ}
    {row : Option α} (h : visibleOf cand versions = some (startTs, commitTs, row)) :
    (∃ v ∈ versions, cand v = some (commitTs, row)) ∧ ∀ v ∈ versions, ∀ x ∈ cand v, x.1 ≤ commitTs := by
  rw [visibleOf_eq_argmax] at h
  obtain ⟨v, hv, hseen⟩ := mem_filterMap.mp (argmax_mem h)
  obtain ⟨⟨ts, r⟩, hcand, heq⟩ := Option.map_eq_some_iff.mp hseen
  cases heq
  refine ⟨⟨v, hv, hcand⟩, fun v' hv' x hx => ?_⟩
  have hmem : (v'.startTs, x.1, x.2) ∈ versions.filterMap (seen cand) :=
    mem_filterMap.mpr ⟨v', hv', by rw [seen, Option.mem_def.mp hx]; rfl⟩
  have hle := le_of_mem_argmax hmem h
  exact hle

end Crabka.Pgexec
