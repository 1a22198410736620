import Crabka.Gres.Substrate.Apply
import Crabka.Found.Runs

/-!
# The cached timestamp horizon

`StoreHorizonCache` and `HorizonObservingCommitter` of `crates/pgexec/src/timestamp_txn.rs`: the largest timestamp of
the versions and descriptors in a store, found by a scan and kept up to date from the batches. Neither looks at primary
decisions and reservations.
-/

namespace Crabka.Pgexec
open Found Crabka.Gres.Substrate List

/-- `decode_ts_tuple` and `decode_timestamp_txn_descriptor_value`, as far as timestamps go. -/
structure TimestampCodec where
  decodeTsTuple : Bytes → Option (ℕ × Option ℕ)
  /-- The commit timestamp of a descriptor, if it is committed. -/
  decodeDescriptor : ℕ → Bytes → Option (Option ℕ)

def stamps (v : ℕ × Option ℕ) : List ℕ := v.1 :: v.2.toList

def metaPrefix (tag : Bytes) : Bytes := systemPrefix [109, 101, 116, 97] ++ tag ++ [47]

def descriptorPrefix : Bytes := metaPrefix [116, 115, 95, 116, 120, 110]

def primaryDecisionPrefix : Bytes := metaPrefix [116, 115, 95, 112, 114, 105, 109, 97, 114, 121]

def reservationPrefix : Bytes := metaPrefix [116, 115, 95, 112, 114, 101, 119, 114, 105, 116, 101]

def tupleStart : Bytes := [0, 0, 0, 1, 0, 0, 0, 1]

def isTupleKey (key : Bytes) : Bool := !(key < tupleStart) && key < replicate 5 255

def decisionTimestamp : Bytes → Option ℕ
  | 2 :: raw => if raw.length = 8 then some (beValue raw) else none
  | _ => none

/-- What primary decisions and reservations mention. -/
def unscanned (key value : Bytes) : List ℕ :=
  if primaryDecisionPrefix.isPrefixOf key then
    stamps (beValue (key.drop primaryDecisionPrefix.length), decisionTimestamp value)
  else if reservationPrefix.isPrefixOf key then [beValue value]
  else []

namespace TimestampCodec
variable (codec : TimestampCodec)

def tupleStamps (value : Bytes) : List ℕ := ((codec.decodeTsTuple value).map stamps).getD []

/-- What `max_timestamp_in_ops` takes from a put. -/
def putTimestamps (key value : Bytes) : List ℕ :=
  if descriptorPrefix.isPrefixOf key then
    let raw := key.drop descriptorPrefix.length
    if raw.length ≠ 8 then []
    else
      let startTs := beValue raw
      stamps (startTs, if startTs = 0 then none else (codec.decodeDescriptor startTs value).join)
  else if isTupleKey key then codec.tupleStamps value
  else []

def opTimestamps : WriteOp → List ℕ
  | .put key value | .conditionalPut key _ value => codec.putTimestamps key value
  | .delete _ => []

def maxTimestampInOps (ops : List WriteOp) : Option ℕ := (ops.flatMap codec.opTimestamps).max?

/-- What the scans of `durable_timestamp_horizon` take from an entry; a corrupt descriptor is an error. -/
def scannedTimestamps (key value : Bytes) : Option (List ℕ) :=
  if isTupleKey key then some (codec.tupleStamps value)
  else if descriptorPrefix.isPrefixOf key then
    let raw := key.drop descriptorPrefix.length
    if raw.length ≠ 8 ∨ beValue raw = 0 then none
    else (codec.decodeDescriptor (beValue raw) value).map fun commitTs => stamps (beValue raw, commitTs)
  else some []

def durableTimestampHorizon (kv : Kv) : Option ℕ :=
  if kv.toList.all fun x => (codec.scannedTimestamps x.1 x.2).isSome then
    some ((kv.toList.flatMap fun x => (codec.scannedTimestamps x.1 x.2).getD []).foldr max 0)
  else none

end TimestampCodec

/-- A store and its cache, with the horizons that the cache has returned. -/
structure HorizonStore where
  kv : Kv
  epoch : ℕ := 0
  seededEpoch : ℕ := 2 ^ 64 - 1
  max : ℕ := 0
  returned : List ℕ := []

/-- Committed batches, invalidations and lookups. -/
inductive HorizonStep where
  | commit (ops : List WriteOp)
  | invalidate
  | current

namespace HorizonStore
variable (codec : TimestampCodec) (s : HorizonStore)

/-- The cache after `current`; it returns the maximum. -/
def current : Option HorizonStore :=
  if s.seededEpoch = s.epoch then some s
  else (codec.durableTimestampHorizon s.kv).map fun scanned =>
    { s with max := Max.max s.max scanned, seededEpoch := s.epoch }

def next : HorizonStep → HorizonStore
  -- A batch whose condition fails is committed without effect, and observed all the same.
  | .commit ops => { s with kv := writeBatch s.kv ops, max := Max.max s.max ((codec.maxTimestampInOps ops).getD 0) }
  | .invalidate => { s with epoch := (s.epoch + 1) % 2 ^ 64 }
  | .current => ((s.current codec).map fun s' => { s' with returned := s'.max :: s.returned }).getD s

def sys : Sys HorizonStore HorizonStep where
  enabled _ _ := True
  next := next codec

instance (l : HorizonStep) : Decidable ((sys codec).enabled s l) := inferInstanceAs (Decidable True)

/-- No stored version or descriptor mentions a timestamp above `max`. -/
def Covers (kv : Kv) (max : ℕ) : Prop :=
  ∀ (key : Bytes) value, kv[key]? = some value → ∀ t ∈ codec.putTimestamps key value, t ≤ max

/-- A seeded cache covers the stored timestamps and what was returned. -/
structure Inv : Prop where
  epoch : s.epoch < 2 ^ 64 - 1
  covers : s.seededEpoch = 2 ^ 64 - 1 ∨ Covers codec s.kv s.max
  returned : ∀ r ∈ s.returned, r ≤ s.max

variable {codec s} {kv : Kv} {key value : Bytes} {m : ℕ}

lemma not_isTupleKey (h : descriptorPrefix.isPrefixOf key) : isTupleKey key = false := by
  obtain ⟨rest, rfl⟩ := isPrefixOf_iff_prefix.mp h
  have hlt : descriptorPrefix ++ rest < tupleStart := by
    simp [descriptorPrefix, metaPrefix, systemPrefix, tupleStart, cons_lt_cons_iff]
  simp [isTupleKey, hlt]

lemma putTimestamps_eq {ts : List ℕ} (h : codec.scannedTimestamps key value = some ts) :
    codec.putTimestamps key value = ts := by
  unfold TimestampCodec.scannedTimestamps at h
  unfold TimestampCodec.putTimestamps
  by_cases hd : descriptorPrefix.isPrefixOf key
  · simp only [not_isTupleKey hd, hd, if_true, Bool.false_eq_true, if_false] at h ⊢
    split_ifs at h with hraw
    obtain ⟨commitTs, hdec, rfl⟩ := Option.map_eq_some_iff.mp h
    rw [not_or, not_not] at hraw
    simp [hraw, hdec]
  · split_ifs at h ⊢ <;> exact Option.some.inj h

lemma horizon_le_iff {h : ℕ} (hscan : codec.durableTimestampHorizon kv = some h) : h ≤ m ↔ Covers codec kv m := by
  unfold TimestampCodec.durableTimestampHorizon at hscan
  split_ifs at hscan with hall
  cases hscan
  have hle : ∀ l : List ℕ, l.foldr Max.max 0 ≤ m ↔ ∀ t ∈ l, t ≤ m := fun l => by
    induction l with
    | nil => simp
    | cons t l ih => simp [ih]
  rw [hle]
  simp only [mem_flatMap, forall_exists_index, and_imp, Prod.forall, mem_toList]
  constructor
  · intro hbound key value hget t ht
    obtain ⟨ts, hts⟩ := Option.isSome_iff_exists.mp (all_eq_true.mp hall _ ((mem_toList kv).mpr hget))
    exact hbound t key value hget (by simpa [hts, ← putTimestamps_eq hts] using ht)
  · intro hcov t key value hget ht
    cases hts : codec.scannedTimestamps key value with
    | none => simp [hts] at ht
    | some ts => exact hcov key value hget t (by simpa [hts, putTimestamps_eq hts] using ht)

/-- Operations whose timestamps are covered keep the store covered. -/
lemma Covers.apply {ops : List WriteOp} (h : Covers codec kv m)
    (hops : ∀ op ∈ ops, ∀ t ∈ codec.opTimestamps op, t ≤ m) :
    Covers codec (ops.foldl WriteOp.apply kv) m := by
  refine foldlRecOn (motive := (Covers codec · m)) ops _ h fun kv h op hmem key value hget => ?_
  have hop := hops op hmem
  cases op with
  | delete k =>
    simp only [WriteOp.apply, Found.getElem?_erase] at hget
    split_ifs at hget
    exact h key value hget
  | put k v | conditionalPut k _ v =>
    simp only [WriteOp.apply, Found.getElem?_insert] at hget
    split_ifs at hget with hk
    · cases hget
      exact hk ▸ hop
    · exact h key value hget

lemma le_maxTimestampInOps {ops : List WriteOp} {op : WriteOp} (hop : op ∈ ops) {t : ℕ}
    (ht : t ∈ codec.opTimestamps op) : t ≤ (codec.maxTimestampInOps ops).getD 0 := by
  have hmem := mem_flatMap.mpr ⟨op, hop, ht⟩
  cases hmax : codec.maxTimestampInOps ops with
  | none =>
    rw [TimestampCodec.maxTimestampInOps, max?_eq_none_iff] at hmax
    simp [hmax] at hmem
  | some top => exact (max?_eq_some_iff.mp hmax).2 t hmem

lemma Inv.current (h : s.Inv codec) {s' : HorizonStore} (hs : s.current codec = some s') :
    s'.epoch = s.epoch ∧ Covers codec s'.kv s'.max ∧ s'.kv = s.kv ∧ s.max ≤ s'.max := by
  unfold HorizonStore.current at hs
  split_ifs at hs with hseeded
  · cases hs
    have := h.epoch
    exact ⟨rfl, h.covers.resolve_left (by omega), rfl, le_rfl⟩
  · obtain ⟨scanned, hscan, rfl⟩ := Option.map_eq_some_iff.mp hs
    exact ⟨rfl, (horizon_le_iff hscan).mp (le_max_right _ _), rfl, le_max_left _ _⟩

/-- Every step keeps the invariant, as long as the epoch counter does not wrap around. -/
lemma Inv.next (h : s.Inv codec) {l : HorizonStep} (hok : s.epoch + 2 < 2 ^ 64) : (s.next codec l).Inv codec := by
  cases l with
  | commit ops =>
    refine ⟨h.epoch, h.covers.imp_right fun hcov => ?_, fun r hr => (h.returned r hr).trans (le_max_left _ _)⟩
    have hcov' : Covers codec s.kv (Max.max s.max ((codec.maxTimestampInOps ops).getD 0)) :=
      fun key value hget t ht => (hcov key value hget t ht).trans (le_max_left _ _)
    show Covers codec (writeBatch s.kv ops) _
    unfold writeBatch
    split_ifs
    · exact hcov'
    · exact hcov'.apply fun op hop t ht => (le_maxTimestampInOps hop ht).trans (le_max_right _ _)
  | invalidate =>
    refine ⟨?_, h.covers, h.returned⟩
    show (s.epoch + 1) % 2 ^ 64 < _
    omega
  | current =>
    unfold HorizonStore.next
    cases hs : s.current codec with
    | none => exact h
    | some s' =>
      obtain ⟨hepoch, hcov, -, hle⟩ := h.current hs
      exact ⟨hepoch ▸ h.epoch, .inr hcov, forall_mem_cons.mpr ⟨le_rfl, fun r hr => (h.returned r hr).trans hle⟩⟩

/-- **The cached horizon**, for any store that the cache is opened on and fewer than `2 ^ 64 - 1` invalidations: what
`current` returns is at least what a scan finds, what was returned before, and every timestamp of a stored version or
descriptor. -/
theorem returned_horizon (hrun : (sys codec).Run (fun s _ => s.epoch + 2 < 2 ^ 64) { kv } s) {s' : HorizonStore}
    (hs : s.current codec = some s') :
    (∀ h ∈ codec.durableTimestampHorizon s.kv, h ≤ s'.max) ∧ (∀ r ∈ s.returned, r ≤ s'.max) ∧
      Covers codec s.kv s'.max := by
  have hinv : s.Inv codec := hrun.preserves (fun _ _ h _ hok => h.next hok)
    ⟨(by decide : 0 < 2 ^ 64 - 1), .inl rfl, by simp⟩
  obtain ⟨-, hcov, hkv, hle⟩ := hinv.current hs
  rw [hkv] at hcov
  exact ⟨fun h hscan => (horizon_le_iff hscan).mpr hcov, fun r hr => (hinv.returned r hr).trans hle, hcov⟩

/-- Versions with one timestamp, and no descriptors. -/
def plainCodec : TimestampCodec := ⟨fun value => some (beValue value, none), fun _ _ => none⟩

theorem returned_horizon_version :
    let s := (sys plainCodec).execs { kv := ∅ } [.commit [.put tupleStart [5]], .current, .commit [.delete tupleStart]]
    plainCodec.durableTimestampHorizon s.kv = some 0 ∧ s.current plainCodec = some s ∧ ∀ r ∈ s.returned, r ≤ s.max :=
  ⟨by decide +kernel, rfl, (returned_horizon Sys.run_of_runsOk rfl).2.1⟩

/-- The timestamps of a decision are above the horizon. -/
theorem decision_above_horizon :
    let key := primaryDecisionPrefix ++ toBeBytes 5
    let s := (sys plainCodec).execs { kv := ∅ } [.commit [.put key (2 :: toBeBytes 9)], .current]
    s.kv[key]?.map (unscanned key) = some [5, 9] ∧ s.returned = [0] :=
  ⟨by decide +kernel, by decide +kernel⟩

end HorizonStore
end Crabka.Pgexec
