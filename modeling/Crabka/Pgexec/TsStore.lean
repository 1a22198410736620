import Crabka.Found.Lists

/-!
# Timestamp transactions over one store

`crates/pgexec/src/timestamp_txn.rs`: versions, reservations, intent identities and descriptors, and the batches that a
participant builds; a batch is checked and applied as a whole. A key is the fields it is made of, a value what it
encodes. Global-index intents and the records that only resolvers read are left out.
-/

namespace Crabka.Pgexec
open Found List Function

/-! ## What is stored -/

structure RowKey where
  tableId : ℕ
  bucket : Option ℕ
  rowid : ℕ
  deriving DecidableEq, Repr

instance : LawfulBEq (RowKey × ℕ) := inferInstance

/-- The key starts with the bytes of `row_key(table_id, rowid)`: the table, then eight bytes of the rowid, or four of
the bucket and the first four of the rowid. -/
def RowKey.startsWith (key : RowKey) (tableId rowid : ℕ) : Bool :=
  decide (key.tableId = tableId) && match key.bucket with
    | none => decide (key.rowid = rowid)
    | some bucket => decide (bucket * 2 ^ 32 + key.rowid / 2 ^ 32 = rowid)

/-- An intent, or how its transaction ended. -/
inductive TsVersionState where
  | intent
  | committed (commitTs : ℕ)
  | deleted (commitTs : ℕ)
  | aborted
  deriving DecidableEq, Repr

def TsVersionState.commitTs? : TsVersionState → Option ℕ
  | .committed commitTs | .deleted commitTs => some commitTs
  | _ => none

/-- A version of a row, under the start timestamp of its transaction. -/
structure TsVersion (α : Type) where
  startTs : ℕ
  state : TsVersionState
  row : α
  deriving DecidableEq, Repr

structure TimestampTxnIdentity where
  startTs : ℕ
  globalXid : ℕ
  primaryRange : ℕ
  deriving DecidableEq, Repr

inductive PrimaryTxnDecision where
  | pending
  | aborted
  | committed (commitTs : ℕ)
  deriving DecidableEq, Repr

structure TimestampTxnOperation where
  rangeId : ℕ
  key : RowKey
  delete : Bool
  deriving DecidableEq, Repr

/-- The fields in the order of the derived comparison. -/
def TimestampTxnOperation.sortKey (op : TimestampTxnOperation) : List ℕ :=
  [op.rangeId, op.key.tableId, (op.key.bucket.map (· + 1)).getD 0, op.key.rowid, op.delete.toNat]

structure TimestampTxnDescriptor where
  startTs : ℕ
  globalXid : ℕ
  generation : ℕ := 0
  participants : List ℕ
  prepared : List ℕ := []
  operations : List TimestampTxnOperation := []
  decision : PrimaryTxnDecision := .pending
  deriving DecidableEq, Repr

/-- The versions, reservations and descriptors of one store. -/
structure TsStore (α : Type) where
  versions : List (RowKey × TsVersion α) := []
  /-- The prewrite reservations. -/
  reservations : RowKey → Option ℕ := fun _ => none
  /-- The intent identities, with the range of the participant. -/
  identities : RowKey → ℕ → Option (TimestampTxnIdentity × ℕ) := fun _ _ => none
  descriptors : ℕ → Option TimestampTxnDescriptor := fun _ => none
  /-- `durable_reclaim_floor`. -/
  reclaimFloor : ℕ := 0

variable {α : Type}

def TsStore.version (s : TsStore α) (key : RowKey) (startTs : ℕ) : Option (TsVersion α) :=
  (s.versions.find? fun e => e.1 = key ∧ e.2.startTs = startTs).map Prod.snd

/-! ## Batches -/

/-- The operations of a batch; those with a condition are the conditional puts. -/
inductive TsOp (α : Type) where
  | putVersion (key : RowKey) (version : TsVersion α)
  /-- A conditional put of the reservation that expects none. -/
  | reserve (key : RowKey) (startTs : ℕ)
  | release (key : RowKey)
  /-- A conditional put of the identity that expects none. -/
  | claimIdentity (key : RowKey) (identity : TimestampTxnIdentity) (rangeId : ℕ)
  | deleteIdentity (key : RowKey) (startTs : ℕ)
  /-- `timestamp_txn_descriptor_cas_op`. -/
  | casDescriptor (descriptor : TimestampTxnDescriptor) (expected : Option TimestampTxnDescriptor)

namespace TsOp

def fails (s : TsStore α) : TsOp α → Bool
  | .reserve key _ => (s.reservations key).isSome
  | .claimIdentity key identity _ => (s.identities key identity.startTs).isSome
  | .casDescriptor descriptor expected => decide (s.descriptors descriptor.startTs ≠ expected)
  | _ => false

def apply (s : TsStore α) : TsOp α → TsStore α
  | .putVersion key version =>
    let versions := if s.versions.any fun e => e.1 = key ∧ e.2.startTs = version.startTs then
        s.versions.map fun e => if e.1 = key ∧ e.2.startTs = version.startTs then (key, version) else e
      else s.versions ++ [(key, version)]
    { s with versions }
  | .reserve key startTs =>
    { s with reservations := Function.update s.reservations key (some startTs) }
  | .release key => { s with reservations := Function.update s.reservations key none }
  | .claimIdentity key identity rangeId =>
    let ofRow := Function.update (s.identities key) identity.startTs (some (identity, rangeId))
    { s with identities := Function.update s.identities key ofRow }
  | .deleteIdentity key startTs =>
    let ofRow := Function.update (s.identities key) startTs none
    { s with identities := Function.update s.identities key ofRow }
  | .casDescriptor descriptor _ =>
    { s with descriptors := Function.update s.descriptors descriptor.startTs (some descriptor) }

end TsOp

def TsStore.accepts (s : TsStore α) (ops : List (TsOp α)) : Bool := !ops.any (TsOp.fails s)

/-- A batch is applied as a whole or not at all. -/
def TsStore.writeBatch (s : TsStore α) (ops : List (TsOp α)) : TsStore α :=
  if s.accepts ops then ops.foldl TsOp.apply s else s

/-- Versions that another one supersedes at or below the floor are dead; any of them may be deleted, and the floor is
raised. -/
def TsStore.prune (s : TsStore α) (keys : List (RowKey × ℕ)) (floor : ℕ) : TsStore α :=
  let supersedes (commitTs : ℕ) (key : RowKey) := s.versions.any fun e =>
    e.1 = key && e.2.state.commitTs?.any fun later => commitTs < later && later ≤ floor
  { s with
    versions := s.versions.filter fun e => (e.1, e.2.startTs) ∉ keys || !e.2.state.commitTs?.any (supersedes · e.1)
    reclaimFloor := max s.reclaimFloor floor }

/-! ## Descriptors -/

inductive TimestampTxnError where
  | writeConflict (tableId rowid : ℕ)
  | missingIntent (tableId rowid startTs : ℕ)
  | emptyOperations
  | identityFenced
  | timestampExhausted
  | commitNotAfterStart (startTs commitTs : ℕ)
  deriving DecidableEq, Repr

namespace TimestampTxnDescriptor

/-- The next generation, a `u64`. -/
def bump (d : TimestampTxnDescriptor) : Except TimestampTxnError TimestampTxnDescriptor :=
  if d.generation + 1 < 2 ^ 64 then .ok { d with generation := d.generation + 1 }
  else .error .timestampExhausted

def markPrepared (d : TimestampTxnDescriptor) (participant : ℕ) :
    Except TimestampTxnError TimestampTxnDescriptor :=
  if participant ∈ d.prepared then .ok d
  else bump { d with prepared := (d.prepared ++ [participant]).insertionSort (· ≤ ·) }

/-- The operation among those that were acknowledged. -/
def addOperation (participant : ℕ) (d : TimestampTxnDescriptor) (op : TimestampTxnOperation) :
    Except TimestampTxnError TimestampTxnDescriptor :=
  if op.rangeId ≠ participant then .error (.missingIntent op.key.tableId op.key.rowid d.startTs)
  else if op ∈ d.operations then .ok d
  else bump { d with operations := (d.operations ++ [op]).insertionSort fun a b => a.sortKey ≤ b.sortKey }

def acknowledgeOperations (d : TimestampTxnDescriptor) (participant : ℕ)
    (operations : List TimestampTxnOperation) : Except TimestampTxnError TimestampTxnDescriptor :=
  if operations = [] then .error .emptyOperations
  else if d.decision ≠ .pending then .error (.missingIntent participant 0 d.startTs)
  else if participant ∉ d.participants then .error (.missingIntent participant 0 d.startTs)
  else d.markPrepared participant >>= fun d => operations.foldlM (addOperation participant) d

def decide (d : TimestampTxnDescriptor) (decision : PrimaryTxnDecision) :
    Except TimestampTxnError TimestampTxnDescriptor :=
  if d.decision ≠ .pending then
    if d.decision = decision then .ok d else .error (.missingIntent 0 0 d.startTs)
  else match decision with
    | .committed commitTs =>
      if commitTs ≤ d.startTs then .error (.commitNotAfterStart d.startTs commitTs)
      else bump { d with decision }
    | _ => bump { d with decision }

end TimestampTxnDescriptor

/-! ## The batches of a participant -/

structure TimestampWrite (α : Type) where
  key : RowKey
  row : α
  delete : Bool
  deriving DecidableEq, Repr

/-- How a transaction ends. -/
inductive TimestampTxnDecision where
  | pending
  | aborted
  | committed (commitTs : ℕ)
  | deleted (commitTs : ℕ)
  deriving DecidableEq, Repr

def TimestampTxnDecision.state : TimestampTxnDecision → TsVersionState
  | .pending => .intent
  | .aborted => .aborted
  | .committed commitTs => .committed commitTs
  | .deleted commitTs => .deleted commitTs

/-- The operations of each write in turn; the first error ends it. -/
def collectOps {β γ : Type} (f : β → Except TimestampTxnError (List γ)) :
    List β → Except TimestampTxnError (List γ)
  | [] => .ok []
  | x :: xs => do
    let ops ← f x
    let rest ← collectOps f xs
    return ops ++ rest

def TsVersion.beats (version : TsVersion α) (startTs : ℕ) : Bool := match version.state with
  | .intent => decide (version.startTs ≠ startTs)
  | .committed commitTs | .deleted commitTs => decide (startTs < commitTs)
  | .aborted => false

/-- `ensure_prewrite_can_win`: the scan is of the key without a bucket. -/
def ensurePrewriteCanWin (s : TsStore α) (startTs : ℕ) (write : TimestampWrite α) :
    Except TimestampTxnError Unit :=
  if s.versions.any fun e =>
      e.1.startsWith write.key.tableId write.key.rowid && e.2.beats startTs then
    .error (.writeConflict write.key.tableId write.key.rowid)
  else .ok ()

def prewriteWriteOps (s : TsStore α) (startTs : ℕ) (write : TimestampWrite α) :
    Except TimestampTxnError (List (TsOp α)) :=
  (ensurePrewriteCanWin s startTs write).map fun _ =>
    [.reserve write.key startTs, .putVersion write.key ⟨startTs, .intent, write.row⟩]

def prewriteOps (s : TsStore α) (startTs : ℕ) (writes : List (TimestampWrite α)) :
    Except TimestampTxnError (List (TsOp α)) :=
  match writes.head? with
  | some write =>
    if startTs < s.reclaimFloor then .error (.writeConflict write.key.tableId write.key.rowid)
    else collectOps (prewriteWriteOps s startTs) writes
  | none => .ok []

def prewriteWithIdentityOps (s : TsStore α) (identity : TimestampTxnIdentity) (rangeId : ℕ)
    (writes : List (TimestampWrite α)) : Except TimestampTxnError (List (TsOp α)) :=
  (prewriteOps s identity.startTs writes).map fun ops =>
    ops ++ writes.map fun write => .claimIdentity write.key identity rangeId

def TimestampWrite.operation (rangeId : ℕ) (write : TimestampWrite α) : TimestampTxnOperation :=
  ⟨rangeId, write.key, write.delete⟩

/-- The batch of `prewrite_as_primary`. -/
def prewriteAsPrimaryOps (s : TsStore α) (rangeId : ℕ) (identity : TimestampTxnIdentity)
    (participants : List ℕ) (writes : List (TimestampWrite α)) :
    Except TimestampTxnError (List (TsOp α)) :=
  if identity.primaryRange ≠ rangeId ∨ writes = [] then .error .identityFenced
  else do
    let descriptor ← TimestampTxnDescriptor.acknowledgeOperations
      ⟨identity.startTs, identity.globalXid, 0, participants, [], [], .pending⟩ rangeId
      (writes.map (TimestampWrite.operation rangeId))
    let ops ← prewriteWithIdentityOps s identity rangeId writes
    return ops ++ [.casDescriptor descriptor none]

/-- The batch of `prewrite_as_secondary`. -/
def prewriteAsSecondaryOps (s : TsStore α) (rangeId : ℕ) (identity : TimestampTxnIdentity)
    (writes : List (TimestampWrite α)) : Except TimestampTxnError (List (TsOp α)) :=
  if identity.primaryRange = rangeId ∨ writes = [] then .error .identityFenced
  else prewriteWithIdentityOps s identity rangeId writes

/-- The batch of `prewrite_on_primary`. -/
def prewriteOnPrimaryOps (s : TsStore α) (rangeId : ℕ) (identity : TimestampTxnIdentity)
    (writes : List (TimestampWrite α)) : Except TimestampTxnError (List (TsOp α)) :=
  match s.descriptors identity.startTs with
  | none => .error .identityFenced
  | some current =>
    if identity.primaryRange ≠ rangeId ∨ current.globalXid ≠ identity.globalXid then
      .error .identityFenced
    else do
      let updated ← current.acknowledgeOperations rangeId
        (writes.map (TimestampWrite.operation rangeId))
      let ops ← prewriteWithIdentityOps s identity rangeId writes
      return ops ++ [.casDescriptor updated (some current)]

def settleOps (key : RowKey) (version : TsVersion α) (state : TsVersionState) : List (TsOp α) :=
  [.putVersion key { version with state }, .release key]

/-- `resolve_ops` for one write. -/
def resolveWriteOps (s : TsStore α) (startTs : ℕ) (decision : TimestampTxnDecision)
    (write : TimestampWrite α) : Except TimestampTxnError (List (TsOp α)) :=
  match s.version write.key startTs with
  | none => .error (.missingIntent write.key.tableId write.key.rowid startTs)
  | some version =>
    if version.state ≠ .intent then
      .error (.missingIntent write.key.tableId write.key.rowid startTs)
    else .ok (settleOps write.key version decision.state)

def resolveOps (s : TsStore α) (startTs : ℕ) (decision : TimestampTxnDecision)
    (writes : List (TimestampWrite α)) : Except TimestampTxnError (List (TsOp α)) :=
  collectOps (resolveWriteOps s startTs decision) writes

def resolveCommitOps (s : TsStore α) (startTs commitTs : ℕ) (writes : List (TimestampWrite α)) :
    Except TimestampTxnError (List (TsOp α)) :=
  collectOps (fun write => resolveWriteOps s startTs
    (if write.delete then .deleted commitTs else .committed commitTs) write) writes

def resolveOpsIdempotentForWrite (s : TsStore α) (startTs : ℕ) (decision : TimestampTxnDecision)
    (key : RowKey) : Except TimestampTxnError (List (TsOp α)) :=
  match s.version key startTs with
  | none => .ok []
  | some version =>
    if version.state = decision.state then .ok []
    else if version.state ≠ .intent then .error (.missingIntent key.tableId key.rowid startTs)
    else .ok (settleOps key version decision.state)

/-! ## Facts about batches -/

variable {β γ : Type} {f : β → Except TimestampTxnError (List γ)} {xs : List β}

lemma mem_collectOps {ops : List γ} (h : collectOps f xs = .ok ops) {op : γ} (hop : op ∈ ops) :
    ∃ x ∈ xs, ∃ part, f x = .ok part ∧ op ∈ part ∧ ∀ op' ∈ part, op' ∈ ops := by
  induction xs generalizing ops with
  | nil =>
    cases h
    cases hop
  | cons x xs ih =>
    obtain ⟨part, hpart, h⟩ := bind_eq_ok.mp h
    obtain ⟨rest, hrest, h⟩ := bind_eq_ok.mp h
    cases h
    obtain hop | hop := mem_append.mp hop
    · exact ⟨x, mem_cons_self, part, hpart, hop, fun _ => mem_append_left _⟩
    · obtain ⟨y, hy, part', hpart', hop', hsub⟩ := ih hrest hop
      exact ⟨y, mem_cons_of_mem _ hy, part', hpart', hop', fun _ h' => mem_append_right _ (hsub _ h')⟩

lemma collectOps_part {ops : List γ} (h : collectOps f xs = .ok ops) {x : β} (hx : x ∈ xs) :
    ∃ part, f x = .ok part ∧ ∀ op ∈ part, op ∈ ops := by
  induction xs generalizing ops with
  | nil => cases hx
  | cons y xs ih =>
    obtain ⟨part, hpart, h⟩ := bind_eq_ok.mp h
    obtain ⟨rest, hrest, h⟩ := bind_eq_ok.mp h
    cases h
    obtain rfl | hx := mem_cons.mp hx
    · exact ⟨part, hpart, fun _ => mem_append_left _⟩
    · obtain ⟨part', hpart', hsub⟩ := ih hrest hx
      exact ⟨part', hpart', fun _ h' => mem_append_right _ (hsub _ h')⟩

variable {s : TsStore α} {key : RowKey} {startTs : ℕ}

lemma mem_versions_of_version {v : TsVersion α} (h : s.version key startTs = some v) :
    (key, v) ∈ s.versions ∧ v.startTs = startTs := by
  obtain ⟨e, he, rfl⟩ := Option.map_eq_some_iff.mp h
  have hp := List.find?_some he
  simp only [decide_eq_true_eq] at hp
  obtain ⟨hk, ht⟩ := hp
  exact ⟨hk ▸ mem_of_find?_eq_some he, ht⟩

variable {e : RowKey × TsVersion α}

lemma mem_versions_putVersion {version : TsVersion α} (h : e ∈ (TsOp.apply s (.putVersion key version)).versions) :
    e = (key, version) ∨ e ∈ s.versions ∧ ¬(e.1 = key ∧ e.2.startTs = version.startTs) := by
  dsimp only [TsOp.apply] at h
  split at h
  · obtain ⟨e', he', rfl⟩ := mem_map.mp h
    split
    · exact .inl rfl
    · rename_i hne
      exact .inr ⟨he', hne⟩
  · rename_i hnone
    obtain h | h := mem_snoc.mp h
    · refine .inr ⟨h, fun heq => hnone (any_eq_true.mpr ⟨e, h, ?_⟩)⟩
      exact decide_eq_true heq
    · exact .inl h

variable {ops : List (TsOp α)}

lemma mem_versions_foldl (h : e ∈ (ops.foldl TsOp.apply s).versions) :
    .putVersion e.1 e.2 ∈ ops ∨ e ∈ s.versions ∧ ∀ v, .putVersion e.1 v ∈ ops → v.startTs ≠ e.2.startTs := by
  induction ops generalizing s with
  | nil => exact .inr ⟨h, fun _ hv => nomatch hv⟩
  | cons op ops ih =>
    obtain hput | ⟨hmem, hnot⟩ := ih h
    · exact .inl (mem_cons_of_mem _ hput)
    · have hsame : (∀ key v, op ≠ .putVersion key v) → (op.apply s).versions = s.versions := by
        intro hop
        cases op with
        | putVersion key v => exact absurd rfl (hop key v)
        | _ => rfl
      by_cases hop : ∃ key v, op = .putVersion key v
      · obtain ⟨key, v, rfl⟩ := hop
        obtain rfl | ⟨hmem, hne⟩ := mem_versions_putVersion hmem
        · exact .inl mem_cons_self
        · refine .inr ⟨hmem, fun v' hv' => ?_⟩
          obtain hv' | hv' := mem_cons.mp hv'
          · obtain ⟨hk, rfl⟩ := TsOp.putVersion.inj hv'
            exact fun ht => hne ⟨hk, ht.symm⟩
          · exact hnot v' hv'
      · rw [hsame fun key v heq => hop ⟨key, v, heq⟩] at hmem
        refine .inr ⟨hmem, fun v' hv' => ?_⟩
        obtain hv' | hv' := mem_cons.mp hv'
        · exact absurd ⟨_, _, hv'.symm⟩ hop
        · exact hnot v' hv'

lemma versions_apply_subset {op : TsOp α} (he : e ∈ s.versions)
    (hne : ∀ v, op = .putVersion e.1 v → v.startTs ≠ e.2.startTs) : e ∈ (op.apply s).versions := by
  cases op with
  | putVersion key v =>
    dsimp only [TsOp.apply]
    split
    · refine mem_map.mpr ⟨e, he, if_neg fun heq => ?_⟩
      exact hne v (by rw [heq.1]) heq.2.symm
    · exact mem_append_left _ he
  | _ => exact he

lemma mem_versions_foldl_of_untouched (he : e ∈ s.versions)
    (hne : ∀ v, .putVersion e.1 v ∈ ops → v.startTs ≠ e.2.startTs) : e ∈ (ops.foldl TsOp.apply s).versions :=
  foldlRecOn (motive := fun t : TsStore α => e ∈ t.versions) ops _ he fun _ h _ hop =>
    versions_apply_subset h fun v heq => hne v (heq ▸ hop)

lemma mem_versions_apply_put (s : TsStore α) (key : RowKey) (version : TsVersion α) :
    (key, version) ∈ (TsOp.apply s (.putVersion key version)).versions := by
  dsimp only [TsOp.apply]
  split
  · rename_i hany
    obtain ⟨e, he, heq⟩ := any_eq_true.mp hany
    exact mem_map.mpr ⟨e, he, if_pos (of_decide_eq_true heq)⟩
  · exact mem_append_right _ (mem_singleton_self _)

/-- Of the versions that a batch puts under a key one is there afterwards. -/
lemma exists_version_foldl {version : TsVersion α} (hput : .putVersion key version ∈ ops) (s : TsStore α) :
    ∃ v, (key, v) ∈ (ops.foldl TsOp.apply s).versions ∧ .putVersion key v ∈ ops := by
  induction ops generalizing s version with
  | nil => cases hput
  | cons op ops ih =>
    by_cases hlater : ∃ v, .putVersion key v ∈ ops
    · obtain ⟨v, hv⟩ := hlater
      obtain ⟨v', hv', hop⟩ := ih hv (op.apply s)
      exact ⟨v', hv', mem_cons_of_mem _ hop⟩
    · obtain rfl | hput := mem_cons.mp hput
      · refine ⟨version, ?_, mem_cons_self⟩
        rw [foldl_cons]
        exact mem_versions_foldl_of_untouched (mem_versions_apply_put s key version)
          fun v hv => absurd ⟨v, hv⟩ hlater
      · exact absurd ⟨version, hput⟩ hlater

lemma reservations_foldl_of_untouched (hres : ∀ ts, .reserve key ts ∉ ops)
    (hrel : .release key ∉ ops) (s : TsStore α) :
    (ops.foldl TsOp.apply s).reservations key = s.reservations key := by
  refine foldlRecOn (motive := fun t : TsStore α => t.reservations key = s.reservations key) ops _ rfl
    fun s' h op hop => ?_
  rw [← h]
  cases op with
  | reserve k ts =>
    refine update_of_ne (fun hk => hres ts ?_) ..
    rwa [hk]
  | release k =>
    refine update_of_ne (fun hk => hrel ?_) ..
    rwa [hk]
  | _ => rfl

lemma reservations_foldl_of_reserve (hres : .reserve key startTs ∈ ops)
    (hone : ∀ ts, .reserve key ts ∈ ops → ts = startTs) (hrel : .release key ∉ ops) (s : TsStore α) :
    (ops.foldl TsOp.apply s).reservations key = some startTs := by
  induction ops generalizing s with
  | nil => cases hres
  | cons op ops ih =>
    rw [foldl_cons]
    by_cases hlater : .reserve key startTs ∈ ops
    · exact ih hlater (fun ts h => hone ts (mem_cons_of_mem _ h))
        (fun h => hrel (mem_cons_of_mem _ h)) _
    · obtain rfl | hres := mem_cons.mp hres
      · rw [reservations_foldl_of_untouched (fun ts h => ?_)
          (fun h => hrel (mem_cons_of_mem _ h))]
        · exact update_self ..
        · exact hlater (hone ts (mem_cons_of_mem _ h) ▸ h)
      · exact absurd hres hlater

lemma reservations_foldl_of_release (hres : ∀ ts, .reserve key ts ∉ ops)
    (hrel : .release key ∈ ops) (s : TsStore α) :
    (ops.foldl TsOp.apply s).reservations key = none := by
  induction ops generalizing s with
  | nil => cases hrel
  | cons op ops ih =>
    rw [foldl_cons]
    by_cases hlater : .release key ∈ ops
    · exact ih (fun ts h => hres ts (mem_cons_of_mem _ h)) hlater _
    · obtain rfl | hrel := mem_cons.mp hrel
      · rw [reservations_foldl_of_untouched (fun ts h => hres ts (mem_cons_of_mem _ h)) hlater]
        exact update_self ..
      · exact absurd hrel hlater

end Crabka.Pgexec
