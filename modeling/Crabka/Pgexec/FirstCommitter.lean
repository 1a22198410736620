import Crabka.Found.Runs
import Crabka.Pgexec.TsStore

/-!
# First committer wins

Transactions with distinct start timestamps over one store; each reads it to build a batch and commits the batch in a
later step. A reservation is held from the prewrite to the resolution (`TxnInv.reserved`), so of two writers of a row
one has committed before the other's prewrite is applied. That it committed below the start of the other is checked
when the batch is built, against the versions in the store, which has the newest commit of every row (`Recorded`).

The check is made for rows without a bucket, and says nothing of what is committed between it and the batch. Where
neither matters (`Undisturbed`), the first committer wins (`first_committer_wins`).
-/

namespace Crabka.Pgexec
open Found Function List TsOp Except
variable {α : Type}

/-! ## Calls of a participant -/

/-- The calls of `TimestampTxnParticipant`. -/
inductive Call (α : Type) where
  | prewrite (writes : List (TimestampWrite α))
  | prewriteAsPrimary (identity : TimestampTxnIdentity) (participants : List ℕ)
      (writes : List (TimestampWrite α))
  | prewriteAsSecondary (identity : TimestampTxnIdentity) (writes : List (TimestampWrite α))
  | prewriteOnPrimary (identity : TimestampTxnIdentity) (writes : List (TimestampWrite α))
  | commit (commitTs : ℕ) (writes : List (TimestampWrite α))
  | abort (writes : List (TimestampWrite α))
  | resolve (decision : TimestampTxnDecision) (writes : List (TimestampWrite α))

namespace Call

def prewrites : Call α → Option (List (TimestampWrite α) × Option TimestampTxnIdentity)
  | .prewrite writes => some (writes, none)
  | .prewriteAsPrimary identity _ writes | .prewriteAsSecondary identity writes
  | .prewriteOnPrimary identity writes => some (writes, some identity)
  | _ => none

def commitTs? : Call α → Option ℕ
  | .commit commitTs _ => some commitTs
  | .resolve decision _ => decision.state.commitTs?
  | _ => none

/-- The reads of a call: the batch it will commit. -/
def build (rangeId : ℕ) (s : TsStore α) (startTs : ℕ) : Call α → Except TimestampTxnError (List (TsOp α))
  | .prewrite writes => prewriteOps s startTs writes
  | .prewriteAsPrimary identity participants writes =>
    prewriteAsPrimaryOps s rangeId identity participants writes
  | .prewriteAsSecondary identity writes => prewriteAsSecondaryOps s rangeId identity writes
  | .prewriteOnPrimary identity writes => prewriteOnPrimaryOps s rangeId identity writes
  | .commit commitTs writes => resolveCommitOps s startTs commitTs writes
  | .abort writes => resolveOps s startTs .aborted writes
  | .resolve decision writes =>
    collectOps (fun write => resolveOpsIdempotentForWrite s startTs decision write.key) writes

/-- `verify_prewrite_reservations` and `verify_local_prewrite`. -/
def verifies (rangeId : ℕ) (s : TsStore α) (startTs : ℕ) (call : Call α) : Bool :=
  match call.prewrites with
  | none => false
  | some (writes, none) => writes.all fun write => s.reservations write.key = some startTs
  | some (writes, some identity) =>
    writes.all fun write => s.identities write.key startTs = some (identity, rangeId)

end Call

/-! ## Runs -/

/-- A transaction between two calls, with a batch built, or waiting for the read-back of its reservations. -/
inductive Phase (α : Type) where
  | idle
  | built (call : Call α) (ops : List (TsOp α))
  /-- The batch of a prewrite was handed in; its reservations or identities are read back. -/
  | verifying (call : Call α)

/-- A committed write, with the new row; none for a delete. -/
structure CommittedWrite (α : Type) where
  startTs : ℕ
  key : RowKey
  commitTs : ℕ
  row : Option α
  deriving DecidableEq, Repr

/-- The store with the transactions over it, by start timestamp, and the history of commits. -/
structure TxnWorld (α : Type) where
  store : TsStore α := {}
  phase : ℕ → Phase α := fun _ => .idle
  /-- The transaction has begun to commit, resolve or abort. -/
  finishing : ℕ → Bool := fun _ => false
  /-- The largest timestamp used so far. -/
  latest : ℕ := 0
  /-- The writes whose prewrite has returned without an error. -/
  prewritten : List (ℕ × RowKey) := []
  commits : List (CommittedWrite α) := []
  /-- The writes committed since the last batch of a transaction was built. -/
  since : ℕ → List (CommittedWrite α) := fun _ => []

/-- A call reads and builds its batch, the batch is written, a prewrite is read back, or versions are pruned. -/
inductive TxnEvent (α : Type) where
  | build (startTs : ℕ) (call : Call α)
  /-- The batch is committed. -/
  | write (startTs : ℕ)
  | verify (startTs : ℕ)
  /-- Dead versions are deleted and the reclaim floor is raised. -/
  | prune (keys : List (RowKey × ℕ)) (floor : ℕ)

def TsVersion.committed? (key : RowKey) (v : TsVersion α) : Option (CommittedWrite α) := match v.state with
  | .committed commitTs => some ⟨v.startTs, key, commitTs, some v.row⟩
  | .deleted commitTs => some ⟨v.startTs, key, commitTs, none⟩
  | .intent | .aborted => none

def TsOp.committed? : TsOp α → Option (CommittedWrite α)
  | .putVersion key version => version.committed? key
  | _ => none

/-- The writes that a batch commits. -/
def TsStore.committedBy (s : TsStore α) (ops : List (TsOp α)) : List (CommittedWrite α) :=
  if s.accepts ops then ops.filterMap TsOp.committed? else []

namespace TxnWorld
variable (rangeId : ℕ)

def build (w : TxnWorld α) (startTs : ℕ) (call : Call α) : TxnWorld α :=
  let phase : Phase α := match call.build rangeId w.store startTs with
    | .ok ops => .built call ops
    | .error _ => .idle
  { w with
    phase := Function.update w.phase startTs phase
    finishing := Function.update w.finishing startTs (w.finishing startTs || call.prewrites.isNone)
    latest := max w.latest (max startTs (call.commitTs?.getD 0))
    since := Function.update w.since startTs [] }

def write (w : TxnWorld α) (startTs : ℕ) : TxnWorld α :=
  match w.phase startTs with
  | .built call ops =>
    let phase : Phase α := if call.prewrites.isSome then .verifying call else .idle
    { w with
      store := w.store.writeBatch ops
      phase := Function.update w.phase startTs phase
      commits := w.commits ++ w.store.committedBy ops
      since := fun ts => w.since ts ++ w.store.committedBy ops }
  | _ => w

def verify (w : TxnWorld α) (startTs : ℕ) : TxnWorld α :=
  match w.phase startTs with
  | .verifying call =>
    let keys := ((call.prewrites.map Prod.fst).getD []).map fun write => (startTs, write.key)
    { w with
      phase := Function.update w.phase startTs .idle
      prewritten := w.prewritten ++ if call.verifies rangeId w.store startTs then keys else [] }
  | _ => w

end TxnWorld

/-- A transaction makes one call at a time, prewrites before it finishes, uses its own identity, and commits above
every timestamp used so far. -/
def TxnEvent.enabled (w : TxnWorld α) : TxnEvent α → Bool
  | .build startTs call =>
    (match w.phase startTs with | .idle => true | _ => false) &&
      (match call.prewrites with
        | none => true
        | some (_, identity) => !w.finishing startTs && identity.all fun i => i.startTs = startTs) &&
      call.commitTs?.all fun commitTs => w.latest < commitTs && startTs < commitTs
  | .write startTs => match w.phase startTs with | .built _ _ => true | _ => false
  | .verify startTs => match w.phase startTs with | .verifying _ => true | _ => false
  | .prune _ _ => true

def txnSys (α : Type) (rangeId : ℕ) : Sys (TxnWorld α) (TxnEvent α) where
  enabled w l := l.enabled w = true
  next w
    | .build startTs call => w.build rangeId startTs call
    | .write startTs => w.write startTs
    | .verify startTs => w.verify rangeId startTs
    | .prune keys floor => { w with store := w.store.prune keys floor }

instance (rangeId : ℕ) (w : TxnWorld α) (l : TxnEvent α) : Decidable ((txnSys α rangeId).enabled w l) :=
  inferInstanceAs (Decidable (l.enabled w = true))

/-- Transactions write rows without a bucket, start at no timestamp at which another one has committed, and no row of a
prewrite is committed between the check and the batch. -/
def Undisturbed (w : TxnWorld α) : TxnEvent α → Bool
  | .build startTs call => call.prewrites.all fun p =>
      (p.1.all fun write => write.key.bucket = none) && w.commits.all fun c => c.commitTs ≠ startTs
  | .write startTs => match w.phase startTs with
    | .built _ ops => ops.all fun
        | .reserve key _ => (w.since startTs).all fun c => c.key ≠ key
        | _ => true
    | _ => true
  | .verify _ | .prune _ _ => true

/-! ## What the batches are -/

/-- The batch of a prewrite: every intent comes with its reservation, and what is said of the reserved rows. -/
structure PrewriteBatch (free : RowKey → Prop) (startTs : ℕ) (ops : List (TsOp α)) : Prop where
  intent : ∀ key v, .putVersion key v ∈ ops → v.startTs = startTs ∧ v.state = .intent ∧ .reserve key startTs ∈ ops
  reserve : ∀ key ts, .reserve key ts ∈ ops → ts = startTs ∧ free key
  release : ∀ key, .release key ∉ ops

/-- The batch of a resolution: it settles versions of rows that the transaction has reserved, and releases the rows. -/
structure ResolveBatch (s : TsStore α) (startTs : ℕ) (commitTs : Option ℕ) (ops : List (TsOp α)) : Prop where
  settled : ∀ key v, .putVersion key v ∈ ops → v.startTs = startTs ∧ v.state ≠ .intent ∧
    v.state.commitTs? = commitTs ∧ s.reservations key = some startTs ∧ .release key ∈ ops
  reserve : ∀ key ts, .reserve key ts ∉ ops
  release : ∀ key, .release key ∈ ops → s.reservations key = some startTs ∧ ∃ v, .putVersion key v ∈ ops

def Reserved (s : TsStore α) : Prop :=
  ∀ e ∈ s.versions, e.2.state = .intent → s.reservations e.1 = some e.2.startTs

/-- The check was made for a write of the row. -/
def CheckedBy (s : TsStore α) (startTs : ℕ) (writes : List (TimestampWrite α)) (key : RowKey) : Prop :=
  ∃ write ∈ writes, write.key = key ∧ ensurePrewriteCanWin s startTs write = .ok ()

variable {s : TsStore α} {startTs : ℕ} {writes : List (TimestampWrite α)} {ops : List (TsOp α)}

lemma mem_prewriteOps (h : prewriteOps s startTs writes = .ok ops) {op : TsOp α} (hop : op ∈ ops) :
    ∃ write ∈ writes, ensurePrewriteCanWin s startTs write = .ok () ∧ ∃ part,
      part = [reserve write.key startTs, .putVersion write.key ⟨startTs, .intent, write.row⟩] ∧
        op ∈ part ∧ ∀ op' ∈ part, op' ∈ ops := by
  unfold prewriteOps at h
  split at h
  · split at h
    · cases h
    · obtain ⟨write, hwrite, part, hpart, hmem, hsub⟩ := mem_collectOps h hop
      unfold prewriteWriteOps at hpart
      cases hwin : ensurePrewriteCanWin s startTs write with
      | error e =>
        rw [hwin] at hpart
        cases hpart
      | ok u =>
        rw [hwin] at hpart
        exact ⟨write, hwrite, hwin, part, (ok.inj hpart).symm, hmem, hsub⟩
  · cases h
    cases hop

lemma prewriteBatch_prewriteOps (h : prewriteOps s startTs writes = .ok ops) :
    PrewriteBatch (CheckedBy s startTs writes) startTs ops := by
  constructor
  · intro key v hop
    obtain ⟨write, -, -, part, rfl, hmem, hsub⟩ := mem_prewriteOps h hop
    simp only [mem_cons, not_mem_nil, or_false, reduceCtorEq, false_or, putVersion.injEq] at hmem
    obtain ⟨rfl, rfl⟩ := hmem
    exact ⟨rfl, rfl, hsub _ mem_cons_self⟩
  · intro key ts hop
    obtain ⟨write, hwrite, hwin, part, rfl, hmem, -⟩ := mem_prewriteOps h hop
    simp only [mem_cons, not_mem_nil, or_false, reduceCtorEq, reserve.injEq] at hmem
    exact ⟨hmem.2, write, hwrite, hmem.1.symm, hwin⟩
  · intro key hop
    obtain ⟨write, -, -, part, rfl, hmem, -⟩ := mem_prewriteOps h hop
    simp at hmem

variable {free : RowKey → Prop}

lemma PrewriteBatch.imp {free' : RowKey → Prop} (h : PrewriteBatch free startTs ops)
    (himp : ∀ key, .reserve key startTs ∈ ops → free key → free' key) : PrewriteBatch free' startTs ops where
  intent := h.intent
  reserve := fun key ts hop => by
    obtain ⟨rfl, hfree⟩ := h.reserve key ts hop
    exact ⟨rfl, himp key hop hfree⟩
  release := h.release

lemma PrewriteBatch.append {tail : List (TsOp α)} (h : PrewriteBatch free startTs ops)
    (htail : ∀ op ∈ tail, (∃ key identity rangeId, op = .claimIdentity key identity rangeId) ∨
      ∃ descriptor expected, op = .casDescriptor descriptor expected) :
    PrewriteBatch free startTs (ops ++ tail) := by
  have hof : ∀ op ∈ ops ++ tail, op ∈ ops ∨ (∃ key identity rangeId,
      op = .claimIdentity key identity rangeId) ∨ ∃ descriptor expected,
      op = .casDescriptor descriptor expected := fun op hop =>
    (mem_append.mp hop).imp_right (htail op)
  constructor
  · intro key v hop
    obtain hop | ⟨_, _, _, ⟨⟩⟩ | ⟨_, _, ⟨⟩⟩ := hof _ hop
    obtain ⟨h1, h2, h3⟩ := h.intent key v hop
    exact ⟨h1, h2, mem_append_left _ h3⟩
  · intro key ts hop
    obtain hop | ⟨_, _, _, ⟨⟩⟩ | ⟨_, _, ⟨⟩⟩ := hof _ hop
    exact h.reserve key ts hop
  · intro key hop
    obtain hop | ⟨_, _, _, ⟨⟩⟩ | ⟨_, _, ⟨⟩⟩ := hof _ hop
    exact h.release key hop

variable {identity : TimestampTxnIdentity} {rangeId : ℕ}

lemma prewriteBatch_withIdentity (h : prewriteWithIdentityOps s identity rangeId writes = .ok ops) :
    PrewriteBatch (CheckedBy s identity.startTs writes) identity.startTs ops := by
  unfold prewriteWithIdentityOps at h
  cases hops : prewriteOps s identity.startTs writes with
  | error e =>
    rw [hops] at h
    cases h
  | ok ops' =>
    rw [hops] at h
    cases h
    refine (prewriteBatch_prewriteOps hops).append fun op hop => .inl ?_
    obtain ⟨write, -, rfl⟩ := mem_map.mp hop
    exact ⟨_, _, _, rfl⟩

variable {key : RowKey}

lemma resolveBatch_settleOps (hs : Reserved s) {version : TsVersion α}
    (hv : s.version key startTs = some version) (hintent : version.state = .intent)
    {state : TsVersionState} (hstate : state ≠ .intent) :
    ResolveBatch s startTs state.commitTs? (settleOps key version state) := by
  obtain ⟨hmem, hts⟩ := mem_versions_of_version hv
  have hres : s.reservations key = some startTs := hts ▸ hs _ hmem hintent
  constructor
  · intro k v hop
    simp only [settleOps, mem_cons, not_mem_nil, or_false, reduceCtorEq, putVersion.injEq] at hop
    obtain ⟨rfl, rfl⟩ := hop
    exact ⟨hts, hstate, rfl, hres, by simp [settleOps]⟩
  · intro k ts hop
    simp [settleOps] at hop
  · intro k hop
    simp only [settleOps, mem_cons, not_mem_nil, or_false, reduceCtorEq, false_or, release.injEq] at hop
    subst hop
    exact ⟨hres, _, mem_cons_self⟩

variable {commitTs : Option ℕ}

lemma resolveBatch_nil (s : TsStore α) (startTs : ℕ) : ResolveBatch s startTs commitTs [] :=
  ⟨by simp, by simp, by simp⟩

lemma resolveBatch_collectOps {β : Type} {f : β → Except TimestampTxnError (List (TsOp α))}
    {xs : List β} (hf : ∀ x part, f x = .ok part → ResolveBatch s startTs commitTs part)
    (h : collectOps f xs = .ok ops) :
    ResolveBatch s startTs commitTs ops := by
  constructor
  · intro key v hop
    obtain ⟨x, -, part, hpart, hmem, hsub⟩ := mem_collectOps h hop
    obtain ⟨hts, hstate, hcommit, hres, hrel⟩ := (hf x part hpart).settled key v hmem
    exact ⟨hts, hstate, hcommit, hres, hsub _ hrel⟩
  · intro key ts hop
    obtain ⟨x, -, part, hpart, hmem, -⟩ := mem_collectOps h hop
    exact (hf x part hpart).reserve key ts hmem
  · intro key hop
    obtain ⟨x, -, part, hpart, hmem, hsub⟩ := mem_collectOps h hop
    obtain ⟨hres, v, hv⟩ := (hf x part hpart).release key hmem
    exact ⟨hres, v, hsub _ hv⟩

variable {decision : TimestampTxnDecision}

lemma resolveBatch_resolveWriteOps (hs : Reserved s) (hd : decision ≠ .pending)
    {write : TimestampWrite α} (h : resolveWriteOps s startTs decision write = .ok ops) :
    ResolveBatch s startTs decision.state.commitTs? ops := by
  unfold resolveWriteOps at h
  split at h
  · cases h
  · rename_i version hv
    split at h
    · cases h
    · rename_i hintent
      cases h
      refine resolveBatch_settleOps hs hv (not_not.mp hintent) fun hstate => hd ?_
      cases decision <;> simp_all [TimestampTxnDecision.state]

lemma resolveBatch_idempotent (hs : Reserved s)
    (h : resolveOpsIdempotentForWrite s startTs decision key = .ok ops) :
    ResolveBatch s startTs decision.state.commitTs? ops := by
  unfold resolveOpsIdempotentForWrite at h
  split at h
  · cases h
    exact resolveBatch_nil s startTs
  · rename_i version hv
    split at h
    · cases h
      exact resolveBatch_nil s startTs
    · rename_i hne
      split at h
      · cases h
      · rename_i hintent
        cases h
        have hintent := not_not.mp hintent
        exact resolveBatch_settleOps hs hv hintent fun hstate => hne (hintent.trans hstate.symm)

lemma resolveBatch_commitOps (hs : Reserved s) {commitTs : ℕ}
    (h : resolveCommitOps s startTs commitTs writes = .ok ops) : ResolveBatch s startTs (some commitTs) ops := by
  have hcommit : TimestampTxnDecision.committed commitTs ≠ .pending := nofun
  have hdelete : TimestampTxnDecision.deleted commitTs ≠ .pending := nofun
  refine resolveBatch_collectOps (fun write part hpart => ?_) h
  split at hpart
  · exact resolveBatch_resolveWriteOps hs hdelete hpart
  · exact resolveBatch_resolveWriteOps hs hcommit hpart

lemma resolveBatch_abortOps (hs : Reserved s) (h : resolveOps s startTs .aborted writes = .ok ops) :
    ResolveBatch s startTs none ops := by
  have hd : TimestampTxnDecision.aborted ≠ .pending := nofun
  exact resolveBatch_collectOps (fun _ _ hpart => resolveBatch_resolveWriteOps hs hd hpart) h

lemma prewriteBatch_withDescriptor {op : TsOp α}
    (hop : ∃ descriptor expected, op = .casDescriptor descriptor expected)
    (h : (prewriteWithIdentityOps s identity rangeId writes >>= fun ops => pure (ops ++ [op])) = .ok ops) :
    PrewriteBatch (CheckedBy s identity.startTs writes) identity.startTs ops := by
  obtain ⟨ops', hops, h⟩ := bind_eq_ok.mp h
  cases h
  exact (prewriteBatch_withIdentity hops).append fun op' hop' => .inr (mem_singleton.mp hop' ▸ hop)

variable {call : Call α}

lemma batch_of_build (hs : Reserved s)
    (hid : ∀ p ∈ call.prewrites, ∀ i ∈ p.2, i.startTs = startTs)
    (h : call.build rangeId s startTs = .ok ops) :
    (∃ p, call.prewrites = some p ∧ PrewriteBatch (CheckedBy s startTs p.1) startTs ops) ∨
      call.prewrites = none ∧ ∃ commitTs, ResolveBatch s startTs commitTs ops := by
  cases call with
  | prewrite writes => exact .inl ⟨_, rfl, prewriteBatch_prewriteOps h⟩
  | prewriteAsPrimary identity participants writes =>
    obtain rfl : identity.startTs = startTs := hid _ rfl identity rfl
    dsimp only [Call.build, prewriteAsPrimaryOps] at h
    split at h
    · cases h
    · obtain ⟨descriptor, -, h⟩ := bind_eq_ok.mp h
      exact .inl ⟨_, rfl, prewriteBatch_withDescriptor ⟨_, _, rfl⟩ h⟩
  | prewriteAsSecondary identity writes =>
    obtain rfl : identity.startTs = startTs := hid _ rfl identity rfl
    dsimp only [Call.build, prewriteAsSecondaryOps] at h
    split at h
    · cases h
    · exact .inl ⟨_, rfl, prewriteBatch_withIdentity h⟩
  | prewriteOnPrimary identity writes =>
    obtain rfl : identity.startTs = startTs := hid _ rfl identity rfl
    dsimp only [Call.build, prewriteOnPrimaryOps] at h
    split at h
    · cases h
    · split at h
      · cases h
      · obtain ⟨updated, -, h⟩ := bind_eq_ok.mp h
        exact .inl ⟨_, rfl, prewriteBatch_withDescriptor ⟨_, _, rfl⟩ h⟩
  | commit commitTs writes => exact .inr ⟨rfl, _, resolveBatch_commitOps hs h⟩
  | abort writes => exact .inr ⟨rfl, _, resolveBatch_abortOps hs h⟩
  | resolve decision writes =>
    exact .inr ⟨rfl, _, resolveBatch_collectOps (fun write part hpart => resolveBatch_idempotent hs hpart) h⟩

/-! ## What a batch does to the reservations -/

lemma not_fails_of_accepts (h : s.accepts ops) {ts : ℕ} (hop : .reserve key ts ∈ ops) :
    s.reservations key = none := by
  unfold TsStore.accepts at h
  rw [Bool.not_eq_true', any_eq_false] at h
  have := h _ hop
  simpa [fails] using this

section Batches
variable {s : TsStore α} {startTs : ℕ} {ops : List (TsOp α)}
variable {key : RowKey} {free : RowKey → Prop} {commitTs : Option ℕ}
section
variable (h : PrewriteBatch free startTs ops)
include h

lemma PrewriteBatch.reservations_self (hres : .reserve key startTs ∈ ops) :
    (ops.foldl apply s).reservations key = some startTs :=
  reservations_foldl_of_reserve hres (fun ts hts => (h.reserve key ts hts).1) (h.release key) s

lemma PrewriteBatch.reservations_other (hres : .reserve key startTs ∉ ops) :
    (ops.foldl apply s).reservations key = s.reservations key :=
  reservations_foldl_of_untouched (fun ts hts => hres ((h.reserve key ts hts).1 ▸ hts)) (h.release key) s

lemma PrewriteBatch.reserved (hs : Reserved s) (hacc : s.accepts ops) : Reserved (ops.foldl apply s) := by
  intro e he hintent
  obtain hput | ⟨hold, -⟩ := mem_versions_foldl he
  · obtain ⟨hts, -, hres⟩ := h.intent e.1 e.2 hput
    rw [h.reservations_self hres, hts]
  · have hheld := hs e hold hintent
    by_cases hres : .reserve e.1 startTs ∈ ops
    · cases (not_fails_of_accepts hacc hres).symm.trans hheld
    · rw [h.reservations_other hres, hheld]

end
section
variable (h : ResolveBatch s startTs commitTs ops)
include h

lemma ResolveBatch.reservations (key : RowKey) :
    (ops.foldl apply s).reservations key = s.reservations key ∨
      s.reservations key = some startTs ∧ (ops.foldl apply s).reservations key = none := by
  by_cases hrel : .release key ∈ ops
  · exact .inr ⟨(h.release key hrel).1, reservations_foldl_of_release (h.reserve key) hrel s⟩
  · exact .inl (reservations_foldl_of_untouched (h.reserve key) hrel s)

lemma ResolveBatch.reserved (hs : Reserved s) : Reserved (ops.foldl apply s) := by
  intro e he hintent
  obtain hput | ⟨hold, hkept⟩ := mem_versions_foldl he
  · exact absurd hintent (h.settled e.1 e.2 hput).2.1
  · have hheld := hs e hold hintent
    by_cases hrel : .release e.1 ∈ ops
    · -- The intent would be the transaction's own, which the batch settles.
      obtain ⟨hres, v, hv⟩ := h.release e.1 hrel
      cases hres.symm.trans hheld
      exact absurd (h.settled e.1 v hv).1 (hkept v hv)
    · rw [reservations_foldl_of_untouched (h.reserve e.1) hrel, hheld]

lemma ResolveBatch.congr {s' : TsStore α}
    (hs : ∀ key, s.reservations key = some startTs → s'.reservations key = some startTs) :
    ResolveBatch s' startTs commitTs ops where
  settled := fun key v hv => by
    obtain ⟨hts, hstate, hcommit, hres, hrel⟩ := h.settled key v hv
    exact ⟨hts, hstate, hcommit, hs key hres, hrel⟩
  reserve := h.reserve
  release := fun key hrel => ⟨hs key (h.release key hrel).1, (h.release key hrel).2⟩

end
end Batches

/-! ## What is recorded of the commits -/

lemma commitTs?_of_committed? {v : TsVersion α} {c : CommittedWrite α} (h : v.committed? key = some c) :
    c.key = key ∧ c.startTs = v.startTs ∧ v.state.commitTs? = some c.commitTs := by
  unfold TsVersion.committed? at h
  split at h <;> cases h <;> simp_all [TsVersionState.commitTs?]

/-- The store has the newest commit of each row, and nothing else that is committed; a row is released by then. -/
structure Recorded (s : TsStore α) (commits : List (CommittedWrite α)) : Prop where
  kept : ∀ c ∈ commits, ∃ v, (c.key, v) ∈ s.versions ∧ ∃ later, v.state.commitTs? = some later ∧ c.commitTs ≤ later
  listed : ∀ e ∈ s.versions, ∀ c, e.2.committed? e.1 = some c → c ∈ commits
  released : ∀ e ∈ s.versions, e.2.state.commitTs?.isSome → s.reservations e.1 ≠ some e.2.startTs

section Recorded
variable {s : TsStore α} {startTs : ℕ} {ops : List (TsOp α)} {commits : List (CommittedWrite α)}
variable {free : RowKey → Prop} {commitTs : Option ℕ}

lemma mem_committed {c : CommittedWrite α} (h : c ∈ ops.filterMap committed?) :
    ∃ v, .putVersion c.key v ∈ ops ∧ v.committed? c.key = some c := by
  obtain ⟨op, hop, hc⟩ := mem_filterMap.mp h
  cases op with
  | putVersion key v =>
    obtain rfl := (commitTs?_of_committed? hc).1
    exact ⟨v, hop, hc⟩
  | _ => cases hc

lemma not_isSome_of_intent {v : TsVersion α} (h : v.state = .intent) : ¬v.state.commitTs?.isSome := by
  simp [h, TsVersionState.commitTs?]

/-- A prewrite of a transaction that has committed nothing leaves the commits alone. -/
lemma Recorded.prewrite (h : Recorded s commits) (hb : PrewriteBatch free startTs ops)
    (hfresh : ∀ e ∈ s.versions, e.2.state.commitTs?.isSome → e.2.startTs ≠ startTs) :
    Recorded (ops.foldl apply s) commits := by
  have hold : ∀ e ∈ (ops.foldl apply s).versions, e.2.state.commitTs?.isSome → e ∈ s.versions := by
    intro e he hcommit
    obtain hput | ⟨hold, -⟩ := mem_versions_foldl he
    · exact absurd hcommit (not_isSome_of_intent (hb.intent e.1 e.2 hput).2.1)
    · exact hold
  refine ⟨fun c hc => ?_, fun e he c hc => ?_, fun e he hcommit => ?_⟩
  · obtain ⟨v, hv, later, hlater, hle⟩ := h.kept c hc
    refine ⟨v, mem_versions_foldl_of_untouched hv fun v' hv' heq => ?_, later, hlater, hle⟩
    exact hfresh _ hv (by simp [hlater]) (heq.symm.trans (hb.intent _ v' hv').1)
  · exact h.listed e (hold e he (by simp [(commitTs?_of_committed? hc).2.2])) c hc
  · have he := hold e he hcommit
    by_cases hres : .reserve e.1 startTs ∈ ops
    · rw [hb.reservations_self hres]
      exact fun heq => hfresh e he hcommit (Option.some.inj heq).symm
    · rw [hb.reservations_other hres]
      exact h.released e he hcommit

lemma Recorded.resolve (h : Recorded s commits) (hb : ResolveBatch s startTs commitTs ops) :
    Recorded (ops.foldl apply s) (commits ++ ops.filterMap committed?) := by
  refine ⟨fun c hc => ?_, fun e he c hc => ?_, fun e he hcommit => ?_⟩
  · obtain hc | hc := mem_append.mp hc
    · obtain ⟨v, hv, later, hlater, hle⟩ := h.kept c hc
      refine ⟨v, mem_versions_foldl_of_untouched hv fun v' hv' heq => ?_, later, hlater, hle⟩
      -- What is settled is reserved, and the row of a committed version is not.
      obtain ⟨hts, -, -, hres, -⟩ := hb.settled _ v' hv'
      exact h.released _ hv (by simp [hlater]) (hres.trans (by rw [← hts, heq]))
    · obtain ⟨v, hv, hcommit⟩ := mem_committed hc
      obtain ⟨v', hv', hput⟩ := exists_version_foldl hv s
      refine ⟨v', hv', c.commitTs, ?_, le_rfl⟩
      rw [(hb.settled _ v' hput).2.2.1, ← (hb.settled _ v hv).2.2.1]
      exact (commitTs?_of_committed? hcommit).2.2
  · obtain hput | ⟨hold, -⟩ := mem_versions_foldl he
    · exact mem_append_right _ (mem_filterMap.mpr ⟨_, hput, hc⟩)
    · exact mem_append_left _ (h.listed e hold c hc)
  · obtain hput | ⟨hold, -⟩ := mem_versions_foldl he
    · rw [reservations_foldl_of_release (hb.reserve e.1) (hb.settled _ _ hput).2.2.2.2]
      nofun
    · obtain heq | ⟨-, hnone⟩ := hb.reservations e.1
      · rw [heq]
        exact h.released e hold hcommit
      · rw [hnone]
        nofun

/-- The newest version of a row is never dead. -/
lemma exists_kept_version {e : RowKey × TsVersion α} (he : e ∈ s.versions) {first : ℕ}
    (hfirst : e.2.state.commitTs? = some first) (keys : List (RowKey × ℕ)) (floor : ℕ) :
    ∃ v, (e.1, v) ∈ (s.prune keys floor).versions ∧ ∃ later, v.state.commitTs? = some later ∧ first ≤ later := by
  let row := s.versions.filter fun e' => e'.1 = e.1
  let stamp (e' : RowKey × TsVersion α) : WithBot ℕ := e'.2.state.commitTs?
  have hrow : e ∈ row := mem_filter.mpr ⟨he, by simp⟩
  obtain ⟨y, hy⟩ := Option.ne_none_iff_exists'.mp (mt argmax_eq_none.mp (ne_nil_of_mem hrow) : row.argmax stamp ≠ none)
  obtain ⟨hmem, hkey⟩ := mem_filter.mp (argmax_mem hy)
  have hkey : y.1 = e.1 := by simpa using hkey
  have hle : stamp e ≤ stamp y := le_of_mem_argmax hrow hy
  rw [show stamp e = first from hfirst] at hle
  obtain ⟨later, hlater, hle⟩ : ∃ later, y.2.state.commitTs? = some later ∧ first ≤ later := WithBot.coe_le_iff.mp hle
  refine ⟨y.2, mem_filter.mpr ⟨hkey ▸ hmem, Bool.or_eq_true_iff.mpr (.inr ?_)⟩, later, hlater, hle⟩
  simp only [hlater, Option.any_some, Bool.not_eq_true', any_eq_false, Bool.and_eq_true, decide_eq_true_eq,
    Option.any_eq_true, not_and, not_exists]
  intro e' he' hkey' later' hlater' hlt
  have hmax : stamp e' ≤ stamp y := le_of_mem_argmax (mem_filter.mpr ⟨he', by simpa using hkey'⟩) hy
  rw [show stamp e' = later' from hlater', show stamp y = later from hlater] at hmax
  exact absurd (WithBot.coe_le_coe.mp hmax) (not_le.mpr hlt)

lemma prune_subset {keys : List (RowKey × ℕ)} {floor : ℕ} : (s.prune keys floor).versions ⊆ s.versions :=
  filter_subset_self _

lemma Recorded.prune (h : Recorded s commits) (keys : List (RowKey × ℕ)) (floor : ℕ) :
    Recorded (s.prune keys floor) commits := by
  refine ⟨fun c hc => ?_, fun e he => h.listed e (prune_subset he), fun e he => h.released e (prune_subset he)⟩
  obtain ⟨v, hv, first, hfirst, hle⟩ := h.kept c hc
  obtain ⟨v', hv', later, hlater, hle'⟩ := exists_kept_version hv hfirst keys floor
  exact ⟨v', hv', later, hlater, hle.trans hle'⟩

/-- The check sees every commit of a row without a bucket. -/
lemma Recorded.le_of_checked (h : Recorded s commits) {writes : List (TimestampWrite α)} {key : RowKey}
    (hchecked : CheckedBy s startTs writes key) (hbare : key.bucket = none) :
    ∀ c ∈ commits, c.key = key → c.commitTs ≤ startTs := by
  rintro c hc rfl
  obtain ⟨write, -, hkey, hwin⟩ := hchecked
  obtain ⟨v, hv, later, hlater, hle⟩ := h.kept c hc
  unfold ensurePrewriteCanWin at hwin
  split at hwin
  · cases hwin
  · rename_i hnone
    refine hle.trans (not_lt.mp fun hlt => hnone (any_eq_true.mpr ⟨_, hv, ?_⟩))
    rw [hkey, Bool.and_eq_true]
    refine ⟨by simp [RowKey.startsWith, hbare], ?_⟩
    unfold TsVersion.beats
    cases hstate : v.state <;> simp_all [TsVersionState.commitTs?]

end Recorded

/-! ## The invariant -/

/-- What is known of a batch that is not applied: a prewrite has seen all commits of its rows but those since the check. -/
def BatchOk (s : TsStore α) (commits since : List (CommittedWrite α)) (finishing : Bool) (startTs : ℕ)
    (ops : List (TsOp α)) : Prop :=
  finishing = false ∧ PrewriteBatch (fun key => ∀ c ∈ commits, c.key = key → c.commitTs < startTs ∨ c ∈ since)
    startTs ops ∨
  finishing = true ∧ ∃ commitTs, ResolveBatch s startTs commitTs ops

/-- The invariant of a run: reservations guard intents, commits are recorded, and committed intervals of a row are
apart. -/
structure TxnInv (w : TxnWorld α) : Prop where
  reserved : Reserved w.store
  recorded : Recorded w.store w.commits
  finished : ∀ e ∈ w.store.versions, e.2.state.commitTs?.isSome → w.finishing e.2.startTs = true
  batch : ∀ startTs call ops, w.phase startTs = .built call ops →
    BatchOk w.store w.commits (w.since startTs) (w.finishing startTs) startTs ops
  clear : ∀ key startTs, w.store.reservations key = some startTs →
    ∀ c ∈ w.commits, c.key = key → c.startTs ≠ startTs → c.commitTs < startTs
  apart : ∀ a ∈ w.commits, ∀ b ∈ w.commits, a.key = b.key → a.startTs ≠ b.startTs →
    a.commitTs < b.startTs ∨ b.commitTs < a.startTs

lemma txnInv_start : TxnInv ({} : TxnWorld α) :=
  ⟨by simp [Reserved], ⟨by simp, by simp, by simp⟩, by simp, by simp, by simp, by simp⟩

variable {w : TxnWorld α}

/-- Steps that apply no batch. -/
lemma TxnInv.sameStore {w' : TxnWorld α} (h : TxnInv w)
    (hres : w'.store.reservations = w.store.reservations) (hver : w'.store.versions ⊆ w.store.versions)
    (hrec : Recorded w'.store w.commits) (hcommits : w'.commits = w.commits)
    (hfinishing : ∀ ts, w.finishing ts = true → w'.finishing ts = true)
    (hbatch : ∀ startTs call ops, w'.phase startTs = .built call ops →
      BatchOk w.store w.commits (w'.since startTs) (w'.finishing startTs) startTs ops) : TxnInv w' where
  reserved := fun e he hintent => hres ▸ h.reserved e (hver he) hintent
  recorded := hcommits ▸ hrec
  finished := fun e he hcommit => hfinishing _ (h.finished e (hver he) hcommit)
  batch := fun startTs call ops hp => by
    rw [hcommits]
    exact (hbatch startTs call ops hp).imp_right fun ⟨hf, commitTs, hb⟩ =>
      ⟨hf, commitTs, hb.congr fun _ hk => hres ▸ hk⟩
  clear := fun key startTs hk c hc => h.clear key startTs (hres ▸ hk) c (hcommits ▸ hc)
  apart := hcommits ▸ h.apart

lemma TxnInv.build (h : TxnInv w) (hid : ∀ p ∈ call.prewrites, ∀ i ∈ p.2, i.startTs = startTs)
    (hopen : call.prewrites.isSome → w.finishing startTs = false) (hok : Undisturbed w (.build startTs call)) :
    TxnInv (w.build rangeId startTs call) := by
  refine h.sameStore rfl (fun _ he => he) h.recorded rfl (fun ts hts => ?_) fun ts call' ops hp => ?_
  · obtain rfl | hne := eq_or_ne ts startTs
    · exact (update_self ..).trans (by rw [hts, Bool.true_or])
    · exact (update_of_ne hne ..).trans hts
  obtain rfl | hts := eq_or_ne ts startTs
  · dsimp only [TxnWorld.build] at hp ⊢
    rw [update_self] at hp
    rw [update_self, update_self]
    split at hp
    · rename_i hbuild
      obtain ⟨rfl, rfl⟩ := Phase.built.inj hp
      obtain ⟨p, hp, hb⟩ | ⟨hnone, hb⟩ := batch_of_build h.reserved hid hbuild
      · simp only [Undisturbed, hp, Option.all_some, Bool.and_eq_true, all_eq_true, decide_eq_true_eq] at hok
        refine .inl ⟨by rw [hopen (by rw [hp]; rfl), hp]; rfl, hb.imp fun key _ hchecked c hc hkey => .inl ?_⟩
        have hbare : key.bucket = none := by
          obtain ⟨write, hwrite, rfl, -⟩ := hchecked
          exact hok.1 write hwrite
        exact lt_of_le_of_ne (h.recorded.le_of_checked hchecked hbare c hc hkey) (hok.2 c hc)
      · exact .inr ⟨by rw [hnone]; exact Bool.or_true _, hb⟩
    · cases hp
  · have hsince : (w.build rangeId startTs call).since ts = w.since ts := update_of_ne hts ..
    have hfin : (w.build rangeId startTs call).finishing ts = w.finishing ts := update_of_ne hts ..
    rw [hsince, hfin]
    exact h.batch ts call' ops ((update_of_ne hts ..).symm.trans hp)

variable {phase : Phase α}
section
variable (h : TxnInv w)
include h

lemma TxnInv.batch_other (hphase : ∀ call ops, phase ≠ .built call ops) {ts : ℕ}
    (hp : Function.update w.phase startTs phase ts = .built call ops) {store : TsStore α}
    (hres : ∀ key, ts ≠ startTs → w.store.reservations key = some ts → store.reservations key = some ts)
    (new : List (CommittedWrite α)) :
    BatchOk store (w.commits ++ new) (w.since ts ++ new) (w.finishing ts) ts ops := by
  obtain rfl | hts := eq_or_ne ts startTs
  · exact absurd ((update_self ..).symm.trans hp) (hphase call ops)
  obtain ⟨hf, hb⟩ | ⟨hf, commitTs, hb⟩ := h.batch ts call ops ((update_of_ne hts ..).symm.trans hp)
  · refine .inl ⟨hf, hb.imp fun key _ hfree c hc hkey => ?_⟩
    obtain hc | hc := mem_append.mp hc
    · exact (hfree c hc hkey).imp_right (mem_append_left _)
    · exact .inr (mem_append_right _ hc)
  · exact .inr ⟨hf, commitTs, hb.congr fun key hk => hres key hts hk⟩

/-- The batch of a prewrite is applied: the rows were free, and their commits are before the start. -/
lemma TxnInv.writePrewrite (hopen : w.finishing startTs = false)
    (hb : PrewriteBatch (fun key => ∀ c ∈ w.commits, c.key = key → c.commitTs < startTs) startTs ops)
    (hacc : w.store.accepts ops) (hphase : ∀ call ops, phase ≠ .built call ops) :
    TxnInv { w with
      store := ops.foldl apply w.store
      phase := Function.update w.phase startTs phase } := by
  have hfresh : ∀ e ∈ w.store.versions, e.2.state.commitTs?.isSome → e.2.startTs ≠ startTs := fun e he hcommit heq =>
    Bool.false_ne_true (hopen.symm.trans (heq ▸ h.finished e he hcommit))
  refine ⟨hb.reserved h.reserved hacc, h.recorded.prewrite hb hfresh, fun e he hcommit => ?_,
    fun ts call ops' hp => ?_, fun key ts hk c hc hkey hne => ?_, h.apart⟩
  · obtain hput | ⟨hold, -⟩ := mem_versions_foldl he
    · exact absurd hcommit (not_isSome_of_intent (hb.intent e.1 e.2 hput).2.1)
    · exact h.finished e hold hcommit
  · have hother : BatchOk (ops.foldl apply w.store) (w.commits ++ []) (w.since ts ++ []) (w.finishing ts) ts ops' :=
      h.batch_other hphase hp (fun key _ hk => ?_) []
    · simpa only [append_nil] using hother
    rw [hb.reservations_other fun hres => ?_]
    · exact hk
    · cases (not_fails_of_accepts hacc hres).symm.trans hk
  · by_cases hres : .reserve key startTs ∈ ops
    · obtain rfl : startTs = ts := Option.some.inj ((hb.reservations_self hres).symm.trans hk)
      exact (hb.reserve key startTs hres).2 c hc hkey
    · exact h.clear key ts ((hb.reservations_other hres).symm.trans hk) c hc hkey hne

lemma TxnInv.writeResolve (hfinishing : w.finishing startTs = true) {commitTs : Option ℕ}
    (hb : ResolveBatch w.store startTs commitTs ops) (hphase : ∀ call ops, phase ≠ .built call ops) :
    TxnInv { w with
      store := ops.foldl apply w.store
      phase := Function.update w.phase startTs phase
      commits := w.commits ++ ops.filterMap committed?
      since := fun ts => w.since ts ++ ops.filterMap committed? } := by
  have hnew : ∀ c ∈ ops.filterMap committed?, c.startTs = startTs ∧ w.store.reservations c.key = some startTs := by
    intro c hc
    obtain ⟨v, hv, hcommit⟩ := mem_committed hc
    obtain ⟨hstart, -, -, hres, -⟩ := hb.settled c.key v hv
    exact ⟨(commitTs?_of_committed? hcommit).2.1.trans hstart, hres⟩
  -- An earlier commit of the same row is before the start of the transaction that commits now.
  have hbefore : ∀ c ∈ ops.filterMap committed?, ∀ c' ∈ w.commits, c'.key = c.key →
      c'.startTs ≠ c.startTs → c'.commitTs < c.startTs := by
    intro c hc c' hc' hkey hne
    obtain ⟨hts, hres⟩ := hnew c hc
    rw [hts] at hne ⊢
    exact h.clear c.key startTs hres c' hc' hkey hne
  refine ⟨hb.reserved h.reserved, h.recorded.resolve hb, fun e he hcommit => ?_, fun ts call ops' hp => ?_,
    fun key ts hk c hc hkey hne => ?_, fun a ha b hb' hkey hne => ?_⟩
  · obtain hput | ⟨hold, -⟩ := mem_versions_foldl he
    · exact (hb.settled e.1 e.2 hput).1 ▸ hfinishing
    · exact h.finished e hold hcommit
  · refine h.batch_other hphase hp (fun key hts hk => ?_) _
    obtain heq | ⟨hown, -⟩ := hb.reservations key
    · exact heq.trans hk
    · exact absurd (Option.some.inj (hk.symm.trans hown)) hts
  · have hk' : w.store.reservations key = some ts := by
      obtain heq | ⟨-, hnone⟩ := hb.reservations key
      · exact heq.symm.trans hk
      · cases hnone.symm.trans hk
    obtain hc | hc := mem_append.mp hc
    · exact h.clear key ts hk' c hc hkey hne
    · obtain ⟨hts, hres⟩ := hnew c hc
      rw [hkey] at hres
      exact absurd (hts.trans (Option.some.inj (hres.symm.trans hk'))) hne
  · obtain ha | ha := mem_append.mp ha
    · obtain hb' | hb' := mem_append.mp hb'
      · exact h.apart a ha b hb' hkey hne
      · exact .inl (hbefore b hb' a ha hkey hne)
    · obtain hb' | hb' := mem_append.mp hb'
      · exact .inr (hbefore a ha b hb' hkey.symm (Ne.symm hne))
      · exact absurd ((hnew a ha).1.trans (hnew b hb').1.symm) hne

omit h in
lemma committed_eq_nil_of_prewrite {free : RowKey → Prop} (h : PrewriteBatch free startTs ops) :
    ops.filterMap committed? = [] := by
  refine filterMap_eq_nil_iff.mpr fun op hop => ?_
  cases op with
  | putVersion key v => simp [committed?, TsVersion.committed?, (h.intent key v hop).2.1]
  | _ => rfl

/-- The phase of one transaction changes, and it has no batch. -/
lemma TxnInv.idle (hphase : ∀ call ops, phase ≠ .built call ops) (prewritten : List (ℕ × RowKey)) :
    TxnInv { w with
      phase := Function.update w.phase startTs phase
      prewritten } := by
  refine h.sameStore rfl (fun _ he => he) h.recorded rfl (fun _ hts => hts) fun ts call ops hp => ?_
  simpa only [append_nil] using h.batch_other hphase hp (fun _ _ hk => hk) []

lemma TxnInv.write (hok : Undisturbed w (.write startTs)) : TxnInv (w.write startTs) := by
  unfold TxnWorld.write
  dsimp only [Undisturbed] at hok
  split
  · rename_i call ops hphase
    rw [hphase] at hok
    have hidle : ∀ call' ops', (if call.prewrites.isSome then Phase.verifying call else .idle) ≠
        .built call' ops' := by
      intro call' ops'
      split <;> nofun
    cases hacc : w.store.accepts ops with
    | false =>
      simp only [TsStore.writeBatch, TsStore.committedBy, hacc, Bool.false_eq_true, if_false, append_nil]
      exact h.idle hidle w.prewritten
    | true =>
      simp only [TsStore.writeBatch, TsStore.committedBy, hacc, if_true]
      obtain ⟨hopen, hb⟩ | ⟨hfinishing, commitTs, hb⟩ := h.batch startTs call ops hphase
      · simp only [committed_eq_nil_of_prewrite hb, append_nil]
        refine h.writePrewrite hopen (hb.imp fun key hres hfree c hc hkey => ?_) hacc hidle
        refine (hfree c hc hkey).resolve_right fun hsince => ?_
        have hnone := all_eq_true.mp (all_eq_true.mp hok _ hres) c hsince
        exact of_decide_eq_true hnone hkey
      · exact h.writeResolve hfinishing hb hidle
  · exact h

lemma TxnInv.verify (rangeId startTs : ℕ) : TxnInv (w.verify rangeId startTs) := by
  unfold TxnWorld.verify
  split
  · exact h.idle (by nofun) _
  · exact h

/-- Every undisturbed step keeps the invariant. -/
lemma TxnInv.step {l : TxnEvent α} (hen : (txnSys α rangeId).enabled w l) (hok : Undisturbed w l) :
    TxnInv ((txnSys α rangeId).next w l) := by
  cases l with
  | build startTs call =>
    have hen : TxnEvent.enabled w (.build startTs call) := hen
    simp only [TxnEvent.enabled, Bool.and_eq_true] at hen
    have hprewrite := hen.1.2
    refine h.build (fun p hp i hi => ?_) (fun hsome => ?_) hok
    · rw [Option.mem_def.mp hp] at hprewrite
      simp only [Bool.and_eq_true] at hprewrite
      simpa [Option.mem_def.mp hi] using hprewrite.2
    · obtain ⟨p, hp⟩ := Option.isSome_iff_exists.mp hsome
      rw [hp] at hprewrite
      simpa using (Bool.and_eq_true_iff.mp hprewrite).1
  | write startTs => exact h.write hok
  | verify startTs => exact h.verify rangeId startTs
  | prune keys floor =>
    exact h.sameStore rfl prune_subset (h.recorded.prune keys floor) rfl (fun _ hts => hts) h.batch

end

/-- **First committer wins**: committed writes of one row by different transactions are disjoint in time, in every run
in which no row of a prewrite is committed between its check and its batch. -/
theorem first_committer_wins {rangeId : ℕ} {w : TxnWorld α}
    (hrun : (txnSys α rangeId).Run (fun w l => Undisturbed w l = true) {} w) {a b : CommittedWrite α}
    (ha : a ∈ w.commits) (hb : b ∈ w.commits) (hkey : a.key = b.key) (hne : a.startTs ≠ b.startTs) :
    a.commitTs < b.startTs ∨ b.commitTs < a.startTs :=
  (hrun.preserves (P := TxnInv) (fun _ _ h hen hok => h.step hen hok) txnInv_start).apart a ha b hb hkey hne

def writeSeven (row : ℕ) : TimestampWrite ℕ := ⟨⟨1, none, 7⟩, row, false⟩

def oneTxn (startTs commitTs row : ℕ) : List (TxnEvent ℕ) :=
  [.build startTs (.prewrite [writeSeven row]), .write startTs, .verify startTs,
    .build startTs (.commit commitTs [writeSeven row]), .write startTs]

/-- Two transactions write the row one after the other. -/
theorem first_committer_wins_oneAfterTheOther :
    (⟨5, ⟨1, none, 7⟩, 10, some 1⟩ : CommittedWrite ℕ) ∈
        ((txnSys ℕ 0).execs {} (oneTxn 5 10 1 ++ oneTxn 11 12 2)).commits ∧ (10 < 11 ∨ 12 < 5) := by
  have hrun : (txnSys ℕ 0).Run (fun w l => Undisturbed w l) {}
      ((txnSys ℕ 0).execs {} (oneTxn 5 10 1 ++ oneTxn 11 12 2)) :=
    Sys.run_of_runsOk
  have hmem : (⟨5, ⟨1, none, 7⟩, 10, some 1⟩ : CommittedWrite ℕ) ∈
      ((txnSys ℕ 0).execs {} (oneTxn 5 10 1 ++ oneTxn 11 12 2)).commits := by decide +kernel
  have hmem' : (⟨11, ⟨1, none, 7⟩, 12, some 2⟩ : CommittedWrite ℕ) ∈
      ((txnSys ℕ 0).execs {} (oneTxn 5 10 1 ++ oneTxn 11 12 2)).commits := by decide +kernel
  exact ⟨hmem, first_committer_wins hrun hmem hmem' rfl (by decide)⟩

/-- The second transaction runs between the check and the commit of the first one's batch. -/
def checkedTooEarly : List (TxnEvent ℕ) :=
  .build 5 (.prewrite [writeSeven 1]) :: oneTxn 6 10 2 ++
    [.write 5, .verify 5, .build 5 (.commit 12 [writeSeven 1]), .write 5]

/-- The row is committed between the check and the batch of another prewrite. -/
theorem overlapping_commits :
    (txnSys ℕ 0).AnyRun {} ((txnSys ℕ 0).execs {} checkedTooEarly) ∧
      ((txnSys ℕ 0).execs {} checkedTooEarly).prewritten = [(6, ⟨1, none, 7⟩), (5, ⟨1, none, 7⟩)] ∧
      ((txnSys ℕ 0).execs {} checkedTooEarly).commits =
        [⟨6, ⟨1, none, 7⟩, 10, some 2⟩, ⟨5, ⟨1, none, 7⟩, 12, some 1⟩] :=
  ⟨Sys.run_of_runs, by decide +kernel⟩

end Crabka.Pgexec
