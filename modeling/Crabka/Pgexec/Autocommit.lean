import Crabka.Pgexec.FirstCommitter
import Crabka.Pgexec.TsScan

/-!
# Autocommit statements on a sharded table

`run_sharded_timestamp_autocommit` of `crates/pgexec/src/session.rs`: a statement scans the table, then takes its
start and commit timestamps, prewrites and commits. The scan sees the last committed value of each row
(`mem_planOf`), but it is older than the start timestamp that the prewrite is checked against. So what a statement
needs is that no row it writes is committed between its scan and its prewrite (`NotOvertaken`); from then on its
reservation keeps the row. Then no update is lost (`no_lost_update`).
-/

namespace Crabka.Pgexec
open Found List
variable {α : Type}

/-! ## Statements -/

/-- What an autocommit statement does to a row. -/
inductive Statement (α : Type) where
  /-- The new row, or none for a row that the filter or a trigger leaves out. -/
  | update (assign : α → Option α)
  | delete (filter : α → Bool)

/-- What the statement makes of a row: nothing, or the new row, which is none for a delete. -/
def Statement.apply : Statement α → α → Option (Option α)
  | .update assign, row => (assign row).map some
  | .delete filter, row => if filter row then some none else none

/-- A row that the statement writes, with the value that was read. -/
structure PlanRow (α : Type) where
  rowid : ℕ
  read : α
  wrote : Option α

/-- `TimestampWritePlan`, row by row. -/
structure WritePlan (α : Type) where
  tableId : ℕ
  statement : Statement α
  rows : List (PlanRow α)

/-- The row after the write. -/
def TimestampWrite.outcome (write : TimestampWrite α) : Option α := if write.delete then none else some write.row

section Plans
variable (bucketOf : α → Option ℕ)

/-- The key under which a row with this value is stored (`hash_bucket_for_row`). -/
def keyOf (tableId rowid : ℕ) (row : α) : RowKey := ⟨tableId, bucketOf row, rowid⟩

/-- The scan and the loop of `execute_timestamp_update` and `execute_timestamp_delete`. -/
def planOf (store : TsStore α) (tableId : ℕ) (statement : Statement α) : WritePlan α :=
  let scanned := scanTsLiveInterval store store.descriptors tableId (2 ^ 64 - 1) none {}
  ⟨tableId, statement, scanned.filterMap fun r => (statement.apply r.row).map fun wrote =>
    ⟨r.rowid, r.row, wrote⟩⟩

/-- The writes of one row: an update that moves the row to another bucket deletes it in the old one. -/
def PlanRow.writes (tableId : ℕ) (p : PlanRow α) : List (TimestampWrite α) := match p.wrote with
  | none => [⟨keyOf bucketOf tableId p.rowid p.read, p.read, true⟩]
  | some next =>
    (if bucketOf p.read ≠ bucketOf next then [⟨keyOf bucketOf tableId p.rowid p.read, p.read, true⟩]
      else []) ++ [⟨keyOf bucketOf tableId p.rowid next, next, false⟩]

def WritePlan.writes (plan : WritePlan α) : List (TimestampWrite α) :=
  plan.rows.flatMap (PlanRow.writes bucketOf plan.tableId)

end Plans

/-! ## Runs -/

/-- A plan with both timestamps of its transaction. -/
structure Timed (α : Type) where
  plan : WritePlan α
  startTs : ℕ
  commitTs : ℕ

/-- How far a statement is; each phase ends where the statement waits for the store or the timestamp source. -/
inductive StmtPhase (α : Type) where
  | idle
  | planned (plan : WritePlan α)
  | started (plan : WritePlan α) (startTs : ℕ)
  | timed (x : Timed α)
  | prewriting (x : Timed α) (ops : List (TsOp α))
  /-- The batch was handed in; whether the store has taken it is read back. -/
  | verifying (x : Timed α) (taken : Bool)
  | ready (x : Timed α)
  | committing (x : Timed α) (ops : List (TsOp α))
  | aborting (x : Timed α) (ops : List (TsOp α))

namespace StmtPhase

def startTs? : StmtPhase α → Option ℕ
  | .idle | .planned _ => none
  | .started _ startTs => some startTs
  | .timed x | .prewriting x _ | .verifying x _ | .ready x | .committing x _ | .aborting x _ =>
    some x.startTs

/-- The start timestamp of a statement that has prewritten nothing. -/
def early? : StmtPhase α → Option ℕ
  | .started _ startTs => some startTs
  | .timed x | .prewriting x _ | .verifying x false => some x.startTs
  | _ => none

/-- The statement, from the prewrite until it is settled. -/
def holding? : StmtPhase α → Option (Timed α)
  | .verifying x true | .ready x | .committing x _ => some x
  | _ => none

def timed? : StmtPhase α → Option (Timed α)
  | .timed x | .prewriting x _ | .verifying x _ | .ready x | .committing x _ | .aborting x _ => some x
  | _ => none

def plan? : StmtPhase α → Option (WritePlan α)
  | .idle => none
  | .planned plan | .started plan _ => some plan
  | .timed x | .prewriting x _ | .verifying x _ | .ready x | .committing x _ | .aborting x _ => some x.plan

/-- The plan of a statement that has handed in nothing. -/
def waiting? : StmtPhase α → Option (WritePlan α)
  | .planned plan | .started plan _ => some plan
  | .timed x | .prewriting x _ => some x.plan
  | _ => none

end StmtPhase

/-- What a committed statement did to a row. -/
structure Effect (α : Type) where
  tableId : ℕ
  commitTs : ℕ
  statement : Statement α
  row : PlanRow α

/-- The store with the statements over it, the history of commits, and what each statement has done. -/
structure StmtWorld (α : Type) where
  store : TsStore α
  /-- The last timestamp that the source has given. -/
  clock : ℕ
  /-- The writes that were committed to the store. -/
  commits : List (CommittedWrite α)
  /-- Those since the scan of a statement. -/
  since : ℕ → List (CommittedWrite α) := fun _ => []
  phase : ℕ → StmtPhase α := fun _ => .idle
  effects : List (Effect α) := []

/-- One statement moves on by one phase; or versions are pruned. -/
inductive StmtEvent (α : Type) where
  | scan (i : ℕ) (tableId : ℕ) (statement : Statement α)
  | allocateStart (i startTs : ℕ)
  | allocateCommit (i commitTs : ℕ)
  | buildPrewrite (i : ℕ)
  /-- The batch is committed. -/
  | write (i : ℕ)
  | verify (i : ℕ)
  | buildCommit (i : ℕ)
  | buildAbort (i : ℕ)
  /-- Dead versions are deleted and the reclaim floor is raised. -/
  | prune (keys : List (RowKey × ℕ)) (floor : ℕ)

def Timed.effects (x : Timed α) : List (Effect α) :=
  x.plan.rows.map fun p => ⟨x.plan.tableId, x.commitTs, x.plan.statement, p⟩

def StmtWorld.move (w : StmtWorld α) (i : ℕ) (phase : StmtPhase α) : StmtWorld α :=
  { w with phase := Function.update w.phase i phase }

section Systems
variable (bucketOf : α → Option ℕ)

/-- The next phase of a statement that does not write to the store; an error ends it, except that a failed
commit is followed by an abort. -/
def stmtStep (w : StmtWorld α) : StmtEvent α → StmtWorld α
  | .scan i tableId statement =>
    { w.move i (.planned (planOf w.store tableId statement)) with since := Function.update w.since i [] }
  | .allocateStart i startTs => match w.phase i with
    | .planned plan => { w.move i (.started plan startTs) with clock := startTs }
    | _ => w
  | .allocateCommit i commitTs => match w.phase i with
    | .started plan startTs => { w.move i (.timed ⟨plan, startTs, commitTs⟩) with clock := commitTs }
    | _ => w
  | .buildPrewrite i => match w.phase i with
    | .timed x => match prewriteOps w.store x.startTs (x.plan.writes bucketOf) with
      | .ok ops => w.move i (.prewriting x ops)
      | .error _ => w.move i .idle
    | _ => w
  | .write i => match w.phase i with
    | .prewriting x ops =>
      { w.move i (.verifying x (w.store.accepts ops)) with store := w.store.writeBatch ops }
    | .committing x ops =>
      { w.move i .idle with
        store := w.store.writeBatch ops
        commits := w.commits ++ w.store.committedBy ops
        since := fun j => w.since j ++ w.store.committedBy ops
        effects := w.effects ++ if w.store.accepts ops then x.effects else [] }
    | .aborting _ ops => { w.move i .idle with store := w.store.writeBatch ops }
    | _ => w
  | .verify i => match w.phase i with
    | .verifying x _ =>
      let verified := (x.plan.writes bucketOf).all fun write =>
        w.store.reservations write.key = some x.startTs
      w.move i (if verified then .ready x else .idle)
    | _ => w
  | .buildCommit i => match w.phase i with
    | .ready x => match resolveCommitOps w.store x.startTs x.commitTs (x.plan.writes bucketOf) with
      | .ok ops => w.move i (.committing x ops)
      | .error _ => match resolveOps w.store x.startTs .aborted (x.plan.writes bucketOf) with
        | .ok ops => w.move i (.aborting x ops)
        | .error _ => w.move i .idle
    | _ => w
  | .buildAbort i => match w.phase i with
    | .ready x => match resolveOps w.store x.startTs .aborted (x.plan.writes bucketOf) with
      | .ok ops => w.move i (.aborting x ops)
      | .error _ => w.move i .idle
    | _ => w
  | .prune keys floor => { w with store := w.store.prune keys floor }

/-- A statement scans when it is new, and goes on only with something to write; the source of timestamps, which are
`u64`, increases. -/
def StmtEvent.enabled (w : StmtWorld α) : StmtEvent α → Bool
  | .scan i _ _ => match w.phase i with | .idle => true | _ => false
  | .allocateStart i startTs => match w.phase i with
    | .planned plan => !plan.rows.isEmpty && decide (w.clock < startTs ∧ startTs < 2 ^ 64)
    | _ => false
  | .allocateCommit i commitTs => match w.phase i with
    | .started _ _ => decide (w.clock < commitTs ∧ commitTs < 2 ^ 64)
    | _ => false
  | .buildPrewrite i => match w.phase i with | .timed _ => true | _ => false
  | .write i => match w.phase i with
    | .prewriting _ _ | .committing _ _ | .aborting _ _ => true
    | _ => false
  | .verify i => match w.phase i with | .verifying _ _ => true | _ => false
  | .buildCommit i | .buildAbort i => match w.phase i with | .ready _ => true | _ => false
  | .prune _ _ => true

def stmtSys : Sys (StmtWorld α) (StmtEvent α) := ⟨fun w l => l.enabled w = true, stmtStep bucketOf⟩

instance (w : StmtWorld α) (l : StmtEvent α) : Decidable ((stmtSys bucketOf).enabled w l) :=
  inferInstanceAs (Decidable (l.enabled w = true))

end Systems

/-! ## The condition -/

/-- No row of a prewrite that the store takes was committed since the scan, and the plan has each row once. -/
def NotOvertaken (bucketOf : α → Option ℕ) (w : StmtWorld α) : StmtEvent α → Bool
  | .write i => match w.phase i with
    | .prewriting x ops => !w.store.accepts ops ||
      decide ((x.plan.writes bucketOf).map TimestampWrite.key).Nodup && ops.all fun
        | .reserve key _ => (w.since i).all fun c => c.key ≠ key
        | _ => true
    | _ => true
  | _ => true

/-! ## What a scan sees -/

/-- The value was committed last, as far as the other commits are concerned. -/
def Latest (commits others : List (CommittedWrite α)) (key : RowKey) (read : α) : Prop :=
  ∃ c ∈ commits, c.key = key ∧ c.row = some read ∧
    ∀ c' ∈ commits, c'.key = key → c'.commitTs ≤ c.commitTs ∨ c' ∈ others

lemma candidate_of_no_descriptors {store : TsStore α} (hd : ∀ ts, store.descriptors ts = none) {key : RowKey}
    (v : TsVersion α) (readTs : ℕ) : candidate store store.descriptors readTs none key v =
      (v.committed? key).bind fun c => if c.commitTs ≤ readTs then some (c.commitTs, c.row) else none := by
  have hnone : primaryDecision store store.descriptors key v.startTs = none := by simp [primaryDecision, hd]
  unfold candidate TsVersion.committed?
  rw [hnone]
  cases v.state <;> rfl

variable {bucketOf : α → Option ℕ}

/-- The rows of a plan were read from the newest versions. -/
lemma mem_planOf {store : TsStore α} {commits : List (CommittedWrite α)} (hrec : Recorded store commits)
    (hd : ∀ ts, store.descriptors ts = none) (hplaced : ∀ e ∈ store.versions, e.1.bucket = bucketOf e.2.row)
    (hbound : ∀ c ∈ commits, c.commitTs < 2 ^ 64) {tableId : ℕ} {statement : Statement α} {p : PlanRow α}
    (hp : p ∈ (planOf store tableId statement).rows) :
    statement.apply p.read = some p.wrote ∧ Latest commits [] (keyOf bucketOf tableId p.rowid p.read) p.read := by
  obtain ⟨r, hr, hmap⟩ := mem_filterMap.mp hp
  obtain ⟨wrote, hwrote, rfl⟩ := Option.map_eq_some_iff.mp hmap
  refine ⟨hwrote, ?_⟩
  obtain ⟨key, hkey, hshown⟩ := mem_filterMap.mp ((mem_insertionSort _).mp hr)
  have htable : key.tableId = tableId := by
    have hin := mem_dedup.mp ((mem_insertionSort _).mp hkey)
    exact (of_decide_eq_true (mem_filter.mp hin).2).1
  unfold shownRow at hshown
  split at hshown
  · rename_i startTs commitTs row hvisible
    cases hshown
    obtain ⟨⟨v, hv, hcand⟩, hmax⟩ := visibleOf_spec hvisible
    have hv := mem_versionsOf.mp hv
    rw [candidate_of_no_descriptors hd] at hcand
    obtain ⟨c, hc, hif⟩ := Option.bind_eq_some_iff.mp hcand
    split at hif
    · obtain ⟨rfl, hcrow⟩ := Prod.mk.inj (Option.some.inj hif)
      obtain ⟨hckey, -, -⟩ := commitTs?_of_committed? hc
      have hrow : v.row = row := by
        unfold TsVersion.committed? at hc
        split at hc <;> cases hc <;> simp_all
      have hplace : keyOf bucketOf tableId key.rowid row = key := by
        rw [← hrow, keyOf, ← hplaced _ hv, ← htable]
      rw [hplace]
      refine ⟨c, hrec.listed _ hv c hc, hckey, hcrow, fun c' hc' hkey' => .inl ?_⟩
      obtain ⟨v', hv', later, hlater, hle⟩ := hrec.kept c' hc'
      rw [hkey'] at hv'
      obtain ⟨d, hd', hdts⟩ : ∃ d, v'.committed? key = some d ∧ d.commitTs = later := by
        unfold TsVersion.committed?
        cases hstate : v'.state <;> simp_all [TsVersionState.commitTs?]
      refine hle.trans (hdts ▸ hmax v' (mem_versionsOf.mpr hv') (d.commitTs, d.row) ?_)
      rw [candidate_of_no_descriptors hd, hd', Option.bind_some,
        if_pos (Nat.le_sub_one_of_lt (hbound d (hrec.listed _ hv' d hd')))]
      rfl
    · cases hif
  · cases hshown

/-! ## The batches of a statement -/

section Batches
variable {store : TsStore α} {x : Timed α} {ops : List (TsOp α)}

/-- A statement writes no descriptors. -/
def Plain (ops : List (TsOp α)) : Prop := ∀ d expected, .casDescriptor d expected ∉ ops

lemma descriptors_foldl (h : Plain ops) (s : TsStore α) : (ops.foldl TsOp.apply s).descriptors = s.descriptors := by
  refine foldlRecOn (motive := fun t : TsStore α => t.descriptors = s.descriptors) ops _ rfl fun s' hs op hop => ?_
  cases op with
  | casDescriptor d expected => exact absurd hop (h d expected)
  | _ => exact hs

lemma bucket_of_mem_writes {plan : WritePlan α} {write : TimestampWrite α} (h : write ∈ plan.writes bucketOf) :
    write.key.bucket = bucketOf write.row := by
  obtain ⟨p, -, hp⟩ := mem_flatMap.mp h
  unfold PlanRow.writes at hp
  split at hp
  · rw [mem_singleton.mp hp]
    rfl
  · obtain hp | hp := mem_append.mp hp
    · split_ifs at hp
      · rw [mem_singleton.mp hp]
        rfl
      · cases hp
    · rw [mem_singleton.mp hp]
      rfl

lemma mem_plan_writes (bucketOf : α → Option ℕ) {plan : WritePlan α} {p : PlanRow α} (hp : p ∈ plan.rows) :
    ∃ write ∈ plan.writes bucketOf, write.key = keyOf bucketOf plan.tableId p.rowid p.read := by
  have hin : ∀ write ∈ p.writes bucketOf plan.tableId, write ∈ plan.writes bucketOf :=
    fun write hwrite => mem_flatMap.mpr ⟨p, hp, hwrite⟩
  unfold PlanRow.writes at hin
  split at hin
  · exact ⟨_, hin _ (mem_singleton_self _), rfl⟩
  · rename_i next _
    by_cases hb : bucketOf p.read = bucketOf next
    · exact ⟨_, hin _ (mem_append_right _ (mem_singleton_self _)), by simp [keyOf, hb]⟩
    · rw [if_pos hb] at hin
      exact ⟨_, hin _ (mem_append_left _ (mem_singleton_self _)), rfl⟩

/-- The batch of a prewrite reserves the rows of the plan and puts their new values. -/
structure StmtPrewrite (bucketOf : α → Option ℕ) (x : Timed α) (ops : List (TsOp α)) : Prop where
  batch : PrewriteBatch (fun _ => True) x.startTs ops
  rows : ∀ write ∈ x.plan.writes bucketOf, .reserve write.key x.startTs ∈ ops
  puts : ∀ key v, .putVersion key v ∈ ops → ∃ write ∈ x.plan.writes bucketOf, write.key = key ∧ write.row = v.row
  plain : Plain ops

lemma stmtPrewrite_of_ok (h : prewriteOps store x.startTs (x.plan.writes bucketOf) = .ok ops) :
    StmtPrewrite bucketOf x ops where
  batch := (prewriteBatch_prewriteOps h).imp fun _ _ _ => trivial
  rows := fun write hwrite => by
    unfold prewriteOps at h
    split at h
    · split at h
      · cases h
      · obtain ⟨part, hpart, hsub⟩ := collectOps_part h hwrite
        unfold prewriteWriteOps at hpart
        cases hwin : ensurePrewriteCanWin store x.startTs write with
        | error e =>
          rw [hwin] at hpart
          cases hpart
        | ok u =>
          rw [hwin] at hpart
          cases hpart
          exact hsub _ mem_cons_self
    · rename_i hnone
      rw [List.head?_eq_none_iff.mp hnone] at hwrite
      cases hwrite
  puts := fun key v hop => by
    obtain ⟨write, hwrite, -, part, rfl, hmem, -⟩ := mem_prewriteOps h hop
    simp only [mem_cons, not_mem_nil, or_false, reduceCtorEq, false_or, TsOp.putVersion.injEq] at hmem
    obtain ⟨rfl, rfl⟩ := hmem
    exact ⟨write, hwrite, rfl, rfl⟩
  plain := fun d expected hop => by
    obtain ⟨write, -, -, part, rfl, hmem, -⟩ := mem_prewriteOps h hop
    simp at hmem

/-- The batch of a commit or an abort keeps the rows of the versions. -/
structure StmtResolve (bucketOf : α → Option ℕ) (store : TsStore α) (x : Timed α) (ops : List (TsOp α)) : Prop where
  batch : ∃ commitTs, ResolveBatch store x.startTs commitTs ops
  placed : ∀ key v, .putVersion key v ∈ ops → key.bucket = bucketOf v.row
  plain : Plain ops

variable {startTs : ℕ} {writes : List (TimestampWrite α)} {decide : TimestampWrite α → TimestampTxnDecision}

lemma resolveWriteOps_ok {write : TimestampWrite α} {decision : TimestampTxnDecision}
    (h : resolveWriteOps store startTs decision write = .ok ops) :
    ∃ v, (write.key, v) ∈ store.versions ∧ v.startTs = startTs ∧ ops = settleOps write.key v decision.state := by
  unfold resolveWriteOps at h
  split at h
  · cases h
  · rename_i v hv
    split at h
    · cases h
    · exact ⟨v, (mem_versions_of_version hv).1, (mem_versions_of_version hv).2, (Except.ok.inj h).symm⟩

lemma mem_resolveOps (h : collectOps (fun write => resolveWriteOps store startTs (decide write) write) writes = .ok ops)
    {op : TsOp α} (hop : op ∈ ops) : ∃ write ∈ writes, ∃ v, (write.key, v) ∈ store.versions ∧ v.startTs = startTs ∧
      op ∈ settleOps write.key v (decide write).state := by
  obtain ⟨write, hwrite, part, hpart, hmem, -⟩ := mem_collectOps h hop
  obtain ⟨v, hv, hts, rfl⟩ := resolveWriteOps_ok hpart
  exact ⟨write, hwrite, v, hv, hts, hmem⟩

lemma stmtResolve_of_ok (hplaced : ∀ e ∈ store.versions, e.1.bucket = bucketOf e.2.row)
    (h : collectOps (fun write => resolveWriteOps store x.startTs (decide write) write) writes = .ok ops)
    {commitTs : Option ℕ} (hb : ResolveBatch store x.startTs commitTs ops) : StmtResolve bucketOf store x ops where
  batch := ⟨commitTs, hb⟩
  placed := fun key v hop => by
    obtain ⟨write, -, v', hv', -, hmem⟩ := mem_resolveOps h hop
    simp only [settleOps, mem_cons, not_mem_nil, or_false, reduceCtorEq, TsOp.putVersion.injEq] at hmem
    obtain ⟨rfl, rfl⟩ := hmem
    exact hplaced _ hv'
  plain := fun d expected hop => by
    obtain ⟨write, -, v', -, -, hmem⟩ := mem_resolveOps h hop
    simp [settleOps] at hmem

/-- What a statement commits: the outcomes of its writes. -/
def Timed.committed (bucketOf : α → Option ℕ) (x : Timed α) (c : CommittedWrite α) : Prop :=
  ∃ write ∈ x.plan.writes bucketOf, c = ⟨x.startTs, write.key, x.commitTs, write.outcome⟩

lemma mem_committed_iff (hnodup : ((x.plan.writes bucketOf).map TimestampWrite.key).Nodup)
    (hintents : ∀ e ∈ store.versions, e.2.startTs = x.startTs →
      ∃ write ∈ x.plan.writes bucketOf, write.key = e.1 ∧ write.row = e.2.row)
    (h : resolveCommitOps store x.startTs x.commitTs (x.plan.writes bucketOf) = .ok ops) (c : CommittedWrite α) :
    c ∈ ops.filterMap TsOp.committed? ↔ x.committed bucketOf c := by
  have hsettled : ∀ write ∈ x.plan.writes bucketOf, ∀ v, (write.key, v) ∈ store.versions → v.startTs = x.startTs →
      ∀ decision, decision = (if write.delete then .deleted x.commitTs else .committed x.commitTs) →
      TsVersion.committed? write.key { v with state := TimestampTxnDecision.state decision } =
        some ⟨x.startTs, write.key, x.commitTs, write.outcome⟩ := by
    rintro write hwrite v hv hts _ rfl
    obtain ⟨write', hwrite', hkey, hrow⟩ := hintents _ hv hts
    obtain rfl := inj_on_of_nodup_map hnodup hwrite' hwrite hkey
    unfold TimestampWrite.outcome TsVersion.committed?
    cases write'.delete <;> simp [TimestampTxnDecision.state, hts, hrow]
  constructor
  · intro hc
    obtain ⟨v, hput, hcommit⟩ := mem_committed hc
    obtain ⟨write, hwrite, v', hv', hts, hmem⟩ := mem_resolveOps h hput
    simp only [settleOps, mem_cons, not_mem_nil, or_false, reduceCtorEq, TsOp.putVersion.injEq] at hmem
    obtain ⟨hkey, rfl⟩ := hmem
    rw [hkey, hsettled write hwrite v' hv' hts _ rfl] at hcommit
    exact ⟨write, hwrite, (Option.some.inj hcommit).symm⟩
  · rintro ⟨write, hwrite, rfl⟩
    obtain ⟨part, hpart, hsub⟩ := collectOps_part h hwrite
    obtain ⟨v, hv, hts, rfl⟩ := resolveWriteOps_ok hpart
    exact mem_filterMap.mpr ⟨_, hsub _ mem_cons_self, hsettled write hwrite v hv hts _ rfl⟩

end Batches

/-! ## The invariant -/

section Invariant
variable (bucketOf)

/-- The store against the history: reservations guard intents, commits are recorded, and the clock bounds all
timestamps. -/
structure StoreInv (store : TsStore α) (commits : List (CommittedWrite α)) (clock : ℕ) : Prop where
  reserved : Reserved store
  recorded : Recorded store commits
  bounded : ∀ key s, store.reservations key = some s → s ≤ clock
  stamps : ∀ e ∈ store.versions, e.2.startTs ≤ clock
  committed : ∀ c ∈ commits, c.commitTs ≤ clock
  clock_lt : clock < 2 ^ 64
  placed : ∀ e ∈ store.versions, e.1.bucket = bucketOf e.2.row
  plain : ∀ ts, store.descriptors ts = none

/-- A statement holds its rows: they are reserved, and what it read was committed last. -/
structure Holds (store : TsStore α) (commits : List (CommittedWrite α)) (x : Timed α) : Prop where
  rows : ∀ write ∈ x.plan.writes bucketOf, store.reservations write.key = some x.startTs ∧
    ∀ c ∈ commits, c.key = write.key → c.commitTs < x.commitTs
  intents : ∀ e ∈ store.versions, e.2.startTs = x.startTs →
    ∃ write ∈ x.plan.writes bucketOf, write.key = e.1 ∧ write.row = e.2.row
  latest : ∀ p ∈ x.plan.rows, Latest commits [] (keyOf bucketOf x.plan.tableId p.rowid p.read) p.read
  nodup : ((x.plan.writes bucketOf).map TimestampWrite.key).Nodup

/-- What a statement may rely on in its phase: its scan is current but for commits since, and its batch is its own. -/
structure PhaseInv (store : TsStore α) (commits since : List (CommittedWrite α)) (phase : StmtPhase α) : Prop where
  early : ∀ s, phase.early? = some s → (∀ key, store.reservations key ≠ some s) ∧
    (∀ e ∈ store.versions, e.2.startTs ≠ s) ∧ ∀ c ∈ commits, c.commitTs < s ∨ c ∈ since
  waiting : ∀ plan, phase.waiting? = some plan → ∀ p ∈ plan.rows,
    Latest commits since (keyOf bucketOf plan.tableId p.rowid p.read) p.read
  prewrite : ∀ x ops, phase = .prewriting x ops → StmtPrewrite bucketOf x ops
  resolve : ∀ x ops, phase = .committing x ops ∨ phase = .aborting x ops → StmtResolve bucketOf store x ops
  commit : ∀ x ops, phase = .committing x ops → ∀ c, c ∈ ops.filterMap TsOp.committed? ↔ x.committed bucketOf c
  abort : ∀ x ops, phase = .aborting x ops → ops.filterMap TsOp.committed? = []
  holding : ∀ x, phase.holding? = some x → Holds bucketOf store commits x
  planned : ∀ plan, phase.plan? = some plan → ∀ p ∈ plan.rows, plan.statement.apply p.read = some p.wrote

/-- The statement made of the row what it did, and the value it read was committed last below its own timestamp. -/
structure EffectOk (commits : List (CommittedWrite α)) (e : Effect α) : Prop where
  applied : e.statement.apply e.row.read = some e.row.wrote
  latest : ∃ c ∈ commits, c.key = keyOf bucketOf e.tableId e.row.rowid e.row.read ∧ c.row = some e.row.read ∧
    c.commitTs < e.commitTs ∧ ∀ c' ∈ commits, c'.key = c.key → c'.commitTs < e.commitTs → c'.commitTs ≤ c.commitTs
  made : ∃ c ∈ commits, c.key = keyOf bucketOf e.tableId e.row.rowid e.row.read ∧ c.commitTs = e.commitTs

/-- The write is one of an effect. -/
def MadeBy (effects : List (Effect α)) (c : CommittedWrite α) : Prop :=
  ∃ e ∈ effects, e.commitTs = c.commitTs ∧ ∃ write ∈ e.row.writes bucketOf e.tableId,
    write.key = c.key ∧ write.outcome = c.row

/-- The invariant of a run: the store, the timestamps, the phases, and the effects of committed statements. -/
structure StmtInv (loaded : List (CommittedWrite α)) (w : StmtWorld α) : Prop where
  store : StoreInv bucketOf w.store w.commits w.clock
  starts : ∀ i s, (w.phase i).startTs? = some s → s ≤ w.clock
  times : ∀ i x, (w.phase i).timed? = some x → x.startTs < x.commitTs ∧ x.commitTs ≤ w.clock
  distinct : ∀ i j s, (w.phase i).startTs? = some s → (w.phase j).startTs? = some s → i = j
  phases : ∀ i, PhaseInv bucketOf w.store w.commits (w.since i) (w.phase i)
  effects : ∀ e ∈ w.effects, EffectOk bucketOf w.commits e
  made : ∀ c ∈ w.commits, c ∈ loaded ∨ MadeBy bucketOf w.effects c

/-- The rows are loaded and nothing is going on. -/
structure Loaded (w : StmtWorld α) : Prop where
  commits : w.commits = w.store.versions.filterMap fun e => e.2.committed? e.1
  intents : ∀ e ∈ w.store.versions, e.2.state ≠ .intent
  stamps : ∀ e ∈ w.store.versions, e.2.startTs ≤ w.clock ∧ ∀ c ∈ e.2.state.commitTs?, c ≤ w.clock
  clock_lt : w.clock < 2 ^ 64
  placed : ∀ e ∈ w.store.versions, e.1.bucket = bucketOf e.2.row
  descriptors : ∀ ts, w.store.descriptors ts = none
  reservations : ∀ key, w.store.reservations key = none
  phases : ∀ i, w.phase i = .idle
  effects : w.effects = []

end Invariant

section Steps
variable {loaded : List (CommittedWrite α)} {w : StmtWorld α}

lemma phaseInv_idle {store : TsStore α} {commits since : List (CommittedWrite α)} :
    PhaseInv bucketOf store commits since .idle :=
  ⟨nofun, nofun, nofun, nofun, nofun, nofun, nofun, nofun⟩

lemma Loaded.recorded (h : Loaded bucketOf w) : Recorded w.store w.commits := by
  rw [h.commits]
  refine ⟨fun c hc => ?_, fun e he c hc => mem_filterMap.mpr ⟨e, he, hc⟩, fun e _ _ => by rw [h.reservations]; nofun⟩
  obtain ⟨e, he, hc⟩ := mem_filterMap.mp hc
  obtain ⟨hkey, -, hcommit⟩ := commitTs?_of_committed? hc
  exact ⟨e.2, hkey ▸ he, c.commitTs, hcommit, le_rfl⟩

lemma Loaded.inv (h : Loaded bucketOf w) : StmtInv bucketOf w.commits w where
  store :=
    { reserved := fun e he hi => absurd hi (h.intents e he)
      recorded := h.recorded
      bounded := fun key s hs => by cases (h.reservations key).symm.trans hs
      stamps := fun e he => (h.stamps e he).1
      committed := fun c hc => by
        rw [h.commits] at hc
        obtain ⟨e, he, hc⟩ := mem_filterMap.mp hc
        exact (h.stamps e he).2 _ (commitTs?_of_committed? hc).2.2
      clock_lt := h.clock_lt
      placed := h.placed
      plain := h.descriptors }
  starts := fun i s hs => by rw [h.phases i] at hs; cases hs
  times := fun i x hx => by rw [h.phases i] at hx; cases hx
  distinct := fun i j s hs => by rw [h.phases i] at hs; cases hs
  phases := fun i => by rw [h.phases i]; exact phaseInv_idle
  effects := fun e he => by rw [h.effects] at he; cases he
  made := fun c hc => .inl hc

/-! ## The store -/

section Store
variable {store : TsStore α} {commits : List (CommittedWrite α)} {clock : ℕ} {x : Timed α} {ops : List (TsOp α)}

lemma StoreInv.mono (h : StoreInv bucketOf store commits clock) {clock' : ℕ} (hle : clock ≤ clock')
    (hlt : clock' < 2 ^ 64) : StoreInv bucketOf store commits clock' :=
  { h with
    bounded := fun key s hs => (h.bounded key s hs).trans hle
    stamps := fun e he => (h.stamps e he).trans hle
    committed := fun c hc => (h.committed c hc).trans hle
    clock_lt := hlt }

lemma StoreInv.prewrite (h : StoreInv bucketOf store commits clock) (hb : StmtPrewrite bucketOf x ops)
    (hacc : store.accepts ops) (hfresh : ∀ e ∈ store.versions, e.2.startTs ≠ x.startTs) (hstart : x.startTs ≤ clock) :
    StoreInv bucketOf (ops.foldl TsOp.apply store) commits clock where
  reserved := hb.batch.reserved h.reserved hacc
  recorded := h.recorded.prewrite hb.batch fun e he _ => hfresh e he
  bounded := fun key s hs => by
    by_cases hres : .reserve key x.startTs ∈ ops
    · cases (hb.batch.reservations_self hres).symm.trans hs
      exact hstart
    · exact h.bounded key s ((hb.batch.reservations_other hres).symm.trans hs)
  stamps := fun e he => by
    obtain hput | ⟨hold, -⟩ := mem_versions_foldl he
    · exact (hb.batch.intent _ _ hput).1 ▸ hstart
    · exact h.stamps e hold
  committed := h.committed
  clock_lt := h.clock_lt
  placed := fun e he => by
    obtain hput | ⟨hold, -⟩ := mem_versions_foldl he
    · obtain ⟨write, hwrite, hkey, hrow⟩ := hb.puts _ _ hput
      rw [← hkey, ← hrow]
      exact bucket_of_mem_writes hwrite
    · exact h.placed e hold
  plain := by
    rw [descriptors_foldl hb.plain]
    exact h.plain

lemma StoreInv.resolve (h : StoreInv bucketOf store commits clock) (hb : StmtResolve bucketOf store x ops)
    (hstart : x.startTs ≤ clock) (hnew : ∀ c ∈ ops.filterMap TsOp.committed?, c.commitTs ≤ clock) :
    StoreInv bucketOf (ops.foldl TsOp.apply store) (commits ++ ops.filterMap TsOp.committed?) clock := by
  obtain ⟨commitTs, hbatch⟩ := hb.batch
  refine ⟨hbatch.reserved h.reserved, h.recorded.resolve hbatch, fun key s hs => ?_, fun e he => ?_,
    forall_mem_append.mpr ⟨h.committed, hnew⟩, h.clock_lt, fun e he => ?_, ?_⟩
  · obtain heq | ⟨-, hnone⟩ := hbatch.reservations key
    · exact h.bounded key s (heq.symm.trans hs)
    · cases hnone.symm.trans hs
  · obtain hput | ⟨hold, -⟩ := mem_versions_foldl he
    · exact (hbatch.settled _ _ hput).1 ▸ hstart
    · exact h.stamps e hold
  · obtain hput | ⟨hold, -⟩ := mem_versions_foldl he
    · exact hb.placed _ _ hput
    · exact h.placed e hold
  · rw [descriptors_foldl hb.plain]
    exact h.plain

lemma StoreInv.prune (h : StoreInv bucketOf store commits clock) (keys : List (RowKey × ℕ)) (floor : ℕ) :
    StoreInv bucketOf (store.prune keys floor) commits clock :=
  { h with
    reserved := fun e he => h.reserved e (prune_subset he)
    recorded := h.recorded.prune keys floor
    stamps := fun e he => h.stamps e (prune_subset he)
    placed := fun e he => h.placed e (prune_subset he) }

end Store

/-! ## One statement moves on -/

variable {i : ℕ} {phase : StmtPhase α}

lemma startTs_of_early {s : ℕ} (h : phase.early? = some s) : phase.startTs? = some s := by
  cases phase with
  | verifying x taken => cases taken <;> simp_all [StmtPhase.early?, StmtPhase.startTs?]
  | _ => simp_all [StmtPhase.early?, StmtPhase.startTs?]

lemma startTs_of_holding {x : Timed α} (h : phase.holding? = some x) : phase.startTs? = some x.startTs := by
  cases phase with
  | verifying x taken => cases taken <;> simp_all [StmtPhase.holding?, StmtPhase.startTs?]
  | _ => simp_all [StmtPhase.holding?, StmtPhase.startTs?]

lemma StmtInv.advance (h : StmtInv bucketOf loaded w) {w' : StmtWorld α}
    (hp : w'.phase = Function.update w.phase i phase) (hclock : w.clock ≤ w'.clock)
    (hstart : ∀ s, phase.startTs? = some s → (w.phase i).startTs? = some s ∨ w.clock < s ∧ s ≤ w'.clock)
    (htimes : ∀ x, phase.timed? = some x → (w.phase i).timed? = some x ∨ x.startTs < x.commitTs ∧ x.commitTs ≤ w'.clock)
    (hstore : StoreInv bucketOf w'.store w'.commits w'.clock)
    (hself : PhaseInv bucketOf w'.store w'.commits (w'.since i) phase)
    (hothers : ∀ j, j ≠ i → PhaseInv bucketOf w'.store w'.commits (w'.since j) (w.phase j))
    (heffects : ∀ e ∈ w'.effects, EffectOk bucketOf w'.commits e)
    (hmade : ∀ c ∈ w'.commits, c ∈ loaded ∨ MadeBy bucketOf w'.effects c) :
    StmtInv bucketOf loaded w' := by
  have hmine : w'.phase i = phase := by rw [hp, Function.update_self]
  have hother : ∀ j, j ≠ i → w'.phase j = w.phase j := fun j hj => by rw [hp, Function.update_of_ne hj]
  have hfresh : ∀ j s, j ≠ i → phase.startTs? = some s → (w.phase j).startTs? = some s → False := by
    intro j s hj hs hs'
    obtain hold | ⟨hlt, -⟩ := hstart s hs
    · exact hj (h.distinct j i s hs' hold)
    · exact absurd (h.starts j s hs') (by omega)
  refine ⟨hstore, fun j s hs => ?_, fun j x hx => ?_, fun j k s hj hk => ?_, fun j => ?_, heffects, hmade⟩
  · by_cases hj : j = i
    · rw [hj, hmine] at hs
      obtain hold | ⟨-, hle⟩ := hstart s hs
      · exact (h.starts i s hold).trans hclock
      · exact hle
    · rw [hother j hj] at hs
      exact (h.starts j s hs).trans hclock
  · by_cases hj : j = i
    · rw [hj, hmine] at hx
      obtain hold | hnew := htimes x hx
      · exact ⟨(h.times i x hold).1, (h.times i x hold).2.trans hclock⟩
      · exact hnew
    · rw [hother j hj] at hx
      exact ⟨(h.times j x hx).1, (h.times j x hx).2.trans hclock⟩
  · by_cases hji : j = i
    · by_cases hki : k = i
      · rw [hji, hki]
      · rw [hji, hmine] at hj
        rw [hother k hki] at hk
        exact (hfresh k s hki hj hk).elim
    · rw [hother j hji] at hj
      by_cases hki : k = i
      · rw [hki, hmine] at hk
        exact (hfresh j s hji hk hj).elim
      · rw [hother k hki] at hk
        exact h.distinct j k s hj hk
  · by_cases hj : j = i
    · rwa [hj, hmine]
    · rw [hother j hj]
      exact hothers j hj

/-- A statement goes on with its timestamps. -/
lemma StmtInv.proceed (h : StmtInv bucketOf loaded w) {before : StmtPhase α} (hphase : w.phase i = before)
    (hstart : ∀ s, phase.startTs? = some s → before.startTs? = some s)
    (htimes : ∀ x, phase.timed? = some x → before.timed? = some x)
    (hinv : PhaseInv bucketOf w.store w.commits (w.since i) before →
      PhaseInv bucketOf w.store w.commits (w.since i) phase) :
    StmtInv bucketOf loaded (w.move i phase) := by
  subst hphase
  exact h.advance rfl le_rfl (fun s hs => .inl (hstart s hs)) (fun x hx => .inl (htimes x hx)) h.store
    (hinv (h.phases i)) (fun j _ => h.phases j) h.effects h.made

section Latest
variable {commits others new : List (CommittedWrite α)} {key : RowKey} {read : α}

lemma Latest.mono (h : Latest commits others key read) : Latest (commits ++ new) (others ++ new) key read := by
  obtain ⟨c, hc, hkey, hrow, hmax⟩ := h
  refine ⟨c, mem_append_left _ hc, hkey, hrow, fun c' hc' hkey' => ?_⟩
  obtain hc' | hc' := mem_append.mp hc'
  · exact (hmax c' hc' hkey').imp_right (mem_append_left _)
  · exact .inr (mem_append_right _ hc')

lemma Latest.drop (h : Latest commits others key read) (hne : ∀ c ∈ others, c.key ≠ key) :
    Latest commits [] key read := by
  obtain ⟨c, hc, hkey, hrow, hmax⟩ := h
  exact ⟨c, hc, hkey, hrow, fun c' hc' hkey' => .inl ((hmax c' hc' hkey').resolve_right fun hin => hne c' hin hkey')⟩

end Latest

/-- A statement that another one's batch leaves alone. -/
lemma PhaseInv.foreign {store store' : TsStore α} {commits since new : List (CommittedWrite α)}
    (h : PhaseInv bucketOf store commits since phase)
    (hres : ∀ s, phase.startTs? = some s → ∀ key,
      store'.reservations key = some s ↔ store.reservations key = some s)
    (hver : ∀ s, phase.startTs? = some s → ∀ e ∈ store'.versions, e.2.startTs = s → e ∈ store.versions)
    (hnew : ∀ x, phase.holding? = some x → ∀ write ∈ x.plan.writes bucketOf, ∀ c ∈ new, c.key ≠ write.key) :
    PhaseInv bucketOf store' (commits ++ new) (since ++ new) phase where
  early := fun s hs => by
    have hs' := startTs_of_early hs
    obtain ⟨hkeys, hversions, hcommits⟩ := h.early s hs
    refine ⟨fun key hk => hkeys key ((hres s hs' key).mp hk),
      fun e he heq => hversions e (hver s hs' e he heq) heq, fun c hc => ?_⟩
    obtain hc | hc := mem_append.mp hc
    · exact (hcommits c hc).imp_right (mem_append_left _)
    · exact .inr (mem_append_right _ hc)
  waiting := fun plan hplan p hp => (h.waiting plan hplan p hp).mono
  prewrite := h.prewrite
  resolve := fun x ops hx => by
    obtain ⟨⟨commitTs, hb⟩, hplaced, hplain⟩ := h.resolve x ops hx
    have hs : phase.startTs? = some x.startTs := by obtain rfl | rfl := hx <;> rfl
    exact ⟨⟨commitTs, hb.congr fun key hk => (hres _ hs key).mpr hk⟩, hplaced, hplain⟩
  commit := h.commit
  abort := h.abort
  holding := fun x hx => by
    have hs := startTs_of_holding hx
    have hI := h.holding x hx
    refine ⟨fun write hwrite => ⟨(hres _ hs _).mpr (hI.rows write hwrite).1, ?_⟩,
      fun e he heq => hI.intents e (hver _ hs e he heq) heq, fun p hp => ?_, hI.nodup⟩
    · exact forall_mem_append.mpr ⟨(hI.rows write hwrite).2, fun c hc hkey =>
        absurd hkey (hnew x hx write hwrite c hc)⟩
    · obtain ⟨write, hwrite, hkey⟩ := mem_plan_writes bucketOf hp
      exact (hI.latest p hp).mono.drop fun c hc => hkey ▸ hnew x hx write hwrite c hc
  planned := h.planned

/-! ## Steps -/

section
variable (h : StmtInv bucketOf loaded w)
include h

lemma StmtInv.scan (i tableId : ℕ) (statement : Statement α) :
    StmtInv bucketOf loaded (stmtStep bucketOf w (.scan i tableId statement)) := by
  have hplan := fun p hp => @mem_planOf α bucketOf w.store w.commits h.store.recorded h.store.plain h.store.placed
    (fun c hc => (h.store.committed c hc).trans_lt h.store.clock_lt) tableId statement p hp
  refine h.advance (i := i) rfl le_rfl nofun nofun h.store ⟨nofun, fun plan hp p hmem => ?_, nofun, ?_, nofun, nofun,
    nofun, fun plan hp p hmem => ?_⟩ (fun j hj => ?_) h.effects h.made
  · cases hp
    rw [show (stmtStep bucketOf w (.scan i tableId statement)).since i = [] from Function.update_self ..]
    exact (hplan p hmem).2
  · rintro x ops (hx | hx) <;> cases hx
  · cases hp
    exact (hplan p hmem).1
  · rw [show (stmtStep bucketOf w (.scan i tableId statement)).since j = w.since j from Function.update_of_ne hj ..]
    exact h.phases j

lemma StmtInv.allocateStart {plan : WritePlan α} {startTs : ℕ} (hphase : w.phase i = .planned plan)
    (hclock : w.clock < startTs) (hlt : startTs < 2 ^ 64) :
    StmtInv bucketOf loaded { w.move i (.started plan startTs) with clock := startTs } := by
  have hI := h.phases i
  rw [hphase] at hI
  refine h.advance rfl hclock.le (fun s hs => .inr ?_) nofun (h.store.mono hclock.le hlt)
    ⟨fun s hs => ?_, hI.waiting, nofun, ?_, nofun, nofun, nofun, hI.planned⟩ (fun j _ => h.phases j) h.effects h.made
  · cases hs
    exact ⟨hclock, le_rfl⟩
  · cases hs
    refine ⟨fun key hk => ?_, fun e he heq => ?_, fun c hc => .inl ((h.store.committed c hc).trans_lt hclock)⟩
    · exact absurd (h.store.bounded key startTs hk) (by omega)
    · exact absurd (h.store.stamps e he) (by omega)
  · rintro x ops (hx | hx) <;> cases hx

lemma StmtInv.allocateCommit {plan : WritePlan α} {startTs commitTs : ℕ} (hphase : w.phase i = .started plan startTs)
    (hclock : w.clock < commitTs) (hlt : commitTs < 2 ^ 64) :
    StmtInv bucketOf loaded { w.move i (.timed ⟨plan, startTs, commitTs⟩) with clock := commitTs } := by
  have hI := h.phases i
  have hstart := h.starts i startTs (by rw [hphase]; rfl)
  rw [hphase] at hI
  refine h.advance rfl hclock.le (fun s hs => .inl (by rw [hphase]; exact hs)) (fun x hx => .inr ?_)
    (h.store.mono hclock.le hlt) ⟨hI.early, hI.waiting, nofun, ?_, nofun, nofun, nofun, hI.planned⟩ (fun j _ => h.phases j)
    h.effects h.made
  · cases hx
    exact ⟨hstart.trans_lt hclock, le_rfl⟩
  · rintro x ops (hx | hx) <;> cases hx

variable {x : Timed α} {ops : List (TsOp α)}

lemma StmtInv.buildPrewrite (hphase : w.phase i = .timed x)
    (hops : prewriteOps w.store x.startTs (x.plan.writes bucketOf) = .ok ops) :
    StmtInv bucketOf loaded (w.move i (.prewriting x ops)) := by
  refine h.proceed hphase (fun _ => id) (fun _ => id) fun hI =>
    ⟨hI.early, hI.waiting, fun x' ops' hx => ?_, ?_, nofun, nofun, nofun, hI.planned⟩
  · obtain ⟨rfl, rfl⟩ := StmtPhase.prewriting.inj hx
    exact stmtPrewrite_of_ok hops
  · rintro x ops (hx | hx) <;> cases hx

lemma StmtInv.idle (i : ℕ) : StmtInv bucketOf loaded (w.move i .idle) :=
  h.proceed rfl nofun nofun fun _ => phaseInv_idle

lemma StmtInv.verify {taken : Bool} (hphase : w.phase i = .verifying x taken)
    (hverified : ((x.plan.writes bucketOf).all fun write => w.store.reservations write.key = some x.startTs)) :
    StmtInv bucketOf loaded (w.move i (.ready x)) := by
  refine h.proceed hphase (fun _ => id) (fun _ => id) fun hI => ⟨nofun, nofun, nofun, ?_, nofun, nofun, fun x' hx' => ?_,
    hI.planned⟩
  · rintro x ops (hx | hx) <;> cases hx
  cases hx'
  cases taken with
  | true => exact hI.holding x rfl
  | false =>
    -- A batch that was not taken has reserved nothing, so there is nothing to write.
    obtain ⟨hkeys, hversions, -⟩ := hI.early x.startTs rfl
    have hempty : x.plan.writes bucketOf = [] := eq_nil_iff_forall_not_mem.mpr fun write hwrite =>
      hkeys write.key (of_decide_eq_true (all_eq_true.mp hverified write hwrite))
    refine ⟨by simp [hempty], fun e he heq => absurd heq (hversions e he), fun p hp => ?_, by simp [hempty]⟩
    obtain ⟨write, hwrite, -⟩ := mem_plan_writes bucketOf hp
    simp [hempty] at hwrite

lemma StmtInv.buildCommit (hphase : w.phase i = .ready x)
    (hops : resolveCommitOps w.store x.startTs x.commitTs (x.plan.writes bucketOf) = .ok ops) :
    StmtInv bucketOf loaded (w.move i (.committing x ops)) := by
  refine h.proceed hphase (fun _ => id) (fun _ => id) fun hI =>
    ⟨nofun, nofun, nofun, fun x' ops' hx => ?_, fun x' ops' hx => ?_, nofun, hI.holding, hI.planned⟩
  · obtain ⟨rfl, rfl⟩ := StmtPhase.committing.inj (hx.resolve_right nofun)
    exact stmtResolve_of_ok h.store.placed hops (resolveBatch_commitOps h.store.reserved hops)
  · obtain ⟨rfl, rfl⟩ := StmtPhase.committing.inj hx
    have hx := hI.holding x rfl
    exact mem_committed_iff hx.nodup hx.intents hops

lemma StmtInv.buildAbort (hphase : w.phase i = .ready x)
    (hops : resolveOps w.store x.startTs .aborted (x.plan.writes bucketOf) = .ok ops) :
    StmtInv bucketOf loaded (w.move i (.aborting x ops)) := by
  refine h.proceed hphase (fun _ => id) (fun _ => id) fun hI =>
    ⟨nofun, nofun, nofun, fun x' ops' hx => ?_, nofun, fun x' ops' hx => ?_, nofun, hI.planned⟩
  · obtain ⟨rfl, rfl⟩ := StmtPhase.aborting.inj (hx.resolve_left nofun)
    exact stmtResolve_of_ok h.store.placed hops (resolveBatch_abortOps h.store.reserved hops)
  · obtain ⟨rfl, rfl⟩ := StmtPhase.aborting.inj hx
    refine eq_nil_iff_forall_not_mem.mpr fun c hc => ?_
    obtain ⟨v, hv, hcommit⟩ := mem_committed hc
    have hnone := ((resolveBatch_abortOps h.store.reserved hops).settled _ v hv).2.2.1
    cases hnone.symm.trans (commitTs?_of_committed? hcommit).2.2

lemma StmtInv.startTs_ne {i j : ℕ} (hj : j ≠ i) {s s' : ℕ}
    (hs : (w.phase i).startTs? = some s) (hs' : (w.phase j).startTs? = some s') : s' ≠ s :=
  fun heq => hj (h.distinct j i s (heq ▸ hs') hs)

lemma StmtInv.writePrewrite (hphase : w.phase i = .prewriting x ops) (hacc : w.store.accepts ops)
    (hnodup : ((x.plan.writes bucketOf).map TimestampWrite.key).Nodup)
    (hsince : ∀ key, .reserve key x.startTs ∈ ops → ∀ c ∈ w.since i, c.key ≠ key) :
    StmtInv bucketOf loaded { w.move i (.verifying x true) with store := ops.foldl TsOp.apply w.store } := by
  have hI := h.phases i
  rw [hphase] at hI
  have hb := hI.prewrite x ops rfl
  have hmine : (w.phase i).startTs? = some x.startTs := by rw [hphase]; rfl
  have htimes := (h.times i x (by rw [hphase]; rfl)).1
  obtain ⟨-, hfresh, hbefore⟩ := hI.early x.startTs rfl
  refine h.advance rfl le_rfl (fun s hs => .inl (by rw [hphase]; exact hs)) (fun x' hx => .inl (by rw [hphase]; exact hx))
    (h.store.prewrite hb hacc hfresh (h.starts i _ hmine)) ⟨nofun, nofun, nofun, ?_, nofun, nofun, fun x' hx' => ?_, hI.planned⟩
    (fun j hj => ?_) h.effects h.made
  · rintro x ops (hx | hx) <;> cases hx
  · cases hx'
    refine ⟨fun write hwrite => ⟨hb.batch.reservations_self (hb.rows write hwrite), fun c hc hkey => ?_⟩,
      fun e he heq => ?_, fun p hp => ?_, hnodup⟩
    · have hlt := (hbefore c hc).resolve_right fun hin => hsince _ (hb.rows write hwrite) c hin hkey
      omega
    · obtain hput | ⟨hold, -⟩ := mem_versions_foldl he
      · exact hb.puts _ _ hput
      · exact absurd heq (hfresh e hold)
    · obtain ⟨write, hwrite, hkey⟩ := mem_plan_writes bucketOf hp
      exact (hI.waiting _ rfl p hp).drop fun c hc => hkey ▸ hsince _ (hb.rows write hwrite) c hc
  · have hother : PhaseInv bucketOf (ops.foldl TsOp.apply w.store) (w.commits ++ []) (w.since j ++ []) (w.phase j) :=
      (h.phases j).foreign (fun s hs key => ?_) (fun s hs e he heq => ?_) nofun
    · rw [append_nil, append_nil] at hother
      exact hother
    · by_cases hres : .reserve key x.startTs ∈ ops
      · rw [hb.batch.reservations_self hres, not_fails_of_accepts hacc hres]
        exact ⟨fun hk => absurd (Option.some.inj hk).symm (h.startTs_ne hj hmine hs), nofun⟩
      · rw [hb.batch.reservations_other hres]
    · obtain hput | ⟨hold, -⟩ := mem_versions_foldl he
      · exact absurd (heq.symm.trans (hb.batch.intent _ _ hput).1) (h.startTs_ne hj hmine hs)
      · exact hold

lemma StmtInv.foreignResolve (hmine : (w.phase i).startTs? = some x.startTs)
    (hb : StmtResolve bucketOf w.store x ops) {j : ℕ} (hj : j ≠ i)
    {new : List (CommittedWrite α)} (hnew : ∀ y, (w.phase j).holding? = some y →
      ∀ write ∈ y.plan.writes bucketOf, ∀ c ∈ new, c.key ≠ write.key) :
    PhaseInv bucketOf (ops.foldl TsOp.apply w.store) (w.commits ++ new) (w.since j ++ new) (w.phase j) := by
  obtain ⟨commitTs, hbatch⟩ := hb.batch
  refine (h.phases j).foreign (fun s hs key => ?_) (fun s hs e he heq => ?_) hnew
  · obtain heq | ⟨hown, hnone⟩ := hbatch.reservations key
    · rw [heq]
    · rw [hnone, hown]
      exact ⟨nofun, fun hk => absurd (Option.some.inj hk).symm (h.startTs_ne hj hmine hs)⟩
  · obtain hput | ⟨hold, -⟩ := mem_versions_foldl he
    · exact absurd (heq.symm.trans (hbatch.settled _ _ hput).1) (h.startTs_ne hj hmine hs)
    · exact hold

lemma StmtInv.writeAbort (hphase : w.phase i = .aborting x ops) :
    StmtInv bucketOf loaded { w.move i .idle with store := ops.foldl TsOp.apply w.store } := by
  have hI := h.phases i
  have hmine : (w.phase i).startTs? = some x.startTs := by rw [hphase]; rfl
  have hb := hI.resolve x ops (.inr hphase)
  have hnil := hI.abort x ops hphase
  have hstore := h.store.resolve hb (h.starts i _ hmine) (by rw [hnil]; nofun)
  rw [hnil, append_nil] at hstore
  refine h.advance rfl le_rfl nofun nofun hstore phaseInv_idle (fun j hj => ?_) h.effects h.made
  have hother : PhaseInv bucketOf _ (w.commits ++ []) (w.since j ++ []) (w.phase j) := h.foreignResolve hmine hb hj nofun
  rw [append_nil, append_nil] at hother
  exact hother

omit h in
lemma EffectOk.mono {commits new : List (CommittedWrite α)} {e : Effect α} (h : EffectOk bucketOf commits e)
    (hlater : ∀ c ∈ new, c.key = keyOf bucketOf e.tableId e.row.rowid e.row.read → e.commitTs ≤ c.commitTs) :
    EffectOk bucketOf (commits ++ new) e := by
  obtain ⟨c, hc, hkey, hrow, hlt, hmax⟩ := h.latest
  obtain ⟨m, hm, hmade⟩ := h.made
  refine ⟨h.applied, ⟨c, mem_append_left _ hc, hkey, hrow, hlt, fun c' hc' hkey' hlt' => ?_⟩,
    m, mem_append_left _ hm, hmade⟩
  obtain hc' | hc' := mem_append.mp hc'
  · exact hmax c' hc' hkey' hlt'
  · exact absurd (hlater c' hc' (hkey'.trans hkey)) (not_le.mpr hlt')

omit h in
/-- What a statement does when it commits. -/
lemma Holds.effectOk {store : TsStore α} {commits new : List (CommittedWrite α)} (h : Holds bucketOf store commits x)
    (hnew : ∀ c, c ∈ new ↔ x.committed bucketOf c)
    (hplanned : ∀ p ∈ x.plan.rows, x.plan.statement.apply p.read = some p.wrote) {e : Effect α} (he : e ∈ x.effects) :
    EffectOk bucketOf (commits ++ new) e := by
  obtain ⟨p, hp, rfl⟩ := mem_map.mp he
  obtain ⟨write, hwrite, hkey⟩ := mem_plan_writes bucketOf hp
  obtain ⟨c, hc, hckey, hrow, hmax⟩ := h.latest p hp
  refine ⟨hplanned p hp, ⟨c, mem_append_left _ hc, hckey, hrow, (h.rows write hwrite).2 c hc (hckey.trans hkey.symm),
    fun c' hc' hkey' hlt => ?_⟩, _, mem_append_right _ ((hnew _).mpr ⟨write, hwrite, rfl⟩), hkey, rfl⟩
  obtain hc' | hc' := mem_append.mp hc'
  · exact (hmax c' hc' (hkey'.trans hckey)).resolve_right nofun
  · obtain ⟨write', -, rfl⟩ := (hnew c').mp hc'
    exact absurd hlt (lt_irrefl _)

/-- The batch of a commit is applied: what it read was committed last until now. -/
lemma StmtInv.writeCommit (hphase : w.phase i = .committing x ops) :
    StmtInv bucketOf loaded { w.move i .idle with
      store := ops.foldl TsOp.apply w.store
      commits := w.commits ++ ops.filterMap TsOp.committed?
      since := fun j => w.since j ++ ops.filterMap TsOp.committed?
      effects := w.effects ++ x.effects } := by
  have hI := h.phases i
  have hmine : (w.phase i).startTs? = some x.startTs := by rw [hphase]; rfl
  have htimes := h.times i x (by rw [hphase]; rfl)
  have hb := hI.resolve x ops (.inl hphase)
  have hnew := hI.commit x ops hphase
  have hholds := hI.holding x (by rw [hphase]; rfl)
  have hstore := h.store.resolve hb (h.starts i _ hmine) fun c hc => by
    obtain ⟨write, -, rfl⟩ := (hnew c).mp hc
    exact htimes.2
  refine h.advance rfl le_rfl nofun nofun hstore phaseInv_idle (fun j hj => ?_) (fun e he => ?_) fun c hc => ?_
  · refine h.foreignResolve hmine hb hj fun y hy write hwrite c hc heq => ?_
    -- A row of both plans would be reserved by both.
    obtain ⟨write', hwrite', rfl⟩ := (hnew c).mp hc
    have hres := ((h.phases j).holding y hy).rows write hwrite
    rw [← heq, (hholds.rows write' hwrite').1] at hres
    exact h.startTs_ne hj hmine (startTs_of_holding hy) (Option.some.inj hres.1).symm
  · obtain he | he := mem_append.mp he
    · refine (h.effects e he).mono fun c hc hkey => ?_
      obtain ⟨write, hwrite, rfl⟩ := (hnew c).mp hc
      obtain ⟨m, hm, hmkey, hmade⟩ := (h.effects e he).made
      exact hmade ▸ ((hholds.rows write hwrite).2 m hm (hmkey.trans hkey.symm)).le
    · exact hholds.effectOk hnew (hI.planned x.plan (by rw [hphase]; rfl)) he
  · obtain hc | hc := mem_append.mp hc
    · exact (h.made c hc).imp_right fun ⟨e, he, hwrote⟩ => ⟨e, mem_append_left _ he, hwrote⟩
    · obtain ⟨write, hwrite, rfl⟩ := (hnew c).mp hc
      obtain ⟨p, hp, hmem⟩ := mem_flatMap.mp hwrite
      exact .inr ⟨_, mem_append_right _ (mem_map_of_mem hp), rfl, write, hmem, rfl, rfl⟩

lemma StmtInv.rejected (hphase : w.phase i = .prewriting x ops) :
    StmtInv bucketOf loaded (w.move i (.verifying x false)) := by
  refine h.proceed hphase (fun _ => id) (fun _ => id) fun hI =>
    ⟨hI.early, nofun, nofun, ?_, nofun, nofun, nofun, hI.planned⟩
  rintro x ops (hx | hx) <;> cases hx

lemma StmtInv.write (hok : NotOvertaken bucketOf w (.write i)) :
    StmtInv bucketOf loaded (stmtStep bucketOf w (.write i)) := by
  dsimp only [stmtStep]
  dsimp only [NotOvertaken] at hok
  split
  · rename_i x ops hphase
    rw [hphase] at hok
    unfold TsStore.writeBatch
    cases hacc : w.store.accepts ops with
    | true =>
      simp only [hacc, Bool.not_true, Bool.false_or, Bool.and_eq_true, decide_eq_true_eq] at hok
      exact h.writePrewrite hphase hacc hok.1 fun key hres c hc =>
        of_decide_eq_true (all_eq_true.mp (all_eq_true.mp hok.2 _ hres) c hc)
    | false => exact h.rejected hphase
  · rename_i x ops hphase
    unfold TsStore.writeBatch TsStore.committedBy
    cases hacc : w.store.accepts ops with
    | true => exact h.writeCommit hphase
    | false =>
      simp only [Bool.false_eq_true, if_false, append_nil]
      exact h.idle i
  · rename_i x ops hphase
    unfold TsStore.writeBatch
    cases hacc : w.store.accepts ops with
    | true => exact h.writeAbort hphase
    | false => exact h.idle i
  · exact h

lemma StmtInv.prune (keys : List (RowKey × ℕ)) (floor : ℕ) :
    StmtInv bucketOf loaded { w with store := w.store.prune keys floor } := by
  refine ⟨h.store.prune keys floor, h.starts, h.times, h.distinct, fun i => ?_, h.effects, h.made⟩
  have hpruned : PhaseInv bucketOf (w.store.prune keys floor) (w.commits ++ []) (w.since i ++ []) (w.phase i) :=
    (h.phases i).foreign (fun _ _ _ => Iff.rfl) (fun _ _ _ he _ => prune_subset he) nofun
  rw [append_nil, append_nil] at hpruned
  exact hpruned

/-- Every step that is not overtaken keeps the invariant. -/
lemma StmtInv.step {l : StmtEvent α} (hen : (stmtSys bucketOf).enabled w l)
    (hok : NotOvertaken bucketOf w l) : StmtInv bucketOf loaded ((stmtSys bucketOf).next w l) := by
  have hen : l.enabled w := hen
  show StmtInv bucketOf loaded (stmtStep bucketOf w l)
  cases l with
  | scan i tableId statement => exact h.scan i tableId statement
  | allocateStart i startTs =>
    dsimp only [stmtStep]
    dsimp only [StmtEvent.enabled] at hen
    split
    · rename_i plan hphase
      rw [hphase] at hen
      simp only [Bool.and_eq_true, decide_eq_true_eq] at hen
      exact h.allocateStart hphase hen.2.1 hen.2.2
    · exact h
  | allocateCommit i commitTs =>
    dsimp only [stmtStep]
    dsimp only [StmtEvent.enabled] at hen
    split
    · rename_i plan startTs hphase
      rw [hphase] at hen
      have hen := of_decide_eq_true hen
      exact h.allocateCommit hphase hen.1 hen.2
    · exact h
  | buildPrewrite i =>
    dsimp only [stmtStep]
    split
    · rename_i x hphase
      split
      · rename_i ops hops
        exact h.buildPrewrite hphase hops
      · exact h.idle i
    · exact h
  | write i => exact h.write hok
  | verify i =>
    dsimp only [stmtStep]
    split
    · rename_i x taken hphase
      split_ifs with hverified
      · exact h.verify hphase hverified
      · exact h.idle i
    · exact h
  | buildCommit i =>
    dsimp only [stmtStep]
    split
    · rename_i x hphase
      split
      · rename_i ops hops
        exact h.buildCommit hphase hops
      · split
        · rename_i ops hops
          exact h.buildAbort hphase hops
        · exact h.idle i
    · exact h
  | buildAbort i =>
    dsimp only [stmtStep]
    split
    · rename_i x hphase
      split
      · rename_i ops hops
        exact h.buildAbort hphase hops
      · exact h.idle i
    · exact h
  | prune keys floor => exact h.prune keys floor

end
end Steps

/-- **No lost update**, where no row is committed between the scan and the prewrite of a statement that writes it: the
value that a committed statement has read of a row is the one committed with the largest timestamp below its own, and
every write committed since the rows were loaded is one of a statement. -/
theorem no_lost_update {w₀ w : StmtWorld α} (hloaded : Loaded bucketOf w₀)
    (hrun : (stmtSys bucketOf).Run (fun w l => NotOvertaken bucketOf w l = true) w₀ w) :
    (∀ e ∈ w.effects, e.statement.apply e.row.read = some e.row.wrote ∧ ∃ c ∈ w.commits,
      c.key = keyOf bucketOf e.tableId e.row.rowid e.row.read ∧ c.row = some e.row.read ∧ c.commitTs < e.commitTs ∧
        ∀ c' ∈ w.commits, c'.key = c.key → c'.commitTs < e.commitTs → c'.commitTs ≤ c.commitTs) ∧
    ∀ c ∈ w.commits, c ∈ w₀.commits ∨ MadeBy bucketOf w.effects c := by
  have hinv : StmtInv bucketOf w₀.commits w :=
    hrun.preserves (P := StmtInv bucketOf w₀.commits) (fun _ _ h hen hok => h.step hen hok) hloaded.inv
  exact ⟨fun e he => ⟨(hinv.effects e he).applied, (hinv.effects e he).latest⟩, hinv.made⟩

def oneRow : StmtWorld ℕ where
  store := { versions := [(⟨1, none, 7⟩, ⟨2, .committed 3, 1⟩)] }
  clock := 3
  commits := [⟨2, ⟨1, none, 7⟩, 3, some 1⟩]

lemma loaded_oneRow : Loaded (fun _ => none) oneRow :=
  ⟨rfl, by decide, by decide, by decide, by decide, fun _ => rfl, fun _ => rfl, fun _ => rfl, rfl⟩

def increment : Statement ℕ := .update fun row => some (row + 1)

def afterScan (i startTs commitTs : ℕ) : List (StmtEvent ℕ) :=
  [.allocateStart i startTs, .allocateCommit i commitTs, .buildPrewrite i, .write i, .verify i,
    .buildCommit i, .write i]

def oneAfterTheOther : List (StmtEvent ℕ) :=
  .scan 0 1 increment :: afterScan 0 4 5 ++ .scan 1 1 increment :: afterScan 1 6 7

/-- Two increments, the second one scanned after the first one committed. -/
theorem no_lost_update_oneAfterTheOther :
    ((stmtSys fun _ => none).execs oneRow oneAfterTheOther).effects.map (·.row.read) = [1, 2] ∧
      ∀ c ∈ ((stmtSys fun _ => none).execs oneRow oneAfterTheOther).commits, c ∈ oneRow.commits ∨
        MadeBy (fun _ => none) ((stmtSys fun _ => none).execs oneRow oneAfterTheOther).effects c := by
  have hrun : (stmtSys fun _ => none).Run (fun w l => NotOvertaken (fun _ => none) w l) oneRow
      ((stmtSys fun _ => none).execs oneRow oneAfterTheOther) := Sys.run_of_runsOk
  exact ⟨by decide +kernel, (no_lost_update loaded_oneRow hrun).2⟩

/-- Both statements have scanned before the first one commits. -/
def bothScanned : List (StmtEvent ℕ) :=
  [.scan 0 1 increment, .scan 1 1 increment] ++ afterScan 0 4 5 ++ afterScan 1 6 7

/-- Both increments are scanned first, and one of them is lost. -/
theorem lost_update :
    (stmtSys fun _ => none).AnyRun oneRow ((stmtSys fun _ => none).execs oneRow bothScanned) ∧
      ((stmtSys fun _ => none).execs oneRow bothScanned).commits = [⟨2, ⟨1, none, 7⟩, 3, some 1⟩,
        ⟨4, ⟨1, none, 7⟩, 5, some 2⟩, ⟨6, ⟨1, none, 7⟩, 7, some 2⟩] ∧
      ((stmtSys fun _ => none).execs oneRow bothScanned).effects.map (·.row.read) = [1, 1] :=
  ⟨Sys.run_of_runs, by decide +kernel⟩

end Crabka.Pgexec
