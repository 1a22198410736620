import Crabka.Found.Runs
import Crabka.Broker.Txn.TxnEntry

/-!
# The transaction coordinator

`crates/broker/src/txn/coordinator.rs` and `handlers/end_txn.rs` for one transactional id. A procedure takes the
handle of the entry from the map, mutates the entry under its lock, releases it, and only then persists a copy and
installs it under a new handle; others run between these steps, also on a handle that has left the map.

With the epoch bump of `transaction.version` 2 every transaction ends one way as long as an entry is only locked
while it is in the map and no copy of it waits (`transactions_atomic`).
-/

namespace Crabka.Broker.Txn
open Found List
open Metadata (i16Max)
open TxnEntry (EndTxnRequest)
open TxnEntry TxnState

/-- An entry, with a number that the source does not have: it says which registrations and markers belong together. -/
structure Copy where
  entry : TxnEntry
  serial : ℕ := 0
  deriving DecidableEq

/-- A marker that was written to a partition. -/
structure Marker where
  serial : ℕ
  producerId : ℤ
  producerEpoch : ℤ
  committed : Bool
  partition : TopicPartition
  deriving DecidableEq

/-- Who ends a transaction: a request, or the reaper. -/
abbrev Ender := Option EndTxnRequest

def Ender.committed (ender : Ender) : Bool := (ender.map EndTxnRequest.committed).getD false

/-- A procedure that waits at an await point. -/
inductive Task where
  /-- `register_partitions` persists its copy. -/
  | registering (partitions : Finset TopicPartition) (copy : Copy)
  /-- `EndTxn` passed the validation, with the handle it read. -/
  | validated (handle : ℕ) (req : EndTxnRequest)
  /-- The prepared copy is being persisted. -/
  | preparing (ender : Ender) (copy : Copy)
  /-- The markers of the prepared copy that are still to be written. -/
  | marking (ender : Ender) (copy : Copy) (todo : Finset TopicPartition)
  /-- The completed copy is being persisted. -/
  | completing (copy : Copy)
  deriving DecidableEq

def Task.pending : Task → Option Copy
  | .registering _ copy | .preparing _ copy | .completing copy => some copy
  | .validated .. | .marking .. => none

/-- Every handle there has been, the one in the map, the procedures that wait, the markers written, the registrations
answered `NONE`, and the producer ids handed out. -/
structure Coordinator where
  heap : List Copy
  slot : ℕ := 0
  tasks : List Task := []
  markers : List Marker := []
  answered : Finset (ℕ × TopicPartition) := ∅
  allocated : List ℤ
  deriving DecidableEq

/-- What happens at the coordinator. A step that locks names the handle that its procedure read. -/
inductive Step where
  | register (handle : ℕ) (pid epoch : ℤ) (partitions : Finset TopicPartition) (now : ℤ)
  /-- `put` returns. -/
  | persist (task : Task)
  | validate (handle : ℕ) (req : EndTxnRequest)
  | prepare (handle : ℕ) (req : EndTxnRequest) (txnv : TxnVersion) (fresh : ℤ)
  /-- `prepare_abort` of the reaper. -/
  | reap (handle : ℕ) (now : ℤ) (txnv : TxnVersion) (fresh : ℤ)
  | writeMarker (ender : Ender) (copy : Copy) (todo : Finset TopicPartition) (tp : TopicPartition)
  /-- Phase 3 of `EndTxn`, or `complete_abort`. -/
  | complete (ender : Ender) (copy : Copy) (handle : ℕ)
  deriving DecidableEq

namespace Coordinator
variable (s : Coordinator)

/-- The entry under a handle is replaced in place, and a task goes on with the copy. -/
def lock (handle : ℕ) (copy : Copy) (task : Task) : Coordinator :=
  { s with heap := s.heap.set handle copy, tasks := task :: s.tasks }

/-- `state.insert`: the copy under a fresh handle. -/
def install (copy : Copy) : Coordinator :=
  { s with heap := s.heap ++ [copy], slot := s.heap.length }

def drop (task : Task) : Coordinator := { s with tasks := s.tasks.erase task }

/-- The copy after a registration; from another state than `Ongoing` it starts a transaction. -/
def registered (c : Copy) (e' : TxnEntry) : Copy where
  entry := e'
  serial := if c.entry.state = .ongoing then c.serial else c.serial + 1

/-- The entry that is prepared, from one that has just moved to its prepared state. -/
def prepared (txnv : TxnVersion) (fresh : ℤ) (moved : TxnEntry) : TxnEntry :=
  (moved.prepareCompletionIdentities txnv fresh).getD moved

def completed (ender : Ender) (entry k : TxnEntry) : Option TxnEntry :=
  match ender with
  | some req => entry.completeEndTxn k req
  | none => entry.completeAbort k

/-- Handles exist, tasks wait, and the allocator does not repeat itself. -/
def Enabled : Step → Prop
  | .register handle _ _ _ _ | .validate handle _ => handle < s.heap.length
  | .persist task => task ∈ s.tasks ∧ task.pending.isSome
  | .prepare handle req _ fresh =>
    .validated handle req ∈ s.tasks ∧ handle < s.heap.length ∧ fresh ∉ s.allocated
  | .reap handle _ _ fresh => handle < s.heap.length ∧ fresh ∉ s.allocated
  | .writeMarker ender copy todo tp => .marking ender copy todo ∈ s.tasks ∧ tp ∈ todo
  | .complete ender copy handle => .marking ender copy ∅ ∈ s.tasks ∧ handle < s.heap.length

instance (l : Step) : Decidable (s.Enabled l) := by
  cases l <;> unfold Enabled <;> infer_instance

/-- The task and the coordinator after `put` returned. -/
def persisted (task : Task) : Coordinator :=
  match task with
  | .registering ps copy =>
    let t := (s.drop task).install copy
    { t with answered := ps.image (fun tp => (copy.serial, tp)) ∪ t.answered }
  | .preparing ender copy =>
    let t := (s.drop task).install copy
    { t with tasks := .marking ender copy copy.entry.partitions :: t.tasks }
  | .completing copy => (s.drop task).install copy
  | .validated .. | .marking .. => s

def marker (copy : Copy) (committed : Bool) (tp : TopicPartition) : Marker where
  serial := copy.serial
  producerId := copy.entry.producerId
  producerEpoch := copy.entry.producerEpoch
  committed := committed
  partition := tp

def next : Step → Coordinator
  | .register handle pid epoch ps now =>
    match s.heap[handle]? with
    | none => s
    | some c =>
      match c.entry.registerPartitions pid epoch ps now with
      | .error _ => s
      | .ok e' => s.lock handle (registered c e') (.registering ps (registered c e'))
  | .persist task => s.persisted task
  | .validate handle req =>
    match s.heap[handle]? with
    | none => s
    | some c =>
      if c.entry.validateEndTxn req = .ok .proceed then
        { s with tasks := .validated handle req :: s.tasks }
      else s
  | .prepare handle req txnv fresh =>
    let t := s.drop (.validated handle req)
    match s.heap[handle]? with
    | none => t
    | some c =>
      match c.entry.decidePhase1Transition req.committed with
      | .error _ => t
      | .ok moved =>
        let c' : Copy := ⟨prepared txnv fresh moved, c.serial⟩
        { t.lock handle c' (.preparing (some req) c') with
          allocated := fresh :: s.allocated }
  | .reap handle now txnv fresh =>
    match s.heap[handle]? with
    | none => s
    | some c =>
      -- An abort that was prepared before is taken up again.
      if c.entry.state = .prepareAbort then
        { s with tasks := .marking none c c.entry.partitions :: s.tasks }
      else if c.entry.shouldAbortIdleTxn now then
        let c' : Copy := ⟨prepared txnv fresh c.entry.applyPrepareAbort, c.serial⟩
        { s.lock handle c' (.preparing none c') with allocated := fresh :: s.allocated }
      else s
  | .writeMarker ender copy todo tp =>
    let t := s.drop (.marking ender copy todo)
    { t with
      tasks := .marking ender copy (todo.erase tp) :: t.tasks
      markers := marker copy ender.committed tp :: s.markers }
  | .complete ender copy handle =>
    let t := s.drop (.marking ender copy ∅)
    match s.heap[handle]? with
    | none => t
    | some c =>
      match completed ender c.entry copy.entry with
      | none => t
      | some e' => t.lock handle ⟨e', c.serial⟩ (.completing ⟨e', c.serial⟩)

def sys : Sys Coordinator Step where
  enabled := Enabled
  next := next

instance (l : Step) : Decidable (sys.enabled s l) := inferInstanceAs (Decidable (s.Enabled l))

/-- A transactional id that was just initialised, with a new entry under the only handle. -/
def initial (producerId producerEpoch timeoutMs nowMs : ℤ) : Coordinator where
  heap := [{ entry := .newEmpty producerId producerEpoch timeoutMs nowMs }]
  allocated := [producerId]

/-- No identity gets markers of both types, and once the entry in the map is complete, or of a later transaction, the
partitions of the transaction have its marker. -/
def Atomic : Prop :=
  (∀ m ∈ s.markers, ∀ m' ∈ s.markers, m.producerId = m'.producerId →
    m.producerEpoch = m'.producerEpoch → m.committed = m'.committed) ∧
  ∀ c ∈ s.heap[s.slot]?, ∀ a ∈ s.answered,
    a.1 < c.serial ∨ a.1 = c.serial ∧ c.entry.state.isComplete = true →
      ∃ m ∈ s.markers, m.serial = a.1 ∧ m.partition = a.2 ∧ (a.1 = c.serial → c.entry.state = .complete m.committed)

instance : Decidable s.Atomic := inferInstanceAs (Decidable (_ ∧ _))

def Quiet : Prop := ∀ t ∈ s.tasks, t.pending = none

instance : Decidable s.Quiet := inferInstanceAs (Decidable (∀ t ∈ s.tasks, _))

/-- Entries are mutated only in the map and while no copy waits to be persisted; transactions are prepared with the
epoch bump. -/
def Serial : Step → Prop
  | .register handle _ _ _ _ | .complete _ _ handle => handle = s.slot ∧ s.Quiet
  | .prepare handle _ txnv _ | .reap handle _ txnv _ =>
    handle = s.slot ∧ s.Quiet ∧ txnv.isVerified = true
  | .persist _ | .validate .. | .writeMarker .. => True

instance (l : Step) : Decidable (s.Serial l) := by
  cases l <;> unfold Serial <;> infer_instance

end Coordinator

/-! ## The identities of ended transactions -/

/-- How a transaction was ended, and under which identity. -/
structure Verdict where
  serial : ℕ
  producerId : ℤ
  producerEpoch : ℤ
  committed : Bool

def Copy.verdict (c : Copy) (committed : Bool) : Verdict :=
  ⟨c.serial, c.entry.producerId, c.entry.producerEpoch, committed⟩

def Marker.verdict (m : Marker) : Verdict :=
  ⟨m.serial, m.producerId, m.producerEpoch, m.committed⟩

/-- The verdicts so far: no two under one identity, none ahead of the epoch, and none under an id that is staged. -/
structure Ledger (D : Set Verdict) (allocated : List ℤ) (c : Copy) : Prop where
  unique : ∀ d ∈ D, ∀ d' ∈ D, d.producerId = d'.producerId → d.producerEpoch = d'.producerEpoch → d = d'
  bounded : ∀ d ∈ D, d.producerId = c.entry.producerId → d.producerEpoch ≤ c.entry.producerEpoch
  handedOut : ∀ d ∈ D, d.producerId ∈ allocated
  current : c.entry.producerId ∈ allocated
  prepared : ∀ b, c.entry.state = .prepare b → c.verdict b ∈ D
  unstaged : c.entry.hasStagedProducerIdentity = false → c.entry.producerEpoch < i16Max
  staged : c.entry.hasStagedProducerIdentity = true → c.entry.state.isPrepare = true ∧
    c.entry.nextProducerEpoch = 0 ∧ c.entry.nextProducerId ∈ allocated ∧
    ∀ d ∈ D, d.producerId ≠ c.entry.nextProducerId

namespace Ledger
variable {D : Set Verdict} {allocated : List ℤ} {c : Copy}
section
variable (h : Ledger D allocated c)
include h

lemma register {pid epoch now : ℤ} {ps : Finset TopicPartition}
    {e' : TxnEntry} (hr : c.entry.registerPartitions pid epoch ps now = .ok e') :
    Ledger D allocated (Coordinator.registered c e') := by
  obtain ⟨hunstaged, -, hstate, hpid, hepoch, hnext, -, -⟩ := registerPartitions_spec hr
  have hunstaged' : e'.hasStagedProducerIdentity = false := by
    rwa [hasStagedProducerIdentity, hnext]
  exact {
    unique := h.unique
    bounded := fun d hd heq => by
      show d.producerEpoch ≤ e'.producerEpoch
      rw [hepoch]
      exact h.bounded d hd (heq.trans hpid)
    handedOut := h.handedOut
    current := by exact hpid ▸ h.current
    prepared := fun b hb => by
      have : ongoing = .prepare b := hstate.symm.trans hb
      cases b <;> cases this
    unstaged := fun _ => by
      show e'.producerEpoch < i16Max
      rw [hepoch]
      exact h.unstaged hunstaged
    staged := fun hs => by
      have hs' : e'.hasStagedProducerIdentity := hs
      rw [hunstaged'] at hs'
      cases hs' }

lemma prepare (hongoing : c.entry.state = .ongoing)
    {txnv : TxnVersion} (hv : txnv.isVerified) {fresh : ℤ} (hfresh : fresh ∉ allocated)
    (b : Bool) :
    ∃ e', Coordinator.prepared txnv fresh { c.entry with state := .prepare b } = e' ∧
      e'.state = .prepare b ∧ e'.partitions = c.entry.partitions ∧
      (∀ d ∈ D, d.producerId = e'.producerId → d.producerEpoch ≠ e'.producerEpoch) ∧
      Ledger (insert (Copy.verdict ⟨e', c.serial⟩ b) D) (fresh :: allocated) ⟨e', c.serial⟩ := by
  have hunstaged : c.entry.hasStagedProducerIdentity = false := by
    by_contra hs
    have hprep := (h.staged (by simpa using hs)).1
    rw [hongoing] at hprep
    cases hprep
  have hne : fresh ≠ c.entry.producerId := fun heq => hfresh (heq ▸ h.current)
  obtain ⟨e', he', hstate, hpid, hepoch, hparts, hnext⟩ :=
    prepareCompletionIdentities_spec (e := { c.entry with state := .prepare b }) hv
      hunstaged (h.unstaged hunstaged) hne
  have hnew : ∀ d ∈ D, d.producerId = e'.producerId → d.producerEpoch < e'.producerEpoch := by
    intro d hd heq
    have := h.bounded d hd (heq.trans hpid)
    simp only at hepoch
    omega
  have hcurrent : e'.producerId ∈ fresh :: allocated := by
    rw [hpid]
    exact mem_cons_of_mem _ h.current
  refine ⟨e', by rw [Coordinator.prepared, he', Option.getD_some], hstate, hparts,
    fun d hd heq => (hnew d hd heq).ne, ?_⟩
  exact {
    unique := by
      rintro d (rfl | hd) d' (rfl | hd') hid hep
      · rfl
      · exact absurd hep.symm (hnew d' hd' hid.symm).ne
      · exact absurd hep (hnew d hd hid).ne
      · exact h.unique d hd d' hd' hid hep
    bounded := by
      rintro d (rfl | hd) heq
      · exact le_rfl
      · exact (hnew d hd heq).le
    handedOut := by
      rintro d (rfl | hd)
      · exact hcurrent
      · exact mem_cons_of_mem _ (h.handedOut d hd)
    current := hcurrent
    prepared := fun b' hb' => by
      obtain rfl := prepare_injective (hstate.symm.trans hb')
      exact Set.mem_insert _ _
    unstaged := fun hs => by
      rcases hnext with ⟨-, hlt⟩ | ⟨hzero, -⟩
      · exact hlt
      · simp [hasStagedProducerIdentity, hzero] at hs
    staged := fun hs => by
      rcases hnext with ⟨hneg, -⟩ | ⟨hzero, hid⟩
      · simp [hasStagedProducerIdentity, hneg] at hs
      · refine ⟨by rw [hstate]; exact isPrepare_prepare b, hzero, ?_, ?_⟩
        · rw [hid]
          exact mem_cons_self
        · rintro d (rfl | hd)
          · show e'.producerId ≠ e'.nextProducerId
            rw [hid, hpid]
            exact hne.symm
          · rw [hid]
            exact fun heq => hfresh (heq ▸ h.handedOut d hd) }

lemma finish (b : Bool) (prior : ℤ) :
    Ledger D allocated ⟨c.entry.finish b c.entry.completionProducerIdentity prior, c.serial⟩ := by
  have hbound : (∀ d ∈ D, d.producerId = c.entry.completionProducerIdentity.1 →
        d.producerEpoch ≤ c.entry.completionProducerIdentity.2) ∧
      c.entry.completionProducerIdentity.1 ∈ allocated ∧
      c.entry.completionProducerIdentity.2 < i16Max := by
    unfold completionProducerIdentity clientProducerIdentity
    by_cases hs : c.entry.hasStagedProducerIdentity
    · obtain ⟨-, hzero, hid, hfree⟩ := h.staged hs
      rw [if_pos hs]
      exact ⟨fun d hd heq => absurd heq (hfree d hd), hid, by
        show c.entry.nextProducerEpoch < i16Max
        rw [hzero]
        decide⟩
    · rw [if_neg hs]
      exact ⟨h.bounded, h.current, h.unstaged (by simpa using hs)⟩
  exact {
    unique := h.unique
    bounded := hbound.1
    handedOut := h.handedOut
    current := hbound.2.1
    prepared := fun b' hb' => absurd hb' (complete_ne_prepare b b')
    unstaged := fun _ => hbound.2.2
    staged := fun hs => by simp [TxnEntry.hasStagedProducerIdentity, TxnEntry.finish] at hs }

end
end Ledger

/-! ## The waiting procedures -/

def TaskOk (D : Set Verdict) (markers : List Marker) (c : Copy) : Task → Prop
  | .registering ps k => k = c ∧ c.entry.state = .ongoing ∧ ps ⊆ c.entry.partitions
  | .validated .. => True
  | .preparing ender k => k = c ∧ c.entry.state = .prepare ender.committed
  | .marking ender k todo =>
    k.verdict ender.committed ∈ D ∧
    -- A prepared entry under the same identity is the one that was copied.
    (k.entry.producerId = c.entry.producerId → k.entry.producerEpoch = c.entry.producerEpoch →
      c.entry.state.isPrepare = true → k = c) ∧
    ∀ tp ∈ k.entry.partitions, tp ∈ todo ∨ Coordinator.marker k ender.committed tp ∈ markers
  | .completing k => k = c

/-- A procedure that persists nothing survives a new identity, or a change out of the prepared state. -/
lemma TaskOk.relock {D D' : Set Verdict} {markers : List Marker} {c c' : Copy} {t : Task}
    (h : TaskOk D markers c t) (hidle : t.pending = none) (hD : D ⊆ D')
    (hnew : ∀ d ∈ D, d.producerId = c'.entry.producerId →
      d.producerEpoch = c'.entry.producerEpoch → c'.entry.state.isPrepare = false) :
    TaskOk D' markers c' t := by
  cases t with
  | validated handle req => trivial
  | marking ender k todo =>
    obtain ⟨hmem, -, hdone⟩ := h
    refine ⟨hD hmem, fun hid hep hprep => ?_, hdone⟩
    rw [hnew _ hmem hid hep] at hprep
    cases hprep
  | registering ps k | preparing ender k | completing k => cases hidle

variable {markers markers' : List Marker}

lemma TaskOk.mono {D : Set Verdict} {c : Copy} {t : Task}
    (h : TaskOk D markers c t) (hsub : markers ⊆ markers') : TaskOk D markers' c t := by
  cases t with
  | marking ender k todo =>
    exact ⟨h.1, h.2.1, fun tp htp => (h.2.2 tp htp).imp_right fun hm => hsub hm⟩
  | _ => exact h

/-! ## The answered registrations -/

/-- A marker of a transaction is on a partition. -/
def Marked (markers : List Marker) (a : ℕ × TopicPartition) (committed : Bool) : Prop :=
  ∃ m ∈ markers, m.serial = a.1 ∧ m.partition = a.2 ∧ m.committed = committed

/-- A registration of the current transaction: its partition is in the entry until the markers are
written. -/
def Honoured (markers : List Marker) (c : Copy) (a : ℕ × TopicPartition) : Prop :=
  match c.entry.state with
  | .ongoing | .prepareCommit | .prepareAbort => a.2 ∈ c.entry.partitions
  | .completeCommit => Marked markers a true
  | .completeAbort => Marked markers a false
  | .empty | .dead => False

/-- The registrations that were answered, against the markers. -/
structure Answers (markers : List Marker) (answered : Finset (ℕ × TopicPartition)) (c : Copy) :
    Prop where
  le : ∀ a ∈ answered, a.1 ≤ c.serial
  current : ∀ a ∈ answered, a.1 = c.serial → Honoured markers c a
  past : ∀ a ∈ answered, a.1 < c.serial → ∃ b, Marked markers a b

lemma Marked.mono {a : ℕ × TopicPartition} {b : Bool}
    (h : Marked markers a b) (hsub : markers ⊆ markers') : Marked markers' a b :=
  h.imp fun _ hm => hm.imp_left fun hmem => hsub hmem

namespace Answers
variable {markers : List Marker} {answered : Finset (ℕ × TopicPartition)} {c : Copy}
section
variable (h : Answers markers answered c)
include h

lemma mono {markers' : List Marker}
    (hsub : markers ⊆ markers') : Answers markers' answered c where
  le := h.le
  current a ha heq := by
    have := h.current a ha heq
    unfold Honoured at *
    split <;> simp_all only
    · exact this.mono hsub
    · exact this.mono hsub
  past a ha hlt := (h.past a ha hlt).imp fun _ hm => hm.mono hsub

/-- A registration keeps the promises of the open transaction, and closes those of a complete one.
-/
lemma register {pid epoch now : ℤ}
    {ps : Finset TopicPartition} {e' : TxnEntry}
    (hr : c.entry.registerPartitions pid epoch ps now = .ok e') :
    Answers markers answered (Coordinator.registered c e') := by
  obtain ⟨-, hmove, hstate, -, -, -, -, hkept⟩ := registerPartitions_spec hr
  by_cases hongoing : c.entry.state = .ongoing
  · have hserial : (Coordinator.registered c e').serial = c.serial := if_pos hongoing
    refine ⟨fun a ha => hserial ▸ h.le a ha, fun a ha heq => ?_, fun a ha hlt => h.past a ha (hserial ▸ hlt)⟩
    have := h.current a ha (hserial ▸ heq)
    simp only [Honoured, hongoing] at this
    simp only [Honoured, Coordinator.registered, hstate]
    exact hkept hongoing this
  · have hserial : (Coordinator.registered c e').serial = c.serial + 1 := if_neg hongoing
    refine ⟨fun a ha => ?_, fun a ha heq => ?_, fun a ha hlt => ?_⟩
    · have := h.le a ha
      omega
    · have := h.le a ha
      omega
    · rcases Nat.lt_or_eq_of_le (h.le a ha) with hpast | heq
      · exact h.past a ha hpast
      · -- The transaction that ends here is complete.
        have := h.current a ha heq
        unfold Honoured at this
        generalize c.entry.state = state at *
        cases state with
        | completeCommit => exact ⟨true, this⟩
        | completeAbort => exact ⟨false, this⟩
        | empty | dead => exact this.elim
        | ongoing => exact absurd rfl hongoing
        | prepareCommit | prepareAbort => cases hmove

lemma prepare (hongoing : c.entry.state = .ongoing)
    {e' : TxnEntry} {b : Bool} (hstate : e'.state = .prepare b)
    (hparts : e'.partitions = c.entry.partitions) : Answers markers answered ⟨e', c.serial⟩ where
  le := h.le
  past := h.past
  current a ha heq := by
    have := h.current a ha heq
    simp only [Honoured, hongoing] at this
    unfold Honoured
    rw [hstate, hparts]
    cases b <;> exact this

lemma finish {b : Bool} (hstate : c.entry.state = .prepare b)
    (hall : ∀ tp ∈ c.entry.partitions, Coordinator.marker c b tp ∈ markers) {e' : TxnEntry}
    (hstate' : e'.state = .complete b) : Answers markers answered ⟨e', c.serial⟩ where
  le := h.le
  past := h.past
  current a ha heq := by
    have hin : a.2 ∈ c.entry.partitions := by
      have := h.current a ha heq
      unfold Honoured at this
      rw [hstate] at this
      cases b <;> exact this
    have hmarked : Marked markers a b := ⟨_, hall a.2 hin, heq.symm, rfl, rfl⟩
    unfold Honoured
    rw [hstate']
    cases b <;> exact hmarked

lemma answer (hongoing : c.entry.state = .ongoing) {ps : Finset TopicPartition} (hps : ps ⊆ c.entry.partitions) :
    Answers markers (ps.image (fun tp => (c.serial, tp)) ∪ answered) c := by
  have hnew : ∀ a ∈ ps.image (fun tp => (c.serial, tp)), a.1 = c.serial ∧ a.2 ∈ ps := by
    intro a ha
    obtain ⟨tp, htp, rfl⟩ := Finset.mem_image.mp ha
    exact ⟨rfl, htp⟩
  refine ⟨fun a ha => ?_, fun a ha heq => ?_, fun a ha hlt => ?_⟩ <;> rcases Finset.mem_union.mp ha with hin | hin
  · exact (hnew a hin).1.le
  · exact h.le a hin
  · unfold Honoured
    rw [hongoing]
    exact hps (hnew a hin).2
  · exact h.current a hin heq
  · exact absurd (hnew a hin).1 hlt.ne
  · exact h.past a hin hlt

end
end Answers

/-! ## Serial runs -/

namespace Coordinator

/-- What holds in every state of a serial run, for the verdicts so far and the current copy. -/
structure Inv (D : Set Verdict) (c : Copy) (s : Coordinator) : Prop where
  current : s.heap[s.slot]? = some c
  ledger : Ledger D s.allocated c
  tasks : ∀ t ∈ s.tasks, TaskOk D s.markers c t
  markers : ∀ m ∈ s.markers, m.verdict ∈ D
  answers : Answers s.markers s.answered c

variable {D : Set Verdict} {c : Copy} {s : Coordinator}
section
variable (h : Inv D c s)
include h

lemma Inv.drop (task : Task) : Inv D c (s.drop task) :=
  { h with tasks := fun t ht => h.tasks t (mem_of_mem_erase ht) }

lemma Inv.addTask {task : Task} (ht : TaskOk D s.markers c task) :
    Inv D c { s with tasks := task :: s.tasks } :=
  { h with tasks := forall_mem_cons.mpr ⟨ht, h.tasks⟩ }

lemma Inv.install : Inv D c (s.install c) := by
  have hcur : (s.heap ++ [c])[s.heap.length]? = some c := by
    rw [List.getElem?_append_right le_rfl, Nat.sub_self]
    rfl
  exact { h with current := hcur }

lemma Inv.lock (hquiet : s.Quiet) {D' : Set Verdict} {c' : Copy} {task : Task}
    {allocated : List ℤ} (hD : D ⊆ D') (hledger : Ledger D' allocated c')
    (hnew : ∀ d ∈ D, d.producerId = c'.entry.producerId →
      d.producerEpoch = c'.entry.producerEpoch → c'.entry.state.isPrepare = false)
    (htask : TaskOk D' s.markers c' task) (hanswers : Answers s.markers s.answered c') :
    Inv D' c' { s.lock s.slot c' task with allocated := allocated } where
  current := by
    have hlt : s.slot < s.heap.length := (List.getElem?_eq_some_iff.mp h.current).1
    exact List.getElem?_set_self hlt
  ledger := hledger
  tasks := forall_mem_cons.mpr ⟨htask, fun t ht => (h.tasks t ht).relock (hquiet t ht) hD hnew⟩
  markers m hm := hD (h.markers m hm)
  answers := hanswers

omit h in
lemma Quiet.drop (h : s.Quiet) (task : Task) : (s.drop task).Quiet :=
  fun t ht => h t (mem_of_mem_erase ht)

/-- An ongoing transaction is prepared under a verdict of its own. -/
lemma Inv.prepare (hquiet : s.Quiet) (hongoing : c.entry.state = .ongoing)
    {txnv : TxnVersion} (hv : txnv.isVerified) {fresh : ℤ} (hfresh : fresh ∉ s.allocated)
    (ender : Ender) {c' : Copy}
    (hc' : c' = ⟨prepared txnv fresh { c.entry with state := .prepare ender.committed },
      c.serial⟩) :
    ∃ D' c'', Inv D' c'' { s.lock s.slot c' (.preparing ender c') with allocated := fresh :: s.allocated } := by
  obtain ⟨e', he', hstate, hparts, hnew, hledger⟩ :=
    h.ledger.prepare hongoing hv hfresh ender.committed
  rw [he'] at hc'
  subst hc'
  exact ⟨_, _, h.lock hquiet (Set.subset_insert _ _) hledger
    (fun d hd hid hep => absurd hep (hnew d hd hid)) ⟨rfl, hstate⟩
    (h.answers.prepare hongoing hstate hparts)⟩

/-- The transaction is completed once all its markers are written. -/
lemma Inv.complete (hquiet : s.Quiet) {ender : Ender} {k : Copy}
    (hk : TaskOk D s.markers c (.marking ender k ∅)) {e' : TxnEntry}
    (hc : completed ender c.entry k.entry = some e') :
    ∃ D' c', Inv D' c' (s.lock s.slot ⟨e', c.serial⟩ (.completing ⟨e', c.serial⟩)) := by
  obtain ⟨-, hcopied, hdone⟩ := hk
  -- Both procedures check the identity and the state.
  obtain ⟨hid, hep, hstate, hfinish⟩ : c.entry.producerId = k.entry.producerId ∧
      c.entry.producerEpoch = k.entry.producerEpoch ∧
      c.entry.state = .prepare ender.committed ∧
      ∃ prior, e' = c.entry.finish ender.committed
        (if ender.isSome then k.entry.completionProducerIdentity
          else c.entry.completionProducerIdentity) prior := by
    cases ender with
    | some req =>
      obtain ⟨h₁, h₂, h₃, h₄⟩ := completeEndTxn_spec hc
      exact ⟨h₁, h₂, h₃, _, h₄⟩
    | none =>
      obtain ⟨h₁, h₂, h₃, h₄⟩ := completeAbort_spec hc
      exact ⟨h₁, h₂, h₃, _, h₄⟩
  obtain rfl : k = c := hcopied hid.symm hep.symm (by rw [hstate]; simp)
  obtain ⟨prior, rfl⟩ := hfinish
  rw [ite_self]
  refine ⟨D, _, h.lock hquiet subset_rfl (h.ledger.finish ender.committed prior) (fun _ _ _ _ => ?_)
    rfl (h.answers.finish hstate (fun tp htp => ?_) rfl)⟩
  · exact isPrepare_complete _
  · exact (hdone tp htp).resolve_left (Finset.notMem_empty tp)

lemma Inv.register {pid epoch now : ℤ} {ps : Finset TopicPartition} (hquiet : s.Quiet) :
    ∃ D' c', Inv D' c' (s.next (.register s.slot pid epoch ps now)) := by
  simp only [next, h.current]
  split
  · exact ⟨D, c, h⟩
  · rename_i e' hr
    obtain ⟨-, -, hstate, -, -, -, hps, -⟩ := registerPartitions_spec hr
    exact ⟨D, _, h.lock hquiet subset_rfl (h.ledger.register hr)
      (fun _ _ _ _ => by show e'.state.isPrepare = false; rw [hstate]; rfl) ⟨rfl, hstate, hps⟩
      (h.answers.register hr)⟩

/-- `put` returns: the copy is installed, and its task answers, goes on to the markers or ends. -/
lemma Inv.persist {task : Task} (hen : s.Enabled (.persist task)) : ∃ D' c', Inv D' c' (s.next (.persist task)) := by
  obtain ⟨hmem, hpending⟩ := hen
  have ht := h.tasks task hmem
  cases task with
  | registering ps k =>
    obtain ⟨rfl, hongoing, hps⟩ := ht
    have hinst := (h.drop (.registering ps k)).install
    exact ⟨D, k, { hinst with answers := h.answers.answer hongoing hps }⟩
  | preparing ender k =>
    obtain ⟨rfl, hstate⟩ := ht
    have hinst := (h.drop (.preparing ender k)).install
    exact ⟨D, k, hinst.addTask ⟨h.ledger.prepared _ hstate, fun _ _ _ => rfl, fun tp htp => .inl htp⟩⟩
  | completing k =>
    obtain rfl : k = c := ht
    exact ⟨D, k, (h.drop (.completing k)).install⟩
  | validated handle req | marking ender k todo => cases hpending

lemma Inv.validate (handle : ℕ) (req : EndTxnRequest) : ∃ D' c', Inv D' c' (s.next (.validate handle req)) := by
  simp only [next]
  split
  · exact ⟨D, c, h⟩
  · split
    · exact ⟨D, c, h.addTask trivial⟩
    · exact ⟨D, c, h⟩

lemma Inv.prepareEnd {req : EndTxnRequest} {txnv : TxnVersion} {fresh : ℤ} (hquiet : s.Quiet) (hv : txnv.isVerified)
    (hfresh : fresh ∉ s.allocated) : ∃ D' c', Inv D' c' (s.next (.prepare s.slot req txnv fresh)) := by
  have hdrop := h.drop (.validated s.slot req)
  simp only [next, h.current]
  split
  · exact ⟨D, c, hdrop⟩
  · rename_i moved hmoved
    unfold decidePhase1Transition at hmoved
    split at hmoved
    · cases hmoved
    · rename_i hmove
      cases hmoved
      have hongoing := eq_ongoing_of_canTransitionTo_prepare (b := req.committed) (by simpa using hmove)
      exact hdrop.prepare (hquiet.drop _) hongoing hv hfresh (some req) rfl

/-- The reaper takes up a prepared abort again, or prepares the abort of an idle transaction. -/
lemma Inv.reap {now : ℤ} {txnv : TxnVersion} {fresh : ℤ} (hquiet : s.Quiet) (hv : txnv.isVerified)
    (hfresh : fresh ∉ s.allocated) : ∃ D' c', Inv D' c' (s.next (.reap s.slot now txnv fresh)) := by
  simp only [next, h.current]
  split
  · rename_i hstate
    exact ⟨D, c, h.addTask ⟨h.ledger.prepared false hstate, fun _ _ _ => rfl, fun tp htp => .inl htp⟩⟩
  · split
    · rename_i hidle
      simp only [shouldAbortIdleTxn, Bool.and_eq_true, decide_eq_true_eq] at hidle
      exact h.prepare hquiet hidle.1.1 hv hfresh none rfl
    · exact ⟨D, c, h⟩

lemma Inv.writeMarker {ender : Ender} {k : Copy} {todo : Finset TopicPartition} {tp : TopicPartition}
    (hen : s.Enabled (.writeMarker ender k todo tp)) : ∃ D' c', Inv D' c' (s.next (.writeMarker ender k todo tp)) := by
  obtain ⟨hmem, htp⟩ := hen
  obtain ⟨hverdict, hcopied, hdone⟩ := h.tasks _ hmem
  have hsub : s.markers ⊆ marker k ender.committed tp :: s.markers := subset_cons_self _ _
  have hdrop := h.drop (.marking ender k todo)
  refine ⟨D, c, {
    current := h.current
    ledger := h.ledger
    tasks := forall_mem_cons.mpr ⟨⟨hverdict, hcopied, fun tp' htp' => ?_⟩, fun t ht =>
      (hdrop.tasks t ht).mono hsub⟩
    markers := forall_mem_cons.mpr ⟨hverdict, h.markers⟩
    answers := h.answers.mono hsub }⟩
  by_cases heq : tp' = tp
  · exact .inr (heq ▸ mem_cons_self)
  · exact (hdone tp' htp').imp (fun hin => Finset.mem_erase.mpr ⟨heq, hin⟩) fun hm => hsub hm

/-- **Every serial step keeps the invariant.** -/
lemma Inv.step {l : Step} (hen : s.Enabled l) (hok : s.Serial l) : ∃ D' c', Inv D' c' (s.next l) := by
  cases l with
  | register handle pid epoch ps now =>
    obtain ⟨rfl, hquiet⟩ := hok
    exact h.register hquiet
  | persist task => exact h.persist hen
  | validate handle req => exact h.validate handle req
  | prepare handle req txnv fresh =>
    obtain ⟨rfl, hquiet, hv⟩ := hok
    exact h.prepareEnd hquiet hv hen.2.2
  | reap handle now txnv fresh =>
    obtain ⟨rfl, hquiet, hv⟩ := hok
    exact h.reap hquiet hv hen.2
  | writeMarker ender k todo tp => exact h.writeMarker hen
  | complete ender k handle =>
    obtain ⟨rfl, hquiet⟩ := hok
    have hk := h.tasks _ hen.1
    have hdrop := h.drop (.marking ender k ∅)
    simp only [next, h.current]
    split
    · exact ⟨D, c, hdrop⟩
    · rename_i e' hc
      exact hdrop.complete (hquiet.drop _) hk hc

lemma Inv.atomic : s.Atomic := by
  refine ⟨fun m hm m' hm' hid hep => ?_, fun c' hc' a ha hended => ?_⟩
  · exact congrArg Verdict.committed
      (h.ledger.unique _ (h.markers m hm) _ (h.markers m' hm') hid hep)
  · obtain rfl : c = c' := Option.some.inj (h.current.symm.trans hc')
    rcases hended with hlt | ⟨heq, hcomplete⟩
    · obtain ⟨b, m, hm, hs, hp, -⟩ := h.answers.past a ha hlt
      exact ⟨m, hm, hs, hp, fun heq => absurd heq hlt.ne⟩
    · have hcur := h.answers.current a ha heq
      unfold Honoured at hcur
      split at hcur <;> rename_i hstate <;> rw [hstate] at hcomplete ⊢
      any_goals cases hcomplete
      · obtain ⟨m, hm, hs, hp, hb⟩ := hcur
        exact ⟨m, hm, hs, hp, fun _ => by rw [hb]; rfl⟩
      · obtain ⟨m, hm, hs, hp, hb⟩ := hcur
        exact ⟨m, hm, hs, hp, fun _ => by rw [hb]; rfl⟩

end
variable {pid epoch timeoutMs nowMs : ℤ}

lemma inv_initial (hlt : epoch < i16Max) :
    Inv ∅ { entry := .newEmpty pid epoch timeoutMs nowMs } (initial pid epoch timeoutMs nowMs) where
  current := rfl
  ledger :=
    { unique := fun _ hd => hd.elim
      bounded := fun _ hd => hd.elim
      handedOut := fun _ hd => hd.elim
      current := mem_singleton_self _
      prepared := fun b hb => by cases b <;> cases hb
      unstaged := fun _ => hlt
      staged := fun hs => by cases hs }
  tasks := fun _ ht => nomatch ht
  markers := fun _ hm => nomatch hm
  answers :=
    { le := fun _ ha => absurd ha (Finset.notMem_empty _)
      current := fun _ ha => absurd ha (Finset.notMem_empty _)
      past := fun _ ha => absurd ha (Finset.notMem_empty _) }

def orders : TopicPartition := ⟨"orders", 0⟩

def registeredCopy (serial : ℕ) : Copy where
  entry :=
    { producerId := 7, producerEpoch := 0, state := .ongoing, txnTimeoutMs := 1000,
      partitions := {orders}, startMs := 0 }
  serial := serial

def preparedCopy (serial : ℕ) (epoch : ℤ) (committed : Bool) : Copy :=
  { registeredCopy serial with
    entry := { (registeredCopy serial).entry with
      producerEpoch := epoch, state := .prepare committed } }

def completedCopy (serial : ℕ) (epoch : ℤ) (committed : Bool) : Copy :=
  { registeredCopy serial with
    entry := { (registeredCopy serial).entry with
      producerEpoch := epoch, state := .complete committed, partitions := ∅ } }

def registerSteps (handle serial : ℕ) : List Step :=
  [.register handle 7 0 {orders} 0, .persist (.registering {orders} (registeredCopy serial))]

/-- It ends the transaction: up to the marker of the partition. -/
def endSteps (handle serial : ℕ) (txnv : TxnVersion) (epoch : ℤ) (committed : Bool) : List Step :=
  let req : EndTxnRequest := ⟨7, 0, committed⟩
  let k := preparedCopy serial epoch committed
  [.validate handle req, .prepare handle req txnv (100 + handle), .persist (.preparing (some req) k),
    .writeMarker (some req) k {orders} orders]

def completeSteps (handle serial : ℕ) (epoch : ℤ) (committed : Bool) : List Step :=
  [.complete (some ⟨7, 0, committed⟩) (preparedCopy serial epoch committed) handle,
    .persist (.completing (completedCopy serial epoch committed))]

/-- In every serial run a transaction ends one way under its identity, and the partitions of an
answered registration have its marker by the time the entry is complete. -/
theorem transactions_atomic (hlt : epoch < i16Max)
    {s : Coordinator} (hrun : sys.Run Serial (initial pid epoch timeoutMs nowMs) s) :
    s.Atomic := by
  obtain ⟨D, c, h⟩ := hrun.preserves (P := fun t => ∃ D c, Inv D c t)
    (fun _ _ ⟨_, _, h⟩ hen hok => h.step hen hok) ⟨_, _, inv_initial hlt⟩
  exact h.atomic

/-- A transaction that is registered, committed and completed. -/
theorem transactions_atomic_commit :
    (sys.execs (initial 7 0 1000 0)
      (registerSteps 0 1 ++ endSteps 1 1 .verified 1 true ++ completeSteps 2 1 1 true)).Atomic :=
  transactions_atomic (by decide) Sys.run_of_runsOk

/-- Below version 2 the epoch stays, and two transactions of one epoch end in different ways. -/
example :
    let steps := registerSteps 0 1 ++ endSteps 1 1 .classic 0 true ++ completeSteps 2 1 0 true ++
      registerSteps 3 2 ++ endSteps 4 2 .classic 0 false
    sys.AnyRun (initial 7 0 1000 0) (sys.execs (initial 7 0 1000 0) steps) ∧
      ¬ (sys.execs (initial 7 0 1000 0) steps).Atomic :=
  ⟨Sys.run_of_runs, by decide +kernel⟩

/-- The registration's persist returns after the transaction was prepared and marked: the entry is
`Ongoing` again, and is aborted under the epoch of its commit markers. -/
theorem late_persist_revives :
    let steps := [.register 0 7 0 {orders} 0] ++ endSteps 0 1 .verified 1 true ++
      [.persist (.registering {orders} (registeredCopy 1))] ++ endSteps 2 1 .verified 1 false
    sys.AnyRun (initial 7 0 1000 0) (sys.execs (initial 7 0 1000 0) steps) ∧
      ¬ (sys.execs (initial 7 0 1000 0) steps).Atomic :=
  ⟨Sys.run_of_runs, by decide +kernel⟩

end Coordinator
end Crabka.Broker.Txn
