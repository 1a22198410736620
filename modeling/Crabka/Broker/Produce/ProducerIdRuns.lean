import Crabka.Broker.Produce.ProducerIds

/-!
# No producer id is handed out twice

Blocks start at multiples of the block size, so applied reservations are disjoint (`IdInv.first_eq`). Inside a broker
only the task with the refill lock installs a block, and `end_exclusive` only grows, so a task that saw `next` below an
older end exchanges only inside the installed block (`IdInv.claim`).
-/

namespace Crabka.Broker
open Found Function List
open Kraft (NodeId)
open Metadata (MetadataImage MetadataRecord ProducerIdsRecord)
open ProducerIdManager IdCluster Option List

/-! ## The invariant -/

section invariant
variable {subs subs' : List BlockSubmission} {bound bound' : ℤ} {m m' : ProducerIdManager}

/-- The value that a task is about to exchange is inside the block; the block it is about to install starts at or
above the end of the present one. -/
def TaskInv (subs : List BlockSubmission) (m : ProducerIdManager) : Task → Prop
  | .checked _ v => v < m.endExclusive
  | .submitted _ first n => ∃ s, subs[n]? = some s ∧ s.first = first ∧
      (s.applied = true → m.endExclusive ≤ first)
  | .granted first n => ∃ s, subs[n]? = some s ∧ s.first = first ∧ s.applied = true ∧
      m.endExclusive ≤ first
  | .stored first n => ∃ s, subs[n]? = some s ∧ s.first = first ∧ s.applied = true ∧
      m.endExclusive ≤ first ∧ m.next = first ∧ m.block = none
  | _ => True

/-- What holds at one broker, with the boundary `bound` at the controller. -/
structure ManagerInv (subs : List BlockSubmission) (bound : ℤ) (m : ProducerIdManager) : Prop where
  lock : ∀ t, (m.tasks t).locks = true → m.refill = some t
  ends : ∀ e ∈ m.endSeen, e ≤ m.endExclusive
  end_le : m.endExclusive ≤ bound
  task : ∀ t, TaskInv subs m (m.tasks t)
  empty : m.block = none → m.endExclusive ≤ m.next
  full : ∀ n, m.block = some n → ∃ s, subs[n]? = some s ∧ s.applied = true ∧
    m.endExclusive = s.first + producerIdBlockSize ∧ s.first ≤ m.next ∧ m.next ≤ m.endExclusive
  apart : ∀ t n, (m.tasks t).submission = some n → m.block ≠ some n

variable {task : Task}

lemma Task.locks_of_submission {n : ℕ} (h : task.submission = some n) : task.locks = true := by
  cases task <;> simp_all [Task.submission, Task.locks]

variable {t : ℕ}

lemma ManagerInv.same_task (h : ManagerInv subs bound m) {t' : ℕ} (ht : (m.tasks t).locks)
    (ht' : (m.tasks t').locks) : t = t' :=
  some.inj ((h.lock t ht).symm.trans (h.lock t' ht'))

@[simp] lemma tasks_move_self (t : ℕ) (task : Task) : (m.move t task).tasks t = task :=
  update_self ..

lemma tasks_move_of_ne {t' : ℕ} (h : t' ≠ t) (task : Task) :
    (m.move t task).tasks t' = m.tasks t' := update_of_ne h ..

lemma forall_tasks_move (m : ProducerIdManager) {P : ℕ → Task → Prop} (ht : P t task)
    (h : ∀ t' ≠ t, P t' (m.tasks t')) : ∀ t', P t' ((m.move t task).tasks t') :=
  (forall_update_iff _ _).mpr ⟨ht, h⟩

def Task.Known (m : ProducerIdManager) (task : Task) : Prop :=
  ∀ n, task.submission = some n → ∃ t, (m.tasks t).submission = some n

section
variable (h : ManagerInv subs bound m)
include h

lemma ManagerInv.move
    (hlock : task.locks → m.refill = some t) (htask : TaskInv subs m task)
    (hsub : ∀ n, task.submission = some n → m.block ≠ some n) :
    ManagerInv subs bound (m.move t task) where
  lock := forall_tasks_move _ (P := fun t' task => task.locks → m.refill = some t') hlock fun t' _ => h.lock t'
  ends := h.ends
  end_le := h.end_le
  task := forall_tasks_move _ (P := fun _ => TaskInv subs m) htask fun t' _ => h.task t'
  empty := h.empty
  full := h.full
  apart := forall_tasks_move _ (P := fun _ task => ∀ n, task.submission = some n → m.block ≠ some n) hsub
    fun t' _ => h.apart t'

lemma ManagerInv.unlock (ht : (m.tasks t).locks) (hlock : task.locks = false) (htask : TaskInv subs m task) :
    ManagerInv subs bound (m.unlock t task) := by
  have hsub : ∀ n, task.submission = some n → m.block ≠ some n := fun n hn => by
    simp [Task.locks_of_submission hn] at hlock
  have hmove := h.move (t := t) (by simp [hlock]) htask hsub
  refine { hmove with lock := fun t' ht' => ?_ }
  obtain rfl | heq := eq_or_ne t' t
  · simp [unlock, hlock] at ht'
  · have ht'' : (m.tasks t').locks := by
      simpa [ProducerIdManager.unlock, tasks_move_of_ne heq] using ht'
    exact absurd (h.same_task ht'' ht) heq

lemma ManagerInv.leave (t : ℕ) : ManagerInv subs bound (m.leave t) := by
  unfold ProducerIdManager.leave
  by_cases ht : (m.tasks t).locks
  · rw [if_pos ht]
    exact h.unlock ht rfl trivial
  · rw [if_neg ht]
    exact h.move nofun trivial nofun

end

/-- Submissions stay, and those that are applied later start at the end of the manager's block or above. -/
def KeepsSubmissions (m : ProducerIdManager) (subs subs' : List BlockSubmission) : Prop :=
  ∀ (n : ℕ) (s : BlockSubmission), subs[n]? = some s → ∃ s', subs'[n]? = some s' ∧
    s'.first = s.first ∧ (s.applied → s'.applied) ∧ (s'.applied → s.applied ∨ m.endExclusive ≤ s.first)

lemma TaskInv.mono (h : TaskInv subs m task) (hsubs : KeepsSubmissions m subs subs') : TaskInv subs' m task := by
  cases task with
  | submitted epoch first n =>
    obtain ⟨s, hs, hfirst, hle⟩ := h
    obtain ⟨s', hs', hfirst', -, happ⟩ := hsubs n s hs
    refine ⟨s', hs', hfirst'.trans hfirst, fun ha => ?_⟩
    rcases happ ha with ha | ha
    · exact hle ha
    · exact hfirst ▸ ha
  | granted first n =>
    obtain ⟨s, hs, hfirst, ha, hle⟩ := h
    obtain ⟨s', hs', hfirst', happ, -⟩ := hsubs n s hs
    exact ⟨s', hs', hfirst'.trans hfirst, happ ha, hle⟩
  | stored first n =>
    obtain ⟨s, hs, hfirst, ha, hrest⟩ := h
    obtain ⟨s', hs', hfirst', happ, -⟩ := hsubs n s hs
    exact ⟨s', hs', hfirst'.trans hfirst, happ ha, hrest⟩
  | idle | claiming | loaded | checked | waiting | refilling | requesting | rejected => exact h

lemma ManagerInv.mono (h : ManagerInv subs bound m) (hbound : bound ≤ bound')
    (hsubs : KeepsSubmissions m subs subs') :
    ManagerInv subs' bound' m :=
  { h with
    end_le := h.end_le.trans hbound
    task := fun t => (h.task t).mono hsubs
    full := fun n hn => by
      obtain ⟨s, hs, ha, hend, hle⟩ := h.full n hn
      obtain ⟨s', hs', hfirst, happ, -⟩ := hsubs n s hs
      exact ⟨s', hs', happ ha, by rw [hfirst]; exact hend, by rw [hfirst]; exact hle⟩ }

lemma ManagerInv.fresh (hbound : 0 ≤ bound) : ManagerInv subs bound {} where
  lock t ht := by simp [Task.locks] at ht
  ends e he := (mem_singleton.mp he).le
  end_le := hbound
  task _ := trivial
  empty _ := le_rfl
  full n hn := by cases hn
  apart t n hn := by cases hn

/-- An id comes from the block of an applied submission. -/
def BlockSubmission.Covers (s : BlockSubmission) (id : ℤ) : Prop :=
  s.applied = true ∧ s.first ≤ id ∧ id < s.first + producerIdBlockSize

/-- Blocks are aligned, and no block is given to two submissions. -/
structure IdInv (c : IdCluster) : Prop where
  nonneg : 0 ≤ c.image.nextProducerId
  images : ∀ I ∈ c.images, I.nextProducerId ≤ c.image.nextProducerId ∧ producerIdBlockSize ∣ I.nextProducerId
  aligned : producerIdBlockSize ∣ c.image.nextProducerId
  submitted : ∀ s ∈ c.submissions, producerIdBlockSize ∣ s.first ∧
    s.first ≤ c.image.nextProducerId ∧
    (s.applied = true → s.first + producerIdBlockSize ≤ c.image.nextProducerId)
  distinct : ∀ (i j : ℕ) (s s' : BlockSubmission), c.submissions[i]? = some s →
    c.submissions[j]? = some s' → s.applied = true → s'.applied = true → s.first = s'.first → i = j
  managers : ∀ b, ManagerInv c.submissions c.image.nextProducerId (c.managers b)
  holder : ∀ b b' t n, ((c.managers b).tasks t).submission = some n →
    (∃ t', ((c.managers b').tasks t').submission = some n) ∨ (c.managers b').block = some n → b' = b
  owner : ∀ b b' n, (c.managers b).block = some n → (c.managers b').block = some n → b' = b
  nodup : c.ids.Nodup
  spent : ∀ id ∈ c.ids, ∃ n s, c.submissions[n]? = some s ∧ s.Covers id ∧
    (∀ b t, ((c.managers b).tasks t).submission ≠ some n) ∧
    ∀ b, (c.managers b).block = some n → id < (c.managers b).next

end invariant

/-! ## Steps -/

section steps
variable {c : IdCluster} {b : NodeId} {t : ℕ}

lemma forall_managers (c : IdCluster) (b : NodeId) {m : ProducerIdManager}
    {P : NodeId → ProducerIdManager → Prop} (hb : P b m) (h : ∀ b' ≠ b, P b' (c.managers b')) :
    ∀ b', P b' ((c.setManager b m).managers b') := (forall_update_iff _ _).mpr ⟨hb, h⟩

/-- One manager changes: its tasks get no new submissions, and the installed block is the present one or one of
theirs. -/
lemma IdInv.setManager (h : IdInv c) {m : ProducerIdManager}
    (hm : ManagerInv c.submissions c.image.nextProducerId m)
    (htasks : ∀ t, (m.tasks t).Known (c.managers b))
    (hblock : ∀ n, m.block = some n →
      (c.managers b).block = some n ∧ (c.managers b).next ≤ m.next ∨
        ∃ t, ((c.managers b).tasks t).submission = some n) :
    IdInv (c.setManager b m) := by
  -- What a broker has after the step, it had before.
  have hold := forall_managers c b (P := fun b' m => ∀ t, (m.tasks t).Known (c.managers b')) htasks
    fun b' _ t n hn => ⟨t, hn⟩
  have hbold := forall_managers c b (P := fun b' m => ∀ n, m.block = some n →
    (c.managers b').block = some n ∨ ∃ t', ((c.managers b').tasks t').submission = some n)
    (fun n hn => (hblock n hn).imp_left And.left) fun b' _ n hn => .inl hn
  refine { h with
    managers := forall_managers c b (P := fun _ => ManagerInv c.submissions c.image.nextProducerId) hm
      fun b' _ => h.managers b'
    holder := ?_, owner := ?_, spent := ?_ }
  · intro b₁ b₂ t n hn hn'
    obtain ⟨t', ht'⟩ := hold b₁ t n hn
    refine h.holder b₁ b₂ t' n ht' ?_
    rcases hn' with ⟨t'', ht''⟩ | hn'
    · exact .inl (hold b₂ t'' n ht'')
    · exact (hbold b₂ n hn').symm
  · intro b₁ b₂ n hn hn'
    rcases hbold b₁ n hn with h₁ | ⟨t₁, h₁⟩
    · rcases hbold b₂ n hn' with h₂ | ⟨t₂, h₂⟩
      · exact h.owner b₁ b₂ n h₁ h₂
      · exact (h.holder b₂ b₁ t₂ n h₂ (.inr h₁)).symm
    · exact h.holder b₁ b₂ t₁ n h₁ (hbold b₂ n hn').symm
  · intro id hid
    obtain ⟨n, s, hs, hcov, hfree, hnext⟩ := h.spent id hid
    refine ⟨n, s, hs, hcov, fun b' t hn => ?_, forall_managers c b (P := fun _ m => m.block = some n → id < m.next)
      (fun hn => ?_) fun b' _ => hnext b'⟩
    · obtain ⟨t', ht'⟩ := hold b' t n hn
      exact hfree b' t' ht'
    · rcases hblock n hn with ⟨hn, hle⟩ | ⟨t, ht⟩
      · exact (hnext b hn).trans_le hle
      · exact absurd ht (hfree b t)

variable {task : Task}

lemma IdInv.move (h : IdInv c) (hlock : task.locks → (c.managers b).refill = some t)
    (htask : TaskInv c.submissions (c.managers b) task)
    (hsub : ∀ n, task.submission = some n → ((c.managers b).tasks t).submission = some n) :
    IdInv (c.setManager b ((c.managers b).move t task)) := by
  refine h.setManager ((h.managers b).move hlock htask fun n hn =>
    (h.managers b).apart t n (hsub n hn)) ?_ (fun n hn => .inl ⟨hn, le_rfl⟩)
  exact forall_tasks_move _ (P := fun _ => Task.Known (c.managers b))
    (fun n hn => ⟨t, hsub n hn⟩) fun t' _ n hn => ⟨t', hn⟩

variable (m : ProducerIdManager)

lemma submission_leave (t t' : ℕ) (n : ℕ)
    (hn : ((m.leave t).tasks t').submission = some n) : (m.tasks t').submission = some n := by
  have htasks : (m.leave t).tasks = (m.move t .idle).tasks := by
    unfold leave
    split <;> rfl
  rw [htasks] at hn
  obtain rfl | heq := eq_or_ne t' t
  · simp [Task.submission] at hn
  · rwa [tasks_move_of_ne heq] at hn

@[simp] lemma block_leave : (m.leave t).block = m.block := by
  unfold leave
  split <;> rfl

@[simp] lemma next_leave : (m.leave t).next = m.next := by
  unfold leave
  split <;> rfl

section
variable (h : IdInv c)
include h

lemma IdInv.leave : IdInv (c.setManager b ((c.managers b).leave t)) :=
  h.setManager ((h.managers b).leave t) (fun t' n hn => ⟨t', submission_leave _ t t' n hn⟩)
    (fun n hn => .inl ⟨by simpa using hn, (next_leave _).ge⟩)

lemma IdInv.fail (e : ProducerIdAllocationError) : IdInv (c.fail b t e) := by
  have hset : IdInv (c.setManager b ((c.managers b).leave t)) := h.leave
  exact { hset with }

lemma IdInv.locked (ht : (c.managers b).tasks t = task) (hlock : task.locks) :
    (c.managers b).refill = some t :=
  (h.managers b).lock t (by rw [ht]; exact hlock)

lemma IdInv.seen (i : ℕ) : (c.seen i).nextProducerId ≤ c.image.nextProducerId ∧
    producerIdBlockSize ∣ (c.seen i).nextProducerId := by
  unfold IdCluster.seen
  rw [getD_eq_getElem?_getD]
  cases hi : c.images[i]? with
  | none => exact ⟨le_rfl, h.aligned⟩
  | some I => exact h.images I (mem_of_getElem? hi)

variable {i : ℕ} {s s' : BlockSubmission}

lemma IdInv.same_block {j : ℕ} {id : ℤ} (hi : c.submissions[i]? = some s)
    (hj : c.submissions[j]? = some s') (hs : s.Covers id) (hs' : s'.Covers id) : i = j := by
  have hd := (h.submitted s (mem_of_getElem? hi)).1
  have hd' := (h.submitted s' (mem_of_getElem? hj)).1
  refine h.distinct i j s s' hi hj hs.1 hs'.1 ?_
  obtain ⟨-, hle, hlt⟩ := hs
  obtain ⟨-, hle', hlt'⟩ := hs'
  unfold producerIdBlockSize at *
  omega

lemma IdInv.loadEnd {v : ℤ} (hv : v ∈ (c.managers b).endSeen) : IdInv (c.loadEnd b t v) := by
  unfold IdCluster.loadEnd
  simp only
  split
  · rename_i locked next ht
    have hlock : locked → (c.managers b).refill = some t := fun hl =>
      h.locked ht (by simpa [Task.locks] using hl)
    split
    · cases locked with
      | false => exact h.move nofun trivial nofun
      | true => exact h.move (fun _ => hlock rfl) trivial nofun
    · rename_i hlt
      refine h.move (fun hl => hlock hl) ?_ nofun
      exact (not_le.mp hlt).trans_le ((h.managers b).ends v hv)
  · exact h

lemma IdInv.claim {locked : Bool} {v : ℤ}
    (ht : (c.managers b).tasks t = .checked locked v) (hv : (c.managers b).next = v) :
    IdInv { c.setManager b (((c.managers b).storeNext (v + 1)).leave t) with
      ids := c.ids ++ [v] } := by
  have hm := h.managers b
  have hlt : v < (c.managers b).endExclusive := by
    have := hm.task t
    rwa [ht] at this
  -- Without a block `next` would not be below the end.
  obtain ⟨n, hn⟩ : ∃ n, (c.managers b).block = some n := by
    cases hblock : (c.managers b).block with
    | none => exact absurd (hm.empty hblock) (by omega)
    | some n => exact ⟨n, rfl⟩
  obtain ⟨s, hs, happ, hend, hle, -⟩ := hm.full n hn
  have hcov : s.Covers v := ⟨happ, hv ▸ hle, hend ▸ hlt⟩
  have hfree : ∀ b' t', ((c.managers b').tasks t').submission ≠ some n := by
    intro b' t' ht'
    obtain rfl := h.holder b' b t' n ht' (.inr hn)
    exact hm.apart t' n ht' hn
  have hstore : ManagerInv _ _ ((c.managers b).storeNext (v + 1)) :=
    { hm with
      task := fun t' => by
        have hnot : ∀ first k, (c.managers b).tasks t' ≠ .stored first k := by
          intro first k ht'
          have := hm.task t'
          rw [ht'] at this
          obtain ⟨-, -, -, -, -, -, hnone⟩ := this
          simp [hn] at hnone
        have := hm.task t'
        show TaskInv _ _ ((c.managers b).tasks t')
        cases htask : (c.managers b).tasks t' with
        | stored first k => exact absurd htask (hnot first k)
        | _ => rw [htask] at this; exact this
      empty := fun hnone => by simp [ProducerIdManager.storeNext, hn] at hnone
      full := fun k hk => by
        obtain rfl : n = k := some.inj (hn.symm.trans hk)
        refine ⟨s, hs, happ, hend, ?_, ?_⟩
        · show s.first ≤ v + 1
          omega
        · show v + 1 ≤ (c.managers b).endExclusive
          omega }
  set m' := ((c.managers b).storeNext (v + 1)).leave t with hm'
  have hnext' : m'.next = v + 1 := next_leave _
  have hsub' : ∀ t' k, (m'.tasks t').submission = some k →
      ((c.managers b).tasks t').submission = some k := fun t' k hk =>
    submission_leave ((c.managers b).storeNext (v + 1)) t t' k hk
  have hset : IdInv (c.setManager b m') := by
    refine h.setManager (hstore.leave t) (fun t' k hk => ⟨t', hsub' t' k hk⟩) (fun k hk => .inl ⟨?_, by omega⟩)
    rwa [hm', block_leave] at hk
  have hfree' := forall_managers c b (P := fun _ m => ∀ t', (m.tasks t').submission ≠ some n)
    (fun t' ht' => hfree b t' (hsub' t' n ht')) fun b' _ => hfree b'
  have hbelow := forall_managers c b (m := m') (P := fun _ m => m.block = some n → v < m.next)
    (fun _ => by omega) fun b' hbb hb' => absurd (h.owner b b' n hn hb') hbb
  refine { hset with nodup := ?_, spent := ?_ }
  · refine nodup_append.mpr ⟨h.nodup, nodup_singleton v, ?_⟩
    rintro id hid _ hv' rfl
    obtain rfl := mem_singleton.mp hv'
    obtain ⟨k, s', hs', hcov', -, hk⟩ := h.spent id hid
    obtain rfl := h.same_block hs hs' hcov hcov'
    have := hk b hn
    omega
  · intro id hid
    rcases mem_snoc.mp hid with hid | rfl
    · exact hset.spent id hid
    · exact ⟨n, s, hs, hcov, hfree', hbelow⟩

lemma IdInv.compareExchange (spurious : Bool) : IdInv (c.compareExchange b t spurious) := by
  unfold IdCluster.compareExchange
  simp only
  split
  · rename_i locked v ht
    split_ifs with hok
    · exact h.claim ht hok.1
    · exact h.move (fun hl => h.locked ht hl) trivial nofun
  · exact h

end

variable {I : MetadataImage} {epoch : ℤ}

lemma blockRequest_eq_ok {record : ProducerIdsRecord} (h : blockRequest I b epoch = .ok record) :
    record.nextProducerId = I.nextProducerId + producerIdBlockSize := by
  unfold blockRequest at h
  split at h
  · cases h
  · split at h
    · cases h
    · split at h
      · cases h
      · rename_i next hnext
        cases h
        unfold checkedAdd at hnext
        split at hnext
        · exact (some.inj hnext).symm
        · cases hnext

variable {subs : List BlockSubmission} {s₀ : BlockSubmission}

lemma getElem?_submit (n : ℕ) (s : BlockSubmission) (hs : subs[n]? = some s) : (subs ++ [s₀])[n]? = some s := by
  rwa [List.getElem?_append_left (List.getElem?_eq_some_iff.mp hs).1]

variable {n : ℕ}

lemma IdInv.lt_length (h : IdInv c) (hn : ((c.managers b).tasks t).submission = some n) :
    n < c.submissions.length := by
  have htask := (h.managers b).task t
  cases htask' : (c.managers b).tasks t <;> rw [htask'] at hn htask <;>
    simp only [Task.submission, reduceCtorEq, some.injEq] at hn
  all_goals
    subst hn
    obtain ⟨s, hs, -⟩ := htask
    exact (List.getElem?_eq_some_iff.mp hs).1

lemma IdInv.addSubmission (h : IdInv c) (happ : s₀.applied = false)
    (hdvd : producerIdBlockSize ∣ s₀.first) (hle : s₀.first ≤ c.image.nextProducerId) :
    IdInv { c with submissions := c.submissions ++ [s₀] } := by
  have hget : ∀ (n : ℕ) (s : BlockSubmission), (c.submissions ++ [s₀])[n]? = some s →
      s.applied → c.submissions[n]? = some s := by
    intro n s hs ha
    rcases lt_or_ge n c.submissions.length with hn | hn
    · rwa [getElem?_append_left hn] at hs
    · rw [getElem?_append_right hn] at hs
      obtain rfl := mem_singleton.mp (mem_of_getElem? hs)
      simp [happ] at ha
  refine { h with submitted := ?_, distinct := ?_, managers := ?_, spent := ?_ }
  · intro s hs
    rcases mem_snoc.mp hs with hs | rfl
    · exact h.submitted s hs
    · exact ⟨hdvd, hle, fun ha => by simp [happ] at ha⟩
  · intro i j s s' hs hs' ha ha'
    exact h.distinct i j s s' (hget i s hs ha) (hget j s' hs' ha') ha ha'
  · intro b'
    exact (h.managers b').mono le_rfl fun n s hs =>
      ⟨s, getElem?_submit n s hs, rfl, id, .inl⟩
  · intro id hid
    obtain ⟨n, s, hs, hrest⟩ := h.spent id hid
    exact ⟨n, s, getElem?_submit n s hs, hrest⟩

lemma IdInv.submit (h : IdInv c) {first : ℤ} (ht : (c.managers b).tasks t = .requesting epoch)
    (happ : s₀.applied = false) (hfirst : s₀.first = first) (hdvd : producerIdBlockSize ∣ first)
    (hle : first ≤ c.image.nextProducerId) :
    IdInv { c.setManager b ((c.managers b).move t (.submitted epoch first c.submissions.length)) with
      submissions := c.submissions ++ [s₀] } := by
  have hadd := h.addSubmission happ (hfirst ▸ hdvd) (hfirst ▸ hle)
  set c₁ : IdCluster := { c with submissions := c.submissions ++ [s₀] } with hc₁
  have hnew : (c₁.submissions)[c.submissions.length]? = some s₀ := by simp [hc₁]
  -- Nobody else has the new number.
  have hfree : ∀ b' t', ((c.managers b').tasks t').submission ≠ some c.submissions.length :=
    fun b' t' ht' => (h.lt_length ht').ne rfl
  have hfreeBlock : ∀ b', (c.managers b').block ≠ some c.submissions.length := fun b' hb' => by
    obtain ⟨s, hs, -⟩ := (h.managers b').full _ hb'
    exact absurd (List.getElem?_eq_some_iff.mp hs).1 (lt_irrefl _)
  set m' := (c.managers b).move t (.submitted epoch first c.submissions.length) with hm'
  have hm : ManagerInv c₁.submissions c₁.image.nextProducerId m' := by
    refine (hadd.managers b).move (fun _ => h.locked ht rfl) ?_ (fun n hn => ?_)
    · exact ⟨s₀, hnew, hfirst, fun ha => by simp [happ] at ha⟩
    · cases hn
      exact hfreeBlock b
  have htask := forall_managers c₁ b (m := m') (P := fun b' m => ∀ t' n, (m.tasks t').submission = some n →
    (b' = b ∧ t' = t ∧ n = c.submissions.length) ∨ ((c.managers b').tasks t').submission = some n)
    (forall_tasks_move _ (P := fun t' task => ∀ n, task.submission = some n →
      (b = b ∧ t' = t ∧ n = c.submissions.length) ∨ ((c.managers b).tasks t').submission = some n)
      (fun n hn => .inl ⟨rfl, rfl, (Option.some.inj hn).symm⟩) fun t' _ n => .inr) fun b' _ t' n => .inr
  have hblock := forall_managers c₁ b (m := m') (P := fun b' m => m.block = (c.managers b').block) rfl fun _ _ => rfl
  have hnext := forall_managers c₁ b (m := m') (P := fun b' m => m.next = (c.managers b').next) rfl fun _ _ => rfl
  show IdInv (c₁.setManager b m')
  refine { hadd with
    managers := forall_managers c b (P := fun _ => ManagerInv c₁.submissions c₁.image.nextProducerId) hm
      fun b' _ => hadd.managers b'
    holder := ?_, owner := ?_, spent := ?_ }
  · intro b₁ b₂ t₁ n hn hn'
    rw [hblock] at hn'
    rcases htask b₁ t₁ n hn with ⟨rfl, -, rfl⟩ | hn
    · rcases hn' with ⟨t₂, hn'⟩ | hn'
      · rcases htask b₂ t₂ _ hn' with ⟨rfl, -, -⟩ | hn'
        · rfl
        · exact absurd hn' (hfree b₂ t₂)
      · exact absurd hn' (hfreeBlock b₂)
    · refine h.holder b₁ b₂ t₁ n hn (hn'.imp_left fun ⟨t₂, hn'⟩ => ⟨t₂, ?_⟩)
      rcases htask b₂ t₂ n hn' with ⟨-, -, rfl⟩ | hn'
      · exact absurd hn (hfree b₁ t₁)
      · exact hn'
  · intro b₁ b₂ n hn hn'
    rw [hblock] at hn hn'
    exact h.owner b₁ b₂ n hn hn'
  · intro id hid
    obtain ⟨n, s, hs, hcov, hn, hn'⟩ := h.spent id hid
    refine ⟨n, s, getElem?_submit n s hs, hcov, fun b' t' ht' => ?_, fun b' hb' => ?_⟩
    · rcases htask b' t' n ht' with ⟨-, -, rfl⟩ | ht'
      · exact absurd (List.getElem?_eq_some_iff.mp hs).1 (lt_irrefl _)
      · exact hn b' t' ht'
    · rw [hblock] at hb'
      rw [hnext]
      exact hn' b' hb'

lemma IdInv.request (h : IdInv c) (i : ℕ) : IdInv (c.request b t i) := by
  unfold IdCluster.request
  simp only
  split
  · rename_i epoch ht
    split
    · exact h.fail _
    · rename_i record hreq
      obtain ⟨hle, hdvd⟩ := h.seen i
      refine h.submit ht rfl ?_ hdvd hle
      simp [BlockSubmission.first, blockRequest_eq_ok hreq]
  · exact h

variable {rec : MetadataRecord}

lemma nextProducerId_apply (h : reservesIds rec = false) : (I.apply rec).nextProducerId = I.nextProducerId := by
  cases rec with
  | v1ProducerIds r => cases h
  | v1AccessControlEntry e =>
    cases hp : e.patternType <;> simp [MetadataImage.apply, MetadataImage.nextProducerId, hp]
  | _ => rfl

/-- A committed submission takes the next block, or is refused. -/
lemma IdInv.commit (h : IdInv c) (hrec : reservesIds rec = false) : IdInv (c.commit rec) := by
  have hnext : (c.commit rec).image.nextProducerId = c.image.nextProducerId :=
    nextProducerId_apply hrec
  refine { h with
    nonneg := hnext ▸ h.nonneg
    images := fun I hI => ?_
    aligned := hnext ▸ h.aligned
    submitted := fun s hs => hnext ▸ h.submitted s hs
    managers := fun b' => hnext ▸ h.managers b' }
  rcases mem_cons.mp hI with rfl | hI
  · exact ⟨le_rfl, hnext ▸ h.aligned⟩
  · exact hnext ▸ h.images I hI

/-- A reservation is accepted only at the boundary: below it, the end of its block does not pass the boundary. -/
lemma IdInv.first_eq (h : IdInv c) (hs : s ∈ c.submissions) (hacc : c.image.accepts (.v1ProducerIds s.record)) :
    s.first = c.image.nextProducerId := by
  have hgt : c.image.nextProducerId < s.record.nextProducerId := by
    by_contra hle
    simp [MetadataImage.accepts, MetadataImage.validate, not_lt.mp hle] at hacc
  obtain ⟨hdvd, hle, -⟩ := h.submitted s hs
  have hal := h.aligned
  unfold BlockSubmission.first producerIdBlockSize at *
  omega

lemma getElem?_marked (hs : subs[n]? = some s) (hi : (subs.set n { s with applied := true })[i]? = some s') :
    (i = n ∧ s' = { s with applied := true }) ∨ (i ≠ n ∧ subs[i]? = some s') := by
  obtain rfl | hin := eq_or_ne i n
  · rw [List.getElem?_set_self (List.getElem?_eq_some_iff.mp hs).1] at hi
    exact .inl ⟨rfl, (some.inj hi).symm⟩
  · rw [getElem?_set_ne (Ne.symm hin)] at hi
    exact .inr ⟨hin, hi⟩

lemma marked_of_getElem? (hs : subs[n]? = some s) (hi : subs[i]? = some s') :
    ∃ s'', (subs.set n { s with applied := true })[i]? = some s'' ∧ s''.first = s'.first ∧
      (s'.applied → s''.applied) ∧ (s''.applied → s'.applied ∨ i = n) := by
  obtain rfl | hin := eq_or_ne i n
  · cases hs.symm.trans hi
    exact ⟨_, List.getElem?_set_self (List.getElem?_eq_some_iff.mp hs).1, rfl, fun _ => rfl, fun _ => .inr rfl⟩
  · exact ⟨s', by rwa [getElem?_set_ne (Ne.symm hin)], rfl, id, .inl⟩

section
variable (h : IdInv c)
include h

/-- A reservation is applied. It starts at the boundary, where all applied ones have ended. -/
lemma IdInv.reserve (hs : c.submissions[n]? = some s) (hacc : c.image.accepts (.v1ProducerIds s.record)) :
    IdInv { c.commit (.v1ProducerIds s.record) with
      submissions := c.submissions.set n { s with applied := true } } := by
  have hmem := mem_of_getElem? hs
  have hfirst := h.first_eq hmem hacc
  have hpos : (0 : ℤ) < producerIdBlockSize := by decide
  set image := c.image.apply (.v1ProducerIds s.record) with hnew
  have himage : image.nextProducerId = c.image.nextProducerId + producerIdBlockSize := by
    have hrec : s.record.nextProducerId = c.image.nextProducerId + producerIdBlockSize := by
      rw [← hfirst, BlockSubmission.first, Int.sub_add_cancel]
    rw [hnew, MetadataImage.apply]
    simp only [if_pos (by omega : s.record.nextProducerId > c.image.nextProducerId)]
    exact hrec
  have hboundary : c.image.nextProducerId ≤ image.nextProducerId := by omega
  have hold : ∀ (i : ℕ) (s' : BlockSubmission), c.submissions[i]? = some s' →
      s'.applied → s'.first ≠ s.first := fun i s' hs' ha => by
    have := (h.submitted s' (mem_of_getElem? hs')).2.2 ha
    omega
  refine { h with
    nonneg := h.nonneg.trans hboundary
    images := ?_, aligned := ?_, submitted := ?_, distinct := ?_, managers := ?_, spent := ?_ }
  · intro I hI
    rcases mem_cons.mp hI with rfl | hI
    · refine ⟨le_rfl, ?_⟩
      rw [himage]
      exact Int.dvd_add h.aligned (Int.dvd_refl _)
    · exact ⟨(h.images I hI).1.trans hboundary, (h.images I hI).2⟩
  · show producerIdBlockSize ∣ image.nextProducerId
    rw [himage]
    exact Int.dvd_add h.aligned (Int.dvd_refl _)
  · intro s' hs'
    obtain ⟨i, hi⟩ := getElem?_of_mem hs'
    show _ ∧ _ ≤ image.nextProducerId ∧ (_ → _ ≤ image.nextProducerId)
    rw [himage]
    rcases getElem?_marked hs hi with ⟨rfl, rfl⟩ | ⟨-, hi⟩
    · have hd := (h.submitted s hmem).1
      exact ⟨hd, by change s.first ≤ _; omega, fun _ => by change s.first + _ ≤ _; omega⟩
    · obtain ⟨hd, hle, ha⟩ := h.submitted s' (mem_of_getElem? hi)
      exact ⟨hd, by omega, fun happ => by have := ha happ; omega⟩
  · intro i j s₁ s₂ h₁ h₂ ha₁ ha₂ heq
    rcases getElem?_marked hs h₁ with ⟨rfl, rfl⟩ | ⟨-, h₁'⟩
    · rcases getElem?_marked hs h₂ with ⟨rfl, rfl⟩ | ⟨-, h₂'⟩
      · rfl
      · exact absurd heq.symm (hold j s₂ h₂' ha₂)
    · rcases getElem?_marked hs h₂ with ⟨rfl, rfl⟩ | ⟨-, h₂'⟩
      · exact absurd heq (hold i s₁ h₁' ha₁)
      · exact h.distinct i j s₁ s₂ h₁' h₂' ha₁ ha₂ heq
  · intro b'
    refine (h.managers b').mono hboundary fun i s' hi => ?_
    obtain ⟨s'', hi', hf, ha, ha'⟩ := marked_of_getElem? hs hi
    refine ⟨s'', hi', hf, ha, fun happ => (ha' happ).imp_right fun hin => ?_⟩
    subst hin
    cases hs.symm.trans hi
    exact hfirst ▸ (h.managers b').end_le
  · intro id hid
    obtain ⟨k, s', hs', hcov, hrest⟩ := h.spent id hid
    obtain ⟨s'', hi', hf, ha, -⟩ := marked_of_getElem? hs hs'
    exact ⟨k, s'', hi', ⟨ha hcov.1, hf ▸ hcov.2.1, hf ▸ hcov.2.2⟩, hrest⟩

lemma IdInv.deliver (n : ℕ) : IdInv (c.deliver n) := by
  unfold IdCluster.deliver
  split
  · exact h
  · rename_i s hs
    split_ifs with hacc
    · exact h.reserve hs hacc
    · exact h

lemma IdInv.replyOk (hok : idSys.enabled c (.replyOk b t)) : IdInv (c.reply b t none) := by
  have hok := hok.1
  simp only [reply]
  split
  · rename_i epoch first n ht
    have htask := (h.managers b).task t
    rw [ht] at htask hok
    obtain ⟨s, hs, hfirst, hle⟩ := htask
    simp only [Task.submission, any_some, hs] at hok
    exact h.move (fun _ => h.locked ht rfl) ⟨s, hs, hfirst, hok, hle hok⟩ fun k hk => by rw [ht]; exact hk
  · exact h

lemma IdInv.replyErr (detail : String) : IdInv (c.reply b t (some detail)) := by
  simp only [reply]
  split
  · rename_i epoch first n ht
    exact h.move (fun _ => h.locked ht rfl) trivial nofun
  · exact h

lemma IdInv.readEpoch (hfits : (IdStep.readEpoch b t i).fits ((c.managers b).tasks t)) :
    IdInv (c.readEpoch b t i) := by
  have ht : (c.managers b).tasks t = .refilling := by
    cases ht : (c.managers b).tasks t <;> simp_all [IdStep.fits]
  unfold IdCluster.readEpoch
  split
  · exact h.fail _
  · exact h.move (fun _ => h.locked ht rfl) trivial nofun

lemma IdInv.recheck (i : ℕ) : IdInv (c.recheck b t i) := by
  unfold IdCluster.recheck
  split
  · rename_i epoch first detail ht
    split
    · exact h.move (fun _ => h.locked ht rfl) trivial nofun
    · exact h.fail _
  · exact h

lemma IdInv.storeNext : IdInv (c.storeNext b t) := by
  unfold IdCluster.storeNext
  simp only
  split
  · rename_i first n ht
    split
    · exact h.fail _
    · have hm := h.managers b
      have htask := hm.task t
      rw [ht] at htask
      obtain ⟨s, hs, hfirst, happ, hle⟩ := htask
      have hlocks : ((c.managers b).tasks t).locks := by rw [ht]; rfl
      -- No other task is past the lock, so none of them has stored its block.
      have hemptied : ManagerInv _ _ { (c.managers b).storeNext first with block := none } :=
        { hm with
          task := fun t' => by
            have htask' := hm.task t'
            show TaskInv _ _ ((c.managers b).tasks t')
            cases heq : (c.managers b).tasks t' with
            | stored first' n' =>
              have hlocks' : ((c.managers b).tasks t').locks := by rw [heq]; rfl
              obtain rfl := hm.same_task hlocks hlocks'
              cases ht.symm.trans heq
            | _ => rw [heq] at htask'; exact htask'
          empty := fun _ => hle
          full := nofun
          apart := nofun }
      have hmoved : ManagerInv _ _ (({ (c.managers b).storeNext first with block := none } : ProducerIdManager).move t (.stored first n)) :=
        hemptied.move (fun _ => h.locked ht rfl) ⟨s, hs, hfirst, happ, hle, rfl, rfl⟩ nofun
      refine h.setManager hmoved ?_ nofun
      exact forall_tasks_move _ (P := fun _ => Task.Known (c.managers b))
        (fun k hk => ⟨t, by rw [ht]; exact hk⟩) fun t' _ k hk => ⟨t', hk⟩
  · exact h

lemma IdInv.storeEnd : IdInv (c.storeEnd b t) := by
  unfold IdCluster.storeEnd
  simp only
  split
  · rename_i first n ht
    have hm := h.managers b
    have htask := hm.task t
    rw [ht] at htask
    obtain ⟨s, hs, hfirst, happ, hle, hnext, hnone⟩ := htask
    have hpos : (0 : ℤ) < producerIdBlockSize := by decide
    have hlocks : ((c.managers b).tasks t).locks := by rw [ht]; rfl
    -- The others are not past the lock.
    have hothers : ∀ t', t' ≠ t → ((c.managers b).tasks t').locks = false := fun t' hne => by
      by_contra hl
      exact hne (hm.same_task (by simpa using hl) hlocks)
    refine h.setManager
      { lock := ?_, ends := ?_, end_le := ?_, task := ?_, empty := ?_, full := ?_, apart := ?_ }
      ?_ (fun k hk => ?_)
    · exact forall_tasks_move _ (P := fun t' task => task.locks = true → none = some t') nofun
        fun t' heq ht' => absurd ((hothers t' heq).symm.trans ht') nofun
    · intro e he
      rcases mem_cons.mp he with rfl | he
      · exact le_rfl
      · have := hm.ends e he
        show e ≤ first + producerIdBlockSize
        omega
    · show first + producerIdBlockSize ≤ _
      have := (h.submitted s (mem_of_getElem? hs)).2.2 happ
      omega
    · refine forall_tasks_move _ (P := fun _ => TaskInv c.submissions _) trivial fun t' heq => ?_
      have hl := hothers t' heq
      have htask' := hm.task t'
      show TaskInv _ _ ((c.managers b).tasks t')
      cases htt : (c.managers b).tasks t' with
      | checked locked v =>
        rw [htt] at htask'
        show v < first + producerIdBlockSize
        have : v < (c.managers b).endExclusive := htask'
        omega
      | submitted | granted | stored => rw [htt] at hl; cases hl
      | _ => exact trivial
    · intro hblock
      cases hblock
    · intro k hk
      cases hk
      refine ⟨s, hs, happ, by rw [hfirst]; rfl, ?_, ?_⟩
      · show s.first ≤ (c.managers b).next
        omega
      · show (c.managers b).next ≤ first + producerIdBlockSize
        omega
    · exact forall_tasks_move _ (P := fun _ task => ∀ k, task.submission = some k → some n ≠ some k) nofun
        fun t' heq k hk => absurd ((hothers t' heq).symm.trans (Task.locks_of_submission hk)) nofun
    · exact forall_tasks_move _ (P := fun _ => Task.Known (c.managers b)) nofun
        fun t' _ k hk => ⟨t', hk⟩
    · cases hk
      exact .inr ⟨t, by rw [ht]; rfl⟩
  · exact h

lemma IdInv.lock (hfree : (c.managers b).refill = none) :
    IdInv (c.setManager b { (c.managers b).move t (.claiming true) with refill := some t }) := by
  have hm := h.managers b
  -- Nobody is past the lock while it is free.
  have hothers : ∀ t', ((c.managers b).tasks t').locks = false := fun t' => by
    by_contra hl
    have := hm.lock t' (by simpa using hl)
    simp [hfree] at this
  have hrefill : ManagerInv _ _ { c.managers b with refill := some t } :=
    { hm with lock := fun t' ht' => absurd ht' (by simp [hothers t']) }
  have hmoved : ManagerInv _ _ (({ c.managers b with refill := some t } : ProducerIdManager).move t (.claiming true)) :=
    hrefill.move (fun _ => rfl) trivial nofun
  refine h.setManager hmoved ?_ (fun n hn => .inl ⟨hn, le_rfl⟩)
  exact forall_tasks_move _ (P := fun _ => Task.Known (c.managers b)) nofun
    fun t' _ n hn => ⟨t', hn⟩

lemma IdInv.step (l : IdStep) (hen : idSys.enabled c l) : IdInv (idSys.next c l) := by
  cases l with
  | call b t => exact h.move nofun trivial nofun
  | loadNext b t v =>
    refine h.move (fun hl => ?_) trivial nofun
    exact h.locked (eq_of_beq hl) rfl
  | loadEnd b t v => exact h.loadEnd hen.2
  | compareExchange b t spurious => exact h.compareExchange spurious
  | lock b t => exact h.lock hen.2
  | readEpoch b t i => exact h.readEpoch hen.1
  | request b t i => exact h.request i
  | deliver n => exact h.deliver n
  | replyOk b t => exact h.replyOk hen
  | replyErr b t detail => exact h.replyErr detail
  | recheck b t i => exact h.recheck i
  | storeNext b t => exact h.storeNext
  | storeEnd b t => exact h.storeEnd
  | cancel b t => exact h.leave
  | restart b => exact h.setManager (.fresh h.nonneg) nofun nofun
  | commit rec => exact h.commit hen.1

end

lemma IdInv.start {image : MetadataImage} (himage : image.producerIds = none) : IdInv (.start image) := by
  have hzero : image.nextProducerId = 0 := by rw [MetadataImage.nextProducerId, himage]
  refine {
    nonneg := hzero.ge
    images := fun I hI => ?_
    aligned := ?_
    submitted := nofun
    distinct := nofun
    managers := fun b => .fresh hzero.ge
    holder := nofun
    owner := nofun
    nodup := nodup_nil
    spent := nofun }
  · obtain rfl := mem_singleton.mp hI
    exact ⟨le_rfl, hzero ▸ Int.dvd_zero _⟩
  · exact hzero ▸ Int.dvd_zero _

end steps

/-! ## Runs -/

/-- In every run the producer ids that all brokers returned are pairwise distinct. -/
theorem producerIds_distinct {image : MetadataImage} (himage : image.producerIds = none)
    {c : IdCluster} (hrun : idSys.AnyRun (.start image) c) : c.ids.Nodup :=
  (hrun.preserves (fun _ l h hen _ => h.step l hen) (IdInv.start himage)).nodup

def untilSubmitted (b : NodeId) : List IdStep :=
  [.call b 0, .loadNext b 0 0, .loadEnd b 0 0, .lock b 0, .loadNext b 0 0, .loadEnd b 0 0,
    .readEpoch b 0 0, .request b 0 0]

def untilClaimed (b : NodeId) (first : ℤ) : List IdStep :=
  [.replyOk b 0, .storeNext b 0, .storeEnd b 0, .loadNext b 0 first,
    .loadEnd b 0 (first + producerIdBlockSize), .compareExchange b 0 false]

/-- Brokers 1 and 2 ask for the same block; the second is rejected and tries again. -/
def contendedRun : List IdStep :=
  [.commit (.v1BrokerRegistration ⟨1, 7, 0, "", 0, none, [], [], ∅⟩),
    .commit (.v1BrokerRegistration ⟨2, 8, 0, "", 0, none, [], [], ∅⟩)] ++
    untilSubmitted 1 ++ untilSubmitted 2 ++ [.deliver 0, .deliver 1] ++ untilClaimed 1 0 ++
    [.replyErr 2 0 "rejected", .recheck 2 0 0, .request 2 0 0, .deliver 2] ++ untilClaimed 2 1000

/-- Two allocations contend for a block. -/
theorem producerIds_distinct_contended :
    (idSys.execs (.start { clusterId := 0 }) contendedRun).ids = [0, 1000] ∧
      (idSys.execs (.start { clusterId := 0 }) contendedRun).ids.Nodup :=
  ⟨by decide +kernel, producerIds_distinct rfl Sys.run_of_runs⟩

end Crabka.Broker
