import Crabka.Broker.Group.CommittedOffsets

/-!
# Committed offsets after a restart

What the group actors hold against what a fresh coordinator replays from the log. A request that has appended and not
yet delivered leaves the offsets it `waits` for behind the log; all others agree. This breaks where a request appends
an offset that another one waits for, where a commit marker has read the transaction before its last offsets, and where
an offset that the log has is deleted.
-/

namespace Crabka.Broker.Group.Offsets
open Std (ExtTreeMap)
open Found Option OffsetsState
open Std.ExtTreeMap (contains_eq_isSome_getElem? getElem?_empty getElem?_map isEmpty_iff)

/-! ## What a request writes and waits for -/

def Task.writes (group : GroupId) : Task → List (OffsetKey × OffsetEntry)
  | .offsetCommit g entries _ _ => if g = group then entries else []
  | .writeTxnMarker _ true offsets _ => offsets[group]?.getD []
  | .writeTxnMarker _ false _ _ | .txnOffsetCommit .. | .offsetDelete .. | .deleteGroup .. => []

/-- The offsets that a request has written and not yet passed on to an actor. -/
def Task.waits : Task → List (GroupId × OffsetKey)
  | .offsetCommit g entries _ true => entries.map fun e => (g, e.1)
  | .writeTxnMarker _ true offsets true => offsets.toList.flatMap fun x => x.2.map fun e => (x.1, e.1)
  | .offsetDelete g keys _ true => keys.map (g, ·)
  | .offsetCommit _ _ _ false | .writeTxnMarker _ false _ _ | .writeTxnMarker _ true _ false
  | .offsetDelete _ _ _ false | .txnOffsetCommit .. | .deleteGroup .. => []

def Task.holds (group : GroupId) : Task → Bool
  | .offsetCommit g _ _ _ | .offsetDelete g _ _ _ => decide (g = group)
  | .txnOffsetCommit .. | .writeTxnMarker .. | .deleteGroup .. => false

/-- A commit marker has read what it would read now, and every batch of the log can be read; only offsets that the log
does not have are deleted. -/
def Task.Current (reader : Reader Batch) (log : List Batch) : Task → Prop
  | .writeTxnMarker producerId true offsets _ =>
    offsets = pendingOffsetEntries reader log producerId ∧ reader.Reaches log 0
  | .offsetDelete g keys _ _ => ∀ k ∈ keys, (loggedOffsets log g)[k]? = none
  | .writeTxnMarker _ false _ _ | .offsetCommit .. | .txnOffsetCommit .. | .deleteGroup .. => True

instance (reader : Reader Batch) (log : List Batch) : DecidablePred (Task.Current reader log) := fun t => by
  unfold Task.Current
  split <;> infer_instance

/-- No other request waits for an offset that this one writes. -/
def OffsetsState.Apart (s : OffsetsState) (n : ℕ) (t : Task) : Prop :=
  ∀ x ∈ s.tasks.toList, x.1 ≠ n → ∀ y ∈ x.2.waits, y.2 ∉ (t.writes y.1).map Prod.fst

instance (s : OffsetsState) (n : ℕ) (t : Task) : Decidable (s.Apart n t) := by
  unfold OffsetsState.Apart
  infer_instance

/-- The log has no offsets of the group, and no request holds its actor. -/
def OffsetsState.Unused (s : OffsetsState) (group : GroupId) : Prop :=
  loggedOffsets s.log group = ∅ ∧ ∀ x ∈ s.tasks.toList, x.2.holds group = false

instance (s : OffsetsState) (group : GroupId) : Decidable (s.Unused group) := by
  unfold OffsetsState.Unused
  infer_instance

def OffsetsState.Meets (s : OffsetsState) (n : ℕ) (P : Task → Prop) : Prop :=
  ∀ t ∈ s.tasks[n]?, P t

instance (s : OffsetsState) (n : ℕ) (P : Task → Prop) [DecidablePred P] : Decidable (s.Meets n P) := by
  unfold OffsetsState.Meets
  infer_instance

def Task.deletes : Task → Option GroupId
  | .deleteGroup group _ _ => some group
  | .offsetCommit .. | .txnOffsetCommit .. | .writeTxnMarker .. | .offsetDelete .. => none

/-- The steps after which log and memory agree: appends that no other request can overtake and that write
what replay will read, and deletions of groups without offsets. -/
def Orderly (reader : Reader Batch) (s : OffsetsState) : Event → Prop
  | .append n => s.Meets n fun t => s.Apart n t ∧ t.Current reader s.log
  | .message n => s.Meets n fun t => ∀ group ∈ t.deletes, s.Unused group
  | .start .. | .refuse _ | .publish .. => True

instance (reader : Reader Batch) (s : OffsetsState) : DecidablePred (Orderly reader s) := fun e => by
  cases e <;> unfold Orderly <;> infer_instance

instance (reader s e) : Decidable ((handlers reader).enabled s e) := by
  cases e <;> unfold handlers <;> infer_instance

variable {g group : GroupId} {attached : Bool} {k : OffsetKey}

lemma mem_waits_offsetCommit {entries : List (OffsetKey × OffsetEntry)} :
    (group, k) ∈ (Task.offsetCommit g entries attached true).waits ↔
      k ∈ ((Task.offsetCommit g entries attached true).writes group).map Prod.fst := by
  simp only [Task.waits, Task.writes, List.mem_map, Prod.mk.injEq]
  constructor
  · rintro ⟨e, he, rfl, rfl⟩
    rw [if_pos rfl]
    exact ⟨e, he, rfl⟩
  · rintro ⟨e, he, rfl⟩
    split at he
    next hg => exact ⟨e, he, hg, rfl⟩
    next => cases he

lemma mem_waits_writeTxnMarker {producerId : ℤ} {offsets : ExtTreeMap GroupId (List (OffsetKey × OffsetEntry))} :
    (group, k) ∈ (Task.writeTxnMarker producerId true offsets true).waits ↔
      k ∈ ((Task.writeTxnMarker producerId true offsets true).writes group).map Prod.fst := by
  simp only [Task.waits, Task.writes, List.mem_flatMap, List.mem_map, Prod.mk.injEq]
  constructor
  · rintro ⟨⟨g, entries⟩, hx, e, he, rfl, rfl⟩
    rw [(mem_toList offsets).mp hx]
    exact ⟨e, he, rfl⟩
  · rintro ⟨e, he, rfl⟩
    match ho : offsets[group]? with
    | none => rw [ho] at he; cases he
    | some entries =>
      rw [ho] at he
      exact ⟨(group, entries), (mem_toList offsets).mpr ho, e, he, rfl, rfl⟩

lemma mem_waits_offsetDelete {keys : List OffsetKey} :
    (group, k) ∈ (Task.offsetDelete g keys attached true).waits ↔ g = group ∧ k ∈ keys := by
  simp only [Task.waits, List.mem_map, Prod.mk.injEq]
  constructor
  · rintro ⟨k', hk, rfl, rfl⟩
    exact ⟨rfl, hk⟩
  · rintro ⟨rfl, hk⟩
    exact ⟨k, hk, rfl, rfl⟩

variable {b : Batch} {t : Task}

lemma waits_of_unwritten (h : t.batch.isSome ∨ t.unwritten) : t.waits = [] := by
  match t with
  | .offsetCommit _ _ _ false | .txnOffsetCommit .. | .writeTxnMarker _ true _ false
  | .writeTxnMarker _ false _ _ | .offsetDelete _ _ _ false | .deleteGroup .. => rfl
  | .offsetCommit _ _ _ true | .writeTxnMarker _ true _ true | .offsetDelete _ _ _ true =>
    rcases h with h | h <;> cases h

variable {reader : Reader Batch} {log : List Batch}

lemma adds_batch (h : t.batch = some b) (hcur : t.Current reader log) (group : GroupId) :
    b.adds log group = t.writes group := by
  match t with
  | .offsetCommit g entries _ false =>
    cases h
    exact filterMap_commitRecords g group entries
  | .txnOffsetCommit g producerId entries =>
    cases h
    rfl
  | .writeTxnMarker producerId true offsets false =>
    cases h
    obtain ⟨rfl, hreads⟩ : offsets = pendingOffsetEntries reader log producerId ∧ reader.Reaches log 0 := hcur
    exact (getD_pendingOffsetEntries hreads producerId group).symm
  | .writeTxnMarker producerId false offsets false =>
    cases h
    rfl
  | .offsetDelete g keys _ false =>
    simp only [Task.batch] at h
    split at h
    · cases h
    · cases h
      exact List.filterMap_map.trans (List.filterMap_eq_nil_iff.mpr fun _ _ => rfl)
  | .offsetCommit _ _ _ true | .writeTxnMarker _ _ _ true | .offsetDelete _ _ _ true
  | .deleteGroup .. => cases h

variable {t' : Task}

lemma writes_afterAppend (h : t.afterAppend = some t') (group : GroupId) : t'.writes group = t.writes group := by
  match t with
  | .offsetCommit .. | .offsetDelete .. =>
    cases h
    rfl
  | .writeTxnMarker producerId commit offsets _ =>
    simp only [Task.afterAppend] at h
    split at h
    · cases h
      cases commit <;> rfl
    · cases h
  | .txnOffsetCommit .. | .deleteGroup .. => cases h

lemma waits_afterAppend_of_writes (h : k ∈ (t.writes group).map Prod.fst) :
    ∃ t', t.afterAppend = some t' ∧ (group, k) ∈ t'.waits := by
  match t with
  | .offsetCommit g entries attached _ => exact ⟨_, rfl, mem_waits_offsetCommit.mpr h⟩
  | .writeTxnMarker producerId true offsets _ =>
    have hne : ¬ offsets.isEmpty := by
      intro hempty
      obtain rfl := isEmpty_iff.mp hempty
      simp [Task.writes] at h
    exact ⟨_, if_pos ⟨rfl, hne⟩, mem_waits_writeTxnMarker.mpr h⟩
  | .writeTxnMarker _ false _ _ | .txnOffsetCommit .. | .offsetDelete .. | .deleteGroup .. => cases h

lemma of_waits_afterAppend (hcur : t.Current reader log) (h : t.afterAppend = some t') (hk : (group, k) ∈ t'.waits) :
    k ∈ (t.writes group).map Prod.fst ∨ t.writes group = [] ∧ (loggedOffsets log group)[k]? = none := by
  match t with
  | .offsetCommit g entries attached _ =>
    cases h
    exact .inl (mem_waits_offsetCommit.mp hk)
  | .writeTxnMarker producerId commit offsets _ =>
    simp only [Task.afterAppend] at h
    split at h
    next hc =>
      obtain ⟨rfl, -⟩ := hc
      cases h
      exact .inl (mem_waits_writeTxnMarker.mp hk)
    next => cases h
  | .offsetDelete g keys attached _ =>
    cases h
    obtain ⟨rfl, hmem⟩ := mem_waits_offsetDelete.mp hk
    exact .inr ⟨rfl, hcur k hmem⟩
  | .txnOffsetCommit .. | .deleteGroup .. => cases h

/-! ## The actors -/

variable (actors : ExtTreeMap GroupId Committed)

lemma getD_getOrCreate (g group : GroupId) : (getOrCreate actors g)[group]?.getD ∅ = actors[group]?.getD ∅ := by
  unfold getOrCreate
  split
  · rfl
  · rename_i h
    rw [getElem?_insert]
    split_ifs with hg
    · rw [hg, ExtTreeMap.getElem?_eq_none (by rwa [ExtTreeMap.mem_iff_contains])]
      rfl
    · rfl

lemma contains_getOrCreate (g group : GroupId) :
    (getOrCreate actors g).contains group = (actors.contains group || decide (g = group)) := by
  unfold getOrCreate
  split_ifs with h
  · by_cases hg : g = group
    · rw [← hg, h]
      rfl
    · rw [decide_eq_false hg, Bool.or_false]
  · simp only [contains_eq_isSome_getElem?, getElem?_insert]
    by_cases hg : g = group
    · simp [hg]
    · simp [hg, Ne.symm hg]

variable {actors : ExtTreeMap GroupId Committed}

lemma getD_modify (h : actors.contains g) (f : Committed → Committed) (group : GroupId) :
    (actors.modify g f)[group]?.getD ∅ =
      if group = g then f (actors[group]?.getD ∅) else actors[group]?.getD ∅ := by
  rw [getElem?_modify]
  split
  next hg =>
    subst hg
    obtain ⟨c, hc⟩ := exists_of_contains h
    rw [hc]
    rfl
  next => rfl

/-- A request that holds an actor holds the one of its group. -/
def Task.Attached (actors : ExtTreeMap GroupId Committed) : Task → Prop
  | .offsetCommit g _ attached _ | .offsetDelete g _ attached _ =>
    attached = true ∧ actors.contains g = true
  | .txnOffsetCommit .. | .writeTxnMarker .. | .deleteGroup .. => True

lemma Task.Attached.mono {actors' : ExtTreeMap GroupId Committed}
    (h : t.Attached actors)
    (hle : ∀ g, t.holds g → actors.contains g → actors'.contains g) :
    t.Attached actors' := by
  match t with
  | .offsetCommit g _ _ _ | .offsetDelete g _ _ _ => exact ⟨h.1, hle g (decide_eq_true rfl) h.2⟩
  | .txnOffsetCommit .. | .writeTxnMarker .. | .deleteGroup .. => trivial

lemma Task.Attached.afterAppend (h : t.Attached actors) (ht : t.afterAppend = some t') : t'.Attached actors := by
  match t with
  | .offsetCommit .. | .offsetDelete .. =>
    cases ht
    exact h
  | .writeTxnMarker .. =>
    simp only [Task.afterAppend] at ht
    split at ht
    · cases ht
      trivial
    · cases ht
  | .txnOffsetCommit .. | .deleteGroup .. => cases ht

/-! ## The invariant -/

/-- Offsets that no request waits for agree; a request that waits for an offset will bring what the log
has. -/
structure OffsetsInv (s : OffsetsState) : Prop where
  settled : ∀ group k, (∀ (n : ℕ) (t : Task), s.tasks[n]? = some t → (group, k) ∉ t.waits) →
    (s.live group)[k]? = (loggedOffsets s.log group)[k]?
  coming : ∀ (n : ℕ) (t : Task), s.tasks[n]? = some t → ∀ group k, (group, k) ∈ t.waits →
    (rebuild ∅ (t.writes group))[k]? = (loggedOffsets s.log group)[k]?
  attached : ∀ (n : ℕ) (t : Task), s.tasks[n]? = some t → t.Attached s.actors

variable {s s' : OffsetsState} {n : ℕ} {t : Task}

lemma OffsetsInv.enter (h : OffsetsInv s) (hn : s.tasks.contains n = false) (hlog : s'.log = s.log)
    (hlive : ∀ group, s'.live group = s.live group) (htasks : s'.tasks = s.tasks.insert n t)
    (hwaits : t.waits = []) (hatt : t.Attached s'.actors)
    (hle : ∀ g, s.actors.contains g → s'.actors.contains g) : OffsetsInv s' := by
  have hget : ∀ m t', s'.tasks[m]? = some t' → m = n ∧ t' = t ∨ s.tasks[m]? = some t' := by
    intro m t' hm
    rw [htasks, getElem?_insert] at hm
    split at hm
    next hmn => exact .inl ⟨hmn, (some.inj hm).symm⟩
    next => exact .inr hm
  refine ⟨fun group k hk => ?_, fun m t' hm group k hk => ?_, fun m t' hm => ?_⟩
  · rw [hlive, hlog]
    refine h.settled group k fun m t' hm => hk m t' ?_
    rw [htasks, getElem?_insert, if_neg, hm]
    rintro rfl
    rw [contains_eq_isSome_getElem?, hm] at hn
    cases hn
  · rw [hlog]
    rcases hget m t' hm with ⟨-, rfl⟩ | hm
    · rw [hwaits] at hk
      cases hk
    · exact h.coming m t' hm group k hk
  · rcases hget m t' hm with ⟨-, rfl⟩ | hm
    · exact hatt
    · exact (h.attached m t' hm).mono fun g _ => hle g

/-- Offsets that no other request waits for agree, unless this one does. -/
lemma OffsetsInv.settled_of (h : OffsetsInv s) (hn : s.tasks[n]? = some t) (hself : (group, k) ∉ t.waits)
    (hothers : ∀ (m : ℕ) t', m ≠ n → s.tasks[m]? = some t' → (group, k) ∉ t'.waits) :
    (s.live group)[k]? = (loggedOffsets s.log group)[k]? := by
  refine h.settled group k fun m t' hm => ?_
  obtain rfl | hmn := eq_or_ne m n
  · cases hn.symm.trans hm
    exact hself
  · exact hothers m t' hmn hm

lemma OffsetsInv.pass (h : OffsetsInv s) (hn : s.tasks[n]? = some t) (hlog : s'.log = s.log)
    (hothers : ∀ m, m ≠ n → s'.tasks[m]? = s.tasks[m]?)
    (hrest : ∀ t', s'.tasks[n]? = some t' → t'.Attached s'.actors ∧
      ∀ group k, (group, k) ∈ t'.waits → (group, k) ∈ t.waits ∧ t'.writes group = t.writes group)
    (hlive : ∀ group k, (s'.live group)[k]? = (s.live group)[k]? ∧
        ((group, k) ∈ t.waits → ∃ t', s'.tasks[n]? = some t' ∧ (group, k) ∈ t'.waits) ∨
      (group, k) ∈ t.waits ∧ (s'.live group)[k]? = (rebuild ∅ (t.writes group))[k]?)
    (hle : ∀ g, s.actors.contains g → s'.actors.contains g) : OffsetsInv s' := by
  refine ⟨fun group k hk => ?_, fun m t' hm group k hk => ?_, fun m t' hm => ?_⟩
  · rw [hlog]
    rcases hlive group k with ⟨hsame, hkeep⟩ | ⟨hwait, hnew⟩
    · rw [hsame]
      refine h.settled_of hn (fun hmem => ?_) fun m t' hmn hm => hk m t' ((hothers m hmn).trans hm)
      obtain ⟨t', ht', hmem'⟩ := hkeep hmem
      exact hk n t' ht' hmem'
    · rw [hnew, h.coming n t hn group k hwait]
  · rw [hlog]
    obtain rfl | hmn := eq_or_ne m n
    · obtain ⟨hmem, hwrites⟩ := (hrest t' hm).2 group k hk
      rw [hwrites, h.coming m t hn group k hmem]
    · exact h.coming m t' ((hothers m hmn).symm.trans hm) group k hk
  · by_cases hmn : m = n
    · subst hmn
      exact (hrest t' hm).1
    · exact (h.attached m t' ((hothers m hmn).symm.trans hm)).mono fun g _ => hle g

lemma OffsetsInv.leave (h : OffsetsInv s) (hn : s.tasks[n]? = some t) (hwaits : t.waits = []) :
    OffsetsInv { s with tasks := s.tasks.erase n } := by
  have hgone : (s.tasks.erase n)[n]? = none := by rw [getElem?_erase, if_pos rfl]
  refine h.pass hn rfl (fun m hm => ?_) (fun t' ht' => ?_) (fun group k => .inl ⟨rfl, fun hmem => ?_⟩)
    (fun g hg => hg)
  · rw [getElem?_erase, if_neg hm]
  · cases hgone.symm.trans ht'
  · rw [hwaits] at hmem
    cases hmem

/-! ## The steps -/

section
variable (h : OffsetsInv s)
include h

lemma OffsetsInv.start (hn : s.tasks.contains n = false) (request : Request) (hfound : request.found s.actors) :
    OffsetsInv { (s.begin reader request).1 with tasks := s.tasks.insert n (s.begin reader request).2 } := by
  have hcreate : ∀ g group, s.actors.contains group → (getOrCreate s.actors g).contains group := by
    intro g group hg
    rw [contains_getOrCreate, hg]
    rfl
  match request with
  | .offsetCommit g entries =>
    have hg : (getOrCreate s.actors g).contains g := by
      rw [contains_getOrCreate, decide_eq_true rfl, Bool.or_true]
    exact h.enter hn rfl (getD_getOrCreate s.actors g) rfl rfl ⟨rfl, hg⟩ (hcreate g)
  | .txnOffsetCommit g producerId entries =>
    exact h.enter hn rfl (getD_getOrCreate s.actors g) rfl rfl trivial (hcreate g)
  | .writeTxnMarker producerId commit =>
    refine h.enter hn rfl (fun _ => rfl) rfl ?_ trivial (fun _ hg => hg)
    cases commit <;> rfl
  | .offsetDelete g keys => exact h.enter hn rfl (fun _ => rfl) rfl rfl ⟨rfl, hfound⟩ (fun _ hg => hg)
  | .deleteGroup g => exact h.enter hn rfl (fun _ => rfl) rfl rfl trivial (fun _ hg => hg)

section
variable (hn : s.tasks[n]? = some t)
include hn

/-- An append in its turn: what it writes is what replay adds. -/
lemma OffsetsInv.append (hb : t.batch = some b)
    (hapart : s.Apart n t) (hcur : t.Current reader s.log) (hlog : s'.log = s.log ++ [b])
    (hactors : s'.actors = s.actors) (hself : s'.tasks[n]? = t.afterAppend)
    (hothers : ∀ m, m ≠ n → s'.tasks[m]? = s.tasks[m]?) :
    OffsetsInv s' := by
  have hfresh : ∀ group, loggedOffsets s'.log group = rebuild (loggedOffsets s.log group) (t.writes group) := by
    intro group
    rw [hlog, loggedOffsets_append, adds_batch hb hcur]
  have hlive : ∀ group, s'.live group = s.live group := by
    intro group
    unfold live
    rw [hactors]
  refine ⟨fun group k hk => ?_, fun m t' hm group k hk => ?_, fun m t' hm => ?_⟩
  · have hnot : k ∉ (t.writes group).map Prod.fst := by
      intro hmem
      obtain ⟨t', ht', hwait⟩ := waits_afterAppend_of_writes hmem
      exact hk n t' (hself.trans ht') hwait
    rw [hlive, hfresh, getElem?_rebuild_of_not_mem hnot]
    exact h.settled_of hn (by simp [waits_of_unwritten (.inl (isSome_of_mem hb))]) fun m t' hmn hm =>
      hk m t' ((hothers m hmn).trans hm)
  · rw [hfresh]
    obtain rfl | hmn := eq_or_ne m n
    · have ht' := hself.symm.trans hm
      rw [writes_afterAppend ht']
      rcases of_waits_afterAppend hcur ht' hk with hmem | ⟨hnil, hnone⟩
      · exact getElem?_rebuild_congr hmem
      · rw [hnil]
        exact (getElem?_empty).trans hnone.symm
    · have hm' := (hothers m hmn).symm.trans hm
      rw [h.coming m t' hm' group k hk, getElem?_rebuild_of_not_mem]
      exact hapart (m, t') ((mem_toList s.tasks).mpr hm') hmn (group, k) hk
  · rw [hactors]
    obtain rfl | hmn := eq_or_ne m n
    · exact (h.attached m t hn).afterAppend (hself.symm.trans hm)
    · exact h.attached m t' ((hothers m hmn).symm.trans hm)

lemma OffsetsInv.arrive
    (hg : s.actors.contains g) {f : Committed → Committed}
    (hother : ∀ group k, group ≠ g → (group, k) ∉ t.waits)
    (hf : ∀ m k, (f m)[k]? = if (g, k) ∈ t.waits then (rebuild ∅ (t.writes g))[k]? else m[k]?) :
    OffsetsInv { s with actors := s.actors.modify g f, tasks := s.tasks.erase n } := by
  have hgone : (s.tasks.erase n)[n]? = none := by rw [getElem?_erase, if_pos rfl]
  refine h.pass hn rfl (fun m hm => ?_) (fun t' ht' => ?_) (fun group k => ?_) (fun g' hg' => ?_)
  · rw [getElem?_erase, if_neg hm]
  · cases hgone.symm.trans ht'
  · unfold live
    rw [getD_modify hg]
    obtain rfl | hgroup := eq_or_ne group g
    · rw [if_pos rfl, hf]
      by_cases hmem : (group, k) ∈ t.waits
      · exact .inr ⟨hmem, if_pos hmem⟩
      · exact .inl ⟨if_neg hmem, fun hmem' => absurd hmem' hmem⟩
    · rw [if_neg hgroup]
      exact .inl ⟨rfl, fun hmem => absurd hmem (hother group k hgroup)⟩
  · rwa [contains_modify]

lemma OffsetsInv.publish (hpub : t.publishes g) : OffsetsInv (s.publish n g t) := by
  match t with
  | .writeTxnMarker producerId true offsets true =>
    have hself : ∀ t', (s.publish n g (.writeTxnMarker producerId true offsets true)).tasks[n]? = some t' ↔
        (offsets.erase g).isEmpty = false ∧ t' = .writeTxnMarker producerId true (offsets.erase g) true := by
      intro t'
      simp only [OffsetsState.publish]
      split
      next he => simp [he]
      next he => simp [he, eq_comm]
    refine h.pass hn rfl (fun m hm => ?_) (fun t' ht' => ?_) (fun group k => ?_) (fun g' hg' => ?_)
    · simp only [OffsetsState.publish]
      split
      · rw [getElem?_erase, if_neg hm]
      · rw [getElem?_insert, if_neg hm]
    · obtain ⟨-, rfl⟩ := (hself t').mp ht'
      refine ⟨trivial, fun group k hk => ?_⟩
      have hne : group ≠ g := by
        rintro rfl
        simp [mem_waits_writeTxnMarker, Task.writes] at hk
      rw [mem_waits_writeTxnMarker] at hk ⊢
      simp only [Task.writes, getElem?_erase, if_neg hne] at hk ⊢
      exact ⟨hk, trivial⟩
    · have hg : (getOrCreate s.actors g).contains g := by
        rw [contains_getOrCreate, decide_eq_true rfl, Bool.or_true]
      simp only [OffsetsState.live, OffsetsState.publish]
      rw [getD_modify hg, getD_getOrCreate]
      obtain rfl | hgroup := eq_or_ne group g
      · rw [if_pos rfl]
        by_cases hk : k ∈ (offsets[group]?.getD []).map Prod.fst
        · exact .inr ⟨mem_waits_writeTxnMarker.mpr hk, getElem?_rebuild_congr hk⟩
        · exact .inl ⟨getElem?_rebuild_of_not_mem hk,
            fun hmem => absurd (mem_waits_writeTxnMarker.mp hmem) hk⟩
      · rw [if_neg hgroup]
        refine .inl ⟨rfl, fun hmem => ⟨_, (hself _).mpr ⟨?_, rfl⟩, ?_⟩⟩
        · rw [Bool.eq_false_iff, Ne, ExtTreeMap.isEmpty_iff]
          intro hempty
          have hnone : (offsets.erase g)[group]? = none := by rw [hempty, getElem?_empty]
          rw [getElem?_erase, if_neg hgroup] at hnone
          rw [mem_waits_writeTxnMarker, Task.writes, hnone] at hmem
          cases hmem
        · rw [mem_waits_writeTxnMarker] at hmem ⊢
          simpa only [Task.writes, getElem?_erase, if_neg hgroup] using hmem
    · rw [show (s.publish n g (.writeTxnMarker producerId true offsets true)).actors =
        (getOrCreate s.actors g).modify g (rebuild · (offsets[g]?.getD [])) from rfl,
        contains_modify, contains_getOrCreate, hg']
      rfl
  | .writeTxnMarker _ true _ false | .writeTxnMarker _ false _ _ | .offsetCommit .. | .txnOffsetCommit ..
  | .offsetDelete .. | .deleteGroup .. => cases hpub

end
end

lemma waits_detach (g : GroupId) (t : Task) : (t.detach g).waits = t.waits := by
  match t with
  | .offsetCommit _ _ _ true | .offsetCommit _ _ _ false | .offsetDelete _ _ _ true
  | .offsetDelete _ _ _ false | .writeTxnMarker _ true _ true | .writeTxnMarker _ true _ false
  | .writeTxnMarker _ false _ _ | .txnOffsetCommit .. | .deleteGroup .. => rfl

lemma writes_detach (g group : GroupId) (t : Task) : (t.detach g).writes group = t.writes group := by
  match t with
  | .offsetCommit .. | .offsetDelete .. | .writeTxnMarker _ true _ _ | .writeTxnMarker _ false _ _
  | .txnOffsetCommit .. | .deleteGroup .. => rfl

lemma Task.Attached.detach (h : t.Attached actors) (hg : t.holds g = false) :
    (t.detach g).Attached (actors.erase g) := by
  have hother : ∀ g', decide (g' = g) = false → actors.contains g' → (actors.erase g).contains g' := by
    intro g' hne hc
    rw [contains_eq_isSome_getElem?] at hc ⊢
    rwa [getElem?_erase, if_neg (of_decide_eq_false hne)]
  match t with
  | .offsetCommit g' _ _ _ | .offsetDelete g' _ _ _ =>
    refine ⟨?_, hother g' hg h.2⟩
    rw [h.1, Bool.true_and]
    exact decide_eq_true (of_decide_eq_false hg)
  | .txnOffsetCommit .. | .writeTxnMarker .. | .deleteGroup .. => trivial

lemma OffsetsInv.discard (h : OffsetsInv s) (hn : s.tasks[n]? = some t) (hwaits : t.waits = [])
    (hun : s.Unused g) (hfresh : ∀ group, loggedOffsets s'.log group = loggedOffsets s.log group)
    (hactors : s'.actors = s.actors.erase g)
    (hothers : ∀ m, m ≠ n → s'.tasks[m]? = s.tasks[m]?.map (Task.detach g))
    (hself : ∀ t', s'.tasks[n]? = some t' → t'.waits = [] ∧ t'.Attached s'.actors) : OffsetsInv s' := by
  have hget : ∀ m t', m ≠ n → s'.tasks[m]? = some t' → ∃ t₀, s.tasks[m]? = some t₀ ∧ t' = t₀.detach g := by
    intro m t' hmn hm
    rw [hothers m hmn, map_eq_some_iff] at hm
    obtain ⟨t₀, ht₀, rfl⟩ := hm
    exact ⟨t₀, ht₀, rfl⟩
  refine ⟨fun group k hk => ?_, fun m t' hm group k hk => ?_, fun m t' hm => ?_⟩
  · rw [hfresh]
    unfold live
    rw [hactors, getElem?_erase]
    split
    next hg =>
      rw [hg, hun.1]
      rfl
    next =>
      refine h.settled_of hn (by simp [hwaits]) fun m t' hmn hm => ?_
      rw [← waits_detach g]
      refine hk m (t'.detach g) ?_
      rw [hothers m hmn, hm]
      rfl
  · rw [hfresh]
    obtain rfl | hmn := eq_or_ne m n
    · rw [(hself t' hm).1] at hk
      cases hk
    · obtain ⟨t₀, ht₀, rfl⟩ := hget m t' hmn hm
      rw [waits_detach] at hk
      rw [writes_detach]
      exact h.coming m t₀ ht₀ group k hk
  · by_cases hmn : m = n
    · subst hmn
      exact (hself t' hm).2
    · obtain ⟨t₀, ht₀, rfl⟩ := hget m t' hmn hm
      rw [hactors]
      exact (h.attached m t₀ ht₀).detach (hun.2 (m, t₀) ((mem_toList s.tasks).mpr ht₀))

lemma OffsetsInv.deliver (h : OffsetsInv s) (hn : s.tasks[n]? = some t) (hawaits : t.awaitsMessage)
    (hun : ∀ group ∈ t.deletes, s.Unused group) : OffsetsInv (s.deliver n t) := by
  match t with
  | .offsetCommit g entries attached true =>
    obtain ⟨rfl, hg⟩ := h.attached n _ hn
    refine h.arrive hn hg (fun group k hne hk => ?_) (fun c k => ?_)
    · rw [mem_waits_offsetCommit, Task.writes, if_neg (Ne.symm hne)] at hk
      cases hk
    · simp only [mem_waits_offsetCommit, Task.writes, if_true]
      split
      next hk => exact getElem?_rebuild_congr hk
      next hk => exact getElem?_rebuild_of_not_mem hk
  | .offsetDelete g keys attached true =>
    obtain ⟨rfl, hg⟩ := h.attached n _ hn
    refine h.arrive hn hg (fun group k hne hk => ?_) (fun c k => ?_)
    · exact hne (mem_waits_offsetDelete.mp hk).1.symm
    · simp only [mem_waits_offsetDelete, true_and]
      rw [getElem?_foldl_erase]
      by_cases hk : k ∈ keys
      · rw [if_pos hk, if_pos hk]
        exact getElem?_empty.symm
      · rw [if_neg hk, if_neg hk]
  | .deleteGroup g true false =>
    refine h.discard hn rfl (hun g rfl) (fun group => ?_) rfl (fun m hm => ?_) (fun t' ht' => ?_)
    · exact loggedOffsets_append _ _ _
    · exact (getElem?_insert _ _ _ _).trans ((if_neg hm).trans getElem?_map)
    · cases ((getElem?_insert _ _ _ _).trans (if_pos rfl)).symm.trans ht'
      exact ⟨rfl, trivial⟩
  | .deleteGroup g false false => exact h.leave hn rfl
  | .deleteGroup g _ true =>
    refine h.discard hn rfl (hun g rfl) (fun group => rfl) rfl (fun m hm => ?_) (fun t' ht' => ?_)
    · exact (getElem?_erase _ _ _).trans ((if_neg hm).trans getElem?_map)
    · cases ((getElem?_erase _ _ _).trans (if_pos rfl)).symm.trans ht'
  | .offsetCommit _ _ _ false | .offsetDelete _ _ _ false | .txnOffsetCommit .. | .writeTxnMarker .. =>
    cases hawaits

lemma has_iff {p : Task → Bool} : s.has n p ↔ ∃ t, s.tasks[n]? = some t ∧ p t = true := by
  unfold has
  rw [any_eq_true]

/-- Every orderly step keeps the invariant. -/
lemma OffsetsInv.step (s : OffsetsState) (e : Event) (h : OffsetsInv s) (hen : (handlers reader).enabled s e)
    (hok : Orderly reader s e) : OffsetsInv ((handlers reader).next s e) := by
  match e with
  | .start n request => exact h.start hen.1 request hen.2
  | .refuse n =>
    obtain ⟨t, ht, hunwritten⟩ := has_iff.mp hen
    exact h.leave ht (waits_of_unwritten (.inr hunwritten))
  | .append n =>
    obtain ⟨t, ht, hbatch⟩ := has_iff.mp hen
    obtain ⟨b, hb⟩ := isSome_iff_exists.mp hbatch
    obtain ⟨hapart, hcur⟩ := hok t ht
    simp only [handlers, ht, hb, toList_some]
    refine h.append ht hb hapart hcur rfl rfl ?_ fun m hm => ?_
    · cases t.afterAppend with
      | some t' => exact (getElem?_insert _ _ _ _).trans (if_pos rfl)
      | none => exact (getElem?_erase _ _ _).trans (if_pos rfl)
    · cases t.afterAppend with
      | some t' => exact (getElem?_insert _ _ _ _).trans (if_neg hm)
      | none => exact (getElem?_erase _ _ _).trans (if_neg hm)
  | .message n =>
    obtain ⟨t, ht, hawaits⟩ := has_iff.mp hen
    simp only [handlers, ht]
    exact h.deliver ht hawaits (hok t ht)
  | .publish n group =>
    obtain ⟨t, ht, hpub⟩ := has_iff.mp hen
    simp only [handlers, ht]
    exact h.publish ht hpub

/-! ## Runs -/

def restarted (reader : Reader Batch) (log : List Batch) : OffsetsState :=
  { log, actors := (replayRecords reader log).committed }

lemma OffsetsInv.restarted (hreads : reader.Reaches log 0) : OffsetsInv (restarted reader log) := by
  refine ⟨fun group k _ => congrArg (·[k]?) (freshOffsets_eq hreads group), fun m t hm => ?_, fun m t hm => ?_⟩
  · cases getElem?_empty.symm.trans hm
  · cases getElem?_empty.symm.trans hm

/-- Every batch has a hundred bytes. -/
def replayReads : Reader Batch := .dense (fun _ => 100) 1048576

def entryAt (offset : ℤ) : OffsetEntry :=
  { offset, leaderEpoch := 0, metadata := "", commitTimestampMs := 0 }

/-- A commit, an aborted and a committed transaction, and the deletion of an offset that was never
committed. -/
def orderlyRun : List Event :=
  [.start 0 (.offsetCommit "g" [(("t", 0), entryAt 3)]), .append 0, .message 0,
    .start 1 (.txnOffsetCommit "g" 9 [(("t", 0), entryAt 4)]), .append 1,
    .start 2 (.writeTxnMarker 9 false), .append 2,
    .start 3 (.txnOffsetCommit "g" 9 [(("t", 0), entryAt 5)]), .append 3,
    .start 4 (.writeTxnMarker 9 true), .start 5 (.offsetDelete "g" [("t", 1)]), .append 4, .append 5,
    .publish 4 "g", .message 5]

def deletingRun : List Event :=
  [.start 0 (.offsetCommit "g" [(("t", 0), entryAt 3)]), .append 0, .message 0,
    .start 1 (.offsetDelete "g" [("t", 0)]), .append 1, .message 1]

end Crabka.Broker.Group.Offsets
