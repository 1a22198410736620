import Crabka.Broker.Share.Persister

/-!
# Share state after a restart

What the coordinator has in memory against what a fresh one replays. For one key the replay is a fold over its records
(`replayKey`), which may start anywhere at or below the key's last snapshot. Memory and log part where a write raises
the state epoch without a snapshot, where an update is applied and its append fails, and where a fenced write leaves an
empty entry behind.
-/

namespace Crabka.Broker.Share.Persister
open Function
open List hiding getElem?_insert
open Std (ExtTreeMap)
open Found Coordinator SharePartitionState

/-! ## Views -/

variable {st st' : SharePartitionState}

lemma view_applyUpdate (h : st.view = st'.view) (v : ShareUpdateValue) :
    (st.applyUpdate v).view = (st'.applyUpdate v).view := by
  unfold view at h
  obtain ⟨h1, h2, h3, h4, h5⟩ := StateView.mk.inj h
  simp only [applyUpdate, mergeBatches, view, h1, h3, h5]

/-! ## Replay of one key -/

/-- What one record does to the state of a key. -/
def replayKey (key : ShareKey) (acc : Option SharePartitionState) (x : ℕ × StateRecord) :
    Option SharePartitionState :=
  if key = x.2.key then
    match x.2 with
    | .tombstone _ => none
    | .snapshot _ value => some { (acc.getD {}).applySnapshot value with lastSnapshotOffset := x.1 }
    | .update _ value => some ((acc.getD {}).applyUpdate value)
  else acc

lemma getElem?_replayRecord (state : ExtTreeMap ShareKey SharePartitionState)
    (x : ℕ × StateRecord) (key : ShareKey) :
    (replayRecord state x)[key]? = replayKey key state[key]? x := by
  obtain ⟨n, r⟩ := x
  by_cases h : key = r.key
  · cases r <;> obtain rfl := h <;> simp [replayKey, replayRecord, StateRecord.key]
  · rw [replayKey, if_neg h]
    cases r with
    | tombstone k => exact (getElem?_erase ..).trans (if_neg h)
    | snapshot k v | update k v => exact (getElem?_insert ..).trans (if_neg h)

lemma getElem?_foldl_replayRecord (xs : List (ℕ × StateRecord))
    (state : ExtTreeMap ShareKey SharePartitionState) (key : ShareKey) :
    (xs.foldl replayRecord state)[key]? = xs.foldl (replayKey key) state[key]? := by
  induction xs generalizing state with
  | nil => rfl
  | cons x xs ih => rw [foldl_cons, foldl_cons, ih, getElem?_replayRecord]

variable {key : ShareKey}

lemma foldl_replayKey_of_ne {xs : List (ℕ × StateRecord)} (h : ∀ x ∈ xs, x.2.key ≠ key)
    (acc : Option SharePartitionState) :
    xs.foldl (replayKey key) acc = acc := by
  refine foldlRecOn (motive := (· = acc)) xs _ rfl fun acc' h' x hx => ?_
  rw [replayKey, if_neg (h x hx).symm, h']

/-- The view that a list of records leaves of a key, offsets apart. -/
def viewFold (key : ShareKey) (acc : Option StateView) (r : StateRecord) : Option StateView :=
  if key = r.key then
    match r with
    | .tombstone _ => none
    | .snapshot _ value => some (({} : SharePartitionState).applySnapshot value).view
    | .update _ value =>
      let v := acc.getD ({} : SharePartitionState).view
      some (({ stateEpoch := v.stateEpoch, leaderEpoch := v.leaderEpoch, startOffset := v.startOffset
               deliveryCompleteCount := v.deliveryCompleteCount
               stateBatches := v.stateBatches } : SharePartitionState).applyUpdate value).view
  else acc

lemma map_view_replayKey (key : ShareKey) (acc : Option SharePartitionState) (x : ℕ × StateRecord) :
    (replayKey key acc x).map (·.view) = viewFold key (acc.map (·.view)) x.2 := by
  unfold replayKey viewFold
  split
  · cases x.2 with
    | tombstone k | snapshot k v => rfl
    | update k v =>
      refine congrArg some (view_applyUpdate ?_ v)
      cases acc <;> rfl
  · rfl

/-- The view of a key that the replay of a list of records gives. -/
def viewOf (key : ShareKey) (rs : List StateRecord) : Option StateView :=
  rs.foldl (viewFold key) none

lemma map_view_foldl (key : ShareKey) (xs : List (ℕ × StateRecord)) (acc : Option SharePartitionState) :
    (xs.foldl (replayKey key) acc).map (·.view) = (xs.map Prod.snd).foldl (viewFold key) (acc.map (·.view)) := by
  induction xs generalizing acc with
  | nil => rfl
  | cons x xs ih => rw [foldl_cons, ih, map_view_replayKey, map_cons, foldl_cons]

lemma map_snd_stored (log : StateLog) : log.stored.map Prod.snd = log.records.drop log.start := by
  refine ext_getElem? fun i => ?_
  simp [StateLog.stored, StateLog.written, comp_def]

lemma viewOf_append (key : ShareKey) (rs : List StateRecord) (r : StateRecord) :
    viewOf key (rs ++ [r]) = viewFold key (viewOf key rs) r := by
  simp [viewOf]

variable {r : StateRecord}

/-! ## The invariant -/

/-- The log of a key gives what memory has, from wherever at or below its start or last snapshot the replay begins;
without an entry in memory it gives nothing. -/
def Covers (log : StateLog) (key : ShareKey) : Option SharePartitionState → Prop
  | none => ∀ n, viewOf key (log.records.drop n) = none
  | some st => st.lastSnapshotOffset ≤ log.records.length ∧
      ∀ n, n ≤ log.start ∨ n ≤ st.lastSnapshotOffset → viewOf key (log.records.drop n) = some st.view

/-- Records are in the partition of their key, and those that are left cover the state of the key. -/
structure ShareInv (config : ShareConfig) (s : Coordinator) : Prop where
  start : ∀ p, (s.logs p).start ≤ (s.logs p).records.length
  routed : ∀ p, ∀ r ∈ (s.logs p).records, config.partitionOf r.key = p
  covers : ∀ key, Covers (s.logs (config.partitionOf key)) key s.state[key]?

variable {config : ShareConfig} {s : Coordinator}

lemma drop_concat (rs : List StateRecord) (r : StateRecord) (n : ℕ) :
    (rs ++ [r]).drop n = if n ≤ rs.length then rs.drop n ++ [r] else [] := by
  split_ifs with h
  · rw [drop_append_of_le_length h]
  · exact drop_eq_nil_of_le (by simp; omega)

variable {log : StateLog}

lemma Covers.append_of_ne {o : Option SharePartitionState} (h : Covers log key o)
    (hstart : log.start ≤ log.records.length) (hr : r.key ≠ key) :
    Covers { log with records := log.records ++ [r] } key o := by
  have hview : ∀ n, n ≤ log.records.length →
      viewOf key ((log.records ++ [r]).drop n) = viewOf key (log.records.drop n) := by
    intro n hn
    rw [drop_concat, if_pos hn, viewOf_append]
    exact if_neg hr.symm
  cases o with
  | none =>
    intro n
    by_cases hn : n ≤ log.records.length
    · exact (hview n hn).trans (h n)
    · show viewOf key ((log.records ++ [r]).drop n) = none
      rw [drop_concat, if_neg hn]
      rfl
  | some st =>
    obtain ⟨hle, hcov⟩ := h
    refine ⟨hle.trans (by simp), fun n hn => ?_⟩
    have hlen : n ≤ log.records.length := hn.elim (·.trans hstart) (·.trans hle)
    exact (hview n hlen).trans (hcov n hn)

lemma Covers.append_self (hstart : log.start ≤ log.records.length)
    (hlast : st.lastSnapshotOffset ≤ log.records.length)
    (hview : ∀ n, n ≤ log.start ∨ n ≤ st.lastSnapshotOffset →
      viewFold key (viewOf key (log.records.drop n)) r = some st.view) :
    Covers { log with records := log.records ++ [r] } key (some st) := by
  refine ⟨hlast.trans (by simp), fun n hn => ?_⟩
  have hlen : n ≤ log.records.length := hn.elim (·.trans hstart) (·.trans hlast)
  show viewOf key ((log.records ++ [r]).drop n) = some st.view
  rw [drop_concat, if_pos hlen, viewOf_append]
  exact hview n hn

lemma logs_persistRecord_of_ne {p : ℕ} (h : p ≠ config.partitionOf r.key) :
    (s.persistRecord config r).logs p = s.logs p := update_of_ne h ..

lemma logs_persistRecord_self (r : StateRecord) :
    (s.persistRecord config r).logs (config.partitionOf r.key) =
      { s.logs (config.partitionOf r.key) with
        records := (s.logs (config.partitionOf r.key)).records ++ [r] } := update_self ..

section
variable (h : ShareInv config s)
include h

/-- An append that is followed by the change in memory keeps the invariant. -/
lemma ShareInv.append {state : ExtTreeMap ShareKey SharePartitionState}
    (hother : ∀ key, key ≠ r.key → state[key]? = s.state[key]?)
    (hself : Covers { s.logs (config.partitionOf r.key) with
      records := (s.logs (config.partitionOf r.key)).records ++ [r] } r.key state[r.key]?) :
    ShareInv config { s.persistRecord config r with state } := by
  refine ⟨fun p => ?_, fun p x hx => ?_, fun key => ?_⟩
  · show ((s.persistRecord config r).logs p).start ≤ ((s.persistRecord config r).logs p).records.length
    by_cases hp : p = config.partitionOf r.key
    · rw [hp, logs_persistRecord_self]
      exact (h.start _).trans (by simp)
    · rw [logs_persistRecord_of_ne hp]
      exact h.start p
  · change x ∈ ((s.persistRecord config r).logs p).records at hx
    by_cases hp : p = config.partitionOf r.key
    · rw [hp, logs_persistRecord_self] at hx
      obtain hx | hx := mem_snoc.mp hx
      · rw [hp]
        exact h.routed _ x hx
      · rw [hx, hp]
    · rw [logs_persistRecord_of_ne hp] at hx
      exact h.routed p x hx
  · show Covers ((s.persistRecord config r).logs (config.partitionOf key)) key state[key]?
    by_cases hkey : key = r.key
    · rwa [hkey, logs_persistRecord_self]
    · rw [hother key hkey]
      by_cases hp : config.partitionOf key = config.partitionOf r.key
      · rw [hp, logs_persistRecord_self, ← hp]
        exact (h.covers key).append_of_ne (h.start _) (Ne.symm hkey)
      · rw [logs_persistRecord_of_ne hp]
        exact h.covers key

lemma ShareInv.appendSnapshot (key : ShareKey) (v : ShareSnapshotValue) (st : SharePartitionState) :
    ShareInv config ((s.persistRecord config (.snapshot key v)).setState key
      { st.applySnapshot v with lastSnapshotOffset := s.nextOffset config key }) := by
  refine h.append (r := .snapshot key v) (fun key' hne => ?_) ?_
  · exact (getElem?_insert ..).trans (if_neg hne)
  · show Covers _ key (s.state.insert key _)[key]?
    rw [ExtTreeMap.getElem?_insert_self]
    refine Covers.append_self (h.start _) le_rfl fun n _ => ?_
    exact if_pos rfl

/-- An update is applied to an entry with the view of the one in memory, or the view created with the update. -/
lemma ShareInv.appendUpdate (key : ShareKey) (v : ShareUpdateValue) :
    ShareInv config ((s.persistRecord config (.update key v)).setState key
      ((s.state[key]?.getD {}).applyUpdate v)) := by
  refine h.append (r := .update key v) (fun key' hne => ?_) ?_
  · exact (getElem?_insert ..).trans (if_neg hne)
  · show Covers _ key (s.state.insert key _)[key]?
    rw [ExtTreeMap.getElem?_insert_self]
    have hcov := h.covers key
    cases hst : s.state[key]? with
    | none =>
      rw [hst] at hcov
      refine Covers.append_self (h.start _) (Nat.zero_le _) fun n _ => ?_
      show viewFold key (viewOf key ((s.logs (config.partitionOf key)).records.drop n)) _ = _
      rw [hcov n]
      exact if_pos rfl
    | some st =>
      rw [hst] at hcov
      refine Covers.append_self (h.start _) hcov.1 fun n hn => ?_
      show viewFold key (viewOf key ((s.logs (config.partitionOf key)).records.drop n)) _ = _
      rw [hcov.2 n hn]
      exact (if_pos rfl).trans (congrArg some (view_applyUpdate rfl v))

lemma ShareInv.sameView (hst : s.state[key]? = some st)
    (hview : st'.view = st.view) (hlast : st'.lastSnapshotOffset = st.lastSnapshotOffset) :
    ShareInv config (s.setState key st') := by
  refine ⟨h.start, h.routed, fun key' => ?_⟩
  show Covers (s.logs _) key' (s.state.insert key st')[key']?
  rw [getElem?_insert]
  split_ifs with heq
  · rw [heq]
    have hcov := h.covers key
    rw [hst] at hcov
    refine ⟨hlast ▸ hcov.1, fun n hn => ?_⟩
    rw [hview]
    exact hcov.2 n (hlast ▸ hn)
  · exact h.covers key'

lemma ShareInv.delete (key : ShareKey) (persists : Bool) : ShareInv config (s.delete config key persists) := by
  unfold Coordinator.delete
  split
  · refine h.append (r := .tombstone key) (fun key' hne => ?_) ?_
    · exact (getElem?_erase ..).trans (if_neg hne)
    · show Covers _ key (s.state.erase key)[key]?
      rw [ExtTreeMap.getElem?_erase_self]
      intro n
      rw [drop_concat]
      split
      · rw [viewOf_append]
        exact if_pos rfl
      · rfl
  · exact h

lemma ShareInv.initializeState (key : ShareKey) (stateEpoch startOffset : ℤ) (persists : Bool) :
    ShareInv config (s.initializeState config key stateEpoch startOffset persists) := by
  unfold Coordinator.initializeState
  split
  · exact h
  · dsimp only
    split
    · exact h.appendSnapshot key _ {}
    · exact h

end

/-! ## Pruning -/

lemma redundantOffset_le {p redundant : ℕ} (h : s.redundantOffset config p = some redundant)
    (hkey : s.state[key]? = some st) (hp : config.partitionOf key = p) :
    redundant ≤ st.lastSnapshotOffset := by
  unfold redundantOffset at h
  refine (List.min?_eq_some_iff.mp h).2 _ (mem_map.mpr ⟨(key, st), ?_, rfl⟩)
  exact mem_filter.mpr ⟨(mem_toList _).mpr hkey, by simpa using hp⟩

lemma ShareInv.maybePrune (h : ShareInv config s) (p : ℕ) (trims : Bool) :
    ShareInv config (s.maybePrune config p trims) := by
  unfold Coordinator.maybePrune
  split
  · exact h
  · rename_i redundant hred
    split
    · refine ⟨fun p' => ?_, fun p' r hr => ?_, fun key => ?_⟩
      · by_cases hp : p' = p
        · subst hp
          simp only [update_self]
          exact min_le_right _ _
        · simp only [update_of_ne hp]
          exact h.start p'
      · by_cases hp : p' = p
        · subst hp
          simp only [update_self] at hr
          exact h.routed p' r hr
        · simp only [update_of_ne hp] at hr
          exact h.routed p' r hr
      · by_cases hp : config.partitionOf key = p
        · show Covers (Function.update s.logs p _ (config.partitionOf key)) key s.state[key]?
          have hcov := h.covers key
          rw [hp, update_self]
          rw [hp] at hcov
          cases hst : s.state[key]? with
          | none => rwa [hst] at hcov
          | some st =>
            rw [hst] at hcov
            refine ⟨hcov.1, fun n hn => hcov.2 n (.inr ?_)⟩
            obtain hn | hn := hn
            · exact (hn.trans (min_le_left _ _)).trans (redundantOffset_le hred hst hp)
            · exact hn
        · show Covers (Function.update s.logs p _ (config.partitionOf key)) key s.state[key]?
          rw [update_of_ne hp]
          exact h.covers key
    · exact h

/-! ## Writes -/

/-- A write leaves memory and log alike: an appended update has the epoch of the entry or is followed by its snapshot,
one that is not appended changes nothing that is read, and a fenced write finds an entry. -/
def Coordinator.WriteCall.Durable (config : ShareConfig) (s : Coordinator) (key : ShareKey) (c : WriteCall)
    (persists foldPersists : Bool) : Prop :=
  let st := s.state[key]?.getD {}
  if c.passes st then
    if persists then
      c.stateEpoch = st.stateEpoch ∨ (folds config (c.applied st) ∧ foldPersists = true)
    else s.state.contains key = true ∧ (c.applied st).view = st.view
  else s.state.contains key = true

instance (config : ShareConfig) (s : Coordinator) (key : ShareKey) (c : WriteCall)
    (persists foldPersists : Bool) : Decidable (c.Durable config s key persists foldPersists) := by
  unfold WriteCall.Durable
  infer_instance

lemma getElem?_of_contains (h : s.state.contains key) : s.state[key]? = some (s.state[key]?.getD {}) := by
  obtain ⟨st, hst⟩ := exists_of_contains h
  rw [hst]
  rfl

lemma foldSnapshot_eq (key : ShareKey) (st st' : SharePartitionState) (r : StateRecord) (trims : Bool) :
    ((s.setState key st').persistRecord config r).foldSnapshot config key st trims =
      (s.persistRecord config r).foldSnapshot config key st trims := by
  unfold foldSnapshot setState persistRecord
  simp only [insert_insert, nextOffset]

lemma ShareInv.write (h : ShareInv config s) {c : WriteCall} {persists foldPersists : Bool}
    (hd : c.Durable config s key persists foldPersists) (trims : Bool) :
    ShareInv config (s.write config key c persists foldPersists trims) := by
  unfold Coordinator.write
  unfold WriteCall.Durable at hd
  dsimp only at hd ⊢
  set st := s.state[key]?.getD {}
  split
  · rename_i hpass
    rw [if_pos hpass] at hd
    cases persists with
    | false =>
      obtain ⟨hkey, hview⟩ := hd
      exact h.sameView (getElem?_of_contains hkey) hview rfl
    | true =>
      rw [if_pos rfl] at hd
      -- The state without the new epoch is what the log gives after the update.
      have hupd := h.appendUpdate key (c.update st)
      simp only [if_true]
      split
      · rw [foldSnapshot_eq, ← foldSnapshot_eq _ _ (st.applyUpdate (c.update st))]
        exact (hupd.appendSnapshot key _ _).maybePrune _ trims
      · rename_i hfold
        have hepoch := hd.resolve_right hfold
        have happ : c.applied st = st.applyUpdate (c.update st) := by
          unfold WriteCall.applied
          rw [hepoch]
        rwa [happ]
  · rename_i hpass
    rw [if_neg hpass] at hd
    exact h.sameView (getElem?_of_contains hd) rfl rfl

/-! ## Recovery equals memory -/

def ShareCall.Durable (config : ShareConfig) (s : Coordinator) : ShareCall → Prop
  | .write key c persists foldPersists _ => c.Durable config s key persists foldPersists
  | .initializeState .. | .delete .. => True

instance (config : ShareConfig) (s : Coordinator) : ∀ l, Decidable (ShareCall.Durable config s l)
  | .write _ _ _ _ _ => inferInstanceAs (Decidable (WriteCall.Durable ..))
  | .initializeState .. | .delete .. => .isTrue trivial

/-- Every durable call keeps the invariant. -/
lemma ShareInv.step (h : ShareInv config s) (l : ShareCall) (hd : l.Durable config s) :
    ShareInv config ((shareSys config).next s l) := by
  cases l with
  | initializeState key stateEpoch startOffset persists => exact h.initializeState ..
  | write key c persists foldPersists trims => exact h.write hd trims
  | delete key persists => exact h.delete key persists

lemma ShareInv.fresh : ShareInv config {} where
  start _ := le_rfl
  routed p r hr := by cases hr
  covers key := by
    show Covers {} key (∅ : ExtTreeMap ShareKey SharePartitionState)[key]?
    rw [ExtTreeMap.getElem?_empty]
    exact fun n => by rw [drop_nil]; rfl

variable {led : List ℕ}

lemma getElem?_foldl_logs_of_not_mem (h : ShareInv config s) (hled : config.partitionOf key ∉ led)
    (state : ExtTreeMap ShareKey SharePartitionState) :
    (led.foldl (fun state p => (s.logs p).stored.foldl replayRecord state) state)[key]? = state[key]? := by
  refine foldlRecOn (motive := (·[key]? = state[key]?)) led _ rfl fun state' h' p hp => ?_
  rw [getElem?_foldl_replayRecord, foldl_replayKey_of_ne fun x hx hkey => hled ?_, h']
  have hmem : x.2 ∈ (s.logs p).records :=
    mem_of_mem_drop (map_snd_stored (s.logs p) ▸ mem_map_of_mem hx)
  rwa [← hkey, h.routed p x.2 hmem]

lemma getElem?_foldl_logs (h : ShareInv config s) (hnodup : led.Nodup) (hled : config.partitionOf key ∈ led) :
    (led.foldl (fun state p => (s.logs p).stored.foldl replayRecord state) ∅)[key]? =
      (s.logs (config.partitionOf key)).stored.foldl (replayKey key) none := by
  obtain ⟨before, after, rfl⟩ := append_of_mem hled
  have hsplit := nodup_append.mp hnodup
  have hbefore : config.partitionOf key ∉ before := fun hmem =>
    hsplit.2.2 _ hmem _ mem_cons_self rfl
  have hafter : config.partitionOf key ∉ after := (nodup_cons.mp hsplit.2.1).1
  rw [foldl_append, foldl_cons,
    getElem?_foldl_logs_of_not_mem h hafter, getElem?_foldl_replayRecord,
    getElem?_foldl_logs_of_not_mem h hbefore, ExtTreeMap.getElem?_empty]

/-- The reads of a fresh coordinator reach every record that the partitions have. -/
def Coordinator.Readable (config : ShareConfig) (s : Coordinator) (led : List ℕ) : Prop :=
  ∀ p ∈ led, config.reader.Reaches (s.logs p).written (s.logs p).start

instance : Decidable (s.Readable config led) := inferInstanceAs (Decidable (∀ p ∈ led, _))

lemma Coordinator.Readable.recover_eq (h : s.Readable config led) :
    s.recover config led = led.foldl (fun state p => (s.logs p).stored.foldl replayRecord state) ∅ :=
  foldl_ext _ _ _ fun _ p hp => by rw [config.reader.readFrom_eq (h p hp), StateLog.stored]

lemma ShareInv.recover (h : ShareInv config s) (hnodup : led.Nodup) (hled : config.partitionOf key ∈ led)
    (hreads : s.Readable config led) : (s.recover config led)[key]?.map (·.view) = s.state[key]?.map (·.view) := by
  rw [hreads.recover_eq, getElem?_foldl_logs h hnodup hled, map_view_foldl, map_snd_stored]
  have hcov := h.covers key
  cases hst : s.state[key]? with
  | none =>
    rw [hst] at hcov
    exact hcov _
  | some st =>
    rw [hst] at hcov
    exact hcov.2 _ (.inl le_rfl)

/-- One state partition, with a snapshot after every second update, and records of a hundred bytes. -/
def onePartition : ShareConfig := ⟨fun _ => 0, 2, .dense (fun _ => 100) 1048576⟩

def keyA : ShareKey := ("g", 7, 0)

def keyB : ShareKey := ("g", 7, 1)

def oneBatch (stateEpoch startOffset first last : ℤ) : WriteCall :=
  ⟨stateEpoch, 0, startOffset, 1, [⟨first, last, 0, 1⟩]⟩

/-- Two keys, a fold that prunes the first records, a failed append and a delete. -/
def durableCalls : List ShareCall :=
  [.initializeState keyA 1 0 true, .initializeState keyB 3 10 true, .initializeState keyB 4 20 true,
    .write keyA (oneBatch 1 5 5 9) true true true, .write keyA (oneBatch 1 7 10 19) true true true,
    .write keyB (oneBatch 4 20 20 29) true false true, .delete keyA false, .delete keyA true]

end Crabka.Broker.Share.Persister
