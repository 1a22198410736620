import Crabka.Found.Maps
import Crabka.Found.Newest
import Crabka.Found.Runs
import Crabka.Pgexec.TsStore

/-!
# Garbage collection of timestamp versions

`crates/pgexec/src/ts_gc.rs` and `crates/pgmvcc/src/gc.rs`. An engine raises its reclaim floor, bounded by its read
pins, deletes the versions that another one supersedes at or below it, and publishes the floor in the same batch.
Engines share the store, and with it the published floor, and nothing else.

What was deleted has a later version at or below the published floor (`Dead`), as long as no batch lowers that floor;
and a read is only admitted at or above it. So no pinned read misses a version (`ts_gc_invisible`). Batches that are
committed in another order than they were built do lower it (`durable_floor_decreases`).
-/

namespace Crabka.Pgexec
open List hiding getElem?_filter getElem?_insert
open Std (ExtTreeMap)
open Found
variable {α : Type}

/-! ## Rows -/

/-- The bytes of a row's key as numbers of four bytes: `row_key` and `hash_row_key`. -/
def RowKey.words (key : RowKey) : List ℕ :=
  key.tableId :: (key.bucket.toList ++ [key.rowid / 2 ^ 32, key.rowid % 2 ^ 32])

/-- `timestamp_version_key`. -/
def versionKey (key : RowKey) (startTs : ℕ) : List ℕ := key.words ++ [startTs / 2 ^ 32, startTs % 2 ^ 32]

abbrev Versions (α : Type) := ExtTreeMap (List ℕ) (TsVersion α)

def scanPrefix (versions : Versions α) (start : List ℕ) : List (List ℕ × TsVersion α) :=
  versions.toList.filter fun e => start.isPrefixOf e.1

/-- What a version shows at a timestamp. -/
def TsVersion.shownAt (readTs : ℕ) (v : TsVersion α) : Option (ℕ × Option α) := match v.state with
  | .committed commitTs => if commitTs ≤ readTs then some (commitTs, some v.row) else none
  | .deleted commitTs => if commitTs ≤ readTs then some (commitTs, none) else none
  | _ => none

def readVisibleTsRow (versions : Versions α) (tableId rowid readTs : ℕ) : Option α :=
  (newest Prod.fst (fun e => e.2.shownAt readTs)
    (scanPrefix versions (RowKey.words ⟨tableId, none, rowid⟩))).bind Prod.snd

/-- The first-committer-wins check of `ensure_prewrite_can_win`. -/
def conflicts (versions : Versions α) (tableId rowid startTs : ℕ) : Bool :=
  (scanPrefix versions (RowKey.words ⟨tableId, none, rowid⟩)).any fun e => e.2.beats startTs

/-- `ts_dead_version_indices`, with the keys for the indices. -/
def deadVersions (chain : List (List ℕ × TsVersion α)) (floor cap : ℕ) : List (List ℕ) :=
  match ((chain.filterMap fun e => e.2.state.commitTs?).filter (· ≤ floor)).max? with
  | none => []
  | some newestCovered =>
    let dead := chain.filterMap fun e => e.2.state.commitTs?.bind fun commitTs =>
      if commitTs < newestCovered then some (commitTs, e.1) else none
    ((dead.insertionSort fun a b => a.1 ≤ b.1).take cap).map Prod.snd

/-! ## Engines -/

/-- The pins and the reclaim floor of an engine. -/
structure GcHorizon where
  pins : List ℕ := []
  reclaimFloor : ℕ := 0
  deriving DecidableEq

namespace GcHorizon

def pinAbove (h : GcHorizon) (value : ℕ) : Option GcHorizon :=
  if value < h.reclaimFloor then none else some { h with pins := value :: h.pins }

def raiseReclaimFloor (h : GcHorizon) (candidate : ℕ) : GcHorizon :=
  { h with reclaimFloor := max h.reclaimFloor (h.pins.min?.elim candidate (min candidate)) }

def observeReclaimFloor (h : GcHorizon) (floor : ℕ) : GcHorizon :=
  { h with reclaimFloor := max h.reclaimFloor floor }

end GcHorizon

/-- What `prune_batch_ops` has collected. -/
structure PruneBatch (n : ℕ) where
  engine : Fin n
  floor : ℕ
  deletes : List (List ℕ) := []

/-- One store with the engines that prune it and the batches that wait to be committed. -/
structure GcWorld (α : Type) (n : ℕ) where
  versions : Versions α := ∅
  /-- `durable_reclaim_floor`. -/
  durableFloor : ℕ := 0
  /-- The versions of the same run without pruning. -/
  unpruned : Versions α := ∅
  engines : Fin n → GcHorizon := fun _ => {}
  batches : ℕ → Option (PruneBatch n) := fun _ => none

/-- `pin_read` is an observation and then a pin; `prune_batch_ops` is an observation, a raise and the scans
of the rows that are written. -/
inductive GcEvent (α : Type) (n : ℕ) where
  | observe (e : Fin n)
  | pin (e : Fin n) (readTs : ℕ)
  | unpin (e : Fin n) (readTs : ℕ)
  | raise (slot : ℕ) (e : Fin n) (closedTs : ℕ)
  | scan (slot : ℕ) (key : RowKey) (cap : ℕ)
  /-- A batch of a prewrite, a commit or an abort, with what was collected for it. -/
  | commit (slot : ℕ) (puts : List (RowKey × TsVersion α))

def putAll (versions : Versions α) (puts : List (RowKey × TsVersion α)) : Versions α :=
  puts.foldl (fun m p => m.insert (versionKey p.1 p.2.startTs) p.2) versions

namespace GcWorld
variable {n : ℕ}

def setEngine (w : GcWorld α n) (e : Fin n) (h : GcHorizon) : GcWorld α n :=
  { w with engines := Function.update w.engines e h }

def setBatch (w : GcWorld α n) (slot : ℕ) (b : Option (PruneBatch n)) : GcWorld α n :=
  { w with batches := Function.update w.batches slot b }

def next (w : GcWorld α n) : GcEvent α n → GcWorld α n
  | .observe e => w.setEngine e ((w.engines e).observeReclaimFloor w.durableFloor)
  | .pin e readTs => match (w.engines e).pinAbove readTs with
    | some h => w.setEngine e h
    | none => w
  | .unpin e readTs => w.setEngine e { w.engines e with pins := (w.engines e).pins.erase readTs }
  | .raise slot e closedTs =>
    let raised := (w.engines e).raiseReclaimFloor closedTs
    (w.setEngine e raised).setBatch slot (some { engine := e, floor := raised.reclaimFloor })
  | .scan slot key cap => match w.batches slot with
    | some b => w.setBatch slot (some { b with
        deletes := b.deletes ++ deadVersions (scanPrefix w.versions key.words) b.floor cap })
    | none => w
  | .commit slot puts =>
    let w := { w with versions := putAll w.versions puts, unpruned := putAll w.unpruned puts }
    match w.batches slot with
    | some b => { w.setBatch slot none with
        versions := b.deletes.foldl ExtTreeMap.erase w.versions
        durableFloor := if b.deletes = [] then w.durableFloor else b.floor }
    | none => w

end GcWorld

def gcSys (α : Type) (n : ℕ) : Sys (GcWorld α n) (GcEvent α n) := ⟨fun _ _ => True, GcWorld.next⟩

instance (n : ℕ) (w : GcWorld α n) (l : GcEvent α n) : Decidable ((gcSys α n).enabled w l) := .isTrue trivial

/-! ## The condition -/

def commitOf (versions : Versions α) (k : List ℕ) : Option ℕ := versions[k]?.bind fun v => v.state.commitTs?

/-- A version that is committed is not put again with another outcome. -/
def keepsCommits (versions : Versions α) : List (RowKey × TsVersion α) → Bool
  | [] => true
  | p :: puts =>
    let k := versionKey p.1 p.2.startTs
    (commitOf versions k).all (fun c => p.2.state.commitTs? = some c) && keepsCommits (versions.insert k p.2) puts

/-- Nothing is published between the observation and the pin of a `pin_read`. A prune batch does not lower the published
floor, and is committed while no other engine has pins. -/
def Guarded {n : ℕ} (w : GcWorld α n) : GcEvent α n → Bool
  | .pin e _ => w.durableFloor ≤ (w.engines e).reclaimFloor
  | .commit slot puts => keepsCommits w.unpruned puts && (w.batches slot).all fun b => b.deletes.isEmpty ||
      decide (w.durableFloor ≤ b.floor) && decide (∀ e, e ≠ b.engine → (w.engines e).pins = [])
  | _ => true

/-! ## Dead versions -/

/-- The version is superseded by a later one of the same row at or below the floor. -/
def Dead (versions : Versions α) (k : List ℕ) (floor : ℕ) : Prop :=
  ∃ c k' c', commitOf versions k = some c ∧ commitOf versions k' = some c' ∧ c < c' ∧ c' ≤ floor ∧
    k'.take 3 = k.take 3

variable {versions : Versions α} {k : List ℕ} {floor : ℕ}

lemma Dead.imp {versions' : Versions α} (h : Dead versions k floor)
    (hkeep : ∀ k c, commitOf versions k = some c → commitOf versions' k = some c) :
    Dead versions' k floor := by
  obtain ⟨c, k', c', hc, hc', hlt⟩ := h
  exact ⟨c, k', c', hkeep k c hc, hkeep k' c' hc', hlt⟩

lemma Dead.mono {floor' : ℕ} (h : Dead versions k floor) (hle : floor ≤ floor') : Dead versions k floor' := by
  obtain ⟨c, k', c', hc, hc', hlt, hfloor, hrow⟩ := h
  exact ⟨c, k', c', hc, hc', hlt, hfloor.trans hle, hrow⟩

lemma mem_scanPrefix {start : List ℕ} {v : TsVersion α} :
    (k, v) ∈ scanPrefix versions start ↔ versions[k]? = some v ∧ start <+: k := by
  rw [scanPrefix, mem_filter, mem_toList, isPrefixOf_iff_prefix]

lemma dead_of_mem_deadVersions {key : RowKey} {cap : ℕ}
    (h : k ∈ deadVersions (scanPrefix versions key.words) floor cap) : Dead versions k floor := by
  have htake : ∀ k : List ℕ, key.words <+: k → k.take 3 = key.words.take 3 := by
    rintro _ ⟨rest, rfl⟩
    exact take_append_of_le_length (by simp [RowKey.words])
  unfold deadVersions at h
  split at h
  · cases h
  · next newestCovered hmax =>
    obtain ⟨⟨c, _⟩, hmem, rfl⟩ := mem_map.mp h
    have hmem := (perm_insertionSort ..).mem_iff.mp (mem_of_mem_take hmem)
    obtain ⟨⟨k, v⟩, hv, hbind⟩ := mem_filterMap.mp hmem
    obtain ⟨c', hc, hif⟩ := Option.bind_eq_some_iff.mp hbind
    split at hif
    · next hlt =>
      obtain ⟨rfl, rfl⟩ := Prod.mk.inj (Option.some.inj hif)
      obtain ⟨hcov, hle⟩ := mem_filter.mp (List.max?_mem hmax)
      obtain ⟨⟨k', v'⟩, hv', hc'⟩ := mem_filterMap.mp hcov
      obtain ⟨hget, hpre⟩ := mem_scanPrefix.mp hv
      obtain ⟨hget', hpre'⟩ := mem_scanPrefix.mp hv'
      exact ⟨c', k', newestCovered, by rw [commitOf, hget]; exact hc, by rw [commitOf, hget']; exact hc',
        hlt, by simpa using hle, (htake k' hpre').trans (htake k hpre).symm⟩
    · cases hif

/-! ## What pruning leaves -/

/-- The store is the store without pruning, less versions that are dead at the floor. -/
structure Pruned (versions unpruned : Versions α) (floor : ℕ) : Prop where
  kept : ∀ (k : List ℕ) v, versions[k]? = some v → unpruned[k]? = some v
  gone : ∀ k : List ℕ, versions[k]? = none → unpruned[k]? ≠ none → Dead unpruned k floor

section Reads
variable {versions unpruned : Versions α} {floor : ℕ}

lemma Pruned.scanPrefix_eq (h : Pruned versions unpruned floor) (start : List ℕ) :
    scanPrefix versions start = (scanPrefix unpruned start).filter fun e => decide (versions[e.1]? ≠ none) := by
  have hfilter : versions = unpruned.filter fun k _ => decide (versions[k]? ≠ none) := by
    refine ExtTreeMap.ext_getElem? fun {k} => ?_
    rw [getElem?_filter]
    cases hk : versions[k]? with
    | none => cases unpruned[k]? <;> simp
    | some v =>
      rw [h.kept k v hk]
      rfl
  rw [scanPrefix, scanPrefix, filter_filter]
  conv_lhs => rw [hfilter, ExtTreeMap.toList_filter, filter_filter]
  exact filter_congr fun e _ => Bool.and_comm ..

lemma Pruned.superseded (h : Pruned versions unpruned floor) {tableId rowid : ℕ}
    {e : List ℕ × TsVersion α} (he : e ∈ scanPrefix unpruned (RowKey.words ⟨tableId, none, rowid⟩))
    (hgone : versions[e.1]? = none) :
    ∃ c, e.2.state.commitTs? = some c ∧ ∃ y ∈ scanPrefix unpruned (RowKey.words ⟨tableId, none, rowid⟩),
      ∃ d, y.2.state.commitTs? = some d ∧ c < d ∧ d ≤ floor := by
  obtain ⟨hget, hpre⟩ := mem_scanPrefix.mp he
  obtain ⟨c, k', c', hc, hc', hlt, hle, hrow⟩ := h.gone e.1 hgone (by simp [hget])
  rw [commitOf, hget] at hc
  obtain ⟨v', hv', hc'⟩ := Option.bind_eq_some_iff.mp hc'
  refine ⟨c, hc, (k', v'), mem_scanPrefix.mpr ⟨hv', ?_⟩, c', hc', hlt, hle⟩
  have hstart : RowKey.words ⟨tableId, none, rowid⟩ = e.1.take 3 := prefix_iff_eq_take.mp hpre
  rw [hstart, ← hrow]
  exact take_prefix ..

variable {readTs : ℕ} {v : TsVersion α}

lemma fst_shownAt {c : ℕ × Option α} (h : v.shownAt readTs = some c) : v.state.commitTs? = some c.1 := by
  unfold TsVersion.shownAt at h
  split at h <;> simp_all [TsVersionState.commitTs?] <;> (obtain ⟨-, rfl⟩ := h; rfl)

lemma shownAt_isSome {c : ℕ} (h : v.state.commitTs? = some c) (hle : c ≤ readTs) :
    ∃ d, v.shownAt readTs = some d ∧ d.1 = c := by
  unfold TsVersion.shownAt
  cases hs : v.state <;> simp_all [TsVersionState.commitTs?]

lemma Pruned.readVisibleTsRow_eq (h : Pruned versions unpruned floor)
    (hr : floor ≤ readTs) (tableId rowid : ℕ) :
    readVisibleTsRow versions tableId rowid readTs = readVisibleTsRow unpruned tableId rowid readTs := by
  rw [readVisibleTsRow, readVisibleTsRow, h.scanPrefix_eq, newest_filter]
  intro x hx hp c hc
  obtain ⟨c', hc', y, hy, d, hd, hlt, hle⟩ := h.superseded hx (by simpa using hp)
  obtain ⟨d', hd', rfl⟩ := shownAt_isSome hd (hle.trans hr)
  cases hc'.symm.trans (fst_shownAt hc)
  exact ⟨y, hy, d', hd', hlt⟩

lemma Pruned.conflicts_eq (h : Pruned versions unpruned floor) (tableId rowid startTs : ℕ) :
    conflicts versions tableId rowid startTs = conflicts unpruned tableId rowid startTs := by
  rw [conflicts, conflicts, h.scanPrefix_eq, Bool.eq_iff_iff, any_eq_true, any_eq_true]
  constructor
  · rintro ⟨x, hx, hbeats⟩
    exact ⟨x, mem_of_mem_filter hx, hbeats⟩
  · rintro ⟨x, hx, hbeats⟩
    by_cases hkept : versions[x.1]? = none
    · obtain ⟨c, hc, -⟩ := h.superseded hx hkept
      let stamp (e : List ℕ × TsVersion α) : WithBot ℕ := e.2.state.commitTs?
      obtain ⟨y, hy⟩ := Option.ne_none_iff_exists'.mp
        (mt argmax_eq_none.mp (ne_nil_of_mem hx) : List.argmax stamp _ ≠ none)
      have hmem := argmax_mem hy
      have hxy : stamp x ≤ stamp y := le_of_mem_argmax hx hy
      rw [show stamp x = c from hc] at hxy
      obtain ⟨d, hd, hle⟩ : ∃ d, y.2.state.commitTs? = some d ∧ c ≤ d := WithBot.coe_le_iff.mp hxy
      refine ⟨y, mem_filter.mpr ⟨hmem, ?_⟩, ?_⟩
      · refine decide_eq_true fun hgone => ?_
        obtain ⟨c', hc', z, hz, d', hd', hlt, -⟩ := h.superseded hmem hgone
        have hmax : stamp z ≤ stamp y := le_of_mem_argmax hz hy
        simp only [stamp, hc', hd'] at hmax
        exact absurd (WithBot.coe_le_coe.mp hmax) (by omega)
      · unfold TsVersion.beats at hbeats ⊢
        cases hs : x.2.state <;> cases hs' : y.2.state <;> simp_all [TsVersionState.commitTs?] <;> omega
    · exact ⟨x, mem_filter.mpr ⟨hx, by simpa using hkept⟩, hbeats⟩

end Reads

/-! ## Steps -/

section Steps
variable {n : ℕ} {w : GcWorld α n}

/-- The keys of a batch are dead at its floor, which its engine has reached. -/
def GcWorld.Backs (w : GcWorld α n) (b : PruneBatch n) : Prop :=
  b.floor ≤ (w.engines b.engine).reclaimFloor ∧ ∀ k ∈ b.deletes, Dead w.unpruned k b.floor

/-- Pins are at or above every floor, what is pruned is dead at the durable floor, and waiting batches are backed by
it. -/
structure GcInv (w : GcWorld α n) : Prop where
  pins : ∀ e, ∀ r ∈ (w.engines e).pins, (w.engines e).reclaimFloor ≤ r ∧ w.durableFloor ≤ r
  pruned : Pruned w.versions w.unpruned w.durableFloor
  pending : ∀ slot b, w.batches slot = some b → w.Backs b

variable {e : Fin n} {g : GcHorizon}

lemma floors_setEngine (h : (w.engines e).reclaimFloor ≤ g.reclaimFloor) :
    ∀ e', (w.engines e').reclaimFloor ≤ ((w.setEngine e g).engines e').reclaimFloor :=
  (Function.forall_update_iff _ fun e' (g : GcHorizon) => (w.engines e').reclaimFloor ≤ g.reclaimFloor).mpr
    ⟨h, fun _ _ => le_rfl⟩

lemma GcInv.setEngine (h : GcInv w) (hfloor : (w.engines e).reclaimFloor ≤ g.reclaimFloor)
    (hpins : ∀ r ∈ g.pins, g.reclaimFloor ≤ r ∧ w.durableFloor ≤ r) : GcInv (w.setEngine e g) where
  pins := (Function.forall_update_iff _ fun _ (g : GcHorizon) =>
    ∀ r ∈ g.pins, g.reclaimFloor ≤ r ∧ w.durableFloor ≤ r).mpr ⟨hpins, fun e' _ => h.pins e'⟩
  pruned := h.pruned
  pending := fun slot b hb =>
    ⟨(h.pending slot b hb).1.trans (floors_setEngine hfloor b.engine), (h.pending slot b hb).2⟩

variable {slot : ℕ}

lemma GcInv.setBatch (h : GcInv w) {o : Option (PruneBatch n)} (ho : ∀ b, o = some b → w.Backs b) :
    GcInv (w.setBatch slot o) :=
  ⟨h.pins, h.pruned, (Function.forall_update_iff _ fun _ (o : Option (PruneBatch n)) =>
    ∀ b, o = some b → w.Backs b).mpr ⟨ho, fun slot' _ => h.pending slot'⟩⟩

/-- The lock of an engine orders its pins and its raises: a raise is bounded by the pins. -/
lemma raiseReclaimFloor_le {r : ℕ} (hr : r ∈ g.pins) (hle : g.reclaimFloor ≤ r) (closedTs : ℕ) :
    (g.raiseReclaimFloor closedTs).reclaimFloor ≤ r := by
  refine max_le hle ?_
  cases hmin : g.pins.min? with
  | none => simp [List.min?_eq_none_iff.mp hmin] at hr
  | some least => exact (min_le_right ..).trans ((List.min?_eq_some_iff.mp hmin).2 r hr)

lemma GcInv.raise (h : GcInv w) (closedTs : ℕ) : GcInv (w.next (.raise slot e closedTs)) := by
  have hraised : GcInv (w.setEngine e ((w.engines e).raiseReclaimFloor closedTs)) :=
    h.setEngine (le_max_left ..) fun r hr =>
      ⟨raiseReclaimFloor_le (g := w.engines e) hr (h.pins e r hr).1 closedTs, (h.pins e r hr).2⟩
  refine hraised.setBatch ?_
  rintro _ ⟨⟩
  exact ⟨by simp [GcWorld.setEngine], nofun⟩

variable {versions : Versions α} {k : List ℕ}

lemma commitOf_insert {v : TsVersion α}
    (hkeep : (commitOf versions k).all (fun c => v.state.commitTs? = some c)) {k' : List ℕ}
    {c : ℕ} (hc : commitOf versions k' = some c) : commitOf (versions.insert k v) k' = some c := by
  rw [commitOf, getElem?_insert]
  split
  · next heq =>
      rw [← heq, hc] at hkeep
      simpa using hkeep
  · exact hc

variable {puts : List (RowKey × TsVersion α)}

lemma Dead.putAll {floor : ℕ} (hkeep : keepsCommits versions puts) (h : Dead versions k floor) :
    Dead (Pgexec.putAll versions puts) k floor := by
  induction puts generalizing versions with
  | nil => exact h
  | cons p puts ih =>
    obtain ⟨hp, hrest⟩ := Bool.and_eq_true_iff.mp hkeep
    exact ih hrest (h.imp fun _ _ hc => commitOf_insert hp hc)

lemma Pruned.putAll {unpruned : Versions α} {floor : ℕ}
    (h : Pruned versions unpruned floor) (hkeep : keepsCommits unpruned puts) :
    Pruned (Pgexec.putAll versions puts) (Pgexec.putAll unpruned puts) floor := by
  induction puts generalizing versions unpruned with
  | nil => exact h
  | cons p puts ih =>
    obtain ⟨hp, hrest⟩ := Bool.and_eq_true_iff.mp hkeep
    refine ih ⟨fun k v hk => ?_, fun k hk hk' => ?_⟩ hrest
    · rw [getElem?_insert] at hk ⊢
      split <;> simp_all [h.kept k v]
    · rw [getElem?_insert] at hk hk'
      split at hk
      · cases hk
      · next hne =>
          rw [if_neg hne] at hk'
          exact (h.gone k hk hk').imp fun _ _ hc => commitOf_insert hp hc

lemma Pruned.erase {unpruned : Versions α} {floor floor' : ℕ} (h : Pruned versions unpruned floor)
    (hle : floor ≤ floor') {deletes : List (List ℕ)} (hdead : ∀ k ∈ deletes, Dead unpruned k floor') :
    Pruned (deletes.foldl ExtTreeMap.erase versions) unpruned floor' := by
  refine ⟨fun k v hk => ?_, fun k hk hk' => ?_⟩ <;> rw [getElem?_foldl_erase] at hk <;> split at hk
  · cases hk
  · exact h.kept k v hk
  · exact hdead k ‹_›
  · exact (h.gone k hk hk').mono hle

/-- A guarded commit publishes its floor and deletes dead versions only. -/
lemma GcInv.commit (h : GcInv w) (hok : Guarded w (.commit slot puts)) : GcInv (w.next (.commit slot puts)) := by
  obtain ⟨hkeep, hguard⟩ := Bool.and_eq_true_iff.mp hok
  have hputs : GcInv { w with
      versions := putAll w.versions puts
      unpruned := putAll w.unpruned puts } :=
    ⟨h.pins, h.pruned.putAll hkeep, fun slot b hb =>
      ⟨(h.pending slot b hb).1, fun k hk => ((h.pending slot b hb).2 k hk).putAll hkeep⟩⟩
  dsimp only [GcWorld.next]
  split
  · next b hb =>
    rw [show w.batches slot = some b from hb] at hguard
    obtain ⟨hfloor, hdead⟩ := hputs.pending slot b hb
    have hnone : GcInv (GcWorld.setBatch _ slot none) := hputs.setBatch nofun
    by_cases hempty : b.deletes = []
    · rw [hempty, if_pos rfl]
      exact hnone
    · simp only [hempty, if_false]
      simp only [Option.all_some, Bool.or_eq_true, List.isEmpty_iff, hempty, false_or, Bool.and_eq_true,
        decide_eq_true_eq] at hguard
      -- Only the engine of the batch has pins, and its own floor is between the batch's and them.
      refine ⟨fun e r hr => ⟨(hnone.pins e r hr).1, ?_⟩, hnone.pruned.erase hguard.1 hdead, hnone.pending⟩
      by_cases he : e = b.engine
      · exact hfloor.trans (he ▸ (h.pins e r hr).1)
      · have hr : r ∈ (w.engines e).pins := hr
        rw [hguard.2 e he] at hr
        cases hr
  · exact hputs

variable {l : GcEvent α n}

/-- Every guarded step keeps the invariant. -/
lemma GcInv.step (h : GcInv w) (hok : Guarded w l) : GcInv (w.next l) := by
  cases l with
  | observe e => exact h.setEngine (le_max_left ..) fun r hr =>
      ⟨max_le (h.pins e r hr).1 (h.pins e r hr).2, (h.pins e r hr).2⟩
  | pin e readTs =>
    have hok := of_decide_eq_true hok
    dsimp only [GcWorld.next, GcHorizon.pinAbove]
    split
    · next g hg =>
      split at hg
      · cases hg
      · next hlt =>
        cases hg
        exact h.setEngine le_rfl (forall_mem_cons.mpr ⟨⟨not_lt.mp hlt, hok.trans (not_lt.mp hlt)⟩, h.pins e⟩)
    · exact h
  | unpin e readTs => exact h.setEngine le_rfl fun r hr => h.pins e r (mem_of_mem_erase hr)
  | raise slot e closedTs => exact h.raise closedTs
  | scan slot key cap =>
    dsimp only [GcWorld.next]
    split
    · next b hb =>
      obtain ⟨hfloor, hdead⟩ := h.pending slot b hb
      refine h.setBatch fun b' hb' => ?_
      cases hb'
      refine ⟨hfloor, fun k hk => ?_⟩
      rcases mem_append.mp hk with hk | hk
      · exact hdead k hk
      · refine (dead_of_mem_deadVersions hk).imp fun k c hc => ?_
        obtain ⟨v, hv, hc⟩ := Option.bind_eq_some_iff.mp hc
        rwa [commitOf, h.pruned.kept k v hv]
    · exact h
  | commit slot puts => exact h.commit hok

/-- No guarded step lowers a floor. -/
lemma floors_step (hok : Guarded w l) :
    w.durableFloor ≤ (w.next l).durableFloor ∧
      ∀ e, (w.engines e).reclaimFloor ≤ ((w.next l).engines e).reclaimFloor := by
  cases l with
  | observe e => exact ⟨le_rfl, floors_setEngine (le_max_left ..)⟩
  | pin e readTs =>
    dsimp only [GcWorld.next, GcHorizon.pinAbove]
    split
    · next g hg =>
      split at hg
      · cases hg
      · cases hg
        exact ⟨le_rfl, floors_setEngine le_rfl⟩
    · exact ⟨le_rfl, fun _ => le_rfl⟩
  | unpin e readTs => exact ⟨le_rfl, floors_setEngine le_rfl⟩
  | raise slot e closedTs => exact ⟨le_rfl, floors_setEngine (le_max_left ..)⟩
  | scan slot key cap =>
    dsimp only [GcWorld.next]
    split <;> exact ⟨le_rfl, fun _ => le_rfl⟩
  | commit slot puts =>
    have hfloor := (Bool.and_eq_true_iff.mp hok).2
    dsimp only [GcWorld.next]
    split
    · next b hb =>
      rw [show w.batches slot = some b from hb] at hfloor
      refine ⟨?_, fun _ => le_rfl⟩
      dsimp only
      split
      · exact le_rfl
      · next hne => exact (by simpa [hne] using hfloor : w.durableFloor ≤ b.floor ∧ _).1
    · exact ⟨le_rfl, fun _ => le_rfl⟩

end Steps

/-- In runs of guarded steps pruning is not seen: not by a read at a pinned timestamp, not by a
first-committer-wins check, and the floors never decrease. -/
theorem ts_gc_invisible {n : ℕ} {w : GcWorld α n} (hrun : (gcSys α n).Run (fun w l => Guarded w l = true) {} w) :
    (∀ e, ∀ r ∈ (w.engines e).pins, ∀ tableId rowid,
      readVisibleTsRow w.versions tableId rowid r = readVisibleTsRow w.unpruned tableId rowid r) ∧
    (∀ startTs, w.durableFloor ≤ startTs → ∀ tableId rowid,
      conflicts w.versions tableId rowid startTs = conflicts w.unpruned tableId rowid startTs) ∧
    ∀ w', (gcSys α n).Run (fun w l => Guarded w l = true) w w' → w.durableFloor ≤ w'.durableFloor ∧
      ∀ e, (w.engines e).reclaimFloor ≤ (w'.engines e).reclaimFloor := by
  have hstart : GcInv ({} : GcWorld α n) :=
    ⟨nofun, ⟨fun k v hk => by simp at hk, fun k _ hk => by simp at hk⟩, nofun⟩
  have hinv : GcInv w := hrun.preserves (P := GcInv) (fun _ _ h _ hok => h.step hok) hstart
  refine ⟨fun e r hr => hinv.pruned.readVisibleTsRow_eq (hinv.pins e r hr).2,
    fun startTs _ tableId rowid => hinv.pruned.conflicts_eq tableId rowid startTs, fun w' hrun' => ?_⟩
  exact (hrun'.relates (P := fun _ => True) (R := fun w w' => w.durableFloor ≤ w'.durableFloor ∧
      ∀ e, (w.engines e).reclaimFloor ≤ (w'.engines e).reclaimFloor) trivial
    (fun _ => ⟨le_rfl, fun _ => le_rfl⟩)
    (fun h h' => ⟨h.1.trans h'.1, fun e => (h.2 e).trans (h'.2 e)⟩)
    fun _ _ _ _ hok => ⟨trivial, floors_step hok⟩).2

def fourVersions : List (RowKey × TsVersion ℕ) :=
  [(⟨1, none, 7⟩, ⟨1, .committed 2, 10⟩), (⟨1, none, 7⟩, ⟨3, .committed 7, 11⟩),
    (⟨1, none, 8⟩, ⟨1, .committed 2, 20⟩), (⟨1, none, 8⟩, ⟨3, .committed 4, 21⟩)]

/-- One engine prunes the second row and reads above its floor. -/
def prunedOnce : List (GcEvent ℕ 1) :=
  [.commit 0 fourVersions, .raise 0 0 5, .scan 0 ⟨1, none, 8⟩ 64, .commit 0 [], .observe 0, .pin 0 6]

/-- One engine prunes a version that no pin reads. -/
theorem ts_gc_invisible_prunedOnce :
    ((gcSys ℕ 1).execs {} prunedOnce).versions[versionKey ⟨1, none, 8⟩ 1]? = none ∧
      ∀ tableId rowid, readVisibleTsRow ((gcSys ℕ 1).execs {} prunedOnce).versions tableId rowid 6 =
        readVisibleTsRow ((gcSys ℕ 1).execs {} prunedOnce).unpruned tableId rowid 6 := by
  have hrun : (gcSys ℕ 1).Run (fun w l => Guarded w l) {} ((gcSys ℕ 1).execs {} prunedOnce) :=
    Sys.run_of_runsOk
  exact ⟨by decide +kernel, (ts_gc_invisible hrun).1 0 6 (by decide +kernel)⟩

/-- Two batches of one engine are committed in the other order; then a second engine reads. -/
def committedBackwards : List (GcEvent ℕ 2) :=
  [.commit 0 fourVersions, .raise 0 0 5, .scan 0 ⟨1, none, 8⟩ 64, .raise 1 0 9, .scan 1 ⟨1, none, 7⟩ 64,
    .commit 1 []]

/-- The second batch is committed, and the second engine pins. -/
def thenPinned : List (GcEvent ℕ 2) := committedBackwards ++ [.commit 0 [], .observe 1, .pin 1 6]

/-- Two batches are committed in the other order, and a pin between their floors misses its version. -/
theorem durable_floor_decreases :
    (gcSys ℕ 2).AnyRun {} ((gcSys ℕ 2).execs {} thenPinned) ∧
      ((gcSys ℕ 2).execs {} committedBackwards).durableFloor = 9 ∧
      ((gcSys ℕ 2).execs {} thenPinned).durableFloor = 5 ∧
      (((gcSys ℕ 2).execs {} thenPinned).engines 1).pins = [6] ∧
      readVisibleTsRow ((gcSys ℕ 2).execs {} thenPinned).unpruned 1 7 6 = some 10 ∧
      readVisibleTsRow ((gcSys ℕ 2).execs {} thenPinned).versions 1 7 6 = none :=
  ⟨Sys.run_of_runs, by decide +kernel, by decide +kernel, by decide +kernel, by decide +kernel, by decide +kernel⟩

end Crabka.Pgexec
