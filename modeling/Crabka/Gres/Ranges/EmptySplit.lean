import Mathlib

/-!
# The split of an empty table

`crates/gres-ranges/src/tenant.rs` and `split.rs`: a range is replaced by two successors, served by engines that are
opened for them; only the coordinator keeps its engine. The validation looks at one table, so the rows of the others in
the interval of the replaced range are not found afterwards (`split_keeps_rows_iff`).
-/

namespace Crabka.Gres.Ranges
open List Option

/-- `RangeKey`: table, bucket and rowid, compared in this order. -/
abbrev RangeKey := ℕ ×ₗ ℕ ×ₗ ℕ

def rangeKey (tableId bucket rowid : ℕ) : RangeKey := toLex (tableId, toLex (bucket, rowid))

structure RangeSpec where
  rangeId : ℕ
  start : RangeKey
  stop : Option RangeKey
  deriving DecidableEq

def RangeSpec.containsKey (r : RangeSpec) (k : RangeKey) : Bool := ¬k < r.start ∧ ∀ stop ∈ r.stop, k < stop

/-- The ranges in the order of their start keys. -/
structure RangeMap where
  epoch : ℕ
  ranges : List RangeSpec
  deriving DecidableEq

def RangeMap.route (m : RangeMap) (k : RangeKey) : Option ℕ :=
  (m.ranges.find? (·.containsKey k)).map RangeSpec.rangeId

/-- The loop of `validate_ranges`. -/
def covers : RangeKey → List RangeSpec → Bool
  | _, [] => false
  | expected, r :: rest => r.start = expected && match r.stop with
    | none => rest.isEmpty
    | some stop => r.start < stop && covers stop rest

/-- `validate_ranges`; range 0 is the coordinator. -/
def validRanges (ranges : List RangeSpec) : Bool :=
  (∃ r ∈ ranges, r.rangeId = 0) ∧ (ranges.map RangeSpec.rangeId).Nodup ∧ covers (rangeKey 0 0 0) ranges

/-- `SuccessorDescriptor`. -/
structure Successor where
  rangeId : ℕ
  endpoint : String
  interval : RangeSpec
  walGeneration : ℕ
  deriving DecidableEq

def Successor.valid (s : Successor) (predecessorGeneration : ℕ) : Bool :=
  s.endpoint ≠ "" ∧ s.interval.rangeId = s.rangeId ∧ predecessorGeneration < s.walGeneration

/-- What a split replaces, and by what. -/
structure SplitCommand where
  currentMap : RangeMap
  predecessor : ℕ
  predecessorGeneration : ℕ
  left : Successor
  right : Successor
  deriving DecidableEq

/-- `ensure_two_successors_partition`. -/
def SplitCommand.partitions (c : SplitCommand) (before : RangeSpec) : Bool :=
  c.left.rangeId ≠ c.right.rangeId ∧ (c.left.rangeId = c.predecessor ↔ c.predecessor = 0) ∧
    c.right.rangeId ≠ c.predecessor ∧ c.left.interval.start = before.start ∧
    c.left.interval.stop = some c.right.interval.start ∧ c.right.interval.stop = before.stop

/-- `map_with_replaced_ranges`, before its validation. -/
def SplitCommand.targetMap (c : SplitCommand) : RangeMap where
  epoch := c.currentMap.epoch + 1
  ranges := c.currentMap.ranges.flatMap fun r =>
    if r.rangeId = c.predecessor then [c.left.interval, c.right.interval] else [r]

/-- `for_split` accepts the command. -/
def SplitCommand.accepted (c : SplitCommand) : Bool :=
  (c.currentMap.ranges.find? (·.rangeId = c.predecessor)).any c.partitions &&
    c.left.valid c.predecessorGeneration && c.right.valid c.predecessorGeneration &&
    validRanges c.targetMap.ranges

/-- The rows and the rowid sequences of a range, by the ids of the tables. -/
structure Engine (α : Type) where
  rows : List ((ℕ × ℕ × ℕ) × α) := []
  sequences : ℕ → Option ℕ := fun _ => none

def Engine.rowsAt {α : Type} (e : Engine α) (tableId bucket rowid : ℕ) : List α :=
  (e.rows.filter (·.1 = (tableId, bucket, rowid))).map Prod.snd

/-- A table of the catalog; its name decides the id that it is routed by. -/
structure Table where
  id : ℕ
  routingId : ℕ
  isForeign : Bool := false
  indexed : Bool := false

/-- The map that is served, with the engines of its ranges. -/
structure ServingSnapshot (α : Type) where
  rangeMap : RangeMap
  engines : ℕ → Option (Engine α)

/-- `SplitState`, as far as the calls differ by it. -/
structure SplitState where
  command : SplitCommand
  published : Bool

/-- A tenant with its catalog, its snapshot and the stored state of its split. -/
structure Tenant (α : Type) where
  serving : ServingSnapshot α
  tables : List Table
  remoteForward : Bool := false
  explicitTransactions : ℕ := 0
  splitStates : String → Option SplitState := fun _ => none

variable {α : Type}

def ServingSnapshot.found (s : ServingSnapshot α) (table : Table) (bucket rowid : ℕ) : List α :=
  ((s.rangeMap.route (rangeKey table.routingId bucket rowid)).bind s.engines).elim []
    (·.rowsAt table.id bucket rowid)

namespace Tenant
variable (t : Tenant α) (opened : ℕ → Engine α) (opens : Bool) (operationId : String) (c : SplitCommand)

/-- `validate_empty_table_split`. -/
def validates : Bool :=
  let tableId := (ofLex c.right.interval.start).1
  !t.remoteForward && t.explicitTransactions = 0 && (t.serving.engines c.right.rangeId).isNone &&
    (t.serving.engines 0).isSome &&
    ((t.serving.rangeMap.route (rangeKey tableId 0 0)).bind t.serving.engines).any fun engine =>
      (t.tables.find? (·.routingId = tableId)).any fun table =>
        !table.isForeign && !table.indexed && engine.rows.all (·.1.1 ≠ table.id) &&
          engine.sequences table.id = some 1

/-- The snapshot that `successor_fence_prologue` stores, with the engines that are opened for ranges. -/
def publish : ServingSnapshot α where
  rangeMap := c.targetMap
  engines := [c.left.rangeId, c.right.rangeId].foldl
    (fun engines r => if r = 0 then engines else Function.update engines r (some (opened r)))
    (if c.predecessor = 0 then t.serving.engines else Function.update t.serving.engines c.predecessor none)

/-- `run_split`. The engines may fail to open, and the operation is then tried again. -/
def runSplit (published : Bool) : Tenant α :=
  let save (t : Tenant α) (published : Bool) : Tenant α :=
    { t with splitStates := Function.update t.splitStates operationId (some ⟨c, published⟩) }
  if ¬c.accepted ∨ operationId = "" then t
  else if published ∨ t.serving.rangeMap = c.targetMap then save t true
  else if opens then save { t with serving := t.publish opened c } true
  else save t false

def splitEmptySuccessors : Tenant α :=
  match t.splitStates operationId with
  | some state =>
    if state.command ≠ c then t
    else if t.serving.rangeMap = c.targetMap ∨ t.validates c then
      t.runSplit opened opens operationId c state.published
    else t
  | none => if t.validates c then t.runSplit opened opens operationId c false else t

def publishes : Bool :=
  t.validates c && c.accepted && operationId ≠ "" && t.serving.rangeMap ≠ c.targetMap && opens &&
    (t.splitStates operationId).all fun state => state.command = c && !state.published

/-- What is left under a row key: the engine of the range that the key has in the map of the command, where
that engine stays. -/
def left (table : Table) (bucket rowid : ℕ) : List α :=
  let key := rangeKey table.routingId bucket rowid
  (c.currentMap.route key).elim [] fun r =>
    if r = c.predecessor ∧ c.right.interval.start ≤ key then
      (opened c.right.rangeId).rowsAt table.id bucket rowid
    else if r = c.predecessor ∧ r ≠ 0 then (opened c.left.rangeId).rowsAt table.id bucket rowid
    else (t.serving.engines r).elim [] (·.rowsAt table.id bucket rowid)

def KeepsRows (t' : Tenant α) : Prop :=
  ∀ table ∈ t.tables, ∀ bucket rowid, t'.serving.found table bucket rowid = t.serving.found table bucket rowid

/-! ## Routing in the new map -/

variable {t opened opens operationId c}

lemma serving_split : (t.splitEmptySuccessors opened opens operationId c).serving =
    if t.publishes opens operationId c then t.publish opened c else t.serving := by
  unfold splitEmptySuccessors publishes runSplit
  cases hstate : t.splitStates operationId with
  | none =>
    by_cases hv : t.validates c = true <;> by_cases ha : c.accepted = true <;>
      by_cases ho : operationId = "" <;> by_cases hm : t.serving.rangeMap = c.targetMap <;>
      cases opens <;> simp [hv, ha, ho, hm]
  | some state =>
    by_cases hc : state.command = c <;> by_cases hv : t.validates c = true <;>
      by_cases ha : c.accepted = true <;> by_cases ho : operationId = "" <;>
      by_cases hm : t.serving.rangeMap = c.targetMap <;> cases opens <;> cases hp : state.published <;>
      simp [hc, hv, ha, ho, hm, hp]

lemma start_lt_stop {expected : RangeKey} {l : List RangeSpec} (h : covers expected l) :
    ∀ r ∈ l, ∀ stop ∈ r.stop, r.start < stop := by
  induction l generalizing expected with
  | nil => nofun
  | cons r l ih =>
    intro r' hr' stop hstop
    obtain ⟨-, h⟩ := Bool.and_eq_true_iff.mp h
    split at h
    · rename_i hnone
      obtain rfl := isEmpty_iff.mp h
      obtain rfl := mem_singleton.mp hr'
      exact absurd hstop (by simp [hnone])
    · rename_i e he
      obtain ⟨hlt, h⟩ := Bool.and_eq_true_iff.mp h
      obtain rfl | hr' := mem_cons.mp hr'
      · cases he.symm.trans hstop
        exact of_decide_eq_true hlt
      · exact ih h r' hr' stop hstop

lemma find?_replaced {l : List RangeSpec} {L R : RangeSpec} {id : ℕ} {q : RangeSpec → Bool}
    (h : ∀ r ∈ l, r.rangeId = id → q r = (q L || q R)) :
    (l.flatMap fun r => if r.rangeId = id then [L, R] else [r]).find? q =
      (l.find? q).map fun r => if r.rangeId = id then (if q L then L else R) else r := by
  induction l with
  | nil => rfl
  | cons r l ih =>
    rw [flatMap_cons, List.find?_append, ih fun r' hr' => h r' (mem_cons_of_mem _ hr'), List.find?_cons]
    by_cases hr : r.rangeId = id
    · rw [if_pos hr, h r mem_cons_self hr]
      cases hL : q L <;> cases hR : q R <;> simp [hL, hR, hr]
    · cases hq : q r <;> simp [hr, hq]

section Accepted
variable (hacc : c.accepted = true) (hmap : validRanges c.currentMap.ranges = true)
include hacc hmap

lemma accepted_spec :
    (∀ r ∈ c.currentMap.ranges, r.rangeId ≠ c.predecessor →
      r.rangeId ≠ c.left.rangeId ∧ r.rangeId ≠ c.right.rangeId) ∧
    (∃ r ∈ c.currentMap.ranges, r.rangeId = 0) ∧ c.left.interval.rangeId = c.left.rangeId ∧
    c.right.interval.rangeId = c.right.rangeId ∧ c.left.rangeId ≠ c.right.rangeId ∧
    (c.left.rangeId = c.predecessor ↔ c.predecessor = 0) ∧ c.right.rangeId ≠ c.predecessor ∧
    ∀ k, ∀ r ∈ c.currentMap.ranges, r.rangeId = c.predecessor →
      (c.left.interval.containsKey k = (r.containsKey k && k < c.right.interval.start)) ∧
      (c.right.interval.containsKey k = (r.containsKey k && c.right.interval.start ≤ k)) := by
  simp only [SplitCommand.accepted, validRanges, Bool.and_eq_true, decide_eq_true_eq, Option.any_eq_true,
    Successor.valid, SplitCommand.partitions] at hacc hmap
  obtain ⟨⟨⟨⟨before, hfind, hne, hiff, hright, hstart, hmid, hstop⟩, -, hleftId, -⟩, -, hrightId, -⟩, -, hnodup,
    hcovers⟩ := hacc
  obtain ⟨hzero, hids, -⟩ := hmap
  have hbefore := mem_of_find?_eq_some hfind
  have hpred : before.rangeId = c.predecessor := by simpa using List.find?_some hfind
  have htarget : ∀ s ∈ [c.left.interval, c.right.interval], s ∈ c.targetMap.ranges := fun s hs =>
    mem_flatMap.mpr ⟨before, hbefore, by rwa [if_pos hpred]⟩
  have hlt := start_lt_stop hcovers
  have h₁ := hlt _ (htarget _ mem_cons_self) _ hmid
  have h₂ := hlt c.right.interval (htarget _ (by simp))
  refine ⟨fun r hr hrp => ?_, hzero, hleftId, hrightId, hne, hiff, hright, fun k r hr hrp => ?_⟩
  · rw [SplitCommand.targetMap, map_flatMap, nodup_flatMap] at hnodup
    have hdis := @List.Pairwise.forall _ _ _ ⟨fun _ _ => disjoint_symm⟩ hnodup.2 _ hr _ hbefore
      (ne_of_apply_ne RangeSpec.rangeId (hpred ▸ hrp))
    simp only [hrp, hpred, if_true, if_false, map_cons, map_nil, disjoint_cons_right, mem_singleton] at hdis
    exact ⟨fun heq => hdis.1 (hleftId.trans heq.symm), fun heq => hdis.2.1 (hrightId.trans heq.symm)⟩
  · obtain rfl := inj_on_of_nodup_map hids hr hbefore (hrp.trans hpred.symm)
    rw [hstart] at h₁
    rw [hstop] at h₂
    refine ⟨Bool.eq_iff_iff.mpr ?_, Bool.eq_iff_iff.mpr ?_⟩ <;>
      simp only [RangeSpec.containsKey, hstart, hmid, hstop, Bool.and_eq_true, decide_eq_true_eq,
        Option.mem_some_iff, forall_eq', not_lt]
    · exact ⟨fun h => ⟨⟨h.1, fun stop hs => h.2.trans (h₂ stop hs)⟩, h.2⟩, fun h => ⟨h.1.1, h.2⟩⟩
    · exact ⟨fun h => ⟨⟨h₁.le.trans h.1, h.2⟩, h.1⟩, fun h => ⟨h.2, h.1.2⟩⟩

lemma found_publish (table : Table) (bucket rowid : ℕ) :
    (t.publish opened c).found table bucket rowid = t.left opened c table bucket rowid := by
  obtain ⟨hids, ⟨r₀, hr₀, hzero⟩, hleftId, hrightId, hne, hiff, hright, hkeys⟩ := accepted_spec hacc hmap
  unfold ServingSnapshot.found Tenant.left RangeMap.route publish
  dsimp only [SplitCommand.targetMap]
  generalize rangeKey table.routingId bucket rowid = k
  have hkey := hkeys k
  -- The coordinator's range is not one of the successors, unless it is the one that is split.
  have hpos : c.predecessor ≠ 0 → c.left.rangeId ≠ 0 ∧ c.right.rangeId ≠ 0 := fun hp =>
    have h := hids r₀ hr₀ (hzero ▸ Ne.symm hp)
    ⟨fun heq => h.1 (hzero.trans heq.symm), fun heq => h.2 (hzero.trans heq.symm)⟩
  rw [find?_replaced fun r hr hrp => by rw [(hkey r hr hrp).1, (hkey r hr hrp).2]; cases r.containsKey k <;>
    simp [lt_or_ge]]
  cases hfind : c.currentMap.ranges.find? (·.containsKey k) with
  | none => rfl
  | some r =>
    have hr := mem_of_find?_eq_some hfind
    have hin : r.containsKey k := by simpa using List.find?_some hfind
    by_cases hrp : r.rangeId = c.predecessor
    · rw [map_some, map_some, map_some, if_pos hrp, (hkey r hr hrp).1, hin]
      by_cases hp : c.predecessor = 0
      · have hl := hiff.mpr hp
        have hr := hp ▸ hright
        rcases lt_or_ge k c.right.interval.start with hk | hk
        · simp [hk, hk.not_ge, hleftId, hl, hp, hr, hrp, hr.symm]
        · simp [hk, hk.not_gt, hrightId, hl, hp, hr, hrp]
      · obtain ⟨hl, hr⟩ := hpos hp
        rcases lt_or_ge k c.right.interval.start with hk | hk
        · simp [hk, hk.not_ge, hleftId, hl, hp, hr, hrp, hne]
        · simp [hk, hk.not_gt, hrightId, hl, hp, hr, hrp]
    · obtain ⟨h₁, h₂⟩ := hids r hr hrp
      simp only [map_some, bind_some, elim_some, hrp, false_and, if_false]
      by_cases hp : c.predecessor = 0 <;> by_cases hl : c.left.rangeId = 0 <;>
        by_cases hr : c.right.rangeId = 0 <;> simp [hp, hl, hr, h₁, h₂, hrp]

end Accepted

lemma left_eq_found_iff {table : Table} {bucket rowid : ℕ} (hserved : c.currentMap = t.serving.rangeMap)
    (hfresh : ∀ r, (opened r).rows = []) :
    t.left opened c table bucket rowid = t.serving.found table bucket rowid ↔
      (t.serving.rangeMap.route (rangeKey table.routingId bucket rowid) = some c.predecessor →
        (c.predecessor = 0 → c.right.interval.start ≤ rangeKey table.routingId bucket rowid) →
        t.serving.found table bucket rowid = []) := by
  have hempty : ∀ r, (opened r).rowsAt table.id bucket rowid = [] := fun r => by simp [Engine.rowsAt, hfresh]
  unfold Tenant.left ServingSnapshot.found
  dsimp only
  rw [hserved]
  generalize rangeKey table.routingId bucket rowid = key
  cases t.serving.rangeMap.route key with
  | none => simp
  | some r =>
    rw [bind_some, elim_some]
    by_cases hr : r = c.predecessor
    · subst hr
      by_cases hk : c.right.interval.start ≤ key
      · rw [if_pos ⟨rfl, hk⟩, hempty]
        simp only [hk, implies_true, forall_const]
        exact eq_comm
      · rw [if_neg fun h => hk h.2]
        by_cases hp : c.predecessor = 0
        · simp [hp, hk]
        · rw [if_pos ⟨rfl, hp⟩, hempty]
          simp only [hp, false_implies, forall_const]
          exact eq_comm
    · simp [hr]

/-- Range 1 begins at the table `start` and is split at the next one, which is empty; table 1 has a row. -/
def twoTables (start : ℕ) : Tenant String where
  serving :=
    { rangeMap := ⟨1, [⟨0, rangeKey 0 0 0, some (rangeKey start 0 0)⟩, ⟨1, rangeKey start 0 0, none⟩]⟩
      engines := fun r => if 1 < r then none else some
        { rows := if r = 1 ↔ start = 1 then [((11, 0, 5), "row")] else [], sequences := fun _ => some 1 } }
  tables := [⟨11, 1, false, false⟩, ⟨12, start + 1, false, false⟩]

def splitAfter (start : ℕ) : SplitCommand where
  currentMap := (twoTables start).serving.rangeMap
  predecessor := 1
  predecessorGeneration := 0
  left := ⟨2, "a", ⟨2, rangeKey start 0 0, some (rangeKey (start + 1) 0 0)⟩, 1⟩
  right := ⟨3, "b", ⟨3, rangeKey (start + 1) 0 0, none⟩, 1⟩

end Tenant
end Crabka.Gres.Ranges
