import Crabka.Found.Maps
import Crabka.Log.TxnIndex

/-!
# The swap at the end of a compaction

`atomic_swap` of `crates/log/src/compact.rs` and `swap_orphan_recover` of `recovery.rs`. The swap removes the consumed
segments file by file and renames the rewritten ones; recovery looks at the first base only, drops the rewritten files
while its `.log` is there and promotes them when it is gone. That leaves two windows open: between the removals of the
first and the last `.log`, and between the renames of the `.log` and the `.txnindex`.
-/

namespace Crabka.Log
open List hiding getElem?_insert
open Found
open Std (ExtTreeMap)
open Option

/-! ## Directories -/

inductive Ext where
  | log
  | index
  | timeindex
  | txnindex
  deriving DecidableEq, Repr

/-- The files of one base offset. The sparse indexes are derived from the log, so only whether they
exist is kept. -/
structure Files (β : Type) where
  log : Option (List β) := none
  index : Option Unit := none
  timeindex : Option Unit := none
  txnindex : Option TxnIndex := none
  deriving DecidableEq

namespace Files
variable {β : Type} (f : Files β)

def remove : Ext → Files β
  | .log => { f with log := none }
  | .index => { f with index := none }
  | .timeindex => { f with timeindex := none }
  | .txnindex => { f with txnindex := none }

def take (g : Files β) : Ext → Files β
  | .log => { f with log := g.log }
  | .index => { f with index := g.index }
  | .timeindex => { f with timeindex := g.timeindex }
  | .txnindex => { f with txnindex := g.txnindex }

end Files

/-- The files of a base offset, under their final names and with the suffix `.swap`. -/
structure BaseFiles (β : Type) where
  final : Files β := {}
  swap : Files β := {}
  deriving DecidableEq

/-- What a segment holds: its batches and its aborted transactions. -/
structure SegmentData (β : Type) where
  batches : List β
  aborted : TxnIndex
  deriving DecidableEq

namespace BaseFiles
variable {β : Type} (f : BaseFiles β)

/-- The segment that `Log::open` finds; a missing `.txnindex` is an empty one. -/
def segment : Option (SegmentData β) :=
  f.final.log.map fun batches => ⟨batches, f.final.txnindex.getD []⟩

/-- One round of the loop of `swap_orphan_recover`. -/
def recover : BaseFiles β :=
  match f.swap.log with
  | none => f
  | some batches =>
    if f.final.log.isSome then { f with swap := {} }
    else
      -- The sidecars may be missing; an index is created, a `.txnindex` is not.
      { final :=
          { log := some batches
            index := some ()
            timeindex := some ()
            txnindex := f.swap.txnindex }
        swap := {} }

end BaseFiles

/-- A log directory: the files by base offset. -/
abbrev Directory (β : Type) := ExtTreeMap ℤ (BaseFiles β)

/-- One file operation of `atomic_swap`. `rename` drops the suffix `.swap`. -/
inductive FileOp where
  | fsync
  | remove (base : ℤ) (ext : Ext)
  | rename (base : ℤ) (ext : Ext)
  deriving DecidableEq, Repr

namespace Directory
variable {β : Type} (dir : Directory β)

def files (base : ℤ) : BaseFiles β := dir[base]?.getD {}

def swapOrphanRecover : Directory β := dir.map fun _ f => f.recover

/-- The segments of the log that `Log::open` yields. -/
def segments : ExtTreeMap ℤ (SegmentData β) :=
  (swapOrphanRecover dir).filterMap fun _ f => f.segment

def exec : FileOp → Directory β
  | .fsync => dir
  | .remove base ext =>
    dir.insert base { files dir base with final := (files dir base).final.remove ext }
  | .rename base ext =>
    dir.insert base
      { final := (files dir base).final.take (files dir base).swap ext
        swap := (files dir base).swap.remove ext }

def execs (ops : List FileOp) : Directory β := ops.foldl exec dir

end Directory

/-! ## The swap -/

/-- `RewriteOutput`: the rewritten segment, at the base of the first one consumed. A `.txnindex` is
only written when there is something in it. -/
structure RewriteOutput (β : Type) where
  newBase : ℤ
  data : SegmentData β
  deriving DecidableEq

namespace RewriteOutput
variable {β : Type} (out : RewriteOutput β)

/-- Whether there is a `.txnindex.swap`. -/
def hasTxnindex : Bool := !out.data.aborted.isEmpty

def swapFiles : Files β where
  log := some out.data.batches
  index := some ()
  timeindex := some ()
  txnindex := if out.hasTxnindex then some out.data.aborted else none

def writtenTo (dir : Directory β) : Directory β :=
  dir.insert out.newBase { dir.files out.newBase with swap := out.swapFiles }

def fsyncOps : List FileOp := List.replicate (if out.hasTxnindex then 4 else 3) .fsync

def removeOps (base : ℤ) : List FileOp :=
  [.remove base .log, .remove base .index, .remove base .timeindex, .remove base .txnindex]

def renameOps : List FileOp :=
  [.rename out.newBase .log, .rename out.newBase .index, .rename out.newBase .timeindex] ++
    if out.hasTxnindex then [.rename out.newBase .txnindex] else []

/-- `atomic_swap`: its file operations in order. -/
def atomicSwap (consumed : List ℤ) : List FileOp :=
  out.fsyncOps ++ consumed.flatMap removeOps ++ out.renameOps ++ [.fsync]

/-- The directory of a process that stops after `n` operations. -/
def stoppedAfter (dir : Directory β) (consumed : List ℤ) (n : ℕ) : Directory β :=
  (out.writtenTo dir).execs ((out.atomicSwap consumed).take n)

end RewriteOutput

/-- A compaction of the first of the `consumed` segments and the others, without swap files in the directory. The
aborted transactions kept are among those of the consumed segments. -/
structure Compaction {β : Type} (dir : Directory β) (out : RewriteOutput β) (rest : List ℤ) :
    Prop where
  clean : ∀ base, (dir.files base).swap = {}
  nodup : (out.newBase :: rest).Nodup
  present : ∀ base ∈ out.newBase :: rest, (dir.files base).final.log.isSome
  kept : ∀ e ∈ out.data.aborted, ∃ base ∈ out.newBase :: rest, e ∈ (dir.files base).final.txnindex.getD []

/-! ## What an operation changes -/

namespace Directory
variable {β : Type} {dir : Directory β}

lemma files_insert (base : ℤ) (f : BaseFiles β) (b : ℤ) :
    files (dir.insert base f) b = if b = base then f else files dir b := by
  unfold files
  rw [getElem?_insert]
  split <;> rfl

lemma files_exec_remove (base : ℤ) (ext : Ext) (b : ℤ) :
    (dir.exec (.remove base ext)).files b =
      if b = base then { dir.files base with final := (dir.files base).final.remove ext }
      else dir.files b :=
  files_insert base _ b

lemma files_exec_rename (base : ℤ) (ext : Ext) (b : ℤ) :
    (dir.exec (.rename base ext)).files b =
      if b = base then
        { final := (dir.files base).final.take (dir.files base).swap ext
          swap := (dir.files base).swap.remove ext }
      else dir.files b :=
  files_insert base _ b

lemma execs_append (ops ops' : List FileOp) :
    dir.execs (ops ++ ops') = (dir.execs ops).execs ops' :=
  foldl_append

lemma execs_fsync {ops : List FileOp} (h : ∀ op ∈ ops, op = .fsync) : dir.execs ops = dir := by
  induction ops with
  | nil => rfl
  | cons op ops ih =>
    obtain rfl := h op mem_cons_self
    exact ih fun op' hop' => h op' (mem_cons_of_mem _ hop')

lemma getElem?_segments (b : ℤ) : (segments dir)[b]? = (dir.files b).recover.segment := by
  unfold segments swapOrphanRecover files
  rw [getElem?_filterMap, ExtTreeMap.getElem?_map]
  cases dir[b]? <;> rfl

lemma swapOrphanRecover_idem : swapOrphanRecover (swapOrphanRecover dir) = swapOrphanRecover dir := by
  refine ExtTreeMap.ext_getElem? fun {b} => ?_
  unfold swapOrphanRecover
  rw [ExtTreeMap.getElem?_map, ExtTreeMap.getElem?_map, Option.map_map]
  refine congrArg (Option.map · dir[b]?) (funext fun f => ?_)
  show f.recover.recover = f.recover
  cases hs : f.swap.log with
  | none =>
    have hf : f.recover = f := by simp only [BaseFiles.recover, hs]
    rw [hf, hf]
  | some batches =>
    have hf : f.recover.swap = {} := by
      simp only [BaseFiles.recover, hs]
      split <;> rfl
    rw [BaseFiles.recover, hf]

end Directory
namespace BaseFiles
variable {β : Type} {f : BaseFiles β}

lemma recover_of_no_swap (h : f.swap.log = none) : f.recover = f := by simp only [recover, h]

end BaseFiles
namespace RewriteOutput
variable {β : Type} {dir : Directory β} {out : RewriteOutput β} {rest : List ℤ}
open Directory

lemma files_removeOps_take (dir : Directory β) (base : ℤ) (m : ℕ) (b : ℤ) :
    let f := (dir.execs ((removeOps base).take m)).files b
    f.swap = (dir.files b).swap ∧ (b ≠ base ∨ m = 0 → f = dir.files b) ∧
      (b = base → 0 < m → f.final.log = none) ∧ (b = base → 4 ≤ m → f.final = {}) := by
  obtain rfl | hb := eq_or_ne b base
  · rcases m with _ | _ | _ | _ | m <;> simp [removeOps, execs, files_exec_remove, Files.remove]
  · rcases m with _ | _ | _ | _ | m <;>
      simp [removeOps, execs, files_exec_remove, hb]

lemma files_removals_take (dir : Directory β) (consumed : List ℤ) (hnodup : consumed.Nodup) (m : ℕ) (b : ℤ) :
    let f := (dir.execs ((consumed.flatMap removeOps).take m)).files b
    f.swap = (dir.files b).swap ∧ (b ∉ consumed.take ((m + 3) / 4) → f = dir.files b) ∧
      (b ∈ consumed.take ((m + 3) / 4) → f.final.log = none) ∧
      (b ∈ consumed.take (m / 4) → f.final = {}) := by
  induction consumed generalizing m dir with
  | nil => simp [execs]
  | cons base rest ih =>
    obtain ⟨hbase, hrest⟩ := nodup_cons.mp hnodup
    have hlen : (removeOps base).length = 4 := rfl
    obtain ⟨hswap, hsame, hlog, hall⟩ := files_removeOps_take dir base m b
    obtain ⟨hswap', hsame', hlog', hall'⟩ := ih (dir.execs ((removeOps base).take m)) hrest (m - 4)
    simp only [flatMap_cons, take_append, hlen, execs_append]
    refine ⟨hswap'.trans hswap, ?_, ?_, ?_⟩
    · intro hb
      rcases Nat.eq_zero_or_pos m with rfl | hpos
      · exact (hsame' (by simp)).trans (hsame (.inr rfl))
      · have hq : (m + 3) / 4 = (m - 4 + 3) / 4 + 1 ∨ (m + 3) / 4 = 1 ∧ m - 4 = 0 := by omega
        rcases hq with hq | ⟨hq, hzero⟩
        · rw [hq, take_succ_cons, mem_cons, not_or] at hb
          exact (hsame' hb.2).trans (hsame (.inl hb.1))
        · rw [hq, take_succ_cons, mem_cons, not_or] at hb
          exact (hsame' (by simp [hzero])).trans (hsame (.inl hb.1))
    · intro hb
      have hpos : 0 < m := by
        by_contra hzero
        simp [Nat.eq_zero_of_not_pos hzero] at hb
      rcases eq_or_ne b base with rfl | hne
      · -- The other removals are of other segments.
        rw [hsame' fun hin => hbase (mem_of_mem_take hin)]
        exact hlog rfl hpos
      · refine hlog' ?_
        have hq : (m + 3) / 4 = (m + 3) / 4 - 1 + 1 := by omega
        rw [hq, take_succ_cons, mem_cons] at hb
        have hle : (m + 3) / 4 - 1 ≤ (m - 4 + 3) / 4 := by omega
        exact take_subset_take_left _ hle (hb.resolve_left hne)
    · intro hb
      have hpos : 4 ≤ m := by
        by_contra hlt
        have hzero : m / 4 = 0 := by omega
        simp [hzero] at hb
      rcases eq_or_ne b base with rfl | hne
      · rw [hsame' fun hin => hbase (mem_of_mem_take hin)]
        exact hall rfl hpos
      · refine hall' ?_
        have hq : m / 4 = (m - 4) / 4 + 1 := by omega
        rw [hq, take_succ_cons, mem_cons] at hb
        exact hb.resolve_left hne

/-! ## The segments after a stop -/

variable (dir out rest)

def synced : ℕ := if out.hasTxnindex then 4 else 3

/-- The operation after which the last `.log` of a consumed segment is gone. -/
def allRemoved : ℕ := out.synced + 4 * rest.length

def renamesFrom : ℕ := out.synced + 4 * (rest.length + 1)

/-- The segment of a base offset that the log has when the process stopped after `n` operations. -/
def segmentAfter (n : ℕ) (b : ℤ) : Option (SegmentData β) :=
  if n ≤ out.synced then (dir.files b).segment
  else if b = out.newBase then
    if out.renamesFrom rest < n ∧ n < out.renamesFrom rest + 4 then some ⟨out.data.batches, []⟩
    else some out.data
  else if b ∈ rest.take ((n - out.synced + 3) / 4 - 1) then none
  else (dir.files b).segment

variable {dir out rest}

lemma files_writtenTo (b : ℤ) :
    (out.writtenTo dir).files b =
      if b = out.newBase then { dir.files out.newBase with swap := out.swapFiles } else dir.files b :=
  files_insert _ _ b

lemma length_removals (consumed : List ℤ) : (consumed.flatMap removeOps).length = 4 * consumed.length := by
  induction consumed with
  | nil => rfl
  | cons base rest ih =>
    rw [flatMap_cons, length_append, ih, length_cons, show (removeOps base).length = 4 from rfl]
    omega

lemma stoppedAfter_eq (consumed : List ℤ) (n : ℕ) :
    out.stoppedAfter dir consumed n =
      ((out.writtenTo dir).execs ((consumed.flatMap removeOps).take (n - out.synced))).execs
        (out.renameOps.take (n - out.synced - 4 * consumed.length)) := by
  have hlen : out.fsyncOps.length = out.synced := length_replicate
  have hfsync : ∀ op ∈ out.fsyncOps.take n, op = .fsync := fun op hop =>
    eq_of_mem_replicate (mem_of_mem_take hop)
  unfold stoppedAfter atomicSwap
  rw [take_append, take_append, take_append, execs_append, execs_append,
    execs_append, execs_fsync hfsync, hlen, length_append, hlen, length_removals]
  have hlast : ∀ (k : ℕ), ∀ op ∈ ([FileOp.fsync] : List FileOp).take k, op = .fsync :=
    fun k op hop => mem_singleton.mp (mem_of_mem_take hop)
  rw [execs_fsync (hlast _), Nat.sub_sub n]

lemma files_renames_of_ne {b : ℤ} (hb : b ≠ out.newBase) (d : Directory β) (r : ℕ) :
    (d.execs (out.renameOps.take r)).files b = d.files b := by
  have h : ∀ ops : List FileOp, (∀ op ∈ ops, ∃ ext, op = .rename out.newBase ext) →
      ∀ d : Directory β, (d.execs ops).files b = d.files b := by
    intro ops hops
    induction ops with
    | nil => exact fun _ => rfl
    | cons op ops ih =>
      intro d
      obtain ⟨ext, rfl⟩ := hops op mem_cons_self
      show ((d.exec (.rename out.newBase ext)).execs ops).files b = d.files b
      rw [ih fun op' hop' => hops op' (mem_cons_of_mem _ hop'), files_exec_rename, if_neg hb]
  refine h _ (fun op hop => ?_) d
  have hmem := mem_of_mem_take hop
  unfold renameOps at hmem
  split at hmem <;> simp at hmem <;> grind

lemma segment_renames {d : Directory β} (hfinal : (d.files out.newBase).final = {})
    (hswap : (d.files out.newBase).swap = out.swapFiles) {r : ℕ} (hr : 0 < r) :
    ((d.execs (out.renameOps.take r)).files out.newBase).recover.segment =
      some (if r < 4 then ⟨out.data.batches, []⟩ else out.data) := by
  have hfiles : d.files out.newBase = ⟨{}, out.swapFiles⟩ := by rw [← hfinal, ← hswap]
  by_cases htxn : out.hasTxnindex
  · rcases r with _ | _ | _ | _ | r
    · cases hr
    all_goals
      simp [renameOps, htxn, execs, files_exec_rename, hfiles, Files.take, Files.remove, swapFiles,
        BaseFiles.recover, BaseFiles.segment]
  · have hempty : out.data.aborted = [] := by simpa [hasTxnindex] using htxn
    have hdata : out.data = ⟨out.data.batches, []⟩ := by rw [← hempty]
    rw [← hdata, ite_self]
    rcases r with _ | _ | _ | r
    · cases hr
    all_goals
      simp [renameOps, htxn, execs, files_exec_rename, hfiles, Files.take, Files.remove, swapFiles,
        BaseFiles.recover, BaseFiles.segment, ← hdata]

/-- **The directory after every prefix of the swap.** -/
theorem getElem?_segments_stoppedAfter (h : Compaction dir out rest) (n : ℕ) (b : ℤ) :
    (segments (out.stoppedAfter dir (out.newBase :: rest) n))[b]? = out.segmentAfter dir rest n b := by
  obtain ⟨hswap, hsame, hlog, hall⟩ := files_removals_take (out.writtenTo dir)
    (out.newBase :: rest) h.nodup (n - out.synced) b
  rw [getElem?_segments, stoppedAfter_eq, segmentAfter, length_cons]
  rw [files_writtenTo] at hswap hsame
  by_cases hn : n ≤ out.synced
  · -- Nothing is removed yet, and the rewritten files go.
    rw [if_pos hn]
    have hzero : n - out.synced = 0 := Nat.sub_eq_zero_of_le hn
    rw [hzero, Nat.zero_sub, take_zero, take_zero]
    show ((out.writtenTo dir).files b).recover.segment = _
    rw [files_writtenTo]
    split_ifs with hb
    · obtain ⟨batches, hbatches⟩ := isSome_iff_exists.mp (h.present out.newBase mem_cons_self)
      simp [BaseFiles.recover, swapFiles, hb, hbatches, BaseFiles.segment]
    · rw [BaseFiles.recover_of_no_swap (by rw [h.clean b])]
  · rw [if_neg hn]
    have hpos : 0 < n - out.synced := by omega
    obtain rfl | hb := eq_or_ne b out.newBase
    · rw [if_pos rfl]
      rw [if_pos rfl] at hswap
      have hfirst : (n - out.synced + 3) / 4 = (n - out.synced + 3) / 4 - 1 + 1 := by omega
      have hlog' := hlog (by rw [hfirst]; exact mem_cons_self)
      by_cases hr : n - out.synced - 4 * (rest.length + 1) = 0
      · -- The `.log` is gone, and the rewritten files are promoted.
        have hwin : ¬ (out.renamesFrom rest < n ∧ n < out.renamesFrom rest + 4) := by
          unfold renamesFrom
          omega
        rw [if_neg hwin, hr, take_zero, show ∀ d : Directory β, d.execs [] = d from fun _ => rfl]
        have htxn : out.swapFiles.txnindex.getD [] = out.data.aborted := by
          unfold swapFiles hasTxnindex
          cases out.data.aborted <;> rfl
        simp only [BaseFiles.recover, hswap, BaseFiles.segment, hlog']
        simp [swapFiles] at htxn ⊢
        rw [htxn]
      · have hfour : (n - out.synced) / 4 = (n - out.synced) / 4 - 1 + 1 := by omega
        rw [segment_renames (hall (by rw [hfour]; exact mem_cons_self)) hswap (by omega)]
        unfold renamesFrom
        split <;> split <;> first | rfl | omega
    · rw [if_neg hb, files_renames_of_ne hb]
      rw [if_neg hb] at hswap hsame
      have hmem : b ∈ (out.newBase :: rest).take ((n - out.synced + 3) / 4) ↔
          b ∈ rest.take ((n - out.synced + 3) / 4 - 1) := by
        have hfirst : (n - out.synced + 3) / 4 = (n - out.synced + 3) / 4 - 1 + 1 := by omega
        rw [hfirst, take_succ_cons, mem_cons, Nat.add_sub_cancel]
        exact or_iff_right hb
      rw [BaseFiles.recover_of_no_swap (by rw [hswap, h.clean b])]
      by_cases hin : b ∈ rest.take ((n - out.synced + 3) / 4 - 1)
      · rw [if_pos hin, BaseFiles.segment, hlog (hmem.mpr hin)]
        rfl
      · rw [if_neg hin, hsame (mt hmem.mp hin)]

/-- A stop is harmless: nothing is removed yet; every `.log` of a consumed segment is gone, and not the `.log` alone
is renamed; or only files of the first segment are gone, and the rewritten one is the same. -/
def Safe (dir : Directory β) (out : RewriteOutput β) (rest : List ℤ) (n : ℕ) : Prop :=
  n ≤ out.synced ∨
    out.allRemoved rest < n ∧ (out.hasTxnindex = true → n ≤ out.renamesFrom rest ∨ out.renamesFrom rest + 4 ≤ n) ∨
    n ≤ out.synced + 4 ∧ (dir.files out.newBase).segment = some out.data

lemma getElem?_segments_before (h : Compaction dir out rest) (b : ℤ) :
    (segments dir)[b]? = (dir.files b).segment := by
  rw [getElem?_segments, BaseFiles.recover_of_no_swap (by rw [h.clean b])]

variable {n : ℕ}

lemma segmentAfter_of_late (hremoved : out.allRemoved rest < n)
    (hwin : out.hasTxnindex → n ≤ out.renamesFrom rest ∨ out.renamesFrom rest + 4 ≤ n) (b : ℤ) :
    out.segmentAfter dir rest n b =
      if b = out.newBase then some out.data
      else if b ∈ rest then none else (dir.files b).segment := by
  unfold segmentAfter allRemoved at *
  rw [if_neg (by omega)]
  refine if_congr Iff.rfl ?_ ?_
  · split_ifs with hin
    · -- A stop among the renames is harmless when there is no `.txnindex`.
      have hnone : out.data.aborted = [] := by
        by_contra hne
        have htxn : out.hasTxnindex := by simp [hasTxnindex, hne]
        have := hwin htxn
        omega
      rw [← hnone]
    · rfl
  · rw [take_of_length_le (by omega)]

lemma length_atomicSwap_ge (out : RewriteOutput β) (rest : List ℤ) :
    out.renamesFrom rest + 4 ≤ (out.atomicSwap (out.newBase :: rest)).length := by
  have hlen : out.fsyncOps.length = out.synced := length_replicate
  unfold atomicSwap renamesFrom renameOps
  simp only [length_append, hlen, length_removals, length_cons, length_nil]
  omega

section
variable (h : Compaction dir out rest)
include h

lemma getElem?_segments_after (b : ℤ) :
    (segments ((out.writtenTo dir).execs (out.atomicSwap (out.newBase :: rest))))[b]? =
      if b = out.newBase then some out.data
      else if b ∈ rest then none else (dir.files b).segment := by
  have hge := length_atomicSwap_ge out rest
  have hstop := getElem?_segments_stoppedAfter h (out.atomicSwap (out.newBase :: rest)).length b
  rw [stoppedAfter, take_length] at hstop
  rw [hstop]
  refine segmentAfter_of_late ?_ (fun _ => .inr hge) b
  unfold allRemoved
  unfold renamesFrom at hge
  omega

lemma segment_ne_none {b : ℤ} (hb : b ∈ out.newBase :: rest) : (dir.files b).segment ≠ none := by
  unfold BaseFiles.segment
  rw [ne_eq, map_eq_none_iff]
  exact isSome_iff_ne_none.mp (h.present b hb)

/-- While a `.log` of a consumed segment is left, the log is that from before only by coincidence. -/
lemma not_removed_yet (hsynced : out.synced < n)
    (hleft : n ≤ out.allRemoved rest)
    (hbefore : ∀ b, out.segmentAfter dir rest n b = (dir.files b).segment) :
    n ≤ out.synced + 4 ∧ (dir.files out.newBase).segment = some out.data := by
  unfold allRemoved at hleft
  have hnew := hbefore out.newBase
  unfold segmentAfter at hbefore hnew
  rw [if_neg (by omega), if_pos rfl, if_neg (by unfold renamesFrom; omega)] at hnew
  refine ⟨?_, hnew.symm⟩
  by_contra hfour
  -- The second segment is gone.
  obtain ⟨base, tail, rfl⟩ : ∃ base tail, rest = base :: tail := by
    cases rest with
    | nil =>
      rw [length_nil] at hleft
      omega
    | cons base tail => exact ⟨base, tail, rfl⟩
  have hne : base ≠ out.newBase := fun heq => (nodup_cons.mp h.nodup).1 (heq ▸ mem_cons_self)
  have hq : (n - out.synced + 3) / 4 - 1 = (n - out.synced + 3) / 4 - 2 + 1 := by omega
  have hgone := hbefore base
  rw [if_neg (by omega), if_neg hne, if_pos (by rw [hq]; exact mem_cons_self)] at hgone
  exact segment_ne_none h (mem_cons_of_mem _ mem_cons_self) hgone.symm

lemma not_after_yet (hsynced : out.synced < n) (hleft : n ≤ out.allRemoved rest) :
    ∃ b, out.segmentAfter dir rest n b ≠ if b = out.newBase then some out.data
      else if b ∈ rest then none else (dir.files b).segment := by
  unfold allRemoved at hleft
  have hlt : rest.length - 1 < rest.length := by omega
  refine ⟨rest[rest.length - 1], ?_⟩
  have hmem : rest[rest.length - 1] ∈ rest := getElem_mem hlt
  obtain ⟨hfirst, hrest⟩ := nodup_cons.mp h.nodup
  have hne : rest[rest.length - 1] ≠ out.newBase := fun heq => hfirst (heq ▸ hmem)
  have hkept : rest[rest.length - 1] ∉ rest.take ((n - out.synced + 3) / 4 - 1) := by
    intro hin
    obtain ⟨i, hi, heq⟩ := mem_take_iff_getElem.mp hin
    have := (List.Nodup.getElem_inj_iff hrest).mp heq
    omega
  rw [segmentAfter, if_neg (by omega), if_neg hne, if_neg hkept, if_neg hne, if_pos hmem]
  exact segment_ne_none h (mem_cons_of_mem _ hmem)

/-- Between the renames of the `.log` and the `.txnindex` the log is neither. -/
lemma lost_txnindex (htxn : out.hasTxnindex)
    (hfrom : out.renamesFrom rest < n) (hto : n < out.renamesFrom rest + 4) :
    (∃ b, out.segmentAfter dir rest n b ≠ (dir.files b).segment) ∧
      out.segmentAfter dir rest n out.newBase ≠ some out.data := by
  have hsynced : ¬ n ≤ out.synced := by
    unfold renamesFrom at hfrom
    omega
  have haborted : out.data.aborted ≠ [] := by simpa [hasTxnindex] using htxn
  have hnew : out.segmentAfter dir rest n out.newBase = some ⟨out.data.batches, []⟩ := by
    rw [segmentAfter, if_neg hsynced, if_pos rfl, if_pos ⟨hfrom, hto⟩]
  refine ⟨?_, ?_⟩
  · cases rest with
    | nil =>
      -- The only segment had the aborted transactions that are kept.
      refine ⟨out.newBase, ?_⟩
      rw [hnew]
      intro heq
      obtain ⟨e, he⟩ := exists_mem_of_ne_nil _ haborted
      obtain ⟨base, hbase, hin⟩ := h.kept e he
      obtain rfl := mem_singleton.mp hbase
      unfold BaseFiles.segment at heq
      obtain ⟨batches, -, hdata⟩ := map_eq_some_iff.mp heq.symm
      rw [(SegmentData.mk.inj hdata).2] at hin
      cases hin
    | cons base tail =>
      refine ⟨base, ?_⟩
      have hne : base ≠ out.newBase := fun heq => (nodup_cons.mp h.nodup).1 (heq ▸ mem_cons_self)
      have hq : (n - out.synced + 3) / 4 - 1 = (n - out.synced + 3) / 4 - 2 + 1 := by
        unfold renamesFrom at hfrom
        omega
      rw [segmentAfter, if_neg hsynced, if_neg hne, if_pos (by rw [hq]; exact mem_cons_self)]
      exact (segment_ne_none h (mem_cons_of_mem _ mem_cons_self)).symm
  · rw [hnew]
    intro heq
    exact haborted (congrArg SegmentData.aborted (some.inj heq)).symm

end
end RewriteOutput
open RewriteOutput Directory

/-- **The swap, stopped anywhere.** The log that is opened has the segments from before the compaction
or from after it, if and only if the stop is safe; and the recovery is idempotent. -/
theorem swap_atomic_iff {β : Type} (dir : Directory β) (out : RewriteOutput β) (rest : List ℤ)
    (h : Compaction dir out rest) (n : ℕ) :
    ((let stopped := segments (out.stoppedAfter dir (out.newBase :: rest) n)
      let after := segments ((out.writtenTo dir).execs (out.atomicSwap (out.newBase :: rest)))
      stopped = segments dir ∨ stopped = after) ↔ Safe dir out rest n) ∧
    ∀ d : Directory β, swapOrphanRecover (swapOrphanRecover d) = swapOrphanRecover d := by
  refine ⟨?_, fun d => swapOrphanRecover_idem⟩
  have hbefore : segments (out.stoppedAfter dir (out.newBase :: rest) n) = segments dir ↔
      ∀ b, out.segmentAfter dir rest n b = (dir.files b).segment := by
    constructor
    · intro heq b
      rw [← getElem?_segments_stoppedAfter h, heq, getElem?_segments_before h]
    · intro heq
      refine ExtTreeMap.ext_getElem? fun {b} => ?_
      rw [getElem?_segments_stoppedAfter h, heq, getElem?_segments_before h]
  have hafter : segments (out.stoppedAfter dir (out.newBase :: rest) n) =
        segments ((out.writtenTo dir).execs (out.atomicSwap (out.newBase :: rest))) ↔
      ∀ b, out.segmentAfter dir rest n b = if b = out.newBase then some out.data
        else if b ∈ rest then none else (dir.files b).segment := by
    constructor
    · intro heq b
      rw [← getElem?_segments_stoppedAfter h, heq, getElem?_segments_after h]
    · intro heq
      refine ExtTreeMap.ext_getElem? fun {b} => ?_
      rw [getElem?_segments_stoppedAfter h, heq, getElem?_segments_after h]
  simp only [hbefore, hafter]
  constructor
  · intro heither
    by_cases hsynced : n ≤ out.synced
    · exact .inl hsynced
    · by_cases hleft : n ≤ out.allRemoved rest
      · refine .inr (.inr ?_)
        rcases heither with hb | ha
        · exact not_removed_yet h (by omega) hleft hb
        · obtain ⟨b, hne⟩ := not_after_yet h (by omega) hleft
          exact absurd (ha b) hne
      · refine .inr (.inl ⟨by omega, fun htxn => ?_⟩)
        by_contra hwin
        rw [not_or, not_le, not_le] at hwin
        obtain ⟨⟨b, hne⟩, hne'⟩ := lost_txnindex h htxn hwin.1 hwin.2
        rcases heither with hb | ha
        · exact hne (hb b)
        · exact hne' ((ha out.newBase).trans (if_pos rfl))
  · rintro (hsynced | ⟨hremoved, hwin⟩ | ⟨hfour, hdata⟩)
    · exact .inl fun b => if_pos hsynced
    · exact .inr (segmentAfter_of_late hremoved hwin)
    · -- Only the first segment is replaced, by itself.
      refine .inl fun b => ?_
      unfold segmentAfter renamesFrom
      split
      · rfl
      · split
        · rename_i hb
          rw [if_neg (by omega), hb, hdata]
        · rw [show (n - out.synced + 3) / 4 - 1 = 0 by omega, take_zero, if_neg not_mem_nil]

/-! ## Stops inside the windows -/

/-- Two sealed segments, the second with an aborted transaction, and the active one. -/
def threeSegments : Directory ℕ :=
  ((∅ : Directory ℕ).insert 0 { final := ⟨some [0], some (), some (), none⟩ }).insert 5
    { final := ⟨some [5], some (), some (), some [⟨5, 6, 1⟩]⟩ } |>.insert 9
    { final := ⟨some [], some (), some (), none⟩ }

def rewritten : RewriteOutput ℕ := ⟨0, ⟨[0, 5], [⟨5, 6, 1⟩]⟩⟩

lemma compaction_threeSegments : Compaction threeSegments rewritten [5] where
  clean base := by
    unfold threeSegments
    simp only [Directory.files_insert]
    split
    · rfl
    · split
      · rfl
      · split <;> rfl
  nodup := by decide
  present := by decide +kernel
  kept := by decide +kernel

/-- A stop after both `.log` files are gone. -/
theorem swap_atomic_promoted :
    segments (rewritten.stoppedAfter threeSegments [0, 5] 9) =
        segments threeSegments ∨
      segments (rewritten.stoppedAfter threeSegments [0, 5] 9) =
        segments ((rewritten.writtenTo threeSegments).execs (rewritten.atomicSwap [0, 5])) :=
  (swap_atomic_iff threeSegments rewritten [5] compaction_threeSegments 9).1.mpr
    (.inr (.inl ⟨by decide, fun _ => .inl (by decide)⟩))

/-- After the first `.log` is removed, the rewritten segment stands next to the second one; after the
new `.log` is renamed, the aborted transaction is lost. -/
theorem swap_not_atomic :
    Compaction threeSegments rewritten [5] ∧
    (segments (rewritten.stoppedAfter threeSegments [0, 5] 5)).toList =
      [(0, rewritten.data), (5, ⟨[5], [⟨5, 6, 1⟩]⟩), (9, ⟨[], []⟩)] ∧
    (segments (rewritten.stoppedAfter threeSegments [0, 5] 13)).toList = [(0, ⟨[0, 5], []⟩), (9, ⟨[], []⟩)] ∧
    (segments threeSegments).toList = [(0, ⟨[0], []⟩), (5, ⟨[5], [⟨5, 6, 1⟩]⟩), (9, ⟨[], []⟩)] ∧
    (segments ((rewritten.writtenTo threeSegments).execs
      (rewritten.atomicSwap [0, 5]))).toList = [(0, rewritten.data), (9, ⟨[], []⟩)] :=
  ⟨compaction_threeSegments, by decide +kernel⟩

end Crabka.Log
