import Crabka.Log.Built

/-!
# The aborted transactions of a range

`aborted_in_range` answers from the index of the active segment, and a marker is recorded in the segment that is
active when it arrives (`Indexed`). A transactional batch is decided by the first control batch of its producer after
it (`Ends`), and an aborted transaction is given by its first batch and its marker (`IsAborted`).
-/

namespace Crabka.Log
open Found List
open Std (ExtTreeMap)
variable {h : List Batch} {b d m : Batch} {pid o : ℤ} {e : AbortedTxn}

lemma Laid.eq_or_lt {start : ℤ} (hl : Laid start h) {x y : Batch} (hx : x ∈ h) (hy : y ∈ h) :
    x = y ∨ x.lastOffset < y.baseOffset ∨ y.lastOffset < x.baseOffset := by
  induction h generalizing start with
  | nil => cases hx
  | cons b h ih =>
    have hafter : ∀ z ∈ h, b.lastOffset < z.baseOffset := fun z hz =>
      Int.lt_of_add_one_le (hl.2.start_le_base z hz)
    rcases mem_cons.mp hx with hxb | hx'
    · rcases mem_cons.mp hy with hyb | hy'
      · exact .inl (hxb.trans hyb.symm)
      · exact .inr (.inl (hxb ▸ hafter y hy'))
    · rcases mem_cons.mp hy with hyb | hy'
      · exact .inr (.inr (hyb ▸ hafter x hx'))
      · exact ih hl.2 hx' hy'

/-! ## Transactions -/

/-- A transactional batch, and the marker that decides it. -/
@[mk_iff]
structure Ends (h : List Batch) (d m : Batch) : Prop where
  data : d ∈ h
  inTransaction : d.inTransaction = true
  marker : m ∈ h
  control : m.control.isSome = true
  producer : m.producerId = d.producerId
  after : d.baseOffset < m.baseOffset
  first : ∀ c ∈ h, c.control.isSome = true → c.producerId = d.producerId →
    d.baseOffset < c.baseOffset → m.baseOffset ≤ c.baseOffset

/-- A batch of the producer's open transaction. -/
structure OpenIn (h : List Batch) (pid : ℤ) (d : Batch) : Prop where
  data : d ∈ h
  inTransaction : d.inTransaction = true
  producer : d.producerId = pid
  undecided : ∀ c ∈ h, c.control.isSome = true → c.producerId = pid → c.baseOffset ≤ d.baseOffset

/-- An aborted transaction: its first batch, its producer, and the offset of its marker. -/
def IsAborted (h : List Batch) (e : AbortedTxn) : Prop :=
  ∃ m ∈ h, m.aborts = true ∧ m.lastOffset = e.lastOffset ∧ m.producerId = e.producerId ∧
    (∃ d ∈ h, Ends h d m ∧ d.baseOffset = e.startOffset) ∧
    ∀ d ∈ h, Ends h d m → e.startOffset ≤ d.baseOffset

/-- A transaction has a batch that overlaps `[start, stop)`. -/
def HasDataIn (h : List Batch) (e : AbortedTxn) (start stop : ℤ) : Prop :=
  ∃ m ∈ h, m.lastOffset = e.lastOffset ∧ ∃ d ∈ h, Ends h d m ∧ start ≤ d.lastOffset ∧ d.baseOffset < stop

/-- A data batch that was not in a transaction, or in one that did not abort. -/
def Committed (h : List Batch) (b : Batch) : Prop :=
  b.inTransaction = true → ∃ m, Ends h b m ∧ m.aborts = false

/-- What a read-committed consumer drops: the batches of a listed producer between the first offset
and the marker. -/
def Dropped (listed : List AbortedTxn) (b : Batch) : Prop :=
  b.inTransaction = true ∧ ∃ e ∈ listed, e.producerId = b.producerId ∧
    e.startOffset ≤ b.baseOffset ∧ b.baseOffset ≤ e.lastOffset

instance (h : List Batch) (d m : Batch) : Decidable (Ends h d m) := decidable_of_iff' _ (ends_iff h d m)

instance (h : List Batch) (b : Batch) : Decidable (Committed h b) :=
  decidable_of_iff (b.inTransaction = true → ∃ m ∈ h, Ends h b m ∧ m.aborts = false)
    ⟨fun hb htxn => (hb htxn).imp fun _ hm => hm.2, fun hb htxn => (hb htxn).imp fun _ hm => ⟨hm.1.marker, hm⟩⟩

instance (h : List Batch) (e : AbortedTxn) : Decidable (IsAborted h e) :=
  inferInstanceAs (Decidable (∃ m ∈ h, _))

instance (h : List Batch) (e : AbortedTxn) (start stop : ℤ) : Decidable (HasDataIn h e start stop) :=
  inferInstanceAs (Decidable (∃ m ∈ h, _))

lemma control_of_inTransaction (hb : b.inTransaction) : b.control = none := by
  simp only [Batch.inTransaction, Bool.and_eq_true, Option.isNone_iff_eq_none] at hb
  exact hb.1.1

lemma control_of_aborts (hb : b.aborts) : b.control.isSome = true := by
  unfold Batch.aborts at hb
  cases hc : b.control with
  | none => simp [hc] at hb
  | some c => rfl

lemma base_lt_of_snoc {start : ℤ} (hl : Laid start (h ++ [b])) {x : Batch} (hx : x ∈ h) :
    x.baseOffset < b.baseOffset := by
  obtain ⟨hh, hb, -⟩ := laid_append.mp hl
  rw [hb]
  exact x.base_le_last.trans_lt (hh.last_lt_endOf x hx)

lemma openIn_snoc (hl : Laid 0 (h ++ [b])) : OpenIn (h ++ [b]) pid d ↔
    OpenIn h pid d ∧ ¬ (b.control.isSome ∧ b.producerId = pid) ∨ d = b ∧ b.inTransaction ∧ b.producerId = pid := by
  constructor
  · rintro ⟨hd, htxn, hpid, hund⟩
    rcases mem_snoc.mp hd with hd | rfl
    · refine .inl ⟨⟨hd, htxn, hpid, fun c hc => hund c (mem_append_left _ hc)⟩, ?_⟩
      rintro ⟨hcontrol, hb⟩
      have hle := hund b mem_append_cons_self hcontrol hb
      exact absurd hle (not_le.mpr (base_lt_of_snoc hl hd))
    · exact .inr ⟨rfl, htxn, hpid⟩
  · rintro (⟨⟨hd, htxn, hpid, hund⟩, hno⟩ | ⟨rfl, htxn, hpid⟩)
    · refine ⟨mem_append_left _ hd, htxn, hpid, fun c hc hcontrol hcp => ?_⟩
      rcases mem_snoc.mp hc with hc | rfl
      · exact hund c hc hcontrol hcp
      · exact absurd ⟨hcontrol, hcp⟩ hno
    · refine ⟨mem_append_cons_self, htxn, hpid, fun c hc _ _ => ?_⟩
      rcases mem_snoc.mp hc with hc | hc
      · exact (base_lt_of_snoc hl hc).le
      · exact (congrArg Batch.baseOffset hc).le

lemma ends_snoc (hl : Laid 0 (h ++ [b])) : Ends (h ++ [b]) d m ↔
    Ends h d m ∨ m = b ∧ b.control.isSome ∧ OpenIn h b.producerId d := by
  constructor
  · rintro ⟨hd, htxn, hm, hcontrol, hpid, hafter, hfirst⟩
    have hd' : d ∈ h := by
      rcases mem_snoc.mp hd with hd | rfl
      · exact hd
      · rcases mem_snoc.mp hm with hm | rfl
        · exact absurd hafter (not_lt.mpr (base_lt_of_snoc hl hm).le)
        · exact absurd hafter (lt_irrefl _)
    rcases mem_snoc.mp hm with hm | rfl
    · exact .inl ⟨hd', htxn, hm, hcontrol, hpid, hafter, fun c hc =>
        hfirst c (mem_append_left _ hc)⟩
    · refine .inr ⟨rfl, hcontrol, hd', htxn, hpid.symm, fun c hc hcc hcp => ?_⟩
      by_contra hlt
      have hle := hfirst c (mem_append_left _ hc) hcc (hcp.trans hpid) (not_le.mp hlt)
      exact absurd hle (not_le.mpr (base_lt_of_snoc hl hc))
  · rintro (⟨hd, htxn, hm, hcontrol, hpid, hafter, hfirst⟩ | ⟨rfl, hcontrol, hopen⟩)
    · refine ⟨mem_append_left _ hd, htxn, mem_append_left _ hm, hcontrol, hpid, hafter,
        fun c hc hcc hcp hlt => ?_⟩
      rcases mem_snoc.mp hc with hc | rfl
      · exact hfirst c hc hcc hcp hlt
      · exact (base_lt_of_snoc hl hm).le
    · refine ⟨mem_append_left _ hopen.data, hopen.inTransaction,
        mem_append_cons_self, hcontrol, hopen.producer.symm,
        base_lt_of_snoc hl hopen.data, fun c hc hcc hcp hlt => ?_⟩
      rcases mem_snoc.mp hc with hc | hc
      · exact absurd (hopen.undecided c hc hcc (hcp.trans hopen.producer)) (not_le.mpr hlt)
      · exact (congrArg Batch.baseOffset hc).ge

lemma openIn_or_ends (hl : Laid 0 h) (hd : d ∈ h) (htxn : d.inTransaction) :
    OpenIn h d.producerId d ∨ ∃ m, Ends h d m := by
  induction h using List.reverseRecOn with
  | nil => cases hd
  | append_singleton h b ih =>
    rcases mem_snoc.mp hd with hd | rfl
    · rcases ih (laid_append.mp hl).1 hd with hopen | ⟨m, hm⟩
      · by_cases hb : b.control.isSome ∧ b.producerId = d.producerId
        · exact .inr ⟨b, (ends_snoc hl).mpr (.inr ⟨rfl, hb.1, hb.2 ▸ hopen⟩)⟩
        · exact .inl ((openIn_snoc hl).mpr (.inl ⟨hopen, hb⟩))
      · exact .inr ⟨m, (ends_snoc hl).mpr (.inl hm)⟩
    · exact .inl ((openIn_snoc hl).mpr (.inr ⟨rfl, htxn, rfl⟩))

lemma Ends.unique (hl : Laid 0 h) {m' : Batch} (hm : Ends h d m) (hm' : Ends h d m') : m = m' := by
  have hle := hm.first m' hm'.marker hm'.control hm'.producer hm'.after
  have hge := hm'.first m hm.marker hm.control hm.producer hm.after
  rcases hl.eq_or_lt hm.marker hm'.marker with heq | hlt | hlt
  · exact heq
  · exact absurd hge (not_le.mpr (m.base_le_last.trans_lt hlt))
  · exact absurd hle (not_le.mpr (m'.base_le_last.trans_lt hlt))

lemma Ends.of_between (hl : Laid 0 h) (hm : Ends h d m) (hb : b ∈ h)
    (htxn : b.inTransaction) (hpid : b.producerId = m.producerId)
    (hle : d.baseOffset ≤ b.baseOffset) (hlast : b.baseOffset ≤ m.lastOffset) : Ends h b m := by
  refine ⟨hb, htxn, hm.marker, hm.control, hpid.symm, ?_, fun c hc hcc hcp hlt =>
    hm.first c hc hcc (hcp.trans (hpid.trans hm.producer)) (hle.trans_lt hlt)⟩
  rcases hl.eq_or_lt hb hm.marker with rfl | hlt | hlt
  · exact absurd hm.control (by simp [control_of_inTransaction htxn])
  · exact b.base_le_last.trans_lt hlt
  · exact absurd hlast (not_le.mpr hlt)

/-! ## What is pending -/

def FirstOpen (h : List Batch) (pid : ℤ) : Option ℤ → Prop
  | none => ∀ d, ¬ OpenIn h pid d
  | some o => (∃ d, OpenIn h pid d ∧ d.baseOffset = o) ∧ ∀ d, OpenIn h pid d → o ≤ d.baseOffset

lemma FirstOpen.congr {h' : List Batch} (hiff : ∀ d, OpenIn h' pid d ↔ OpenIn h pid d)
    {x : Option ℤ} (hx : FirstOpen h pid x) : FirstOpen h' pid x := by
  cases x with
  | none => exact fun d hd => hx d ((hiff d).mp hd)
  | some o =>
    obtain ⟨⟨d, hd, ho⟩, hleast⟩ := hx
    exact ⟨⟨d, (hiff d).mpr hd, ho⟩, fun d' hd' => hleast d' ((hiff d').mp hd')⟩

/-- **What the log tracks as pending** is the first offset of each open transaction. -/
theorem firstOpen_pending (hl : Laid 0 h) (pid : ℤ) : FirstOpen h pid (trackOf h).pending[pid]? := by
  induction h using List.reverseRecOn with
  | nil =>
    have hnone : (trackOf []).pending[pid]? = none := by simp [trackOf]
    rw [hnone]
    exact fun d hd => absurd hd.data not_mem_nil
  | append_singleton h b ih =>
    have hold := ih (laid_append.mp hl).1
    rw [trackOf_snoc]
    cases hc : b.control with
    | some c =>
      have htxn : ¬ b.inTransaction := fun hin => by
        rw [control_of_inTransaction hin] at hc
        cases hc
      have hpending : ((trackOf h).note b).pending = (trackOf h).pending.erase b.producerId := by
        simp only [Tracked.note, hc]
      rw [hpending, getElem?_erase]
      split
      · rename_i heq
        intro d hd
        rcases (openIn_snoc hl).mp hd with ⟨-, hno⟩ | ⟨-, hin, -⟩
        · exact hno ⟨by rw [hc]; rfl, heq.symm⟩
        · exact htxn hin
      · rename_i hne
        refine hold.congr fun d => (openIn_snoc hl).trans ⟨?_, fun hd => ?_⟩
        · rintro (⟨hd, -⟩ | ⟨-, hin, -⟩)
          · exact hd
          · exact absurd hin htxn
        · exact .inl ⟨hd, fun hb => hne hb.2.symm⟩
    | none =>
      have hcontrol : ¬ b.control.isSome := by
        rw [hc]
        decide
      by_cases hin : b.inTransaction ∧ b.producerId = pid
      · obtain ⟨htxn, rfl⟩ := hin
        have hflag : (b.isTransactional && decide (0 ≤ b.producerId)) := by
          simpa [Batch.inTransaction, hc] using htxn
        have hpending : ((trackOf h).note b).pending[b.producerId]? =
            some ((trackOf h).pending[b.producerId]?.getD b.baseOffset) := by
          simp only [Tracked.note, hc, hflag, if_true, openTransaction]
          rw [Tracked.getElem?_upsert, if_pos rfl]
          cases (trackOf h).pending[b.producerId]? <;> rfl
        have hself : OpenIn (h ++ [b]) b.producerId b :=
          (openIn_snoc hl).mpr (.inr ⟨rfl, htxn, rfl⟩)
        rw [hpending]
        cases hp : (trackOf h).pending[b.producerId]? with
        | none =>
          rw [hp] at hold
          refine ⟨⟨b, hself, rfl⟩, fun d hd => ?_⟩
          rcases (openIn_snoc hl).mp hd with ⟨hd, -⟩ | ⟨rfl, -⟩
          · exact absurd hd (hold d)
          · exact le_rfl
        | some first =>
          rw [hp] at hold
          obtain ⟨⟨d₀, hd₀, hfirst⟩, hleast⟩ := hold
          refine ⟨⟨d₀, (openIn_snoc hl).mpr (.inl ⟨hd₀, fun hb => hcontrol hb.1⟩), hfirst⟩, fun d hd => ?_⟩
          rcases (openIn_snoc hl).mp hd with ⟨hd, -⟩ | ⟨rfl, -⟩
          · exact hleast d hd
          · rw [Option.getD_some, ← hfirst]
            exact (base_lt_of_snoc hl hd₀.data).le
      · have hpending : ((trackOf h).note b).pending[pid]? = (trackOf h).pending[pid]? := by
          simp only [Tracked.note, hc]
          split_ifs with hflag
          · have htxn : b.inTransaction := by simpa [Batch.inTransaction, hc] using hflag
            rw [openTransaction, Tracked.getElem?_upsert, if_neg fun heq => hin ⟨htxn, heq.symm⟩]
          · rfl
        rw [hpending]
        refine hold.congr fun d => (openIn_snoc hl).trans ⟨?_, fun hd => ?_⟩
        · rintro (⟨hd, -⟩ | ⟨-, hb⟩)
          · exact hd
          · exact absurd hb hin
        · exact .inl ⟨hd, fun hb => hcontrol hb.1⟩

lemma pending_eq_some_iff (hl : Laid 0 h) : (trackOf h).pending[pid]? = some o ↔
    (∃ d, OpenIn h pid d ∧ d.baseOffset = o) ∧ ∀ d, OpenIn h pid d → o ≤ d.baseOffset := by
  have hspec := firstOpen_pending hl pid
  constructor
  · intro hp
    rwa [hp] at hspec
  · rintro ⟨⟨d, hd, rfl⟩, hleast⟩
    cases hp : (trackOf h).pending[pid]? with
    | none =>
      rw [hp] at hspec
      exact absurd hd (hspec d)
    | some x =>
      rw [hp] at hspec
      obtain ⟨⟨d', hd', rfl⟩, hleast'⟩ := hspec
      exact congrArg some (le_antisymm (hleast' d hd) (hleast d' hd'))

lemma IsAborted.last_lt (hl : Laid 0 h) (he : IsAborted h e) : e.lastOffset < endOf 0 h := by
  obtain ⟨m, hm, -, hlast, -⟩ := he
  rw [← hlast]
  exact hl.last_lt_endOf m hm

namespace PartitionLog
variable {cfg : LogConfig} {log : PartitionLog}

lemma mem_abortedBy : e ∈ log.abortedBy b ↔ b.aborts ∧
    log.tracked.pending[b.producerId]? = some e.startOffset ∧ b.lastOffset = e.lastOffset ∧
    b.producerId = e.producerId := by
  unfold abortedBy
  by_cases hb : b.aborts
  · rw [if_pos hb]
    cases hp : log.tracked.pending[b.producerId]? with
    | none => simp
    | some first =>
      rw [mem_singleton]
      constructor
      · rintro rfl
        exact ⟨hb, rfl, rfl, rfl⟩
      · rintro ⟨-, hfirst, hlast, hpid⟩
        cases hfirst
        rw [hlast, hpid]
  · simp [hb]

lemma isAborted_snoc (hl : Laid 0 (h ++ [b])) (ht : log.tracked = trackOf h) :
    IsAborted (h ++ [b]) e ↔ IsAborted h e ∨ e ∈ log.abortedBy b := by
  have hh := (laid_append.mp hl).1
  have hne : ∀ {m}, m ∈ h → m ≠ b := by
    rintro m hm rfl
    exact absurd (base_lt_of_snoc hl hm) (lt_irrefl _)
  rw [mem_abortedBy, ht, pending_eq_some_iff hh]
  constructor
  · rintro ⟨m, hm, hab, hlast, hpid, ⟨d, -, hd, hstart⟩, hleast⟩
    rcases (ends_snoc hl).mp hd with hd | ⟨rfl, hcontrol, hopen⟩
    · refine .inl ⟨m, hd.marker, hab, hlast, hpid, ⟨d, hd.data, hd, hstart⟩, fun d' hd' hends => ?_⟩
      exact hleast d' (mem_append_left _ hd') ((ends_snoc hl).mpr (.inl hends))
    · refine .inr ⟨hab, ⟨⟨d, hopen, hstart⟩, fun d' hopen' => ?_⟩, hlast, hpid⟩
      exact hleast d' (mem_append_left _ hopen'.data) ((ends_snoc hl).mpr (.inr ⟨rfl, hcontrol, hopen'⟩))
  · rintro (⟨m, hm, hab, hlast, hpid, ⟨d, hdh, hd, hstart⟩, hleast⟩ |
      ⟨hab, ⟨⟨d, hopen, hstart⟩, hleast⟩, hlast, hpid⟩)
    · refine ⟨m, mem_append_left _ hm, hab, hlast, hpid,
        ⟨d, mem_append_left _ hdh, (ends_snoc hl).mpr (.inl hd), hstart⟩, fun d' _ hends => ?_⟩
      rcases (ends_snoc hl).mp hends with hends | ⟨heq, -⟩
      · exact hleast d' hends.data hends
      · exact absurd heq (hne hm)
    · refine ⟨b, mem_append_cons_self, hab, hlast, hpid,
        ⟨d, mem_append_left _ hopen.data, (ends_snoc hl).mpr (.inr ⟨rfl, control_of_aborts hab, hopen⟩), hstart⟩,
        fun d' _ hends => ?_⟩
      rcases (ends_snoc hl).mp hends with hends | ⟨-, -, hopen'⟩
      · exact absurd rfl (hne hends.marker)
      · exact hleast d' hopen'

/-! ## The invariant -/

/-- The index of the active segment has the aborted transactions with their marker in it, and none is open below the
last stable offset. -/
structure Indexed (log : PartitionLog) : Prop extends InStep log where
  index : ∀ e, e ∈ log.active.txnIndex ↔ IsAborted log.batches e ∧ log.active.base ≤ e.lastOffset
  lsoLe : log.lso ≤ log.logEndOffset
  lsoPending : ∀ (pid : ℤ) o, log.tracked.pending[pid]? = some o → log.lso ≤ o

lemma indexed_empty : ({} : PartitionLog).Indexed where
  toInStep := inStep_empty
  index := fun e => by
    constructor
    · exact nofun
    · rintro ⟨⟨m, hm, -⟩, -⟩
      cases hm
  lsoLe := le_rfl
  lsoPending := nofun

lemma Indexed.roll (hi : log.Indexed) : log.roll.Indexed where
  toInStep := hi.toInStep.roll
  index := fun e => by
    rw [batches_roll]
    constructor
    · exact nofun
    · rintro ⟨hab, hle⟩
      have hlt := hab.last_lt hi.layout.laid
      rw [← hi.layout.logEndOffset_eq] at hlt
      exact absurd hle (not_le.mpr hlt)
  lsoLe := by
    rw [logEndOffset_roll]
    exact hi.lsoLe
  lsoPending := hi.lsoPending

lemma Indexed.write (hi : log.Indexed) (hb : b.baseOffset = log.logEndOffset) :
    (log.write b (log.tracked.note b)).Indexed := by
  have hstep := hi.toInStep.write hb
  have hbs := batches_write log b (log.tracked.note b)
  have hlast := b.base_le_last
  have hbase : log.active.base ≤ b.baseOffset := by
    rw [hb, logEndOffset_active]
    exact hi.layout.active_laid.start_le_endOf
  refine { toInStep := hstep, index := fun e => ?_, lsoLe := ?_, lsoPending := fun pid o ho => ?_ }
  · show e ∈ log.active.txnIndex ++ log.abortedBy b ↔ _ ∧ log.active.base ≤ e.lastOffset
    rw [hbs, mem_append, hi.index, isAborted_snoc (hbs ▸ hstep.layout.laid) hi.tracked, or_and_right]
    refine or_congr_right ⟨fun he => ⟨he, ?_⟩, fun he => he.1⟩
    rw [← (mem_abortedBy.mp he).2.2.1]
    exact hbase.trans hlast
  · rw [logEndOffset_write]
    show log.advanceLso _ _ _ ≤ _
    have := hi.lsoLe
    unfold advanceLso
    split
    · omega
    · split <;> omega
  · show log.advanceLso _ _ _ ≤ o
    change (log.tracked.note b).pending[pid]? = some o at ho
    unfold advanceLso
    split
    · rcases pending_note ho with hold | ⟨-, rfl, -⟩
      · exact hi.lsoPending pid o hold
      · rw [hb]
        exact hi.lsoLe
    · rename_i htxn
      split_ifs with hempty
      · rw [isEmpty_iff_forall.mp hempty pid] at ho
        cases ho
      · rcases pending_note ho with hold | ⟨hin, -⟩
        · exact hi.lsoPending pid o hold
        · exact absurd hin htxn

lemma Indexed.append (hi : log.Indexed) (cfg : LogConfig) (b : Batch) : (log.append cfg b).Indexed := by
  unfold PartitionLog.append rollIfFull
  split
  · exact hi.roll.write rfl
  · exact hi.write rfl

lemma stableOffset_le {t : Tracked} {logEnd : ℤ} (ho : t.pending[pid]? = some o) : stableOffset t logEnd ≤ o := by
  have hmem : o ∈ t.pending.toList.map Prod.snd :=
    mem_map.mpr ⟨(pid, o), (mem_toList _).mpr ho, rfl⟩
  unfold stableOffset
  cases hmin : (t.pending.toList.map Prod.snd).min? with
  | none =>
    rw [List.min?_eq_none_iff.mp hmin] at hmem
    cases hmem
  | some x => exact (List.min?_eq_some_iff.mp hmin).2 o hmem

lemma stableOffset_le_logEnd {t : Tracked} {logEnd : ℤ}
    (hbelow : ∀ (pid : ℤ) o, t.pending[pid]? = some o → o < logEnd) :
    stableOffset t logEnd ≤ logEnd := by
  unfold stableOffset
  cases hmin : (t.pending.toList.map Prod.snd).min? with
  | none => exact le_rfl
  | some x =>
    obtain ⟨⟨pid, o⟩, hmem, rfl⟩ := mem_map.mp (List.min?_eq_some_iff.mp hmin).1
    exact (hbelow pid o ((mem_toList _).mp hmem)).le

lemma Indexed.reopen (hi : log.Indexed) (hregular : ∀ b ∈ log.batches, b.Regular)
    (hfits : ∀ b ∈ log.batches, Fits cfg b) : ∃ log', log.reopen cfg = .ok log' ∧ log'.Indexed := by
  have hsame := hi.toInStep.reopen hregular hfits (fun _ => true) (.inr rfl)
  rw [withSnapshots_true] at hsame
  refine ⟨_, hsame, ?_⟩
  exact
    { layout := hi.layout
      snapshots := ⟨hi.snapshots.nonneg, hi.snapshots.right⟩
      snapshotsLe := hi.snapshotsLe
      anchored := hi.anchored
      tracked := hi.tracked
      below := hi.below
      epochs := hi.epochs
      index := hi.index
      lsoLe := stableOffset_le_logEnd hi.below
      lsoPending := fun _ _ ho => stableOffset_le ho }

/-! ## Runs -/

/-- The condition under which reopening restores the open transactions. -/
def Recovers (cfg : LogConfig) (log : PartitionLog) : LogStep → Prop
  | .reopen => ∀ b ∈ log.batches, b.Regular ∧ Fits cfg b
  | _ => True

instance (cfg : LogConfig) (log : PartitionLog) (l : LogStep) : Decidable (Recovers cfg log l) :=
  match l with
  | .append _ | .appendVerbatim _ | .reopen => by unfold Recovers; infer_instance

/-- Every step keeps each abort in the index of the segment of its marker. -/
lemma Indexed.step (hi : log.Indexed) {l : LogStep} (hen : (sys cfg).enabled log l)
    (hok : Recovers cfg log l) : ((sys cfg).next log l).Indexed := by
  match l, hen, hok with
  | .append b, _, _ => exact hi.append cfg b
  | .appendVerbatim b, hen, _ =>
    show (log.appendVerbatim cfg b).Indexed
    rw [appendVerbatim_eq_append hen]
    exact hi.append cfg b
  | .reopen, _, hok =>
    obtain ⟨log', hreopen, hi'⟩ := hi.reopen (fun b hb => (hok b hb).1) fun b hb => (hok b hb).2
    show ((log.reopen cfg).toOption.getD log).Indexed
    rwa [hreopen]

lemma indexed_of_run (hrun : (sys cfg).Run (Recovers cfg) {} log) : log.Indexed :=
  hrun.preserves (fun _ _ hi hen hok => hi.step hen hok) indexed_empty

/-! ## What a reader sees -/

section reader
variable {start stop : ℤ}

def ListsAborted (log : PartitionLog) (start stop : ℤ) : Prop :=
  ∀ e, IsAborted log.batches e → HasDataIn log.batches e start stop → e ∈ log.abortedInRange start stop

/-- A consumer that drops what is listed is left with the committed data of the range. -/
def ReadsCommitted (log : PartitionLog) (start stop : ℤ) : Prop :=
  ∀ b ∈ log.batches, b.control = none → start ≤ b.lastOffset → b.baseOffset < stop →
    (¬ Dropped (log.abortedInRange start stop) b ↔ Committed log.batches b)

lemma mem_abortedInRange : e ∈ log.abortedInRange start stop ↔
    e ∈ log.active.txnIndex ∧ e.startOffset < stop ∧ start ≤ e.lastOffset := by
  unfold abortedInRange TxnIndex.abortedInRange
  rw [mem_filter]
  simp

lemma overlaps_of_hasDataIn (hl : Laid 0 h) (he : IsAborted h e) (hdata : HasDataIn h e start stop) :
    e.startOffset < stop ∧ start ≤ e.lastOffset := by
  obtain ⟨m, hm, -, hlast, -, -, hleast⟩ := he
  obtain ⟨m', hm', hlast', d, hd, hends, hstart, hstop⟩ := hdata
  have hmm : m = m' := by
    rcases hl.eq_or_lt hm hm' with heq | hlt | hlt
    · exact heq
    · have := m'.base_le_last
      omega
    · have := m.base_le_last
      omega
  subst hmm
  refine ⟨(hleast d hd hends).trans_lt hstop, ?_⟩
  rcases hl.eq_or_lt hd hm with rfl | hlt | hlt
  · exact absurd hends.after (lt_irrefl _)
  · have := m.base_le_last
    omega
  · have := hends.after
    have := m.base_le_last
    omega

lemma exists_isAborted (hends : Ends h b m) (hab : m.aborts) :
    ∃ e, IsAborted h e ∧ e.producerId = b.producerId ∧ e.startOffset ≤ b.baseOffset ∧
      m.lastOffset = e.lastOffset := by
  obtain ⟨d, hd, hmin⟩ := Finset.exists_min_image (h.toFinset.filter fun d => Ends h d m)
    Batch.baseOffset ⟨b, by simpa using ⟨hends.data, hends⟩⟩
  simp only [Finset.mem_filter, mem_toFinset] at hd hmin
  exact ⟨⟨d.baseOffset, m.lastOffset, m.producerId⟩,
    ⟨m, hends.marker, hab, rfl, rfl, ⟨d, hd.1, hd.2, rfl⟩, fun d' hd' he => hmin d' ⟨hd', he⟩⟩,
    hends.producer, hmin b ⟨hends.data, hends⟩, rfl⟩

section
variable (hi : log.Indexed)
include hi

lemma Indexed.exists_ends (hb : b ∈ log.batches) (htxn : b.inTransaction)
    (hlt : b.baseOffset < log.lso) : ∃ m, Ends log.batches b m := by
  have hl := hi.layout.laid
  refine (openIn_or_ends hl hb htxn).resolve_left fun hopen => ?_
  have hspec := firstOpen_pending hl b.producerId
  cases hp : (trackOf log.batches).pending[b.producerId]? with
  | none =>
    rw [hp] at hspec
    exact hspec b hopen
  | some o =>
    rw [hp] at hspec
    have hle := hspec.2 b hopen
    have hlso := hi.lsoPending b.producerId o (hi.tracked ▸ hp)
    omega

lemma Indexed.isAborted (he : e ∈ log.abortedInRange start stop) :
    IsAborted log.batches e := ((hi.index e).mp (mem_abortedInRange.mp he).1).1

lemma Indexed.not_committed (hb : b ∈ log.batches)
    (hdrop : Dropped (log.abortedInRange start stop) b) : ¬ Committed log.batches b := by
  have hl := hi.layout.laid
  obtain ⟨htxn, e, he, hpid, hstart, hlast⟩ := hdrop
  obtain ⟨m, -, hab, hmlast, hmpid, ⟨d, -, hd, hdstart⟩, -⟩ := hi.isAborted he
  have hends : Ends log.batches b m :=
    hd.of_between hl hb htxn (hpid.symm.trans hmpid.symm) (hdstart ▸ hstart) (hmlast ▸ hlast)
  intro hcommitted
  obtain ⟨m', hends', hno⟩ := hcommitted htxn
  rw [hends'.unique hl hends, hab] at hno
  cases hno

lemma Indexed.readsCommitted (hstop : stop ≤ log.lso)
    (hlists : log.ListsAborted start stop) : log.ReadsCommitted start stop := by
  intro b hb _ hstart hlt
  constructor
  · intro hkept htxn
    obtain ⟨m, hends⟩ := hi.exists_ends hb htxn (hlt.trans_le hstop)
    refine ⟨m, hends, ?_⟩
    by_contra hab
    obtain ⟨e, he, hpid, hfirst, hlast⟩ := exists_isAborted hends (by simpa using hab)
    have hin := hlists e he ⟨m, hends.marker, hlast, b, hb, hends, hstart, hlt⟩
    have hle := hends.after.le.trans m.base_le_last
    exact hkept ⟨htxn, e, hin, hpid, hfirst, hlast ▸ hle⟩
  · exact fun hcommitted hdrop => hi.not_committed hb hdrop hcommitted

lemma Indexed.listsAborted_iff : log.ListsAborted start stop ↔
    ∀ e, IsAborted log.batches e → HasDataIn log.batches e start stop → log.active.base ≤ e.lastOffset := by
  constructor
  · intro hlists e he hdata
    exact ((hi.index e).mp (mem_abortedInRange.mp (hlists e he hdata)).1).2
  · intro hactive e he hdata
    exact mem_abortedInRange.mpr ⟨(hi.index e).mpr ⟨he, hactive e he hdata⟩,
      overlaps_of_hasDataIn hi.layout.laid he hdata⟩

end
end reader

/-- **The aborted transactions of a range.** In every state of a run whose reopenings restore the open
transactions, and for every range below the last stable offset: only aborted transactions are listed,
and all of those with data in the range are, with the reader seeing exactly what is committed, exactly
when their markers lie in the active segment. -/
theorem abortedInRange_complete_iff (hrun : (sys cfg).Run (Recovers cfg) {} log) {start stop : ℤ}
    (hstop : stop ≤ log.lso) :
    (∀ e ∈ log.abortedInRange start stop, IsAborted log.batches e) ∧
      (log.ListsAborted start stop ∧ log.ReadsCommitted start stop ↔
        ∀ e, IsAborted log.batches e → HasDataIn log.batches e start stop → log.active.base ≤ e.lastOffset) := by
  have hi := indexed_of_run hrun
  refine ⟨fun e he => hi.isAborted he, ?_⟩
  rw [← hi.listsAborted_iff]
  exact ⟨fun hboth => hboth.1, fun hlists => ⟨hlists, hi.readsCommitted hstop hlists⟩⟩

/-- An aborted transaction over two segments, reopened in between. -/
def abortedAcrossRoll : List LogStep :=
  [.append (txnBatch 1), .appendVerbatim (txnBatch 1), .reopen, .append (txnBatch 2),
    .append (marker 1 0), .append (marker 2 1)]

theorem abortedInRange_complete_acrossRoll :
    let log := (sys smallSegments).execs {} abortedAcrossRoll
    (∀ e ∈ log.abortedInRange 0 4, IsAborted log.batches e) ∧
      (log.ListsAborted 0 4 ∧ log.ReadsCommitted 0 4 ↔
        ∀ e, IsAborted log.batches e → HasDataIn log.batches e 0 4 → log.active.base ≤ e.lastOffset) :=
  abortedInRange_complete_iff (Sys.run_of_runsOk (by decide +kernel)) (by decide +kernel)

/-- The append after an abort rolls the segment. The aborted transaction is below the last stable
offset, and is not listed any more. -/
theorem abortedInRange_forgets :
    let log := (sys smallSegments).execs {}
      [.append (txnBatch 1), .append (marker 1 0), .append (txnBatch 2)]
    (sys smallSegments).AnyRun {} log ∧ log.lso = 2 ∧ IsAborted log.batches ⟨0, 1, 1⟩ ∧
      HasDataIn log.batches ⟨0, 1, 1⟩ 0 2 ∧ log.abortedInRange 0 2 = [] :=
  ⟨Sys.run_of_runs, by decide +kernel⟩

end PartitionLog
end Crabka.Log
