import Crabka.Gres.Tso.OracleRuns

/-!
# The hybrid logical clock

`crates/pgexec/src/hlc.rs` beyond the batches of `Oracle`: `now` and `observe`. Away from the top of the stamp space all
three calls start above the last stamp (`advanceLocal_eq`, `receive_eq`); at the top `pack` masks the physical
component, and the next stamp is 0.
-/

namespace Crabka.Gres.Tso
open Found List

structure Hlc where
  physicalMs : ℕ
  logical : ℕ
  deriving DecidableEq

def unpack (packed : ℕ) : Hlc := ⟨packed >>> logicalBits, packed &&& maxLogical⟩

def bumpLogical (packed : ℕ) : ℕ :=
  let hlc := unpack packed
  if hlc.logical < maxLogical then pack hlc.physicalMs (hlc.logical + 1) else pack (hlc.physicalMs + 1) 0

def advanceLocal (last wallMs : ℕ) : ℕ :=
  if wallMs > last >>> logicalBits then pack wallMs 0 else bumpLogical last

def receive (last remote wallMs : ℕ) : ℕ :=
  let last := unpack last
  let remote := unpack remote
  let physical := max (max last.physicalMs remote.physicalMs) wallMs
  let logical :=
    if physical = last.physicalMs ∧ physical = remote.physicalMs then max last.logical remote.logical + 1
    else if physical = last.physicalMs then last.logical + 1
    else if physical = remote.physicalMs then remote.logical + 1
    else 0
  if logical > maxLogical then pack (physical + 1) 0 else pack physical logical

/-- What a call took in or gave out. -/
inductive Stamped where
  | observed (stamp : ℕ)
  /-- A run of stamps, with the number that was asked for. -/
  | issued (count first last : ℕ)
  deriving DecidableEq

namespace Stamped

def top : Stamped → ℕ
  | observed stamp => stamp
  | issued _ _ last => last

/-- Nothing is issued that is not above. -/
def below (a : Stamped) : Stamped → Bool
  | observed _ => true
  | issued _ first _ => a.top < first

/-- As many stamps as asked for, all of them `u64`. -/
def fits : Stamped → Bool
  | observed stamp => stamp ≤ u64Max
  | issued count first last => first + count = last + 1 ∧ last ≤ u64Max

end Stamped

/-- `HybridLogicalClock`, with the history of its calls; the seed counts as observed. -/
structure Clock where
  last : ℕ
  history : List Stamped

def Clock.seededAt (packed : ℕ) : Clock := ⟨packed, [.observed packed]⟩

/-- The calls that move the clock. -/
inductive ClockCall where
  | now (wallMs : ℕ)
  | observe (remote wallMs : ℕ)
  | allocateBatch (count wallMs : ℕ)

def Clock.call (c : Clock) : ClockCall → Clock
  | .now wallMs =>
    let stamp := advanceLocal c.last (min wallMs maxPhysicalMs)
    ⟨stamp, c.history ++ [.issued 1 stamp stamp]⟩
  | .observe remote wallMs =>
    let stamp := receive c.last remote (min wallMs maxPhysicalMs)
    ⟨stamp, c.history ++ [.observed remote] ++ [.issued 1 stamp stamp]⟩
  | .allocateBatch count wallMs => match Tso.allocateBatch c.last count wallMs with
    | none => c
    | some (first, last) => ⟨last, c.history ++ [.issued count first last]⟩

/-- The arguments are `u64`, and a count is not zero. -/
def ClockCall.typed : ClockCall → Bool
  | .now _ => true
  | .observe remote _ => remote ≤ u64Max
  | .allocateBatch count _ => 0 < count ∧ count ≤ u64Max

def clockSys : Sys Clock ClockCall := ⟨fun _ l => l.typed = true, Clock.call⟩

instance (c : Clock) (l : ClockCall) : Decidable (clockSys.enabled c l) := instDecidableEqBool _ _

/-- A send or a receive does not start from the last stamp of all. -/
def Clock.hasNext (c : Clock) : ClockCall → Bool
  | .now _ => c.last < u64Max
  | .observe remote _ => max c.last remote < u64Max
  | .allocateBatch _ _ => true

/-- Every stamp is above all that was issued or observed before it. -/
structure Clock.Sound (c : Clock) : Prop where
  advancing : c.history.Pairwise (·.below ·)
  fits : ∀ a ∈ c.history, a.fits = true
  seeded : c.history ≠ []
  covered : ∀ a ∈ c.history, a.top ≤ c.last
  bounded : c.last ≤ u64Max

/-! ## Packed stamps -/

lemma pack_eq (physicalMs logical : ℕ) :
    pack physicalMs logical = physicalMs % 2 ^ 42 * 2 ^ 22 + logical % 2 ^ 22 := by
  unfold pack maxPhysicalMs maxLogical logicalBits
  rw [Nat.and_two_pow_sub_one_eq_mod, Nat.and_two_pow_sub_one_eq_mod,
    ← Nat.shiftLeft_add_eq_or_of_lt (Nat.mod_lt _ (by decide)), Nat.shiftLeft_eq]

lemma unpack_eq (packed : ℕ) : unpack packed = ⟨packed / 2 ^ 22, packed % 2 ^ 22⟩ := by
  unfold unpack logicalBits maxLogical
  rw [Nat.shiftRight_eq_div_pow, Nat.and_two_pow_sub_one_eq_mod]

lemma pack_of_le {physicalMs logical : ℕ} (hp : physicalMs ≤ maxPhysicalMs) (hl : logical ≤ maxLogical) :
    pack physicalMs logical = physicalMs * 2 ^ 22 + logical := by
  unfold maxPhysicalMs at hp
  unfold maxLogical at hl
  rw [pack_eq, Nat.mod_eq_of_lt (by omega), Nat.mod_eq_of_lt (by omega)]

lemma pack_unpack {packed : ℕ} (h : packed ≤ u64Max) :
    pack (unpack packed).physicalMs (unpack packed).logical = packed := by
  unfold u64Max at h
  simp only [pack_eq, unpack_eq]
  omega

lemma unpack_pack {physicalMs logical : ℕ} (hp : physicalMs ≤ maxPhysicalMs) (hl : logical ≤ maxLogical) :
    unpack (pack physicalMs logical) = ⟨physicalMs, logical⟩ := by
  rw [pack_of_le hp hl, unpack_eq, Hlc.mk.injEq]
  unfold maxLogical at hl
  omega

lemma pack_succ {physicalMs logical : ℕ} (hp : physicalMs ≤ maxPhysicalMs) (hl : logical ≤ maxLogical) :
    (if logical + 1 > maxLogical then pack (physicalMs + 1) 0 else pack physicalMs (logical + 1)) =
      if physicalMs * 2 ^ 22 + logical < u64Max then physicalMs * 2 ^ 22 + logical + 1 else 0 := by
  simp only [pack_eq]
  unfold maxPhysicalMs at hp
  unfold maxLogical at *
  unfold u64Max
  split_ifs <;> omega

variable {last remote wallMs : ℕ} (hw : wallMs ≤ maxPhysicalMs) (hlast : last ≤ u64Max)
include hw hlast

lemma advanceLocal_eq : advanceLocal last wallMs = if last < u64Max then max (last + 1) (pack wallMs 0) else 0 := by
  have hsucc := @pack_succ (last / 2 ^ 22) (last % 2 ^ 22)
  simp only [pack_of_le hw (Nat.zero_le _), advanceLocal, bumpLogical, unpack_eq, logicalBits,
    Nat.shiftRight_eq_div_pow]
  unfold maxPhysicalMs maxLogical u64Max at *
  split_ifs at hsucc ⊢ <;> omega

lemma receive_eq (hremote : remote ≤ u64Max) :
    receive last remote wallMs =
      if max last remote < u64Max then max (max last remote + 1) (pack wallMs 0) else 0 := by
  -- Where the greatest physical component is one of the two stamps', the greater stamp is followed by the next.
  have hnext : ∀ p l, p ≤ maxPhysicalMs → l ≤ maxLogical → p * 2 ^ 22 + l = max last remote → wallMs ≤ p →
      (if l + 1 > maxLogical then pack (p + 1) 0 else pack p (l + 1)) =
        if max last remote < u64Max then max (max last remote + 1) (wallMs * 2 ^ 22) else 0 := by
    intro p l hp hl heq hle
    rw [pack_succ hp hl, heq, max_eq_left (by omega : wallMs * 2 ^ 22 ≤ max last remote + 1)]
  simp only [receive, unpack_eq, pack_of_le hw (Nat.zero_le _), add_zero]
  generalize hp : max (max (last / 2 ^ 22) (remote / 2 ^ 22)) wallMs = p
  generalize hlogical : (if p = last / 2 ^ 22 ∧ p = remote / 2 ^ 22 then _ else _ : ℕ) = logical
  unfold u64Max at hlast hremote
  unfold maxPhysicalMs maxLogical at *
  split_ifs at hlogical with hboth hl hr <;> subst hlogical
  · exact hnext _ _ (by omega) (by omega) (by omega) (by omega)
  · exact hnext _ _ (by omega) (by omega) (by omega) (by omega)
  · exact hnext _ _ (by omega) (by omega) (by omega) (by omega)
  · obtain rfl : wallMs = p := by omega
    rw [if_neg (Nat.not_lt_zero _), pack_of_le hw (Nat.zero_le _), if_pos (by unfold u64Max; omega)]
    omega

omit hw hlast

/-! ## Runs -/

namespace Clock.Sound
variable {c : Clock} (h : c.Sound)
include h

lemma append {a : Stamped} {last : ℕ} (hbelow : ∀ b ∈ c.history, b.below a) (hfits : a.fits)
    (hle : c.last ≤ last) (htop : a.top ≤ last) (hlast : last ≤ u64Max) :
    Clock.Sound ⟨last, c.history ++ [a]⟩ where
  advancing := pairwise_append.mpr ⟨h.advancing, pairwise_singleton _ _, by simpa using hbelow⟩
  fits := forall_mem_append.mpr ⟨h.fits, by simpa using hfits⟩
  seeded := by simp
  covered := forall_mem_append.mpr ⟨fun b hb => (h.covered b hb).trans hle, by simpa using htop⟩
  bounded := hlast

lemma issue {count first last : ℕ} (hlt : c.last < first) (hcount : first + count = last + 1) (hpos : 0 < count)
    (hlast : last ≤ u64Max) : Clock.Sound ⟨last, c.history ++ [.issued count first last]⟩ :=
  h.append (fun b hb => decide_eq_true ((h.covered b hb).trans_lt hlt)) (decide_eq_true ⟨hcount, hlast⟩) (by omega)
    le_rfl hlast

lemma not_zero {last : ℕ} (l : List Stamped) : ¬ Clock.Sound ⟨last, c.history ++ l ++ [.issued 1 0 0]⟩ := by
  intro h'
  obtain ⟨a, ha⟩ := exists_mem_of_ne_nil _ h.seeded
  have hlt := (pairwise_append.mp h'.advancing).2.2 a (mem_append_left _ ha) _ mem_cons_self
  simp [Stamped.below] at hlt

lemma call_iff {l : ClockCall} (hl : l.typed) : (c.call l).Sound ↔ c.hasNext l = true := by
  cases l with
  | now wallMs =>
    simp only [call, hasNext, advanceLocal_eq (min_le_right _ _) h.bounded, decide_eq_true_eq]
    split_ifs with hlt
    · exact iff_of_true (h.issue (Nat.lt_of_succ_le (le_max_left _ _)) rfl one_pos (max_le hlt (pack_le _ _))) hlt
    · exact iff_of_false (by simpa using h.not_zero []) hlt
  | observe remote wallMs =>
    replace hl : remote ≤ u64Max := of_decide_eq_true hl
    simp only [call, hasNext, receive_eq (min_le_right _ _) h.bounded hl, decide_eq_true_eq]
    split_ifs with hlt
    · have h' : Clock.Sound ⟨max c.last remote, c.history ++ [.observed remote]⟩ :=
        h.append (fun _ _ => rfl) (decide_eq_true hl) (le_max_left _ _) (le_max_right _ _) (max_le h.bounded hl)
      exact iff_of_true (h'.issue (Nat.lt_of_succ_le (le_max_left _ _)) rfl one_pos (max_le hlt (pack_le _ _))) hlt
    · exact iff_of_false (h.not_zero [.observed remote]) hlt
  | allocateBatch count wallMs =>
    obtain ⟨hpos, hmax⟩ : 0 < count ∧ count ≤ u64Max := of_decide_eq_true hl
    refine iff_of_true ?_ rfl
    simp only [call]
    split
    · exact h
    · rename_i first last heq
      obtain ⟨hlt, hlast, hle⟩ := allocateBatch_eq_some hpos hmax heq
      exact h.issue hlt (by omega) hpos hle

end Clock.Sound

/-- **Stamps advance.** In a run whose sends and receives never start from the last stamp of all, every stamp is
above all that was issued or observed before it, and runs of stamps are as long as asked for; the next call
keeps this exactly if it does not start from there either. Packing and unpacking are inverse. -/
theorem stamps_advance {seed : ℕ} (hseed : seed ≤ u64Max) {c : Clock}
    (hrun : clockSys.Run (·.hasNext ·) (.seededAt seed) c) :
    c.Sound ∧ (∀ l : ClockCall, l.typed = true → ((c.call l).Sound ↔ c.hasNext l = true)) ∧
      (∀ packed ≤ u64Max, pack (unpack packed).physicalMs (unpack packed).logical = packed) ∧
      ∀ physicalMs ≤ maxPhysicalMs, ∀ logical ≤ maxLogical,
        unpack (pack physicalMs logical) = ⟨physicalMs, logical⟩ := by
  have hstart : (Clock.seededAt seed).Sound :=
    ⟨pairwise_singleton _ _, by simpa [Clock.seededAt, Stamped.fits], by simp [Clock.seededAt],
      by simp [Clock.seededAt, Stamped.top], hseed⟩
  have h : c.Sound := hrun.preserves (fun _ l hP hen hok => (hP.call_iff hen).mpr hok) hstart
  exact ⟨h, fun l hl => h.call_iff hl, fun _ => pack_unpack, fun _ hp _ hl => unpack_pack hp hl⟩

/-- A batch, a send against a clock that went back, and a remote stamp from the next millisecond. -/
def threeCalls : List ClockCall := [.allocateBatch 3 1, .now 0, .observe (pack 2 7) 1]

theorem stamps_advance_threeCalls :
    (clockSys.execs (.seededAt 0) threeCalls).history =
        [.observed 0, .issued 3 (pack 1 0) (pack 1 2), .issued 1 (pack 1 3) (pack 1 3), .observed (pack 2 7),
          .issued 1 (pack 2 8) (pack 2 8)] ∧
      (clockSys.execs (.seededAt 0) threeCalls).Sound :=
  ⟨by decide +kernel, (stamps_advance (Nat.zero_le _) Sys.run_of_runsOk).1⟩

/-- The greatest stamp is observed; the clock goes back to 0. -/
theorem observe_wraps :
    let c := clockSys.execs (.seededAt 5) [.observe u64Max 0]
    clockSys.AnyRun (.seededAt 5) c ∧ c.last = 0 ∧ ¬c.history.Pairwise (·.below ·) :=
  ⟨Sys.run_of_runs, by decide +kernel⟩

end Crabka.Gres.Tso
