import Crabka.Gres.Tso.Oracle

/-!
# No timestamp is granted twice

Every run that a generation reserves lies above the horizon that it recovered from. It is handed out only once a horizon
at or above it was durable, and such a horizon is at most what a later generation recovers from (`Bounded`). Within a
generation each reservation starts above all earlier ones.
-/

namespace Crabka.Gres.Tso
open Found Option Function List Nat GrantTask

/-! ## Runs of a reservation -/

def Reservation.top : Reservation → ℕ
  | .logical nextTs => nextTs - 1
  | .wallAnchored last => last

/-- What is known of the state of a reservation. -/
def Reservation.Sound (r : Reservation) : Prop :=
  match r with
  | .logical nextTs => 0 < nextTs ∧ nextTs ≤ u64Max
  | .wallAnchored last => last ≤ u64Max

variable {r : Reservation}

lemma Reservation.Sound.top_le (h : r.Sound) : r.top ≤ u64Max := by
  cases r with
  | logical nextTs => exact (sub_le _ _).trans h.2
  | wallAnchored last => exact h

variable {last count wallMs first : ℕ}

lemma allocateBatch_eq_some {newLast : ℕ} (hcount : 0 < count) (hmax : count ≤ u64Max)
    (h : allocateBatch last count wallMs = some (first, newLast)) :
    last < first ∧ newLast = first + (count - 1) ∧ newLast ≤ u64Max := by
  unfold allocateBatch at h
  rw [wrappingSub_eq hcount hmax] at h
  obtain ⟨next, hnext, h⟩ := bind_eq_some_iff.mp h
  obtain ⟨sum, hsum, h⟩ := bind_eq_some_iff.mp h
  obtain ⟨rfl, rfl⟩ := Prod.mk.inj (some.inj h)
  obtain ⟨rfl, -⟩ := checkedAdd_eq_some hnext
  obtain ⟨rfl, hle⟩ := checkedAdd_eq_some hsum
  exact ⟨lt_of_lt_of_le (lt_succ_self last) (le_max_left _ _), rfl, hle⟩

/-- A run starts above everything that was reserved before, has `count` timestamps, and does not wrap
around. -/
lemma Reservation.reserve_eq_some {r' : Reservation} (hr : r.Sound) (hcount : 0 < count)
    (hmax : count ≤ u64Max) (h : r.reserve count wallMs = some (first, last, r')) :
    r.top < first ∧ last = first + (count - 1) ∧ last ≤ r'.top ∧ r'.Sound := by
  unfold Reservation.reserve at h
  simp only [Option.bind_eq_bind, Option.pure_def, wrappingSub_eq hcount hmax] at h
  cases r with
  | logical nextTs =>
    obtain ⟨last', hlast, h⟩ := bind_eq_some_iff.mp h
    obtain ⟨next, hnext, h⟩ := bind_eq_some_iff.mp h
    obtain ⟨rfl, rfl, rfl⟩ := h
    obtain ⟨rfl, -⟩ := checkedAdd_eq_some hlast
    obtain ⟨rfl, hle⟩ := checkedAdd_eq_some hnext
    obtain ⟨hpos, -⟩ := hr
    refine ⟨sub_lt hpos one_pos, rfl, ?_, succ_pos _, hle⟩
    exact le_refl _
  | wallAnchored last₀ =>
    obtain ⟨⟨first', newLast⟩, hbatch, h⟩ := bind_eq_some_iff.mp h
    obtain ⟨runLast, hrun, h⟩ := bind_eq_some_iff.mp h
    obtain ⟨rfl, rfl, rfl⟩ := h
    obtain ⟨hlt, hnew, hle⟩ := allocateBatch_eq_some hcount hmax hbatch
    obtain ⟨rfl, -⟩ := checkedAdd_eq_some hrun
    exact ⟨hlt, rfl, hnew.ge, hle⟩

variable {settings : Settings} {nowMs : ℕ} {o : Oracle}

lemma top_of_recover {persisted : ℕ} (hmax : persisted ≤ u64Max)
    (h : Oracle.recover settings persisted nowMs = some o) :
    o.persistedMaxTs = persisted ∧ o.reservation.top = persisted ∧ o.reservation.Sound ∧
      o.durableMaxTs = persisted ∧ o.durableSeen = [persisted] ∧ o.persistStride = settings.stride ∧
      o.settings = settings ∧ o.tasks = fun _ => .idle := by
  obtain ⟨reservation, hres, rfl⟩ := map_eq_some_iff.mp h
  unfold Reservation.recover at hres
  cases hmode : settings.wallAnchored with
  | true =>
    rw [if_pos hmode] at hres
    cases hres
    exact ⟨rfl, rfl, hmax, rfl, rfl, rfl, rfl, rfl⟩
  | false =>
    rw [if_neg (by simp [hmode])] at hres
    obtain ⟨next, hnext, rfl⟩ := map_eq_some_iff.mp hres
    obtain ⟨rfl, hle⟩ := checkedAdd_eq_some hnext
    exact ⟨rfl, rfl, ⟨succ_pos _, hle⟩, rfl, rfl, rfl, rfl, rfl⟩

/-! ## The stride -/

lemma paced_persistStride_pos (h : 0 < o.persistStride) (nowMs : ℕ) : 0 < (o.paced nowMs).persistStride := by
  unfold Oracle.paced
  split
  · exact h
  · dsimp only
    split
    · exact lt_min (lt_min (by omega) (by decide)) o.settings.maxPersistStride_pos
    · split
      · exact lt_of_lt_of_le o.settings.stride_pos (le_max_right _ _)
      · exact h

lemma paced_persistStride_le (h : o.persistStride ≤ u64Max) (nowMs : ℕ) :
    (o.paced nowMs).persistStride ≤ u64Max := by
  unfold Oracle.paced
  split
  · exact h
  · dsimp only
    split
    · exact (min_le_left _ _).trans (min_le_right _ _)
    · split
      · exact max_le ((div_le_self _ _).trans h) o.settings.stride_le
      · exact h

lemma newHorizon_eq_some {maxTs : ℕ} (hlast : last ≤ u64Max)
    (h : o.newHorizon nowMs first last = some maxTs) : last ≤ maxTs ∧ maxTs ≤ u64Max := by
  obtain ⟨strideLast, hstride, rfl⟩ := map_eq_some_iff.mp h
  obtain ⟨hsum, hle⟩ := checkedAdd_eq_some hstride
  exact ⟨le_max_left _ _, max_le hlast (hsum ▸ hle)⟩

lemma paced_fields (o : Oracle) (nowMs : ℕ) :
    (o.paced nowMs).tasks = o.tasks ∧ (o.paced nowMs).persistedMaxTs = o.persistedMaxTs ∧
      (o.paced nowMs).reservation = o.reservation ∧ (o.paced nowMs).durableSeen = o.durableSeen ∧
      (o.paced nowMs).durableMaxTs = o.durableMaxTs := by
  unfold Oracle.paced
  split <;> exact ⟨rfl, rfl, rfl, rfl, rfl⟩

/-! ## What a call knows -/

def GrantTask.count? : GrantTask → Option ℕ
  | .idle => none
  | .waiting count | .checking count | .renewing count | .renewLocked count | .renewHeartbeat count _
  | .reserving count | .reserved count _ _ | .advancing count _ _ | .advanceLocked count _ _
  | .persisting count _ _ _ _ | .persisted count _ _ _ _ | .publishing count _ _ _ _
  | .certifying count _ _ _ | .granting count _ _ => some count

/-- The run that a call has reserved: its count, first and last timestamp. -/
def GrantTask.run : GrantTask → Option (ℕ × ℕ × ℕ)
  | .reserved count first last | .advancing count first last | .advanceLocked count first last
  | .persisting count first last _ _ | .persisted count first last _ _
  | .publishing count first last _ _ | .certifying count first last _ | .granting count first last =>
    some (count, first, last)
  | _ => none

/-- The horizon write of a call, and whether the store has confirmed it. -/
def GrantTask.write? : GrantTask → Option (ℕ × ℕ × Bool)
  | .persisting _ _ last _ n => some (n, last, false)
  | .persisted _ _ last _ n | .publishing _ _ last _ n => some (n, last, true)
  | _ => none

/-- The last timestamp of a run that a durable horizon covers. -/
def GrantTask.covered : GrantTask → Option ℕ
  | .certifying _ _ last _ | .granting _ _ last => some last
  | _ => none

/-- The timestamp `x` of epoch `e` lies at or below the durable horizon and below whatever a later
epoch hands out. -/
def Bounded (w : World) (e x : ℕ) : Prop :=
  x ≤ w.horizon ∧ ∀ e' o', e < e' → w.oracles e' = some o' → x ≤ o'.persistedMaxTs

/-- What a call inside `grant` knows. -/
structure TaskInv (w : World) (e : ℕ) (o : Oracle) (task : GrantTask) : Prop where
  count : ∀ c ∈ task.count?, 0 < c ∧ c ≤ u64Max
  run : ∀ r ∈ task.run, o.persistedMaxTs < r.2.1 ∧ r.2.2 = r.2.1 + (r.1 - 1) ∧ r.2.2 ≤ o.reservation.top
  write : ∀ x ∈ task.write?, ∃ write, w.writes[x.1]? = some write ∧ write.epoch = e ∧
    x.2.1 ≤ write.maxTs ∧ (x.2.2 = true → write.landed = true)
  covered : ∀ last ∈ task.covered, Bounded w e last

def Apart (first last first' last' : ℕ) : Prop := last < first' ∨ last' < first

lemma Apart.symm {a b c d : ℕ} (h : Apart a b c d) : Apart c d a b := h.elim .inr .inl

/-- What holds of one generation: its reservations are sound, bounded by its fence, and those of its calls are apart. -/
structure OracleInv (w : World) (e : ℕ) (o : Oracle) : Prop where
  live : e ≤ w.live
  sound : o.reservation.Sound
  persisted : o.persistedMaxTs ≤ o.reservation.top
  seen : ∀ v ∈ o.durableSeen, v ≤ o.persistedMaxTs ∨ Bounded w e v
  durable : o.durableMaxTs ∈ o.durableSeen
  stride : 0 < o.persistStride ∧ o.persistStride ≤ u64Max
  tasks : ∀ t, TaskInv w e o (o.tasks t)
  apart : ∀ t t' r r', t ≠ t' → (o.tasks t).run = some r → (o.tasks t').run = some r' →
    Apart r.2.1 r.2.2 r'.2.1 r'.2.2

/-- A lease lies between the recovered horizon and the reserved top, and below what is durable. -/
structure GrantInv (w : World) (g : Grant) (o : Oracle) : Prop where
  count : 0 < g.count ∧ g.count ≤ u64Max
  above : o.persistedMaxTs < g.firstTs
  top : g.lastTs ≤ o.reservation.top
  bounded : Bounded w g.epoch g.lastTs
  horizon : g.lastTs ≤ g.horizon
  durable : g.horizon ≤ w.horizon
  apart : ∀ t r, (o.tasks t).run = some r → Apart g.firstTs g.lastTs r.2.1 r.2.2

/-- All generations and all leases, and the horizon writes on their way. -/
structure WorldInv (w : World) : Prop where
  horizon : w.horizon ≤ u64Max
  writes : ∀ write ∈ w.writes, write.maxTs ≤ u64Max ∧ (write.landed = true → Bounded w write.epoch write.maxTs)
  oracles : ∀ e o, w.oracles e = some o → OracleInv w e o
  grants : ∀ g ∈ w.grants, ∃ o, w.oracles g.epoch = some o ∧ GrantInv w g o
  apart : w.grants.Pairwise fun g g' => g.epoch = g'.epoch → Apart g.firstTs g.lastTs g'.firstTs g'.lastTs

variable {w : World} {e t : ℕ} {o o' : Oracle} {k : GrantTask}

/-! ## Frame lemmas -/

@[simp] lemma oracles_setOracle_self (w : World) (e : ℕ) (o : Oracle) :
    (w.setOracle e o).oracles e = some o := update_self ..

lemma oracles_setOracle_of_ne {e' : ℕ} (h : e' ≠ e) (o : Oracle) :
    (w.setOracle e o).oracles e' = w.oracles e' := update_of_ne h ..

variable {w' : World}

lemma Bounded.mono {x : ℕ} (h : Bounded w e x) (hle : w.horizon ≤ w'.horizon)
    (horacles : ∀ e' o', w'.oracles e' = some o' →
      (∃ o, w.oracles e' = some o ∧ o.persistedMaxTs = o'.persistedMaxTs) ∨
        w.horizon ≤ o'.persistedMaxTs) : Bounded w' e x := by
  refine ⟨h.1.trans hle, fun e' o' he ho' => ?_⟩
  obtain ⟨o, ho, hp⟩ | hrec := horacles e' o' ho'
  · exact (h.2 e' o he ho).trans hp.le
  · exact h.1.trans hrec

lemma Bounded.setOracle {x : ℕ} {e₀ : ℕ} (ho : w.oracles e = some o)
    (hp : o'.persistedMaxTs = o.persistedMaxTs) (h : Bounded w e₀ x) :
    Bounded (w.setOracle e o') e₀ x := by
  refine h.mono le_rfl fun e' o'' ho'' => .inl ?_
  obtain rfl | he := eq_or_ne e' e
  · rw [oracles_setOracle_self] at ho''
    cases ho''
    exact ⟨o, ho, hp.symm⟩
  · rw [oracles_setOracle_of_ne he] at ho''
    exact ⟨o'', ho'', rfl⟩

/-- The writes are still there, with the same epoch and horizon. -/
def WritesKept (w w' : World) : Prop :=
  ∀ (n : ℕ) write, w.writes[n]? = some write → ∃ write', w'.writes[n]? = some write' ∧
    write'.epoch = write.epoch ∧ write'.maxTs = write.maxTs ∧ (write.landed → write'.landed)

lemma TaskInv.mono (h : TaskInv w e o k) (hb : ∀ x, Bounded w e x → Bounded w' e x)
    (hw : WritesKept w w') (hp : o'.persistedMaxTs = o.persistedMaxTs)
    (htop : o.reservation.top ≤ o'.reservation.top) :
    TaskInv w' e o' k where
  count := h.count
  run r hr := by
    obtain ⟨h1, h2, h3⟩ := h.run r hr
    exact ⟨hp.trans_lt h1, h2, h3.trans htop⟩
  write x hx := by
    obtain ⟨write, hget, hepoch, hle, hlanded⟩ := h.write x hx
    obtain ⟨write', hget', hepoch', hmax', hlanded'⟩ := hw _ _ hget
    exact ⟨write', hget', hepoch'.trans hepoch, hle.trans hmax'.ge, fun hx => hlanded' (hlanded hx)⟩
  covered last hlast := hb _ (h.covered last hlast)

lemma WritesKept.refl (w : World) : WritesKept w w := fun _ write h => ⟨write, h, rfl, rfl, id⟩

lemma OracleInv.mono (h : OracleInv w e o) (hlive : w.live ≤ w'.live)
    (hb : ∀ x, Bounded w e x → Bounded w' e x) (hw : WritesKept w w') : OracleInv w' e o :=
  { h with
    live := h.live.trans hlive
    seen := fun v hv => (h.seen v hv).imp_right (hb v)
    tasks := fun t => (h.tasks t).mono hb hw rfl le_rfl }

lemma GrantInv.mono {g : Grant} (h : GrantInv w g o) (hb : Bounded w g.epoch g.lastTs → Bounded w' g.epoch g.lastTs)
    (hle : w.horizon ≤ w'.horizon) : GrantInv w' g o :=
  { h with bounded := hb h.bounded, durable := h.durable.trans hle }

section
variable (h : WorldInv w)
include h

/-- One call of one oracle moves on; its run is the old one or lies above all earlier ones. -/
lemma WorldInv.setOracle (ho : w.oracles e = some o)
    (hp : o'.persistedMaxTs = o.persistedMaxTs) (htop : o.reservation.top ≤ o'.reservation.top)
    (hsound : o'.reservation.Sound)
    (hseen : ∀ v ∈ o'.durableSeen, v ≤ o'.persistedMaxTs ∨ Bounded w e v)
    (hdurable : o'.durableMaxTs ∈ o'.durableSeen)
    (hstride : 0 < o'.persistStride ∧ o'.persistStride ≤ u64Max)
    (ht : o'.tasks = Function.update o.tasks t k) (hinv : TaskInv w e o' k)
    (hrun : ∀ r, k.run = some r → (o.tasks t).run = some r ∨ o.reservation.top < r.2.1) :
    WorldInv (w.setOracle e o') := by
  have hb : ∀ {e₀ x}, Bounded w e₀ x → Bounded (w.setOracle e o') e₀ x := Bounded.setOracle ho hp
  have hO := h.oracles e o ho
  have hself : o'.tasks t = k := by rw [ht, update_self]
  have hother : ∀ {t'}, t' ≠ t → o'.tasks t' = o.tasks t' := fun hne => by rw [ht, update_of_ne hne]
  -- The run of the moved call is apart from the run of any other call.
  have happart : ∀ t' r r', t' ≠ t → k.run = some r → (o.tasks t').run = some r' →
      Apart r.2.1 r.2.2 r'.2.1 r'.2.2 := by
    intro t' r r' hne hr hr'
    obtain hold | hnew := hrun r hr
    · exact hO.apart t t' r r' hne.symm hold hr'
    · exact .inr (lt_of_le_of_lt ((hO.tasks t').run r' hr').2.2 hnew)
  constructor
  · exact h.horizon
  · exact fun write hwrite => ⟨(h.writes write hwrite).1, fun hl => hb ((h.writes write hwrite).2 hl)⟩
  · intro e' o'' ho''
    obtain rfl | he := eq_or_ne e' e
    · rw [oracles_setOracle_self] at ho''
      cases ho''
      refine ⟨hO.live, hsound, hp.le.trans (hO.persisted.trans htop), fun v hv => (hseen v hv).imp_right hb,
        hdurable, hstride, fun t' => ?_, fun t₁ t₂ r₁ r₂ hne h₁ h₂ => ?_⟩
      · by_cases htt : t' = t
        · rw [htt, hself]
          exact hinv.mono (fun _ => hb) (.refl w) rfl le_rfl
        · rw [hother htt]
          exact (hO.tasks t').mono (fun _ => hb) (.refl w) hp htop
      · by_cases h₁t : t₁ = t
        · subst h₁t
          rw [hself] at h₁
          rw [hother hne.symm] at h₂
          exact happart t₂ r₁ r₂ hne.symm h₁ h₂
        · rw [hother h₁t] at h₁
          obtain rfl | h₂t := eq_or_ne t₂ t
          · rw [hself] at h₂
            exact (happart t₁ r₂ r₁ hne h₂ h₁).symm
          · rw [hother h₂t] at h₂
            exact hO.apart t₁ t₂ r₁ r₂ hne h₁ h₂
    · rw [oracles_setOracle_of_ne he] at ho''
      exact (h.oracles e' o'' ho'').mono le_rfl (fun _ => hb) (.refl w)
  · intro g hg
    obtain ⟨o₀, ho₀, hG⟩ := h.grants g hg
    by_cases he : g.epoch = e
    · rw [he] at ho₀
      obtain rfl : o = o₀ := some.inj (ho.symm.trans ho₀)
      refine ⟨o', by rw [he, oracles_setOracle_self], hG.count, hp.trans_lt hG.above,
        hG.top.trans htop, hb hG.bounded, hG.horizon, hG.durable, fun t' r hr => ?_⟩
      by_cases htt : t' = t
      · rw [htt, hself] at hr
        obtain hold | hnew := hrun r hr
        · exact hG.apart t r hold
        · exact .inl (lt_of_le_of_lt hG.top hnew)
      · rw [hother htt] at hr
        exact hG.apart t' r hr
    · exact ⟨o₀, by rw [oracles_setOracle_of_ne he]; exact ho₀, hG.mono hb le_rfl⟩
  · exact h.apart

lemma WorldInv.move (ho : w.oracles e = some o)
    (hp : o'.persistedMaxTs = o.persistedMaxTs) (hr : o'.reservation = o.reservation)
    (hs : o'.durableSeen = o.durableSeen) (hd : o'.durableMaxTs = o.durableMaxTs)
    (hstride : 0 < o'.persistStride ∧ o'.persistStride ≤ u64Max)
    (ht : o'.tasks = Function.update o.tasks t k)
    (hcount : ∀ c ∈ k.count?, 0 < c ∧ c ≤ u64Max)
    (hrun : ∀ r ∈ k.run, (o.tasks t).run = some r)
    (hwrite : ∀ x ∈ k.write?, ∃ write, w.writes[x.1]? = some write ∧ write.epoch = e ∧
      x.2.1 ≤ write.maxTs ∧ (x.2.2 → write.landed))
    (hcovered : ∀ last ∈ k.covered, Bounded w e last) : WorldInv (w.setOracle e o') := by
  have hO := h.oracles e o ho
  refine h.setOracle ho hp (hr ▸ le_rfl) (hr ▸ hO.sound) (hs ▸ hp ▸ hO.seen) (hs ▸ hd ▸ hO.durable) hstride
    ht ⟨hcount, fun r hmem => ?_, hwrite, hcovered⟩ fun r hmem => .inl (hrun r hmem)
  obtain ⟨h1, h2, h3⟩ := (hO.tasks t).run r (hrun r hmem)
  exact ⟨hp.trans_lt h1, h2, hr ▸ h3⟩

lemma WorldInv.errors (errors : List TsoError) : WorldInv { w with errors } := by
  refine ⟨h.horizon, h.writes, fun e o ho => ?_, fun g hg => ?_, h.apart⟩
  · exact (h.oracles e o ho).mono le_rfl (fun _ hb => hb) (.refl w)
  · obtain ⟨o, ho, hG⟩ := h.grants g hg
    exact ⟨o, ho, hG.mono id le_rfl⟩

omit h in
lemma leave_fields (o : Oracle) (t : ℕ) :
    (o.leave t).persistedMaxTs = o.persistedMaxTs ∧ (o.leave t).reservation = o.reservation ∧
      (o.leave t).durableSeen = o.durableSeen ∧ (o.leave t).durableMaxTs = o.durableMaxTs ∧
      (o.leave t).persistStride = o.persistStride ∧
      (o.leave t).tasks = Function.update o.tasks t .idle := by
  unfold Oracle.leave
  split <;> exact ⟨rfl, rfl, rfl, rfl, rfl, rfl⟩

lemma WorldInv.leave (ho : w.oracles e = some o) : WorldInv (w.setOracle e (o.leave t)) := by
  obtain ⟨hp, hr, hs, hd, hstride, ht⟩ := leave_fields o t
  refine h.move ho hp hr hs hd (hstride ▸ (h.oracles e o ho).stride) ht ?_ ?_ ?_ ?_
  all_goals simp [count?, run, write?, covered]

lemma WorldInv.fail (ho : w.oracles e = some o) (error : TsoError) :
    WorldInv (w.fail e o t error) := (h.leave ho).errors _

end

/-! ## Steps of a call -/

section
variable (h : WorldInv w)
include h
section
variable (ho : w.oracles e = some o)
include ho

lemma WorldInv.plain (ht : o'.tasks = Function.update o.tasks t k) (hcount : k.count? = (o.tasks t).count?)
    (hrun : k.run = none ∨ k.run = (o.tasks t).run)
    (hp : o'.persistedMaxTs = o.persistedMaxTs := by rfl) (hr : o'.reservation = o.reservation := by rfl)
    (hs : o'.durableSeen = o.durableSeen := by rfl) (hd : o'.durableMaxTs = o.durableMaxTs := by rfl)
    (hstride : o'.persistStride = o.persistStride := by rfl) (hwrite : k.write? = none := by rfl)
    (hcovered : k.covered = none := by rfl) : WorldInv (w.setOracle e o') := by
  have hO := h.oracles e o ho
  refine h.move ho hp hr hs hd (hstride ▸ hO.stride) ht (by rw [hcount]; exact (hO.tasks t).count) ?_ ?_ ?_
  · intro r hmem
    obtain hnone | hsame := hrun
    · rw [hnone] at hmem
      cases hmem
    · exact hsame ▸ hmem
  · rw [hwrite]
    simp
  · rw [hcovered]
    simp

lemma WorldInv.reserve {reservation : Reservation}
    (ht : o.tasks t = .reserving count)
    (hres : o.reservation.reserve count wallMs = some (first, last, reservation)) :
    WorldInv (w.setOracle e ({ o with reservation }.move t (.reserved count first last))) := by
  have hO := h.oracles e o ho
  obtain ⟨hpos, hmax⟩ := (hO.tasks t).count count (by rw [ht]; rfl)
  obtain ⟨habove, hlast, htop, hsound⟩ := Reservation.reserve_eq_some hO.sound hpos hmax hres
  have hle : o.reservation.top ≤ reservation.top :=
    (habove.le.trans (by omega : first ≤ last)).trans htop
  refine h.setOracle ho (t := t) (k := .reserved count first last) rfl hle hsound hO.seen
    hO.durable hO.stride rfl ⟨?_, ?_, ?_, ?_⟩ ?_
  · rintro c ⟨⟩
    exact ⟨hpos, hmax⟩
  · rintro r ⟨⟩
    exact ⟨lt_of_le_of_lt hO.persisted habove, hlast, htop⟩
  · rintro x ⟨⟩
  · rintro x ⟨⟩
  · rintro r ⟨⟩
    exact .inr habove

lemma WorldInv.cover {v : ℕ}
    (hr : (o.tasks t).run = some (count, first, last)) (hcount : (o.tasks t).count? = some count)
    (hv : v ≤ o.persistedMaxTs ∨ Bounded w e v) (hle : last ≤ v) {certifiedSeen : List ℕ}
    {holder : Option ℕ} :
    WorldInv (w.setOracle e { o.move t (.granting count first last) with certifiedSeen, holder }) := by
  have hO := h.oracles e o ho
  have hb : Bounded w e v := by
    refine hv.resolve_left fun hle' => ?_
    obtain ⟨h1, h2, -⟩ := (hO.tasks t).run _ hr
    dsimp only at h1 h2
    omega
  refine h.move ho (t := t) (k := .granting count first last) rfl rfl rfl rfl hO.stride rfl ?_ ?_ ?_ ?_
  · have hc := (hO.tasks t).count
    rwa [hcount] at hc
  · rintro r ⟨⟩
    exact hr
  · rintro x ⟨⟩
  · rintro x ⟨⟩
    exact ⟨hle.trans hb.1, fun e' o' he ho' => hle.trans (hb.2 e' o' he ho')⟩

end

lemma WorldInv.addWrite (write : HorizonWrite) (hmax : write.maxTs ≤ u64Max)
    (hl : write.landed = false) : WorldInv { w with writes := w.writes ++ [write] } := by
  have hkept : WritesKept w { w with writes := w.writes ++ [write] } := fun n x hx =>
    ⟨x, by rw [List.getElem?_append_left (List.getElem?_eq_some_iff.mp hx).1]; exact hx, rfl, rfl, id⟩
  refine ⟨h.horizon, fun x hx => ?_, fun e o ho => ?_, fun g hg => ?_, h.apart⟩
  · obtain hx | rfl := mem_snoc.mp hx
    · exact h.writes x hx
    · exact ⟨hmax, fun hl' => absurd (hl.symm.trans hl') Bool.false_ne_true⟩
  · exact (h.oracles e o ho).mono le_rfl (fun _ hb => hb) hkept
  · obtain ⟨o, ho, hG⟩ := h.grants g hg
    exact ⟨o, ho, hG.mono id le_rfl⟩

lemma WorldInv.recheckHorizon (ho : w.oracles e = some o)
    (ht : o.tasks t = .advanceLocked count first last) (nowMs : ℕ) :
    WorldInv (w.recheckHorizon e o t count first last nowMs) := by
  have hO := h.oracles e o ho
  have hrun : (o.tasks t).run = some (count, first, last) := by rw [ht]; rfl
  have hcount : (o.tasks t).count? = some count := by rw [ht]; rfl
  have hlast : last ≤ u64Max := ((hO.tasks t).run _ hrun).2.2.trans hO.sound.top_le
  obtain ⟨htasks, hp, hr, hs, hd⟩ := paced_fields o nowMs
  have hstride := And.intro (paced_persistStride_pos hO.stride.1 nowMs) (paced_persistStride_le hO.stride.2 nowMs)
  unfold World.recheckHorizon
  split_ifs with hle
  · exact h.cover ho hrun hcount (hO.seen _ hO.durable) hle
  · split
    · -- The run is lost; only the pace of the stride has changed.
      obtain ⟨hp', hr', hs', hd', hstride', ht'⟩ := leave_fields (o.paced nowMs) t
      refine WorldInv.errors (h.move ho (t := t) (k := .idle) (hp'.trans hp) (hr'.trans hr)
        (hs'.trans hs) (hd'.trans hd) (hstride' ▸ hstride) (ht'.trans (by rw [htasks])) ?_ ?_ ?_ ?_) _
      all_goals simp [count?, run, write?, covered]
    · rename_i maxTs hmaxTs
      obtain ⟨hle, hmax⟩ := newHorizon_eq_some hlast hmaxTs
      have h' := h.addWrite { epoch := e, maxTs } hmax rfl
      refine h'.move (o := o) (t := t) (k := .persisting count first last nowMs w.writes.length)
        ho hp hr hs hd hstride ?_ ?_ ?_ ?_ ?_
      · show Function.update (o.paced nowMs).tasks t _ = _
        rw [htasks]
      · have hc := (hO.tasks t).count
        rwa [hcount] at hc
      · rintro r ⟨⟩
        exact hrun
      · rintro x ⟨⟩
        exact ⟨_, List.getElem?_concat_length, rfl, hle, fun hx => absurd hx Bool.false_ne_true⟩
      · rintro x ⟨⟩

end
variable {n : ℕ}

lemma WorldInv.confirm (h : WorldInv w) (ho : w.oracles e = some o)
    (ht : o.tasks t = .persisting count first last nowMs n)
    (hlanded : (w.writes[n]?).any HorizonWrite.landed)
    (htask : task = .publishing count first last nowMs n ∨ task = .persisted count first last nowMs n) :
    WorldInv (w.setOracle e (o.move t task)) := by
  have hO := h.oracles e o ho
  obtain ⟨write, hget, hepoch, hle, -⟩ := (hO.tasks t).write (n, last, false) (by rw [ht]; rfl)
  have hl : write.landed := by rwa [show w.writes[n]? = some write from hget] at hlanded
  have hw : ∀ x ∈ some (n, last, true), ∃ write, w.writes[x.1]? = some write ∧ write.epoch = e ∧
      x.2.1 ≤ write.maxTs ∧ (x.2.2 → write.landed) := by
    rintro x ⟨⟩
    exact ⟨write, hget, hepoch, hle, fun _ => hl⟩
  have hcount : ∀ c ∈ some count, 0 < c ∧ c ≤ u64Max := by
    have := (hO.tasks t).count
    rwa [ht] at this
  have hrun : ∀ r ∈ some (count, first, last), (o.tasks t).run = some r := by
    rintro r ⟨⟩
    rw [ht]
    rfl
  obtain rfl | rfl := htask <;> exact h.move ho rfl rfl rfl rfl hO.stride rfl hcount hrun hw (by rintro x ⟨⟩)

lemma WorldInv.firstHeartbeat (h : WorldInv w) (ho : w.oracles e = some o)
    (ht : o.tasks t = .persisted count first last nowMs n) :
    WorldInv (w.setOracle e ({ o with hasGranted := true }.move t (.publishing count first last nowMs n))) := by
  have hT := (h.oracles e o ho).tasks t
  rw [ht] at hT
  refine h.move ho (t := t) (k := .publishing count first last nowMs n) rfl rfl rfl rfl
    (h.oracles e o ho).stride rfl hT.count ?_ hT.write (by rintro x ⟨⟩)
  rintro r ⟨⟩
  rw [ht]
  rfl

lemma maxTsOf_eq {write : HorizonWrite} (h : w.writes[n]? = some write) : w.maxTsOf n = write.maxTs := by
  simp [World.maxTsOf, h]

lemma WorldInv.publish (h : WorldInv w) (ho : w.oracles e = some o)
    (ht : o.tasks t = .publishing count first last nowMs n) :
    WorldInv (w.setOracle e ((o.publish (w.maxTsOf n)).move t (.certifying count first last nowMs))) := by
  have hO := h.oracles e o ho
  have hT := hO.tasks t
  rw [ht] at hT
  obtain ⟨write, hget, rfl, hle, hlanded⟩ := hT.write (n, last, true) rfl
  have hb : Bounded w write.epoch write.maxTs :=
    (h.writes write (mem_of_getElem? hget)).2 (hlanded rfl)
  rw [maxTsOf_eq hget]
  refine h.setOracle ho (t := t) (k := .certifying count first last nowMs) rfl le_rfl hO.sound ?_
    mem_cons_self hO.stride rfl ⟨hT.count, hT.run, by rintro x ⟨⟩, ?_⟩ ?_
  · intro v hv
    obtain rfl | hv := mem_cons.mp hv
    · exact .inr hb
    · exact hO.seen v hv
  · rintro x ⟨⟩
    exact ⟨hle.trans hb.1, fun e' o' he ho' => hle.trans (hb.2 e' o' he ho')⟩
  · rintro r ⟨⟩
    rw [ht]
    exact .inl rfl

lemma tasks_move_of_ne (o : Oracle) {t t' : ℕ} (h : t' ≠ t) (task : GrantTask) :
    (o.move t task).tasks t' = o.tasks t' := update_of_ne h ..

lemma tasks_move_self (o : Oracle) (t : ℕ) (task : GrantTask) : (o.move t task).tasks t = task :=
  update_self ..

lemma WorldInv.finish (h : WorldInv w) (ho : w.oracles e = some o) (ht : o.tasks t = .granting count first last) :
    WorldInv { w.setOracle e (o.move t .idle) with
      grants := w.grants ++ [{ epoch := e, firstTs := first, count, horizon := w.horizon }] } := by
  have hO := h.oracles e o ho
  have hT := hO.tasks t
  have hrun : (o.tasks t).run = some (count, first, last) := by rw [ht]; rfl
  rw [ht] at hT
  obtain ⟨habove, hlast, htop⟩ := hT.run (count, first, last) rfl
  obtain rfl : last = first + (count - 1) := hlast
  have hb := hT.covered _ rfl
  have hidle : WorldInv (w.setOracle e (o.move t .idle)) := by
    refine h.move ho (t := t) (k := .idle) rfl rfl rfl rfl hO.stride rfl ?_ ?_ ?_ ?_
    all_goals simp [count?, run, write?, covered]
  refine ⟨hidle.horizon, hidle.writes, fun e' o' ho' => ?_, fun g hg => ?_, ?_⟩
  · exact (hidle.oracles e' o' ho').mono le_rfl (fun _ hb => hb) (.refl _)
  · obtain hg | rfl := mem_snoc.mp hg
    · obtain ⟨o', ho', hG⟩ := hidle.grants g hg
      exact ⟨o', ho', hG.mono id le_rfl⟩
    · have hb' : Bounded (w.setOracle e (o.move t .idle)) e _ := Bounded.setOracle ho rfl hb
      refine ⟨o.move t .idle, oracles_setOracle_self .., hT.count count rfl, habove, htop, hb', hb.1, le_rfl, fun t' r hr => ?_⟩
      by_cases htt : t' = t
      · rw [htt, tasks_move_self] at hr
        cases hr
      · rw [tasks_move_of_ne o htt] at hr
        exact hO.apart t t' _ r (Ne.symm htt) hrun hr
  · refine pairwise_append.mpr ⟨h.apart, pairwise_singleton .., fun g hg g' hg' heq => ?_⟩
    obtain rfl := mem_singleton.mp hg'
    obtain ⟨o₀, ho₀, hG⟩ := h.grants g hg
    rw [show g.epoch = e from heq] at ho₀
    obtain rfl : o = o₀ := some.inj (ho.symm.trans ho₀)
    exact hG.apart t _ hrun

lemma WorldInv.taskStep (h : WorldInv w) (ho : w.oracles e = some o) {step : TaskStep}
    (hok : w.allows e o t step) : WorldInv (w.taskStep e o t step) := by
  have hO := h.oracles e o ho
  unfold World.taskStep
  split
  case h_1 count ht =>
    refine h.move ho (t := t) (k := .waiting count) rfl rfl rfl rfl hO.stride rfl ?_ ?_ ?_ ?_
    · rintro c ⟨⟩
      exact hok
    all_goals simp [run, write?, covered]
  case h_2 count nowMs ht => exact h.plain ho rfl (by rw [ht]; rfl) (.inl rfl)
  case h_3 count nowMs certified ht => split <;> exact h.plain ho rfl (by rw [ht]; rfl) (.inl rfl)
  case h_4 count ht =>
    exact h.plain ho (t := t) (k := .renewLocked count) rfl (by rw [ht]; rfl) (.inl rfl)
  case h_5 count nowMs anchorMs ht =>
    split
    · exact h.plain ho (t := t) (k := .reserving count) rfl (by rw [ht]; rfl) (.inl rfl)
    · exact h.plain ho rfl (by rw [ht]; rfl) (.inl rfl)
  case h_6 count nowMs ht =>
    exact h.plain ho (t := t) (k := .reserving count) rfl (by rw [ht]; rfl) (.inl rfl)
  case h_7 => exact h.fail ho _
  case h_8 => exact h.fail ho _
  case h_9 count wallMs ht =>
    split
    · exact h.fail ho _
    · rename_i hres
      exact h.reserve ho ht hres
  case h_10 count first last durable ht =>
    split
    · exact h.plain ho rfl (by rw [ht]; rfl) (.inr (by rw [ht]; rfl))
    · rename_i hle
      exact h.cover ho (by rw [ht]; rfl) (by rw [ht]; rfl) (hO.seen durable hok) (not_lt.mp hle)
  case h_11 count first last ht =>
    exact h.plain ho (t := t) (k := .advanceLocked count first last) rfl (by rw [ht]; rfl) (.inr (by rw [ht]; rfl))
  case h_12 count first last nowMs ht => exact h.recheckHorizon ho ht nowMs
  case h_13 count first last nowMs n ht =>
    have hlanded : w.confirms (o.tasks t) := hok rfl
    rw [ht] at hlanded
    split
    · exact h.confirm ho ht hlanded (.inl rfl)
    · exact h.confirm ho ht hlanded (.inr rfl)
  case h_14 => exact h.fail ho _
  case h_15 count first last nowMs n ht => exact h.firstHeartbeat ho ht
  case h_16 => exact h.fail ho _
  case h_17 => exact h.fail ho _
  case h_18 count first last nowMs n ht => exact h.publish ho ht
  case h_19 count first last nowMs ht =>
    have hT := hO.tasks t
    rw [ht] at hT
    exact h.cover (o := o) ho (by rw [ht]; rfl) (by rw [ht]; rfl) (.inr (hT.covered last rfl)) le_rfl
  case h_20 count first last ht =>
    split
    · exact h.fail ho _
    · exact h.finish ho ht
  case h_21 => exact h.leave ho
  case h_22 => exact h

/-! ## Steps of the store and of the epochs -/

section
variable (h : WorldInv w)
include h

lemma WorldInv.fence : WorldInv { w with live := w.live + 1 } := by
  refine ⟨h.horizon, h.writes, fun e o ho => ?_, fun g hg => ?_, h.apart⟩
  · exact (h.oracles e o ho).mono (le_succ _) (fun _ hb => hb) (.refl w)
  · obtain ⟨o, ho, hG⟩ := h.grants g hg
    exact ⟨o, ho, hG.mono id le_rfl⟩

lemma WorldInv.recover (hlive : e ≤ w.live) (hnone : w.oracles e = none)
    (hrec : Oracle.recover settings w.horizon nowMs = some o) :
    WorldInv (w.setOracle e o) := by
  obtain ⟨hp, htop, hsound, hd, hs, hstride, hset, ht⟩ := top_of_recover h.horizon hrec
  have hb : ∀ {e₀ x}, Bounded w e₀ x → Bounded (w.setOracle e o) e₀ x := by
    intro e₀ x hx
    refine hx.mono le_rfl fun e' o' ho' => ?_
    obtain rfl | he := eq_or_ne e' e
    · rw [oracles_setOracle_self] at ho'
      cases ho'
      exact .inr hp.ge
    · rw [oracles_setOracle_of_ne he] at ho'
      exact .inl ⟨o', ho', rfl⟩
  refine ⟨h.horizon, fun write hwrite => ⟨(h.writes write hwrite).1,
    fun hl => hb ((h.writes write hwrite).2 hl)⟩, fun e' o' ho' => ?_, fun g hg => ?_, h.apart⟩
  · by_cases he : e' = e
    · subst he
      rw [oracles_setOracle_self] at ho'
      cases ho'
      refine ⟨hlive, hsound, (hp.trans htop.symm).le, fun v hv => ?_, by rw [hd, hs]; simp,
        by rw [hstride]; exact ⟨settings.stride_pos, settings.stride_le⟩, fun t => ?_,
        fun t t' r r' _ hr _ => by rw [ht] at hr; cases hr⟩
      · rw [hs] at hv
        obtain rfl := mem_singleton.mp hv
        exact .inl hp.ge
      · rw [ht]
        constructor <;> rintro x ⟨⟩
    · rw [oracles_setOracle_of_ne he] at ho'
      exact (h.oracles e' o' ho').mono le_rfl (fun _ => hb) (.refl w)
  · obtain ⟨o', ho', hG⟩ := h.grants g hg
    have he : g.epoch ≠ e := fun he => by rw [he, hnone] at ho'; cases ho'
    exact ⟨o', by rw [oracles_setOracle_of_ne he]; exact ho', hG.mono hb le_rfl⟩

/-- A write is applied only while its epoch is live, that is, before any later epoch recovers. -/
lemma WorldInv.land (hen : (w.writes[n]?).any (fun write => !write.landed && write.epoch == w.live) = true) :
    WorldInv (w.land n) := by
  obtain ⟨write, hget, hw⟩ := (Option.any_eq_true ..).mp hen
  obtain ⟨hl, hepoch⟩ := (Bool.and_eq_true ..).mp hw
  obtain hepoch := beq_iff_eq.mp hepoch
  have hmax : w.maxTsOf n = write.maxTs := maxTsOf_eq hget
  have hb : ∀ {e₀ x}, Bounded w e₀ x → Bounded (w.land n) e₀ x := fun hx =>
    hx.mono (le_max_left _ _) fun e' o' ho' => .inl ⟨o', ho', rfl⟩
  have hnew : Bounded (w.land n) write.epoch write.maxTs := by
    refine ⟨hmax.ge.trans (le_max_right _ _), fun e' o' hlt ho' => ?_⟩
    exact absurd ((h.oracles e' o' ho').live) (by omega)
  have hwrites : WritesKept w (w.land n) := by
    intro m x hx
    show ∃ x', (w.writes.modify n _)[m]? = some x' ∧ _
    rw [List.getElem?_modify, hx]
    by_cases hmn : n = m
    · exact ⟨{ x with landed := true }, by simp [hmn], rfl, rfl, fun _ => rfl⟩
    · exact ⟨x, by simp [hmn], rfl, rfl, id⟩
  refine ⟨max_le h.horizon (hmax ▸ (h.writes write (mem_of_getElem? hget)).1), fun x hx => ?_,
    fun e o ho => ?_, fun g hg => ?_, h.apart⟩
  · obtain ⟨m, hm⟩ := mem_iff_getElem?.mp hx
    rw [show (w.land n).writes = w.writes.modify n _ from rfl, List.getElem?_modify] at hm
    obtain ⟨x₀, hx₀, hxx⟩ := map_eq_some_iff.mp hm
    have hold := h.writes x₀ (mem_of_getElem? hx₀)
    obtain rfl | hmn := eq_or_ne n m
    · obtain rfl : write = x₀ := some.inj (hget.symm.trans hx₀)
      rw [if_pos rfl] at hxx
      subst hxx
      exact ⟨hold.1, fun _ => hnew⟩
    · rw [if_neg hmn] at hxx
      obtain rfl := hxx
      exact ⟨hold.1, fun hl => hb (hold.2 hl)⟩
  · exact (h.oracles e o ho).mono le_rfl (fun _ => hb) hwrites
  · obtain ⟨o, ho, hG⟩ := h.grants g hg
    exact ⟨o, ho, hG.mono hb (le_max_left _ _)⟩

lemma WorldInv.step (l : TsoStep) (hen : tsoSys.enabled w l) : WorldInv (tsoSys.next w l) := by
  cases l with
  | fence => exact h.fence
  | recover e settings nowMs =>
    obtain ⟨-, hlive, hnone⟩ := hen
    unfold tsoSys TsoStep.next
    dsimp only
    split
    · exact h.errors _
    · rename_i hrec
      exact h.recover hlive hnone hrec
  | land n => exact h.land hen
  | task e t step =>
    obtain ⟨o, ho, hok⟩ := hen
    unfold tsoSys TsoStep.next
    dsimp only
    rw [ho]
    exact h.taskStep ho hok

end

lemma WorldInv.start : WorldInv {} where
  horizon := zero_le _
  writes := by simp
  oracles e o ho := by cases ho
  grants := by simp
  apart := .nil

/-! ## Grants are never repeated -/

lemma WorldInv.lastTs_lt (h : WorldInv w) {g g' : Grant} (hg : g ∈ w.grants) (hg' : g' ∈ w.grants)
    (hlt : g.epoch < g'.epoch) : g.lastTs < g'.firstTs := by
  obtain ⟨o, -, hG⟩ := h.grants g hg
  obtain ⟨o', ho', hG'⟩ := h.grants g' hg'
  exact lt_of_le_of_lt (hG.bounded.2 _ o' hlt ho') hG'.above

/-- No lease runs past `u64::MAX`, and where the source subtracts one without a check (from a count or a stride) there
is one to subtract. -/
def NoWrap (w : World) : Prop :=
  (∀ g ∈ w.grants, 0 < g.firstTs ∧ 0 < g.count ∧ g.lastTs ≤ u64Max) ∧
  ∀ e o, w.oracles e = some o → 0 < o.persistStride ∧ o.persistStride ≤ u64Max ∧
    ∀ t, (∀ count ∈ (o.tasks t).count?, 0 < count ∧ count ≤ u64Max) ∧
      ∀ r ∈ (o.tasks t).run, r.2.2 = r.2.1 + (r.1 - 1) ∧ r.2.2 ≤ u64Max

lemma WorldInv.noWrap (h : WorldInv w) : NoWrap w := by
  refine ⟨fun g hg => ?_, fun e o ho => ?_⟩
  · obtain ⟨o, ho, hG⟩ := h.grants g hg
    exact ⟨lt_of_le_of_lt (zero_le _) hG.above, hG.count.1, hG.top.trans (h.oracles _ o ho).sound.top_le⟩
  · have hO := h.oracles e o ho
    refine ⟨hO.stride.1, hO.stride.2, fun t => ⟨(hO.tasks t).count, fun r hr => ?_⟩⟩
    obtain ⟨-, hlast, htop⟩ := (hO.tasks t).run r hr
    exact ⟨hlast, htop.trans hO.sound.top_le⟩

/-- In every run of generations of the oracle over one store: leases are pairwise disjoint, a later
epoch grants above an earlier one, a granted timestamp is at most a horizon that was durable when the
call returned, and no computation wraps around. -/
theorem grants_disjoint {w : World} (hrun : tsoSys.AnyRun {} w) :
    w.grants.Pairwise (fun g g' => Apart g.firstTs g.lastTs g'.firstTs g'.lastTs) ∧
      (∀ g ∈ w.grants, ∀ g' ∈ w.grants, g.epoch < g'.epoch → g.lastTs < g'.firstTs) ∧
      (∀ g ∈ w.grants, g.lastTs ≤ g.horizon ∧ g.horizon ≤ w.horizon) ∧
      NoWrap w ∧ ∀ wallMs, pack (min wallMs maxPhysicalMs) 0 ≤ u64Max := by
  have h : WorldInv w := hrun.preserves (P := WorldInv) (fun _ l hP hen _ => hP.step l hen) .start
  refine ⟨?_, fun g hg g' hg' => h.lastTs_lt hg hg', fun g hg => ?_, h.noWrap, fun wallMs => pack_le _ _⟩
  · refine h.apart.imp_of_mem fun {g g'} hg hg' hsame => ?_
    obtain hlt | heq | hgt := lt_trichotomy g.epoch g'.epoch
    · exact .inl (h.lastTs_lt hg hg' hlt)
    · exact hsame heq
    · exact .inr (h.lastTs_lt hg' hg hgt)
  · obtain ⟨o, -, hG⟩ := h.grants g hg
    exact ⟨hG.horizon, hG.durable⟩

def smallSettings (wallAnchored : Bool) : Settings where
  wallAnchored
  stride := 4
  stride_pos := by decide
  stride_le := by decide
  heartbeatIntervalMs := 10
  minPersistIntervalMs := 100
  maxPersistStride := 16
  maxPersistStride_pos := by decide

/-- One call of `grant` for `count` timestamps that persists a horizon as write number `write`. -/
def persistingGrant (epoch count nowMs wallMs durable write : ℕ) : List TsoStep :=
  [.task epoch 0 (.call count), .task epoch 0 (.ready nowMs),
    .task epoch 0 (.checkCertificate nowMs 0), .task epoch 0 .lock,
    .task epoch 0 (.recheckCertificate nowMs nowMs), .task epoch 0 (.reserve wallMs),
    .task epoch 0 (.checkHorizon durable), .task epoch 0 .lock,
    .task epoch 0 (.recheckHorizon nowMs), .land write, .task epoch 0 (.persistReply true),
    .task epoch 0 (.heartbeat .live), .task epoch 0 .publish, .task epoch 0 .certify,
    .task epoch 0 .finish]

/-- A counter grants three timestamps and is fenced; a wall-anchored successor, whose clock stands at
zero, grants two. -/
def twoGenerations : List TsoStep :=
  [.fence, .recover 1 (smallSettings false) 0] ++ persistingGrant 1 3 0 0 0 0 ++
    [.fence, .recover 2 (smallSettings true) 0] ++ persistingGrant 2 2 10 0 4 1

/-- A second generation grants after a fence. -/
theorem grants_disjoint_twoGenerations :
    (tsoSys.execs {} twoGenerations).grants =
        [{ epoch := 1, firstTs := 1, count := 3, horizon := 4 },
          { epoch := 2, firstTs := 5, count := 2, horizon := 8 }] ∧
      (tsoSys.execs {} twoGenerations).grants.Pairwise fun g g' => Apart g.firstTs g.lastTs g'.firstTs g'.lastTs :=
  ⟨by decide +kernel, (grants_disjoint Sys.run_of_runs).1⟩

/-! ## Grants are ordered in real time -/

variable {w₁ w₂ : World} {g : Grant}

/-- A call moves on: its run, if it has one, is the one it had or lies above all that was reserved. -/
def CallMoves (w : World) (e : ℕ) (o : Oracle) (t : ℕ) (w' : World) : Prop :=
  w.grants ⊆ w'.grants ∧ ∃ o' k, w'.oracles = update w.oracles e (some o') ∧ o'.tasks = update o.tasks t k ∧
    ∀ r ∈ k.run, r ∈ (o.tasks t).run ∨ o.reservation.top < r.2.1

lemma CallMoves.fail (error : TsoError) : CallMoves w e o t (w.fail e o t error) :=
  ⟨Subset.refl _, _, _, rfl, (leave_fields o t).2.2.2.2.2, by simp [run]⟩

lemma callMoves_recheckHorizon (ht : o.tasks t = .advanceLocked count first last) :
    CallMoves w e o t (w.recheckHorizon e o t count first last nowMs) := by
  have htasks := (paced_fields o nowMs).1
  unfold World.recheckHorizon
  split_ifs
  · exact ⟨Subset.refl _, _, .granting count first last, rfl, rfl, by simp [ht, run]⟩
  · split
    · refine ⟨Subset.refl _, _, .idle, rfl, ?_, by simp [run]⟩
      rw [(leave_fields _ _).2.2.2.2.2, htasks]
    · refine ⟨Subset.refl _, _, .persisting count first last nowMs w.writes.length, rfl, ?_, by simp [ht, run]⟩
      exact congrArg (update · _ _) htasks

lemma OracleInv.callMoves (hO : OracleInv w e o) (ho : w.oracles e = some o) (step : TaskStep) :
    CallMoves w e o t (w.taskStep e o t step) := by
  unfold World.taskStep
  split
  case h_9 count wallMs ht =>
    split
    · exact .fail _
    · rename_i hres
      obtain ⟨hpos, hmax⟩ := (hO.tasks t).count count (by rw [ht]; rfl)
      have habove := (Reservation.reserve_eq_some hO.sound hpos hmax hres).1
      exact ⟨Subset.refl _, _, .reserved .., rfl, rfl, by simp [run, habove]⟩
  case h_12 ht => exact callMoves_recheckHorizon ht
  case h_20 =>
    split
    · exact .fail _
    · exact ⟨subset_append_left _ _, _, .idle, rfl, rfl, by simp [run]⟩
  case h_21 => exact ⟨Subset.refl _, _, .idle, rfl, (leave_fields o t).2.2.2.2.2, by simp [run]⟩
  case h_22 =>
    exact ⟨Subset.refl _, o, o.tasks t, by rw [← ho, update_eq_self], by rw [update_eq_self], fun r hr => .inl hr⟩
  all_goals
    try split
    all_goals first
      | exact .fail _
      | exact ⟨Subset.refl _, _, _, rfl, rfl, by simp [run, *]⟩

/-- The run that a call of a generation has reserved. -/
def World.reserved (w : World) (e t : ℕ) : Option (ℕ × ℕ × ℕ) := (w.oracles e).bind fun o => (o.tasks t).run

/-- The grant was returned, and what the call has reserved is above it. -/
def Ahead (g : Grant) (e t : ℕ) (w : World) : Prop := g ∈ w.grants ∧ ∀ r ∈ w.reserved e t, g.lastTs < r.2.1

lemma WorldInv.lastTs_le_top (h : WorldInv w) (hg : g ∈ w.grants) (he : g.epoch ≤ e) (ho : w.oracles e = some o) :
    g.lastTs ≤ o.reservation.top := by
  obtain ⟨o₀, ho₀, hG⟩ := h.grants g hg
  obtain hlt | rfl := he.lt_or_eq
  · exact (hG.bounded.2 e o hlt ho).trans (h.oracles e o ho).persisted
  · obtain rfl := some.inj (ho.symm.trans ho₀)
    exact hG.top

/-- Every step keeps a call that has reserved nothing above a lease. -/
lemma Ahead.step (h : Ahead g e t w) (hw : WorldInv w) (he : g.epoch ≤ e) {l : TsoStep} (hen : tsoSys.enabled w l) :
    Ahead g e t (tsoSys.next w l) := by
  obtain ⟨hg, hrun⟩ := h
  cases l with
  | fence | land n => exact ⟨hg, hrun⟩
  | recover e' settings nowMs =>
    unfold tsoSys TsoStep.next
    dsimp only
    split
    · exact ⟨hg, hrun⟩
    · rename_i o hrec
      refine ⟨hg, fun r hr => ?_⟩
      unfold World.reserved at hr hrun
      obtain rfl | hne := eq_or_ne e e'
      · obtain ⟨-, -, -, -, -, -, -, htasks⟩ := top_of_recover hw.horizon hrec
        simp [htasks, run] at hr
      · exact hrun r (oracles_setOracle_of_ne hne o ▸ hr)
  | task e' t' step =>
    obtain ⟨o, ho, -⟩ := hen
    have hnext : tsoSys.next w (.task e' t' step) = w.taskStep e' o t' step := by simp [tsoSys, TsoStep.next, ho]
    obtain ⟨hgrants, o', k, horacles, htasks, hk⟩ := (hw.oracles e' o ho).callMoves ho (t := t') step
    rw [hnext]
    refine ⟨hgrants hg, fun r hr => ?_⟩
    unfold World.reserved at hr hrun
    rw [horacles] at hr
    obtain rfl | hne := eq_or_ne e e'
    · rw [update_self, bind_some, htasks] at hr
      rw [ho, bind_some] at hrun
      obtain rfl | hne := eq_or_ne t t'
      · rw [update_self] at hr
        exact (hk r hr).elim (hrun r) (hw.lastTs_le_top hg he ho).trans_lt
      · exact hrun r (by rwa [update_of_ne hne] at hr)
    · exact hrun r (by rwa [update_of_ne hne] at hr)

/-- **Timestamps are ordered in real time.** A call that has reserved nothing when a grant is returned, in the
generation of the grant or a later one, only ever reserves timestamps above the grant. -/
theorem grants_real_time (h₁ : tsoSys.AnyRun {} w₁) (hg : g ∈ w₁.grants) (he : g.epoch ≤ e)
    (hcall : w₁.reserved e t = none) (h₂ : tsoSys.AnyRun w₁ w₂) : ∀ r ∈ w₂.reserved e t, g.lastTs < r.2.1 := by
  have hw : WorldInv w₁ := h₁.preserves (P := WorldInv) (fun _ l hP hen _ => hP.step l hen) .start
  have hboth := h₂.preserves (P := fun w => WorldInv w ∧ Ahead g e t w)
    (fun _ l hP hen _ => ⟨hP.1.step l hen, hP.2.step hP.1 he hen⟩) ⟨hw, hg, by simp [hcall]⟩
  exact hboth.2.2

/-- A call of the same generation after a lease. -/
theorem grants_real_time_oneGeneration :
    let w₁ := tsoSys.execs {} (twoGenerations.take 17)
    let w₂ := tsoSys.execs w₁ [.task 1 1 (.call 2), .task 1 1 (.ready 0), .task 1 1 (.checkCertificate 0 10),
      .task 1 1 (.reserve 0)]
    w₂.reserved 1 1 = some (2, 4, 5) ∧ ∀ r ∈ w₂.reserved 1 1, 3 < r.2.1 :=
  ⟨by decide +kernel, grants_real_time (g := ⟨1, 1, 3, 4⟩) Sys.run_of_runs (by decide +kernel) le_rfl (by decide +kernel)
    Sys.run_of_runs⟩

end Crabka.Gres.Tso
