import Crabka.Found.Runs

/-!
# The timestamp oracle

`crates/gres-ranges/src/tso/oracle.rs` and `crates/pgexec/src/hlc.rs`. An oracle hands out timestamps from memory and
keeps a durable horizon ahead of them; a successor starts above the horizon that it finds. In a call of `grant`
(`GrantTask`) each access to an atomic, the mutex, the heartbeat or the store is a step. A load returns any value that
the atomic has held. The store refuses a write of a fenced epoch and merges with the maximum as `apply_frame` does; the
answer can be an error whether or not the write was applied.
-/

namespace Crabka.Gres.Tso
open Found

/-! ## Machine arithmetic -/

def u64Max : ℕ := 2 ^ 64 - 1

def checkedAdd (a b : ℕ) : Option ℕ := if a + b ≤ u64Max then some (a + b) else none

def saturatingAdd (a b : ℕ) : ℕ := min (a + b) u64Max

def saturatingMul (a b : ℕ) : ℕ := min (a * b) u64Max

/-- The plain `-` on `u64`, which wraps around below zero. -/
def wrappingSub (a b : ℕ) : ℕ := (a + 2 ^ 64 - b) % 2 ^ 64

lemma checkedAdd_eq_some {a b c : ℕ} (h : checkedAdd a b = some c) : c = a + b ∧ a + b ≤ u64Max := by
  unfold checkedAdd at h
  split at h
  · exact ⟨(Option.some.inj h).symm, ‹_›⟩
  · cases h

lemma wrappingSub_eq {a b : ℕ} (h : b ≤ a) (ha : a ≤ u64Max) : wrappingSub a b = a - b := by
  unfold wrappingSub
  unfold u64Max at ha
  omega

/-! ## Hybrid logical clock -/

def logicalBits : ℕ := 22

def maxLogical : ℕ := 2 ^ 22 - 1

def maxPhysicalMs : ℕ := 2 ^ 42 - 1

/-- `pack`, on a shift that loses no bit (`pack_le`). -/
def pack (physicalMs logical : ℕ) : ℕ :=
  ((physicalMs &&& maxPhysicalMs) <<< logicalBits) ||| (logical &&& maxLogical)

lemma pack_le (physicalMs logical : ℕ) : pack physicalMs logical ≤ u64Max := by
  have hshift : (physicalMs &&& maxPhysicalMs) <<< logicalBits < 2 ^ 64 := by
    have hle : physicalMs &&& maxPhysicalMs ≤ maxPhysicalMs := Nat.and_le_right
    rw [Nat.shiftLeft_eq]
    unfold maxPhysicalMs logicalBits at *
    omega
  have hlow : logical &&& maxLogical < 2 ^ 64 := lt_of_le_of_lt Nat.and_le_right (by decide)
  exact Nat.le_sub_one_of_lt (Nat.or_lt_two_pow hshift hlow)

/-- `HybridLogicalClock::allocate_batch` on the stamp that the exchange replaces: the first stamp of
the run and the new last stamp. -/
def allocateBatch (last count wallMs : ℕ) : Option (ℕ × ℕ) := do
  let next ← checkedAdd last 1
  let first := max next (pack (min wallMs maxPhysicalMs) 0)
  let newLast ← checkedAdd first (wrappingSub count 1)
  return (first, newLast)

/-! ## Oracles -/

/-- The recovery parameters of a generation. Strides are `NonZeroU64`. -/
structure Settings where
  wallAnchored : Bool
  stride : ℕ
  stride_pos : 0 < stride
  stride_le : stride ≤ u64Max
  heartbeatIntervalMs : ℕ
  minPersistIntervalMs : ℕ
  maxPersistStride : ℕ
  maxPersistStride_pos : 0 < maxPersistStride

/-- `GrantReservation`: the next timestamp of the counter, or the last stamp of the clock. -/
inductive Reservation where
  | logical (nextTs : ℕ)
  | wallAnchored (last : ℕ)
  deriving DecidableEq, Repr

/-- `GrantReservation::reserve`, with the wall clock read as `wallMs`: first and last timestamp of the
run and the state after the exchange. `none` is `TimestampOverflow`. -/
def Reservation.reserve (r : Reservation) (count wallMs : ℕ) : Option (ℕ × ℕ × Reservation) :=
  match r with
  | .logical first => do
    let last ← checkedAdd first (wrappingSub count 1)
    let next ← checkedAdd last 1
    return (first, last, .logical next)
  | .wallAnchored last => do
    let (first, newLast) ← allocateBatch last count wallMs
    let runLast ← checkedAdd first (wrappingSub count 1)
    return (first, runLast, .wallAnchored newLast)

inductive TsoError where
  | timestampOverflow
  | fencedEpoch
  | rpc
  deriving DecidableEq, Repr

inductive HeartbeatReply where
  | live
  | fenced
  | failed
  deriving DecidableEq, Repr

/-- Where a call stands in `grant`. `nowMs` is the reading that anchors the certificate, `write` the
number of a horizon write. -/
inductive GrantTask where
  | idle
  | waiting (count : ℕ)
  | checking (count : ℕ)
  | renewing (count : ℕ)
  | renewLocked (count : ℕ)
  | renewHeartbeat (count nowMs : ℕ)
  | reserving (count : ℕ)
  | reserved (count first last : ℕ)
  | advancing (count first last : ℕ)
  | advanceLocked (count first last : ℕ)
  | persisting (count first last nowMs write : ℕ)
  | persisted (count first last nowMs write : ℕ)
  | publishing (count first last nowMs write : ℕ)
  | certifying (count first last nowMs : ℕ)
  | granting (count first last : ℕ)
  deriving DecidableEq, Repr

def GrantTask.locks : GrantTask → Bool
  | .renewLocked _ | .renewHeartbeat _ _ | .advanceLocked _ _ _ | .persisting _ _ _ _ _
  | .persisted _ _ _ _ _ | .publishing _ _ _ _ _ | .certifying _ _ _ _ => true
  | _ => false

/-- `TsoOracle` with its slow state and the calls inside it. The two lists are the values that
`durable_max_ts` and `certified_until_ms` have held, the current one first. -/
structure Oracle where
  settings : Settings
  persistedMaxTs : ℕ
  readyAtMs : ℕ
  reservation : Reservation
  durableMaxTs : ℕ
  durableSeen : List ℕ
  certifiedSeen : List ℕ
  hasGranted : Bool
  persistStride : ℕ
  lastPersistMs : ℕ
  holder : Option ℕ
  tasks : ℕ → GrantTask

/-- The reservation that `recover_hlc` or `recover` starts with. -/
def Reservation.recover (wallAnchored : Bool) (persistedMaxTs : ℕ) : Option Reservation :=
  if wallAnchored then some (.wallAnchored persistedMaxTs)
  else (checkedAdd persistedMaxTs 1).map .logical

/-- `recover` and `recover_hlc`, through `assemble`. -/
def Oracle.recover (settings : Settings) (persistedMaxTs nowMs : ℕ) : Option Oracle :=
  (Reservation.recover settings.wallAnchored persistedMaxTs).map fun reservation => {
    settings, persistedMaxTs, reservation
    readyAtMs := if persistedMaxTs = 0 then 0
      else saturatingAdd nowMs settings.heartbeatIntervalMs
    durableMaxTs := persistedMaxTs
    durableSeen := [persistedMaxTs]
    certifiedSeen := [0]
    hasGranted := false
    persistStride := settings.stride
    lastPersistMs := u64Max
    holder := none
    tasks := fun _ => .idle }

namespace Oracle
variable (o : Oracle)

def move (t : ℕ) (task : GrantTask) : Oracle := { o with tasks := Function.update o.tasks t task }

def unlock (t : ℕ) (task : GrantTask) : Oracle := { o.move t task with holder := none }

def lock (t : ℕ) (task : GrantTask) : Oracle := { o.move t task with holder := some t }

def leave (t : ℕ) : Oracle :=
  if (o.tasks t).locks then o.unlock t .idle else o.move t .idle

/-- `persist_stride`: the stride for a persist at `nowMs`, and the slow state after it. -/
def paced (nowMs : ℕ) : Oracle :=
  if o.settings.wallAnchored then o
  else
    let target := o.settings.minPersistIntervalMs
    let elapsed := nowMs - o.lastPersistMs
    let persistStride :=
      if o.lastPersistMs ≠ u64Max ∧ elapsed < target then
        min (saturatingMul o.persistStride 2) o.settings.maxPersistStride
      else if elapsed > saturatingMul target 4 then max (o.persistStride / 2) o.settings.stride
      else o.persistStride
    { o with persistStride, lastPersistMs := nowMs }

/-- The stride that `persist_stride` returns. -/
def stridePaced (nowMs : ℕ) : ℕ :=
  if o.settings.wallAnchored then o.settings.stride else (o.paced nowMs).persistStride

/-- The horizon that `advance_horizon` writes for the run `first..last`. -/
def newHorizon (nowMs first last : ℕ) : Option ℕ :=
  (checkedAdd first (wrappingSub (o.stridePaced nowMs) 1)).map (max last)

/-- `certified_until_ms.store`. -/
def certify (nowMs : ℕ) : Oracle :=
  { o with certifiedSeen := saturatingAdd nowMs o.settings.heartbeatIntervalMs :: o.certifiedSeen }

/-- `durable_max_ts.store`. -/
def publish (horizon : ℕ) : Oracle :=
  { o with durableMaxTs := horizon, durableSeen := horizon :: o.durableSeen }

end Oracle

/-! ## Generations over one horizon -/

/-- A horizon write on its way to the store of range 0. -/
structure HorizonWrite where
  epoch : ℕ
  maxTs : ℕ
  landed : Bool := false
  deriving DecidableEq, Repr

/-- `GrantLease`, with the epoch that granted it and the horizon that was durable when the call
returned. -/
structure Grant where
  epoch : ℕ
  firstTs : ℕ
  count : ℕ
  horizon : ℕ
  deriving DecidableEq, Repr

def Grant.lastTs (g : Grant) : ℕ := g.firstTs + (g.count - 1)

/-- The store of range 0 and the generations of its oracle. `live` is the writer epoch that is not
fenced; `grants` and `errors` are what the calls of `grant` returned. -/
structure World where
  horizon : ℕ := 0
  live : ℕ := 0
  writes : List HorizonWrite := []
  oracles : ℕ → Option Oracle := fun _ => none
  grants : List Grant := []
  errors : List TsoError := []

namespace World
variable (w : World)

def setOracle (e : ℕ) (o : Oracle) : World :=
  { w with oracles := Function.update w.oracles e (some o) }

def fail (e : ℕ) (o : Oracle) (t : ℕ) (error : TsoError) : World :=
  { w.setOracle e (o.leave t) with errors := w.errors ++ [error] }

end World

/-- What a call of `grant` does next. -/
inductive TaskStep where
  | call (count : ℕ)
  | ready (nowMs : ℕ)
  | checkCertificate (nowMs certified : ℕ)
  | lock
  | recheckCertificate (nowMs anchorMs : ℕ)
  | heartbeat (reply : HeartbeatReply)
  | reserve (wallMs : ℕ)
  | checkHorizon (durable : ℕ)
  | recheckHorizon (nowMs : ℕ)
  | persistReply (ok : Bool)
  | publish
  | certify
  | finish
  | cancel
  deriving DecidableEq, Repr

/-- Fences and recoveries of generations, horizon writes that land, and the steps of calls. -/
inductive TsoStep where
  | fence
  | recover (epoch : ℕ) (settings : Settings) (nowMs : ℕ)
  | land (write : ℕ)
  | task (epoch t : ℕ) (step : TaskStep)

/-- `advance_horizon` under the mutex. -/
def World.recheckHorizon (w : World) (e : ℕ) (o : Oracle) (t count first last nowMs : ℕ) : World :=
  if last ≤ o.durableMaxTs then w.setOracle e (o.unlock t (.granting count first last))
  else match o.newHorizon nowMs first last with
    | none => w.fail e (o.paced nowMs) t .timestampOverflow
    | some maxTs =>
      { w.setOracle e
          ((o.paced nowMs).move t (.persisting count first last nowMs w.writes.length)) with
        writes := w.writes ++ [{ epoch := e, maxTs }] }

def World.maxTsOf (w : World) (n : ℕ) : ℕ := ((w.writes[n]?).map HorizonWrite.maxTs).getD 0

/-- One step of a call. A step that does not belong to the place where the call stands does
nothing. -/
def World.taskStep (w : World) (e : ℕ) (o : Oracle) (t : ℕ) (step : TaskStep) : World :=
  match o.tasks t, step with
  | .idle, .call count => w.setOracle e (o.move t (.waiting count))
  | .waiting count, .ready _ => w.setOracle e (o.move t (.checking count))
  | .checking count, .checkCertificate nowMs certified =>
    if certified ≤ nowMs then w.setOracle e (o.move t (.renewing count))
    else w.setOracle e (o.move t (.reserving count))
  | .renewing count, .lock => w.setOracle e (o.lock t (.renewLocked count))
  | .renewLocked count, .recheckCertificate nowMs anchorMs =>
    -- The first grant persists a stride and heartbeats right after, so it is not renewed here.
    if nowMs < o.certifiedSeen.headD 0 ∨ o.hasGranted = false then
      w.setOracle e (o.unlock t (.reserving count))
    else w.setOracle e (o.move t (.renewHeartbeat count anchorMs))
  | .renewHeartbeat count nowMs, .heartbeat .live =>
    w.setOracle e ((o.certify nowMs).unlock t (.reserving count))
  | .renewHeartbeat _ _, .heartbeat .fenced => w.fail e o t .fencedEpoch
  | .renewHeartbeat _ _, .heartbeat .failed => w.fail e o t .rpc
  | .reserving count, .reserve wallMs =>
    match o.reservation.reserve count wallMs with
    | none => w.fail e o t .timestampOverflow
    | some (first, last, reservation) =>
      w.setOracle e ({ o with reservation }.move t (.reserved count first last))
  | .reserved count first last, .checkHorizon durable =>
    if last > durable then w.setOracle e (o.move t (.advancing count first last))
    else w.setOracle e (o.move t (.granting count first last))
  | .advancing count first last, .lock => w.setOracle e (o.lock t (.advanceLocked count first last))
  | .advanceLocked count first last, .recheckHorizon nowMs =>
    w.recheckHorizon e o t count first last nowMs
  | .persisting count first last nowMs n, .persistReply true =>
    if o.hasGranted then w.setOracle e (o.move t (.publishing count first last nowMs n))
    else w.setOracle e (o.move t (.persisted count first last nowMs n))
  | .persisting _ _ _ _ _, .persistReply false => w.fail e o t .rpc
  | .persisted count first last nowMs n, .heartbeat .live =>
    w.setOracle e ({ o with hasGranted := true }.move t (.publishing count first last nowMs n))
  | .persisted _ _ _ _ _, .heartbeat .fenced => w.fail e o t .fencedEpoch
  | .persisted _ _ _ _ _, .heartbeat .failed => w.fail e o t .rpc
  | .publishing count first last nowMs n, .publish =>
    w.setOracle e ((o.publish (w.maxTsOf n)).move t (.certifying count first last nowMs))
  | .certifying count first last nowMs, .certify =>
    w.setOracle e ((o.certify nowMs).unlock t (.granting count first last))
  | .granting count first _, .finish =>
    if first = 0 then w.fail e o t .timestampOverflow
    else { w.setOracle e (o.move t .idle) with
      grants := w.grants ++ [{ epoch := e, firstTs := first, count, horizon := w.horizon }] }
  | _, .cancel => w.setOracle e (o.leave t)
  | _, _ => w

/-- The store has applied the horizon write that the call waits for. -/
def World.confirms (w : World) : GrantTask → Bool
  | .persisting _ _ _ _ n => (w.writes[n]?).any HorizonWrite.landed
  | _ => false

/-- Counts are `NonZeroU64`, the grace period of a successor is over, a load returns a value that the atomic has held,
the mutex is free, and `Ok` answers a write that the store has applied. A heartbeat of a fenced epoch is not answered
`Live`. -/
def World.allows (w : World) (e : ℕ) (o : Oracle) (t : ℕ) : TaskStep → Prop
  | .call count => 0 < count ∧ count ≤ u64Max
  | .ready nowMs => o.readyAtMs ≤ nowMs
  | .checkCertificate _ certified => certified ∈ o.certifiedSeen
  | .lock => o.holder = none
  | .heartbeat reply => reply = .live → e = w.live
  | .checkHorizon durable => durable ∈ o.durableSeen
  | .persistReply ok => ok = true → w.confirms (o.tasks t) = true
  | _ => True

instance (w : World) (e : ℕ) (o : Oracle) (t : ℕ) (step) : Decidable (w.allows e o t step) := by
  cases step <;> unfold World.allows <;> infer_instance

/-- A successor recovers once its epoch fenced the earlier ones, and a write is applied while its epoch is live. -/
def TsoStep.enabled (w : World) : TsoStep → Prop
  | .fence => True
  | .recover e _ _ => 0 < e ∧ e ≤ w.live ∧ w.oracles e = none
  | .land n => (w.writes[n]?).any (fun write => !write.landed && write.epoch == w.live) = true
  | .task e t step => ∃ o, w.oracles e = some o ∧ w.allows e o t step

instance (w : World) : ∀ l, Decidable (TsoStep.enabled w l)
  | .fence => .isTrue trivial
  | .recover _ _ _ => inferInstanceAs (Decidable (_ ∧ _ ∧ _ = none))
  | .land _ => inferInstanceAs (Decidable (_ = true))
  | .task e t step => match h : w.oracles e with
    | some o => decidable_of_iff (w.allows e o t step)
        ⟨fun hok => ⟨o, h, hok⟩, fun ⟨_, ho, hok⟩ => Option.some.inj (h.symm.trans ho) ▸ hok⟩
    | none => .isFalse fun ⟨_, ho, _⟩ => nomatch h.symm.trans ho

/-- A horizon write reaches the store, which keeps the maximum. -/
def World.land (w : World) (n : ℕ) : World :=
  { w with
    horizon := max w.horizon (w.maxTsOf n)
    writes := w.writes.modify n fun write => { write with landed := true } }

def TsoStep.next (w : World) : TsoStep → World
  | .fence => { w with live := w.live + 1 }
  | .recover e settings nowMs => match Oracle.recover settings w.horizon nowMs with
    | none => { w with errors := w.errors ++ [.timestampOverflow] }
    | some o => w.setOracle e o
  | .land n => w.land n
  | .task e t step => match w.oracles e with
    | some o => w.taskStep e o t step
    | none => w

def tsoSys : Sys World TsoStep := ⟨TsoStep.enabled, TsoStep.next⟩

instance (w : World) (l : TsoStep) : Decidable (tsoSys.enabled w l) :=
  inferInstanceAs (Decidable (TsoStep.enabled w l))

end Crabka.Gres.Tso
