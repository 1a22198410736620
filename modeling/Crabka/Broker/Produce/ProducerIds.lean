import Crabka.Found.Runs
import Crabka.Metadata.Image

/-!
# Producer ids

`crates/broker/src/producer_id_manager.rs`: brokers reserve blocks of producer ids through the controller and hand out
the ids of their block. A task inside `allocate` is a program counter (`Task`), and each access to an atomic, the image
or the controller is a step. Loads return any value that the atomic has held; a broker sees any image that was ever
committed, and an answer of the controller can be lost after the record was applied.
-/

namespace Crabka.Broker
open Found
open Kraft (NodeId)
open Metadata (MetadataImage MetadataRecord ProducerIdsRecord i64Max)

/-! ## Blocks -/

def producerIdBlockSize : ℤ := 1000

inductive ProducerIdAllocationError where
  | brokerNotRegistered (brokerId : NodeId)
  | staleBrokerEpoch (brokerId : NodeId) (requested registered : ℤ)
  | exhausted
  | controller (detail : String)
  deriving DecidableEq, Repr

/-- `checked_add` on `i64`, for a second summand that is not negative. -/
def checkedAdd (a b : ℤ) : Option ℤ := if a + b ≤ i64Max then some (a + b) else none

/-- One round of `allocate_block` up to its submission. -/
def blockRequest (image : MetadataImage) (brokerId : NodeId) (brokerEpoch : ℤ) :
    Except ProducerIdAllocationError ProducerIdsRecord :=
  match image.brokerEpoch brokerId with
  | none => .error (.brokerNotRegistered brokerId)
  | some registered =>
    if registered ≠ brokerEpoch then .error (.staleBrokerEpoch brokerId brokerEpoch registered)
    else match checkedAdd image.nextProducerId producerIdBlockSize with
      | none => .error .exhausted
      | some next => .ok ⟨brokerId, brokerEpoch, next⟩

/-! ## Tasks -/

/-- Where a task stands in `allocate`. `locked` says which of the two calls of `claim` is meant; from `refilling` on
the task has the refill lock. `n` is the number of a submission. -/
inductive Task where
  | idle
  | claiming (locked : Bool)
  | loaded (locked : Bool) (next : ℤ)
  | checked (locked : Bool) (next : ℤ)
  | waiting
  | refilling
  | requesting (brokerEpoch : ℤ)
  | submitted (brokerEpoch first : ℤ) (n : ℕ)
  | rejected (brokerEpoch first : ℤ) (detail : String)
  | granted (first : ℤ) (n : ℕ)
  | stored (first : ℤ) (n : ℕ)
  deriving DecidableEq, Repr

def Task.locks : Task → Bool
  | .idle | .waiting => false
  | .claiming locked | .loaded locked _ | .checked locked _ => locked
  | _ => true

/-- The submission that a task waits for or whose block it has not installed yet. -/
def Task.submission : Task → Option ℕ
  | .submitted _ _ n | .granted _ n | .stored _ n => some n
  | _ => none

/-- `ProducerIdManager` and the tasks inside it. `nextSeen` and `endSeen` are the values that the atomics have held;
`block` is the submission whose block is installed. -/
structure ProducerIdManager where
  next : ℤ := 0
  endExclusive : ℤ := 0
  nextSeen : List ℤ := [0]
  endSeen : List ℤ := [0]
  refill : Option ℕ := none
  tasks : ℕ → Task := fun _ => .idle
  block : Option ℕ := none

namespace ProducerIdManager
variable (m : ProducerIdManager)

def move (t : ℕ) (task : Task) : ProducerIdManager :=
  { m with tasks := Function.update m.tasks t task }

def unlock (t : ℕ) (task : Task) : ProducerIdManager :=
  { m.move t task with refill := none }

def leave (t : ℕ) : ProducerIdManager :=
  if (m.tasks t).locks then m.unlock t .idle else m.move t .idle

def storeNext (v : ℤ) : ProducerIdManager := { m with next := v, nextSeen := v :: m.nextSeen }

def storeEnd (v : ℤ) : ProducerIdManager := { m with endExclusive := v, endSeen := v :: m.endSeen }

end ProducerIdManager

/-! ## The cluster -/

structure BlockSubmission where
  record : ProducerIdsRecord
  applied : Bool := false
  deriving DecidableEq

def BlockSubmission.first (s : BlockSubmission) : ℤ := s.record.nextProducerId - producerIdBlockSize

/-- `images` are the committed images, the last one first; `ids` and `errors` are what the calls of `allocate`
returned. -/
structure IdCluster where
  image : MetadataImage
  images : List MetadataImage
  submissions : List BlockSubmission := []
  managers : NodeId → ProducerIdManager := fun _ => {}
  ids : List ℤ := []
  errors : List ProducerIdAllocationError := []

def IdCluster.start (image : MetadataImage) : IdCluster := { image, images := [image] }

namespace IdCluster
variable (c : IdCluster)

def setManager (b : NodeId) (m : ProducerIdManager) : IdCluster :=
  { c with managers := Function.update c.managers b m }

def fail (b : NodeId) (t : ℕ) (e : ProducerIdAllocationError) : IdCluster :=
  { c.setManager b ((c.managers b).leave t) with errors := c.errors ++ [e] }

def commit (rec : MetadataRecord) : IdCluster :=
  { c with image := c.image.apply rec, images := c.image.apply rec :: c.images }

end IdCluster

/-- What happens in the cluster. The number `i` picks a committed image. -/
inductive IdStep where
  | call (b : NodeId) (t : ℕ)
  | loadNext (b : NodeId) (t : ℕ) (v : ℤ)
  | loadEnd (b : NodeId) (t : ℕ) (v : ℤ)
  | compareExchange (b : NodeId) (t : ℕ) (spurious : Bool)
  | lock (b : NodeId) (t : ℕ)
  | readEpoch (b : NodeId) (t : ℕ) (i : ℕ)
  | request (b : NodeId) (t : ℕ) (i : ℕ)
  | deliver (n : ℕ)
  | replyOk (b : NodeId) (t : ℕ)
  | replyErr (b : NodeId) (t : ℕ) (detail : String)
  | recheck (b : NodeId) (t : ℕ) (i : ℕ)
  | storeNext (b : NodeId) (t : ℕ)
  | storeEnd (b : NodeId) (t : ℕ)
  | cancel (b : NodeId) (t : ℕ)
  | restart (b : NodeId)
  | commit (rec : MetadataRecord)

def reservesIds : MetadataRecord → Bool
  | .v1ProducerIds _ => true
  | _ => false

/-- A load or an exchange, a round or an answer belongs to the place in `allocate` where the task
stands. -/
def IdStep.fits : IdStep → Task → Bool
  | .call _ _, .idle | .loadNext _ _ _, .claiming _ | .loadEnd _ _ _, .loaded _ _
  | .compareExchange _ _ _, .checked _ _ | .lock _ _, .waiting | .readEpoch _ _ _, .refilling
  | .request _ _ _, .requesting _ | .replyOk _ _, .submitted _ _ _ | .replyErr _ _ _, .submitted _ _ _
  | .recheck _ _ _, .rejected _ _ _ | .storeNext _ _, .granted _ _ | .storeEnd _ _, .stored _ _
  -- A call is dropped while it waits for the lock or for the controller.
  | .cancel _ _, .waiting | .cancel _ _, .submitted _ _ _ => true
  | _, _ => false

/-- A load returns a value that the atomic has held, an answer `Ok` needs an applied record, and every record but a
reservation can be committed at any time. -/
def IdStep.enabled (c : IdCluster) (l : IdStep) : Prop :=
  match l with
  | .call b t | .compareExchange b t _ | .replyErr b t _ | .storeNext b t | .storeEnd b t
  | .cancel b t => l.fits ((c.managers b).tasks t) = true
  | .loadNext b t v => l.fits ((c.managers b).tasks t) = true ∧ v ∈ (c.managers b).nextSeen
  | .loadEnd b t v => l.fits ((c.managers b).tasks t) = true ∧ v ∈ (c.managers b).endSeen
  | .lock b t => l.fits ((c.managers b).tasks t) = true ∧ (c.managers b).refill = none
  | .readEpoch b t i | .request b t i | .recheck b t i =>
    l.fits ((c.managers b).tasks t) = true ∧ i < c.images.length
  | .deliver n => n < c.submissions.length
  | .replyOk b t => ((c.managers b).tasks t).submission.any
      (fun n => c.submissions[n]?.any (·.applied)) = true ∧ l.fits ((c.managers b).tasks t) = true
  | .restart _ => True
  | .commit rec => reservesIds rec = false ∧ c.image.accepts rec = true

instance IdStep.decidableEnabled (c : IdCluster) (l : IdStep) : Decidable (l.enabled c) := by
  cases l <;> unfold IdStep.enabled <;> infer_instance

/-- `current_image`. -/
def IdCluster.seen (c : IdCluster) (i : ℕ) : MetadataImage := c.images.getD i c.image

/-- `claim` loads `end_exclusive` after `next`. -/
def IdCluster.loadEnd (c : IdCluster) (b : NodeId) (t : ℕ) (v : ℤ) : IdCluster :=
  let m := c.managers b
  match m.tasks t with
  | .loaded locked next =>
    if next ≥ v then c.setManager b (m.move t (if locked then .refilling else .waiting))
    else c.setManager b (m.move t (.checked locked next))
  | _ => c

/-- The exchange of `claim`. When it fails, also spuriously, `claim` starts again. -/
def IdCluster.compareExchange (c : IdCluster) (b : NodeId) (t : ℕ) (spurious : Bool) : IdCluster :=
  let m := c.managers b
  match m.tasks t with
  | .checked locked next =>
    if m.next = next ∧ spurious = false then
      { c.setManager b ((m.storeNext (next + 1)).leave t) with ids := c.ids ++ [next] }
    else c.setManager b (m.move t (.claiming locked))
  | _ => c

/-- `allocate` reads the epoch of its broker before the first round of `allocate_block`. -/
def IdCluster.readEpoch (c : IdCluster) (b : NodeId) (t : ℕ) (i : ℕ) : IdCluster :=
  match (c.seen i).brokerEpoch b with
  | none => c.fail b t (.brokerNotRegistered b)
  | some epoch => c.setManager b ((c.managers b).move t (.requesting epoch))

def IdCluster.request (c : IdCluster) (b : NodeId) (t : ℕ) (i : ℕ) : IdCluster :=
  let m := c.managers b
  match m.tasks t with
  | .requesting epoch =>
    match blockRequest (c.seen i) b epoch with
    | .error e => c.fail b t e
    | .ok record =>
      { c.setManager b
          (m.move t (.submitted epoch (c.seen i).nextProducerId c.submissions.length)) with
        submissions := c.submissions ++ [{ record }] }
  | _ => c

/-- A record reaches the controller, for the first time or again. -/
def IdCluster.deliver (c : IdCluster) (n : ℕ) : IdCluster :=
  match c.submissions[n]? with
  | none => c
  | some s =>
    if c.image.accepts (.v1ProducerIds s.record) then
      { c.commit (.v1ProducerIds s.record) with
        submissions := c.submissions.set n { s with applied := true } }
    else c

def IdCluster.reply (c : IdCluster) (b : NodeId) (t : ℕ) : Option String → IdCluster
  | none => match (c.managers b).tasks t with
    | .submitted _ first n => c.setManager b ((c.managers b).move t (.granted first n))
    | _ => c
  | some detail => match (c.managers b).tasks t with
    | .submitted epoch first _ =>
      c.setManager b ((c.managers b).move t (.rejected epoch first detail))
    | _ => c

/-- After an error `allocate_block` tries again if the boundary has moved. -/
def IdCluster.recheck (c : IdCluster) (b : NodeId) (t : ℕ) (i : ℕ) : IdCluster :=
  match (c.managers b).tasks t with
  | .rejected epoch first detail =>
    if (c.seen i).nextProducerId > first then
      c.setManager b ((c.managers b).move t (.requesting epoch))
    else c.fail b t (.controller detail)
  | _ => c

/-- `allocate` installs the start of its block, unless the end does not fit. -/
def IdCluster.storeNext (c : IdCluster) (b : NodeId) (t : ℕ) : IdCluster :=
  let m := c.managers b
  match m.tasks t with
  | .granted first n =>
    match checkedAdd first producerIdBlockSize with
    | none => c.fail b t .exhausted
    | some _ => c.setManager b { (m.storeNext first).move t (.stored first n) with block := none }
  | _ => c

/-- `allocate` installs the end of its block, gives the lock back and starts again. -/
def IdCluster.storeEnd (c : IdCluster) (b : NodeId) (t : ℕ) : IdCluster :=
  let m := c.managers b
  match m.tasks t with
  | .stored first n =>
    c.setManager b { (m.storeEnd (first + producerIdBlockSize)).unlock t (.claiming false) with block := some n }
  | _ => c

def idSys : Sys IdCluster IdStep where
  enabled c l := l.enabled c
  next c
    | .call b t => c.setManager b ((c.managers b).move t (.claiming false))
    | .loadNext b t v =>
      c.setManager b ((c.managers b).move t (.loaded ((c.managers b).tasks t == .claiming true) v))
    | .loadEnd b t v => c.loadEnd b t v
    | .compareExchange b t spurious => c.compareExchange b t spurious
    | .lock b t => c.setManager b { (c.managers b).move t (.claiming true) with refill := some t }
    | .readEpoch b t i => c.readEpoch b t i
    | .request b t i => c.request b t i
    | .deliver n => c.deliver n
    | .replyOk b t => c.reply b t none
    | .replyErr b t detail => c.reply b t (some detail)
    | .recheck b t i => c.recheck b t i
    | .storeNext b t => c.storeNext b t
    | .storeEnd b t => c.storeEnd b t
    | .cancel b t => c.setManager b ((c.managers b).leave t)
    | .restart b => c.setManager b {}
    | .commit rec => c.commit rec

instance (c : IdCluster) (l : IdStep) : Decidable (idSys.enabled c l) :=
  inferInstanceAs (Decidable (l.enabled c))

end Crabka.Broker
