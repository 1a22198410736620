import Crabka.Metadata.Recovery

/-!
# Authorization

`SimpleAclAuthorizer` reads its entries from the metadata image, which keeps them by resource, or in the gateway from an
`AclCache`, a list. The loop stops at the first entry that denies, but its answer depends only on which entries there
are: those added and not deleted since.

The loop is reduced to which entries match (`authorizeLoop_eq_allow`), and both sources to the entries that `Stands`
names (`mem_matchingAcls`, `mem_matchingAcls_cache`). So image and cache decide alike (`one_acl_decision`), and an entry
that is added works one way (`acl_entry_monotone`).
-/

namespace Crabka.Metadata

open Kraft (Uuid)
open Found MetadataImage
open Std (ExtTreeMap)
open List hiding getElem?_insert

/-! ## The sources -/

/-- A record that changes the ACLs. -/
inductive AclChange where
  | add (e : AclEntry)
  | delete (f : AclEntryFilter)

def AclChange.record : AclChange → MetadataRecord
  | .add e => .v1AccessControlEntry e
  | .delete f => .v1DeleteAccessControlEntry f

/-- The image after ACL records. -/
def aclImage (clusterId : Uuid) (cs : List AclChange) : MetadataImage :=
  cs.foldl (fun I c => I.apply c.record) (new clusterId)

/-- `name.starts_with(start)`. -/
def startsWith (name start : String) : Bool := start.toList.isPrefixOf name.toList

def MetadataImage.matchingAcls (I : MetadataImage) (rt : ResourceType) (rn : String) : List AclEntry :=
  bucket I.aclsLiteral (rt, rn) ++
    -- the bucket of the wildcard is not read twice
    (if rn ≠ "*" then bucket I.aclsLiteral (rt, "*") else []) ++
    (bucket I.aclsPrefixed rt).filter fun e => startsWith rn e.resourceName

/-- The entries that the authorizer matches against. -/
structure AclCache where
  entries : List AclEntry

def AclCache.matchingAcls (c : AclCache) (rt : ResourceType) (name : String) : List AclEntry :=
  c.entries.filter fun e => e.resourceType == rt && match e.patternType with
    | .literal => e.resourceName == name || e.resourceName == "*"
    | .prefixed => startsWith name e.resourceName

/-! ## The authorizer -/

/-- A request, with the name of its principal and the text of its IP address. -/
structure AuthorizationRequest where
  principal : String
  host : String
  resourceType : ResourceType
  resourceName : String
  operation : AclOperation

inductive AuthorizationResult where
  | allow | deny
  deriving DecidableEq

def matchesPrincipal (e : AclEntry) (userPattern : String) : Bool :=
  e.principal == "User:*" || e.principal == userPattern

def matchesHost (e : AclEntry) (host : String) : Bool := e.host == "*" || e.host == host

def implies : AclOperation → AclOperation → Bool
  | .read, .describe | .write, .describe | .delete, .describe | .alter, .describe
  | .alterConfigs, .describeConfigs => true
  | _, _ => false

def matchesOperation (stored requested : AclOperation) : Bool :=
  if stored = requested then true else if stored = .all then true else implies stored requested

/-- The loop of `authorize`: an entry that denies ends it. -/
def authorizeLoop (req : AuthorizationRequest) : Bool → List AclEntry → AuthorizationResult
  | sawAllow, [] => if sawAllow then .allow else .deny
  | sawAllow, e :: es =>
    if !matchesPrincipal e ("User:" ++ req.principal) || !matchesHost e req.host ||
        !matchesOperation e.operation req.operation then
      authorizeLoop req sawAllow es
    else match e.permissionType with
      | .deny => .deny
      | .allow => authorizeLoop req true es

/-- `SimpleAclAuthorizer::authorize` over the `matching_acls` of a source. -/
def authorize (superUsers : Finset String) (matchingAcls : ResourceType → String → List AclEntry)
    (req : AuthorizationRequest) : AuthorizationResult :=
  if req.principal ∈ superUsers then .allow
  else authorizeLoop req false (matchingAcls req.resourceType req.resourceName)

/-! ## The rule -/

/-- The operations that an operation implies in Kafka's table. -/
def implied : AclOperation → List AclOperation
  | .read | .write | .delete | .alter => [.describe]
  | .alterConfigs => [.describeConfigs]
  | _ => []

/-- The pattern of the entry matches the resource. -/
def Covers (e : AclEntry) (rt : ResourceType) (name : String) : Prop :=
  e.resourceType = rt ∧ match e.patternType with
    | .literal => e.resourceName = name ∨ e.resourceName = "*"
    | .prefixed => e.resourceName.toList <+: name.toList

/-- The entry is for who asks and for what is asked. -/
def Concerns (e : AclEntry) (req : AuthorizationRequest) : Prop :=
  (e.principal = "User:*" ∨ e.principal = "User:" ++ req.principal) ∧ (e.host = "*" ∨ e.host = req.host) ∧
    (e.operation = req.operation ∨ e.operation = .all ∨ req.operation ∈ implied e.operation)

def Applies (e : AclEntry) (req : AuthorizationRequest) : Prop :=
  Covers e req.resourceType req.resourceName ∧ Concerns e req

/-- The changes add the entry, and no later one deletes it. -/
def Stands : List AclChange → AclEntry → Prop
  | [], _ => False
  | c :: cs, e => Stands cs e ∨ c = .add e ∧ ∀ f, .delete f ∈ cs → f.matches e = false

/-- A super user, or an entry allows the request and none denies it. -/
def Permitted (superUsers : Finset String) (cs : List AclChange) (req : AuthorizationRequest) : Prop :=
  req.principal ∈ superUsers ∨
    (∀ e, Stands cs e → Applies e req → e.permissionType ≠ .deny) ∧
      ∃ e, Stands cs e ∧ Applies e req ∧ e.permissionType = .allow

/-- Neither change deletes an entry that the other one adds. -/
def Exchangeable (c c' : AclChange) : Prop :=
  ∀ e f, c = .add e ∧ c' = .delete f ∨ c' = .add e ∧ c = .delete f → f.matches e = false

/-! ## The loop -/

variable {req : AuthorizationRequest} {e : AclEntry} {rt : ResourceType} {name : String}

lemma matchesOperation_iff {stored requested : AclOperation} : matchesOperation stored requested ↔
    stored = requested ∨ stored = .all ∨ requested ∈ implied stored := by
  cases stored <;> cases requested <;> decide

lemma skipped_iff : (!matchesPrincipal e ("User:" ++ req.principal) || !matchesHost e req.host ||
    !matchesOperation e.operation req.operation) = true ↔ ¬ Concerns e req := by
  rw [Concerns, ← matchesOperation_iff]
  simp only [matchesPrincipal, matchesHost, Bool.or_eq_true, Bool.not_eq_true', ← Bool.not_eq_true, beq_iff_eq]
  tauto

lemma authorizeLoop_eq_allow {es : List AclEntry} {sawAllow : Bool} : authorizeLoop req sawAllow es = .allow ↔
    (∀ e ∈ es, Concerns e req → e.permissionType ≠ .deny) ∧
      (sawAllow ∨ ∃ e ∈ es, Concerns e req ∧ e.permissionType = .allow) := by
  induction es generalizing sawAllow with
  | nil => cases sawAllow <;> simp [authorizeLoop]
  | cons e es ih =>
    rw [authorizeLoop, forall_mem_cons]
    simp only [exists_mem_cons_iff]
    split
    next hskip =>
      rw [skipped_iff] at hskip
      simp [ih, hskip]
    next hmatch =>
      rw [skipped_iff, not_not] at hmatch
      cases e.permissionType <;> simp [ih, hmatch]

variable {superUsers : Finset String} {cs : List AclChange}

lemma authorize_eq_allow {source : ResourceType → String → List AclEntry}
    (h : ∀ rt name e, e ∈ source rt name ↔ Stands cs e ∧ Covers e rt name) :
    authorize superUsers source req = .allow ↔ Permitted superUsers cs req := by
  unfold authorize Permitted Applies
  split
  next hsuper => simp [hsuper]
  next hsuper => simp only [authorizeLoop_eq_allow, h, hsuper, Bool.false_eq_true, false_or, and_imp, and_assoc]

/-! ## The entries of the sources -/

variable {c c' : AclChange}

lemma stands_concat : Stands (cs ++ [c]) e ↔ c = .add e ∨
    Stands cs e ∧ ∀ f, .delete f = c → f.matches e = false := by
  induction cs with
  | nil => simp [Stands]
  | cons c' cs ih =>
    simp only [cons_append, Stands, ih, mem_append, mem_singleton, or_imp, forall_and]
    tauto

lemma Exchangeable.stands_iff (h : Exchangeable c c') {pre post : List AclChange} :
    Stands (pre ++ c :: c' :: post) e ↔ Stands (pre ++ c' :: c :: post) e := by
  induction pre with
  | nil =>
    have hadd : c = .add e → ∀ f, .delete f = c' → f.matches e = false :=
      fun hc f hf => h e f (.inl ⟨hc, hf.symm⟩)
    have hadd' : c' = .add e → ∀ f, .delete f = c → f.matches e = false :=
      fun hc f hf => h e f (.inr ⟨hc, hf.symm⟩)
    simp only [nil_append, Stands, mem_cons, or_imp, forall_and]
    tauto
  | cons p pre ih => simp only [cons_append, Stands, ih, mem_append, mem_cons, or_left_comm]

variable {I : MetadataImage} {clusterId : Uuid}

lemma mem_allAcls_aclImage : e ∈ (aclImage clusterId cs).allAcls ↔ Stands cs e := by
  induction cs using reverseRecOn with
  | nil => simp [aclImage, new, allAcls, Stands]
  | append_singleton cs c ih =>
    rw [stands_concat, aclImage, foldl_concat, mem_allAcls_apply, ← ih]
    cases c <;> simp [AclChange.record, aclImage]

lemma wellFormed_aclImage : WellFormed (aclImage clusterId cs) := by
  induction cs using reverseRecOn with
  | nil => exact .new
  | append_singleton cs c ih =>
    rw [aclImage, foldl_concat]
    exact ih.apply (by cases c <;> rfl)

lemma routed_of_mem_bucket {κ : Type} [Ord κ] [Std.TransOrd κ] {m : ExtTreeMap κ (List AclEntry)} {k : κ}
    {routed : κ → AclEntry → Prop} (h : ∀ (k : κ) es, m[k]? = some es → AclBucket (routed k) es)
    (he : e ∈ bucket m k) : routed k e := by
  unfold bucket at he
  cases hk : m[k]? with
  | none => simp [hk] at he
  | some es =>
    rw [hk] at he
    exact (h k es hk).routed e he

section
variable (h : WellFormed I)
include h

lemma mem_bucket_literal : e ∈ bucket I.aclsLiteral (rt, name) ↔
    e ∈ I.allAcls ∧ e.patternType = .literal ∧ e.resourceType = rt ∧ e.resourceName = name := by
  rw [mem_allAcls_bucket]
  constructor
  · intro he
    obtain ⟨hp, hk⟩ := routed_of_mem_bucket h.aclLiteral he
    exact ⟨.inl ⟨_, he⟩, hp, Prod.mk.inj hk⟩
  · rintro ⟨⟨k, he⟩ | ⟨k, he⟩, hp, rfl, rfl⟩
    · exact (routed_of_mem_bucket h.aclLiteral he).2 ▸ he
    · cases hp.symm.trans (routed_of_mem_bucket h.aclPrefixed he).1

lemma mem_bucket_prefixed : e ∈ bucket I.aclsPrefixed rt ↔
    e ∈ I.allAcls ∧ e.patternType = .prefixed ∧ e.resourceType = rt := by
  rw [mem_allAcls_bucket]
  constructor
  · intro he
    exact ⟨.inr ⟨_, he⟩, routed_of_mem_bucket h.aclPrefixed he⟩
  · rintro ⟨⟨k, he⟩ | ⟨k, he⟩, hp, rfl⟩
    · cases hp.symm.trans (routed_of_mem_bucket h.aclLiteral he).1
    · exact (routed_of_mem_bucket h.aclPrefixed he).2 ▸ he

lemma mem_matchingAcls : e ∈ I.matchingAcls rt name ↔ e ∈ I.allAcls ∧ Covers e rt name := by
  have hwild : e ∈ (if name ≠ "*" then bucket I.aclsLiteral (rt, "*") else []) ↔
      name ≠ "*" ∧ e ∈ bucket I.aclsLiteral (rt, "*") := by
    split <;> simp [*]
  rw [matchingAcls, mem_append, mem_append, hwild, mem_filter]
  simp only [mem_bucket_literal h, mem_bucket_prefixed h]
  cases hp : e.patternType with
  | literal =>
    simp only [Covers, hp]
    by_cases hname : name = "*" <;> simp [hname]
    tauto
  | prefixed => simp [Covers, startsWith, hp, and_assoc]

end

lemma mem_matchingAcls_cache {entries : List AclEntry} :
    e ∈ (AclCache.mk entries).matchingAcls rt name ↔ e ∈ entries ∧ Covers e rt name := by
  cases hp : e.patternType <;> simp [AclCache.matchingAcls, Covers, startsWith, hp]

/-! ## The decision -/

/-- **One decision**: the image and the cache give the same answer, it is the one that the rule says, and it does
not depend on the order of the records but for an entry and a filter that deletes it. -/
theorem one_acl_decision (superUsers : Finset String) (req : AuthorizationRequest) (clusterId : Uuid)
    (cs : List AclChange) (scan : Scan) :
    let decision := fun cs => authorize superUsers (aclImage clusterId cs).matchingAcls req
    decision cs = authorize superUsers (AclCache.mk (scan.acls (aclImage clusterId cs))).matchingAcls req ∧
    (decision cs = .allow ↔ Permitted superUsers cs req) ∧
    ∀ pre c c' post, cs = pre ++ c :: c' :: post → Exchangeable c c' →
      decision cs = decision (pre ++ c' :: c :: post) := by
  intro decision
  have heq : ∀ a b : AuthorizationResult, (a = .allow ↔ b = .allow) → a = b := by
    rintro (_ | _) (_ | _) h <;> simp_all
  have hrule : ∀ cs, decision cs = .allow ↔ Permitted superUsers cs req := fun cs =>
    authorize_eq_allow fun rt name e => by rw [mem_matchingAcls wellFormed_aclImage, mem_allAcls_aclImage]
  refine ⟨heq _ _ ((hrule cs).trans (authorize_eq_allow fun rt name e => ?_).symm), hrule cs, ?_⟩
  · rw [mem_matchingAcls_cache, (scan.acls_perm _).mem_iff, mem_allAcls_aclImage]
  · rintro pre c c' post rfl hex
    refine heq _ _ ?_
    simp only [hrule, Permitted, hex.stands_iff]

lemma stands_insert {pre post : List AclChange} {e' : AclEntry} : Stands (pre ++ .add e :: post) e' ↔
    Stands (pre ++ post) e' ∨ e = e' ∧ ∀ f, .delete f ∈ post → f.matches e' = false := by
  induction pre with
  | nil => simp [Stands]
  | cons p pre ih =>
    simp only [cons_append, Stands, ih, mem_append, mem_cons, reduceCtorEq, false_or]
    tauto

/-- **An entry works one way**: wherever an entry is added to a history of changes, one that allows revokes no
request, and one that denies grants none. -/
theorem acl_entry_monotone (superUsers : Finset String) (req : AuthorizationRequest) (clusterId : Uuid)
    (pre post : List AclChange) (e : AclEntry) :
    let decision := fun cs => authorize superUsers (aclImage clusterId cs).matchingAcls req
    (e.permissionType = .allow → decision (pre ++ post) = .allow → decision (pre ++ .add e :: post) = .allow) ∧
      (e.permissionType = .deny → decision (pre ++ .add e :: post) = .allow → decision (pre ++ post) = .allow) := by
  intro decision
  have hrule : ∀ cs, decision cs = .allow ↔ Permitted superUsers cs req := fun cs =>
    authorize_eq_allow fun rt name e => by rw [mem_matchingAcls wellFormed_aclImage, mem_allAcls_aclImage]
  simp only [hrule, Permitted, stands_insert]
  refine ⟨fun htype => Or.imp_right ?_, fun htype => Or.imp_right ?_⟩
  · rintro ⟨hdeny, e', he', hallow⟩
    refine ⟨fun e'' he'' happ => ?_, e', .inl he', hallow⟩
    obtain he'' | ⟨rfl, -⟩ := he''
    · exact hdeny e'' he'' happ
    · simp [htype]
  · rintro ⟨hdeny, e', he' | ⟨rfl, -⟩, happ, hallow⟩
    · exact ⟨fun e'' he'' => hdeny e'' (.inl he''), e', he', happ, hallow⟩
    · simp [htype] at hallow

end Crabka.Metadata
