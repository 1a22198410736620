import Crabka.Broker.Group.ClassicRoom

/-!
# One assignment per classic generation

The lists that leaders sent and the answers that were read from them (`Ledger`), for a group whose rounds fit together.
A completed round begins a generation without a list, and the list that ends it is the only one of the generation, so
the answers of a generation agree (`one_list_per_generation`). A list is installed in every state of the group, so a
leader that syncs twice gives two answers for one generation (`leader_syncs_twice`).
-/

namespace Crabka.Broker.Group.Classic
open List hiding getElem?_insert getElem?_modify
open Std (ExtTreeMap)
open Found ClassicGroup Classic

/-! ## The invariant -/

/-- The installed lists, one for a generation and each from the leader of it, and the answers read from
them. -/
structure Ledger (g : ClassicGroup) (installed : List InstalledList) (elected : List (ℤ × MemberId))
    (synced : List SyncAnswer) : Prop where
  installed_le : ∀ l ∈ installed, l.generationId ≤ g.generationId
  installed_lt : g.state = .completingRebalance → ∀ l ∈ installed, l.generationId < g.generationId
  installed_unique : ∀ l ∈ installed, ∀ l' ∈ installed, l.generationId = l'.generationId → l = l'
  installed_elected : ∀ l ∈ installed, (l.generationId, l.leader) ∈ elected
  elected_le : ∀ e ∈ elected, e.1 ≤ g.generationId
  elected_unique : ∀ e ∈ elected, ∀ e' ∈ elected, e.1 = e'.1 → e = e'
  leader : ∀ id, g.leaderId = some id → (g.generationId, id) ∈ elected
  synced : ∀ a ∈ synced, a.result.errorCode = 0 → ∃ l ∈ installed,
    l.generationId = a.generationId ∧ a.result.assignment = ClassicGroup.supplied l.assignments a.memberId

/-- A stable group has the members that its leader was told, with the leader's list. -/
def StableAs (g : ClassicGroup) (joined : List JoinResult) (installed : List InstalledList) : Prop :=
  g.state = .stable → ∃ l ∈ installed, l.generationId = g.generationId ∧ g.leaderId = some l.leader ∧
    (firstJoin joined g.generationId l.leader).map listed = some (memberIds g) ∧
    ∀ (id : MemberId) a, g.members[id]?.map (·.assignment) = some a →
      a = some (ClassicGroup.supplied l.assignments id)

/-- Parked followers are members and wait for the present generation. -/
def Waiting (g : ClassicGroup) (followers : List (MemberId × ℤ)) : Prop :=
  ∀ f ∈ followers, g.members.contains f.1 = true ∧ f.2 = g.generationId

/-- The group, its lists and answers, and the callers that wait. -/
structure RoomInv (r : Room) : Prop where
  indexed : Indexed r.group
  ledger : Ledger r.group r.installed r.elected r.synced
  stableAs : StableAs r.group r.joined r.installed
  waiting : Waiting r.group r.followers

section invariant
variable {r r' : Room} {g g' : ClassicGroup}
variable {joined : List JoinResult} {id : MemberId}
variable {installed : List InstalledList}

lemma StableAs.append (h : StableAs g joined installed) (more : List JoinResult) :
    StableAs g (joined ++ more) installed := by
  intro hs
  obtain ⟨l, hl, hgen, hleader, hfirst, hassigned⟩ := h hs
  exact ⟨l, hl, hgen, hleader, firstJoin_append hfirst more, hassigned⟩

lemma StableAs.kept (h : StableAs g joined installed) (hk : Kept g g') : StableAs g' joined installed := by
  intro hs
  obtain ⟨hstable, hleader, hmembers⟩ := hk.stable hs
  obtain ⟨l, hl, hgen, hl', hfirst, hassigned⟩ := h hstable
  refine ⟨l, hl, hgen.trans hk.generation.symm, hleader.trans hl', ?_, fun id a ha => ?_⟩
  · rwa [hk.generation, hk.memberIds_eq hs]
  · exact hassigned id a (hmembers id ▸ ha)

variable {elected : List (ℤ × MemberId)} {synced : List SyncAnswer}
section
variable (h : Ledger g installed elected synced)
include h

lemma Ledger.moved
    (hle : g.generationId ≤ g'.generationId)
    (hleader : ∀ id, g'.leaderId = some id → (g'.generationId, id) ∈ elected)
    (hcompleting : g'.state = .completingRebalance →
      g.state = .completingRebalance ∨ g.generationId < g'.generationId) :
    Ledger g' installed elected synced where
  installed_le l hl := (h.installed_le l hl).trans hle
  installed_lt hc l hl := by
    rcases hcompleting hc with hc' | hlt
    · exact lt_of_lt_of_le (h.installed_lt hc' l hl) hle
    · exact lt_of_le_of_lt (h.installed_le l hl) hlt
  installed_unique := h.installed_unique
  installed_elected := h.installed_elected
  elected_le e he := (h.elected_le e he).trans hle
  elected_unique := h.elected_unique
  leader := hleader
  synced := h.synced

lemma Ledger.kept (hk : Kept g g') : Ledger g' installed elected synced := by
  refine h.moved hk.generation.ge (fun id hid => ?_) fun hc => .inl (hk.completing hc)
  rw [hk.generation]
  exact h.leader id (hk.leader id hid)

lemma Ledger.answer {more : List SyncAnswer}
    (hmore : ∀ a ∈ more, a.result.errorCode = 0 → ∃ l ∈ installed,
      l.generationId = a.generationId ∧ a.result.assignment = supplied l.assignments a.memberId) :
    Ledger g installed elected (synced ++ more) :=
  { h with
    synced := by
      intro a ha hok
      rcases mem_append.mp ha with ha | ha
      · exact h.synced a ha hok
      · exact hmore a ha hok }

end
variable {removed : List MemberId}

lemma RoomInv.drain (h : RoomInv r) (hindexed : Indexed g)
    (hledger : Ledger g r.installed r.elected r.synced) (hstable : StableAs g r.joined r.installed)
    (hwaiting : ∀ f ∈ r.followers, f.1 ∉ removed → g.members.contains f.1 ∧ r.group.generationId = g.generationId) :
    RoomInv ({ r with group := g }.drainRemoved removed) where
  indexed := hindexed
  ledger := by
    refine hledger.answer fun a ha hok => ?_
    obtain ⟨f, -, rfl⟩ := mem_map.mp ha
    cases hok
  stableAs := hstable.append _
  waiting := by
    intro f hf
    obtain ⟨hmem, hnot⟩ := mem_filter.mp hf
    obtain ⟨hin, hgen⟩ := hwaiting f hmem (by simpa using hnot)
    exact ⟨hin, ((h.waiting f hmem).2).trans hgen⟩

/-- The next generation does not wrap around. -/
def Counts (g : ClassicGroup) : Prop := 0 ≤ g.generationId ∧ g.generationId + 1 < 2 ^ 31

/-- A completed round begins a generation without a list. -/
lemma RoomInv.complete (h : RoomInv r) (hcount : Counts r.group) : RoomInv r.completeClassicRebalance := by
  have hledger : ∀ {synced : List SyncAnswer}, synced = r.synced ++ r.followers.map (fun f =>
      ⟨f.1, f.2, { errorCode := codeRebalanceInProgress }⟩) →
      Ledger r.group r.installed r.elected synced := by
    rintro synced rfl
    refine h.ledger.answer fun a ha hok => ?_
    obtain ⟨f, -, rfl⟩ := mem_map.mp ha
    cases hok
  unfold Room.completeClassicRebalance
  split
  · -- No protocol in common: the group is still preparing.
    rename_i hnone
    have hstate := state_of_tryComplete_none hnone
    have hold := hledger rfl
    refine ⟨h.indexed, { hold with }, fun hs => ?_, nofun⟩
    rw [show r.group.state = .stable from hs] at hstate
    cases hstate
  · rename_i g hsome
    rcases tryComplete_eq_some hsome with ⟨rfl, -⟩ | ⟨hstate, chosen, hg⟩
    · refine ⟨h.indexed, ?_, h.stableAs.append _, nofun⟩
      rw [if_pos rfl, append_nil]
      exact hledger rfl
    · have hgen : g.generationId = r.group.generationId + 1 := hg ▸ wrapI32_succ hcount.1 hcount.2
      have hcompleting : g.state = .completingRebalance := hg ▸ rfl
      refine ⟨hg ▸ h.indexed.completeRebalance chosen, ?_, fun hs => ?_, nofun⟩
      · dsimp only
        rw [if_neg (by omega)]
        have hold := hledger rfl
        have hnew : ∀ e ∈ g.leaderId.toList.map (g.generationId, ·), e.1 = r.group.generationId + 1 := by
          rintro e he
          obtain ⟨id, -, rfl⟩ := mem_map.mp he
          exact hgen
        exact
          { installed_le := fun l hl => by have := h.ledger.installed_le l hl; omega
            installed_lt := fun _ l hl => by have := h.ledger.installed_le l hl; omega
            installed_unique := hold.installed_unique
            installed_elected := fun l hl => mem_append_left _ (hold.installed_elected l hl)
            elected_le := by
              intro e he
              rcases mem_append.mp he with he | he
              · have := h.ledger.elected_le e he
                omega
              · rw [hnew e he, hgen]
            elected_unique := by
              intro e he e' he' heq
              rcases mem_append.mp he with he | he <;> rcases mem_append.mp he' with he' | he'
              · exact hold.elected_unique e he e' he' heq
              · have := h.ledger.elected_le e he
                have := hnew e' he'
                omega
              · have := h.ledger.elected_le e' he'
                have := hnew e he
                omega
              · obtain ⟨id, hid, rfl⟩ := mem_map.mp he
                obtain ⟨id', hid', rfl⟩ := mem_map.mp he'
                rw [Option.mem_toList] at hid hid'
                rw [Option.mem_unique hid hid']
            leader := by
              intro id hid
              exact mem_append_right _ (mem_map.mpr ⟨id, Option.mem_toList.mpr hid, rfl⟩)
            synced := hold.synced }
      · rw [hcompleting] at hs
        cases hs

lemma Kept.counts (hk : Kept g g') (h : Counts g) : Counts g' := by
  unfold Counts
  rw [hk.generation]
  exact h

lemma generation_complete (hcount : Counts r.group) :
    r.group.generationId ≤ r.completeClassicRebalance.group.generationId := by
  unfold Room.completeClassicRebalance
  split
  · exact le_rfl
  · rename_i g hsome
    rcases tryComplete_eq_some hsome with ⟨rfl, -⟩ | ⟨-, chosen, rfl⟩
    · exact le_rfl
    · show r.group.generationId ≤ wrapI32 (r.group.generationId + 1)
      rw [wrapI32_succ hcount.1 hcount.2]
      omega

def Follows (r r' : Room) : Prop := RoomInv r' ∧ r.group.generationId ≤ r'.group.generationId

lemma Follows.complete (h : Follows r r') (hcount : Counts r'.group) : Follows r r'.completeClassicRebalance :=
  ⟨h.1.complete hcount, h.2.trans (generation_complete hcount)⟩

lemma Follows.maybeComplete (h : Follows r r') (hcount : r'.group.state = .preparingRebalance → Counts r'.group) :
    Follows r r'.maybeCompleteClassic := by
  unfold Room.maybeCompleteClassic
  split
  · rename_i hcond
    exact h.complete (hcount hcond.2.1)
  · exact h

section
variable (h : RoomInv r)
include h

section
variable (hcount : Counts r.group)
include hcount

lemma RoomInv.afterRemoval (hk : Kept r.group g)
    (hstay : ∀ id, r.group.members.contains id → id ∉ removed → g.members.contains id)
    (hreset : removed ≠ [] → g.members.isEmpty → g.state = .empty ∧ g.leaderId = none)
    (writeOk : Bool) : Follows r (r.afterRemoval g removed writeOk) := by
  unfold Room.afterRemoval
  split
  · rename_i hgone
    obtain ⟨hstate, hleader⟩ := hreset hgone.1 hgone.2
    split
    · have hindexed : Indexed { g with generationId := wrapI32 (g.generationId + 1) } := hk.indexed
      have hgen : r.group.generationId ≤ wrapI32 (g.generationId + 1) := by
        rw [hk.generation, wrapI32_succ hcount.1 hcount.2]
        omega
      refine Follows.maybeComplete ⟨h.drain hindexed ?_ ?_ ?_, hgen⟩ fun hp => ?_
      · refine h.ledger.moved hgen ?_ ?_
        · intro id hid
          rw [show g.leaderId = some id from hid] at hleader
          cases hleader
        · intro hc
          rw [show g.state = .completingRebalance from hc] at hstate
          cases hstate
      · intro hs
        rw [show g.state = .stable from hs] at hstate
        cases hstate
      · -- Everybody is gone, so nobody waits.
        intro f hf hnot
        have hin := hstay f.1 (h.waiting f hf).1 hnot
        rw [ExtTreeMap.isEmpty_iff.mp hgone.2, ExtTreeMap.contains_empty] at hin
        cases hin
      · rw [show g.state = .preparingRebalance from hp] at hstate
        cases hstate
    · exact ⟨h, le_rfl⟩
  · refine Follows.maybeComplete ⟨h.drain hk.indexed (h.ledger.kept hk) (h.stableAs.kept hk) ?_, ?_⟩ fun _ => ?_
    · intro f hf hnot
      exact ⟨hstay f.1 (h.waiting f hf).1 hnot, hk.generation.symm⟩
    · exact hk.generation.ge
    · exact hk.counts hcount

end

lemma RoomInv.kept (hk : Kept r.group g)
    (hmembers : ∀ id, r.group.members.contains id → g.members.contains id)
    (more : List JoinResult) (joiners : List MemberId) :
    Follows r { r with group := g, joined := r.joined ++ more, joiners } :=
  ⟨⟨hk.indexed, h.ledger.kept hk, (h.stableAs.kept hk).append more, fun f hf =>
    ⟨hmembers _ (h.waiting f hf).1, (h.waiting f hf).2.trans hk.generation.symm⟩⟩, hk.generation.ge⟩

omit h in
lemma contains_handleJoin (req : JoinGroupRequest) (clientId clientHost : String) (known : Bool)
    (delay now : ℕ) (uuid : String) (hin : g.members.contains id) :
    (handleJoin g req clientId clientHost known delay now uuid).1.members.contains id = true := by
  unfold handleJoin
  split
  · exact hin
  unfold handleJoinAs
  split
  · exact hin
  split
  · exact hin
  split
  · exact hin
  rename_i hinst hpin
  -- Where a static member comes back, the slot is its own.
  have hadd : ∀ (g₀ : ClassicGroup) (member : Member), g₀.members = g.members →
      g₀.staticMembers = g.staticMembers → member.id = joinId g req uuid →
      member.groupInstanceId = req.groupInstanceId →
      (g₀.addMember member).1.members.contains id := by
    intro g₀ member hmem hstatic hid hreq
    unfold addMember
    split
    · rename_i prior iid hprior hiid
      rw [hreq, hstatic] at hprior
      have hsame : prior = joinId g req uuid := by simpa [hprior] using hpin
      simp only [hmem, ExtTreeMap.contains_insert, ExtTreeMap.contains_erase, hid, hsame, hin, Bool.and_true]
      by_cases hcmp : compare (joinId g req uuid) id = .eq <;> simp [hcmp]
    · simp only [hmem, ExtTreeMap.contains_insert, hin, Bool.or_true]
  dsimp only
  split
  · exact hadd _ _ rfl rfl rfl rfl
  · exact hadd { g with protocolType := some req.protocolType } _ rfl rfl rfl rfl

section
variable (hcount : Counts r.group)
include hcount

lemma RoomInv.onJoin (delay : ℕ) (req : JoinGroupRequest) (version : ℤ)
    (clientId clientHost uuid : String) (now : ℕ) (writeOk : Bool) :
    Follows r (r.onJoin delay req version clientId clientHost uuid now writeOk) := by
  have hk := Kept.handleJoin h.indexed req clientId clientHost (decide (version ≥ 4)) delay now uuid
  have hmembers : ∀ id, r.group.members.contains id →
      (handleJoin r.group req clientId clientHost (decide (version ≥ 4)) delay now uuid).1.members.contains id :=
    fun id hin => contains_handleJoin req clientId clientHost _ delay now uuid hin
  unfold Room.onJoin
  split
  · rename_i g result heq
    rw [heq] at hk hmembers
    split
    · exact h.kept (.refl h.indexed) (fun _ => id) _ _
    · exact h.kept hk hmembers _ _
  · rename_i g heq
    rw [heq] at hk hmembers
    simpa using h.kept hk hmembers [] _
  · rename_i g heq
    rw [heq] at hk hmembers
    have hparked := h.kept hk hmembers [] (r.joiners.insert (joinId r.group req uuid))
    rw [append_nil] at hparked
    exact hparked.complete (hk.counts hcount)

lemma RoomInv.onLeave (req : LeaveGroupRequest) (version : ℤ) (now : ℕ)
    (writeOk : Bool) : Follows r (r.onLeave req version now writeOk) := by
  refine h.afterRemoval hcount (.handleLeave h.indexed req version now) (fun id hin hnot => ?_)
    (reset_of_handleLeave req version now) writeOk
  by_contra hout
  refine hnot (mem_filter.mpr ⟨by simpa using hin, ?_⟩)
  rw [Bool.not_eq_true] at hout
  rw [hout, Bool.not_false]

lemma RoomInv.onTick (delay now : ℕ) (writeOk : Bool) : Follows r (r.onTick delay now writeOk) := by
  unfold Room.onTick
  dsimp only
  split
  · exact ⟨h, le_rfl⟩
  · rename_i hdead
    exact h.afterRemoval hcount (.expireDeadMembers h.indexed now delay)
      (fun id hin hnot => contains_expireDeadMembers hin hnot) (fun _ => reset_of_expireDeadMembers hdead) writeOk

end

lemma RoomInv.onHeartbeat (req : HeartbeatRequest) (now : ℕ) :
    Follows r { r with group := (handleHeartbeat r.group req now).1 } := by
  have hkept := h.kept (Kept.handleHeartbeat h.indexed req now) ?_ [] r.joiners
  · simpa using hkept
  · intro id hin
    unfold handleHeartbeat
    split_ifs <;> simp [contains_modify, hin]

omit h in
lemma readSyncResult_installed {assignments : List (MemberId × Bytes)} (hin : g.members.contains id) :
    (readSyncResult (g.installAssignments assignments) id).assignment = supplied assignments id := by
  obtain ⟨m, hm⟩ := exists_of_contains hin
  simp [readSyncResult, installAssignments, hm]

/-- The list of a leader is the first one of its generation. -/
lemma RoomInv.install {req : SyncGroupRequest}
    (hin : r.group.members.contains req.memberId)
    (hgen : r.group.generationId = req.generationId) (hleader : r.group.leaderId = some req.memberId)
    (hstate : r.group.state = .completingRebalance)
    (hfirst : (firstJoin r.joined r.group.generationId req.memberId).map listed = some (memberIds r.group)) :
    RoomInv { r with
      group := r.group.installAssignments req.assignments, followers := []
      installed := r.installed ++ [⟨r.group.generationId, req.memberId, req.assignments⟩]
      synced := r.synced ++ ⟨req.memberId, req.generationId,
          readSyncResult (r.group.installAssignments req.assignments) req.memberId⟩ ::
        r.followers.map fun f =>
          ⟨f.1, f.2, readSyncResult (r.group.installAssignments req.assignments) f.1⟩ } := by
  have hlt := h.ledger.installed_lt hstate
  have hlast : (⟨r.group.generationId, req.memberId, req.assignments⟩ : InstalledList) ∈
      r.installed ++ [⟨r.group.generationId, req.memberId, req.assignments⟩] := by simp
  constructor
  · intro iid id hget
    obtain ⟨m, hm, hinst⟩ := h.indexed iid id hget
    exact ⟨{ m with assignment := some (supplied req.assignments id) },
      by simp [installAssignments, hm], hinst⟩
  · exact
      { installed_le := by
          intro l hl
          rcases mem_snoc.mp hl with hl | hl
          · exact h.ledger.installed_le l hl
          · rw [hl]
            exact le_rfl
        installed_lt := fun hst => by cases hst
        installed_unique := by
          intro l hl l' hl' heq
          rcases mem_append.mp hl with hl | hl <;> rcases mem_append.mp hl' with hl' | hl'
          · exact h.ledger.installed_unique l hl l' hl' heq
          · rw [mem_singleton.mp hl'] at heq
            exact absurd heq (hlt l hl).ne
          · rw [mem_singleton.mp hl] at heq
            exact absurd heq (hlt l' hl').ne'
          · rw [mem_singleton.mp hl, mem_singleton.mp hl']
        installed_elected := by
          intro l hl
          rcases mem_snoc.mp hl with hl | hl
          · exact h.ledger.installed_elected l hl
          · rw [hl]
            exact h.ledger.leader _ hleader
        elected_le := h.ledger.elected_le
        elected_unique := h.ledger.elected_unique
        leader := h.ledger.leader
        synced := by
          intro a ha hok
          rcases mem_append.mp ha with ha | ha
          · obtain ⟨l, hl, hrest⟩ := h.ledger.synced a ha hok
            exact ⟨l, mem_append_left _ hl, hrest⟩
          · rcases mem_cons.mp ha with rfl | ha
            · exact ⟨_, hlast, hgen, readSyncResult_installed hin⟩
            · obtain ⟨f, hf, rfl⟩ := mem_map.mp ha
              obtain ⟨hfin, hfgen⟩ := h.waiting f hf
              exact ⟨_, hlast, hfgen.symm, readSyncResult_installed hfin⟩ }
  · intro _
    refine ⟨_, hlast, rfl, hleader, ?_, fun id a ha => ?_⟩
    · have hids : memberIds (r.group.installAssignments req.assignments) = memberIds r.group := by
        ext id
        simp [memberIds, installAssignments]
      rw [hids]
      exact hfirst
    · simp only [installAssignments, ExtTreeMap.getElem?_map, Option.map_map] at ha
      obtain ⟨m, -, rfl⟩ := Option.map_eq_some_iff.mp ha
      rfl
  · intro f hf
    cases hf

lemma RoomInv.onSync (htold : Told r.group r.joined) (req : SyncGroupRequest) (writeOk : Bool)
    (hok : installs r.group req = true → writeOk = true → r.group.state = .completingRebalance) : Follows r (r.onSync req writeOk) := by
  -- An answer that is an error.
  have hrefused : ∀ code : ℤ, code ≠ 0 → Follows r { r with synced := r.synced ++
      [⟨req.memberId, req.generationId, syncErr r.group code⟩] } := by
    intro code hcode
    refine ⟨⟨h.indexed, h.ledger.answer fun a ha hzero => ?_, h.stableAs, h.waiting⟩, le_rfl⟩
    rw [mem_singleton.mp ha] at hzero
    exact absurd hzero hcode
  unfold installs at hok
  unfold Room.onSync
  unfold handleSync at hok ⊢
  by_cases hfenced : fenced r.group req.memberId req.groupInstanceId
  · simpa only [hfenced, if_true] using hrefused _ (by decide)
  by_cases hin : r.group.members.contains req.memberId
  swap
  · simpa only [hfenced, hin, if_true, if_false, Bool.false_eq_true, not_false_eq_true] using
      hrefused _ (by decide)
  by_cases hgen : r.group.generationId = req.generationId
  swap
  · simpa only [hfenced, hin, hgen, if_true, if_false, Bool.false_eq_true, not_true_eq_false, ne_eq,
      not_false_eq_true] using hrefused _ (by decide)
  simp only [hfenced, hin, hgen, if_false, Bool.false_eq_true, not_true_eq_false, ne_eq] at hok ⊢
  by_cases hleader : r.group.leaderId = some req.memberId
  · simp only [hleader, if_true] at hok ⊢
    cases writeOk with
    | true =>
      have hstate := hok trivial rfl
      refine ⟨?_, le_rfl⟩
      have hinstall := h.install hin hgen hleader hstate (htold hstate _ hleader)
      rw [← hgen] at hinstall ⊢
      exact hinstall
    | false =>
      refine ⟨⟨h.indexed, h.ledger.answer fun a ha hzero => ?_, h.stableAs, nofun⟩, le_rfl⟩
      obtain ⟨f, -, rfl⟩ := mem_map.mp ha
      cases hzero
  · simp only [hleader, if_false]
    by_cases hstable : r.group.state = .stable
    · simp only [hstable, if_true]
      refine ⟨⟨h.indexed, h.ledger.answer fun a ha _ => ?_, h.stableAs, h.waiting⟩, le_rfl⟩
      obtain ⟨l, hl, hlgen, -, -, hassigned⟩ := h.stableAs hstable
      obtain ⟨m, hm⟩ := exists_of_contains hin
      have hread := hassigned req.memberId m.assignment (by rw [hm, Option.map_some])
      rw [mem_singleton.mp ha]
      refine ⟨l, hl, hlgen.trans hgen, ?_⟩
      simp [readSyncResult, hstable, hm, hread]
    · simp only [hstable, if_false]
      refine ⟨⟨h.indexed, h.ledger, h.stableAs, fun f hf => ?_⟩, le_rfl⟩
      rcases mem_snoc.mp hf with hf | hf
      · exact h.waiting f (mem_of_mem_filter hf)
      · rw [hf]
        exact ⟨hin, hgen.symm⟩

end

/-- Every step in its round keeps the invariant and does not lower the generation. -/
lemma RoomInv.step (delay : ℕ) {e : Event} (h : RoomInv r) (hrounds : r.Rounds) (hok : LeaderInRound r e) :
    Follows r ((room delay).next r e) := by
  have hcount : Counts r.group := ⟨hrounds.nonneg, hok.1⟩
  cases e with
  | join req version clientId clientHost uuid now writeOk =>
    exact h.onJoin hcount delay req version clientId clientHost uuid now writeOk
  | sync req writeOk => exact h.onSync hrounds.told req writeOk hok.2
  | heartbeat req now => exact h.onHeartbeat req now
  | leave req version now writeOk => exact h.onLeave hcount req version now writeOk
  | tick now writeOk => exact h.onTick hcount delay now writeOk
  | deadline now => exact Follows.complete ⟨h, le_rfl⟩ hcount

lemma RoomInv.start (groupId : String) : RoomInv (.start groupId) where
  indexed iid id hget := by simp [Room.start, new] at hget
  ledger := by constructor <;> simp [Room.start, new]
  stableAs := nofun
  waiting := nofun

lemma Room.Rounds.start (groupId : String) : (Room.start groupId).Rounds where
  gathered := ⟨nofun, fun _ => rfl, fun id m hm => by simp [Room.start, new] at hm⟩
  told := nofun
  past := nofun
  nonneg := le_rfl

end invariant

/-! ## Runs -/

/-- **One list per generation.** In every run in which a leader's list finds the group completing a round, nobody goes
while the group does, and deadlines find the next leader's join parked: the successful `SyncGroup` answers of a generation are read from one list
of its leader, a stable group has the members that its leader was told first, and the generation never
falls. When no list gives a partition to two members, no two members are told to own the same one. -/
theorem one_list_per_generation (delay : ℕ) (groupId : String) {r : Room}
    (h : (room delay).Run LeaderInRound (.start groupId) r) :
    (∀ a ∈ r.synced, a.result.errorCode = 0 →
      ∃ l ∈ r.installed, l.generationId = a.generationId ∧ (l.generationId, l.leader) ∈ r.elected ∧
        ∀ b ∈ r.synced, b.result.errorCode = 0 → b.generationId = a.generationId →
          b.result.assignment = supplied l.assignments b.memberId) ∧
    (∀ e ∈ r.elected, ∀ e' ∈ r.elected, e.1 = e'.1 → e = e') ∧
    (r.group.state = .stable → ∃ leader answer, r.group.leaderId = some leader ∧
      firstJoin r.joined r.group.generationId leader = some answer ∧ listed answer = memberIds r.group) ∧
    (∀ r', (room delay).Run LeaderInRound r r' → r.group.generationId ≤ r'.group.generationId) ∧
    (∀ (P : Type) (owns : Bytes → P → Prop),
      (∀ l ∈ r.installed, ∀ i j p, owns (supplied l.assignments i) p → owns (supplied l.assignments j) p → i = j) →
      ∀ a ∈ r.synced, ∀ b ∈ r.synced, a.result.errorCode = 0 → b.result.errorCode = 0 →
        a.generationId = b.generationId →
        ∀ p, owns a.result.assignment p → owns b.result.assignment p → a.memberId = b.memberId) := by
  have hstep : ∀ t e, RoomInv t ∧ t.Rounds → LeaderInRound t e →
      (RoomInv ((room delay).next t e) ∧ ((room delay).next t e).Rounds) ∧
        t.group.generationId ≤ ((room delay).next t e).group.generationId := by
    intro t e ht hok
    have hfollows := ht.1.step delay ht.2 hok
    exact ⟨⟨hfollows.1, ht.2.step ht.1.indexed delay hok⟩, hfollows.2⟩
  have hboth : RoomInv r ∧ r.Rounds :=
    h.preserves (P := fun t => RoomInv t ∧ t.Rounds) (fun t e ht _ hok => (hstep t e ht hok).1)
      ⟨.start groupId, .start groupId⟩
  have hinv := hboth.1
  refine (and_iff_left_of_imp fun hsame => ⟨hinv.ledger.elected_unique, fun hs => ?_, fun r' hr' => ?_, ?_⟩).mpr
    fun a ha hok => ?_
  · -- Two answers of one generation are read from the same list.
    obtain ⟨l, hl, hgen, -⟩ := hinv.ledger.synced a ha hok
    refine ⟨l, hl, hgen, hinv.ledger.installed_elected l hl, fun b hb hbok hbgen => ?_⟩
    obtain ⟨l', hl', hgen', hb'⟩ := hinv.ledger.synced b hb hbok
    obtain rfl := hinv.ledger.installed_unique l hl l' hl' (by omega)
    exact hb'
  · obtain ⟨l, -, -, hleader, hfirst, -⟩ := hinv.stableAs hs
    obtain ⟨answer, hanswer, hlisted⟩ := Option.map_eq_some_iff.mp hfirst
    exact ⟨l.leader, answer, hleader, hanswer, hlisted⟩
  · exact (hr'.relates (P := fun t => RoomInv t ∧ t.Rounds)
      (R := fun r r' => r.group.generationId ≤ r'.group.generationId)
      hboth (fun _ => le_rfl) (fun hab hbc => hab.trans hbc) fun t e ht _ hok => hstep t e ht hok).2
  · intro P owns hlists a ha b hb haok hbok hgen p hap hbp
    obtain ⟨l, hl, -, -, hread⟩ := hsame a ha haok
    rw [hread a ha haok rfl] at hap
    rw [hread b hb hbok hgen.symm] at hbp
    exact hlists l hl _ _ p hap hbp

def joinAs (id : MemberId) : Event :=
  .join ⟨id, none, "consumer", [("range", [])], 30000, 60000⟩ 3 "client" "/127.0.0.1" "uuid" 0 true

def syncAs (id : MemberId) (assignments : List (MemberId × Bytes)) : Event :=
  .sync ⟨id, none, 1, assignments⟩ true

/-- Two members join, the first one leads, and both sync. -/
def firstRound : List Event :=
  [joinAs "a", joinAs "b", .deadline 3000, syncAs "b" [], syncAs "a" [("a", [0]), ("b", [1])]]

/-- The successful answers of a run: member, generation, assignment. -/
def told (r : Room) : List (MemberId × ℤ × Bytes) :=
  (r.synced.filter fun a => a.result.errorCode = 0).map fun a =>
    (a.memberId, a.generationId, a.result.assignment)

theorem one_list_per_generation_firstRound :
    (((room 3000).execs (.start "g") firstRound).group.state = .stable → ∃ leader answer,
      ((room 3000).execs (.start "g") firstRound).group.leaderId = some leader ∧
      firstJoin ((room 3000).execs (.start "g") firstRound).joined
        ((room 3000).execs (.start "g") firstRound).group.generationId leader = some answer ∧
      listed answer = memberIds ((room 3000).execs (.start "g") firstRound).group) ∧
    told ((room 3000).execs (.start "g") firstRound) = [("a", 1, [0]), ("b", 1, [1])] :=
  ⟨(one_list_per_generation 3000 "g" Sys.run_of_runsOk).2.2.1, by decide +kernel⟩

def secondSync : List Event := firstRound ++ [syncAs "a" [("a", [1]), ("b", [0])]]

/-- **A leader syncs twice**: in one generation both members are told to own the second partition. -/
theorem leader_syncs_twice :
    (room 3000).AnyRun (.start "g") ((room 3000).execs (.start "g") secondSync) ∧
      told ((room 3000).execs (.start "g") secondSync) = [("a", 1, [0]), ("b", 1, [1]), ("a", 1, [1])] :=
  ⟨Sys.run_of_runs, by decide +kernel⟩

end Crabka.Broker.Group.Classic
