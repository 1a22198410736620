import Crabka.Broker.Group.Ownership

/-!
# What the uniform assignor gives to whom

`UniformAssignor` of `crates/broker/src/coordinator/unified/assignor/uniform.rs`, the default of a group. A round gives
the partitions of one topic each to one member (`assignUniform_spec`) and leaves the other topics alone (`rounds_spec`).
-/

namespace Crabka.Broker.Group
open Found
open List hiding getElem?_modify getElem?_insert
open Std (ExtTreeMap)
open Kraft (Uuid)

/-- The partitions of a topic that a member is given. -/
def listed (out : Assignment) (m : MemberId) (t : Uuid) : List ℤ := (out[m]?.getD ∅)[t]?.getD []

/-- The subscribers that may get a partition; of several entries for a member the last one has its rack. -/
def pool (members : List MemberSubscription) (racks : Uuid × ℤ → Option (List String)) (t : Uuid) (p : ℤ) :
    List MemberId :=
  eligibleSubscribersForPartition (subscribersOf members t)
    (fun sid => (members.reverse.find? (·.memberId = sid)).bind (·.rackId)) (racks (t, p))

def Ready (members : List MemberSubscription) (out : Assignment) : Prop := ∀ s ∈ members, out.contains s.memberId

variable {members : List MemberSubscription} {racks : Uuid × ℤ → Option (List String)} {out : Assignment} {t t' : Uuid}
  {m k : MemberId} {p : ℤ}

/-! ## Who may get a partition -/

lemma exists_leastLoaded (count : MemberId → ℕ) {l : List MemberId} (h : l ≠ []) :
    ∃ best ∈ l, leastLoaded count l = some best := by
  induction l with
  | nil => exact absurd rfl h
  | cons sid rest ih =>
    rw [leastLoaded]
    cases hrest : leastLoaded count rest with
    | none => exact ⟨sid, mem_cons_self, rfl⟩
    | some best =>
      have hbest : best ∈ rest := by
        obtain ⟨b, hb, heq⟩ := ih (by rintro rfl; cases hrest)
        exact Option.some.inj (hrest.symm.trans heq) ▸ hb
      dsimp only
      split_ifs
      · exact ⟨best, mem_cons_of_mem _ hbest, rfl⟩
      · exact ⟨sid, mem_cons_self, rfl⟩

lemma pool_spec (p : ℤ) : pool members racks t p ⊆ subscribersOf members t ∧
    (subscribersOf members t ≠ [] → pool members racks t p ≠ []) := by
  unfold pool eligibleSubscribersForPartition
  split
  · exact ⟨Subset.refl _, id⟩
  · dsimp only
    split_ifs with hnil
    · exact ⟨Subset.refl _, id⟩
    · exact ⟨filter_subset_self _, fun _ => hnil⟩

lemma Ready.contains (h : Ready members out) (hm : m ∈ pool members racks t p) : out.contains m := by
  obtain ⟨s, hs, rfl⟩ : ∃ s ∈ members, s.memberId = m := by
    have hmem := (pool_spec p).1 hm
    simp only [subscribersOf, mem_insertionSort, mem_map, mem_filter] at hmem
    exact hmem.imp fun s h => ⟨h.1.1, h.2⟩
  exact h s hs

/-! ## Rounds -/

lemma mem_listed_push (hk : out.contains k) {q : ℤ} :
    q ∈ listed (out.modify k (upsert · t [] (· ++ [p]))) m t' ↔ q ∈ listed out m t' ∨ t' = t ∧ q = p ∧ k = m := by
  unfold listed upsert
  rw [getElem?_modify]
  obtain rfl | hm := eq_or_ne m k
  · obtain ⟨parts, hparts⟩ := exists_of_contains hk
    rw [if_pos rfl, hparts, Option.map_some, Option.getD_some, getElem?_insert, Option.getD_some]
    obtain rfl | ht := eq_or_ne t' t
    · simp
    · simp [ht]
  · simp [hm, hm.symm]

/-- The partitions of a topic go to one eligible member each. -/
lemma assignUniform_spec {eligible : ℤ → List MemberId} {ps : List ℤ} {count : MemberId → ℕ} (hps : ps.Nodup)
    (hne : ∀ p, eligible p ≠ []) (hin : ∀ p, ∀ m ∈ eligible p, out.contains m) :
    (∀ s, (assignUniform t eligible ps count out).contains s = out.contains s) ∧
      ∃ chosen : ℤ → MemberId, (∀ p, chosen p ∈ eligible p) ∧ ∀ m t' p,
        p ∈ listed (assignUniform t eligible ps count out) m t' ↔
          p ∈ listed out m t' ∨ t' = t ∧ p ∈ ps ∧ chosen p = m := by
  induction ps generalizing count out with
  | nil => exact ⟨fun s => rfl, fun p => (eligible p).head (hne p), fun p => head_mem _, by simp [assignUniform]⟩
  | cons q ps ih =>
    obtain ⟨hq, hps⟩ := nodup_cons.mp hps
    obtain ⟨best, hbest, hleast⟩ := exists_leastLoaded count (hne q)
    rw [assignUniform, hleast]
    obtain ⟨hcontains, chosen, hchosen, hlisted⟩ := @ih (out.modify best (upsert · t [] (· ++ [q])))
      (fun sid => if sid = best then count sid + 1 else count sid) hps
      fun p m hm => (contains_modify ..).trans (hin p m hm)
    refine ⟨fun s => (hcontains s).trans (contains_modify ..), Function.update chosen q best, fun p => ?_,
      fun m t' p => ?_⟩
    · obtain rfl | hp := eq_or_ne p q
      · simpa using hbest
      · simpa [hp] using hchosen p
    · rw [hlisted, mem_listed_push (hin q best hbest)]
      obtain rfl | hp := eq_or_ne p q
      · simp [hq]
      · simp [hp]

lemma listed_noPartitions : Ready members (noPartitions members) ∧ listed (noPartitions members) m t = [] := by
  unfold noPartitions
  induction members using reverseRecOn with
  | nil => simp [Ready, listed]
  | append_singleton members s ih =>
    obtain ⟨hready, hlisted⟩ := ih
    rw [foldl_append]
    refine ⟨fun s' hs' => ?_, ?_⟩
    · obtain hs' | rfl := mem_snoc.mp hs'
      · simp [hready s' hs']
      · simp
    · unfold listed at hlisted ⊢
      rw [foldl_cons, foldl_nil, getElem?_insert]
      split_ifs
      · simp
      · exact hlisted

def partitionsUpTo (c : ℤ) : List ℤ := (List.range c.toNat).map fun k : ℕ => (k : ℤ)

/-- The round for a topic. -/
def uniformRound (members : List MemberSubscription) (racks : Uuid × ℤ → Option (List String)) (out : Assignment)
    (e : Uuid × ℤ) : Assignment :=
  if subscribersOf members e.1 = [] then out
  else assignUniform e.1 (pool members racks e.1) (partitionsUpTo e.2) (fun _ => 0) out

lemma rounds_spec {rounds : List (Uuid × ℤ)} (hkeys : (rounds.map Prod.fst).Nodup) (hready : Ready members out) :
    ∃ chosen : Uuid → ℤ → MemberId,
      (∀ t p, subscribersOf members t ≠ [] → chosen t p ∈ pool members racks t p) ∧
      ∀ m t p, p ∈ listed (rounds.foldl (uniformRound members racks) out) m t ↔ p ∈ listed out m t ∨
        subscribersOf members t ≠ [] ∧ chosen t p = m ∧ ∃ c, (t, c) ∈ rounds ∧ p ∈ partitionsUpTo c := by
  induction rounds generalizing out with
  | nil =>
    have hpool : ∀ t p, ∃ m, subscribersOf members t ≠ [] → m ∈ pool members racks t p := by
      intro t p
      by_cases hne : subscribersOf members t = []
      · exact ⟨"", fun h => absurd hne h⟩
      · exact ⟨_, fun _ => head_mem ((pool_spec p).2 hne)⟩
    choose chosen hchosen using hpool
    exact ⟨chosen, hchosen, by simp⟩
  | cons e rounds ih =>
    obtain ⟨hnew, hkeys⟩ := nodup_cons.mp hkeys
    rw [foldl_cons, uniformRound]
    split_ifs with hnil
    · obtain ⟨chosen, hchosen, hlisted⟩ := ih hkeys hready
      refine ⟨chosen, hchosen, fun m t p => (hlisted m t p).trans ?_⟩
      obtain rfl | ht := eq_or_ne t e.1
      · simp [hnil]
      · simp [Prod.ext_iff, ht]
    · have hps : (partitionsUpTo e.2).Nodup := nodup_range.map fun _ _ => Int.ofNat_inj.mp
      obtain ⟨hcontains, picked, hpicked, hround⟩ := @assignUniform_spec out e.1 (pool members racks e.1) _
        (fun _ => 0) hps (fun p => (pool_spec p).2 hnil) fun p m hm => hready.contains hm
      obtain ⟨chosen, hchosen, hlisted⟩ := ih hkeys fun s hs => (hcontains _).trans (hready s hs)
      refine ⟨Function.update chosen e.1 picked, fun t p hne => ?_, fun m t p => (hlisted m t p).trans ?_⟩
      · obtain rfl | ht := eq_or_ne t e.1
        · simpa using hpicked p
        · simpa [ht] using hchosen t p hne
      · rw [hround]
        obtain rfl | ht := eq_or_ne t e.1
        · have hout : ∀ c, (e.1, c) ∉ rounds := fun c hc => hnew (mem_map.mpr ⟨_, hc, rfl⟩)
          simp [hnil, hout, Prod.ext_iff, and_comm]
        · simp [Prod.ext_iff, ht]

end Crabka.Broker.Group
