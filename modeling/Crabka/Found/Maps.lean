import Crabka.Found.Lists

/-!
# Finite maps and the lists that enumerate them

Maps are `Std.ExtTreeMap`s over lawful orders: equal when they have the same entries. The iterations of a hash map are
the permutations of `toList`. A map is rebuilt from one entry by entry (`rebuild`), or item by item into the group of a
key (`upsert`, `foldl_upsert_groups`), where keys without items do not come back.
-/

namespace Crabka.Found
open Option hiding map_map mem_map
open List
open Std (ExtTreeMap TransOrd LawfulEqOrd)
open Std.ExtTreeMap (contains_eq_isSome_getElem? erase ext_getElem? getElem?_empty getElem?_map getKey_eq)
open Prod hiding map map_map

instance instOrdProdLex {α β : Type} [Ord α] [Ord β] : Ord (α × β) := lexOrd

section
variable {α β : Type} [Ord α] [TransOrd α] [LawfulEqOrd α]

/-! ## Lookups -/

lemma getElem?_insert [DecidableEq α] (m : ExtTreeMap α β) (k : α) (v : β) (a : α) :
    (m.insert k v)[a]? = if a = k then some v else m[a]? := by
  rw [ExtTreeMap.getElem?_insert]
  by_cases h : a = k
  · simp [h]
  · simp [h, Ne.symm h]

lemma insert_insert (m : ExtTreeMap α β) (k : α) (v v' : β) : (m.insert k v).insert k v' = m.insert k v' := by
  classical
  refine ext_getElem? fun a => ?_
  rw [getElem?_insert, getElem?_insert, getElem?_insert]
  split <;> rfl

variable {m : ExtTreeMap α β} {k : α} {v : β}

lemma insert_eq_self (h : m[k]? = some v) : m.insert k v = m := by
  classical
  refine ext_getElem? fun a => ?_
  rw [getElem?_insert]
  split_ifs with ha
  · rw [ha, h]
  · rfl

lemma getElem?_erase [DecidableEq α] (m : ExtTreeMap α β) (k a : α) :
    (m.erase k)[a]? = if a = k then none else m[a]? := by
  rw [ExtTreeMap.getElem?_erase]
  by_cases h : a = k
  · simp [h]
  · simp [h, Ne.symm h]

lemma getElem?_modify [DecidableEq α] (m : ExtTreeMap α β) (k : α) (f : β → β) (a : α) :
    (m.modify k f)[a]? = if a = k then m[a]?.map f else m[a]? := by
  rw [ExtTreeMap.getElem?_modify]
  by_cases h : a = k
  · simp [h]
  · simp [h, Ne.symm h]

lemma modify_eq_insert (h : m[k]? = some v) (f : β → β) : m.modify k f = m.insert k (f v) := by
  classical
  refine ext_getElem? fun a => ?_
  rw [getElem?_modify, getElem?_insert]
  split_ifs with ha
  · rw [ha, h, map_some]
  · rfl

lemma contains_modify (m : ExtTreeMap α β) (k : α) (f : β → β) (a : α) :
    (m.modify k f).contains a = m.contains a := by
  classical
  rw [contains_eq_isSome_getElem?, contains_eq_isSome_getElem?, getElem?_modify]
  split
  · rw [isSome_map]
  · rfl

lemma getElem?_filter (m : ExtTreeMap α β) (p : α → β → Bool) (a : α) : (m.filter p)[a]? = m[a]?.filter (p a) := by
  simp only [ExtTreeMap.getElem?_filter, getKey_eq, pfilter_eq_filter]

lemma getElem?_filterMap {γ : Type} (m : ExtTreeMap α β) (f : α → β → Option γ) (a : α) :
    (m.filterMap f)[a]? = m[a]?.bind (f a) := by
  simp only [ExtTreeMap.getElem?_filterMap, getKey_eq, pbind_eq_bind]

lemma filter_eq_self_iff {p : α → β → Bool} : m.filter p = m ↔ ∀ (k : α) v, m[k]? = some v → p k v = true := by
  constructor
  · intro h k v hk
    rw [← h, getElem?_filter, filter_eq_some_iff] at hk
    exact hk.2
  · intro h
    refine ext_getElem? fun k => ?_
    rw [getElem?_filter]
    cases hk : m[k]? with
    | none => rfl
    | some v => exact filter_eq_some_iff.mpr ⟨rfl, h k v hk⟩

lemma map_eq_self_iff {f : α → β → β} : m.map f = m ↔ ∀ (k : α) v, m[k]? = some v → f k v = v := by
  constructor
  · intro h k v hk
    have hmap := congrArg (·[k]?) h
    simpa [getElem?_map, hk] using hmap
  · intro h
    refine ext_getElem? fun k => ?_
    rw [ExtTreeMap.getElem?_map]
    cases hk : m[k]? with
    | none => rfl
    | some v => exact congrArg some (h k v hk)

omit [LawfulEqOrd α] in
lemma exists_of_contains (h : m.contains k) : ∃ v, m[k]? = some v :=
  isSome_iff_exists.mp (contains_eq_isSome_getElem?.symm.trans h)

lemma mem_toList (m : ExtTreeMap α β) : (k, v) ∈ m.toList ↔ m[k]? = some v :=
  ExtTreeMap.mem_toList_iff_getElem?_eq_some

lemma getElem?_foldl_erase [DecidableEq α] (ks : List α) (m : ExtTreeMap α β) (a : α) :
    (ks.foldl erase m)[a]? = if a ∈ ks then none else m[a]? := by
  induction ks generalizing m with
  | nil => simp
  | cons k ks ih =>
    rw [foldl_cons, ih, getElem?_erase]
    by_cases ha : a ∈ ks
    · simp [ha]
    · by_cases hk : a = k <;> simp [ha, hk]

lemma forall_getElem?_iff {P : α → β → Prop} :
    (∀ (k : α) v, m[k]? = some v → P k v) ↔ ∀ e ∈ m.toList, P e.1 e.2 :=
  ⟨fun h e he => h e.1 e.2 ((mem_toList m).mp he), fun h k v hk => h (k, v) ((mem_toList m).mpr hk)⟩

lemma nodup_keys_toList (m : ExtTreeMap α β) : (m.toList.map fst).Nodup := by
  rw [List.Nodup, pairwise_map]
  refine m.distinct_keys_toList.imp fun h heq => h ?_
  rw [heq]
  exact Std.ReflCmp.compare_self

section
variable {l : List (α × β)} (h : l.Perm m.toList)
include h

lemma nodup_keys_of_perm : (l.map fst).Nodup := (h.map fst).nodup_iff.mpr (nodup_keys_toList m)

lemma mem_of_perm {e : α × β} : e ∈ l ↔ m[e.1]? = some e.2 := h.mem_iff.trans (mem_toList m)

end

/-! ## Rebuilding a map from an iteration -/

/-- The entries inserted one after the other. -/
def rebuild (m : ExtTreeMap α β) (l : List (α × β)) : ExtTreeMap α β :=
  l.foldl (fun acc e => acc.insert e.1 e.2) m

variable {l : List (α × β)}

lemma getElem?_rebuild_of_not_mem (h : k ∉ l.map fst) : (rebuild m l)[k]? = m[k]? := by
  classical
  induction l generalizing m with
  | nil => rfl
  | cons e l ih =>
    rw [map_cons, mem_cons, not_or] at h
    show (rebuild (m.insert e.1 e.2) l)[k]? = m[k]?
    rw [ih h.2, getElem?_insert, if_neg h.1]

lemma getElem?_rebuild_congr {m m' : ExtTreeMap α β}
    (h : k ∈ l.map fst) : (rebuild m l)[k]? = (rebuild m' l)[k]? := by
  classical
  induction l generalizing m m' with
  | nil => cases h
  | cons e l ih =>
    show (rebuild (m.insert e.1 e.2) l)[k]? = (rebuild (m'.insert e.1 e.2) l)[k]?
    by_cases hl : k ∈ l.map fst
    · exact ih hl
    · rw [getElem?_rebuild_of_not_mem hl, getElem?_rebuild_of_not_mem hl, getElem?_insert,
        getElem?_insert]
      rcases mem_cons.mp h with rfl | h
      · rw [if_pos rfl, if_pos rfl]
      · exact absurd h hl

lemma getElem?_rebuild_of_mem (hnd : (l.map fst).Nodup) (h : (k, v) ∈ l) : (rebuild m l)[k]? = some v := by
  classical
  induction l generalizing m with
  | nil => cases h
  | cons e l ih =>
    rw [map_cons, nodup_cons] at hnd
    show (rebuild (m.insert e.1 e.2) l)[k]? = some v
    rcases mem_cons.mp h with rfl | h
    · rw [getElem?_rebuild_of_not_mem hnd.1, getElem?_insert, if_pos rfl]
    · exact ih hnd.2 h

/-- **A map is rebuilt from each of its iterations.** -/
theorem rebuild_of_perm (h : l.Perm m.toList) : rebuild ∅ l = m := by
  have hnd : (l.map fst).Nodup := nodup_keys_of_perm h
  refine ext_getElem? fun k => ?_
  cases hk : m[k]? with
  | some v => exact getElem?_rebuild_of_mem hnd ((mem_of_perm h).mpr hk)
  | none =>
    rw [getElem?_rebuild_of_not_mem, getElem?_empty]
    intro hmem
    obtain ⟨⟨k', v⟩, he, rfl⟩ := mem_map.mp hmem
    rw [(mem_of_perm h).mp he] at hk
    cases hk

lemma foldl_of_perm
    {step : ExtTreeMap α β → α × β → ExtTreeMap α β} (h : l.Perm m.toList)
    (hstep : ∀ acc k v, m[k]? = some v → step acc (k, v) = acc.insert k v) :
    l.foldl step ∅ = m := by
  rw [← rebuild_of_perm h]
  refine foldl_ext _ _ _ fun acc e he => ?_
  exact hstep acc e.1 e.2 ((mem_of_perm h).mp he)

end

/-! ## Groups -/

section
variable {κ ν ξ : Type}

def keyedItems (groups : List (κ × List ξ)) : List (κ × ξ) :=
  groups.flatMap fun g => g.2.map (g.1, ·)

lemma flatMap_eq_map_keyedItems {ρ : Type} (l : List (κ × ν)) (items : ν → List ξ) (g : κ × ξ → ρ) :
    (l.flatMap fun e => (items e.2).map fun x => g (e.1, x)) =
      (keyedItems (l.map fun e => (e.1, items e.2))).map g := by
  simp only [keyedItems, flatMap_map, map_flatMap, map_map]
  rfl

variable {l : List (κ × ν)} {k : κ}
lemma mem_keyedItems {items : ν → List ξ} {x : ξ} :
    (k, x) ∈ keyedItems (l.map fun e => (e.1, items e.2)) ↔ ∃ v, (k, v) ∈ l ∧ x ∈ items v := by
  simp only [keyedItems, flatMap_map, mem_flatMap, mem_map, mk.injEq]
  constructor
  · rintro ⟨⟨k', v⟩, he, x', hx, rfl, rfl⟩
    exact ⟨v, he, hx⟩
  · rintro ⟨v, he, hx⟩
    exact ⟨(k, v), he, x, hx, rfl, rfl⟩

lemma nodup_keyedItems {ι : Type} {items : ν → List ξ} (key : ξ → ι)
    (hnd : (l.map fst).Nodup) (hitems : ∀ e ∈ l, ((items e.2).map key).Nodup) :
    ((keyedItems (l.map fun e => (e.1, items e.2))).map fun e => (e.1, key e.2)).Nodup := by
  rw [← flatMap_eq_map_keyedItems l items fun e => (e.1, key e.2), nodup_flatMap]
  refine ⟨fun e he => ?_, ?_⟩
  · have := (hitems e he).map (f := fun i => (e.1, i)) fun a b h => (mk.inj h).2
    rwa [map_map] at this
  · refine (pairwise_map.mp hnd).imp fun {a b} hab => ?_
    intro y ha hb
    obtain ⟨x, -, rfl⟩ := mem_map.mp ha
    obtain ⟨x', -, heq⟩ := mem_map.mp hb
    exact hab (mk.inj heq).1.symm

variable {groups : List (κ × List ξ)}
lemma filter_keyedItems_of_not_mem [DecidableEq κ]
    (h : k ∉ groups.map fst) : (keyedItems groups).filter (·.1 = k) = [] := by
  rw [filter_eq_nil_iff]
  rintro ⟨k', x⟩ hx heq
  obtain ⟨g, hg, hx'⟩ := mem_flatMap.mp hx
  obtain ⟨x', -, hpair⟩ := mem_map.mp hx'
  obtain ⟨rfl, -⟩ := mk.inj hpair
  exact h (mem_map.mpr ⟨g, hg, by simpa using heq⟩)

lemma filter_keyedItems_of_mem [DecidableEq κ]
    {items : List ξ} (hnd : (groups.map fst).Nodup) (h : (k, items) ∈ groups) :
    (keyedItems groups).filter (·.1 = k) = items.map (k, ·) := by
  induction groups with
  | nil => cases h
  | cons g groups ih =>
    rw [map_cons, nodup_cons] at hnd
    show (g.2.map (g.1, ·) ++ keyedItems groups).filter (·.1 = k) = items.map (k, ·)
    rw [filter_append]
    rcases mem_cons.mp h with rfl | hmem
    · rw [filter_keyedItems_of_not_mem hnd.1, append_nil, filter_eq_self.mpr (by simp)]
    · have hne : g.1 ≠ k := fun heq => hnd.1 (heq ▸ mem_map.mpr ⟨_, hmem, rfl⟩)
      rw [ih hnd.2 hmem, filter_eq_nil_iff.mpr (by simp [hne]), nil_append]

variable [Ord κ] [TransOrd κ] [LawfulEqOrd κ]

/-- Update the value of a key, a default where there is none (`entry(k).or_default()`). -/
def upsert (m : ExtTreeMap κ ν) (k : κ) (d : ν) (f : ν → ν) : ExtTreeMap κ ν :=
  m.insert k (f (m[k]?.getD d))

lemma foldl_upsert_same (d : ν) (f : ν → ξ → ν) (k : κ) (items : List ξ) (m : ExtTreeMap κ ν) (h : items ≠ []) :
    items.foldl (fun m x => upsert m k d (f · x)) m = m.insert k (items.foldl f (m[k]?.getD d)) := by
  classical
  induction items generalizing m with
  | nil => exact absurd rfl h
  | cons x items ih =>
    rw [foldl_cons, foldl_cons]
    rcases eq_or_ne items [] with rfl | hne
    · rfl
    · rw [ih _ hne]
      unfold upsert
      rw [getElem?_insert, if_pos rfl, getD_some]
      refine ext_getElem? fun a => ?_
      rw [getElem?_insert, getElem?_insert, getElem?_insert]
      split <;> rfl

/-- The items of all groups, folded into an initial map. -/
def foldGroups (d : ν) (f : ν → ξ → ν) (m : ExtTreeMap κ ν) (groups : List (κ × List ξ)) :
    ExtTreeMap κ ν :=
  (keyedItems groups).foldl (fun m e => upsert m e.1 d (f · e.2)) m

lemma getElem?_foldl_modify [DecidableEq κ] (f : ξ → ν → ν) (l : List (κ × ξ)) (m : ExtTreeMap κ ν) (k : κ) :
    (l.foldl (fun m e => m.modify e.1 (f e.2)) m)[k]? =
      m[k]?.map fun v => (l.filter (·.1 = k)).foldl (fun v e => f e.2 v) v := by
  induction l generalizing m with
  | nil => simp
  | cons e l ih =>
    rw [foldl_cons, ih, getElem?_modify]
    obtain rfl | hk := eq_or_ne k e.1
    · simp [Function.comp_def]
    · simp [hk, Ne.symm hk]

omit [LawfulEqOrd κ] in
lemma foldGroups_cons (d : ν) (f : ν → ξ → ν) (m : ExtTreeMap κ ν) (g : κ × List ξ) (groups : List (κ × List ξ)) :
    foldGroups d f m (g :: groups) = foldGroups d f (g.2.foldl (fun m x => upsert m g.1 d (f · x)) m) groups := by
  unfold foldGroups keyedItems
  rw [flatMap_cons, foldl_append, foldl_map]

variable {m : ExtTreeMap κ ν} {f : ν → ξ → ν}

lemma getElem?_foldGroups_of_not_mem {d : ν} (h : k ∉ groups.map fst) : (foldGroups d f m groups)[k]? = m[k]? := by
  classical
  induction groups generalizing m with
  | nil => rfl
  | cons g groups ih =>
    rw [map_cons, mem_cons, not_or] at h
    rw [foldGroups_cons, ih h.2]
    rcases eq_or_ne g.2 [] with hnil | hne
    · rw [hnil]; rfl
    · rw [foldl_upsert_same _ _ _ _ _ hne, getElem?_insert, if_neg h.1]

lemma getElem?_foldGroups_of_mem {d : ν}
    {items : List ξ} (hnd : (groups.map fst).Nodup)
    (hk : m[k]? = none) (h : (k, items) ∈ groups) :
    (foldGroups d f m groups)[k]? = if items = [] then none else some (items.foldl f d) := by
  classical
  induction groups generalizing m with
  | nil => cases h
  | cons g groups ih =>
    rw [map_cons, nodup_cons] at hnd
    rw [foldGroups_cons]
    rcases mem_cons.mp h with rfl | hmem
    · rw [getElem?_foldGroups_of_not_mem hnd.1]
      rcases eq_or_ne items [] with rfl | hne
      · rw [if_pos rfl]; exact hk
      · rw [if_neg hne, foldl_upsert_same _ _ _ _ _ hne, getElem?_insert, if_pos rfl, hk]
        rfl
    · refine ih hnd.2 ?_ hmem
      have hne : k ≠ g.1 := fun heq => hnd.1 (heq ▸ mem_map.mpr ⟨_, hmem, rfl⟩)
      rcases eq_or_ne g.2 [] with hnil | hne'
      · rw [hnil]; exact hk
      · rwa [foldl_upsert_same _ _ _ _ _ hne', getElem?_insert, if_neg hne]

/-- **A map of groups is rebuilt from each of its iterations**, except for the keys whose group is empty. -/
theorem foldGroups_of_perm {d : ν}
    (items : ν → List ξ) (h : l.Perm m.toList)
    (hback : ∀ (k : κ) (v : ν), m[k]? = some v → items v ≠ [] → (items v).foldl f d = v) :
    foldGroups d f ∅ (l.map fun e => (e.1, items e.2)) = m.filter fun _ v => !(items v).isEmpty := by
  have hnd : ((l.map fun e => (e.1, items e.2)).map fst).Nodup := by
    rw [map_map]
    exact nodup_keys_of_perm h
  refine ext_getElem? fun k => ?_
  rw [getElem?_filter]
  cases hk : m[k]? with
  | some v =>
    have hmem : (k, items v) ∈ l.map fun e => (e.1, items e.2) :=
      mem_map.mpr ⟨(k, v), (mem_of_perm h).mpr hk, rfl⟩
    rw [getElem?_foldGroups_of_mem hnd getElem?_empty hmem]
    rcases eq_or_ne (items v) [] with hnil | hne
    · simp [hnil, Option.filter]
    · simp [hne, hback k v hk hne, Option.filter]
  | none =>
    rw [getElem?_foldGroups_of_not_mem, getElem?_empty, filter_none]
    intro hmem
    rw [map_map] at hmem
    obtain ⟨⟨k', v⟩, he, rfl⟩ := mem_map.mp hmem
    have hsome : m[k']? = some v := (mem_of_perm h).mp he
    exact absurd (hk.symm.trans hsome) (by simp)

end

/-! ## Maps related entry by entry -/

section
variable {κ ν ν' : Type} [Ord κ] [TransOrd κ] [LawfulEqOrd κ]
omit [Ord κ] [TransOrd κ] [LawfulEqOrd κ] in
lemma rel_imp {R R' : ν → ν' → Prop} {o : Option ν} {o' : Option ν'} (h : Option.Rel R o o')
    (hR : ∀ a b, R a b → R' a b) : Option.Rel R' o o' := by
  cases h with
  | none => exact .none
  | some hab => exact .some (hR _ _ hab)

/-- Two maps with the same keys, whose values are related key by key. -/
def Related (R : κ → ν → ν' → Prop) (m : ExtTreeMap κ ν) (m' : ExtTreeMap κ ν') : Prop :=
  ∀ k : κ, Option.Rel (R k) m[k]? m'[k]?

namespace Related
variable {R R' : κ → ν → ν' → Prop} {m : ExtTreeMap κ ν} {m' : ExtTreeMap κ ν'} {k : κ}
section
variable (h : Related R m m')
include h

section
omit [LawfulEqOrd κ]

lemma right {a : ν} (ha : m[k]? = some a) : ∃ b, m'[k]? = some b ∧ R k a b := by
  have hk := h k
  rw [ha] at hk
  generalize m'[k]? = o at hk
  cases hk with
  | some hab => exact ⟨_, rfl, hab⟩

lemma left {b : ν'} (hb : m'[k]? = some b) : ∃ a, m[k]? = some a ∧ R k a b := by
  have hk := h k
  rw [hb] at hk
  generalize m[k]? = o at hk
  cases hk with
  | some hab => exact ⟨_, rfl, hab⟩

lemma none_right (hk : m[k]? = none) : m'[k]? = none := by
  have := h k
  rw [hk] at this
  generalize m'[k]? = o at this
  cases this
  rfl

lemma contains_eq : m'.contains k = m.contains k := by
  rw [contains_eq_isSome_getElem?, contains_eq_isSome_getElem?]
  have hk := h k
  generalize m[k]? = o at hk
  generalize m'[k]? = o' at hk
  cases hk <;> rfl

lemma mono (hR : ∀ j a b, R j a b → R' j a b) : Related R' m m' :=
  fun j => rel_imp (h j) (hR j)

end

lemma insert {a : ν} {b : ν'} (hab : R' k a b)
    (hR : ∀ j a b, j ≠ k → R j a b → R' j a b) : Related R' (m.insert k a) (m'.insert k b) := by
  classical
  intro j
  rw [getElem?_insert, getElem?_insert]
  obtain rfl | hj := eq_or_ne j k
  · rw [if_pos rfl, if_pos rfl]
    exact .some hab
  · rw [if_neg hj, if_neg hj]
    exact rel_imp (h j) fun a b => hR j a b hj

lemma erase (hR : ∀ j a b, j ≠ k → R j a b → R' j a b) : Related R' (m.erase k) (m'.erase k) := by
  classical
  intro j
  rw [getElem?_erase, getElem?_erase]
  by_cases hj : j = k
  · rw [if_pos hj, if_pos hj]
    exact .none
  · rw [if_neg hj, if_neg hj]
    exact rel_imp (h j) fun a b => hR j a b hj

lemma modify {f : ν → ν} {g : ν' → ν'}
    (hk : ∀ a b, m[k]? = some a → m'[k]? = some b → R k a b → R' k (f a) (g b))
    (hR : ∀ j a b, j ≠ k → R j a b → R' j a b) : Related R' (m.modify k f) (m'.modify k g) := by
  classical
  intro j
  rw [getElem?_modify, getElem?_modify]
  obtain rfl | hj := eq_or_ne j k
  · rw [if_pos rfl, if_pos rfl]
    cases ha : m[j]? with
    | none =>
      rw [h.none_right ha]
      exact .none
    | some a =>
      obtain ⟨b, hb, hab⟩ := h.right ha
      rw [hb]
      exact .some (hk a b ha hb hab)
  · rw [if_neg hj, if_neg hj]
    exact rel_imp (h j) fun a b => hR j a b hj

lemma modify_right {g : ν' → ν'} (hk : ∀ a b, R k a b → R k a (g b)) : Related R m (m'.modify k g) := by
  classical
  intro j
  rw [getElem?_modify]
  obtain rfl | hj := eq_or_ne j k
  · rw [if_pos rfl]
    cases ha : m[j]? with
    | none =>
      rw [h.none_right ha]
      exact .none
    | some a =>
      obtain ⟨b, hb, hab⟩ := h.right ha
      rw [hb]
      exact .some (hk a b hab)
  · rw [if_neg hj]
    exact h j

end
variable {R : κ → ν → ν → Prop}
omit [LawfulEqOrd κ] in
lemma refl (m : ExtTreeMap κ ν) (hR : ∀ j a, R j a a) : Related R m m := by
  intro j
  cases m[j]? with
  | none => exact .none
  | some a => exact .some (hR j a)

lemma eq {m m' : ExtTreeMap κ ν} (h : Related R m m') (hR : ∀ j a b, R j a b → a = b) : m = m' := by
  refine ext_getElem? fun j => ?_
  have hj := h j
  generalize m[j]? = o at hj
  generalize m'[j]? = o' at hj
  cases hj with
  | none => rfl
  | some hab => rw [hR j _ _ hab]

end Related
end
end Crabka.Found
