import Crabka.Found.Maps

/-!
# Replaying writes over their own result

Replaying a history of writes on its own result `f` gives `f` again when every write fixes what it writes: each entry
of the replayed state is the entry of the history at the same point, or still the final entry (`Mixed`). The same holds
for nested maps (`MixedCells`) and for lists that move what they are given to their end (`Rebuilt`).
-/

namespace Crabka.Found
open List
open Std (ExtTreeMap TransOrd LawfulEqOrd)

/-! ## Entries of a map -/

section
variable {κ ν : Type} [Ord κ] [TransOrd κ] [LawfulEqOrd κ] {f l r : ExtTreeMap κ ν}

/-- Every entry of the replayed map is the one of the history or the final one. -/
def Mixed (f l r : ExtTreeMap κ ν) : Prop := ∀ k : κ, r[k]? = l[k]? ∨ r[k]? = f[k]?

omit [LawfulEqOrd κ] in
lemma Mixed.start : Mixed f l f := fun _ => .inr rfl

lemma Mixed.eq (h : Mixed f f r) : r = f := ExtTreeMap.ext_getElem? fun k => (h k).elim id id

lemma Mixed.insert (h : Mixed f l r) (k : κ) (v : ν) : Mixed f (l.insert k v) (r.insert k v) := by
  classical
  intro j
  rw [getElem?_insert, getElem?_insert]
  split
  · exact .inl rfl
  · exact h j

lemma Mixed.erase (h : Mixed f l r) (k : κ) : Mixed f (l.erase k) (r.erase k) := by
  classical
  intro j
  rw [getElem?_erase, getElem?_erase]
  split
  · exact .inl rfl
  · exact h j

end

/-! ## Entries of nested maps -/

section
variable {κ ι ν : Type} [Ord κ] [TransOrd κ] [LawfulEqOrd κ] [Ord ι] [TransOrd ι] [LawfulEqOrd ι]

def cell (m : ExtTreeMap κ (ExtTreeMap ι ν)) (k : κ) (i : ι) : Option ν := m[k]?.bind (·[i]?)

omit [LawfulEqOrd κ] [LawfulEqOrd ι] in
lemma cell_eq_getD (m : ExtTreeMap κ (ExtTreeMap ι ν)) (k : κ) (i : ι) : cell m k i = (m[k]?.getD ∅)[i]? := by
  unfold cell
  cases m[k]? with
  | none => simp
  | some v => rfl

variable {f l r l' r' : ExtTreeMap κ (ExtTreeMap ι ν)}

/-- Every entry of the replayed map is the one of the history or the final one. -/
def MixedCells (f l r : ExtTreeMap κ (ExtTreeMap ι ν)) : Prop :=
  ∀ (k : κ) (i : ι), cell r k i = cell l k i ∨ cell r k i = cell f k i

omit [LawfulEqOrd κ] [LawfulEqOrd ι] in
lemma MixedCells.start : MixedCells f l f := fun _ _ => .inr rfl

omit [LawfulEqOrd κ] [LawfulEqOrd ι] in
lemma MixedCells.write [DecidableEq κ] [DecidableEq ι] (h : MixedCells f l r) {a : κ} {b : ι}
    {v : Option ν}
    (hl : ∀ (k : κ) (i : ι), cell l' k i = if k = a ∧ i = b then v else cell l k i)
    (hr : ∀ (k : κ) (i : ι), cell r' k i = if k = a ∧ i = b then v else cell r k i) :
    MixedCells f l' r' := by
  intro k i
  rw [hl, hr]
  split
  · exact .inl rfl
  · exact h k i

section
variable (hcells : ∀ (k : κ) (i : ι), cell r k i = cell f k i)
include hcells

lemma eq_of_cells (hkeys : ∀ k : κ, r.contains k = f.contains k) : r = f := by
  refine ExtTreeMap.ext_getElem? fun k => ?_
  have hk := hkeys k
  rw [ExtTreeMap.contains_eq_isSome_getElem?, ExtTreeMap.contains_eq_isSome_getElem?] at hk
  cases hr : r[k]? with
  | none =>
    rw [hr] at hk
    exact (Option.not_isSome_iff_eq_none.mp (by rw [← hk]; simp)).symm
  | some v =>
    rw [hr] at hk
    obtain ⟨w, hw⟩ := Option.isSome_iff_exists.mp hk.symm
    rw [hw]
    refine congrArg some (ExtTreeMap.ext_getElem? fun i => ?_)
    have := hcells k i
    rwa [cell, cell, hr, hw] at this

lemma eq_of_cells_nonempty
    (hr : ∀ (k : κ) (v : ExtTreeMap ι ν), r[k]? = some v → v.isEmpty = false)
    (hf : ∀ (k : κ) (v : ExtTreeMap ι ν), f[k]? = some v → v.isEmpty = false) : r = f := by
  -- A key is there exactly when one of its entries is.
  have hkey : ∀ {m : ExtTreeMap κ (ExtTreeMap ι ν)},
      (∀ (k : κ) (v : ExtTreeMap ι ν), m[k]? = some v → v.isEmpty = false) → ∀ k : κ,
      m.contains k ↔ ∃ i, (cell m k i).isSome := by
    intro m hm k
    rw [ExtTreeMap.contains_eq_isSome_getElem?]
    cases hk : m[k]? with
    | none => simp [cell, hk]
    | some v =>
      have hne : v ≠ ∅ := by
        intro hv
        have := hm k v hk
        simp [hv] at this
      simp only [Option.isSome_some, cell, hk, Option.bind_some, true_iff]
      by_contra hall
      refine hne (ExtTreeMap.ext_getElem? fun i => ?_)
      have := not_exists.mp hall i
      rw [ExtTreeMap.getElem?_empty]
      simpa using this
  refine eq_of_cells hcells fun k => ?_
  rw [Bool.eq_iff_iff, hkey hr, hkey hf]
  simp only [hcells]

end
end

/-! ## Lists that are rebuilt from their end -/

section
variable {α : Type}

/-- The replayed list and the list of the history share what was touched, and keep the rest of the
final list and of the first list. -/
def Rebuilt (b f l r : List α) : Prop :=
  ∃ (touched : α → Bool) (t : List α), (∀ x ∈ t, touched x = true) ∧
    l = (b.filter fun x => !touched x) ++ t ∧ r = (f.filter fun x => !touched x) ++ t

variable {b f l r : List α}

lemma Rebuilt.start : Rebuilt b f b f := ⟨fun _ => false, [], by simp, by simp, by simp⟩

lemma Rebuilt.eq (h : Rebuilt b f f r) : r = f := by
  obtain ⟨touched, t, ht, hf, hr⟩ := h
  have hdrop : (t.filter fun x => !touched x) = [] :=
    filter_eq_nil_iff.mpr fun x hx => by simp [ht x hx]
  have hkept : (f.filter fun x => !touched x) = b.filter fun x => !touched x := by
    rw [hf, filter_append, hdrop, append_nil, filter_filter]
    simp
  rw [hr, hkept, ← hf]

lemma Rebuilt.move (h : Rebuilt b f l r) (keep : α → Bool) {s : List α}
    (hs : ∀ x ∈ s, keep x = false) : Rebuilt b f (l.filter keep ++ s) (r.filter keep ++ s) := by
  obtain ⟨touched, t, ht, hl, hr⟩ := h
  have hboth : ∀ x, (keep x && !touched x) = !(touched x || !keep x) := by
    intro x
    cases touched x <;> cases keep x <;> rfl
  refine ⟨fun x => touched x || !keep x, t.filter keep ++ s, ?_, ?_, ?_⟩
  · intro x hx
    rcases mem_append.mp hx with hx | hx
    · simp [ht x (mem_filter.mp hx).1]
    · simp [hs x hx]
  · rw [hl, filter_append, filter_filter, append_assoc]
    simp only [hboth]
  · rw [hr, filter_append, filter_filter, append_assoc]
    simp only [hboth]

lemma Rebuilt.filter (h : Rebuilt b f l r) (keep : α → Bool) : Rebuilt b f (l.filter keep) (r.filter keep) := by
  have hmove := h.move keep (s := []) (by simp)
  simpa using hmove

end
end Crabka.Found
