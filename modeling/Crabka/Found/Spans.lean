import Mathlib

/-!
# Runs of offsets that carry a value

A list of spans describes a partial function on offsets (`valueAt`). When the spans tile a window (`Tiles`), splitting a
span and merging neighbours with one value change neither the window nor the function.
-/

namespace Crabka.Found
open List

/-- The offsets from `first` to `last`, both included, with one value. -/
structure Span (α : Type*) where
  first : ℤ
  last : ℤ
  value : α
  deriving DecidableEq, Repr

variable {α β : Type*}

abbrev Span.Has (s : Span α) (o : ℤ) : Prop := s.first ≤ o ∧ o ≤ s.last

def Span.len (s : Span α) : ℤ := s.last - s.first + 1

def Span.with (s : Span α) (v : β) : Span β := ⟨s.first, s.last, v⟩

/-- The spans cover `[low, high)` one after the other, without gap or overlap. -/
def Tiles : ℤ → List (Span α) → ℤ → Prop
  | low, [], high => low = high
  | low, s :: ss, high => s.first = low ∧ s.first ≤ s.last ∧ Tiles (s.last + 1) ss high

def valueAt : List (Span α) → ℤ → Option α
  | [], _ => none
  | s :: ss, o => if s.Has o then some s.value else valueAt ss o

variable {ss ss' : List (Span α)} {s : Span α} {low high o : ℤ} {v : α}

lemma Tiles.le (h : Tiles low ss high) : low ≤ high := by
  induction ss generalizing low with
  | nil => exact h.le
  | cons s ss ih =>
    obtain ⟨rfl, hle, hss⟩ := h
    have := ih hss
    omega

lemma exists_of_valueAt (h : valueAt ss o = some v) : ∃ s ∈ ss, s.Has o ∧ s.value = v := by
  induction ss with
  | nil => cases h
  | cons s ss ih =>
    rw [valueAt] at h
    split_ifs at h with hs
    · exact ⟨s, mem_cons_self, hs, Option.some.inj h⟩
    · obtain ⟨t, ht, hrest⟩ := ih h
      exact ⟨t, mem_cons_of_mem _ ht, hrest⟩

section
variable (h : Tiles low ss high)
include h

lemma Tiles.bounds_of_mem (hs : s ∈ ss) (ho : s.Has o) : low ≤ o ∧ o < high := by
  induction ss generalizing low with
  | nil => cases hs
  | cons t ss ih =>
    obtain ⟨rfl, hle, hss⟩ := h
    have hend := hss.le
    rcases mem_cons.mp hs with rfl | hs
    · obtain ⟨h₁, h₂⟩ := ho
      omega
    · have := ih hss hs
      omega

lemma Tiles.first_le_last (hs : s ∈ ss) : s.first ≤ s.last := by
  induction ss generalizing low with
  | nil => cases hs
  | cons t ss ih =>
    rcases mem_cons.mp hs with rfl | hs
    · exact h.2.1
    · exact ih h.2.2 hs

lemma Tiles.bounds_of_valueAt (ho : valueAt ss o = some v) : low ≤ o ∧ o < high := by
  obtain ⟨s, hs, hso, -⟩ := exists_of_valueAt ho
  exact h.bounds_of_mem hs hso

lemma Tiles.valueAt_of_mem (hs : s ∈ ss) (ho : s.Has o) : valueAt ss o = some s.value := by
  induction ss generalizing low with
  | nil => cases hs
  | cons t ss ih =>
    obtain ⟨rfl, hle, hss⟩ := h
    rw [valueAt]
    rcases mem_cons.mp hs with rfl | hs
    · rw [if_pos ho]
    · have := (hss.bounds_of_mem hs ho).1
      rw [if_neg (by unfold Span.Has; omega)]
      exact ih hss hs

lemma Tiles.exists_valueAt (hlow : low ≤ o) (hhigh : o < high) : ∃ v, valueAt ss o = some v := by
  induction ss generalizing low with
  | nil =>
    have : low = high := h
    omega
  | cons s ss ih =>
    obtain ⟨rfl, hle, hss⟩ := h
    rw [valueAt]
    split
    · exact ⟨s.value, rfl⟩
    · rename_i hs
      exact ih hss (by unfold Span.Has at hs; omega)

lemma Tiles.exists_last (hne : ss ≠ []) : ∃ s ∈ ss, s.last + 1 = high := by
  induction ss generalizing low with
  | nil => exact absurd rfl hne
  | cons s ss ih =>
    cases ss with
    | nil => exact ⟨s, mem_cons_self, h.2.2⟩
    | cons t ts =>
      obtain ⟨u, hu, hlast⟩ := ih h.2.2 (cons_ne_nil t ts)
      exact ⟨u, mem_cons_of_mem _ hu, hlast⟩

lemma Tiles.max_end : max ((ss.map (·.last + 1)).max?.getD low) low = high := by
  by_cases hne : ss = []
  · subst hne
    have heq : low = high := h
    simp [heq]
  · have hmax : (ss.map (·.last + 1)).max? = some high := by
      refine List.max?_eq_some_iff.mpr ⟨?_, fun x hx => ?_⟩
      · obtain ⟨s, hs, hlast⟩ := h.exists_last hne
        exact mem_map.mpr ⟨s, hs, hlast⟩
      · obtain ⟨s, hs, rfl⟩ := mem_map.mp hx
        exact (h.bounds_of_mem hs ⟨h.first_le_last hs, le_rfl⟩).2
    rw [hmax]
    exact max_eq_left h.le

end

/-! ## New spans at the end -/

lemma Tiles.concat (h : Tiles low ss high) (hfirst : s.first = high) (hle : s.first ≤ s.last) :
    Tiles low (ss ++ [s]) (s.last + 1) := by
  induction ss generalizing low with
  | nil => exact ⟨hfirst.trans h.symm, hle, rfl⟩
  | cons t ss ih =>
    obtain ⟨rfl, hle', hss⟩ := h
    exact ⟨rfl, hle', ih hss⟩

lemma valueAt_append (ss ss' : List (Span α)) (o : ℤ) :
    valueAt (ss ++ ss') o = (valueAt ss o).or (valueAt ss' o) := by
  induction ss with
  | nil => rfl
  | cons s ss ih =>
    rw [cons_append, valueAt, valueAt]
    split
    · rfl
    · exact ih

/-! ## New values -/

def revalue (f : Span α → β) (ss : List (Span α)) : List (Span β) := ss.map fun s => s.with (f s)

lemma Tiles.revalue (f : Span α → β) (h : Tiles low ss high) : Tiles low (revalue f ss) high := by
  induction ss generalizing low with
  | nil => exact h
  | cons s ss ih =>
    obtain ⟨rfl, hle, hss⟩ := h
    exact ⟨rfl, hle, ih hss⟩

lemma exists_of_valueAt_revalue {f : Span α → β} {w : β} (h : valueAt (revalue f ss) o = some w) :
    ∃ s ∈ ss, s.Has o ∧ valueAt ss o = some s.value ∧ w = f s := by
  induction ss with
  | nil => cases h
  | cons s ss ih =>
    simp only [Crabka.Found.revalue, map_cons, valueAt] at h ⊢
    by_cases hs : s.Has o
    · have hs' : (s.with (f s)).Has o := hs
      rw [if_pos hs'] at h
      exact ⟨s, mem_cons_self, hs, by rw [if_pos hs], (Option.some.inj h).symm⟩
    · have hs' : ¬ (s.with (f s)).Has o := hs
      rw [if_neg hs'] at h
      obtain ⟨t, ht, hto, hval, hw⟩ := ih h
      exact ⟨t, mem_cons_of_mem _ ht, hto, by rw [if_neg hs]; exact hval, hw⟩

/-! ## Splitting -/

/-- The first span that has `o` after its first offset is split there. -/
def splitAtOffset (o : ℤ) : List (Span α) → List (Span α)
  | [] => []
  | s :: ss =>
    if s.first + 1 ≤ o ∧ o ≤ s.last then
      ⟨s.first, o - 1, s.value⟩ :: ⟨o, s.last, s.value⟩ :: ss
    else s :: splitAtOffset o ss

lemma Tiles.splitAtOffset (cut : ℤ) (h : Tiles low ss high) : Tiles low (splitAtOffset cut ss) high := by
  induction ss generalizing low with
  | nil => exact h
  | cons s ss ih =>
    obtain ⟨rfl, hle, hss⟩ := h
    rw [Crabka.Found.splitAtOffset]
    split_ifs with hcut
    · refine ⟨rfl, ?_, ?_, hcut.2, hss⟩
      · show s.first ≤ cut - 1
        omega
      · show cut = cut - 1 + 1
        omega
    · exact ⟨rfl, hle, ih hss⟩

lemma valueAt_splitAtOffset (cut : ℤ) (ss : List (Span α)) (o : ℤ) :
    valueAt (splitAtOffset cut ss) o = valueAt ss o := by
  induction ss with
  | nil => rfl
  | cons s ss ih =>
    rw [splitAtOffset]
    split_ifs with hcut
    · simp only [valueAt, Span.Has]
      by_cases h₁ : s.first ≤ o ∧ o ≤ cut - 1
      · rw [if_pos h₁, if_pos (by omega)]
      · rw [if_neg h₁]
        by_cases h₂ : cut ≤ o ∧ o ≤ s.last
        · rw [if_pos h₂, if_pos (by omega)]
        · rw [if_neg h₂, if_neg (by omega)]
    · simp only [valueAt, ih]

lemma exists_of_mem_splitAtOffset {cut : ℤ} (h : s ∈ splitAtOffset cut ss) : ∃ t ∈ ss, t.value = s.value := by
  induction ss with
  | nil => cases h
  | cons t ss ih =>
    rw [splitAtOffset] at h
    split at h
    · rcases mem_cons.mp h with rfl | h
      · exact ⟨t, mem_cons_self, rfl⟩
      · rcases mem_cons.mp h with rfl | h
        · exact ⟨t, mem_cons_self, rfl⟩
        · exact ⟨s, mem_cons_of_mem _ h, rfl⟩
    · rcases mem_cons.mp h with rfl | h
      · exact ⟨s, mem_cons_self, rfl⟩
      · obtain ⟨u, hu, huv⟩ := ih h
        exact ⟨u, mem_cons_of_mem _ hu, huv⟩

/-! ## Merging -/

section merge
variable [DecidableEq α]

/-- The span `s` takes in the spans behind it while they touch it and have its value. -/
def coalesceFrom (s : Span α) : List (Span α) → List (Span α)
  | [] => [s]
  | t :: ss =>
    if s.last + 1 = t.first ∧ s.value = t.value then coalesceFrom ⟨s.first, t.last, s.value⟩ ss
    else s :: coalesceFrom t ss

/-- Neighbours that touch and have one value are merged. -/
def coalesce : List (Span α) → List (Span α)
  | [] => []
  | s :: ss => coalesceFrom s ss

lemma Tiles.coalesceFrom (h : Tiles low (s :: ss) high) : Tiles low (coalesceFrom s ss) high := by
  induction ss generalizing s low with
  | nil => exact h
  | cons t ss ih =>
    obtain ⟨rfl, hle, rfl', hle', hss⟩ := h
    rw [Crabka.Found.coalesceFrom]
    split
    · refine ih ⟨rfl, ?_, hss⟩
      show s.first ≤ t.last
      omega
    · exact ⟨rfl, hle, ih ⟨rfl', hle', hss⟩⟩

lemma Tiles.coalesce (h : Tiles low ss high) : Tiles low (coalesce ss) high := by
  cases ss with
  | nil => exact h
  | cons s ss => exact h.coalesceFrom

lemma valueAt_coalesceFrom (h : Tiles low (s :: ss) high) (o : ℤ) :
    valueAt (coalesceFrom s ss) o = valueAt (s :: ss) o := by
  induction ss generalizing s low with
  | nil => rfl
  | cons t ss ih =>
    obtain ⟨rfl, hle, hfirst, hle', hss⟩ := h
    rw [coalesceFrom]
    split_ifs with hmerge
    · have hmerged : Tiles s.first (⟨s.first, t.last, s.value⟩ :: ss) high :=
        ⟨rfl, by show s.first ≤ t.last; omega, hss⟩
      rw [ih hmerged]
      simp only [valueAt, Span.Has]
      by_cases h₁ : s.first ≤ o ∧ o ≤ s.last
      · rw [if_pos h₁, if_pos (by omega)]
      · rw [if_neg h₁]
        by_cases h₂ : t.first ≤ o ∧ o ≤ t.last
        · rw [if_pos h₂, if_pos (by omega), hmerge.2]
        · rw [if_neg h₂, if_neg (by omega)]
    · rw [valueAt, ih ⟨hfirst, hle', hss⟩, ← valueAt]

lemma valueAt_coalesce (h : Tiles low ss high) (o : ℤ) : valueAt (coalesce ss) o = valueAt ss o := by
  cases ss with
  | nil => rfl
  | cons s ss => exact valueAt_coalesceFrom h o

lemma exists_of_mem_coalesceFrom {t : Span α} (h : t ∈ coalesceFrom s ss) : ∃ u ∈ s :: ss, u.value = t.value := by
  induction ss generalizing s with
  | nil => exact ⟨t, h, rfl⟩
  | cons u ss ih =>
    rw [coalesceFrom] at h
    split at h
    · obtain ⟨w, hw, hwt⟩ := ih h
      rcases mem_cons.mp hw with rfl | hw
      · exact ⟨s, mem_cons_self, hwt⟩
      · exact ⟨w, mem_cons_of_mem _ (mem_cons_of_mem _ hw), hwt⟩
    · rcases mem_cons.mp h with rfl | h
      · exact ⟨t, mem_cons_self, rfl⟩
      · obtain ⟨w, hw, hwt⟩ := ih h
        exact ⟨w, mem_cons_of_mem _ hw, hwt⟩

lemma exists_of_mem_coalesce (h : s ∈ coalesce ss) : ∃ t ∈ ss, t.value = s.value := by
  cases ss with
  | nil => cases h
  | cons t ss => exact exists_of_mem_coalesceFrom h

end merge

/-! ## Dropping at the front -/

/-- The spans at the front of the window whose value is done are dropped; the rest, with the start of its window. -/
def dropDone (done : α → Bool) : ℤ → List (Span α) → ℤ × List (Span α)
  | low, [] => (low, [])
  | low, s :: ss => if s.first = low ∧ done s.value = true then dropDone done (s.last + 1) ss
      else (low, s :: ss)

variable {done : α → Bool}

lemma Tiles.dropDone (h : Tiles low ss high) : Tiles (dropDone done low ss).1 (dropDone done low ss).2 high := by
  induction ss generalizing low with
  | nil => exact h
  | cons s ss ih =>
    rw [Crabka.Found.dropDone]
    split
    · exact ih h.2.2
    · exact h

lemma Tiles.le_dropDone (h : Tiles low ss high) : low ≤ (Crabka.Found.dropDone done low ss).1 := by
  induction ss generalizing low with
  | nil => exact le_rfl
  | cons s ss ih =>
    rw [Crabka.Found.dropDone]
    split
    · obtain ⟨rfl, hle, hss⟩ := h
      have := ih hss
      omega
    · exact le_rfl

lemma dropDone_suffix (done : α → Bool) (low : ℤ) (ss : List (Span α)) : (dropDone done low ss).2 <:+ ss := by
  induction ss generalizing low with
  | nil => exact suffix_rfl
  | cons s ss ih =>
    rw [dropDone]
    split
    · exact (ih _).trans (suffix_cons s ss)
    · exact suffix_rfl

lemma Tiles.valueAt_dropDone (h : Tiles low ss high)
    (ho : valueAt (Crabka.Found.dropDone done low ss).2 o = some v) : valueAt ss o = some v := by
  obtain ⟨s, hs, hso, rfl⟩ := exists_of_valueAt ho
  exact h.valueAt_of_mem ((dropDone_suffix done low ss).subset hs) hso

end Crabka.Found
