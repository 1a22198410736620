import Mathlib

/-!
# Lists: ordered sequences, folds of one component, partial maps

Non-decreasing integer sequences, read as "the elements up to a bound come first", the fold of a step that changes one
component of a state, and partial functions that are undone element by element.
-/

namespace Crabka.Found
open List

lemma mem_snoc {α : Type*} {a b : α} {l : List α} : a ∈ l ++ [b] ↔ a ∈ l ∨ a = b := by
  rw [mem_append, mem_singleton]

/-! ## Ordered sequences -/

section
variable {l : List ℤ} {b : ℤ}

lemma getElem_le_iff_lt_countP (hs : l.Pairwise (· ≤ ·)) {i : ℕ} (hi : i < l.length) :
    l[i] ≤ b ↔ i < l.countP (· ≤ b) := by
  induction l generalizing i with
  | nil => cases hi
  | cons a t ih =>
    obtain ⟨ha, ht⟩ := pairwise_cons.mp hs
    by_cases hle : a ≤ b
    · rw [countP_cons_of_pos (by simpa using hle)]
      cases i with
      | zero => simp [hle]
      | succ i => simpa using ih ht (Nat.lt_of_succ_lt_succ hi)
    · have hnone : t.countP (· ≤ b) = 0 := by
        rw [countP_eq_zero]
        intro c hc
        have := ha c hc
        simp only [decide_eq_true_eq]
        omega
      rw [countP_cons_of_neg (by simpa using hle), hnone]
      have hge : a ≤ (a :: t)[i] := by
        rcases mem_cons.mp (getElem_mem hi) with h | h
        · exact h.ge
        · exact ha _ h
      constructor
      · intro h; omega
      · intro h; omega

lemma max?_eq_getLast? (hs : l.Pairwise (· ≤ ·)) : l.max? = l.getLast? := by
  rcases eq_nil_or_concat l with rfl | ⟨t, a, rfl⟩
  · rfl
  · rw [concat_eq_append] at hs ⊢
    rw [List.getLast?_concat]
    refine List.max?_eq_some_iff.mpr ⟨by simp, ?_⟩
    intro x hx
    rcases mem_snoc.mp hx with hx | hx
    · exact (pairwise_append.mp hs).2.2 x hx a (by simp)
    · exact hx.le

end

/-! ## Components of a state -/

/-- A component of a state: it can be read, and replaced without touching the rest. -/
structure Component (σ φ : Type*) where
  get : σ → φ
  set : φ → σ → σ
  get_set : ∀ a s, get (set a s) = a := by intros; rfl
  set_set : ∀ a b s, set b (set a s) = set b s := by intros; rfl
  set_get : ∀ s, set (get s) s = s := by intros; rfl

lemma Component.foldl {σ φ ι : Type*} (c : Component σ φ) {step : σ → ι → σ} (act : φ → ι → φ)
    {l : List ι} (hstep : ∀ s, ∀ x ∈ l, step s x = c.set (act (c.get s) x) s) (s : σ) :
    l.foldl step s = c.set (l.foldl act (c.get s)) s := by
  induction l generalizing s with
  | nil => exact (c.set_get s).symm
  | cons x l ih =>
    rw [foldl_cons, foldl_cons, hstep s x mem_cons_self,
      ih (fun s y hy => hstep s y (mem_cons_of_mem x hy)), c.get_set, c.set_set]

/-! ## Partial functions -/

variable {ε α β : Type}

@[simp] lemma ok_bind (a : α) (f : α → Except ε β) : (Except.ok a >>= f) = f a := rfl

lemma bind_eq_ok {x : Except ε α} {f : α → Except ε β} {b : β} :
    x >>= f = .ok b ↔ ∃ a, x = .ok a ∧ f a = .ok b := by
  constructor
  · intro h
    cases x with
    | error e => cases h
    | ok a => exact ⟨a, rfl, h⟩
  · rintro ⟨a, rfl, h⟩
    exact h

lemma foldlM_preserves {f : β → α → Except ε β} {P : β → Prop} {l : List α}
    (hstep : ∀ a ∈ l, ∀ b b', P b → f b a = .ok b' → P b') {b b' : β} (hb : P b)
    (h : l.foldlM f b = .ok b') : P b' := by
  induction l generalizing b with
  | nil => exact Except.ok.inj h ▸ hb
  | cons a l ih =>
    rw [foldlM_cons] at h
    obtain ⟨c, hc, h⟩ := bind_eq_ok.mp h
    exact ih (fun x hx => hstep x (mem_cons_of_mem a hx)) (hstep a mem_cons_self b c hb hc) h

lemma mapM_inverse {ε ε' α β : Type} {f : α → Except ε β} {g : β → Except ε' α}
    {l : List α} {m : List β} (hg : ∀ a ∈ l, ∀ b, f a = .ok b → g b = .ok a)
    (h : l.mapM f = .ok m) : m.mapM g = .ok l := by
  induction l generalizing m with
  | nil => cases h; rfl
  | cons a l ih =>
    rw [mapM_cons] at h
    obtain ⟨b, hb, h⟩ := bind_eq_ok.mp h
    obtain ⟨bs, hbs, h⟩ := bind_eq_ok.mp h
    cases h
    rw [mapM_cons, hg a mem_cons_self b hb, ih (fun x hx => hg x (mem_cons_of_mem a hx)) hbs]
    rfl

lemma mapM_map_inverse {f : α → β} {g : β → Except ε α} {l : List α}
    (hg : ∀ a ∈ l, g (f a) = .ok a) : (l.map f).mapM g = .ok l := by
  induction l with
  | nil => rfl
  | cons a l ih =>
    rw [map_cons, mapM_cons, hg a mem_cons_self, ih fun b hb => hg b (mem_cons_of_mem a hb)]
    rfl

end Crabka.Found
