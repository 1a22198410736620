import Mathlib

/-!
# Majorities intersect

A majority of a finite set `V` is a subset with at least `|V| / 2 + 1` elements. Two of them share an element, so a
relation with at most one value per element has at most one value per majority (`eq_of_majorities`).
-/

namespace Crabka.Found
variable {α β : Type*} [DecidableEq α]

def IsMajority (V Q : Finset α) : Prop :=
  Q ⊆ V ∧ V.card / 2 + 1 ≤ Q.card

lemma IsMajority.exists_mem_inter {V Q₁ Q₂ : Finset α} (h₁ : IsMajority V Q₁)
    (h₂ : IsMajority V Q₂) : ∃ v, v ∈ Q₁ ∧ v ∈ Q₂ := by
  by_contra hne
  push Not at hne
  have hdisj : Disjoint Q₁ Q₂ := Finset.disjoint_left.mpr hne
  have hcard : (Q₁ ∪ Q₂).card = Q₁.card + Q₂.card := Finset.card_union_of_disjoint hdisj
  have hle : (Q₁ ∪ Q₂).card ≤ V.card := Finset.card_le_card (Finset.union_subset h₁.1 h₂.1)
  have := h₁.2
  have := h₂.2
  omega

lemma eq_of_majorities {V Q₁ Q₂ : Finset α} {R : α → β → Prop} {b₁ b₂ : β}
    (huniq : ∀ v ∈ V, ∀ b b', R v b → R v b' → b = b')
    (h₁ : IsMajority V Q₁) (h₂ : IsMajority V Q₂)
    (hR₁ : ∀ v ∈ Q₁, R v b₁) (hR₂ : ∀ v ∈ Q₂, R v b₂) : b₁ = b₂ := by
  obtain ⟨v, hv₁, hv₂⟩ := h₁.exists_mem_inter h₂
  exact huniq v (h₁.1 hv₁) b₁ b₂ (hR₁ v hv₁) (hR₂ v hv₂)

end Crabka.Found
