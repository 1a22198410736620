import Mathlib

/-!
# The newest of the candidates in a list

A loop that keeps the first candidate with the largest stamp. It is `List.argmax` (`newest_eq_argmax`), and candidates
older than another one may be left out (`newest_filter`).
-/

namespace Crabka.Found
open List
variable {β γ : Type} (stamp : γ → ℕ) (candidate : β → Option γ)

def keepNewer (best : Option γ) (e : β) : Option γ := match candidate e with
  | some new => if best.all fun old => stamp old < stamp new then some new else best
  | none => best

def newest (l : List β) : Option γ := l.foldl (keepNewer stamp candidate) none

lemma newest_eq_argmax (l : List β) : newest stamp candidate l = (l.filterMap candidate).argmax stamp := by
  rw [newest, List.argmax, foldl_filterMap]
  refine foldl_ext _ _ _ fun best e _ => ?_
  unfold keepNewer
  cases candidate e with
  | none => rfl
  | some new => cases best <;> simp [List.argAux]

variable {stamp candidate}

lemma argmax_eq_find? {l : List γ} {top : ℕ} (hle : ∀ x ∈ l, stamp x ≤ top)
    (hmem : ∃ x ∈ l, stamp x = top) : l.argmax stamp = l.find? fun x => stamp x = top := by
  induction l with
  | nil => simp at hmem
  | cons a l ih =>
    rw [argmax_cons, List.find?_cons]
    have hrest := fun x hx => hle x (mem_cons_of_mem a hx)
    by_cases ha : stamp a = top
    · cases hc : l.argmax stamp with
      | none => simp [ha]
      | some c => simp [ha, (hrest c (argmax_mem hc)).not_gt]
    · obtain ⟨x, hx, htop⟩ := hmem
      have hx := (mem_cons.mp hx).resolve_left fun heq => ha (heq ▸ htop)
      rw [ih hrest ⟨x, hx, htop⟩]
      cases hc : l.find? fun x => stamp x = top with
      | none => exact absurd htop (by simpa using List.find?_eq_none.mp hc x hx)
      | some c =>
        have hc : stamp c = top := by simpa using List.find?_some hc
        have hlt := lt_of_le_of_ne (hle a mem_cons_self) ha
        simp [ha, hc, hlt]

lemma newest_filter {l : List β} {p : β → Bool} (h : ∀ x ∈ l, p x = false → ∀ c, candidate x = some c →
    ∃ y ∈ l, ∃ d, candidate y = some d ∧ stamp c < stamp d) :
    newest stamp candidate (l.filter p) = newest stamp candidate l := by
  have hsub : ∀ c ∈ (l.filter p).filterMap candidate, c ∈ l.filterMap candidate := fun c hc =>
    (filter_sublist.filterMap candidate).subset hc
  rw [newest_eq_argmax, newest_eq_argmax]
  cases hm : (l.filterMap candidate).argmax stamp with
  | none =>
    rw [argmax_eq_none] at hm ⊢
    exact eq_nil_iff_forall_not_mem.mpr fun c hc => by simpa [hm] using hsub c hc
  | some m =>
    have hle : ∀ c ∈ l.filterMap candidate, stamp c ≤ stamp m := fun c hc => le_of_mem_argmax hc hm
    -- A candidate with the largest stamp is never left out.
    have hkept : ∀ x ∈ l, ∀ c, candidate x = some c → stamp c = stamp m → p x := by
      intro x hx c hc htop
      by_contra hp
      obtain ⟨y, hy, d, hd, hlt⟩ := h x hx (by simpa using hp) c hc
      exact absurd (hle d (mem_filterMap.mpr ⟨y, hy, hd⟩)) (by omega)
    have hmem := argmax_mem hm
    obtain ⟨x, hx, hc⟩ := mem_filterMap.mp hmem
    have hin := mem_filterMap.mpr ⟨x, mem_filter.mpr ⟨hx, hkept x hx m hc rfl⟩, hc⟩
    rw [← hm, argmax_eq_find? hle ⟨m, hmem, rfl⟩,
      argmax_eq_find? (fun c hc => hle c (hsub c hc)) ⟨m, hin, rfl⟩, List.find?_filterMap,
      List.find?_filterMap, List.find?_filter]
    refine congrArg (Option.bind · candidate) (List.find?_congr fun x hx => ?_)
    cases hc : candidate x with
    | none => simp
    | some c => simpa using hkept x hx c hc

end Crabka.Found
