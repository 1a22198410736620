import Crabka.Found.Lists

/-!
# Labelled systems, their runs, and the invariant rule

A system is a guard and a total update over a state type `σ`, driven by labels of a type `ι`. What holds initially and
is kept by every admissible step holds in every state of a run (`Sys.Run.preserves`); `ok` restricts the steps. Concrete
runs are lists of labels whose guards are evaluated (`Sys.run_of_runs`, `Sys.run_of_runsOk`).
-/

namespace Crabka.Found

/-- A labelled system: which labels may fire in a state, and the state they lead to. -/
structure Sys (σ ι : Type*) where
  /-- The guard of a label. -/
  enabled : σ → ι → Prop
  /-- The state after the label fired. -/
  next : σ → ι → σ

namespace Sys
variable {σ ι : Type*} (S : Sys σ ι)

/-- One enabled step whose label is admissible in the state it fires in. -/
def StepOk (ok : σ → ι → Prop) (s s' : σ) : Prop :=
  ∃ l, S.enabled s l ∧ ok s l ∧ s' = S.next s l

/-- A run all of whose steps are admissible. -/
def Run (ok : σ → ι → Prop) : σ → σ → Prop :=
  Relation.ReflTransGen (S.StepOk ok)

abbrev AnyRun : σ → σ → Prop := S.Run fun _ _ => True

variable {S} {ok : σ → ι → Prop}

lemma Run.preserves {P : σ → Prop} {s s' : σ} (h : S.Run ok s s')
    (step : ∀ t l, P t → S.enabled t l → ok t l → P (S.next t l)) (h0 : P s) : P s' := by
  induction h with
  | refl => exact h0
  | tail _ hstep ih =>
    obtain ⟨l, hen, hok, rfl⟩ := hstep
    exact step _ l ih hen hok

/-- The rule for facts that relate a later state of a run to an earlier one. -/
lemma Run.relates {P : σ → Prop} {R : σ → σ → Prop} {s s' : σ}
    (h : S.Run ok s s') (h0 : P s) (hrefl : ∀ t, R t t)
    (htrans : ∀ {a b c}, R a b → R b c → R a c)
    (step : ∀ t l, P t → S.enabled t l → ok t l → P (S.next t l) ∧ R t (S.next t l)) :
    P s' ∧ R s s' := by
  induction h with
  | refl => exact ⟨h0, hrefl _⟩
  | tail _ hstep ih =>
    obtain ⟨l, hen, hok, rfl⟩ := hstep
    obtain ⟨hP, hR⟩ := step _ l ih.1 hen hok
    exact ⟨hP, htrans ih.2 hR⟩

/-- The labels fire one after the other. -/
def Runs (S : Sys σ ι) : σ → List ι → Prop
  | _, [] => True
  | s, l :: ls => S.enabled s l ∧ Runs S (S.next s l) ls

def execs (S : Sys σ ι) (s : σ) (ls : List ι) : σ := ls.foldl S.next s

instance decidableRuns [h : ∀ s l, Decidable (S.enabled s l)] :
    ∀ s ls, Decidable (S.Runs s ls)
  | _, [] => .isTrue trivial
  | s, l :: ls =>
    have := decidableRuns (S.next s l) ls
    inferInstanceAs (Decidable (_ ∧ _))

lemma run_of_runs {s : σ} {ls : List ι} (h : S.Runs s ls := by decide +kernel) : S.AnyRun s (S.execs s ls) := by
  induction ls generalizing s with
  | nil => exact .refl
  | cons l ls ih => exact .head ⟨l, h.1, trivial, rfl⟩ (ih h.2)

/-- The labels fire one after the other, each of them admissible. -/
def RunsOk (S : Sys σ ι) (ok : σ → ι → Prop) : σ → List ι → Prop
  | _, [] => True
  | s, l :: ls => S.enabled s l ∧ ok s l ∧ RunsOk S ok (S.next s l) ls

instance decidableRunsOk {ok : σ → ι → Prop} [h : ∀ s l, Decidable (S.enabled s l)]
    [h' : ∀ s l, Decidable (ok s l)] : ∀ s ls, Decidable (S.RunsOk ok s ls)
  | _, [] => .isTrue trivial
  | s, l :: ls =>
    have : Decidable (S.RunsOk ok (S.next s l) ls) := decidableRunsOk _ ls
    inferInstanceAs (Decidable (_ ∧ _ ∧ _))

lemma run_of_runsOk {s : σ} {ls : List ι} (h : S.RunsOk ok s ls := by decide +kernel) : S.Run ok s (S.execs s ls) := by
  induction ls generalizing s with
  | nil => exact .refl
  | cons l ls ih => exact .head ⟨l, h.1, h.2.1, rfl⟩ (ih h.2.2)

end Sys
end Crabka.Found
