import Mathlib

/-!
# Runs of a deterministic labelled system

A system is a partial step function `step : σ → α → Option σ`: the label names the action and who
takes it, and `none` means that the action is not enabled. A run may be *guarded* by a condition
`C` on the state before each step and the label of the step, so that one notion serves both "every
run" (`C := fun _ _ => True`) and "every run whose steps all meet `C`".

* `Run step C s as t` — the guarded runs, extended at the end, so that an induction over a run
  has the last step at hand;
* `Run.inv` — the invariant rule: one step-preservation goal gives the whole run;
* `exec` — the executable form, used to exhibit concrete runs.
-/

namespace Lib

variable {σ α : Type*}

/-- The runs of `step` from `s` all of whose steps meet `C`. -/
inductive Run (step : σ → α → Option σ) (C : σ → α → Prop) : σ → List α → σ → Prop
  | nil (s : σ) : Run step C s [] s
  | snoc {s t u : σ} {as : List α} {a : α} :
      Run step C s as t → C t a → step t a = some u → Run step C s (as ++ [a]) u

/-- The guard that every step meets. -/
def anyStep (_ : σ) (_ : α) : Prop := True

instance (s : σ) (a : α) : Decidable (anyStep s a) := inferInstanceAs (Decidable True)

namespace Run

variable {step : σ → α → Option σ} {C : σ → α → Prop} {s t : σ} {as : List α}

/-- **The invariant rule.** A predicate that holds at the start and is preserved by every guarded
step holds at the end of every guarded run. -/
lemma inv {I : σ → Prop} (hrun : Run step C s as t) (h0 : I s)
    (hstep : ∀ s a t, I s → C s a → step s a = some t → I t) : I t := by
  induction hrun with
  | nil => exact h0
  | snoc _ hc hs ih => exact hstep _ _ _ ih hc hs

/-- The invariant rule for a predicate that also speaks about the labels taken so far. -/
lemma inv_trace {I : List α → σ → Prop} (hrun : Run step C s as t) (h0 : I [] s)
    (hstep : ∀ as s a t, I as s → C s a → step s a = some t → I (as ++ [a]) t) : I as t := by
  induction hrun with
  | nil => exact h0
  | snoc _ hc hs ih => exact hstep _ _ _ _ ih hc hs

/-- What the guard says about labels holds of every label of the run. -/
lemma label {P : α → Prop} {a : α} (hrun : Run step C s as t) (h : ∀ s a, C s a → P a) (ha : a ∈ as) : P a := by
  induction hrun with
  | nil => cases ha
  | snoc _ hc _ ih =>
    rcases List.mem_append.mp ha with hm | hm
    · exact ih hm
    · rw [List.mem_singleton.mp hm]
      exact h _ _ hc

/-- Prefixing a run by one step. -/
lemma cons {u : σ} {a : α} (hc : C s a) (hs : step s a = some t) (hrun : Run step C t as u) :
    Run step C s (a :: as) u := by
  induction hrun with
  | nil => exact .snoc (.nil _) hc hs
  | snoc _ hc' hs' ih =>
    rw [← List.cons_append]
    exact .snoc ih hc' hs'

/-- A run of no steps. -/
lemma eq_of_nil (hrun : Run step C s [] t) : t = s := by
  generalize hbs : ([] : List α) = bs at hrun
  cases hrun with
  | nil => rfl
  | snoc => exact absurd hbs (by simp)

/-- The last step of a run. -/
lemma last {u : σ} {a : α} (hrun : Run step C s (as ++ [a]) u) :
    ∃ t, Run step C s as t ∧ C t a ∧ step t a = some u := by
  generalize hbs : as ++ [a] = bs at hrun
  cases hrun with
  | nil => exact absurd hbs (by simp)
  | snoc hrun hc hs =>
    obtain ⟨rfl, rfl⟩ := List.append_singleton_inj.mp hbs
    exact ⟨_, hrun, hc, hs⟩

/-- A run of a system is a run of that system with ghost state beside it. -/
lemma lift {τ : Type*} {step' : τ → α → Option τ} (π : τ → σ)
    (hs : ∀ g a t, step (π g) a = some t → ∃ g', step' g a = some g' ∧ π g' = t) {g : τ}
    (hg : π g = s) (hrun : Run step C s as t) : ∃ g', Run step' (fun g a => C (π g) a) g as g' ∧ π g' = t := by
  induction hrun with
  | nil => exact ⟨g, .nil _, hg⟩
  | snoc _ hc hst ih =>
    obtain ⟨g₁, hrun₁, rfl⟩ := ih
    obtain ⟨g₂, hstep, hπ⟩ := hs _ _ _ hst
    exact ⟨g₂, .snoc hrun₁ hc hstep, hπ⟩

end Run

/-- Execute a list of labels, refusing a step that fails the guard. -/
def exec (step : σ → α → Option σ) (C : σ → α → Prop) [∀ s a, Decidable (C s a)] :
    σ → List α → Option σ
  | s, [] => some s
  | s, a :: as =>
    if C s a then
      match step s a with
      | some t => exec step C t as
      | none => none
    else none

/-- A successful execution is a guarded run. -/
lemma run_of_exec {step : σ → α → Option σ} {C : σ → α → Prop} [∀ s a, Decidable (C s a)] :
    ∀ {as : List α} {s t : σ}, exec step C s as = some t → Run step C s as t := by
  intro as
  induction as with
  | nil =>
    intro s t h
    obtain rfl : s = t := by simpa [exec] using h
    exact .nil _
  | cons a as ih =>
    intro s t h
    rw [exec] at h
    split at h
    · rename_i hg
      split at h
      · rename_i u hu
        exact .cons hg hu (ih h)
      · cases h
    · cases h

/-- A run exhibited by executing it, with what is to be observed at its end. -/
lemma run_of_check (step : σ → α → Option σ) (C : σ → α → Prop) [∀ s a, Decidable (C s a)]
    (s : σ) (as : List α) (P : σ → Prop) [DecidablePred P]
    (h : (exec step C s as).any (fun t => P t)) : ∃ t, Run step C s as t ∧ P t := by
  cases ht : exec step C s as with
  | none => rw [ht] at h; exact absurd h (by simp)
  | some t =>
    rw [ht] at h
    exact ⟨t, run_of_exec ht, by simpa using h⟩

end Lib
