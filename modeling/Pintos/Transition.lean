import Mathlib.Logic.Basic
import Mathlib.Order.Basic

/-!
# Runs of a partial step function

A system is a partial step function `step : σ → α → Option σ`: a label that is
not enabled in a state gives `none`. Runs are finite lists of labels, executed
left to right, and a state is reachable when some run leads to it from the
initial state. Invariants are proved once per step and lifted to whole runs.
-/

namespace Transition

universe u v
variable {σ : Type u} {α : Type v}

/-- Execute the labels of a run in order; `none` as soon as one is not enabled. -/
def run (step : σ → α → Option σ) : σ → List α → Option σ
  | s, [] => some s
  | s, a :: as => (step s a).bind fun t => run step t as

/-- The states some run of `step` leads to from `init`. -/
inductive Reachable (step : σ → α → Option σ) (init : σ) : σ → Prop
  | init : Reachable step init init
  | step {s t : σ} (a : α) : Reachable step init s → step s a = some t →
      Reachable step init t

variable {step : σ → α → Option σ}

@[simp] theorem run_nil (s : σ) : run step s [] = some s := rfl

theorem run_cons (s : σ) (a : α) (as : List α) :
    run step s (a :: as) = (step s a).bind fun t => run step t as := rfl

theorem run_cons_of_step {s t : σ} {a : α} (h : step s a = some t) (as : List α) :
    run step s (a :: as) = run step t as := by
  simp [run_cons, h]

/-- The first step of a successful run is enabled, and the rest runs from there. -/
theorem run_cons_eq_some {s u : σ} {a : α} {as : List α}
    (h : run step s (a :: as) = some u) : ∃ t, step s a = some t ∧ run step t as = some u := by
  cases ht : step s a with
  | none => simp [run_cons, ht] at h
  | some t => exact ⟨t, rfl, by simpa [run_cons, ht] using h⟩

theorem Reachable.of_run {init s t : σ} {as : List α} (hs : Reachable step init s)
    (h : run step s as = some t) : Reachable step init t := by
  induction as generalizing s with
  | nil =>
    cases h
    exact hs
  | cons a as ih =>
    obtain ⟨u, hu, hrest⟩ := run_cons_eq_some h
    exact ih (hs.step a hu) hrest

theorem reachable_of_run {init s : σ} {as : List α} (h : run step init as = some s) :
    Reachable step init s :=
  Reachable.init.of_run h

/-- `P` is kept by every enabled step. -/
def Stable (step : σ → α → Option σ) (P : σ → Prop) : Prop :=
  ∀ s a t, P s → step s a = some t → P t

/-- A stable property holds after every run from a state where it holds. -/
theorem Stable.run {P : σ → Prop} (hP : Stable step P) {s t : σ} {as : List α}
    (hs : P s) (h : run step s as = some t) : P t := by
  induction as generalizing s with
  | nil =>
    cases h
    exact hs
  | cons a as ih =>
    obtain ⟨u, hu, hrest⟩ := run_cons_eq_some h
    exact ih (hP s a u hs hu) hrest

/-- The invariant rule: true initially and stable, hence true in every reachable state. -/
theorem Stable.reachable {P : σ → Prop} (hP : Stable step P) {init s : σ}
    (h0 : P init) (h : Reachable step init s) : P s := by
  induction h with
  | init => exact h0
  | step a _ ha ih => exact hP _ a _ ih ha

/-- A run whose end state evaluates `g` to `v` exhibits that state; the run is checked
by evaluation. -/
theorem exists_run_of_map {β : Type*} (step : σ → α → Option σ) (init : σ) (as : List α)
    (g : σ → β) {v : β} (h : (run step init as).map g = some v) :
    ∃ s, run step init as = some s ∧ g s = v := by
  cases hr : run step init as with
  | none => simp [hr] at h
  | some s =>
    simp only [hr, Option.map_some, Option.some.injEq] at h
    exact ⟨s, rfl, h⟩

/-- A run that ends in a state where the check `p` evaluates to `true`
exhibits a reachable state with that property. -/
theorem exists_reachable_of_run (step : σ → α → Option σ) (init : σ) (as : List α)
    (p : σ → Bool) (h : (run step init as).map p = some true) :
    ∃ s, Reachable step init s ∧ p s = true := by
  obtain ⟨s, hs, hp⟩ := exists_run_of_map step init as p h
  exact ⟨s, reachable_of_run hs, hp⟩

end Transition
