import Mathlib.Logic.Basic

/-!
# Reachable states of a labelled transition system

A system is a partial step function `step : σ → α → Option σ`: the label names what happens
(which process moves, which call it makes) and `none` means the step is not enabled there.
`Reachable init step allowed` is the set of states reached from a state satisfying `init`
through enabled steps whose labels satisfy `allowed` (the environment's promises, e.g. "every
copy succeeds").

* `Reachable.invariant`: an invariant that holds initially and is kept by every allowed step
  holds in every reachable state; `Reachable.invariant_of` does the same relative to an
  invariant proved before.
* `run` executes a list of labels, and `Reachable.of_run` turns a concrete run into a
  reachable state; counterexamples are stated that way.
-/

namespace Reach

variable {σ α : Type*}

/-- Execute the labels in order, stopping with `none` at the first step that is not enabled. -/
def run (step : σ → α → Option σ) : σ → List α → Option σ
  | s, [] => some s
  | s, a :: as => (step s a).bind fun t => run step t as

@[simp] theorem run_nil (step : σ → α → Option σ) (s : σ) : run step s [] = some s := rfl

@[simp] theorem run_cons (step : σ → α → Option σ) (s : σ) (a : α) (as : List α) :
    run step s (a :: as) = (step s a).bind fun t => run step t as := rfl

/-- The states reachable from `init` through enabled steps with `allowed` labels. -/
inductive Reachable (init : σ → Prop) (step : σ → α → Option σ) (allowed : α → Prop) :
    σ → Prop
  | init {s : σ} : init s → Reachable init step allowed s
  | step {s t : σ} {a : α} :
      Reachable init step allowed s → allowed a → step s a = some t →
        Reachable init step allowed t

variable {init : σ → Prop} {step : σ → α → Option σ} {allowed : α → Prop}

/-- **Invariant rule.** What holds initially and is kept by every allowed step holds in every
reachable state. -/
theorem Reachable.invariant {I : σ → Prop} (h0 : ∀ s, init s → I s)
    (h1 : ∀ s a t, I s → allowed a → step s a = some t → I t) {s : σ}
    (hs : Reachable init step allowed s) : I s := by
  induction hs with
  | init hi => exact h0 _ hi
  | step _ ha hst ih => exact h1 _ _ _ ih ha hst

/-- **Invariant rule relative to a known invariant** `J`: the step only has to keep `I` from
states where `J` holds too. -/
theorem Reachable.invariant_of {I J : σ → Prop} (hJ : ∀ s, Reachable init step allowed s → J s)
    (h0 : ∀ s, init s → I s)
    (h1 : ∀ s a t, Reachable init step allowed s → J s → I s → allowed a → step s a = some t →
      I t) {s : σ} (hs : Reachable init step allowed s) : I s := by
  induction hs with
  | init hi => exact h0 _ hi
  | step hr ha hst ih => exact h1 _ _ _ hr (hJ _ hr) ih ha hst

/-- Allowing more labels reaches more states. -/
theorem Reachable.mono {allowed' : α → Prop} (h : ∀ a, allowed a → allowed' a) {s : σ}
    (hs : Reachable init step allowed s) : Reachable init step allowed' s := by
  induction hs with
  | init hi => exact .init hi
  | step _ ha hst ih => exact .step ih (h _ ha) hst

/-- A system whose steps are all steps of `step` reaches only states that `step` reaches. -/
theorem Reachable.of_le {step' : σ → α → Option σ}
    (h : ∀ s a t, step' s a = some t → step s a = some t) {s : σ}
    (hs : Reachable init step' allowed s) : Reachable init step allowed s := by
  induction hs with
  | init hi => exact .init hi
  | step _ ha hst ih => exact .step ih ha (h _ _ _ hst)

/-- A run of allowed labels from a reachable state ends in a reachable state. -/
theorem Reachable.trans_run {s t : σ} {as : List α} (hs : Reachable init step allowed s)
    (hall : ∀ a ∈ as, allowed a) (h : run step s as = some t) :
    Reachable init step allowed t := by
  induction as generalizing s with
  | nil =>
    simp only [run_nil, Option.some.injEq] at h
    exact h ▸ hs
  | cons a as ih =>
    simp only [run_cons, Option.bind_eq_some_iff] at h
    obtain ⟨u, hu, hrun⟩ := h
    exact ih (.step hs (hall a (by simp)) hu) (fun b hb => hall b (by simp [hb])) hrun

/-- A concrete run from an initial state witnesses reachability. -/
theorem Reachable.of_run {s t : σ} {as : List α} (hs : init s) (hall : ∀ a ∈ as, allowed a)
    (h : run step s as = some t) : Reachable init step allowed t :=
  (Reachable.init hs).trans_run hall h

end Reach
