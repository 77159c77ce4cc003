import Mathlib.Data.Nat.Basic

/-!
# Runs that end: pre- and postconditions in `ExceptT ε Option`

A routine that can panic, bail out to a cleanup label, or return is a computation in
`ExceptT ε Option α`: `none` is the panic, `throw e` the jump to the label with what the
cleanup needs, and `pure a` the return. `Ends x Q E` is total correctness for it: `x` does not
panic, what it returns satisfies `Q`, and what it throws satisfies `E`.

The rules follow the shape of such code: `pure`, `throw`, `bind`, a lifted `Option` step (a call
that either panics or returns), `if`, and a loop over a list (`Ends.foldlM`), which carries an
invariant from each element to the next. A proof about a routine applies them in the order of
its statements; with one predicate for `E`, a routine with many jumps to one label has every
exit covered by it.
-/

variable {ε α β : Type}

/-- `x` does not panic; a value it returns satisfies `Q`, an error it throws satisfies `E`. -/
def Ends (x : ExceptT ε Option α) (Q : α → Prop) (E : ε → Prop) : Prop :=
  ∃ r, x.run = some r ∧ match r with
    | .ok a => Q a
    | .error e => E e

namespace Ends

variable {Q Q' : α → Prop} {E E' : ε → Prop}

theorem of_pure {a : α} (h : Q a) : Ends (pure a) Q E := ⟨.ok a, rfl, h⟩

theorem of_throw {e : ε} (h : E e) : Ends (throw e : ExceptT ε Option α) Q E := ⟨.error e, rfl, h⟩

/-- **Sequencing.** What `x` returns is the precondition of the rest; what it throws ends the
whole run. -/
theorem bind {R : α → Prop} {Q : β → Prop} {x : ExceptT ε Option α} {f : α → ExceptT ε Option β}
    (hx : Ends x R E) (hf : ∀ a, R a → Ends (f a) Q E) : Ends (x >>= f) Q E := by
  obtain ⟨r, hr, h⟩ := hx
  cases r with
  | ok a =>
    obtain ⟨r', hr', h'⟩ := hf a h
    exact ⟨r', by simp [ExceptT.run_bind, hr, hr'], h'⟩
  | error e => exact ⟨.error e, by simp [ExceptT.run_bind, hr], h⟩

/-- A call that cannot panic here, lifted into the routine. -/
theorem lift {o : Option α} {a : α} (ho : o = some a) (h : Q a) :
    Ends (liftM o : ExceptT ε Option α) Q E :=
  ⟨.ok a, by simp [liftM, monadLift, MonadLift.monadLift, ExceptT.run_lift, ho], h⟩

theorem ite {c : Prop} [Decidable c] {x y : ExceptT ε Option α}
    (h₁ : c → Ends x Q E) (h₂ : ¬ c → Ends y Q E) : Ends (if c then x else y) Q E := by
  by_cases hc : c
  · rw [if_pos hc]
    exact h₁ hc
  · rw [if_neg hc]
    exact h₂ hc

theorem mono {x : ExceptT ε Option α} (h : Ends x Q E) (hq : ∀ a, Q a → Q' a)
    (he : ∀ e, E e → E' e) : Ends x Q' E' := by
  obtain ⟨r, hr, h⟩ := h
  refine ⟨r, hr, ?_⟩
  cases r with
  | ok a => exact hq a h
  | error e => exact he e h

/-- What a run that returned gives satisfies the postcondition. -/
theorem of_run_ok {x : ExceptT ε Option α} (h : Ends x Q E) {a : α} (hx : x.run = some (.ok a)) :
    Q a := by
  obtain ⟨r, hr, hq⟩ := h
  rw [hx] at hr
  obtain rfl := Option.some.inj hr
  exact hq

/-- Two facts about one run hold of it together: the run is a function of `x`. -/
theorem and {x : ExceptT ε Option α} (h : Ends x Q E) (h' : Ends x Q' E') :
    Ends x (fun a => Q a ∧ Q' a) (fun e => E e ∧ E' e) := by
  obtain ⟨r, hr, h⟩ := h
  obtain ⟨r', hr', h'⟩ := h'
  obtain rfl : r = r' := Option.some.inj (hr.symm.trans hr')
  refine ⟨r, hr, ?_⟩
  cases r with
  | ok a => exact ⟨h, h'⟩
  | error e => exact ⟨h, h'⟩

/-- **A loop over a list.** If the step at element `k` takes the invariant at `k` to the one
at `k + 1`, the loop takes it from `0` to the end; a jump out of any step ends the loop with
`E`. -/
theorem foldlM {σ : Type} (step : σ → β → ExceptT ε Option σ) :
    ∀ (l : List β) (I : ℕ → σ → Prop),
      (∀ k (hk : k < l.length) s, I k s → Ends (step s l[k]) (I (k + 1)) E) →
      ∀ s, I 0 s → Ends (l.foldlM step s) (I l.length) E := by
  intro l
  induction l with
  | nil => exact fun I _ s hs => of_pure hs
  | cons b l ih =>
    intro I hstep s hs
    rw [List.foldlM_cons]
    refine bind (hstep 0 (Nat.succ_pos _) s hs) fun s' hs' => ?_
    exact ih (fun k => I (k + 1)) (fun k hk s h => hstep (k + 1) (Nat.succ_lt_succ hk) s h) s' hs'

/-- **A loop over a list in `Option`.** If the step at element `k` is enabled from every state
with the invariant at `k` and leads to one with the invariant at `k + 1`, the loop runs to the
end with the invariant at the list's length. -/
theorem foldlM_some {σ : Type} (step : σ → β → Option σ) :
    ∀ (l : List β) (I : ℕ → σ → Prop),
      (∀ k (hk : k < l.length) s, I k s → ∃ s', step s l[k] = some s' ∧ I (k + 1) s') →
      ∀ s, I 0 s → ∃ s', l.foldlM step s = some s' ∧ I l.length s' := by
  intro l
  induction l with
  | nil => exact fun I _ s hs => ⟨s, rfl, hs⟩
  | cons b l ih =>
    intro I hstep s hs
    obtain ⟨s₁, h₁, hs₁⟩ : ∃ s₁, step s b = some s₁ ∧ I 1 s₁ := hstep 0 (Nat.succ_pos _) s hs
    rw [List.foldlM_cons, h₁]
    exact ih (fun k => I (k + 1)) (fun k hk s h => hstep (k + 1) (Nat.succ_lt_succ hk) s h) s₁ hs₁

end Ends
