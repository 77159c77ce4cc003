import Mathlib.Logic.Function.Basic

/-!
# Sleeping on channels

The scheduling state that sleep/wakeup protocols look at: each process is either awake or
asleep on a channel, `sleepers : P → Option C` (`some c` is "sleeping on `c`").

* `wake self c` wakes every process other than `self` that sleeps on `c`;
  `wake_eq_some_iff` says exactly who is still asleep afterwards.
* `sleepOn` puts one process to sleep, `rouse` wakes one process whatever its channel (what a
  kill does).
-/

namespace Sleep

variable {P C : Type*} [DecidableEq P]

/-- Wake every process other than `self` that sleeps on channel `c`. -/
def wake [DecidableEq C] (self : P) (c : C) (sleepers : P → Option C) : P → Option C :=
  fun q => if q ≠ self ∧ sleepers q = some c then none else sleepers q

/-- Put `p` to sleep on channel `c`. -/
def sleepOn (p : P) (c : C) (sleepers : P → Option C) : P → Option C :=
  Function.update sleepers p (some c)

/-- Wake `p` whatever it sleeps on. -/
def rouse (p : P) (sleepers : P → Option C) : P → Option C :=
  Function.update sleepers p none

/-- After `wake self c` a process sleeps on `d` iff it slept on `d` before and either `d` is
another channel or it is the waker itself. -/
theorem wake_eq_some_iff [DecidableEq C] (self : P) (c : C) (sleepers : P → Option C)
    (q : P) (d : C) :
    wake self c sleepers q = some d ↔ sleepers q = some d ∧ (d ≠ c ∨ q = self) := by
  unfold wake
  by_cases hq : q = self
  · simp [hq]
  · by_cases hs : sleepers q = some c
    · simp only [ne_eq, hq, not_false_eq_true, hs, and_self, ↓reduceIte, reduceCtorEq,
        Option.some.injEq, or_false, false_iff, not_and, Decidable.not_not]
      exact fun h => h.symm
    · simp only [ne_eq, hq, not_false_eq_true, hs, and_false, ↓reduceIte, or_false]
      constructor
      · intro h
        exact ⟨h, fun hd => hs (hd ▸ h)⟩
      · exact fun h => h.1

end Sleep
