import Mathlib.Data.Fintype.Card
import Mathlib.Algebra.BigOperators.Group.Finset.Piecewise

/-!
# Counting the members of a finite population by their state

`count f Q` is the number of members `q` whose state `f q` satisfies `Q`. A transition that
changes one member's state changes the count by at most one; `count_update` says by how much,
so that a counter kept by a program (a reference count, a number of waiters) can be compared
with the members it counts, one step at a time.
-/

namespace Count

variable {P X : Type} [Fintype P]

/-- The number of members whose state satisfies `Q`. -/
def count (f : P → X) (Q : X → Prop) [DecidablePred Q] : ℕ :=
  (Finset.univ.filter fun q => Q (f q)).card

variable {Q : X → Prop} [DecidablePred Q]

/-- A member whose state satisfies `Q` is counted. -/
theorem count_pos {f : P → X} {p : P} (h : Q (f p)) : 0 < count f Q :=
  Finset.card_pos.mpr ⟨p, by simpa using h⟩

/-- The count is zero exactly when no member's state satisfies `Q`. -/
theorem count_eq_zero {f : P → X} : count f Q = 0 ↔ ∀ p, ¬ Q (f p) := by
  simp [count, Finset.filter_eq_empty_iff]

variable [DecidableEq P]

/-- Removing one element and adding back whether it was there. -/
theorem card_erase_add_ite {α : Type} [DecidableEq α] (s : Finset α) (a : α) :
    (s.erase a).card + (if a ∈ s then 1 else 0) = s.card := by
  split_ifs with h
  · exact Finset.card_erase_add_one h
  · rw [Finset.erase_eq_of_notMem h, Nat.add_zero]

/-- **One member changes state.** The count loses the member's old state and gains its new
one. -/
theorem count_update (f : P → X) (p : P) (x : X) :
    count (Function.update f p x) Q + (if Q (f p) then 1 else 0) =
      count f Q + (if Q x then 1 else 0) := by
  unfold count
  -- away from `p` the two populations agree
  have herase : (Finset.univ.filter fun q => Q (Function.update f p x q)).erase p =
      (Finset.univ.filter fun q => Q (f q)).erase p := by
    ext q
    by_cases hq : q = p <;> simp [hq]
  have hnew := card_erase_add_ite (Finset.univ.filter fun q => Q (Function.update f p x q)) p
  have hold := card_erase_add_ite (Finset.univ.filter fun q => Q (f q)) p
  simp only [Finset.mem_filter, Finset.mem_univ, true_and, Function.update_self] at hnew hold
  rw [herase] at hnew
  omega

/-- **One member's value changes.** A sum over the population loses the old value and gains the
new one. -/
theorem sum_update_add {M : Type} [AddCommMonoid M] (f : P → M) (p : P) (x : M) :
    (∑ q, Function.update f p x q) + f p = (∑ q, f q) + x := by
  rw [Finset.sum_update_of_mem (Finset.mem_univ p), Finset.sdiff_singleton_eq_erase,
    ← Finset.add_sum_erase _ f (Finset.mem_univ p)]
  ac_rfl

end Count
