import Mathlib.Data.List.TakeWhile

/-!
# Scanning a buffer while a predicate holds

`scanWhile l p i` is where the loop `while(i < n && p(l[i])) i++` stops on a buffer `l` of
length `n`: `i` plus the length of the longest run of `p` from `i`.  The loop never leaves the
buffer (`scanWhile_le_length`), passes only elements satisfying `p` (`scanWhile_pass`) and
stops at one that fails it or at the end (`scanWhile_stop`); a second scan stays where the
first stopped (`scanWhile_scanWhile`).
-/

namespace Xv6.Scan

variable {α : Type*} (l : List α) (p : α → Bool)

/-- Where `while(i < l.length && p(l[i])) i++` stops. -/
def scanWhile (i : ℕ) : ℕ := i + ((l.drop i).takeWhile p).length

variable {l p}

theorem le_scanWhile (i : ℕ) : i ≤ scanWhile l p i := Nat.le_add_right _ _

theorem scanWhile_le_length {i : ℕ} (h : i ≤ l.length) : scanWhile l p i ≤ l.length := by
  have := (List.takeWhile_prefix p (l := l.drop i)).length_le
  simp only [List.length_drop] at this
  simp only [scanWhile]
  omega

theorem scanWhile_of_length_le {i : ℕ} (h : l.length ≤ i) : scanWhile l p i = i := by
  simp [scanWhile, List.drop_eq_nil_of_le h]

/-- The loop does not move from an element that fails `p`. -/
theorem scanWhile_of_stop {i : ℕ} (h : i < l.length) (hp : p l[i] = false) :
    scanWhile l p i = i := by
  rw [scanWhile, List.drop_eq_getElem_cons h, List.takeWhile_cons_of_neg (by simp [hp])]
  rfl

/-- The loop moves past an element that satisfies `p`. -/
theorem lt_scanWhile {i : ℕ} (h : i < l.length) (hp : p l[i] = true) : i < scanWhile l p i := by
  rw [scanWhile, List.drop_eq_getElem_cons h, List.takeWhile_cons_of_pos hp, List.length_cons]
  omega

/-- The run of `p` at the head of a list satisfies `p` all along. -/
theorem pass_takeWhile : ∀ (m : List α) {j : ℕ}, j < (m.takeWhile p).length →
    ∃ h : j < m.length, p m[j] = true
  | [], _, hj => by simp at hj
  | a :: m, j, hj => by
    by_cases ha : p a = true
    · rw [List.takeWhile_cons_of_pos ha] at hj
      cases j with
      | zero => exact ⟨by simp, ha⟩
      | succ j =>
        obtain ⟨hm, hpm⟩ := pass_takeWhile m (j := j) (by simpa using hj)
        exact ⟨by simpa using hm, hpm⟩
    · rw [List.takeWhile_cons_of_neg ha] at hj
      simp at hj

/-- The element right after the run of `p` fails `p`. -/
theorem stop_takeWhile : ∀ (m : List α) (h : (m.takeWhile p).length < m.length),
    p m[(m.takeWhile p).length] = false
  | [], h => by simp at h
  | a :: m, h => by
    by_cases ha : p a = true
    · simp only [List.takeWhile_cons_of_pos ha, List.length_cons, List.getElem_cons_succ]
      exact stop_takeWhile m (by simpa [List.takeWhile_cons_of_pos ha] using h)
    · simp only [List.takeWhile_cons_of_neg ha, List.length_nil, List.getElem_cons_zero]
      simpa using ha

/-- Every element the loop passes satisfies `p`. -/
theorem scanWhile_pass {i j : ℕ} (hij : i ≤ j) (hj : j < scanWhile l p i) :
    ∃ h : j < l.length, p l[j] = true := by
  have hk : j - i < ((l.drop i).takeWhile p).length := by simp only [scanWhile] at hj; omega
  obtain ⟨hm, hp⟩ := pass_takeWhile (l.drop i) hk
  have hj' : i + (j - i) = j := by omega
  simp only [List.getElem_drop, hj'] at hp
  exact ⟨by simp only [List.length_drop] at hm; omega, hp⟩

/-- Where the loop stops inside the buffer, the element fails `p`. -/
theorem scanWhile_stop {i : ℕ} (h : scanWhile l p i < l.length) :
    p l[scanWhile l p i] = false := by
  have hm : ((l.drop i).takeWhile p).length < (l.drop i).length := by
    simp only [scanWhile, List.length_drop] at h ⊢
    omega
  have := stop_takeWhile (l.drop i) hm
  rwa [List.getElem_drop] at this

/-- Scanning again from where the loop stopped does not move. -/
theorem scanWhile_scanWhile (i : ℕ) : scanWhile l p (scanWhile l p i) = scanWhile l p i := by
  by_cases h : scanWhile l p i < l.length
  · exact scanWhile_of_stop h (scanWhile_stop h)
  · exact scanWhile_of_length_le (by omega)

end Xv6.Scan
