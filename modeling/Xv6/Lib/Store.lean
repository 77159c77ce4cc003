import Mathlib.Data.List.GetD
import Mathlib.Logic.Function.Basic

/-!
# Runs of cells in an indexed memory

A memory is a function from cells to values, each cell at a position `pos : ι → ℕ` (`ℕ` itself
for an address space, `Fin n` for a block of `n` bytes). `slice f o n` reads the `n` values at
positions `o, o + 1, …` of a memory indexed by `ℕ`, and `store pos f o xs` writes the list `xs`
from position `o` on, leaving every other cell alone. A copy routine that moves one piece at a
time is then a sequence of `store`s whose effect `store_append` composes.
-/

namespace Store

variable {ι α : Type*}

/-- The `n` values from position `o` on. -/
def slice (f : ℕ → α) (o n : ℕ) : List α := (List.range n).map fun i => f (o + i)

/-- The memory `f` with `xs` written from position `o` on. -/
def store (pos : ι → ℕ) (f : ι → α) (o : ℕ) (xs : List α) : ι → α :=
  fun k => if o ≤ pos k then xs[pos k - o]?.getD (f k) else f k

@[simp] theorem length_slice (f : ℕ → α) (o n : ℕ) : (slice f o n).length = n := by
  simp [slice]

@[simp] theorem getElem_slice (f : ℕ → α) (o n i : ℕ) (h : i < (slice f o n).length) :
    (slice f o n)[i] = f (o + i) := by
  simp [slice]

theorem getElem?_slice (f : ℕ → α) (o : ℕ) {n i : ℕ} (h : i < n) :
    (slice f o n)[i]? = some (f (o + i)) := by
  rw [List.getElem?_eq_getElem (by rw [length_slice]; exact h), getElem_slice]

@[simp] theorem slice_zero (f : ℕ → α) (o : ℕ) : slice f o 0 = [] := rfl

theorem slice_add (f : ℕ → α) (o n m : ℕ) : slice f o (n + m) = slice f o n ++ slice f (o + n) m := by
  apply List.ext_getElem (by simp)
  intro i h₁ h₂
  simp only [length_slice] at h₁
  by_cases hi : i < n
  · rw [List.getElem_append_left (by simpa using hi)]
    simp
  · rw [List.getElem_append_right (by simpa using hi)]
    simp only [getElem_slice, length_slice]
    congr 1
    omega

/-- A slice from `o` is a slice from `0` of the memory shifted by `o`. -/
theorem slice_shift (f : ℕ → α) (o n : ℕ) : slice f o n = slice (fun i => f (o + i)) 0 n := by
  simp [slice]

theorem take_slice (f : ℕ → α) (o : ℕ) {n j : ℕ} (h : j ≤ n) : (slice f o n).take j = slice f o j := by
  apply List.ext_getElem
  · simp
    omega
  intro i h₁ h₂
  simp only [List.getElem_take, getElem_slice]

/-- The slice from `o` of the first `S` values, cut to `j`. -/
theorem slice_drop_take (f : ℕ → α) {o j S : ℕ} (h : o + j ≤ S) :
    ((slice f 0 S).drop o).take j = slice f o j := by
  apply List.ext_getElem
  · simp
    omega
  intro i h₁ h₂
  simp only [List.getElem_take, List.getElem_drop, getElem_slice, Nat.zero_add]

/-- A slice does not look past its end. -/
theorem slice_congr {f g : ℕ → α} {o n : ℕ} (h : ∀ i < n, f (o + i) = g (o + i)) :
    slice f o n = slice g o n := by
  unfold slice
  exact List.map_congr_left fun i hi => h i (List.mem_range.mp hi)

variable {pos : ι → ℕ} {f : ι → α} {o : ℕ} {xs : List α} {k : ι}

theorem store_of_lt (h : pos k < o) : store pos f o xs k = f k := by
  simp [store, Nat.not_le.mpr h]

theorem store_of_le (h : o + xs.length ≤ pos k) : store pos f o xs k = f k := by
  have hk : xs[pos k - o]? = none := List.getElem?_eq_none (by omega)
  simp [store, hk]

/-- Inside the run, a cell holds its value of the list. -/
theorem store_of_mem (h₁ : o ≤ pos k) (h₂ : pos k < o + xs.length) :
    store pos f o xs k = xs[pos k - o] := by
  simp [store, h₁, List.getElem?_eq_getElem (show pos k - o < xs.length by omega)]

/-- A run written and read back. -/
theorem slice_store (f : ℕ → α) (o : ℕ) (xs : List α) : slice (store id f o xs) o xs.length = xs := by
  apply List.ext_getElem (length_slice _ _ _)
  intro i h₁ h₂
  rw [getElem_slice]
  simp [store, h₂]

@[simp] theorem store_nil (pos : ι → ℕ) (f : ι → α) (o : ℕ) : store pos f o [] = f := by
  funext k
  simp [store]

/-- Writing `xs ++ ys` is writing `xs`, then `ys` right after it. -/
theorem store_append (pos : ι → ℕ) (f : ι → α) (o : ℕ) (xs ys : List α) :
    store pos f o (xs ++ ys) = store pos (store pos f o xs) (o + xs.length) ys := by
  funext k
  by_cases h₁ : pos k < o
  · rw [store_of_lt h₁, store_of_lt (by omega), store_of_lt h₁]
  by_cases h₂ : pos k < o + xs.length
  · rw [store_of_mem (by omega) (by simp; omega), store_of_lt h₂, store_of_mem (by omega) h₂,
      List.getElem_append_left]
  · by_cases h₃ : pos k < o + xs.length + ys.length
    · rw [store_of_mem (by omega) (by simp; omega), store_of_mem (by omega) h₃,
        List.getElem_append_right (by omega)]
      congr 1
      omega
    · rw [store_of_le (by simp; omega), store_of_le (by omega), store_of_le (by omega)]

/-- One value written is a pointwise update. -/
theorem store_singleton (f : ℕ → α) (o : ℕ) (x : α) : store id f o [x] = Function.update f o x := by
  funext k
  by_cases hk : k = o
  · subst hk
    simp [store]
  · rw [Function.update_of_ne hk]
    by_cases h : o ≤ k
    · exact store_of_le (by simp; omega)
    · exact store_of_lt (by simp at h ⊢; omega)

/-- A cell past the run can be updated before or after the run is written. -/
theorem store_update_of_le {f : ℕ → α} {o k : ℕ} {xs : List α} (x : α) (hk : o + xs.length ≤ k) :
    store id (Function.update f k x) o xs = Function.update (store id f o xs) k x := by
  funext a
  by_cases ha : a = k
  · subst ha
    rw [Function.update_self, store_of_le (by simpa using hk), Function.update_self]
  · rw [Function.update_of_ne ha]
    simp only [store, id, Function.update_of_ne ha]

/-- **A splice, read back.** Writing `a` values of `g` at `o` into the first `S` values of `h`,
and keeping the first `L` of the result, is the memory that reads `g` inside the run and `h`
outside it. -/
theorem take_splice (h g : ℕ → α) {S N o a L : ℕ} (hoS : o ≤ S) (haN : a ≤ N)
    (hL : L ≤ max S (o + a)) :
    ((slice h 0 S).take o ++ (slice g 0 N).take a ++ (slice h 0 S).drop (o + a)).take L =
      slice (fun k => if o ≤ k ∧ k < o + a then g (k - o) else h k) 0 L := by
  apply List.ext_getElem
  · simp only [List.length_take, List.length_append, List.length_drop, length_slice]
    omega
  intro k h₁ h₂
  simp only [length_slice] at h₂
  rw [List.getElem_take, getElem_slice, Nat.zero_add]
  by_cases hk : k < o
  · rw [List.getElem_append_left (by simp; omega), List.getElem_append_left (by simp; omega),
      List.getElem_take, getElem_slice, if_neg (by omega), Nat.zero_add]
  by_cases hk' : k < o + a
  · rw [List.getElem_append_left (by simp; omega), List.getElem_append_right (by simp; omega),
      List.getElem_take, getElem_slice, if_pos ⟨by omega, hk'⟩]
    simp only [List.length_take, length_slice, Nat.zero_add]
    congr 1
    omega
  · rw [List.getElem_append_right (by simp; omega), List.getElem_drop, getElem_slice,
      if_neg (by omega)]
    simp only [List.length_append, List.length_take, length_slice, Nat.zero_add]
    congr 1
    omega

/-- Before the run, a splice reads the old values. -/
theorem getElem?_splice_left (xs ys zs : List α) {o a L k : ℕ} (hk : k < o) (ho : o ≤ xs.length)
    (hL : k < L) : ((xs.take o ++ ys.take a ++ zs).take L)[k]? = xs[k]? := by
  rw [List.getElem?_take_of_lt hL, List.append_assoc,
    List.getElem?_append_left (by rw [List.length_take]; omega), List.getElem?_take_of_lt hk]

/-- Inside the run, a splice reads the new values. -/
theorem getElem?_splice_mid (xs ys zs : List α) {o a L i : ℕ} (hi : i < a) (hy : i < ys.length)
    (ho : o ≤ xs.length) (hL : o + i < L) :
    ((xs.take o ++ ys.take a ++ zs).take L)[o + i]? = ys[i]? := by
  have hlen : (xs.take o).length = o := by rw [List.length_take]; omega
  have hmid : i < (ys.take a).length := by rw [List.length_take]; omega
  rw [List.getElem?_take_of_lt hL, List.append_assoc, List.getElem?_append_right (by omega), hlen,
    Nat.add_sub_cancel_left, List.getElem?_append_left hmid, List.getElem?_take_of_lt hi]

/-- Part of a run, read back from inside it. -/
theorem slice_store_inside (f : ℕ → α) (o : ℕ) (xs : List α) {a n : ℕ} (h : a + n ≤ xs.length) :
    slice (store id f o xs) (o + a) n = (xs.drop a).take n := by
  apply List.ext_getElem (by simp; omega)
  intro i h₁ h₂
  simp only [length_slice] at h₁
  rw [getElem_slice, store_of_mem (by simp only [id]; omega) (by simp only [id]; omega),
    List.getElem_take, List.getElem_drop]
  congr 1
  simp only [id]
  omega

/-- A run written elsewhere leaves a slice as it was. -/
theorem slice_store_of_disjoint (f : ℕ → α) {o a n : ℕ} {xs : List α}
    (h : o + xs.length ≤ a ∨ a + n ≤ o) : slice (store id f o xs) a n = slice f a n :=
  slice_congr fun i _ => by
    rcases h with h | h
    · exact store_of_le (by simp only [id]; omega)
    · exact store_of_lt (by simp only [id]; omega)

/-! ### Records of one width laid end to end -/

theorem length_flatMap_of_width {β : Type*} (g : β → List α) {w : ℕ} (hw : ∀ b, (g b).length = w)
    (l : List β) : (l.flatMap g).length = w * l.length := by
  induction l with
  | nil => rfl
  | cons b l ih =>
    rw [List.flatMap_cons, List.length_append, ih, hw, List.length_cons, Nat.mul_succ, Nat.add_comm]

/-- Record `i` of a list of records of width `w`. -/
theorem take_drop_flatMap {β : Type*} (g : β → List α) {w : ℕ} (hw : ∀ b, (g b).length = w) :
    ∀ (l : List β) {i : ℕ} (hi : i < l.length), ((l.flatMap g).drop (w * i)).take w = g l[i]
  | b :: l, 0, _ => by
    rw [List.flatMap_cons, Nat.mul_zero, List.drop_zero, ← hw b, List.take_left]
    rfl
  | b :: l, i + 1, hi => by
    have hshift : w * (i + 1) = (g b).length + w * i := by rw [hw, Nat.mul_succ, Nat.add_comm]
    rw [List.flatMap_cons, hshift, List.drop_append, List.drop_eq_nil_of_le (Nat.le_add_right _ _),
      List.nil_append, Nat.add_sub_cancel_left]
    exact take_drop_flatMap g hw l (by simpa using hi)

/-! ### Runs written through an address map -/

/-- The values `xs` written one at a time, the `i`-th at position `addr (o + i)`: a run written
through an address map, as a copy through a page table writes it. -/
def storeVia (addr : ℕ → ℕ) : (f : ℕ → α) → (o : ℕ) → List α → ℕ → α
  | f, _, [] => f
  | f, o, x :: xs => storeVia addr (Function.update f (addr o) x) (o + 1) xs

@[simp] theorem storeVia_nil (addr : ℕ → ℕ) (f : ℕ → α) (o : ℕ) : storeVia addr f o [] = f := rfl

theorem storeVia_cons (addr : ℕ → ℕ) (f : ℕ → α) (o : ℕ) (x : α) (xs : List α) :
    storeVia addr f o (x :: xs) = storeVia addr (Function.update f (addr o) x) (o + 1) xs := rfl

theorem storeVia_append (addr : ℕ → ℕ) (f : ℕ → α) (o : ℕ) (xs ys : List α) :
    storeVia addr f o (xs ++ ys) = storeVia addr (storeVia addr f o xs) (o + xs.length) ys := by
  induction xs generalizing f o with
  | nil => rfl
  | cons x xs ih =>
    rw [List.cons_append, storeVia_cons, ih, storeVia_cons, List.length_cons, Nat.add_assoc,
      Nat.add_comm 1]

/-- A position no value is written to keeps its value. -/
theorem storeVia_of_ne (addr : ℕ → ℕ) (f : ℕ → α) (o : ℕ) (xs : List α) {a : ℕ}
    (h : ∀ i < xs.length, addr (o + i) ≠ a) : storeVia addr f o xs a = f a := by
  induction xs generalizing f o with
  | nil => rfl
  | cons x xs ih =>
    have hrest : ∀ i < xs.length, addr (o + 1 + i) ≠ a := fun i hi => by
      have := h (i + 1) (by simp; omega)
      rwa [Nat.add_assoc, Nat.add_comm 1]
    rw [storeVia_cons, ih _ _ hrest]
    exact Function.update_of_ne (Ne.symm (by simpa using h 0 (by simp))) _ _

/-- Through an address map that is one to one on the run, each value is read back where it was
written. -/
theorem storeVia_self (addr : ℕ → ℕ) (f : ℕ → α) (o : ℕ) (xs : List α)
    (hinj : ∀ i < xs.length, ∀ k < xs.length, addr (o + i) = addr (o + k) → i = k)
    {i : ℕ} (hi : i < xs.length) : storeVia addr f o xs (addr (o + i)) = xs[i] := by
  induction xs generalizing f o i with
  | nil => simp at hi
  | cons x xs ih =>
    have hinj' : ∀ i < xs.length, ∀ k < xs.length, addr (o + 1 + i) = addr (o + 1 + k) → i = k :=
      fun i hi k hk h => by
        have := hinj (i + 1) (by simp; omega) (k + 1) (by simp; omega)
          (by simpa [Nat.add_assoc, Nat.add_comm 1] using h)
        omega
    rw [storeVia_cons]
    cases i with
    | zero =>
      -- the later writes all land elsewhere
      rw [storeVia_of_ne _ _ _ _ fun k hk h => by
        have := hinj 0 (by simp) (k + 1) (by simp; omega)
          (by simpa [Nat.add_assoc, Nat.add_comm 1] using h.symm)
        omega]
      simp
    | succ i =>
      have h := ih (Function.update f (addr o) x) (o + 1) hinj' (by simpa using hi)
      simpa [Nat.add_assoc, Nat.add_comm 1] using h

/-- Through an address map that moves a whole run by one offset, a run written through it is a
plain run. -/
theorem storeVia_eq_store (addr : ℕ → ℕ) (f : ℕ → α) (o p : ℕ) (xs : List α)
    (h : ∀ i < xs.length, addr (o + i) = p + i) : storeVia addr f o xs = store id f p xs := by
  induction xs generalizing f o p with
  | nil => simp
  | cons x xs ih =>
    have hx : Function.update f (addr o) x = store id f p [x] := by
      funext k
      have h0 : addr o = p := by simpa using h 0 (by simp)
      rw [h0]
      by_cases hk : k = p
      · subst hk
        simp [store]
      · rw [Function.update_of_ne hk]
        by_cases hlt : k < p
        · exact (store_of_lt hlt).symm
        · exact (store_of_le (by simp; omega)).symm
    have hrest : ∀ i < xs.length, addr (o + 1 + i) = p + 1 + i := fun i hi => by
      rw [show o + 1 + i = o + (i + 1) by omega, show p + 1 + i = p + (i + 1) by omega]
      exact h (i + 1) (by simp; omega)
    rw [storeVia_cons, hx, ih _ (o + 1) (p + 1) hrest]
    exact (store_append id f p [x] xs).symm

end Store
