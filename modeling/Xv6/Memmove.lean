import Xv6.Lib.Store
import Mathlib.Data.Int.Notation

/-!
# Overlapping copies (`memmove` in `kernel/string.c` and `user/ulib.c`)

Both `memmove`s copy `n` bytes one at a time, forwards (`*d++ = *s++`) or backwards from the
end (`*--d = *--s`), and choose the direction so that no byte of the source is overwritten
before it is read: the kernel copies backwards when the source starts below the destination
and reaches into it (`s < d && s + n > d`), the user library whenever the source does not start
above it (`!(src > dst)`). Memory is a map from addresses to bytes; the ranges are ranges of
the address space, so the pointer sums do not wrap.

* `copyUp_eq`, `copyDown_eq`: each loop writes the source bytes it read, provided it never
  reads a byte it wrote before;
* `String.memmove_eq`, `Ulib.memmove_eq`: either choice meets that condition, so both
  `memmove`s write the original source bytes over the destination and nothing else.
-/

namespace Xv6

open Store

/-- The loop `while(n-- > 0) *d++ = *s++;` from `d` and `s`. -/
def copyUp (m : ℕ → UInt8) : (n d s : ℕ) → ℕ → UInt8
  | 0, _, _ => m
  | n + 1, d, s => copyUp (Function.update m d (m s)) n (d + 1) (s + 1)

/-- The loop `while(n-- > 0) *--d = *--s;` from `d` and `s`, one past the bytes left. -/
def copyDown (m : ℕ → UInt8) : (n d s : ℕ) → ℕ → UInt8
  | 0, _, _ => m
  | n + 1, d, s => copyDown (Function.update m (d - 1) (m (s - 1))) n (d - 1) (s - 1)

namespace String

/-- Kernel `memmove(dst, src, n)` for a `uint` count. -/
def memmove (m : ℕ → UInt8) (dst src : ℕ) (n : UInt32) : ℕ → UInt8 :=
  if n = 0 then m
  else if src < dst ∧ src + n.toNat > dst then copyDown m n.toNat (dst + n.toNat) (src + n.toNat)
  else copyUp m n.toNat dst src

end String

namespace Ulib

/-- User `memmove(vdst, vsrc, n)` for an `int` count: the loops run `n` times for `n > 0` and
never otherwise, wherever `dst += n` leaves the pointers. -/
def memmove (m : ℕ → UInt8) (dst src : ℕ) (n : Int32) : ℕ → UInt8 :=
  if src > dst then copyUp m n.toInt.toNat dst src
  else copyDown m n.toInt.toNat (dst + n.toInt.toNat) (src + n.toInt.toNat)

end Ulib

/-! ### The two loops -/

/-- Writing one value and then a run right after it is writing the run with the value first. -/
theorem store_update_succ (f : ℕ → UInt8) (o : ℕ) (x : UInt8) (xs : List UInt8) :
    store id (Function.update f o x) (o + 1) xs = store id f o (x :: xs) := by
  rw [show x :: xs = [x] ++ xs from rfl, store_append, store_singleton]
  rfl

theorem slice_succ_left (f : ℕ → UInt8) (o n : ℕ) : slice f o (n + 1) = f o :: slice f (o + 1) n := by
  rw [Nat.add_comm n 1, slice_add]
  rfl

theorem slice_succ_right (f : ℕ → UInt8) (o n : ℕ) : slice f o (n + 1) = slice f o n ++ [f (o + n)] := by
  rw [slice_add]
  rfl

/-- **The forward loop.** If no byte is read after the loop wrote it (`d + i ≠ s + j` for every
earlier write `i` and later read `j`), the loop writes the `n` bytes the source held. -/
theorem copyUp_eq : ∀ (n d s : ℕ) (m : ℕ → UInt8), (∀ i j, i < j → j < n → d + i ≠ s + j) →
    copyUp m n d s = store id m d (slice m s n)
  | 0, d, s, m, _ => by simp [copyUp]
  | n + 1, d, s, m, h => by
    -- the bytes read later miss the byte written first
    have hrest : slice (Function.update m d (m s)) (s + 1) n = slice m (s + 1) n :=
      slice_congr fun j hj => Function.update_of_ne (fun e => h 0 (j + 1) (by omega) (by omega)
        (by omega)) _ _
    rw [copyUp, copyUp_eq n (d + 1) (s + 1) _ fun i j hij hj => by
      have := h (i + 1) (j + 1) (by omega) (by omega); omega, hrest, store_update_succ,
      slice_succ_left]

/-- **The backward loop.** If no byte is read after the loop wrote it (`d + i ≠ s + j` for
every earlier write `i` and later read `j < i`), the loop from the ends `d + n` and `s + n`
writes the `n` bytes the source held. -/
theorem copyDown_eq : ∀ (n d s : ℕ) (m : ℕ → UInt8), (∀ i j, j < i → i < n → d + i ≠ s + j) →
    copyDown m n (d + n) (s + n) = store id m d (slice m s n)
  | 0, d, s, m, _ => by simp [copyDown]
  | n + 1, d, s, m, h => by
    -- the bytes read later miss the byte written first, the last one
    have hrest : slice (Function.update m (d + n) (m (s + n))) s n = slice m s n :=
      slice_congr fun j hj => Function.update_of_ne (fun e => h n j hj (by omega) e.symm) _ _
    have hlen : (slice m s n).length = n := length_slice _ _ _
    rw [copyDown, show d + (n + 1) - 1 = d + n by omega, show s + (n + 1) - 1 = s + n by omega,
      copyDown_eq n d s _ fun i j hji hi => h i j hji (by omega), hrest, slice_succ_right,
      store_append, hlen, store_singleton, store_update_of_le _ (Nat.le_of_eq (congrArg (d + ·) hlen))]

/-- What the reference leaves: the source bytes in the destination window, and every other byte
as it was. -/
theorem store_slice_window (m : ℕ → UInt8) (dst src n : ℕ) :
    (∀ i < n, store id m dst (slice m src n) (dst + i) = m (src + i)) ∧
      ∀ a, (a < dst ∨ dst + n ≤ a) → store id m dst (slice m src n) a = m a := by
  refine ⟨fun i hi => ?_, fun a ha => ?_⟩
  · rw [store_of_mem (by simp) (by simp; omega), getElem_slice]
    simp
  · rcases ha with ha | ha
    · exact store_of_lt ha
    · exact store_of_le (by simpa using ha)

/-! ### The choice of direction -/

/-- **Kernel `memmove`.** Backwards the source starts below the destination, forwards it starts
at or above it or ends before it: either way the copy is the reference. -/
theorem String.memmove_eq (m : ℕ → UInt8) (dst src : ℕ) (n : UInt32) :
    String.memmove m dst src n = store id m dst (slice m src n.toNat) := by
  unfold String.memmove
  by_cases h0 : n = 0
  · subst h0
    simp
  rw [if_neg h0]
  by_cases hov : src < dst ∧ src + n.toNat > dst
  · rw [if_pos hov]
    exact copyDown_eq _ dst src m fun i j hji _ => by omega
  · rw [if_neg hov]
    exact copyUp_eq _ dst src m fun i j hij hj => by omega

/-- **User `memmove`.** Forwards the source starts above the destination, backwards it does
not: either way the copy is the reference, of no byte when `n ≤ 0`. -/
theorem Ulib.memmove_eq (m : ℕ → UInt8) (dst src : ℕ) (n : Int32) :
    Ulib.memmove m dst src n = store id m dst (slice m src n.toInt.toNat) := by
  unfold Ulib.memmove
  by_cases hgt : src > dst
  · rw [if_pos hgt]
    exact copyUp_eq _ dst src m fun i j hij _ => by omega
  · rw [if_neg hgt]
    exact copyDown_eq _ dst src m fun i j hji _ => by omega

/-- **`memmove` is overlap-safe.** For every count and every two ranges, overlapping either way,
equal or apart, the kernel's and the user library's `memmove` leave in `dst[0..n)` the bytes
`src[0..n)` held and change no other byte; the user one copies nothing for `n ≤ 0`. -/
theorem memmove_overlap_safe (m : ℕ → UInt8) (dst src : ℕ) :
    (∀ n : UInt32, (∀ i < n.toNat, String.memmove m dst src n (dst + i) = m (src + i)) ∧
      ∀ a, (a < dst ∨ dst + n.toNat ≤ a) → String.memmove m dst src n a = m a) ∧
    (∀ n : Int32, (∀ i < n.toInt.toNat, Ulib.memmove m dst src n (dst + i) = m (src + i)) ∧
      (∀ a, (a < dst ∨ dst + n.toInt.toNat ≤ a) → Ulib.memmove m dst src n a = m a) ∧
      (n.toInt ≤ 0 → Ulib.memmove m dst src n = m)) := by
  refine ⟨fun n => ?_, fun n => ?_⟩
  · rw [String.memmove_eq]
    exact store_slice_window m dst src n.toNat
  · rw [Ulib.memmove_eq]
    refine ⟨(store_slice_window m dst src _).1, (store_slice_window m dst src _).2, fun hn => ?_⟩
    rw [Int.toNat_eq_zero.mpr hn]
    simp

end Xv6
