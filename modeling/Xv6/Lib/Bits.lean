import Mathlib.Data.Nat.Bitwise
import Mathlib.Tactic.IntervalCases

/-!
# One bit of a byte, through a mask

A bitmap kept in bytes tests bit `i` of a byte `x` with `x & (1 << i)`, sets it with
`x | (1 << i)` and clears it with `x & ~(1 << i)`. The lemmas here turn each of the three into
`Nat.testBit` of the byte, so that a bitmap's bits can be followed one at a time.

A word of flags, such as a page-table entry, is tested the same way with `x & m != 0` for a
mask `m`; the last section says which tests an `|` or an `& ~` of other masks leaves alone.
-/

namespace Bits

/-- The mask `1 << i` of bit `i < 8`, as a number. -/
theorem mask_toNat {i : ℕ} (hi : i < 8) : ((1 : UInt8) <<< i.toUInt8).toNat = 2 ^ i := by
  rw [UInt8.toNat_shiftLeft]
  have h1 : i.toUInt8.toNat = i := by simp; omega
  rw [h1, Nat.mod_eq_of_lt hi, UInt8.toNat_one, Nat.one_shiftLeft]
  exact Nat.mod_eq_of_lt (Nat.pow_lt_pow_right (by norm_num) hi)

/-- `x & (1 << i)` is nonzero exactly when bit `i` of `x` is set. -/
theorem and_mask_ne_zero (x : UInt8) {i : ℕ} (hi : i < 8) :
    (x &&& (1 <<< i.toUInt8) != 0) = x.toNat.testBit i := by
  have h : (x &&& (1 <<< i.toUInt8)).toNat = (x.toNat.testBit i).toNat * 2 ^ i := by
    rw [UInt8.toNat_and, mask_toNat hi, Nat.and_two_pow]
  cases hb : x.toNat.testBit i with
  | false =>
    rw [hb, Bool.toNat_false, Nat.zero_mul] at h
    have h0 : x &&& (1 <<< i.toUInt8) = 0 := UInt8.toNat_inj.mp (by simpa using h)
    simp [h0]
  | true =>
    rw [hb, Bool.toNat_true, Nat.one_mul] at h
    have h0 : x &&& (1 <<< i.toUInt8) ≠ 0 := by
      intro h0
      rw [h0] at h
      have := Nat.two_pow_pos i
      simp at h
      omega
    simpa using h0

/-- `x | (1 << i)` sets bit `i` and keeps the others. -/
theorem testBit_or_mask (x : UInt8) {i : ℕ} (hi : i < 8) (j : ℕ) :
    (x ||| (1 <<< i.toUInt8)).toNat.testBit j = (x.toNat.testBit j || decide (i = j)) := by
  rw [UInt8.toNat_or, mask_toNat hi, Nat.testBit_or, Nat.testBit_two_pow]

/-- `x & ~(1 << i)` clears bit `i` and keeps the others. -/
theorem testBit_and_not_mask (x : UInt8) {i j : ℕ} (hi : i < 8) (hj : j < 8) :
    (x &&& ~~~(1 <<< i.toUInt8)).toNat.testBit j = (x.toNat.testBit j && !decide (i = j)) := by
  rw [UInt8.toNat_and, Nat.testBit_and]
  congr 1
  have hnot : (~~~((1 : UInt8) <<< i.toUInt8)).toNat = 255 - 2 ^ i := by
    rw [UInt8.toNat_not, mask_toNat hi]
    rfl
  rw [hnot]
  -- eight by eight bits of one constant byte
  interval_cases i <;> interval_cases j <;> decide

/-! ### Flags of a 64-bit word -/

/-- A flag or-ed into a word is set in it. -/
theorem or_and_self (x m : UInt64) : (x ||| m) &&& m = m := by
  apply UInt64.toBitVec_inj.mp
  ext i hi
  simp only [UInt64.toBitVec_and, UInt64.toBitVec_or, BitVec.getElem_and, BitVec.getElem_or]
  cases x.toBitVec[i] <;> simp

/-- Or-ing more flags into a word keeps a flag of it set. -/
theorem or_and_ne_zero_left {x m : UInt64} (y : UInt64) (h : x &&& m ≠ 0) : (x ||| y) &&& m ≠ 0 := by
  intro h'
  apply h
  apply UInt64.toBitVec_inj.mp
  ext i hi
  have hi' := congrArg (fun b => b.toBitVec[i]) h'
  simp only [UInt64.toBitVec_and, UInt64.toBitVec_or, BitVec.getElem_and, BitVec.getElem_or,
    UInt64.toBitVec_zero, BitVec.getElem_zero] at hi' ⊢
  cases hx : x.toBitVec[i] <;> simp_all

theorem or_and_ne_zero_right {y m : UInt64} (x : UInt64) (h : y &&& m ≠ 0) : (x ||| y) &&& m ≠ 0 := by
  rw [UInt64.or_comm]
  exact or_and_ne_zero_left x h

/-- Or-ing in flags outside `m` leaves the flags `m` of a word as they were. -/
theorem or_and_of_disjoint {y m : UInt64} (x : UInt64) (h : y &&& m = 0) :
    (x ||| y) &&& m = x &&& m := by
  apply UInt64.toBitVec_inj.mp
  ext i hi
  have hi' := congrArg (fun b => b.toBitVec[i]) h
  simp only [UInt64.toBitVec_and, UInt64.toBitVec_or, BitVec.getElem_and, BitVec.getElem_or,
    UInt64.toBitVec_zero, BitVec.getElem_zero] at hi' ⊢
  cases hy : y.toBitVec[i] <;> simp_all

/-- Clearing the flags `m` leaves every flag outside `m` as it was. -/
theorem and_not_and_of_disjoint {m n : UInt64} (x : UInt64) (h : m &&& n = 0) :
    (x &&& ~~~m) &&& n = x &&& n := by
  apply UInt64.toBitVec_inj.mp
  ext i hi
  have hi' := congrArg (fun b => b.toBitVec[i]) h
  simp only [UInt64.toBitVec_and, UInt64.toBitVec_not, BitVec.getElem_and, BitVec.getElem_not,
    UInt64.toBitVec_zero, BitVec.getElem_zero] at hi' ⊢
  cases hm : m.toBitVec[i] <;> simp_all

/-- Clearing the flags `m` clears them. -/
theorem and_not_and_self (x m : UInt64) : (x &&& ~~~m) &&& m = 0 := by
  apply UInt64.toBitVec_inj.mp
  ext i hi
  simp only [UInt64.toBitVec_and, UInt64.toBitVec_not, BitVec.getElem_and, BitVec.getElem_not,
    UInt64.toBitVec_zero, BitVec.getElem_zero]
  cases m.toBitVec[i] <;> simp

end Bits
