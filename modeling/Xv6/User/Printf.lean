import Mathlib.Data.Nat.Digits.Lemmas
import Mathlib.Data.UInt

/-!
# User `printf` (`user/printf.c`)

`vprintf` walks the format with two states: an ordinary character is written, `%` moves to the
second state, where the next character chooses a conversion. `%d`, `%x` and `%l` go through
`printint(fd, int xx, base, sgn)`, whose `do`-`while` loop writes the digits of the `uint x`
into `buf` least significant first and then writes `buf` backwards; `%p` goes through
`printptr`, which writes the top four bits sixteen times, shifting left by four each time.

The arguments are the 64-bit slots of the `va_list`: `va_arg(ap, int)` reads the low 32 bits of
a slot, `va_arg(ap, uint64)` the whole slot, `va_arg(ap, char*)` an address in memory. The
bytes written are the model's output.

* `printint_signed`, `printint_unsigned`, `printptr_eq`: the loops write the numerals of Mathlib's
  `Nat.digits`, the sign, and exactly sixteen hex digits;
* `vprintf_renders`: what each conversion writes. `%l` hands its `uint64` to `printint`'s `int`
  parameter, so only the low 32 bits are printed (`printf_l_truncates`).
-/

namespace Xv6.Printf

/-- `digits[]`: `0123456789ABCDEF`. -/
def digits : List UInt8 := [48, 49, 50, 51, 52, 53, 54, 55, 56, 57, 65, 66, 67, 68, 69, 70]

/-- The `do`-`while` loop of `printint`: `buf[i++] = digits[x % base]` until `x /= base` is `0`,
the digits least significant first. `fuel` bounds the iterations. -/
def printintLoop (base : UInt32) : (fuel : ℕ) → UInt32 → List UInt8
  | 0, _ => []
  | fuel + 1, x =>
    digits.getD (x % base).toNat 0 :: if x / base ≠ 0 then printintLoop base fuel (x / base) else []

/-- `printint(fd, xx, base, sgn)`: the bytes it writes. For `sgn` and a negative `xx`, `x = -xx`
negates in `int`, wrapping `INT_MIN` to itself, whose `uint` is `2^31`. -/
def printint (xx : Int32) (base : UInt32) (sgn : Bool) : List UInt8 :=
  let neg := sgn && decide (xx < 0)
  let x : UInt32 := if neg then (-xx).toUInt32 else xx.toUInt32
  (printintLoop base 32 x ++ if neg then [45] else []).reverse

/-- The loop of `printptr`: `putc(fd, digits[x >> 60])` and `x <<= 4`, `i` more times. -/
def printptrLoop : (i : ℕ) → UInt64 → List UInt8
  | 0, _ => []
  | i + 1, x => digits.getD (x >>> 60).toNat 0 :: printptrLoop i (x <<< 4)

/-- `printptr(fd, x)`: `0x` and the sixteen digits. -/
def printptr (x : UInt64) : List UInt8 := 48 :: 120 :: printptrLoop 16 x

/-- `while(*s != 0){ putc(fd, *s); s++; }` from address `s`. -/
def puts (mem : ℕ → UInt8) : (fuel s : ℕ) → List UInt8
  | 0, _ => []
  | fuel + 1, s => if mem s = 0 then [] else mem s :: puts mem fuel (s + 1)

/-- `"(null)"`. -/
def nullStr : List UInt8 := [40, 110, 117, 108, 108, 41]

/-- The conversion after a `%`, on the argument slots `ap`: the bytes it writes and the slots
left. -/
def conv (mem : ℕ → UInt8) (c : UInt8) (ap : List UInt64) : List UInt8 × List UInt64 :=
  let w := ap.headD 0
  -- 'd': va_arg(ap, int)
  if c = 100 then (printint w.toUInt32.toInt32 10 true, ap.tail)
  -- 'l': va_arg(ap, uint64), passed to printint's int parameter
  else if c = 108 then (printint w.toUInt32.toInt32 10 false, ap.tail)
  -- 'x'
  else if c = 120 then (printint w.toUInt32.toInt32 16 false, ap.tail)
  -- 'p'
  else if c = 112 then (printptr w, ap.tail)
  -- 's': the string at the address, up to its NUL
  else if c = 115 then ((if w = 0 then nullStr else puts mem (2 ^ 64) w.toNat), ap.tail)
  -- 'c': va_arg(ap, uint), written as a char
  else if c = 99 then ([w.toUInt8], ap.tail)
  else if c = 37 then ([37], ap)
  else ([37, c], ap)

/-- `vprintf(fd, fmt, ap)` in state `pct` (`state == '%'`): the bytes it writes, up to the NUL
of `fmt`. -/
def vprintf (mem : ℕ → UInt8) : (fmt : List UInt8) → (pct : Bool) → (ap : List UInt64) → List UInt8
  | [], _, _ => []
  | c :: fmt, pct, ap =>
    if c = 0 then []
    else if pct then (conv mem c ap).1 ++ vprintf mem fmt false (conv mem c ap).2
    else if c = 37 then vprintf mem fmt true ap
    else c :: vprintf mem fmt false ap

/-! ### Numerals -/

/-- The character of a digit below `16`. -/
def digitChar (d : ℕ) : UInt8 := if d < 10 then UInt8.ofNat (48 + d) else UInt8.ofNat (55 + d)

/-- `n` in `base`, most significant digit first and with no leading zero; `0` is `"0"`. -/
def numeral (base n : ℕ) : List UInt8 :=
  if n = 0 then [48] else ((Nat.digits base n).map digitChar).reverse

/-- The signed decimal of `v`. -/
def decimal (v : ℤ) : List UInt8 := if v < 0 then 45 :: numeral 10 v.natAbs else numeral 10 v.toNat

/-- Exactly `k` hex digits of `n`, most significant first. -/
def hexDigits (k n : ℕ) : List UInt8 := (List.range k).reverse.map fun j => digitChar (n / 16 ^ j % 16)

theorem getD_digits {d : ℕ} (h : d < 16) : digits.getD d 0 = digitChar d := by
  have : ∀ d < 16, digits.getD d 0 = digitChar d := by decide
  exact this d h

/-- **The digit loop** writes the base-`b` digits of a nonzero `x`, least significant first. -/
theorem printintLoop_eq {base : UInt32} (h2 : 2 ≤ base.toNat) (h16 : base.toNat ≤ 16) :
    ∀ (fuel : ℕ) (x : UInt32), x.toNat < 2 ^ fuel → x ≠ 0 →
      printintLoop base fuel x = (Nat.digits base.toNat x.toNat).map digitChar
  | 0, x, hx, hne => absurd (UInt32.toNat_inj.mp (by simp at hx; simpa using hx)) hne
  | fuel + 1, x, hx, hne => by
    have hpos : 0 < x.toNat := Nat.pos_of_ne_zero fun h => hne (UInt32.toNat_inj.mp (by simpa using h))
    have hmod : (x % base).toNat = x.toNat % base.toNat := UInt32.toNat_mod x base
    have hdiv : (x / base).toNat = x.toNat / base.toNat := UInt32.toNat_div x base
    have hlt : x.toNat % base.toNat < 16 := by
      have := Nat.mod_lt x.toNat (show 0 < base.toNat by omega)
      omega
    rw [printintLoop, Nat.digits_def' (by omega) hpos, List.map_cons, hmod, getD_digits hlt]
    congr 1
    by_cases hq : x / base = 0
    · -- the last digit
      rw [if_neg (not_not.mpr hq), show x.toNat / base.toNat = 0 by rw [← hdiv, hq]; rfl]
      simp
    · rw [if_pos hq, printintLoop_eq h2 h16 fuel (x / base) ?_ hq, hdiv]
      rw [hdiv, Nat.div_lt_iff_lt_mul (by omega)]
      calc x.toNat < 2 ^ (fuel + 1) := hx
        _ = 2 ^ fuel * 2 := Nat.pow_succ 2 fuel
        _ ≤ 2 ^ fuel * base.toNat := Nat.mul_le_mul_left _ h2

/-- The loop on any `x`: `0` is the one digit `0`. -/
theorem printintLoop_numeral {base : UInt32} (h2 : 2 ≤ base.toNat) (h16 : base.toNat ≤ 16)
    (x : UInt32) : (printintLoop base 32 x).reverse = numeral base.toNat x.toNat := by
  by_cases hx : x = 0
  · subst hx
    simp [printintLoop, numeral]
    rfl
  · have hn : x.toNat ≠ 0 := fun h => hx (UInt32.toNat_inj.mp (by simpa using h))
    rw [printintLoop_eq h2 h16 32 x x.toNat_lt hx, numeral, if_neg hn]

theorem toNat_toUInt32_neg {v : Int32} (h : v < 0) : ((-v).toUInt32).toNat = v.toInt.natAbs := by
  have h1 : v.toInt < 0 := Int32.lt_iff_toInt_lt.mp h
  have ht : v.toInt = v.toBitVec.toInt := rfl
  show (-v).toBitVec.toNat = _
  rw [Int32.toBitVec_neg, BitVec.toNat_neg]
  rw [ht, BitVec.toInt_eq_toNat_cond] at h1 ⊢
  have := v.toBitVec.isLt
  split_ifs at h1 ⊢ with hc <;> omega

theorem toNat_toUInt32_of_nonneg {v : Int32} (h : ¬ v < 0) : v.toUInt32.toNat = v.toInt.toNat := by
  have h1 : ¬ v.toInt < 0 := fun h' => h (Int32.lt_iff_toInt_lt.mpr h')
  have ht : v.toInt = v.toBitVec.toInt := rfl
  show v.toBitVec.toNat = _
  rw [ht, BitVec.toInt_eq_toNat_cond] at h1 ⊢
  have := v.toBitVec.isLt
  split_ifs at h1 ⊢ with hc <;> omega

/-- **`%d`'s `printint`** writes the signed decimal of its `int`, `INT_MIN` included. -/
theorem printint_signed (v : Int32) : printint v 10 true = decimal v.toInt := by
  unfold printint decimal
  by_cases hv : v < 0
  · have hv' : v.toInt < 0 := Int32.lt_iff_toInt_lt.mp hv
    simp only [Bool.true_and, decide_eq_true hv, if_true, List.reverse_append, List.reverse_cons,
      List.reverse_nil, List.nil_append, List.singleton_append, if_pos hv']
    rw [printintLoop_numeral (by decide) (by decide), toNat_toUInt32_neg hv]
    rfl
  · have hv' : ¬ v.toInt < 0 := fun h => hv (Int32.lt_iff_toInt_lt.mpr h)
    simp only [Bool.true_and, decide_eq_false hv, Bool.false_eq_true, if_false, List.append_nil,
      if_neg hv']
    rw [printintLoop_numeral (by decide) (by decide), toNat_toUInt32_of_nonneg hv]
    rfl

/-- **`printint` unsigned** writes the numeral of the 32-bit pattern of its argument. -/
theorem printint_unsigned (x : UInt32) {base : UInt32} (h2 : 2 ≤ base.toNat) (h16 : base.toNat ≤ 16) :
    printint x.toInt32 base false = numeral base.toNat x.toNat := by
  simp only [printint, Bool.false_and, Bool.false_eq_true, if_false, List.append_nil,
    UInt32.toUInt32_toInt32]
  exact printintLoop_numeral h2 h16 x

/-! ### `printptr` -/

theorem hexDigits_succ (k n : ℕ) : hexDigits (k + 1) n = digitChar (n / 16 ^ k % 16) :: hexDigits k n := by
  simp [hexDigits, List.range_succ]

/-- The `k` digits read only `n` below `16^k`. -/
theorem hexDigits_mod_pow (k n : ℕ) : hexDigits k (n % 16 ^ k) = hexDigits k n := by
  unfold hexDigits
  refine List.map_congr_left fun j hj => ?_
  have hjk : j < k := by simpa using hj
  have hpow : 16 ^ k = 16 ^ j * 16 ^ (k - j) := by rw [← Nat.pow_add, Nat.add_sub_cancel' (by omega)]
  rw [hpow, Nat.mod_mul_right_div_self, Nat.mod_mod_of_dvd _ (dvd_pow_self 16 (by omega))]

/-- **The shift loop.** With `i` iterations left, `x` holds in its top `i` digits the `i` digits
still to write: `x >> 60` is the next one and `x <<= 4` drops it. -/
theorem printptrLoop_eq : ∀ i ≤ 16, ∀ y : UInt64, printptrLoop i y = hexDigits i (y.toNat / 16 ^ (16 - i))
  | 0, _, _ => rfl
  | i + 1, hi, y => by
    have hy := y.toNat_lt
    have hshr : (y >>> 60).toNat = y.toNat / 16 ^ 15 := by
      rw [UInt64.toNat_shiftRight]
      simp [Nat.shiftRight_eq_div_pow]
    have hshl : (y <<< 4).toNat = y.toNat * 16 % (16 ^ (16 - i) * 16 ^ i) := by
      rw [UInt64.toNat_shiftLeft, ← Nat.pow_add, Nat.sub_add_cancel (by omega)]
      simp [Nat.shiftLeft_eq]
    -- the digit written is the top one of `y`
    have htop : y.toNat / 16 ^ (16 - (i + 1)) / 16 ^ i % 16 = y.toNat / 16 ^ 15 := by
      rw [Nat.div_div_eq_div_mul, ← Nat.pow_add, show 16 - (i + 1) + i = 15 by omega]
      exact Nat.mod_eq_of_lt (Nat.div_lt_of_lt_mul (by simpa using hy))
    -- the digits left are those of `y` below it
    have hrest : (y <<< 4).toNat / 16 ^ (16 - i) = y.toNat / 16 ^ (16 - (i + 1)) % 16 ^ i := by
      rw [hshl, Nat.mod_mul_right_div_self, show 16 - i = 16 - (i + 1) + 1 by omega, Nat.pow_succ,
        Nat.mul_div_mul_right _ _ (by decide)]
    rw [printptrLoop, printptrLoop_eq i (by omega) (y <<< 4), hexDigits_succ, htop, hshr,
      getD_digits (Nat.div_lt_of_lt_mul (by simpa using hy)), hrest, hexDigits_mod_pow]

/-- **`printptr`** writes `0x` and exactly sixteen hex digits of its argument. -/
theorem printptr_eq (x : UInt64) : printptr x = 48 :: 120 :: hexDigits 16 x.toNat := by
  rw [printptr, printptrLoop_eq 16 (Nat.le_refl _) x]
  simp

/-! ### `vprintf` -/

/-- `puts` writes the bytes before the first NUL, when the fuel reaches it. -/
theorem puts_eq (mem : ℕ → UInt8) : ∀ (k fuel s : ℕ), k < fuel → (∀ i < k, mem (s + i) ≠ 0) →
    mem (s + k) = 0 → puts mem fuel s = (List.range k).map fun i => mem (s + i)
  | _, 0, _, hk, _, _ => absurd hk (Nat.not_lt_zero _)
  | 0, fuel + 1, s, _, _, hnul => by
    rw [Nat.add_zero] at hnul
    simp [puts, hnul]
  | k + 1, fuel + 1, s, hk, hne, hnul => by
    have h0 : mem s ≠ 0 := by simpa using hne 0 (by omega)
    rw [puts, if_neg h0, puts_eq mem k fuel (s + 1) (by omega)
      (fun i hi => by rw [Nat.add_right_comm]; exact hne (i + 1) (by omega))
      (by rw [Nat.add_right_comm]; exact hnul), List.range_succ_eq_map, List.map_cons, List.map_map]
    simp only [Nat.add_zero]
    congr 1
    exact List.map_congr_left fun i _ => by simp [Function.comp, Nat.add_right_comm, Nat.add_assoc]

theorem vprintf_pct (mem : ℕ → UInt8) (c : UInt8) (fmt : List UInt8) (ap : List UInt64) (hc : c ≠ 0) :
    vprintf mem (37 :: c :: fmt) false ap = (conv mem c ap).1 ++ vprintf mem fmt false (conv mem c ap).2 := by
  simp [vprintf, hc]

/-- **What `vprintf` writes**, conversion by conversion, for every format and every argument:
ordinary bytes as they are; `%d` the signed decimal of the `int` in the low word of the slot; `%l`
and `%x` the decimal and hex numeral of the low 32 bits; `%p` `0x` and sixteen hex digits; `%s` the
string up to its NUL, or `(null)`; `%c` the low byte; `%%` one `%`; any other `%c` both bytes; and
a `%` before the end of the format nothing. -/
theorem vprintf_renders (mem : ℕ → UInt8) (fmt : List UInt8) (w : UInt64) (ap : List UInt64) :
    (∀ c, c ≠ 0 → c ≠ 37 → vprintf mem (c :: fmt) false ap = c :: vprintf mem fmt false ap) ∧
    vprintf mem (37 :: 100 :: fmt) false (w :: ap) =
      decimal w.toUInt32.toInt32.toInt ++ vprintf mem fmt false ap ∧
    vprintf mem (37 :: 108 :: fmt) false (w :: ap) =
      numeral 10 (w.toNat % 2 ^ 32) ++ vprintf mem fmt false ap ∧
    vprintf mem (37 :: 120 :: fmt) false (w :: ap) =
      numeral 16 (w.toNat % 2 ^ 32) ++ vprintf mem fmt false ap ∧
    vprintf mem (37 :: 112 :: fmt) false (w :: ap) =
      48 :: 120 :: hexDigits 16 w.toNat ++ vprintf mem fmt false ap ∧
    vprintf mem (37 :: 115 :: fmt) false (0 :: ap) = nullStr ++ vprintf mem fmt false ap ∧
    (∀ k, k < 2 ^ 64 → (∀ i < k, mem (w.toNat + i) ≠ 0) → mem (w.toNat + k) = 0 → w ≠ 0 →
      vprintf mem (37 :: 115 :: fmt) false (w :: ap) =
        (List.range k).map (fun i => mem (w.toNat + i)) ++ vprintf mem fmt false ap) ∧
    vprintf mem (37 :: 99 :: fmt) false (w :: ap) = w.toUInt8 :: vprintf mem fmt false ap ∧
    vprintf mem (37 :: 37 :: fmt) false ap = 37 :: vprintf mem fmt false ap ∧
    (∀ c, c ∉ ([0, 100, 108, 120, 112, 115, 99, 37] : List UInt8) →
      vprintf mem (37 :: c :: fmt) false ap = 37 :: c :: vprintf mem fmt false ap) ∧
    vprintf mem [37] false ap = [] ∧ vprintf mem (37 :: 0 :: fmt) false ap = [] := by
  have hlow : w.toUInt32.toNat = w.toNat % 2 ^ 32 := by simp
  refine ⟨fun c h0 h37 => by simp [vprintf, h0, h37], ?d, ?l, ?x, ?p, ?null, ?s, ?c, ?pct, ?other,
    by simp [vprintf], by simp [vprintf]⟩
  case d =>
    rw [vprintf_pct mem _ _ _ (by decide)]
    simp [conv, printint_signed]
  case l =>
    rw [vprintf_pct mem _ _ _ (by decide)]
    simp only [conv, List.headD_cons, List.tail_cons, if_neg (show (108 : UInt8) ≠ 100 by decide),
      if_true, printint_unsigned _ (show 2 ≤ (10 : UInt32).toNat by decide) (by decide), hlow]
    rfl
  case x =>
    rw [vprintf_pct mem _ _ _ (by decide)]
    simp only [conv, List.headD_cons, List.tail_cons, if_neg (show (120 : UInt8) ≠ 100 by decide),
      if_neg (show (120 : UInt8) ≠ 108 by decide), if_true,
      printint_unsigned _ (show 2 ≤ (16 : UInt32).toNat by decide) (by decide), hlow]
    rfl
  case p =>
    rw [vprintf_pct mem _ _ _ (by decide)]
    simp [conv, printptr_eq]
  case null =>
    rw [vprintf_pct mem _ _ _ (by decide)]
    simp [conv]
  case s =>
    intro k hk hne hnul hw
    rw [vprintf_pct mem _ _ _ (by decide)]
    simp only [conv, List.headD_cons, List.tail_cons]
    rw [puts_eq mem k (2 ^ 64) w.toNat hk hne hnul]
    simp [hw]
  case c =>
    rw [vprintf_pct mem _ _ _ (by decide)]
    simp [conv]
  case pct =>
    rw [vprintf_pct mem _ _ _ (by decide)]
    simp [conv]
  case other =>
    intro c hc
    simp only [List.mem_cons, List.not_mem_nil, or_false, not_or] at hc
    obtain ⟨h0, hd, hl, hx, hp, hs, hch, hpc⟩ := hc
    rw [vprintf_pct mem _ _ _ h0]
    simp [conv, hd, hl, hx, hp, hs, hch, hpc]

/-- **`%l` prints the low 32 bits.** `printf("%l", 2^32)`, as `ls` prints a size, writes `0`:
`va_arg(ap, uint64)` is passed to `printint`'s `int` parameter. The decimal of the argument is
`4294967296`. -/
theorem printf_l_truncates (mem : ℕ → UInt8) :
    vprintf mem [37, 108] false [2 ^ 32] = [48] ∧
      numeral 10 (2 ^ 32) = [52, 50, 57, 52, 57, 54, 55, 50, 57, 54] := by
  constructor
  · rfl
  · simp [numeral, digitChar]

end Xv6.Printf
