import Xv6.Vm.Copy

/-!
# Copying a string in from user space (`copyinstr` in `vm.c`)

`copyinstr(pagetable, dst, srcva, max)` copies bytes from `srcva` until it has copied a NUL or
`max` bytes. Its outer loop looks up one page at a time; its inner loop copies from that page,
counting down `n` (what is left of the page) and `max` together, and a flag `got_null` carries
the NUL out of the inner loop. What it computes is simpler: `strScan` reads one byte at a time,
stopping after `max` bytes, at an unreadable page or after the NUL, and `copyinstr_eq_strScan`
says the two agree. The properties of `copyinstr` are then properties of `strScan`:

* `strScan_ok_iff`: the copy succeeds iff a NUL comes within the first `max` bytes and every
  byte up to it lies in a readable page;
* `strScan_eq_of_strAt`: it then copies exactly the bytes up to the NUL, the NUL included;
* `length_strScan`: it never copies more than `max` bytes;
* `strScan_congr`: it reads nothing past a NUL and nothing past the `max`-th byte.
-/

namespace Xv6

/-- The inner loop of `copyinstr` over one page: copy from `p` while `n > 0`, stopping after a
NUL. The bytes written to `dst`, `max` after the loop, and `got_null`. `mem` is the memory `p`
points into. -/
def copyinstrPage (mem : ℕ → UInt8) : (n p max : ℕ) → List UInt8 × ℕ × Bool
  | 0, _, max => ([], max, false)
  | n + 1, p, max =>
    if mem p = 0 then ([0], max, true)
    else
      let r := copyinstrPage mem n (p + 1) (max - 1)
      (mem p :: r.1, r.2.1, r.2.2)

/-- `copyinstr(pagetable, dst, srcva, max)`: the bytes it writes to `dst` and whether it returned
`0`. Each round of the outer loop copies at least one byte or stops, so `fuel = max` rounds are
enough. -/
def copyinstr (sp : Space) : (fuel srcva max : ℕ) → List UInt8 × Bool
  | 0, _, _ => ([], false)
  | fuel + 1, srcva, max =>
    -- the loop runs while `got_null == 0 && max > 0`
    if max = 0 then ([], false) else
    let va0 := PGROUNDDOWN srcva
    if !sp.canRead va0 then ([], false) else
    let n := min (PGSIZE - (srcva - va0)) max
    let r := copyinstrPage sp.mem n srcva max
    if r.2.2 then (r.1, true) else
    let r' := copyinstr sp fuel (va0 + PGSIZE) r.2.1
    (r.1 ++ r'.1, r'.2)

/-- `strlen(s)`: the bytes before the first NUL. -/
def strlen (s : List UInt8) : ℕ := (s.takeWhile (· ≠ 0)).length

/-- What `copyinstr` computes: read from `a` one byte at a time, at most `max` bytes, failing at
an unreadable page and succeeding after a NUL. -/
def strScan (sp : Space) : (max a : ℕ) → List UInt8 × Bool
  | 0, _ => ([], false)
  | max + 1, a =>
    if !sp.canRead (PGROUNDDOWN a) then ([], false)
    else if sp.mem a = 0 then ([0], true)
    else
      let r := strScan sp max (a + 1)
      (sp.mem a :: r.1, r.2)

example : strScan ⟨fun _ => true, fun _ => true, fun a => if a = 3 then 0 else 7⟩ 10 1 =
    ([7, 7, 0], true) := by decide

namespace Space

/-- A string at `a` of length `k`: a NUL at `a + k`, none before it, and every byte up to it in a
readable page. -/
def StrAt (sp : Space) (a k : ℕ) : Prop :=
  (∀ i ≤ k, sp.Readable (a + i)) ∧ sp.mem (a + k) = 0 ∧ ∀ i < k, sp.mem (a + i) ≠ 0

/-- A string at `a` of length `k + 1` is a byte other than NUL, then a string at `a + 1`. -/
theorem strAt_succ (sp : Space) (a k : ℕ) :
    sp.StrAt a (k + 1) ↔ sp.Readable a ∧ sp.mem a ≠ 0 ∧ sp.StrAt (a + 1) k := by
  have hs : ∀ i, a + 1 + i = a + (i + 1) := fun i => by omega
  constructor
  · rintro ⟨hr, h0, hne⟩
    refine ⟨hr 0 (by omega), hne 0 (by omega), fun i hi => ?_, ?_, fun i hi => ?_⟩
    · rw [hs]
      exact hr (i + 1) (by omega)
    · rwa [hs]
    · rw [hs]
      exact hne (i + 1) (by omega)
  · rintro ⟨hr₀, hne₀, hr, h0, hne⟩
    refine ⟨fun i hi => ?_, by rwa [hs] at h0, fun i hi => ?_⟩
    · cases i with
      | zero => exact hr₀
      | succ i => rw [← hs]; exact hr i (by omega)
    · cases i with
      | zero => exact hne₀
      | succ i => rw [← hs]; exact hne i (by omega)

end Space

/-! ### The inner loop is the scan over one page -/

theorem copyinstrPage_max (mem : ℕ → UInt8) :
    ∀ {n p max : ℕ}, n ≤ max → (copyinstrPage mem n p max).2.2 = false →
      (copyinstrPage mem n p max).2.1 = max - n
  | 0, _, _, _, _ => rfl
  | n + 1, p, max, hn, h => by
    by_cases hp : mem p = 0
    · simp [copyinstrPage, hp] at h
    · simp only [copyinstrPage, hp, if_false] at h ⊢
      rw [copyinstrPage_max mem (by omega) h]
      omega

/-- Over bytes in readable pages, the inner loop is the scan: it stops after the NUL, or it
copies all `n` bytes and the scan goes on from the next byte with `max - n`. -/
theorem strScan_eq_page (sp : Space) :
    ∀ {n p max : ℕ}, n ≤ max → (∀ i < n, sp.Readable (p + i)) →
      strScan sp max p =
        if (copyinstrPage sp.mem n p max).2.2 then ((copyinstrPage sp.mem n p max).1, true)
        else ((copyinstrPage sp.mem n p max).1 ++ (strScan sp (max - n) (p + n)).1,
          (strScan sp (max - n) (p + n)).2)
  | 0, p, max, _, _ => by simp [copyinstrPage]
  | n + 1, p, max + 1, hn, hr => by
    have hp : sp.canRead (PGROUNDDOWN p) = true := hr 0 (by omega)
    have ih := @strScan_eq_page sp n (p + 1) max (by omega) fun i hi => by
      rw [Nat.add_assoc, Nat.add_comm 1]
      exact hr (i + 1) (by omega)
    by_cases h0 : sp.mem p = 0
    · simp [strScan, copyinstrPage, hp, h0]
    · simp only [strScan, copyinstrPage, hp, h0, Bool.not_true, Bool.false_eq_true, if_false,
        Nat.add_sub_cancel, ih]
      rw [show max + 1 - (n + 1) = max - n by omega, show p + (n + 1) = p + 1 + n by omega]
      split <;> simp

/-- **`copyinstr` is the scan.** -/
theorem copyinstr_eq_strScan (sp : Space) :
    ∀ (fuel srcva max : ℕ), max ≤ fuel → copyinstr sp fuel srcva max = strScan sp max srcva
  | 0, srcva, max, h => by
    rw [show max = 0 by omega]
    rfl
  | fuel + 1, srcva, max, h => by
    by_cases h0 : max = 0
    · subst h0
      rfl
    by_cases hr : sp.canRead (PGROUNDDOWN srcva) = true
    · set n := min (PGSIZE - (srcva - PGROUNDDOWN srcva)) max with hn
      have hn0 : 0 < n := Nat.lt_min.mpr ⟨piece_pos srcva, by omega⟩
      have hrd : ∀ i < n, sp.Readable (srcva + i) := fun i hi => by
        unfold Space.Readable
        rw [page_piece srcva i (by omega)]
        exact hr
      rw [strScan_eq_page sp (by omega) hrd]
      simp only [copyinstr, if_neg h0, hr, Bool.not_true, Bool.false_eq_true, if_false, ← hn]
      split
      · rfl
      · -- no NUL in the page: the next round starts at the next page with `max - n` left
        rename_i hnul
        rw [copyinstrPage_max sp.mem (by omega) (by simpa using hnul),
          copyinstr_eq_strScan sp fuel _ (max - n) (by omega)]
        by_cases hlt : n < max
        · rw [next_page, hn, Nat.min_eq_left (by omega)]
        · rw [show max - n = 0 by omega]
          rfl
    · have hr' : sp.canRead (PGROUNDDOWN srcva) = false := by simpa using hr
      obtain ⟨k, rfl⟩ : ∃ k, max = k + 1 := ⟨max - 1, by omega⟩
      simp [copyinstr, strScan, hr']

/-! ### What the scan copies -/

theorem slice_succ (f : ℕ → UInt8) (o n : ℕ) :
    Store.slice f o (n + 1) = f o :: Store.slice f (o + 1) n := by
  rw [Nat.add_comm, Store.slice_add]
  rfl

/-- With a string at `a` shorter than `max`, the scan copies it, NUL included, and succeeds. -/
theorem strScan_eq_of_strAt (sp : Space) :
    ∀ {k max a : ℕ}, k < max → sp.StrAt a k → strScan sp max a = (Store.slice sp.mem a (k + 1), true)
  | 0, max + 1, a, _, ⟨hr, h0, _⟩ => by
    have hp : sp.canRead (PGROUNDDOWN a) = true := hr 0 (Nat.le_refl 0)
    rw [Nat.add_zero] at h0
    simp [strScan, hp, h0, Store.slice]
  | k + 1, max + 1, a, hk, hs => by
    obtain ⟨hp, hne, hs⟩ := (sp.strAt_succ a k).mp hs
    have hp : sp.canRead (PGROUNDDOWN a) = true := hp
    rw [slice_succ]
    simp only [strScan, hp, hne, Bool.not_true, Bool.false_eq_true, if_false,
      @strScan_eq_of_strAt sp k max (a + 1) (by omega) hs]

/-- The scan succeeds only on a string shorter than `max`. -/
theorem exists_strAt_of_strScan (sp : Space) :
    ∀ {max a : ℕ}, (strScan sp max a).2 = true → ∃ k < max, sp.StrAt a k
  | 0, _, h => by simp [strScan] at h
  | max + 1, a, h => by
    by_cases hp : sp.canRead (PGROUNDDOWN a) = true
    · by_cases h0 : sp.mem a = 0
      · exact ⟨0, by omega, fun i hi => by rwa [show i = 0 by omega], h0, by omega⟩
      · simp only [strScan, hp, h0, Bool.not_true, Bool.false_eq_true, if_false] at h
        obtain ⟨k, hk, hs⟩ := exists_strAt_of_strScan sp h
        exact ⟨k + 1, by omega, (sp.strAt_succ a k).mpr ⟨hp, h0, hs⟩⟩
    · simp [strScan, hp] at h

theorem strScan_ok_iff (sp : Space) (max a : ℕ) :
    (strScan sp max a).2 = true ↔ ∃ k < max, sp.StrAt a k := by
  constructor
  · exact exists_strAt_of_strScan sp
  · rintro ⟨k, hk, hs⟩
    rw [strScan_eq_of_strAt sp hk hs]

theorem length_strScan (sp : Space) : ∀ (max a : ℕ), (strScan sp max a).1.length ≤ max
  | 0, _ => by simp [strScan]
  | max + 1, a => by
    have ih := length_strScan sp max (a + 1)
    unfold strScan
    split
    · simp
    · split
      · simp
      · simpa using ih

/-- **The scan reads nothing past a NUL nor past the `max`-th byte.** If `k < max` is the index of a
NUL or of the last byte allowed, two spaces that agree on the bytes up to `a + k` and on whether
their pages are readable give the same scan. -/
theorem strScan_congr {sp sp' : Space} :
    ∀ {k max a : ℕ}, k < max → (sp.mem (a + k) = 0 ∨ k + 1 = max) →
      (∀ i ≤ k, (sp'.Readable (a + i) ↔ sp.Readable (a + i)) ∧ sp'.mem (a + i) = sp.mem (a + i)) →
      strScan sp' max a = strScan sp max a
  | k, max + 1, a, hk, hend, hagree => by
    obtain ⟨hr, hm⟩ := hagree 0 (Nat.zero_le _)
    have hr : sp'.canRead (PGROUNDDOWN a) = sp.canRead (PGROUNDDOWN a) :=
      Bool.eq_iff_iff.mpr hr
    rw [Nat.add_zero] at hm
    -- the first byte is read alike; past it, the rest is the same question from `a + 1`
    have hrest : (strScan sp' max (a + 1)) = strScan sp max (a + 1) ∨ sp.mem a = 0 := by
      cases k with
      | zero =>
        rcases hend with h0 | hmax
        · exact .inr h0
        · rw [show max = 0 by omega]
          exact .inl rfl
      | succ k =>
        refine .inl (@strScan_congr sp sp' k max (a + 1) (by omega) ?_ fun i hi => ?_)
        · rcases hend with h0 | hmax
          · left
            rwa [show a + 1 + k = a + (k + 1) by omega]
          · right
            omega
        · rw [show a + 1 + i = a + (i + 1) by omega]
          exact hagree (i + 1) (by omega)
    simp only [strScan, hr, hm]
    rcases hrest with h | h0
    · rw [h]
    · simp [h0]

end Xv6
