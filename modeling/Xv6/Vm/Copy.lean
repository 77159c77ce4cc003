import Xv6.Lib.Store
import Mathlib.Data.List.TakeDrop
import Mathlib.Algebra.Ring.Nat

/-!
# Copying between the kernel and a user address space (`copyin`, `copyout` in `vm.c`)

`copyin` and `copyout` move one piece per page: they look the page up, give up with `-1` if it is
not mapped for them, and otherwise copy up to the end of the page. So a copy that fails has
already moved every byte before the first page it could not use. The specs say exactly that:
for some `j ≤ len`, the first `j` bytes were moved, every page they lie in could be used, and
`j < len` only when the page of byte `j` could not (`copyin_spec`, `copyout_spec`, and for
either side of the kernel boundary `eitherCopyin_spec`, `eitherCopyout_spec`).

A user address space is modelled page by page: whether `walkaddr` finds a user leaf, whether
that leaf is writable, and the byte at each virtual address. Two virtual pages sharing one
physical page are outside the model.
-/

namespace Xv6

/-- Bytes per page. -/
def PGSIZE : ℕ := 4096

/-- `MAXVA`: one bit less than Sv39 allows. -/
def MAXVA : ℕ := 2 ^ (9 + 9 + 9 + 12 - 1)

/-- `PGROUNDDOWN(a)`, `a & ~(PGSIZE-1)`. -/
def PGROUNDDOWN (a : ℕ) : ℕ := a / PGSIZE * PGSIZE

/-- A user address space as the copy routines see it. -/
structure Space where
  /-- `walkaddr` finds a valid leaf with `PTE_U` for the page. -/
  user : ℕ → Bool
  /-- The leaf also has `PTE_W`. -/
  writable : ℕ → Bool
  /-- The byte at each virtual address. -/
  mem : ℕ → UInt8

namespace Space

/-- `walkaddr(pagetable, va0) != 0` for the page at `va0`. -/
def canRead (sp : Space) (va0 : ℕ) : Bool := decide (va0 < MAXVA) && sp.user (va0 / PGSIZE)

/-- `copyout`'s test on the page at `va0`: below `MAXVA`, valid, user and writable. -/
def canWrite (sp : Space) (va0 : ℕ) : Bool :=
  decide (va0 < MAXVA) && sp.user (va0 / PGSIZE) && sp.writable (va0 / PGSIZE)

/-- The bytes `src` written from `va` on. -/
def write (sp : Space) (va : ℕ) (src : List UInt8) : Space :=
  { sp with mem := Store.store id sp.mem va src }

end Space

/-- `copyin(pagetable, dst, srcva, len)`: the bytes it copies to `dst` and whether it returned
`0`. Each iteration copies at least one byte, so `fuel = len` iterations are enough. -/
def copyin (sp : Space) : (fuel srcva len : ℕ) → List UInt8 × Bool
  | 0, _, _ => ([], true)
  | fuel + 1, srcva, len =>
    if len = 0 then ([], true) else
    let va0 := PGROUNDDOWN srcva
    if !sp.canRead va0 then ([], false) else
    let n := min (PGSIZE - (srcva - va0)) len
    let r := copyin sp fuel (va0 + PGSIZE) (len - n)
    (Store.slice sp.mem srcva n ++ r.1, r.2)

/-- `copyout(pagetable, dstva, src, len)` with the `len` bytes `src`: the space it leaves and
whether it returned `0`. -/
def copyout : (sp : Space) → (fuel dstva : ℕ) → (src : List UInt8) → Space × Bool
  | sp, 0, _, _ => (sp, true)
  | sp, fuel + 1, dstva, src =>
    if src.length = 0 then (sp, true) else
    let va0 := PGROUNDDOWN dstva
    if !sp.canWrite va0 then (sp, false) else
    let n := min (PGSIZE - (dstva - va0)) src.length
    copyout (sp.write dstva (src.take n)) fuel (va0 + PGSIZE) (src.drop n)

/-- What the copies between kernel and user see: the process's address space and the kernel's
memory. -/
structure Mem where
  space : Space
  kmem : ℕ → UInt8

/-- `either_copyin(dst, user_src, src, len)`: `copyin` for a user address, `memmove` for a
kernel one. -/
def eitherCopyin (m : Mem) (user_src : Bool) (src len : ℕ) : List UInt8 × Bool :=
  if user_src then copyin m.space len src len else (Store.slice m.kmem src len, true)

/-- `either_copyout(user_dst, dst, src, len)`. -/
def eitherCopyout (m : Mem) (user_dst : Bool) (dst : ℕ) (src : List UInt8) : Mem × Bool :=
  if user_dst then
    let r := copyout m.space src.length dst src
    ({ m with space := r.1 }, r.2)
  else ({ m with kmem := Store.store id m.kmem dst src }, true)

/-! ### Specs -/

namespace Space

/-- The byte at `va` lies in a page `copyin` can read. -/
def Readable (sp : Space) (va : ℕ) : Prop := sp.canRead (PGROUNDDOWN va) = true

/-- The byte at `va` lies in a page `copyout` can write. -/
def Writable (sp : Space) (va : ℕ) : Prop := sp.canWrite (PGROUNDDOWN va) = true

@[simp] theorem user_write (sp : Space) (va : ℕ) (src : List UInt8) :
    (sp.write va src).user = sp.user := rfl

@[simp] theorem writable_write (sp : Space) (va : ℕ) (src : List UInt8) :
    (sp.write va src).writable = sp.writable := rfl

@[simp] theorem canWrite_write (sp : Space) (va va0 : ℕ) (src : List UInt8) :
    (sp.write va src).canWrite va0 = sp.canWrite va0 := rfl

theorem write_append (sp : Space) (va : ℕ) (xs ys : List UInt8) :
    sp.write va (xs ++ ys) = (sp.write va xs).write (va + xs.length) ys := by
  simp only [write, Store.store_append]

end Space

/-- The piece of a page from `a` on: `PGSIZE - (a - PGROUNDDOWN a)` bytes, the first of them at
`a` and all in the page of `a`, the next page starting right after. -/
theorem page_piece (a i : ℕ) (hi : i < PGSIZE - (a - PGROUNDDOWN a)) :
    PGROUNDDOWN (a + i) = PGROUNDDOWN a := by
  unfold PGROUNDDOWN PGSIZE at *
  omega

theorem next_page (a : ℕ) : PGROUNDDOWN a + PGSIZE = a + (PGSIZE - (a - PGROUNDDOWN a)) := by
  unfold PGROUNDDOWN PGSIZE
  omega

theorem piece_pos (a : ℕ) : 0 < PGSIZE - (a - PGROUNDDOWN a) := by
  unfold PGROUNDDOWN PGSIZE
  omega

/-- **One piece, then the rest.** A page-by-page loop that has moved the piece `n` of the page of
`a`, a good page, and then `j` bytes from the next page on, stopping at a bad page unless it was
done, has moved `n + j` bytes from `a` on, all in good pages, and stops at a bad page unless it
is done. The rest started right after the piece, unless nothing was left for it. -/
theorem piece_extend (good : ℕ → Prop) {a len n j : ℕ}
    (hn : n = min (PGSIZE - (a - PGROUNDDOWN a)) len) (h0 : len ≠ 0) (hgood : good (PGROUNDDOWN a))
    (hj : j ≤ len - n) (hrest : ∀ i < j, good (PGROUNDDOWN (PGROUNDDOWN a + PGSIZE + i)))
    (hstop : j < len - n → ¬ good (PGROUNDDOWN (PGROUNDDOWN a + PGSIZE + j))) :
    (j = 0 ∨ PGROUNDDOWN a + PGSIZE = a + n) ∧ (∀ i < n + j, good (PGROUNDDOWN (a + i))) ∧
      (n + j < len → ¬ good (PGROUNDDOWN (a + (n + j)))) := by
  -- a piece shorter than what is left ends at the end of the page
  have hnext : n < len → PGROUNDDOWN a + PGSIZE = a + n := fun hlt => by
    rw [next_page, hn, Nat.min_eq_left (by omega)]
  refine ⟨?_, fun i hi => ?_, fun hlt => ?_⟩
  · by_cases hlt : n < len
    · exact .inr (hnext hlt)
    · exact .inl (by omega)
  · by_cases hin : i < n
    · rw [page_piece a i (by omega)]
      exact hgood
    · have h := hrest (i - n) (by omega)
      rwa [hnext (by omega), Nat.add_assoc, Nat.add_sub_cancel' (by omega)] at h
  · have h := hstop (by omega)
    rwa [hnext (by omega), Nat.add_assoc] at h

/-- A page-by-page loop that stopped at byte `j > 0` of a run, after a good page and at a bad one,
stopped at the start of a page: it moved whole pieces. -/
theorem stop_aligned (good : ℕ → Prop) {a j : ℕ} (hj : 0 < j) (hgood : good (PGROUNDDOWN (a + (j - 1))))
    (hbad : ¬ good (PGROUNDDOWN (a + j))) : PGROUNDDOWN (a + j) = a + j := by
  by_contra hne
  -- byte `j` would share the page of byte `j - 1`
  have hsame : PGROUNDDOWN (a + j) = PGROUNDDOWN (a + (j - 1)) := by
    unfold PGROUNDDOWN PGSIZE at *
    omega
  apply hbad
  rw [hsame]
  exact hgood

/-- **`copyin`'s spec.** Some `j ≤ len` bytes from `srcva` are copied, every one of them from a
readable page; it succeeds iff `j = len`, and otherwise the page of byte `j` is not readable. -/
theorem copyin_spec (sp : Space) :
    ∀ (fuel srcva len : ℕ), len ≤ fuel → ∃ j ≤ len,
      copyin sp fuel srcva len = (Store.slice sp.mem srcva j, decide (j = len)) ∧
      (∀ i < j, sp.Readable (srcva + i)) ∧ (j < len → ¬ sp.Readable (srcva + j))
  | 0, srcva, len, h => ⟨0, Nat.zero_le _, by simp [copyin]; omega, by simp, by omega⟩
  | fuel + 1, srcva, len, h => by
    by_cases h0 : len = 0
    · exact ⟨0, Nat.zero_le _, by simp [copyin, h0], by simp, by omega⟩
    by_cases hr : sp.canRead (PGROUNDDOWN srcva) = true
    · -- the piece up to the end of the page, then the rest from the next page
      set n := min (PGSIZE - (srcva - PGROUNDDOWN srcva)) len with hn
      have hn0 : 0 < n := Nat.lt_min.mpr ⟨piece_pos srcva, by omega⟩
      obtain ⟨j, hj, heq, hread, hfault⟩ :=
        copyin_spec sp fuel (PGROUNDDOWN srcva + PGSIZE) (len - n) (by omega)
      obtain ⟨hstart, hrd, hstop⟩ :=
        piece_extend (fun a => sp.canRead a = true) hn h0 hr hj hread hfault
      refine ⟨n + j, by omega, ?_, hrd, hstop⟩
      simp only [copyin, if_neg h0, hr, Bool.not_true, Bool.false_eq_true, if_false, ← hn, heq]
      rcases hstart with hj0 | hs
      · simp [hj0]
        omega
      · rw [hs, ← Store.slice_add]
        simp only [Prod.mk.injEq, true_and]
        exact decide_eq_decide.mpr (by omega)
    · refine ⟨0, Nat.zero_le _, ?_, by simp, fun _ => ?_⟩
      · simp only [copyin, if_neg h0, hr, Bool.not_false, if_true]
        simp
        omega
      · simpa [Space.Readable] using hr

/-- **`copyout`'s spec.** Some `j ≤ src.length` bytes of `src` are written from `dstva` on, each
to a writable page; it succeeds iff `j = src.length`, and otherwise the page of byte `j` is not
writable. -/
theorem copyout_spec :
    ∀ (sp : Space) (fuel dstva : ℕ) (src : List UInt8), src.length ≤ fuel → ∃ j ≤ src.length,
      copyout sp fuel dstva src = (sp.write dstva (src.take j), decide (j = src.length)) ∧
      (∀ i < j, sp.Writable (dstva + i)) ∧ (j < src.length → ¬ sp.Writable (dstva + j))
  | sp, 0, dstva, src, h => ⟨0, Nat.zero_le _, by
      simp only [copyout, List.take_zero, Space.write, Store.store_nil]
      simp; omega, by simp, by omega⟩
  | sp, fuel + 1, dstva, src, h => by
    by_cases h0 : src.length = 0
    · refine ⟨0, Nat.zero_le _, ?_, by simp, by omega⟩
      simp [copyout, h0, Space.write]
    by_cases hw : sp.canWrite (PGROUNDDOWN dstva) = true
    · set n := min (PGSIZE - (dstva - PGROUNDDOWN dstva)) src.length with hn
      have hn0 : 0 < n := Nat.lt_min.mpr ⟨piece_pos dstva, by omega⟩
      have hlen : (src.drop n).length = src.length - n := List.length_drop
      obtain ⟨j, hj, heq, hwr, hfault⟩ :=
        copyout_spec (sp.write dstva (src.take n)) fuel (PGROUNDDOWN dstva + PGSIZE) (src.drop n)
          (by omega)
      rw [hlen] at hj hfault
      -- writing changes no page's permissions, so the rest's pages are judged as before
      obtain ⟨hstart, hwd, hstop⟩ :=
        piece_extend (fun a => sp.canWrite a = true) hn h0 hw hj hwr hfault
      have htake : (src.take n).length = n := by rw [List.length_take]; omega
      refine ⟨n + j, by omega, ?_, hwd, hstop⟩
      simp only [copyout, if_neg h0, hw, Bool.not_true, Bool.false_eq_true, if_false, ← hn, heq]
      rcases hstart with hj0 | hs
      · subst hj0
        simp only [List.take_zero, Space.write, Store.store_nil, Nat.add_zero, Prod.mk.injEq,
          true_and]
        exact decide_eq_decide.mpr (by rw [hlen]; omega)
      · have hw₂ : (sp.write dstva (src.take n)).write (dstva + n) ((src.drop n).take j) =
            sp.write dstva (src.take (n + j)) := by
          rw [List.take_add, Space.write_append, htake]
        rw [hs, hw₂]
        simp only [Prod.mk.injEq, true_and]
        exact decide_eq_decide.mpr (by rw [hlen]; omega)
    · refine ⟨0, Nat.zero_le _, ?_, by simp, fun _ => ?_⟩
      · simp only [copyout, if_neg h0, hw, Bool.not_false, if_true]
        simp only [List.take_zero, Space.write, Store.store_nil, Prod.mk.injEq, true_and]
        simp
        omega
      · simpa [Space.Writable] using hw

namespace Mem

/-- Where a copy from `src` reads: user memory or kernel memory. -/
def source (m : Mem) (user : Bool) : ℕ → UInt8 := if user then m.space.mem else m.kmem

/-- A kernel address can always be read; a user one if its page is readable. -/
def Readable (m : Mem) (user : Bool) (va : ℕ) : Prop := user = true → m.space.Readable va

/-- A kernel address can always be written; a user one if its page is writable. -/
def Writable (m : Mem) (user : Bool) (va : ℕ) : Prop := user = true → m.space.Writable va

/-- The bytes `src` stored from `dst` on, in user or kernel memory. -/
def store (m : Mem) (user : Bool) (dst : ℕ) (src : List UInt8) : Mem :=
  if user then { m with space := m.space.write dst src }
  else { m with kmem := Store.store id m.kmem dst src }

@[simp] theorem store_nil (m : Mem) (user : Bool) (dst : ℕ) : m.store user dst [] = m := by
  cases user <;> simp [store, Space.write]

theorem store_append (m : Mem) (user : Bool) (dst : ℕ) (xs ys : List UInt8) :
    m.store user dst (xs ++ ys) = (m.store user dst xs).store user (dst + xs.length) ys := by
  cases user <;> simp [store, Space.write_append, Store.store_append]

/-- Storing bytes changes no page's permissions. -/
@[simp] theorem writable_store (m : Mem) (user user' : Bool) (dst va : ℕ) (xs : List UInt8) :
    (m.store user dst xs).Writable user' va ↔ m.Writable user' va := by
  cases user <;> rfl

end Mem

/-- `either_copyin`'s spec: `copyin_spec` for a user address, a whole copy for a kernel one. -/
theorem eitherCopyin_spec (m : Mem) (user : Bool) (src len : ℕ) : ∃ j ≤ len,
    eitherCopyin m user src len = (Store.slice (m.source user) src j, decide (j = len)) ∧
    (∀ i < j, m.Readable user (src + i)) ∧ (j < len → ¬ m.Readable user (src + j)) := by
  cases user with
  | true =>
    obtain ⟨j, hj, heq, hr, hf⟩ := copyin_spec m.space len src len (Nat.le_refl _)
    exact ⟨j, hj, heq, fun i hi _ => hr i hi, fun hlt h => hf hlt (h rfl)⟩
  | false =>
    refine ⟨len, (Nat.le_refl _), ?_, fun _ _ h => Bool.noConfusion h, by omega⟩
    simp [eitherCopyin, Mem.source]

/-- `either_copyout`'s spec. -/
theorem eitherCopyout_spec (m : Mem) (user : Bool) (dst : ℕ) (src : List UInt8) :
    ∃ j ≤ src.length,
      eitherCopyout m user dst src = (m.store user dst (src.take j), decide (j = src.length)) ∧
      (∀ i < j, m.Writable user (dst + i)) ∧ (j < src.length → ¬ m.Writable user (dst + j)) := by
  cases user with
  | true =>
    obtain ⟨j, hj, heq, hw, hf⟩ := copyout_spec m.space src.length dst src (Nat.le_refl _)
    refine ⟨j, hj, ?_, fun i hi _ => hw i hi, fun hlt h => hf hlt (h rfl)⟩
    simp [eitherCopyout, heq, Mem.store]
  | false =>
    refine ⟨src.length, (Nat.le_refl _), ?_, fun _ _ h => Bool.noConfusion h, by omega⟩
    simp [eitherCopyout, Mem.store]

end Xv6
