import Xv6.Vm.Walk
import Xv6.Vm.CopyStr
import Xv6.Param

/-!
# The copies through the page table (`copyout`, `copyin`, `copyinstr` in `vm.c`)

The copy routines as the kernel runs them: each round looks up the page with `walk` or
`walkaddr`, then moves bytes between the kernel and the physical page with `memmove`, or byte by
byte in `copyinstr`.

`copyin` and `copyinstr` only read user memory, so they are the copies of `Copy.lean` and
`CopyStr.lean` run on the address space the page table gives (`view`): a page is readable when
`walkaddr` finds it, and its bytes are those of the physical page (`copyin_eq_view`,
`copyinstr_eq_view`). `copyout` writes the `i`-th byte at the physical address of `dstva + i`
(`writeVirt`), and it has its own spec (`copyout_spec`) for that reason: when two pages of the
range map one physical page, a later piece overwrites an earlier one. When they do not, the bytes
read back through the table are the bytes written (`copyout_read`).
-/

namespace Xv6.PageTable

/-- `copyout(pagetable, dstva, src, len)` with the `len` bytes `src`: the memory it leaves and
whether it returned `0`. -/
def copyout : (m : Phys) → (pagetable fuel dstva : ℕ) → (src : List UInt8) → Phys × Bool
  | m, _, 0, _, _ => (m, true)
  | m, pagetable, fuel + 1, dstva, src =>
    if src.length = 0 then (m, true) else
    let va0 := PGROUNDDOWN dstva
    if h : va0 ≥ MAXVA then (m, false) else
    match walk m pagetable va0 (by omega) with
    | none => (m, false)
    | some pte =>
      if m.pte pte &&& PTE_V = 0 ∨ m.pte pte &&& PTE_U = 0 ∨ m.pte pte &&& PTE_W = 0 then (m, false)
      else
        let pa0 := PTE2PA (m.pte pte)
        let n := min (PGSIZE - (dstva - va0)) src.length
        copyout { m with byte := Store.store id m.byte (pa0 + (dstva - va0)) (src.take n) }
          pagetable fuel (va0 + PGSIZE) (src.drop n)

/-- `copyin(pagetable, dst, srcva, len)`: the bytes it copies to `dst` and whether it returned
`0`. -/
def copyin (m : Phys) (pagetable : ℕ) : (fuel srcva len : ℕ) → List UInt8 × Bool
  | 0, _, _ => ([], true)
  | fuel + 1, srcva, len =>
    if len = 0 then ([], true) else
    let va0 := PGROUNDDOWN srcva
    let pa0 := walkaddr m pagetable va0
    if pa0 = 0 then ([], false) else
    let n := min (PGSIZE - (srcva - va0)) len
    let r := copyin m pagetable fuel (va0 + PGSIZE) (len - n)
    (Store.slice m.byte (pa0 + (srcva - va0)) n ++ r.1, r.2)

/-- `copyinstr(pagetable, dst, srcva, max)`: the bytes it writes to `dst` and whether it
returned `0`. -/
def copyinstr (m : Phys) (pagetable : ℕ) : (fuel srcva max : ℕ) → List UInt8 × Bool
  | 0, _, _ => ([], false)
  | fuel + 1, srcva, max =>
    if max = 0 then ([], false) else
    let va0 := PGROUNDDOWN srcva
    let pa0 := walkaddr m pagetable va0
    if pa0 = 0 then ([], false) else
    let n := min (PGSIZE - (srcva - va0)) max
    let r := copyinstrPage m.byte n (pa0 + (srcva - va0)) max
    if r.2.2 then (r.1, true) else
    let r' := copyinstr m pagetable fuel (va0 + PGSIZE) r.2.1
    (r.1 ++ r'.1, r'.2)

/-- `fetchstr(addr, buf, max)` for a process with page table `pt`: the length of the string
copied to `buf`, or `-1`. -/
def fetchstr (m : Phys) (pt addr max : ℕ) : ℤ :=
  let r := copyinstr m pt max addr max
  if !r.2 then -1 else strlen r.1

/-- `argstr(n, buf, max)`: `fetchstr` at the address in argument register `n` of the trapframe,
whose registers `a0` to `a5` are `a`. -/
def argstr (m : Phys) (pt : ℕ) (a : Fin 6 → ℕ) (n : Fin 6) (max : ℕ) : ℤ := fetchstr m pt (a n) max

/-! ### What the copies see of a page table -/

/-- The level-0 entry `walk` finds for the page at `va0`. -/
def leaf (m : Phys) (pt va0 : ℕ) : Option UInt64 :=
  if h : va0 < MAXVA then (walk m pt va0 h).map m.pte else none

/-- `copyout`'s test on the page at `va0`: below `MAXVA`, with a valid, user, writable entry. -/
def CanWrite (m : Phys) (pt va0 : ℕ) : Prop :=
  ∃ e, leaf m pt va0 = some e ∧ e &&& PTE_V ≠ 0 ∧ e &&& PTE_U ≠ 0 ∧ e &&& PTE_W ≠ 0

/-- The physical address `copyout` writes the byte of `va` to. -/
def tr (m : Phys) (pt va : ℕ) : ℕ := PTE2PA ((leaf m pt (PGROUNDDOWN va)).getD 0) + (va - PGROUNDDOWN va)

/-- The bytes `xs` written from `va` on, each at its physical address. -/
def writeVirt (m : Phys) (pt va : ℕ) (xs : List UInt8) : Phys :=
  { m with byte := Store.storeVia (tr m pt) m.byte va xs }

/-- The byte at `va` as `copyin` reads it, through `walkaddr` of its page. -/
def userByte (m : Phys) (pt va : ℕ) : UInt8 :=
  m.byte (walkaddr m pt (PGROUNDDOWN va) + (va - PGROUNDDOWN va))

/-- The address space of page table `pt` as `copyin` and `copyinstr` see it: a page is there
when `walkaddr` finds it. -/
def view (m : Phys) (pt : ℕ) : Space where
  user vpn := walkaddr m pt (vpn * PGSIZE) ≠ 0
  writable vpn := match leaf m pt (vpn * PGSIZE) with
    | some e => e &&& PTE_W ≠ 0
    | none => false
  mem := userByte m pt

/-- The abstract reading of the byte at `va`: through the leaf of its page. -/
def readVirt (m : Phys) (pt va : ℕ) : Option UInt8 :=
  (leafOf m pt (va / PGSIZE)).map fun e => m.byte (PTE2PA e + va % PGSIZE)

/-- A string at `a` of length `k` in user memory: a NUL at `a + k`, none before it, and every
byte up to it in a page that `walkaddr` finds. -/
def StrAt (m : Phys) (pt a k : ℕ) : Prop :=
  (∀ i ≤ k, walkaddr m pt (PGROUNDDOWN (a + i)) ≠ 0) ∧ userByte m pt (a + k) = 0 ∧
    ∀ i < k, userByte m pt (a + i) ≠ 0

/-- No two pages of the `len` bytes from `va` are mapped to one physical page. -/
def Distinct (m : Phys) (pt va len : ℕ) : Prop :=
  ∀ i < len, ∀ k < len, ∀ p q, leafOf m pt ((va + i) / PGSIZE) = some p →
    leafOf m pt ((va + k) / PGSIZE) = some q → PTE2PA p = PTE2PA q →
      (va + i) / PGSIZE = (va + k) / PGSIZE

/-! ### Pages and their leaves -/

@[simp] theorem leaf_byte (m : Phys) (b : ℕ → UInt8) (pt va0 : ℕ) :
    leaf { m with byte := b } pt va0 = leaf m pt va0 := rfl

@[simp] theorem walkaddr_byte (m : Phys) (b : ℕ → UInt8) (pt va : ℕ) :
    walkaddr { m with byte := b } pt va = walkaddr m pt va := rfl

theorem pgrounddown_aligned (a : ℕ) : PGROUNDDOWN a / PGSIZE * PGSIZE = PGROUNDDOWN a := by
  unfold PGROUNDDOWN PGSIZE
  omega

theorem pgrounddown_div (a : ℕ) : PGROUNDDOWN a / PGSIZE = a / PGSIZE := by
  unfold PGROUNDDOWN PGSIZE
  omega

theorem sub_pgrounddown (a : ℕ) : a - PGROUNDDOWN a = a % PGSIZE := by
  unfold PGROUNDDOWN PGSIZE
  omega

theorem walkaddr_of_ge {m : Phys} {pt va : ℕ} (h : MAXVA ≤ va) : walkaddr m pt va = 0 := by
  simp [walkaddr, h]

/-- `walkaddr` in terms of the entry `walk` finds. -/
theorem walkaddr_eq (m : Phys) (pt va0 : ℕ) :
    walkaddr m pt va0 = match leaf m pt va0 with
      | some e => if e &&& PTE_V = 0 then 0 else if e &&& PTE_U = 0 then 0 else PTE2PA e
      | none => 0 := by
  unfold walkaddr leaf
  by_cases h : va0 < MAXVA
  · rw [dif_neg (by omega), dif_pos h]
    cases walk m pt va0 h <;> rfl
  · rw [dif_pos (by omega), dif_neg h]

/-- On a well-formed table, the leaf of the page of `a` is the entry `walk` finds, if it is
valid. -/
theorem leafOf_eq_leaf {m : Phys} {pt : ℕ} (hwf : WellFormed m pt) {a : ℕ}
    (ha : PGROUNDDOWN a < MAXVA) :
    leafOf m pt (a / PGSIZE) = (leaf m pt (PGROUNDDOWN a)).bind fun e => if Valid e then some e else none := by
  rw [← pgrounddown_div, leafOf_walk hwf ha, leaf, dif_pos ha]
  cases walk m pt (PGROUNDDOWN a) ha <;> rfl

/-- **`copyout`'s test is the abstract one.** On a well-formed table, `copyout` may write the page
of `a` iff it is below `MAXVA` and its leaf has `PTE_U` and `PTE_W`. -/
theorem canWrite_iff {m : Phys} {pt : ℕ} (hwf : WellFormed m pt) (a : ℕ) :
    CanWrite m pt (PGROUNDDOWN a) ↔ PGROUNDDOWN a < MAXVA ∧
      ∃ e, leafOf m pt (a / PGSIZE) = some e ∧ e &&& PTE_U ≠ 0 ∧ e &&& PTE_W ≠ 0 := by
  constructor
  · rintro ⟨e, he, hv, hu, hw⟩
    have ha : PGROUNDDOWN a < MAXVA := by
      by_contra h
      simp [leaf, h] at he
    refine ⟨ha, e, ?_, hu, hw⟩
    rw [leafOf_eq_leaf hwf ha, he, Option.bind_some, if_pos (show Valid e from hv)]
  · rintro ⟨ha, e, he, hu, hw⟩
    rw [leafOf_eq_leaf hwf ha] at he
    obtain ⟨e', he', hv⟩ := Option.bind_eq_some_iff.mp he
    by_cases hv' : Valid e'
    · rw [if_pos hv', Option.some.injEq] at hv
      subst hv
      exact ⟨e', he', hv', hu, hw⟩
    · rw [if_neg hv'] at hv
      cases hv

/-- Inside one page, `tr` moves the bytes by one offset. -/
theorem tr_piece {m : Phys} {pt a : ℕ} {e : UInt64} (he : leaf m pt (PGROUNDDOWN a) = some e)
    {i : ℕ} (hi : i < PGSIZE - (a - PGROUNDDOWN a)) :
    tr m pt (a + i) = PTE2PA e + (a - PGROUNDDOWN a) + i := by
  have hp := page_piece a i hi
  have hle : PGROUNDDOWN a ≤ a := by unfold PGROUNDDOWN PGSIZE; omega
  rw [tr, hp, he, Option.getD_some]
  omega

/-- **Distinct pages, distinct bytes.** If no two pages of the range share a physical page, `tr`
is one to one on the range of writable pages. -/
theorem tr_injective {m : Phys} {pt va len : ℕ} (hwf : WellFormed m pt) (hd : Distinct m pt va len)
    (hw : ∀ i < len, CanWrite m pt (PGROUNDDOWN (va + i))) :
    ∀ i < len, ∀ k < len, tr m pt (va + i) = tr m pt (va + k) → i = k := by
  intro i hi k hk htr
  obtain ⟨e, he, -, -, -⟩ := hw i hi
  obtain ⟨f, hf, -, -, -⟩ := hw k hk
  obtain ⟨-, p, hp, -, -⟩ := (canWrite_iff hwf (va + i)).mp (hw i hi)
  obtain ⟨-, q, hq, -, -⟩ := (canWrite_iff hwf (va + k)).mp (hw k hk)
  -- the leaf of each page is the entry `walk` found, valid
  have hep : p = e := by
    rw [leafOf_eq_leaf hwf (by by_contra h; simp [leaf, h] at he), he] at hp
    by_cases hv : Valid e
    · simpa [hv] using hp.symm
    · simp [hv] at hp
  have hfq : q = f := by
    rw [leafOf_eq_leaf hwf (by by_contra h; simp [leaf, h] at hf), hf] at hq
    by_cases hv : Valid f
    · simpa [hv] using hq.symm
    · simp [hv] at hq
  subst hep hfq
  have hpa := PTE2PA_mod p
  have hqa := PTE2PA_mod q
  rw [tr, he, tr, hf, Option.getD_some, Option.getD_some, sub_pgrounddown, sub_pgrounddown] at htr
  have hoff : (va + i) % PGSIZE < PGSIZE := Nat.mod_lt _ (by decide)
  have hoff' : (va + k) % PGSIZE < PGSIZE := Nat.mod_lt _ (by decide)
  -- aligned page plus offset: both parts agree
  have hpq : PTE2PA p = PTE2PA q := by
    unfold PGSIZE at *
    omega
  have hpage := hd i hi k hk p q hp hq hpq
  unfold PGSIZE at *
  omega

/-! ### `copyout` -/

/-- One round of `copyout`, through `leaf`. -/
theorem copyout_succ (m : Phys) (pt fuel dstva : ℕ) (src : List UInt8) (h0 : src.length ≠ 0) :
    copyout m pt (fuel + 1) dstva src =
      match leaf m pt (PGROUNDDOWN dstva) with
      | some e =>
        if e &&& PTE_V = 0 ∨ e &&& PTE_U = 0 ∨ e &&& PTE_W = 0 then (m, false)
        else copyout { m with byte := (Store.store id m.byte
            (PTE2PA e + (dstva - PGROUNDDOWN dstva))
            (src.take (min (PGSIZE - (dstva - PGROUNDDOWN dstva)) src.length))) }
          pt fuel (PGROUNDDOWN dstva + PGSIZE)
          (src.drop (min (PGSIZE - (dstva - PGROUNDDOWN dstva)) src.length))
      | none => (m, false) := by
  unfold leaf
  by_cases h : PGROUNDDOWN dstva < MAXVA
  · rw [dif_pos h]
    simp only [copyout, if_neg h0, dif_neg (show ¬ PGROUNDDOWN dstva ≥ MAXVA by omega)]
    cases walk m pt (PGROUNDDOWN dstva) h <;> rfl
  · rw [dif_neg h]
    simp only [copyout, if_neg h0, dif_pos (show PGROUNDDOWN dstva ≥ MAXVA by omega)]

/-- **`copyout`'s spec.** Some `j ≤ src.length` bytes of `src` are written from `dstva` on, each
at its physical address, all in pages `copyout` may write; it succeeds iff `j = src.length`, and
otherwise the page of byte `j` may not be written. -/
theorem copyout_spec (pt : ℕ) :
    ∀ (m : Phys) (fuel dstva : ℕ) (src : List UInt8), src.length ≤ fuel → ∃ j ≤ src.length,
      copyout m pt fuel dstva src = (writeVirt m pt dstva (src.take j), decide (j = src.length)) ∧
      (∀ i < j, CanWrite m pt (PGROUNDDOWN (dstva + i))) ∧
      (j < src.length → ¬ CanWrite m pt (PGROUNDDOWN (dstva + j)))
  | m, 0, dstva, src, h => ⟨0, Nat.zero_le _, by
      simp only [copyout, List.take_zero, writeVirt, Store.storeVia_nil]
      simp; omega, by simp, by omega⟩
  | m, fuel + 1, dstva, src, h => by
    by_cases h0 : src.length = 0
    · refine ⟨0, Nat.zero_le _, ?_, by simp, by omega⟩
      simp [copyout, h0, writeVirt]
    rw [copyout_succ m pt fuel dstva src h0]
    by_cases hw : CanWrite m pt (PGROUNDDOWN dstva)
    · obtain ⟨e, he, hv, hu, hwr⟩ := hw
      set n := min (PGSIZE - (dstva - PGROUNDDOWN dstva)) src.length with hn
      have hn0 : 0 < n := Nat.lt_min.mpr ⟨piece_pos dstva, by omega⟩
      have hlen : (src.drop n).length = src.length - n := List.length_drop
      have htake : (src.take n).length = n := by rw [List.length_take]; omega
      -- the piece's `memmove` is the piece written through `tr`
      have hpiece : Store.store id m.byte (PTE2PA e + (dstva - PGROUNDDOWN dstva)) (src.take n) =
          Store.storeVia (tr m pt) m.byte dstva (src.take n) :=
        (Store.storeVia_eq_store _ _ _ _ _ fun i hi => tr_piece he (by omega)).symm
      obtain ⟨j, hj, heq, hwd, hfault⟩ :=
        copyout_spec pt { m with byte := (Store.store id m.byte
          (PTE2PA e + (dstva - PGROUNDDOWN dstva)) (src.take n)) } fuel
          (PGROUNDDOWN dstva + PGSIZE) (src.drop n) (by omega)
      rw [hlen] at hj hfault
      -- the pages are judged by their entries, which writing bytes leaves alone
      obtain ⟨hstart, hwd', hstop⟩ := piece_extend (fun a => CanWrite m pt a) hn h0
        ⟨e, he, hv, hu, hwr⟩ hj hwd hfault
      refine ⟨n + j, by omega, ?_, hwd', hstop⟩
      rw [he]
      simp only [hv, hu, hwr, or_self, if_false]
      rw [heq]
      simp only [writeVirt, hpiece, Prod.mk.injEq]
      rcases hstart with hj0 | hs
      · subst hj0
        refine ⟨by simp, decide_eq_decide.mpr (by rw [hlen]; omega)⟩
      · refine ⟨?_, decide_eq_decide.mpr (by rw [hlen]; omega)⟩
        rw [List.take_add, Store.storeVia_append, htake, hs]
        rfl
    · refine ⟨0, Nat.zero_le _, ?_, by simp, fun _ => by simpa using hw⟩
      have hres : (match leaf m pt (PGROUNDDOWN dstva) with
          | some e =>
            if e &&& PTE_V = 0 ∨ e &&& PTE_U = 0 ∨ e &&& PTE_W = 0 then (m, false)
            else copyout { m with byte := (Store.store id m.byte
                (PTE2PA e + (dstva - PGROUNDDOWN dstva))
                (src.take (min (PGSIZE - (dstva - PGROUNDDOWN dstva)) src.length))) }
              pt fuel (PGROUNDDOWN dstva + PGSIZE)
              (src.drop (min (PGSIZE - (dstva - PGROUNDDOWN dstva)) src.length))
          | none => (m, false)) = (m, false) := by
        cases hl : leaf m pt (PGROUNDDOWN dstva) with
        | none => rfl
        | some e =>
          have : e &&& PTE_V = 0 ∨ e &&& PTE_U = 0 ∨ e &&& PTE_W = 0 := by
            by_contra hc
            simp only [not_or] at hc
            exact hw ⟨e, hl, hc.1, hc.2.1, hc.2.2⟩
          simp only [this, if_true]
      rw [hres]
      simp [writeVirt]
      omega

/-- **What `copyout` leaves readable.** On a well-formed table whose pages of the range map
distinct physical pages, a `copyout` that succeeds leaves the bytes `src` at `dstva` as read
through the table. -/
theorem copyout_read {m : Phys} {pt dstva : ℕ} {src : List UInt8} (hwf : WellFormed m pt)
    (hd : Distinct m pt dstva src.length) (hw : ∀ i < src.length, CanWrite m pt (PGROUNDDOWN (dstva + i))) :
    Store.slice (readVirt (writeVirt m pt dstva src) pt) dstva src.length = src.map some := by
  apply List.ext_getElem (by simp)
  intro i h₁ h₂
  simp only [Store.length_slice] at h₁
  rw [Store.getElem_slice, List.getElem_map]
  obtain ⟨e, he, hv, -, -⟩ := hw i h₁
  have ha : PGROUNDDOWN (dstva + i) < MAXVA := by
    by_contra h
    simp [leaf, h] at he
  -- the leaf read is the entry `copyout` wrote through, and the address is `tr`'s
  have hleaf : leafOf (writeVirt m pt dstva src) pt ((dstva + i) / PGSIZE) = some e := by
    rw [show leafOf (writeVirt m pt dstva src) pt = leafOf m pt from rfl, leafOf_eq_leaf hwf ha, he,
      Option.bind_some, if_pos (show Valid e from hv)]
  have htr : PTE2PA e + (dstva + i) % PGSIZE = tr m pt (dstva + i) := by
    rw [tr, he, Option.getD_some, sub_pgrounddown]
  rw [readVirt, hleaf, Option.map_some, htr, writeVirt]
  exact congrArg some (Store.storeVia_self _ _ _ _ (tr_injective hwf hd hw) h₁)

/-! ### `copyin` and `copyinstr` are the copies of the view -/

theorem canRead_view (m : Phys) (pt a : ℕ) :
    (view m pt).canRead (PGROUNDDOWN a) = decide (walkaddr m pt (PGROUNDDOWN a) ≠ 0) := by
  unfold Space.canRead
  simp only [view, pgrounddown_aligned]
  by_cases h : PGROUNDDOWN a < MAXVA
  · simp [h]
  · simp [h, walkaddr_of_ge (show MAXVA ≤ PGROUNDDOWN a by omega)]

theorem readable_view (m : Phys) (pt a : ℕ) :
    (view m pt).Readable a ↔ walkaddr m pt (PGROUNDDOWN a) ≠ 0 := by
  simp [Space.Readable, canRead_view]

/-- The bytes of the piece of the page of `a` are the view's. -/
theorem byte_piece (m : Phys) (pt a : ℕ) {i : ℕ} (hi : i < PGSIZE - (a - PGROUNDDOWN a)) :
    m.byte (walkaddr m pt (PGROUNDDOWN a) + (a - PGROUNDDOWN a) + i) = userByte m pt (a + i) := by
  have hle : PGROUNDDOWN a ≤ a := by unfold PGROUNDDOWN PGSIZE; omega
  rw [userByte, page_piece a i hi]
  congr 1
  omega

/-- **`copyin` through the table is `copyin` of the view.** -/
theorem copyin_eq_view (m : Phys) (pt : ℕ) :
    ∀ (fuel srcva len : ℕ), copyin m pt fuel srcva len = Xv6.copyin (view m pt) fuel srcva len
  | 0, _, _ => rfl
  | fuel + 1, srcva, len => by
    have ih := copyin_eq_view m pt fuel (PGROUNDDOWN srcva + PGSIZE)
    by_cases h0 : len = 0
    · simp [copyin, Xv6.copyin, h0]
    by_cases hr : walkaddr m pt (PGROUNDDOWN srcva) = 0
    · simp [copyin, Xv6.copyin, h0, hr, canRead_view]
    · have hpiece : Store.slice m.byte (walkaddr m pt (PGROUNDDOWN srcva) +
            (srcva - PGROUNDDOWN srcva)) (min (PGSIZE - (srcva - PGROUNDDOWN srcva)) len) =
          Store.slice (view m pt).mem srcva (min (PGSIZE - (srcva - PGROUNDDOWN srcva)) len) := by
        rw [Store.slice_shift, Store.slice_shift (view m pt).mem]
        exact Store.slice_congr fun i hi => by
          simp only [Nat.zero_add]
          exact byte_piece m pt srcva (by omega)
      simp only [copyin, Xv6.copyin, if_neg h0, canRead_view, ne_eq, hr,
        not_false_eq_true, decide_true, Bool.not_true, Bool.false_eq_true, if_false, hpiece, ih]

theorem copyinstrPage_congr {mem mem' : ℕ → UInt8} :
    ∀ {n p p' : ℕ} (max : ℕ), (∀ i < n, mem (p + i) = mem' (p' + i)) →
      copyinstrPage mem n p max = copyinstrPage mem' n p' max
  | 0, _, _, _, _ => rfl
  | n + 1, p, p', max, h => by
    have h0 : mem p = mem' p' := h 0 (by omega)
    have ih := @copyinstrPage_congr mem mem' n (p + 1) (p' + 1) (max - 1) fun i hi => by
      rw [Nat.add_assoc, Nat.add_comm 1, Nat.add_assoc p', Nat.add_comm 1]
      exact h (i + 1) (by omega)
    simp only [copyinstrPage, h0, ih]

/-- **`copyinstr` through the table is `copyinstr` of the view.** -/
theorem copyinstr_eq_view (m : Phys) (pt : ℕ) :
    ∀ (fuel srcva max : ℕ), copyinstr m pt fuel srcva max = Xv6.copyinstr (view m pt) fuel srcva max
  | 0, _, _ => rfl
  | fuel + 1, srcva, max => by
    have ih := copyinstr_eq_view m pt fuel (PGROUNDDOWN srcva + PGSIZE)
    by_cases h0 : max = 0
    · simp [copyinstr, Xv6.copyinstr, h0]
    by_cases hr : walkaddr m pt (PGROUNDDOWN srcva) = 0
    · simp [copyinstr, Xv6.copyinstr, h0, hr, canRead_view]
    · have hpiece := @copyinstrPage_congr m.byte (view m pt).mem
        (min (PGSIZE - (srcva - PGROUNDDOWN srcva)) max)
        (walkaddr m pt (PGROUNDDOWN srcva) + (srcva - PGROUNDDOWN srcva)) srcva max
        fun i hi => byte_piece m pt srcva (by omega)
      simp only [copyinstr, Xv6.copyinstr, if_neg h0, canRead_view, ne_eq, hr,
        not_false_eq_true, decide_true, Bool.not_true, Bool.false_eq_true, if_false, hpiece, ih]

theorem strAt_view (m : Phys) (pt a k : ℕ) : (view m pt).StrAt a k ↔ StrAt m pt a k := by
  simp only [Space.StrAt, StrAt, readable_view]
  rfl

/-! ### The copies through a page table -/

/-- On a well-formed table, a byte whose page `walkaddr` finds reads through its leaf as it does
through `walkaddr`. -/
theorem readVirt_of_walkaddr {m : Phys} {pt : ℕ} (hwf : WellFormed m pt) {a : ℕ}
    (h : walkaddr m pt (PGROUNDDOWN a) ≠ 0) : readVirt m pt a = some (userByte m pt a) := by
  have ha : PGROUNDDOWN a < MAXVA := by
    by_contra hge
    exact h (walkaddr_of_ge (by omega))
  rw [walkaddr_eq] at h
  cases hl : leaf m pt (PGROUNDDOWN a) with
  | none => rw [hl] at h; exact absurd rfl h
  | some e =>
    rw [hl] at h
    by_cases hv : e &&& PTE_V = 0
    · simp [hv] at h
    by_cases hu : e &&& PTE_U = 0
    · simp [hu] at h
    have hwa : walkaddr m pt (PGROUNDDOWN a) = PTE2PA e := by
      rw [walkaddr_eq, hl]
      simp [hv, hu]
    rw [readVirt, leafOf_eq_leaf hwf ha, hl, Option.bind_some, if_pos (show Valid e from hv),
      Option.map_some, userByte, hwa, sub_pgrounddown]

/-- `copyin`'s spec through a page table. -/
theorem copyin_pt_spec (m : Phys) (pt va len : ℕ) : ∃ j ≤ len,
    copyin m pt len va len = (Store.slice (userByte m pt) va j, decide (j = len)) ∧
    (∀ i < j, walkaddr m pt (PGROUNDDOWN (va + i)) ≠ 0) ∧
    (j < len → walkaddr m pt (PGROUNDDOWN (va + j)) = 0) := by
  obtain ⟨j, hj, heq, hr, hf⟩ := copyin_spec (view m pt) len va len le_rfl
  refine ⟨j, hj, (copyin_eq_view m pt len va len).trans heq, fun i hi => ?_, fun hlt => ?_⟩
  · exact (readable_view m pt _).mp (hr i hi)
  · by_contra h
    exact hf hlt ((readable_view m pt _).mpr h)

/-- **`copyout` and `copyin` through a page table.** On a well-formed table, and for every `va`:
`copyout` writes a prefix of whole pieces of `src`, each byte at its physical address, and
returns `0` iff every page of the range is below `MAXVA` and mapped by a leaf with `PTE_U` and
`PTE_W`; when no two pages of the range share a physical page, the bytes then read back through
the table are `src`. `copyin` copies a prefix of whole pieces of the user bytes, returns `0` iff
`walkaddr` finds every page of the range, and then has copied the bytes read through the table. -/
theorem copyout_copyin_correct (m : Phys) (pt va len : ℕ) (src : List UInt8) (hwf : WellFormed m pt) :
    (∃ j ≤ src.length,
      copyout m pt src.length va src = (writeVirt m pt va (src.take j), decide (j = src.length)) ∧
      (0 < j → j < src.length → PGROUNDDOWN (va + j) = va + j)) ∧
    ((copyout m pt src.length va src).2 = true ↔ ∀ i < src.length, PGROUNDDOWN (va + i) < MAXVA ∧
      ∃ e, leafOf m pt ((va + i) / PGSIZE) = some e ∧ e &&& PTE_U ≠ 0 ∧ e &&& PTE_W ≠ 0) ∧
    (Distinct m pt va src.length → (copyout m pt src.length va src).2 = true →
      Store.slice (readVirt (copyout m pt src.length va src).1 pt) va src.length = src.map some) ∧
    (∃ j ≤ len, copyin m pt len va len = (Store.slice (userByte m pt) va j, decide (j = len)) ∧
      (0 < j → j < len → PGROUNDDOWN (va + j) = va + j)) ∧
    ((copyin m pt len va len).2 = true ↔ ∀ i < len, walkaddr m pt (PGROUNDDOWN (va + i)) ≠ 0) ∧
    ((copyin m pt len va len).2 = true →
      Store.slice (readVirt m pt) va len = (copyin m pt len va len).1.map some) := by
  obtain ⟨j, hj, hout, hw, hwf'⟩ := copyout_spec pt m src.length va src le_rfl
  obtain ⟨k, hk, hin, hr, hrf⟩ := copyin_pt_spec m pt va len
  -- each copy stops only at a page it may not use
  have hout_ok : (copyout m pt src.length va src).2 = true ↔ j = src.length := by
    rw [hout]
    simp
  have hin_ok : (copyin m pt len va len).2 = true ↔ k = len := by
    rw [hin]
    simp
  refine ⟨⟨j, hj, hout, fun hj0 hlt => ?_⟩, ?_, fun hd hok => ?_, ⟨k, hk, hin, fun hk0 hlt => ?_⟩,
    ?_, fun hok => ?_⟩
  · exact stop_aligned (fun a => CanWrite m pt a) hj0 (hw (j - 1) (by omega)) (hwf' hlt)
  · rw [hout_ok]
    constructor
    · rintro rfl i hi
      exact (canWrite_iff hwf (va + i)).mp (hw i hi)
    · intro hall
      by_contra hne
      exact hwf' (by omega) ((canWrite_iff hwf (va + j)).mpr (hall j (by omega)))
  · have hjl := hout_ok.mp hok
    rw [hout, hjl, List.take_length]
    exact copyout_read hwf hd fun i hi => hw i (by omega)
  · by_contra hne
    have hal := stop_aligned (fun a => walkaddr m pt a ≠ 0) hk0 (hr (k - 1) (by omega))
      (fun h => h (hrf hlt))
    exact hne hal
  · rw [hin_ok]
    constructor
    · rintro rfl i hi
      exact hr i hi
    · intro hall
      by_contra hne
      exact hall k (by omega) (hrf (by omega))
  · have hkl := hin_ok.mp hok
    rw [hin, hkl]
    apply List.ext_getElem (by simp)
    intro i h₁ h₂
    simp only [Store.length_slice] at h₁
    rw [Store.getElem_slice, List.getElem_map, Store.getElem_slice]
    exact readVirt_of_walkaddr hwf (hr i (by omega))

/-! ### `copyinstr` through a page table -/

/-- **`copyinstr` through a page table.** It returns `0` iff a string of length `k < max` starts
at `srcva`, and then copies it, NUL included; it writes at most `max` bytes; it reads nothing past
a NUL or the `max`-th byte. So a path of `MAXPATH` bytes without a NUL makes `argstr` fail, and so
does a string that runs into a page `walkaddr` does not find. -/
theorem copyinstr_correct (m : Phys) (pt srcva max : ℕ) :
    ((copyinstr m pt max srcva max).2 = true ↔ ∃ k < max, StrAt m pt srcva k) ∧
    (∀ k < max, StrAt m pt srcva k →
      copyinstr m pt max srcva max = (Store.slice (userByte m pt) srcva (k + 1), true)) ∧
    (copyinstr m pt max srcva max).1.length ≤ max ∧
    (∀ k < max, (userByte m pt (srcva + k) = 0 ∨ k + 1 = max) → ∀ (m' : Phys) (pt' : ℕ),
      (∀ i ≤ k, (walkaddr m' pt' (PGROUNDDOWN (srcva + i)) ≠ 0 ↔
          walkaddr m pt (PGROUNDDOWN (srcva + i)) ≠ 0) ∧
        userByte m' pt' (srcva + i) = userByte m pt (srcva + i)) →
      copyinstr m' pt' max srcva max = copyinstr m pt max srcva max) ∧
    (∀ (a : Fin 6 → ℕ) (n : Fin 6), a n = srcva →
      (∀ i < MAXPATH, userByte m pt (srcva + i) ≠ 0) → argstr m pt a n MAXPATH = -1) ∧
    (∀ k, (∀ i < k, userByte m pt (srcva + i) ≠ 0) → walkaddr m pt (PGROUNDDOWN (srcva + k)) = 0 →
      (copyinstr m pt max srcva max).2 = false) := by
  -- every part is a fact about the scan of the view
  have hscan : ∀ (m : Phys) (pt max : ℕ),
      copyinstr m pt max srcva max = strScan (view m pt) max srcva := fun m pt max =>
    (copyinstr_eq_view m pt max srcva max).trans (copyinstr_eq_strScan _ max srcva max le_rfl)
  have hok : ∀ max, (copyinstr m pt max srcva max).2 = true ↔ ∃ k < max, StrAt m pt srcva k :=
    fun max => by
      rw [hscan, strScan_ok_iff]
      simp only [strAt_view]
  refine ⟨hok max, fun k hk hs => ?_, ?_, fun k hk hend m' pt' hagree => ?_,
    fun a n ha hlong => ?_, fun k hne hz => ?_⟩
  · rw [hscan]
    exact strScan_eq_of_strAt _ hk ((strAt_view m pt srcva k).mpr hs)
  · rw [hscan]
    exact length_strScan _ max srcva
  · rw [hscan, hscan]
    exact strScan_congr hk hend fun i hi => by
      rw [readable_view, readable_view]
      exact hagree i hi
  · -- no NUL among the first `MAXPATH` bytes, so no string shorter than `MAXPATH`
    have hfail : (copyinstr m pt MAXPATH srcva MAXPATH).2 = false := by
      by_contra h
      obtain ⟨k, hk, -, h0, -⟩ := (hok MAXPATH).mp (by simpa using h)
      exact hlong k hk h0
    simp [argstr, fetchstr, ha, hfail]
  · by_contra h
    obtain ⟨k', hk', hr, h0, hne'⟩ := (hok max).mp (by simpa using h)
    by_cases hlt : k' < k
    · exact hne k' hlt h0
    · exact hr k (by omega) hz

end Xv6.PageTable
