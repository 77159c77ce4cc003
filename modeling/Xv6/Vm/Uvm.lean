import Xv6.Vm.Walk
import Xv6.Vm.Grow
import Xv6.Lib.Bits
import Mathlib.Data.Finset.Card

/-!
# A user page table as `exec` builds and frees it (`vm.c`, `proc_pagetable` in `proc.c`)

`exec` builds the new image in a page table of its own: `proc_pagetable` takes a root page and
maps the trampoline and the trapframe at the top of the address space, `uvmalloc` maps zeroed
pages from the old size up to the new one, and on failure `proc_freepagetable` unmaps them all
and `freewalk` gives back the page-table pages. Every page comes from `kalloc`, so what is
allocated and freed is counted against the pool of free pages.

The model keeps of a page table what these functions read and write: the flags of the level-0
entry of each page (`PTE_FLAGS`, without the physical page number), which level-1 and level-0
tables exist, and the bytes of the pages mapped. Every page it maps with `PTE_U` is a page of
its own from `kalloc`, so its bytes are kept by the virtual address that maps them; the
trampoline and the trapframe are the kernel's pages, whose bytes are not modelled.

* `Layout pt sz`: the layout `exec` keeps: leaves exactly below `PGROUNDUP(sz)`, the trampoline
  and the trapframe, each under its tables; `owned pt sz` counts the pages the table holds.
* `proc_freepagetable_eq`: on that layout, `proc_freepagetable` never panics and gives every
  owned page back.
* `proc_pagetable_spec` and `uvmalloc_spec`: each either succeeds with the layout of the new
  size and the new pages zero, or fails with the layout as it was; in both cases no page is
  lost: the pool and the owned pages add up to what they did. With a pool smaller than the user
  range below `TRAPFRAME`, no `walk` or `mappages: remap` panic is reachable.
-/

namespace Xv6.Uvm

open PageTable (PTE_V PTE_R PTE_W PTE_X PTE_U)

/-- `TRAMPOLINE`: the highest page below `MAXVA`. -/
def TRAMPOLINE : ℕ := MAXVA - PGSIZE

/-- `TRAPFRAME`: the page below the trampoline. -/
def TRAPFRAME : ℕ := TRAMPOLINE - PGSIZE

/-- `KERNBASE`. -/
def KERNBASE : ℕ := 0x80000000

/-- `PHYSTOP`: `128` megabytes of RAM from `KERNBASE`. -/
def PHYSTOP : ℕ := KERNBASE + 128 * 1024 * 1024

/-- `PTE_FLAGS(pte)`. -/
def PTE_FLAGS (pte : UInt64) : UInt64 := pte &&& 0x3FF

/-- A page table as `exec` sees it. -/
structure Pagetable where
  /-- The flags of the level-0 entry of each page number, `0` where it is not valid. -/
  pte : ℕ → UInt64
  /-- The level-1 tables, by the entry `va / 2^30` of the root that points to each. -/
  l1 : Finset ℕ
  /-- The level-0 tables, by `va / 2^21`: the entries of the root and of a level-1 table. -/
  l0 : Finset ℕ
  /-- The byte at each virtual address of a page the table maps for the user. -/
  mem : ℕ → UInt8

/-- The level-1 table `walk` goes through for `va`: entry `PX(2, va)` of the root. -/
def dir (va : ℕ) : ℕ := va / 2 ^ 30

/-- The level-0 table `walk` reaches for `va`: entries `PX(2, va)` and `PX(1, va)`. -/
def tbl (va : ℕ) : ℕ := va / 2 ^ 21

/-- The `kalloc()` of a page-table page at one level of `walk(pagetable, va, 1)`: none where the
entry for table `k` is valid, the next free page otherwise; `none` when the pool is empty. -/
def allocTable (tabs : Finset ℕ) (k free : ℕ) : Option (Finset ℕ × ℕ) :=
  if k ∈ tabs then some (tabs, free)
  else if free = 0 then none
  else some (insert k tabs, free - 1)

/-- `walk(pagetable, va, 1)`: the table with the page-table pages it added, the pool, and whether
it returned the entry (`false`: it returned `0` when `kalloc` failed, keeping a level-1 table it
had taken). `none` is the panic on `va ≥ MAXVA`. -/
def walkAlloc (pt : Pagetable) (free va : ℕ) : Option (Pagetable × ℕ × Bool) :=
  if MAXVA ≤ va then none else
  match allocTable pt.l1 (dir va) free with
  | none => some (pt, free, false)
  | some (l1, free) =>
    match allocTable pt.l0 (tbl va) free with
    | none => some ({ pt with l1 }, free, false)
    | some (l0, free) => some ({ pt with l1, l0 }, free, true)

/-- `walk(pagetable, va, 0)`: the entry, or `none` inside where a table is missing and it
returns `0`. `none` is the panic on `va ≥ MAXVA`. -/
def walk (pt : Pagetable) (va : ℕ) : Option (Option UInt64) :=
  if MAXVA ≤ va then none
  else if dir va ∉ pt.l1 then some none
  else if tbl va ∉ pt.l0 then some none
  else some (some (pt.pte (va / PGSIZE)))

/-- The loop of `mappages` from `a` to `last`. -/
def mappagesLoop (perm : UInt64) (last : ℕ) : (fuel : ℕ) → Pagetable → (free a : ℕ) →
    Option (Pagetable × ℕ × Bool)
  | 0, pt, free, _ => some (pt, free, true)
  | fuel + 1, pt, free, a =>
    match walkAlloc pt free a with
    | none => none
    | some (pt, free, false) => some (pt, free, false)
    | some (pt, free, true) =>
      -- panic("mappages: remap")
      if pt.pte (a / PGSIZE) &&& PTE_V ≠ 0 then none
      else
        let pt := { pt with pte := Function.update pt.pte (a / PGSIZE) (perm ||| PTE_V) }
        if a = last then some (pt, free, true) else mappagesLoop perm last fuel pt free (a + PGSIZE)

/-- `mappages(pagetable, va, size, pa, perm)`: the table, the pool, and whether it returned `0`;
`none` where it panics. The physical pages are the caller's. -/
def mappages (pt : Pagetable) (free va size : ℕ) (perm : UInt64) : Option (Pagetable × ℕ × Bool) :=
  if va % PGSIZE ≠ 0 then none
  else if size % PGSIZE ≠ 0 then none
  else if size = 0 then none
  else mappagesLoop perm (va + size - PGSIZE) (size / PGSIZE) pt free va

/-- The loop of `uvmunmap` over `npages` pages from `a`. -/
def uvmunmapLoop (do_free : Bool) : (npages : ℕ) → Pagetable → (free a : ℕ) → Option (Pagetable × ℕ)
  | 0, pt, free, _ => some (pt, free)
  | k + 1, pt, free, a =>
    match walk pt a with
    | none => none
    -- panic("uvmunmap: walk")
    | some none => none
    | some (some pte) =>
      -- panic("uvmunmap: not mapped"), panic("uvmunmap: not a leaf")
      if pte &&& PTE_V = 0 then none
      else if PTE_FLAGS pte = PTE_V then none
      else uvmunmapLoop do_free k { pt with pte := Function.update pt.pte (a / PGSIZE) 0 }
        (if do_free then free + 1 else free) (a + PGSIZE)

/-- `uvmunmap(pagetable, va, npages, do_free)`; `none` where it panics. -/
def uvmunmap (pt : Pagetable) (free va npages : ℕ) (do_free : Bool) : Option (Pagetable × ℕ) :=
  if va % PGSIZE ≠ 0 then none else uvmunmapLoop do_free npages pt free va

/-- `uvmcreate()`: an empty table in a page from the pool; `none` when `kalloc` fails. -/
def uvmcreate (free : ℕ) : Option (Pagetable × ℕ) :=
  if free = 0 then none else some (⟨fun _ => 0, ∅, ∅, fun _ => 0⟩, free - 1)

/-- `freewalk(pagetable)`: the root and every table below it back to the pool. `none` is the
panic on a valid entry left in a level-0 table; a valid entry there without `R`, `W` or `X`,
which `freewalk` would take for a table, is counted as such a leaf: none is ever written. -/
def freewalk (pt : Pagetable) (free : ℕ) : Option ℕ :=
  if ∃ t ∈ pt.l0, ∃ i < 2 ^ 9, pt.pte (t * 2 ^ 9 + i) &&& PTE_V ≠ 0 then none
  else some (free + pt.l0.card + pt.l1.card + 1)

/-- `uvmfree(pagetable, sz)`: the pages below `PGROUNDUP(sz)` and then the tables freed. -/
def uvmfree (pt : Pagetable) (free sz : ℕ) : Option ℕ :=
  if 0 < sz then (uvmunmap pt free 0 (PGROUNDUP sz / PGSIZE) true).bind fun r => freewalk r.1 r.2
  else freewalk pt free

/-- `uvmdealloc(pagetable, oldsz, newsz)`: the table, the pool and the size it returns. -/
def uvmdealloc (pt : Pagetable) (free oldsz newsz : ℕ) : Option (Pagetable × ℕ × ℕ) :=
  if oldsz ≤ newsz then some (pt, free, oldsz)
  else if PGROUNDUP newsz < PGROUNDUP oldsz then
    (uvmunmap pt free (PGROUNDUP newsz) ((PGROUNDUP oldsz - PGROUNDUP newsz) / PGSIZE) true).map
      fun r => (r.1, r.2, newsz)
  else some (pt, free, newsz)

/-- `memset(mem, 0, PGSIZE)` of the page that will be mapped at `a`. -/
def zeroPage (mem : ℕ → UInt8) (a : ℕ) : ℕ → UInt8 :=
  fun va => if va / PGSIZE = a / PGSIZE then 0 else mem va

/-- The loop of `uvmalloc` at `a`, where `oldsz` is already rounded up: a zeroed page for each
`a < newsz`; where `kalloc` or `mappages` fails, `uvmdealloc(pagetable, a, oldsz)` and `0`.
`fuel` bounds the iterations. -/
def uvmallocLoop (oldsz newsz : ℕ) (xperm : UInt64) : (fuel a : ℕ) → Pagetable → ℕ →
    Option (Pagetable × ℕ × ℕ)
  | 0, _, pt, free => some (pt, free, newsz)
  | fuel + 1, a, pt, free =>
    if a < newsz then
      if free = 0 then (uvmdealloc pt free a oldsz).map fun r => (r.1, r.2.1, 0)
      else
        match mappages { pt with mem := zeroPage pt.mem a } (free - 1) a PGSIZE
            (PTE_R ||| PTE_U ||| xperm) with
        | none => none
        -- kfree(mem)
        | some (pt, free, false) => (uvmdealloc pt (free + 1) a oldsz).map fun r => (r.1, r.2.1, 0)
        | some (pt, free, true) => uvmallocLoop oldsz newsz xperm fuel (a + PGSIZE) pt free
    else some (pt, free, newsz)

/-- `uvmalloc(pagetable, oldsz, newsz, xperm)`: the table, the pool and the new size, `0` on
failure. -/
def uvmalloc (pt : Pagetable) (free oldsz newsz : ℕ) (xperm : UInt64) : Option (Pagetable × ℕ × ℕ) :=
  if newsz < oldsz then some (pt, free, oldsz)
  else uvmallocLoop (PGROUNDUP oldsz) newsz xperm (newsz / PGSIZE + 1) (PGROUNDUP oldsz) pt free

/-- `uvmclear(pagetable, va)`: `PTE_U` cleared in the entry of `va`; `none` where it panics. -/
def uvmclear (pt : Pagetable) (va : ℕ) : Option Pagetable :=
  match walk pt va with
  | none => none
  | some none => none
  | some (some pte) => some { pt with pte := Function.update pt.pte (va / PGSIZE) (pte &&& ~~~PTE_U) }

/-- `walkaddr(pagetable, va) != 0`: a valid user leaf maps `va`. -/
def walkaddr (pt : Pagetable) (va : ℕ) : Bool :=
  if MAXVA ≤ va then false else
  match walk pt va with
  | some (some pte) => decide (pte &&& PTE_V ≠ 0) && decide (pte &&& PTE_U ≠ 0)
  | _ => false

/-- The address space as `copyout` sees it through the table. -/
def space (pt : Pagetable) : Space where
  user pg := walkaddr pt (pg * PGSIZE)
  writable pg :=
    match walk pt (pg * PGSIZE) with
    | some (some pte) => decide (pte &&& PTE_W ≠ 0)
    | _ => false
  mem := pt.mem

/-- `copyout(pagetable, dstva, src, len)` of the `len` bytes `src`: the table and whether it
returned `0`. -/
def copyout (pt : Pagetable) (dstva : ℕ) (src : List UInt8) : Pagetable × Bool :=
  let r := Xv6.copyout (space pt) src.length dstva src
  ({ pt with mem := r.1.mem }, r.2)

/-- `proc_pagetable(p)`: a new table with the trampoline and the trapframe mapped, or `0`
(`none` inside) when `kalloc` fails, with what it took given back; `none` where it panics. -/
def proc_pagetable (free : ℕ) : Option (Option Pagetable × ℕ) :=
  match uvmcreate free with
  | none => some (none, free)
  | some (pt, free) =>
    match mappages pt free TRAMPOLINE PGSIZE (PTE_R ||| PTE_X) with
    | none => none
    | some (pt, free, false) => (uvmfree pt free 0).map fun free => (none, free)
    | some (pt, free, true) =>
      match mappages pt free TRAPFRAME PGSIZE (PTE_R ||| PTE_W) with
      | none => none
      | some (pt, free, false) =>
        ((uvmunmap pt free TRAMPOLINE 1 false).bind fun r => uvmfree r.1 r.2 0).map
          fun free => (none, free)
      | some (pt, free, true) => some (some pt, free)

/-- `proc_freepagetable(pagetable, sz)`: the pool after; `none` where it panics. -/
def proc_freepagetable (pt : Pagetable) (free sz : ℕ) : Option ℕ :=
  (uvmunmap pt free TRAMPOLINE 1 false).bind fun r =>
    (uvmunmap r.1 r.2 TRAPFRAME 1 false).bind fun r => uvmfree r.1 r.2 sz


/-! ### Leaves and the layout `exec` keeps -/

/-- Page `pg` is mapped by a valid leaf with `PTE_R`, under its level-1 and level-0 tables. -/
structure Leaf (pt : Pagetable) (pg : ℕ) : Prop where
  valid : pt.pte pg &&& PTE_V ≠ 0
  read : pt.pte pg &&& PTE_R ≠ 0
  l1 : pg / 2 ^ 18 ∈ pt.l1
  l0 : pg / 2 ^ 9 ∈ pt.l0

/-- The pages of a table of size `sz` in `exec`'s layout: those below `PGROUNDUP(sz)`, the
trapframe and the trampoline. -/
def Kept (sz pg : ℕ) : Prop :=
  pg < PGROUNDUP sz / PGSIZE ∨ pg = TRAPFRAME / PGSIZE ∨ pg = TRAMPOLINE / PGSIZE

/-- **The layout of a process's table**: a leaf for each kept page and for no other, with the
user pages below the trapframe. -/
structure Layout (pt : Pagetable) (sz : ℕ) : Prop where
  le_trapframe : PGROUNDUP sz ≤ TRAPFRAME
  leaf : ∀ pg, Kept sz pg → Leaf pt pg
  invalid : ∀ pg, ¬ Kept sz pg → pt.pte pg &&& PTE_V = 0

/-- The pages a table of size `sz` holds from the pool: its user pages, its level-0 and level-1
tables, and the root. -/
def owned (pt : Pagetable) (sz : ℕ) : ℕ := PGROUNDUP sz / PGSIZE + pt.l0.card + pt.l1.card + 1

/-- The table with the entries of the `n` pages from page `lo` zeroed, as `uvmunmap` leaves it. -/
def Pagetable.clear (pt : Pagetable) (lo n : ℕ) : Pagetable :=
  { pt with pte := fun pg => if lo ≤ pg ∧ pg < lo + n then 0 else pt.pte pg }

section Lemmas

open Grow (pgroundup_aligned pgroundup_of_aligned le_pgroundup pgroundup_lt pgroundup_mono)

variable {pt pt' : Pagetable} {sz pg : ℕ}

theorem dir_eq (va : ℕ) : dir va = va / PGSIZE / 2 ^ 18 := by
  rw [dir, Nat.div_div_eq_div_mul]
  rfl

theorem tbl_eq (va : ℕ) : tbl va = va / PGSIZE / 2 ^ 9 := by
  rw [tbl, Nat.div_div_eq_div_mul]
  rfl

/-- A leaf stays one where its entry stays and its tables do. -/
theorem Leaf.congr (h : Leaf pt pg) (hpte : pt'.pte pg = pt.pte pg) (h1 : pt.l1 ⊆ pt'.l1)
    (h0 : pt.l0 ⊆ pt'.l0) : Leaf pt' pg :=
  ⟨hpte ▸ h.valid, hpte ▸ h.read, h1 h.l1, h0 h.l0⟩

theorem walk_of_leaf {va : ℕ} (hva : va < MAXVA) (h : Leaf pt (va / PGSIZE)) :
    walk pt va = some (some (pt.pte (va / PGSIZE))) := by
  have h1 : dir va ∈ pt.l1 := by rw [dir_eq]; exact h.l1
  have h0 : tbl va ∈ pt.l0 := by rw [tbl_eq]; exact h.l0
  rw [walk, if_neg (Nat.not_le.mpr hva), if_neg (not_not.mpr h1), if_neg (not_not.mpr h0)]

/-- `uvmunmap`'s test of a leaf: `PTE_R` is not among the flags of a bare `PTE_V`. -/
theorem flags_ne_of_read {x : UInt64} (h : x &&& PTE_R ≠ 0) : PTE_FLAGS x ≠ PTE_V := by
  intro hx
  apply h
  have hmask : PTE_FLAGS x &&& PTE_R = x &&& PTE_R := by
    rw [PTE_FLAGS, UInt64.and_assoc]
    exact congrArg (x &&& ·) (by decide)
  rw [← hmask, hx]
  decide

@[simp] theorem clear_l1 (lo n : ℕ) : (pt.clear lo n).l1 = pt.l1 := rfl

@[simp] theorem clear_l0 (lo n : ℕ) : (pt.clear lo n).l0 = pt.l0 := rfl

@[simp] theorem clear_mem (lo n : ℕ) : (pt.clear lo n).mem = pt.mem := rfl

theorem clear_pte (lo n pg : ℕ) :
    (pt.clear lo n).pte pg = if lo ≤ pg ∧ pg < lo + n then 0 else pt.pte pg := rfl

theorem clear_pte_of_not {lo n pg : ℕ} (h : ¬ (lo ≤ pg ∧ pg < lo + n)) :
    (pt.clear lo n).pte pg = pt.pte pg := if_neg h

@[simp] theorem clear_zero (lo : ℕ) : pt.clear lo 0 = pt := by
  have : (fun pg => if lo ≤ pg ∧ pg < lo + 0 then 0 else pt.pte pg) = pt.pte :=
    funext fun pg => if_neg (by omega)
  simp only [Pagetable.clear, this]

/-- Zeroing one entry and then the `n` after it zeroes `n + 1` of them. -/
theorem clear_update (lo n : ℕ) :
    ({ pt with pte := Function.update pt.pte lo 0 } : Pagetable).clear (lo + 1) n =
      pt.clear lo (n + 1) := by
  simp only [Pagetable.clear, Pagetable.mk.injEq, and_self, and_true]
  funext q
  by_cases hq : q = lo
  · subst hq
    simp
  · rw [Function.update_of_ne hq]
    exact if_congr (by omega) rfl rfl

/-! ### Unmapping and freeing -/

/-- **The loop of `uvmunmap`** over `n` leaves from `a` zeroes their entries and, with
`do_free`, gives their pages to the pool. -/
theorem uvmunmapLoop_eq (do_free : Bool) :
    ∀ (n : ℕ) (pt : Pagetable) (free a : ℕ), a % PGSIZE = 0 → a + n * PGSIZE ≤ MAXVA →
      (∀ i < n, Leaf pt (a / PGSIZE + i)) →
      uvmunmapLoop do_free n pt free a =
        some (pt.clear (a / PGSIZE) n, if do_free then free + n else free)
  | 0, pt, free, a, _, _, _ => by
    cases do_free <;> simp [uvmunmapLoop]
  | n + 1, pt, free, a, ha, hmax, hl => by
    have h0 : Leaf pt (a / PGSIZE) := by simpa using hl 0 (Nat.succ_pos n)
    have hva : a < MAXVA := by
      have : 0 < (n + 1) * PGSIZE := Nat.mul_pos (Nat.succ_pos n) (by decide)
      omega
    have hnext : (a + PGSIZE) / PGSIZE = a / PGSIZE + 1 := by
      rw [Nat.add_div_right _ (by decide)]
    -- the rest of the range is still mapped once the first entry is zeroed
    have hrest : ∀ i < n, Leaf { pt with pte := Function.update pt.pte (a / PGSIZE) 0 }
        ((a + PGSIZE) / PGSIZE + i) := by
      intro i hi
      rw [hnext, show a / PGSIZE + 1 + i = a / PGSIZE + (i + 1) by omega]
      refine (hl (i + 1) (by omega)).congr ?_ subset_rfl subset_rfl
      exact Function.update_of_ne (by omega) _ _
    rw [uvmunmapLoop, walk_of_leaf hva h0]
    simp only [if_neg h0.valid, if_neg (flags_ne_of_read h0.read)]
    rw [uvmunmapLoop_eq do_free n _ _ (a + PGSIZE) (by rw [Nat.add_mod_right]; exact ha)
      (by rw [Nat.succ_mul] at hmax; omega) hrest, hnext, clear_update]
    cases do_free <;> simp [Nat.add_right_comm, Nat.add_assoc]

/-- `freewalk` with no valid entry left gives every table back. -/
theorem freewalk_eq (h : ∀ pg, pt.pte pg &&& PTE_V = 0) (free : ℕ) :
    freewalk pt free = some (free + pt.l0.card + pt.l1.card + 1) := by
  rw [freewalk, if_neg]
  rintro ⟨t, -, i, -, hv⟩
  exact hv (h _)

theorem trampoline_aligned : TRAMPOLINE % PGSIZE = 0 := by decide

theorem trapframe_aligned : TRAPFRAME % PGSIZE = 0 := by decide

/-- `uvmunmap` of one leaf. -/
theorem uvmunmap_one {va : ℕ} (ha : va % PGSIZE = 0) (hva : va + PGSIZE ≤ MAXVA)
    (h : Leaf pt (va / PGSIZE)) (free : ℕ) :
    uvmunmap pt free va 1 false = some (pt.clear (va / PGSIZE) 1, free) := by
  rw [uvmunmap, if_neg (by omega)]
  exact uvmunmapLoop_eq false 1 pt free va ha (by omega) fun i hi => by
    rwa [show i = 0 by omega, Nat.add_zero]

/-- **`proc_freepagetable` on the layout** never panics and gives every owned page back. -/
theorem proc_freepagetable_eq (h : Layout pt sz) (free : ℕ) :
    proc_freepagetable pt free sz = some (free + owned pt sz) := by
  set n := PGROUNDUP sz / PGSIZE with hn
  have hnT : n * PGSIZE ≤ TRAPFRAME := by
    rw [hn, Nat.div_mul_cancel (Nat.dvd_of_mod_eq_zero (pgroundup_aligned sz))]
    exact h.le_trapframe
  have hT : TRAPFRAME / PGSIZE + 1 = TRAMPOLINE / PGSIZE := by decide
  have hnt : n ≤ TRAPFRAME / PGSIZE := (Nat.le_div_iff_mul_le (by decide)).mpr hnT
  -- the trampoline, then the trapframe, then the user pages
  set pt₁ := pt.clear (TRAMPOLINE / PGSIZE) 1
  set pt₂ := pt₁.clear (TRAPFRAME / PGSIZE) 1
  have h₁ : uvmunmap pt free TRAMPOLINE 1 false = some (pt₁, free) :=
    uvmunmap_one trampoline_aligned (by decide) (h.leaf _ (.inr (.inr rfl))) free
  have hl₂ : Leaf pt₁ (TRAPFRAME / PGSIZE) :=
    (h.leaf _ (.inr (.inl rfl))).congr (clear_pte_of_not (by omega)) subset_rfl subset_rfl
  have h₂ : uvmunmap pt₁ free TRAPFRAME 1 false = some (pt₂, free) :=
    uvmunmap_one trapframe_aligned (by decide) hl₂ free
  -- after the top two, the user pages are still leaves and nothing above them is valid
  have hleaf₂ : ∀ pg < n, Leaf pt₂ pg := fun pg hpg =>
    (h.leaf pg (.inl hpg)).congr (by rw [clear_pte_of_not (by omega), clear_pte_of_not (by omega)])
      subset_rfl subset_rfl
  have hv₂ : ∀ pg, n ≤ pg → pt₂.pte pg &&& PTE_V = 0 := by
    intro pg hpg
    by_cases hk : Kept sz pg
    · rcases hk with hk | rfl | rfl
      · omega
      · rw [clear_pte, if_pos (by omega)]
        decide
      · rw [clear_pte, if_neg (by omega), clear_pte, if_pos (by omega)]
        decide
    · have hk' := not_or.mp (not_or.mp hk).2
      rw [clear_pte_of_not (by omega), clear_pte_of_not (by omega)]
      exact h.invalid pg hk
  rw [proc_freepagetable, h₁, Option.bind_some, h₂, Option.bind_some, uvmfree]
  by_cases hsz : 0 < sz
  · have hmax : 0 + n * PGSIZE ≤ MAXVA := by
      have : TRAPFRAME ≤ MAXVA := by decide
      omega
    rw [if_pos hsz, uvmunmap, if_neg (by decide),
      uvmunmapLoop_eq true n pt₂ free 0 (by decide) hmax fun i hi => by simpa using hleaf₂ i hi]
    simp only [Option.bind_some, if_true, Nat.zero_div]
    rw [freewalk_eq fun pg => ?_]
    · simp only [owned, clear_l0, clear_l1, ← hn, pt₂, pt₁]
      exact congrArg some (by omega)
    · by_cases hpg : pg < n
      · rw [clear_pte, if_pos (by omega)]
        decide
      · rw [clear_pte_of_not (by omega)]
        exact hv₂ pg (by omega)
  · have hn0 : n = 0 := by
      rw [hn, Nat.le_zero.mp (Nat.not_lt.mp hsz)]
      rfl
    rw [if_neg hsz, freewalk_eq fun pg => hv₂ pg (by omega)]
    simp only [owned, ← hn, hn0, pt₂, pt₁, clear_l0, clear_l1]
    exact congrArg some (by omega)

/-! ### Mapping pages -/

theorem allocTable_spec {tabs : Finset ℕ} {k free : ℕ} {r : Finset ℕ × ℕ}
    (h : allocTable tabs k free = some r) : k ∈ r.1 ∧ tabs ⊆ r.1 ∧ r.2 + r.1.card = free + tabs.card := by
  unfold allocTable at h
  by_cases hk : k ∈ tabs
  · rw [if_pos hk, Option.some.injEq] at h
    subst h
    exact ⟨hk, subset_rfl, rfl⟩
  · rw [if_neg hk] at h
    by_cases h0 : free = 0
    · rw [if_pos h0] at h
      cases h
    · rw [if_neg h0, Option.some.injEq] at h
      subst h
      refine ⟨Finset.mem_insert_self k tabs, Finset.subset_insert k tabs, ?_⟩
      rw [Finset.card_insert_of_notMem hk]
      omega

theorem allocTable_eq_none {tabs : Finset ℕ} {k free : ℕ} (h : allocTable tabs k free = none) :
    free = 0 := by
  unfold allocTable at h
  by_cases hk : k ∈ tabs
  · rw [if_pos hk] at h
    cases h
  · rw [if_neg hk] at h
    by_cases h0 : free = 0
    · exact h0
    · rw [if_neg h0] at h
      cases h

/-- **`walk(pagetable, va, 1)`** below `MAXVA` only adds tables, one pool page each; it
returns the entry when both of `va`'s tables are there, and fails only with the pool empty. -/
theorem walkAlloc_spec (pt : Pagetable) (free : ℕ) {va : ℕ} (hva : va < MAXVA) :
    ∃ l1 l0 free' ok, walkAlloc pt free va = some ({ pt with l1, l0 }, free', ok) ∧
      pt.l1 ⊆ l1 ∧ pt.l0 ⊆ l0 ∧ free' + l0.card + l1.card = free + pt.l0.card + pt.l1.card ∧
      (ok = true → dir va ∈ l1 ∧ tbl va ∈ l0) ∧ (ok = false → free' = 0) := by
  rw [walkAlloc, if_neg (Nat.not_le.mpr hva)]
  cases h1 : allocTable pt.l1 (dir va) free with
  | none =>
    exact ⟨pt.l1, pt.l0, free, false, rfl, subset_rfl, subset_rfl, rfl, nofun,
      fun _ => allocTable_eq_none h1⟩
  | some r =>
    obtain ⟨l1, free₁⟩ := r
    obtain ⟨hk1, hs1, hc1⟩ := allocTable_spec h1
    dsimp only
    cases h0 : allocTable pt.l0 (tbl va) free₁ with
    | none =>
      exact ⟨l1, pt.l0, free₁, false, rfl, hs1, subset_rfl, by simp only at hc1; omega, nofun,
        fun _ => allocTable_eq_none h0⟩
    | some r =>
      obtain ⟨l0, free₂⟩ := r
      obtain ⟨hk0, hs0, hc0⟩ := allocTable_spec h0
      simp only at hc1 hc0 hk1 hk0 hs1 hs0
      exact ⟨l1, l0, free₂, true, rfl, hs1, hs0, by omega, fun _ => ⟨hk1, hk0⟩, nofun⟩

/-- **`mappages` of one page** whose entry is not valid: the tables `walk` added, and the entry
written when it returned it. -/
theorem mappages_page {va : ℕ} (hva : va < MAXVA) (ha : va % PGSIZE = 0)
    (hinv : pt.pte (va / PGSIZE) &&& PTE_V = 0) (free : ℕ) (perm : UInt64) :
    ∃ l1 l0 free' ok, mappages pt free va PGSIZE perm =
        some ({ pt with
          pte := if ok then Function.update pt.pte (va / PGSIZE) (perm ||| PTE_V) else pt.pte,
          l1, l0 }, free', ok) ∧
      pt.l1 ⊆ l1 ∧ pt.l0 ⊆ l0 ∧ free' + l0.card + l1.card = free + pt.l0.card + pt.l1.card ∧
      (ok = true → dir va ∈ l1 ∧ tbl va ∈ l0) ∧ (ok = false → free' = 0) := by
  obtain ⟨l1, l0, free', ok, hw, hs1, hs0, hc, hok, hfail⟩ := walkAlloc_spec pt free hva
  refine ⟨l1, l0, free', ok, ?_, hs1, hs0, hc, hok, hfail⟩
  rw [mappages, if_neg (by omega), if_neg (by decide), if_neg (by decide), Nat.add_sub_cancel,
    show PGSIZE / PGSIZE = 1 from rfl, mappagesLoop, hw]
  cases ok with
  | false => rfl
  | true => simp [hinv]

/-! ### The layout as a table grows and shrinks -/

theorem pgroundup_div {a : ℕ} (ha : a % PGSIZE = 0) : PGROUNDUP a / PGSIZE = a / PGSIZE := by
  rw [pgroundup_of_aligned ha]

/-- Only `PGROUNDUP(sz)` counts for the layout. -/
theorem Layout.of_pgroundup {s s' : ℕ} (h : Layout pt s) (hs : PGROUNDUP s = PGROUNDUP s') :
    Layout pt s' where
  le_trapframe := hs ▸ h.le_trapframe
  leaf pg hk := h.leaf pg (by unfold Kept at hk ⊢; rwa [hs])
  invalid pg hk := h.invalid pg (by unfold Kept at hk ⊢; rwa [hs])

theorem owned_of_pgroundup {s s' : ℕ} (hs : PGROUNDUP s = PGROUNDUP s') : owned pt s = owned pt s' := by
  rw [owned, owned, hs]

/-- Tables added under a layout, or bytes written, keep it. -/
theorem Layout.tables (h : Layout pt sz) (hpte : pt'.pte = pt.pte) (h1 : pt.l1 ⊆ pt'.l1)
    (h0 : pt.l0 ⊆ pt'.l0) : Layout pt' sz where
  le_trapframe := h.le_trapframe
  leaf pg hk := (h.leaf pg hk).congr (by rw [hpte]) h1 h0
  invalid pg hk := by rw [hpte]; exact h.invalid pg hk

/-- The page at `a`, the first above a layout of size `a`, is not mapped. -/
theorem Layout.invalid_at {a : ℕ} (h : Layout pt a) (ha : a % PGSIZE = 0) (hlt : a < TRAPFRAME) :
    pt.pte (a / PGSIZE) &&& PTE_V = 0 := by
  refine h.invalid _ ?_
  have hT : TRAPFRAME / PGSIZE + 1 = TRAMPOLINE / PGSIZE := by decide
  have : a / PGSIZE < TRAPFRAME / PGSIZE := (Nat.div_lt_div_of_lt_of_dvd (by decide) hlt)
  unfold Kept
  rw [pgroundup_div ha]
  omega

/-- Mapping the page at `a` extends a layout of size `a` by that page. -/
theorem Layout.map {a : ℕ} (h : Layout pt a) (ha : a % PGSIZE = 0) (hlt : a + PGSIZE ≤ TRAPFRAME)
    (hleaf : Leaf pt' (a / PGSIZE)) (hpte : ∀ pg, pg ≠ a / PGSIZE → pt'.pte pg = pt.pte pg)
    (h1 : pt.l1 ⊆ pt'.l1) (h0 : pt.l0 ⊆ pt'.l0) : Layout pt' (a + PGSIZE) := by
  have ha' : (a + PGSIZE) % PGSIZE = 0 := by rw [Nat.add_mod_right]; exact ha
  have hdiv : PGROUNDUP (a + PGSIZE) / PGSIZE = a / PGSIZE + 1 := by
    rw [pgroundup_div ha', Nat.add_div_right _ (by decide)]
  have hka : ∀ pg, Kept a pg ↔ pg < a / PGSIZE ∨ pg = TRAPFRAME / PGSIZE ∨ pg = TRAMPOLINE / PGSIZE := by
    intro pg
    rw [Kept, pgroundup_div ha]
  refine ⟨by rw [pgroundup_of_aligned ha']; exact hlt, fun pg hk => ?_, fun pg hk => ?_⟩
  · unfold Kept at hk
    rw [hdiv] at hk
    by_cases hpg : pg = a / PGSIZE
    · exact hpg ▸ hleaf
    · exact (h.leaf pg ((hka pg).mpr (by omega))).congr (hpte pg hpg) h1 h0
  · unfold Kept at hk
    rw [hdiv] at hk
    rw [hpte pg (by omega)]
    exact h.invalid pg (by rw [hka]; omega)

/-- Zeroing the entries from `lo` up to `a` takes a layout of size `a` down to one of size `lo`. -/
theorem Layout.clear_above {a lo : ℕ} (h : Layout pt a) (ha : a % PGSIZE = 0) (hlo : lo % PGSIZE = 0)
    (hle : lo ≤ a) : Layout (pt.clear (lo / PGSIZE) ((a - lo) / PGSIZE)) lo := by
  have hsum : lo / PGSIZE + (a - lo) / PGSIZE = a / PGSIZE := by
    simp only [PGSIZE] at ha hlo ⊢
    omega
  have hTa : a / PGSIZE ≤ TRAPFRAME / PGSIZE := by
    rw [← pgroundup_div ha]
    exact Nat.div_le_div_right h.le_trapframe
  have hT : TRAPFRAME / PGSIZE + 1 = TRAMPOLINE / PGSIZE := by decide
  refine ⟨(pgroundup_mono hle).trans h.le_trapframe, fun pg hk => ?_, fun pg hk => ?_⟩
  · unfold Kept at hk
    rw [pgroundup_div hlo] at hk
    refine (h.leaf pg ?_).congr (clear_pte_of_not (by omega)) subset_rfl subset_rfl
    unfold Kept
    rw [pgroundup_div ha]
    simp only [PGSIZE] at *
    omega
  · unfold Kept at hk
    rw [pgroundup_div hlo] at hk
    rw [clear_pte]
    split_ifs with hr
    · decide
    · refine h.invalid pg ?_
      unfold Kept
      rw [pgroundup_div ha]
      simp only [PGSIZE] at *
      omega

/-- **`uvmdealloc` back to an aligned size** unmaps and frees the pages above it. -/
theorem uvmdealloc_eq {a lo : ℕ} (h : Layout pt a) (ha : a % PGSIZE = 0) (hlo : lo % PGSIZE = 0)
    (hle : lo ≤ a) (free : ℕ) :
    uvmdealloc pt free a lo =
      some (pt.clear (lo / PGSIZE) ((a - lo) / PGSIZE), free + (a - lo) / PGSIZE, lo) := by
  by_cases hal : a ≤ lo
  · obtain rfl : a = lo := Nat.le_antisymm hal hle
    rw [uvmdealloc, if_pos hal, Nat.sub_self, Nat.zero_div, clear_zero, Nat.add_zero]
  · have hlt : PGROUNDUP lo < PGROUNDUP a := by
      rw [pgroundup_of_aligned ha, pgroundup_of_aligned hlo]
      omega
    have hmax : lo + (a - lo) / PGSIZE * PGSIZE ≤ MAXVA := by
      have : TRAPFRAME ≤ MAXVA := by decide
      have := h.le_trapframe
      rw [pgroundup_of_aligned ha] at this
      simp only [PGSIZE] at ha hlo ⊢
      omega
    rw [uvmdealloc, if_neg hal, if_pos hlt, pgroundup_of_aligned ha, pgroundup_of_aligned hlo,
      uvmunmap, if_neg (by omega)]
    rw [uvmunmapLoop_eq true _ pt free lo hlo hmax fun i hi => h.leaf _ ?_]
    · rfl
    · unfold Kept
      rw [pgroundup_div ha]
      left
      simp only [PGSIZE] at ha hlo hi ⊢
      omega

/-! ### `uvmalloc` -/

/-- `pt'` is `pt` with the pages from address `lo` up to `hi` mapped with `perm` and zero, and
nothing else changed. -/
structure Grown (pt pt' : Pagetable) (lo hi : ℕ) (perm : UInt64) : Prop where
  pte_new : ∀ pg, lo / PGSIZE ≤ pg → pg < hi / PGSIZE → pt'.pte pg = perm ||| PTE_V
  pte_old : ∀ pg, pg < lo / PGSIZE ∨ hi / PGSIZE ≤ pg → pt'.pte pg = pt.pte pg
  mem_new : ∀ va, lo ≤ va → va < hi → pt'.mem va = 0
  mem_old : ∀ va, va < lo ∨ hi ≤ va → pt'.mem va = pt.mem va

theorem Grown.refl (pt : Pagetable) (lo : ℕ) (perm : UInt64) : Grown pt pt lo lo perm where
  pte_new _ h₁ h₂ := absurd h₂ (by omega)
  pte_old _ _ := rfl
  mem_new _ h₁ h₂ := absurd h₂ (by omega)
  mem_old _ _ := rfl

/-- Mapping the zeroed page at `a` grows the range by that page. -/
theorem Grown.step {pt₀ : Pagetable} {lo a : ℕ} {perm : UInt64} (hg : Grown pt₀ pt lo a perm)
    (ha : a % PGSIZE = 0) (hle : lo ≤ a) (l1 l0 : Finset ℕ) :
    Grown pt₀ ⟨Function.update pt.pte (a / PGSIZE) (perm ||| PTE_V), l1, l0, zeroPage pt.mem a⟩
      lo (a + PGSIZE) perm := by
  have hdiv : (a + PGSIZE) / PGSIZE = a / PGSIZE + 1 := Nat.add_div_right _ (by decide)
  have hpage : ∀ va, va / PGSIZE = a / PGSIZE ↔ a ≤ va ∧ va < a + PGSIZE := by
    intro va
    simp only [PGSIZE] at ha ⊢
    omega
  have hlo : lo / PGSIZE ≤ a / PGSIZE := Nat.div_le_div_right hle
  refine ⟨fun pg h₁ h₂ => ?_, fun pg h => ?_, fun va h₁ h₂ => ?_, fun va h => ?_⟩
  · show Function.update pt.pte (a / PGSIZE) (perm ||| PTE_V) pg = perm ||| PTE_V
    rw [hdiv] at h₂
    by_cases hpg : pg = a / PGSIZE
    · rw [hpg]
      exact Function.update_self _ _ _
    · rw [Function.update_of_ne hpg]
      exact hg.pte_new pg h₁ (by omega)
  · show Function.update pt.pte (a / PGSIZE) (perm ||| PTE_V) pg = pt₀.pte pg
    rw [hdiv] at h
    rw [Function.update_of_ne (by omega)]
    exact hg.pte_old pg (by omega)
  · show (if va / PGSIZE = a / PGSIZE then 0 else pt.mem va) = 0
    split_ifs with hva
    · rfl
    · exact hg.mem_new va h₁ (by rw [hpage] at hva; omega)
  · show (if va / PGSIZE = a / PGSIZE then 0 else pt.mem va) = pt₀.mem va
    rw [if_neg (by rw [hpage]; omega)]
    exact hg.mem_old va (by omega)

/-- The entry `uvmalloc` writes is a valid user leaf. -/
theorem user_leaf_flags (xperm : UInt64) :
    (PTE_R ||| PTE_U ||| xperm ||| PTE_V) &&& PTE_V ≠ 0 ∧
      (PTE_R ||| PTE_U ||| xperm ||| PTE_V) &&& PTE_R ≠ 0 ∧
      (PTE_R ||| PTE_U ||| xperm ||| PTE_V) &&& PTE_U ≠ 0 := by
  refine ⟨?_, ?_, ?_⟩
  · rw [Bits.or_and_self]
    decide
  · exact Bits.or_and_ne_zero_left _ (Bits.or_and_ne_zero_left _
      (Bits.or_and_ne_zero_left _ (by decide)))
  · exact Bits.or_and_ne_zero_left _ (Bits.or_and_ne_zero_left _
      (Bits.or_and_ne_zero_right _ (by decide)))

/-- **The pool bounds the table.** A table of size `a` with a free page left and a pool no
larger than the user range has room for the page at `a` below the trapframe. -/
theorem room_of_pool {a free : ℕ} (ha : a % PGSIZE = 0) (hfree : 0 < free)
    (hF : free + owned pt a ≤ TRAPFRAME / PGSIZE) : a + PGSIZE < TRAPFRAME := by
  unfold owned at hF
  rw [pgroundup_div ha] at hF
  have hT : TRAPFRAME = 67108862 * 4096 := by decide
  simp only [PGSIZE] at *
  omega

/-- **The loop of `uvmalloc`** at `a`, with the layout of size `a` and the pages from `lo`
grown so far: on success the layout of size `newsz` and the pages up to `PGROUNDUP(newsz)`
grown, on failure the layout of size `lo`. The pool and the owned pages keep their sum `F`. -/
theorem uvmallocLoop_spec (lo newsz : ℕ) (xperm : UInt64) (pt₀ : Pagetable) {F : ℕ}
    (hF : F ≤ TRAPFRAME / PGSIZE) (hlo : lo % PGSIZE = 0) :
    ∀ (fuel a : ℕ) (pt : Pagetable) (free : ℕ), a % PGSIZE = 0 → lo ≤ a →
      a ≤ PGROUNDUP newsz → newsz ≤ a + fuel * PGSIZE → Layout pt a → free + owned pt a = F →
      Grown pt₀ pt lo a (PTE_R ||| PTE_U ||| xperm) →
      ∃ pt' free' sz', uvmallocLoop lo newsz xperm fuel a pt free = some (pt', free', sz') ∧
        (sz' = newsz ∧ Layout pt' newsz ∧ free' + owned pt' newsz = F ∧
            Grown pt₀ pt' lo (PGROUNDUP newsz) (PTE_R ||| PTE_U ||| xperm) ∨
          sz' = 0 ∧ Layout pt' lo ∧ free' + owned pt' lo = F) := by
  -- past `newsz` the loop has reached `PGROUNDUP(newsz)`: the grown layout is the new one
  have hdone : ∀ (a : ℕ) (pt : Pagetable) (free : ℕ), a % PGSIZE = 0 → a ≤ PGROUNDUP newsz →
      newsz ≤ a → Layout pt a → free + owned pt a = F → Grown pt₀ pt lo a (PTE_R ||| PTE_U ||| xperm) →
      Layout pt newsz ∧ free + owned pt newsz = F ∧
        Grown pt₀ pt lo (PGROUNDUP newsz) (PTE_R ||| PTE_U ||| xperm) := by
    intro a pt free ha hup hge hl hacc hg
    have heq : PGROUNDUP newsz = a :=
      Nat.le_antisymm ((pgroundup_mono hge).trans (pgroundup_of_aligned ha).le) hup
    have hs : PGROUNDUP a = PGROUNDUP newsz := by rw [heq, pgroundup_of_aligned ha]
    exact ⟨hl.of_pgroundup hs, by rwa [← owned_of_pgroundup hs], heq ▸ hg⟩
  -- a failed `kalloc` or `mappages` at `a`: `uvmdealloc(pagetable, a, oldsz)` undoes the call
  have hundo : ∀ (a : ℕ) (pt : Pagetable) (free : ℕ), a % PGSIZE = 0 → lo ≤ a → Layout pt a →
      free + owned pt a = F →
      ∃ pt' free', (uvmdealloc pt free a lo).map (fun r => (r.1, r.2.1, 0)) = some (pt', free', 0) ∧
        Layout pt' lo ∧ free' + owned pt' lo = F := by
    intro a pt free ha hle hl hacc
    refine ⟨_, _, by rw [uvmdealloc_eq hl ha hlo hle free]; rfl, hl.clear_above ha hlo hle, ?_⟩
    rw [← hacc]
    simp only [owned, clear_l0, clear_l1, pgroundup_div ha, pgroundup_div hlo]
    simp only [PGSIZE] at *
    omega
  intro fuel
  induction fuel with
  | zero =>
    intro a pt free ha hle hup hfuel hl hacc hg
    obtain ⟨hl', hacc', hg'⟩ := hdone a pt free ha hup (by simpa using hfuel) hl hacc hg
    exact ⟨pt, free, newsz, rfl, .inl ⟨rfl, hl', hacc', hg'⟩⟩
  | succ fuel ih =>
    intro a pt free ha hle hup hfuel hl hacc hg
    rw [uvmallocLoop]
    by_cases hlt : a < newsz
    swap
    · rw [if_neg hlt]
      obtain ⟨hl', hacc', hg'⟩ := hdone a pt free ha hup (by omega) hl hacc hg
      exact ⟨pt, free, newsz, rfl, .inl ⟨rfl, hl', hacc', hg'⟩⟩
    rw [if_pos hlt]
    by_cases h0 : free = 0
    · rw [if_pos h0]
      obtain ⟨pt', free', heq, hl', hacc'⟩ := hundo a pt free ha hle hl hacc
      exact ⟨pt', free', 0, heq, .inr ⟨rfl, hl', hacc'⟩⟩
    rw [if_neg h0]
    have hroom := room_of_pool ha (Nat.pos_of_ne_zero h0) (hacc ▸ hF)
    have hva : a < MAXVA := by
      have : TRAPFRAME ≤ MAXVA := by decide
      omega
    have hinv : ({ pt with mem := zeroPage pt.mem a } : Pagetable).pte (a / PGSIZE) &&& PTE_V = 0 :=
      hl.invalid_at ha (by omega)
    obtain ⟨l1, l0, free', ok, hm, hs1, hs0, hc, hok, hfail⟩ :=
      mappages_page hva ha hinv (free - 1) (PTE_R ||| PTE_U ||| xperm)
    rw [hm]
    cases ok with
    | false =>
      -- `kfree(mem)` and undo, with the tables `walk` took kept in the table
      dsimp only
      have hl₁ : Layout ({ pt with mem := zeroPage pt.mem a, l1, l0 } : Pagetable) a :=
        hl.tables rfl hs1 hs0
      obtain ⟨pt', free'', heq, hl', hacc'⟩ := hundo a _ (free' + 1) ha hle hl₁ (by
        simp only [owned] at hacc ⊢
        simp only at hc
        omega)
      exact ⟨pt', free'', 0, heq, .inr ⟨rfl, hl', hacc'⟩⟩
    | true =>
      obtain ⟨hd1, hd0⟩ := hok rfl
      obtain ⟨hv, hr, -⟩ := user_leaf_flags xperm
      have hleaf : Leaf ⟨Function.update pt.pte (a / PGSIZE) (PTE_R ||| PTE_U ||| xperm ||| PTE_V),
          l1, l0, zeroPage pt.mem a⟩ (a / PGSIZE) := by
        refine ⟨?_, ?_, by rw [← dir_eq]; exact hd1, by rw [← tbl_eq]; exact hd0⟩
        · simpa using hv
        · simpa using hr
      have hl' := hl.map ha hroom.le hleaf (fun pg hpg => Function.update_of_ne hpg _ _) hs1 hs0
      have ha' : (a + PGSIZE) % PGSIZE = 0 := by rw [Nat.add_mod_right]; exact ha
      refine ih (a + PGSIZE) _ free' ha' (by omega) ?_ (by rw [Nat.succ_mul] at hfuel; omega) hl'
        ?_ (hg.step ha hle l1 l0)
      · have h₁ := le_pgroundup newsz
        have h₂ := pgroundup_aligned newsz
        simp only [PGSIZE] at *
        omega
      · simp only [owned] at hacc ⊢
        rw [pgroundup_div ha'] at ⊢
        rw [pgroundup_div ha] at hacc
        simp only at hc
        rw [Nat.add_div_right _ (by decide)]
        omega

/-- **`uvmalloc`'s spec** on a layout, with a pool no larger than the user range: it never
panics, and either maps zeroed user pages up to `PGROUNDUP(newsz)` and returns `newsz`, or
returns `0` with the table back at its old size; the pool and the owned pages add up to what
they did. -/
theorem uvmalloc_spec (h : Layout pt sz) {free : ℕ} (hF : free + owned pt sz ≤ TRAPFRAME / PGSIZE)
    {newsz : ℕ} (hle : sz ≤ newsz) (xperm : UInt64) :
    ∃ pt' free' sz', uvmalloc pt free sz newsz xperm = some (pt', free', sz') ∧
      (sz' = newsz ∧ Layout pt' newsz ∧ free' + owned pt' newsz = free + owned pt sz ∧
          Grown pt pt' (PGROUNDUP sz) (PGROUNDUP newsz) (PTE_R ||| PTE_U ||| xperm) ∨
        sz' = 0 ∧ Layout pt' sz ∧ free' + owned pt' sz = free + owned pt sz) := by
  have hal := pgroundup_aligned sz
  have hs : PGROUNDUP (PGROUNDUP sz) = PGROUNDUP sz := pgroundup_of_aligned hal
  rw [uvmalloc, if_neg (Nat.not_lt.mpr hle)]
  obtain ⟨pt', free', sz', heq, hr⟩ := uvmallocLoop_spec (PGROUNDUP sz) newsz xperm pt hF hal
    (newsz / PGSIZE + 1) (PGROUNDUP sz) pt free hal le_rfl (pgroundup_mono hle)
    (by simp only [PGSIZE]; omega) (h.of_pgroundup hs.symm) (by rw [owned_of_pgroundup hs])
    (Grown.refl pt _ _)
  refine ⟨pt', free', sz', heq, ?_⟩
  rcases hr with ⟨rfl, hl, hacc, hg⟩ | ⟨rfl, hl, hacc⟩
  · exact .inl ⟨rfl, hl, hacc, hg⟩
  · exact .inr ⟨rfl, hl.of_pgroundup hs, by rwa [owned_of_pgroundup hs] at hacc⟩

/-! ### `proc_pagetable`, `uvmclear`, `walkaddr` and `copyout` -/

/-- An entry written with `PTE_R` is a valid, readable leaf. -/
theorem read_leaf_flags {perm : UInt64} (h : perm &&& PTE_R ≠ 0) :
    (perm ||| PTE_V) &&& PTE_V ≠ 0 ∧ (perm ||| PTE_V) &&& PTE_R ≠ 0 := by
  refine ⟨?_, Bits.or_and_ne_zero_left _ h⟩
  rw [Bits.or_and_self]
  decide

/-- **`proc_pagetable`'s spec**: it never panics, and either returns a table with the layout of
size `0` and the rest of the pool, or returns `0` with every page it took given back. -/
theorem proc_pagetable_spec (free : ℕ) :
    proc_pagetable free = some (none, free) ∨
      ∃ pt free', proc_pagetable free = some (some pt, free') ∧ Layout pt 0 ∧
        free' + owned pt 0 = free := by
  have hT : TRAPFRAME / PGSIZE + 1 = TRAMPOLINE / PGSIZE := by decide
  have hk : ∀ pg, Kept 0 pg ↔ pg = TRAPFRAME / PGSIZE ∨ pg = TRAMPOLINE / PGSIZE := by
    intro pg
    simp [Kept, show PGROUNDUP 0 = 0 from rfl]
  by_cases h0 : free = 0
  · left
    rw [proc_pagetable, uvmcreate, if_pos h0, h0]
  rw [proc_pagetable, uvmcreate, if_neg h0]
  dsimp only
  -- the trampoline, in the empty table the root page holds
  have hinv₁ : (⟨fun _ => 0, ∅, ∅, fun _ => 0⟩ : Pagetable).pte (TRAMPOLINE / PGSIZE) &&& PTE_V = 0 :=
    by decide
  obtain ⟨l1, l0, free₁, ok, hm, -, -, hc, hok, -⟩ :=
    mappages_page (by decide) trampoline_aligned hinv₁ (free - 1) (PTE_R ||| PTE_X)
  simp only [Finset.card_empty, Nat.add_zero] at hc
  rw [hm]
  cases ok with
  | false =>
    -- `uvmfree(pagetable, 0)`: only the tables to give back
    left
    simp only [Bool.false_eq_true, if_false, uvmfree, lt_irrefl]
    rw [freewalk_eq fun _ => UInt64.zero_and]
    dsimp only
    exact congrArg (fun n => some (none, n)) (by omega)
  | true =>
    obtain ⟨hd1, hd0⟩ := hok rfl
    obtain ⟨hvT, hrT⟩ := read_leaf_flags (show (PTE_R ||| PTE_X) &&& PTE_R ≠ 0 by decide)
    obtain ⟨hvF, hrF⟩ := read_leaf_flags (show (PTE_R ||| PTE_W) &&& PTE_R ≠ 0 by decide)
    have hne : TRAMPOLINE / PGSIZE ≠ TRAPFRAME / PGSIZE := by omega
    simp only [if_true]
    -- the trapframe shares the trampoline's tables
    have hinv₂ : (⟨Function.update (fun _ => 0) (TRAMPOLINE / PGSIZE) (PTE_R ||| PTE_X ||| PTE_V),
        l1, l0, fun _ => 0⟩ : Pagetable).pte (TRAPFRAME / PGSIZE) &&& PTE_V = 0 := by
      simp [hne.symm]
    obtain ⟨l1', l0', free₂, ok', hm', hs1', hs0', hc', hok', -⟩ :=
      mappages_page (by decide) trapframe_aligned hinv₂ free₁ (PTE_R ||| PTE_W)
    simp only at hc'
    have hleafT : ∀ pt' : Pagetable, pt'.pte (TRAMPOLINE / PGSIZE) = PTE_R ||| PTE_X ||| PTE_V →
        l1 ⊆ pt'.l1 → l0 ⊆ pt'.l0 → Leaf pt' (TRAMPOLINE / PGSIZE) := by
      intro pt' hpte h1 h0
      refine ⟨hpte ▸ hvT, hpte ▸ hrT, h1 ?_, h0 ?_⟩
      · rw [← dir_eq]
        exact hd1
      · rw [← tbl_eq]
        exact hd0
    rw [hm']
    cases ok' with
    | false =>
      -- `uvmunmap(pagetable, TRAMPOLINE, 1, 0)`, then `uvmfree(pagetable, 0)`
      left
      simp only [Bool.false_eq_true, if_false]
      rw [uvmunmap_one trampoline_aligned (by decide) (hleafT _ (by simp) hs1' hs0')]
      simp only [Option.bind_some, uvmfree, lt_irrefl, if_false]
      rw [freewalk_eq fun pg => ?_]
      · simp only [Option.map_some, clear_l0, clear_l1]
        exact congrArg (fun n => some (none, n)) (by omega)
      · rw [clear_pte]
        split_ifs with hpg
        · decide
        · simp [show pg ≠ TRAMPOLINE / PGSIZE by omega]
    | true =>
      right
      obtain ⟨hd1', hd0'⟩ := hok' rfl
      simp only [if_true]
      refine ⟨_, free₂, rfl, ⟨by decide, fun pg hkp => ?_, fun pg hkp => ?_⟩, ?_⟩
      · rcases (hk pg).mp hkp with rfl | rfl
        · refine ⟨by simpa using hvF, by simpa using hrF, ?_, ?_⟩
          · rw [← dir_eq]
            exact hd1'
          · rw [← tbl_eq]
            exact hd0'
        · exact hleafT _ (by simp [hne]) hs1' hs0'
      · have hne' := not_or.mp (mt (hk pg).mpr hkp)
        simp [hne'.1, hne'.2]
      · simp only [owned, show PGROUNDUP 0 = 0 from rfl, Nat.zero_div]
        omega

/-- `uvmclear` of a page with a leaf clears `PTE_U` in its entry. -/
theorem uvmclear_eq {va : ℕ} (hva : va < MAXVA) (h : Leaf pt (va / PGSIZE)) :
    uvmclear pt va = some { pt with
      pte := Function.update pt.pte (va / PGSIZE) (pt.pte (va / PGSIZE) &&& ~~~PTE_U) } := by
  rw [uvmclear, walk_of_leaf hva h]

/-- Clearing `PTE_U` in an entry keeps the layout: the leaf stays valid and readable. -/
theorem Layout.clearU (h : Layout pt sz) (q : ℕ) :
    Layout { pt with pte := Function.update pt.pte q (pt.pte q &&& ~~~PTE_U) } sz := by
  have hV : (pt.pte q &&& ~~~PTE_U) &&& PTE_V = pt.pte q &&& PTE_V :=
    Bits.and_not_and_of_disjoint _ (by decide)
  have hR : (pt.pte q &&& ~~~PTE_U) &&& PTE_R = pt.pte q &&& PTE_R :=
    Bits.and_not_and_of_disjoint _ (by decide)
  refine ⟨h.le_trapframe, fun pg hkp => ?_, fun pg hkp => ?_⟩
  · have hl := h.leaf pg hkp
    by_cases hpg : pg = q
    · subst hpg
      exact ⟨by simpa [hV] using hl.valid, by simpa [hR] using hl.read, hl.l1, hl.l0⟩
    · exact hl.congr (Function.update_of_ne hpg _ _) subset_rfl subset_rfl
  · by_cases hpg : pg = q
    · subst hpg
      simpa [hV] using h.invalid pg hkp
    · simpa [Function.update_of_ne hpg] using h.invalid pg hkp

/-- `walkaddr` finds a user leaf. -/
theorem walkaddr_of_leaf {va : ℕ} (hva : va < MAXVA) (h : Leaf pt (va / PGSIZE))
    (hu : pt.pte (va / PGSIZE) &&& PTE_U ≠ 0) : walkaddr pt va = true := by
  rw [walkaddr, if_neg (Nat.not_le.mpr hva), walk_of_leaf hva h]
  simp [h.valid, hu]

@[simp] theorem copyout_pte (dst : ℕ) (src : List UInt8) : (copyout pt dst src).1.pte = pt.pte := rfl

@[simp] theorem copyout_l1 (dst : ℕ) (src : List UInt8) : (copyout pt dst src).1.l1 = pt.l1 := rfl

@[simp] theorem copyout_l0 (dst : ℕ) (src : List UInt8) : (copyout pt dst src).1.l0 = pt.l0 := rfl

/-- A `copyout` that returns `0` has written all of `src` from `dst` on. -/
theorem copyout_mem {dst : ℕ} {src : List UInt8} (h : (copyout pt dst src).2 = true) :
    (copyout pt dst src).1.mem = Store.store id pt.mem dst src := by
  obtain ⟨j, hj, heq, -, -⟩ := Xv6.copyout_spec (space pt) src.length dst src le_rfl
  have h' : (Xv6.copyout (space pt) src.length dst src).2 = true := h
  rw [heq] at h'
  have hj' : j = src.length := of_decide_eq_true h'
  show (Xv6.copyout (space pt) src.length dst src).1.mem = _
  rw [heq, hj', List.take_length]
  rfl

end Lemmas

end Xv6.Uvm
