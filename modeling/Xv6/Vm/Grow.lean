import Xv6.Vm.Copy
import Mathlib.Data.Int.Notation
import Mathlib.Algebra.Ring.Int.Defs

/-!
# Growing and shrinking a process (`sys_sbrk`, `growproc`, `uvmalloc`, `uvmdealloc`)

`sys_sbrk(n)` returns the old `p->sz` after `growproc(n)`, or `-1` if `growproc` fails.
`growproc` adds the `int` `n` to the `uint64` `p->sz`: `uvmalloc` maps zeroed pages up to
`sz + n` for `n > 0`, and `uvmdealloc` unmaps the pages above `sz + n` for `n < 0`.

The model is what these calls read and change: `p->sz`, which pages below `TRAPFRAME` have a
valid leaf, the user view of the address space (`Space`, as `copyin` and `copyout` read it), and
the number of pages `kalloc` can still hand out. `Mem.Ok` is the layout `exec` and `growproc`
keep: the pages below `PGROUNDUP(sz)` are mapped and those above are not.

* `sys_sbrk_grow`: for `n > 0` the break moves by exactly `n`, with the new pages mapped and
  zero, when there are enough free pages; otherwise `-1` and nothing changes, the pages
  `uvmalloc` mapped before `kalloc` failed being unmapped again.
* `sys_sbrk_shrink`: for `n < 0` with `sz + n ≥ 0` the break moves by `n` and the pages from
  `PGROUNDUP(sz + n)` on are unmapped and freed.
* `sys_sbrk_shrink_past_zero`: for `sz + n < 0` the sum wraps to a huge `uint64`, which
  `uvmdealloc` takes as "nothing to free", and `sbrk` still returns the old size: it reports
  success and leaves the break where it was.

`mappages` also allocates page-table pages; the model counts only the leaf pages against the
free list.
-/

namespace Xv6

/-- `PGROUNDUP(sz)`. -/
def PGROUNDUP (a : ℕ) : ℕ := (a + PGSIZE - 1) / PGSIZE * PGSIZE

namespace Grow

/-- What `sys_sbrk` reads and changes. -/
structure Mem where
  /-- `p->sz`. -/
  sz : ℕ
  /-- The pages below `TRAPFRAME` with a valid leaf in `p->pagetable`, by page number. -/
  valid : ℕ → Bool
  /-- The user pages and their bytes. -/
  space : Space
  /-- The pages on `kmem.freelist`. -/
  free : ℕ

namespace Mem

/-- `kalloc`, `memset(mem, 0, PGSIZE)` and `mappages(pagetable, a, PGSIZE, mem,
PTE_R|PTE_U|PTE_W)`: page `a` is mapped for the user, writable, and reads zero. -/
def mapPage (m : Mem) (a : ℕ) : Mem :=
  { m with valid := Function.update m.valid (a / PGSIZE) true
           space := { user := Function.update m.space.user (a / PGSIZE) true
                      writable := Function.update m.space.writable (a / PGSIZE) true
                      mem := fun va => if va / PGSIZE = a / PGSIZE then 0 else m.space.mem va }
           free := m.free - 1 }

/-- `kfree(pa); *pte = 0;` for page `a` in `uvmunmap`. -/
def unmapPage (m : Mem) (a : ℕ) : Mem :=
  { m with valid := Function.update m.valid (a / PGSIZE) false
           space := { m.space with user := Function.update m.space.user (a / PGSIZE) false
                                   writable := Function.update m.space.writable (a / PGSIZE) false }
           free := m.free + 1 }

end Mem

/-- `uvmunmap(pagetable, va, npages, 1)`; `none` where it panics on a page with no valid leaf. -/
def uvmunmap : (m : Mem) → (va npages : ℕ) → Option Mem
  | m, _, 0 => some m
  | m, va, k + 1 => if m.valid (va / PGSIZE) then uvmunmap (m.unmapPage va) (va + PGSIZE) k else none

/-- `uvmdealloc(pagetable, oldsz, newsz)`: the state and the new size. -/
def uvmdealloc (m : Mem) (oldsz newsz : ℕ) : Option (Mem × ℕ) :=
  if newsz ≥ oldsz then some (m, oldsz)
  else if PGROUNDUP newsz < PGROUNDUP oldsz then
    (uvmunmap m (PGROUNDUP newsz) ((PGROUNDUP oldsz - PGROUNDUP newsz) / PGSIZE)).map (·, newsz)
  else some (m, newsz)

/-- The loop of `uvmalloc` at `a`, where `oldsz` is already rounded up: a zeroed page for each
`a < newsz`, until `kalloc` fails and `uvmdealloc(pagetable, a, oldsz)` unmaps what the loop
mapped, with `0` returned. `fuel` bounds the iterations. -/
def allocLoop (oldsz newsz : ℕ) : (fuel a : ℕ) → Mem → Option (Mem × ℕ)
  | 0, _, m => some (m, newsz)
  | fuel + 1, a, m =>
    if a < newsz then
      if m.free = 0 then (uvmdealloc m a oldsz).map fun r => (r.1, 0)
      else allocLoop oldsz newsz fuel (a + PGSIZE) (m.mapPage a)
    else some (m, newsz)

/-- `uvmalloc(pagetable, oldsz, newsz, PTE_W)`: the state and the new size, `0` on failure. -/
def uvmalloc (m : Mem) (oldsz newsz : ℕ) : Option (Mem × ℕ) :=
  if newsz < oldsz then some (m, oldsz)
  else allocLoop (PGROUNDUP oldsz) newsz (newsz / PGSIZE + 1) (PGROUNDUP oldsz) m

/-- `sz + n` for a `uint64` `sz` and an `int` `n`, which C converts to `uint64`. -/
def addInt (sz : ℕ) (n : Int32) : ℕ := (sz + (n.toInt % 2 ^ 64).toNat) % 2 ^ 64

/-- `growproc(n)`: the state and the return value; `none` where the kernel panics. -/
def growproc (m : Mem) (n : Int32) : Option (Mem × ℤ) :=
  if 0 < n.toInt then
    (uvmalloc m m.sz (addInt m.sz n)).map fun r =>
      if r.2 = 0 then (r.1, -1) else ({ r.1 with sz := r.2 }, 0)
  else if n.toInt < 0 then
    (uvmdealloc m m.sz (addInt m.sz n)).map fun r => ({ r.1 with sz := r.2 }, 0)
  else some (m, 0)

/-- `sys_sbrk(n)`: the state and the `uint64` it returns, `-1` being `2^64 - 1`. -/
def sys_sbrk (m : Mem) (n : Int32) : Option (Mem × ℕ) :=
  let addr := m.sz
  (growproc m n).map fun r => if r.2 < 0 then (r.1, 2 ^ 64 - 1) else (r.1, addr)

/-! ### Ranges of pages -/

namespace Mem

/-- What page `pg` has: a valid leaf, a user leaf, a writable one. -/
def page (m : Mem) (pg : ℕ) : Bool × Bool × Bool := (m.valid pg, m.space.user pg, m.space.writable pg)

/-- The `k` pages from `a` mapped, one after the other. -/
def mapRange : Mem → (a k : ℕ) → Mem
  | m, _, 0 => m
  | m, a, k + 1 => mapRange (m.mapPage a) (a + PGSIZE) k

/-- The `k` pages from `a` unmapped and freed. -/
def unmapRange : Mem → (a k : ℕ) → Mem
  | m, _, 0 => m
  | m, a, k + 1 => unmapRange (m.unmapPage a) (a + PGSIZE) k

/-- The layout `exec` leaves and `growproc` keeps: the pages below `PGROUNDUP(sz)` have a leaf,
and the pages above have none. -/
structure Ok (m : Mem) : Prop where
  valid_below : ∀ pg, pg * PGSIZE < PGROUNDUP m.sz → m.valid pg = true
  unmapped_above : ∀ pg, PGROUNDUP m.sz ≤ pg * PGSIZE → m.page pg = (false, false, false)

/-- Page number `pg` is one of the `k` pages from `a`. -/
def InRange (a k pg : ℕ) : Prop := a / PGSIZE ≤ pg ∧ pg < a / PGSIZE + k

instance (a k pg : ℕ) : Decidable (InRange a k pg) := inferInstanceAs (Decidable (_ ∧ _))

theorem inRange_succ {a k pg : ℕ} (ha : a % PGSIZE = 0) :
    InRange a (k + 1) pg ↔ pg = a / PGSIZE ∨ InRange (a + PGSIZE) k pg := by
  unfold InRange PGSIZE at *
  omega

theorem aligned_add {a : ℕ} (ha : a % PGSIZE = 0) : (a + PGSIZE) % PGSIZE = 0 := by
  unfold PGSIZE at *
  omega

variable (m : Mem) (a : ℕ)

@[simp] theorem sz_mapPage : (m.mapPage a).sz = m.sz := rfl
@[simp] theorem free_mapPage : (m.mapPage a).free = m.free - 1 := rfl
@[simp] theorem sz_unmapPage : (m.unmapPage a).sz = m.sz := rfl
@[simp] theorem free_unmapPage : (m.unmapPage a).free = m.free + 1 := rfl

theorem page_mapPage (pg : ℕ) :
    (m.mapPage a).page pg = if pg = a / PGSIZE then (true, true, true) else m.page pg := by
  unfold page mapPage
  split_ifs with h
  · simp [h]
  · simp [Function.update_of_ne h]

theorem page_unmapPage (pg : ℕ) :
    (m.unmapPage a).page pg = if pg = a / PGSIZE then (false, false, false) else m.page pg := by
  unfold page unmapPage
  split_ifs with h
  · simp [h]
  · simp [Function.update_of_ne h]

@[simp] theorem sz_mapRange : ∀ (m : Mem) (a k : ℕ), (m.mapRange a k).sz = m.sz
  | _, _, 0 => rfl
  | m, a, k + 1 => sz_mapRange (m.mapPage a) (a + PGSIZE) k

@[simp] theorem sz_unmapRange : ∀ (m : Mem) (a k : ℕ), (m.unmapRange a k).sz = m.sz
  | _, _, 0 => rfl
  | m, a, k + 1 => sz_unmapRange (m.unmapPage a) (a + PGSIZE) k

theorem free_mapRange : ∀ (m : Mem) (a k : ℕ), k ≤ m.free → (m.mapRange a k).free = m.free - k
  | _, _, 0, _ => rfl
  | m, a, k + 1, h => by
    rw [mapRange, free_mapRange (m.mapPage a) (a + PGSIZE) k (by simp; omega), free_mapPage]
    omega

theorem free_unmapRange : ∀ (m : Mem) (a k : ℕ), (m.unmapRange a k).free = m.free + k
  | _, _, 0 => rfl
  | m, a, k + 1 => by
    rw [unmapRange, free_unmapRange (m.unmapPage a) (a + PGSIZE) k, free_unmapPage]
    omega

/-- The pages of the range are mapped, the others unchanged. -/
theorem page_mapRange : ∀ (m : Mem) (a k : ℕ), a % PGSIZE = 0 → ∀ pg,
    (m.mapRange a k).page pg = if InRange a k pg then (true, true, true) else m.page pg
  | m, a, 0, _, pg => by
    have hn : ¬ InRange a 0 pg := by unfold InRange; omega
    simp [mapRange, hn]
  | m, a, k + 1, ha, pg => by
    rw [mapRange, page_mapRange _ _ k (aligned_add ha) pg, page_mapPage]
    by_cases h : pg = a / PGSIZE
    · simp [inRange_succ ha, h]
    · simp [inRange_succ ha, h]

/-- The pages of the range are unmapped, the others unchanged. -/
theorem page_unmapRange : ∀ (m : Mem) (a k : ℕ), a % PGSIZE = 0 → ∀ pg,
    (m.unmapRange a k).page pg = if InRange a k pg then (false, false, false) else m.page pg
  | m, a, 0, _, pg => by
    have hn : ¬ InRange a 0 pg := by unfold InRange; omega
    simp [unmapRange, hn]
  | m, a, k + 1, ha, pg => by
    rw [unmapRange, page_unmapRange _ _ k (aligned_add ha) pg, page_unmapPage]
    by_cases h : pg = a / PGSIZE
    · simp [inRange_succ ha, h]
    · simp [inRange_succ ha, h]

/-- The bytes of the mapped range read zero. -/
theorem mem_mapRange : ∀ (m : Mem) (a k : ℕ), a % PGSIZE = 0 → ∀ va,
    (m.mapRange a k).space.mem va = if InRange a k (va / PGSIZE) then 0 else m.space.mem va
  | m, a, 0, _, va => by
    have hn : ¬ InRange a 0 (va / PGSIZE) := by unfold InRange; omega
    simp [mapRange, hn]
  | m, a, k + 1, ha, va => by
    rw [mapRange, mem_mapRange _ _ k (aligned_add ha) va]
    by_cases h : va / PGSIZE = a / PGSIZE
    · simp [inRange_succ ha, h, mapPage]
    · simp [inRange_succ ha, h, mapPage]

end Mem

open Grow.Mem

/-- `uvmunmap` of pages that all have a leaf unmaps and frees them. -/
theorem uvmunmap_eq : ∀ (k va : ℕ) (m : Mem), va % PGSIZE = 0 →
    (∀ pg, InRange va k pg → m.valid pg = true) → uvmunmap m va k = some (m.unmapRange va k)
  | 0, _, _, _, _ => rfl
  | k + 1, va, m, hva, hv => by
    have h0 : m.valid (va / PGSIZE) = true := hv _ ((inRange_succ hva).mpr (Or.inl rfl))
    rw [uvmunmap, if_pos h0, unmapRange]
    refine uvmunmap_eq k (va + PGSIZE) _ (aligned_add hva) fun pg hpg => ?_
    have hne : pg ≠ va / PGSIZE := by unfold InRange PGSIZE at *; omega
    have hpage := congrArg (·.1) (page_unmapPage m va pg)
    simp only [page, if_neg hne] at hpage
    rw [hpage]
    exact hv pg ((inRange_succ hva).mpr (Or.inr hpg))

/-- **`uvmalloc`'s loop** maps the `r` pages from `a` to `newsz` when `kalloc` has that many,
and otherwise maps as many as it has and hands them to `uvmdealloc`. -/
theorem allocLoop_eq (oldsz newsz : ℕ) : ∀ (r fuel a : ℕ) (m : Mem), r ≤ fuel →
    newsz ≤ a + PGSIZE * r → a + PGSIZE * r < newsz + PGSIZE →
    allocLoop oldsz newsz fuel a m =
      if r ≤ m.free then some (m.mapRange a r, newsz)
      else (uvmdealloc (m.mapRange a m.free) (a + PGSIZE * m.free) oldsz).map fun x => (x.1, 0)
  | 0, fuel, a, m, _, h1, _ => by
    have hge : ¬ a < newsz := by omega
    cases fuel <;> simp [allocLoop, hge, mapRange]
  | r + 1, fuel + 1, a, m, hf, h1, h2 => by
    have hlt : a < newsz := by unfold PGSIZE at *; omega
    rw [allocLoop, if_pos hlt]
    rcases Nat.eq_zero_or_pos m.free with h0 | hpos
    · rw [if_pos h0, if_neg (by omega), h0, Nat.mul_zero, Nat.add_zero]
      rfl
    · rw [if_neg (by omega), allocLoop_eq oldsz newsz r fuel (a + PGSIZE) _ (by omega)
        (by rw [Nat.mul_succ] at h1; omega) (by rw [Nat.mul_succ] at h2; omega)]
      obtain ⟨f, hf'⟩ : ∃ f, m.free = f + 1 := ⟨m.free - 1, by omega⟩
      simp only [free_mapPage, hf', Nat.add_sub_cancel, mapRange, Nat.add_le_add_iff_right]
      rw [Nat.mul_succ, Nat.add_right_comm, Nat.add_assoc a]

theorem pgroundup_aligned (a : ℕ) : PGROUNDUP a % PGSIZE = 0 := by
  unfold PGROUNDUP
  exact Nat.mul_mod_left _ _

theorem pgroundup_of_aligned {a : ℕ} (h : a % PGSIZE = 0) : PGROUNDUP a = a := by
  unfold PGROUNDUP PGSIZE at *
  omega

theorem le_pgroundup (a : ℕ) : a ≤ PGROUNDUP a := by
  unfold PGROUNDUP PGSIZE
  omega

theorem pgroundup_lt (a : ℕ) : PGROUNDUP a < a + PGSIZE := by
  unfold PGROUNDUP PGSIZE
  omega

theorem pgroundup_mono {a b : ℕ} (h : a ≤ b) : PGROUNDUP a ≤ PGROUNDUP b := by
  unfold PGROUNDUP
  exact Nat.mul_le_mul_right _ (Nat.div_le_div_right (by omega))

/-- A page is in a range from an aligned address by its first byte. -/
theorem inRange_iff {a k pg : ℕ} (ha : a % PGSIZE = 0) :
    InRange a k pg ↔ a ≤ pg * PGSIZE ∧ pg * PGSIZE < a + PGSIZE * k := by
  unfold InRange PGSIZE at *
  omega

/-- The pages `uvmalloc` maps to grow `sz` to `newsz`. -/
def growPages (sz newsz : ℕ) : ℕ := (PGROUNDUP newsz - PGROUNDUP sz) / PGSIZE

theorem pgroundup_add_growPages {sz newsz : ℕ} (h : sz ≤ newsz) :
    PGROUNDUP sz + PGSIZE * growPages sz newsz = PGROUNDUP newsz := by
  have h1 := pgroundup_aligned sz
  have h2 := pgroundup_aligned newsz
  have h3 := pgroundup_mono h
  unfold growPages
  generalize PGROUNDUP sz = A at *
  generalize PGROUNDUP newsz = B at *
  unfold PGSIZE at *
  omega

/-- The pages `uvmalloc` maps are those from `PGROUNDUP(sz)` to `PGROUNDUP(newsz)`. -/
theorem inRange_growPages {sz newsz pg : ℕ} (h : sz ≤ newsz) :
    InRange (PGROUNDUP sz) (growPages sz newsz) pg ↔
      PGROUNDUP sz ≤ pg * PGSIZE ∧ pg * PGSIZE < PGROUNDUP newsz := by
  rw [inRange_iff (pgroundup_aligned sz), pgroundup_add_growPages h]

/-- **`uvmalloc`**: with enough free pages it maps the pages from `PGROUNDUP(oldsz)` to
`newsz`; otherwise it maps the ones it can get, unmaps them again and returns `0`. -/
theorem uvmalloc_eq (m : Mem) {oldsz newsz : ℕ} (hle : oldsz ≤ newsz) :
    uvmalloc m oldsz newsz =
      if growPages oldsz newsz ≤ m.free then
        some (m.mapRange (PGROUNDUP oldsz) (growPages oldsz newsz), newsz)
      else some ((m.mapRange (PGROUNDUP oldsz) m.free).unmapRange (PGROUNDUP oldsz) m.free, 0) := by
  have ha := pgroundup_aligned oldsz
  unfold uvmalloc
  rw [if_neg (by omega), allocLoop_eq _ _ (growPages oldsz newsz)]
  · split_ifs with hk
    · rfl
    · -- `kalloc` failed after `m.free` pages: `uvmdealloc` unmaps exactly those
      rcases Nat.eq_zero_or_pos m.free with h0 | hpos
      · rw [h0]
        simp [uvmdealloc, mapRange, unmapRange]
      · have hround : PGROUNDUP (PGROUNDUP oldsz + PGSIZE * m.free) =
            PGROUNDUP oldsz + PGSIZE * m.free := pgroundup_of_aligned (by
          rw [Nat.add_mul_mod_self_left]; exact ha)
        have hpages : (PGROUNDUP oldsz + PGSIZE * m.free - PGROUNDUP oldsz) / PGSIZE = m.free := by
          unfold PGSIZE; omega
        unfold uvmdealloc
        rw [if_neg (by unfold PGSIZE at *; omega), pgroundup_of_aligned ha, hround,
          if_pos (by unfold PGSIZE at *; omega), hpages,
          uvmunmap_eq _ _ _ ha fun pg hpg => by
            have := congrArg (·.1) (page_mapRange m _ m.free ha pg)
            simpa [page, hpg] using this]
        rfl
  · unfold growPages PGROUNDUP PGSIZE; omega
  · unfold growPages PGROUNDUP PGSIZE; omega
  · unfold growPages PGROUNDUP PGSIZE; omega

/-- **`uvmdealloc`** to a smaller size unmaps and frees the pages from `PGROUNDUP(newsz)` to
`PGROUNDUP(oldsz)`, when they all have a leaf. -/
theorem uvmdealloc_eq (m : Mem) {oldsz newsz : ℕ} (hle : newsz ≤ oldsz)
    (hv : ∀ pg, InRange (PGROUNDUP newsz) (growPages newsz oldsz) pg → m.valid pg = true) :
    uvmdealloc m oldsz newsz =
      some (m.unmapRange (PGROUNDUP newsz) (growPages newsz oldsz), newsz) := by
  have hmono := pgroundup_mono hle
  unfold uvmdealloc
  split_ifs with hge hlt
  · obtain rfl : newsz = oldsz := by omega
    simp [growPages, unmapRange]
  · rw [show (PGROUNDUP oldsz - PGROUNDUP newsz) / PGSIZE = growPages newsz oldsz from rfl,
      uvmunmap_eq _ _ _ (pgroundup_aligned newsz) hv]
    rfl
  · -- both ends round to the same page: nothing to unmap
    have h0 : growPages newsz oldsz = 0 := by unfold growPages PGSIZE; omega
    rw [h0]
    rfl

/-! ### `sbrk` -/

section Add

variable {sz : ℕ} {n : Int32}

/-- `sz + n` does not wrap when the sum is a `uint64`. -/
theorem addInt_eq (h0 : 0 ≤ (sz : ℤ) + n.toInt) (h1 : (sz : ℤ) + n.toInt < 2 ^ 64) :
    (addInt sz n : ℤ) = sz + n.toInt := by
  have hlo := Int32.le_toInt n
  have hhi := Int32.toInt_lt n
  unfold addInt
  omega

/-- Below zero, `sz + n` wraps to at least `sz`. -/
theorem le_addInt (hneg : (sz : ℤ) + n.toInt < 0) : sz ≤ addInt sz n := by
  have hlo := Int32.le_toInt n
  unfold addInt
  omega

end Add

section Sbrk

variable {m : Mem} {n : Int32}

/-- The pages from `PGROUNDUP(sz)` to `PGROUNDUP(newsz)` mapped over a layout keep the layout
for `newsz`. -/
theorem Mem.Ok.mapRange (hm : m.Ok) {newsz : ℕ} (hle : m.sz ≤ newsz) :
    ({ m.mapRange (PGROUNDUP m.sz) (growPages m.sz newsz) with sz := newsz } : Mem).Ok where
  valid_below pg hpg := by
    have hpg' : pg * PGSIZE < PGROUNDUP newsz := hpg
    have hp := congrArg (·.1)
      (page_mapRange m (PGROUNDUP m.sz) (growPages m.sz newsz) (pgroundup_aligned m.sz) pg)
    simp only [page] at hp
    show (m.mapRange _ _).valid pg = true
    rw [hp]
    split_ifs with hr
    · rfl
    · have hr' := mt (inRange_growPages hle).mpr hr
      exact hm.valid_below pg (by omega)
  unmapped_above pg hpg := by
    have hpg' : PGROUNDUP newsz ≤ pg * PGSIZE := hpg
    have hmono := pgroundup_mono hle
    show (m.mapRange _ _).page pg = _
    rw [page_mapRange m (PGROUNDUP m.sz) _ (pgroundup_aligned m.sz) pg,
      if_neg (mt (inRange_growPages hle).mp (by omega))]
    exact hm.unmapped_above pg (by omega)

/-- The pages from `PGROUNDUP(newsz)` to `PGROUNDUP(sz)` unmapped from a layout leave the
layout for `newsz`. -/
theorem Mem.Ok.unmapRange (hm : m.Ok) {newsz : ℕ} (hle : newsz ≤ m.sz) :
    ({ m.unmapRange (PGROUNDUP newsz) (growPages newsz m.sz) with sz := newsz } : Mem).Ok where
  valid_below pg hpg := by
    have hpg' : pg * PGSIZE < PGROUNDUP newsz := hpg
    have hmono := pgroundup_mono hle
    have hp := congrArg (·.1)
      (page_unmapRange m (PGROUNDUP newsz) (growPages newsz m.sz) (pgroundup_aligned newsz) pg)
    simp only [page] at hp
    show (m.unmapRange _ _).valid pg = true
    rw [hp, if_neg (mt (inRange_growPages hle).mp (by omega))]
    exact hm.valid_below pg (by omega)
  unmapped_above pg hpg := by
    have hpg' : PGROUNDUP newsz ≤ pg * PGSIZE := hpg
    show (m.unmapRange _ _).page pg = _
    rw [page_unmapRange m _ _ (pgroundup_aligned newsz) pg]
    split_ifs with hr
    · rfl
    · have hr' := mt (inRange_growPages hle).mpr hr
      exact hm.unmapped_above pg (by omega)

/-- **`sbrk(n)` for `n > 0`, with enough free pages**: it returns the old size and moves the
break by exactly `n`; the pages from `PGROUNDUP(sz)` to `PGROUNDUP(sz + n)` are mapped for the
user and writable, every byte of them reads zero, and the rest is as before. -/
theorem sys_sbrk_grow (hm : m.Ok) (hn : 0 < n.toInt) (hsz : m.sz < 2 ^ 63)
    (hk : growPages m.sz (addInt m.sz n) ≤ m.free) :
    ∃ m', sys_sbrk m n = some (m', m.sz) ∧ (m'.sz : ℤ) = m.sz + n.toInt ∧ m'.Ok ∧
      m'.free = m.free - growPages m.sz m'.sz ∧
      (∀ pg, m'.page pg =
        if InRange (PGROUNDUP m.sz) (growPages m.sz m'.sz) pg then (true, true, true)
        else m.page pg) ∧
      ∀ va, PGROUNDUP m.sz ≤ va → va < PGROUNDUP m'.sz → m'.space.mem va = 0 := by
  have hhi := Int32.toInt_lt n
  have hnew : (addInt m.sz n : ℤ) = m.sz + n.toInt := addInt_eq (by omega) (by omega)
  have hle : m.sz ≤ addInt m.sz n := by omega
  refine ⟨{ m.mapRange (PGROUNDUP m.sz) (growPages m.sz (addInt m.sz n)) with
    sz := addInt m.sz n }, ?_, hnew, hm.mapRange hle, free_mapRange m _ _ hk,
    page_mapRange m _ _ (pgroundup_aligned _), fun va hlo hhi => ?_⟩
  · have hne : addInt m.sz n ≠ 0 := by omega
    simp only [sys_sbrk, growproc, if_pos hn, uvmalloc_eq m hle, if_pos hk, Option.map_some,
      if_neg hne]
    rfl
  · have hhi' : va < PGROUNDUP (addInt m.sz n) := hhi
    clear hhi
    show (m.mapRange _ _).space.mem va = 0
    have hpg : PGROUNDUP m.sz ≤ va / PGSIZE * PGSIZE ∧ va / PGSIZE * PGSIZE < PGROUNDUP (addInt m.sz n) := by
      have ha := pgroundup_aligned m.sz
      generalize PGROUNDUP m.sz = A at *
      generalize PGROUNDUP (addInt m.sz n) = B at *
      unfold PGSIZE at *
      omega
    rw [mem_mapRange m _ _ (pgroundup_aligned _) va, if_pos ((inRange_growPages hle).mpr hpg)]

/-- **`sbrk(n)` for `n > 0`, without enough free pages**: it returns `-1` and leaves the size,
every page and the free list as they were. -/
theorem sys_sbrk_grow_fail (hm : m.Ok) (hn : 0 < n.toInt) (hsz : m.sz < 2 ^ 63)
    (hk : m.free < growPages m.sz (addInt m.sz n)) :
    ∃ m', sys_sbrk m n = some (m', 2 ^ 64 - 1) ∧ m'.sz = m.sz ∧ m'.page = m.page ∧
      m'.free = m.free := by
  have hhi := Int32.toInt_lt n
  have hle : m.sz ≤ addInt m.sz n := by have := @addInt_eq m.sz n (by omega) (by omega); omega
  have ha := pgroundup_aligned m.sz
  refine ⟨(m.mapRange (PGROUNDUP m.sz) m.free).unmapRange (PGROUNDUP m.sz) m.free, ?_, by simp,
    funext fun pg => ?_, ?_⟩
  · simp only [sys_sbrk, growproc, if_pos hn, uvmalloc_eq m hle, if_neg (Nat.not_le.mpr hk),
      Option.map_some]
    rfl
  · -- the pages mapped before `kalloc` failed are above the break, where nothing was mapped
    rw [page_unmapRange _ _ _ ha, page_mapRange _ _ _ ha]
    split_ifs with hr
    · exact (hm.unmapped_above pg (by unfold InRange PGSIZE at *; omega)).symm
    · rfl
  · rw [free_unmapRange, free_mapRange _ _ _ (Nat.le_refl _), Nat.sub_self, Nat.zero_add]

/-- **`sbrk(n)` for `n < 0` down to `sz + n ≥ 0`**: it returns the old size and moves the break
by exactly `n`; every page from `PGROUNDUP(sz + n)` on is unmapped, the freed pages are back
on the free list, and the pages below are as before. -/
theorem sys_sbrk_shrink (hm : m.Ok) (hn : n.toInt < 0) (h0 : 0 ≤ (m.sz : ℤ) + n.toInt)
    (hsz : m.sz < 2 ^ 64) :
    ∃ m', sys_sbrk m n = some (m', m.sz) ∧ (m'.sz : ℤ) = m.sz + n.toInt ∧ m'.Ok ∧
      m'.free = m.free + growPages m'.sz m.sz ∧
      ∀ pg, m'.page pg =
        if PGROUNDUP m'.sz ≤ pg * PGSIZE then (false, false, false) else m.page pg := by
  have hnew : (addInt m.sz n : ℤ) = m.sz + n.toInt := addInt_eq h0 (by omega)
  have hle : addInt m.sz n ≤ m.sz := by omega
  refine ⟨{ m.unmapRange (PGROUNDUP (addInt m.sz n)) (growPages (addInt m.sz n) m.sz) with
    sz := addInt m.sz n }, ?_, hnew, hm.unmapRange hle, free_unmapRange m _ _, fun pg => ?_⟩
  · have hv := fun pg hpg => hm.valid_below pg ((inRange_growPages hle).mp hpg).2
    simp only [sys_sbrk, growproc, if_neg (show ¬ 0 < n.toInt by omega), if_pos hn,
      uvmdealloc_eq m hle hv, Option.map_some]
    rfl
  · show (m.unmapRange _ _).page pg =
      if PGROUNDUP (addInt m.sz n) ≤ pg * PGSIZE then (false, false, false) else m.page pg
    rw [page_unmapRange m _ _ (pgroundup_aligned _) pg]
    split_ifs with hr hge hge
    · rfl
    · exact absurd ((inRange_growPages hle).mp hr).1 hge
    · -- at or above the old break nothing was mapped
      have hr' := mt (inRange_growPages hle).mpr hr
      exact hm.unmapped_above pg (by omega)
    · rfl

/-- **`sbrk(n)` below zero**: `sz + n` wraps to a `uint64` above `sz`, `uvmdealloc` frees nothing
and returns the old size, and `sbrk` returns the old size as for a success, with the process
unchanged. -/
theorem sys_sbrk_shrink_past_zero (hn : n.toInt < 0) (h : (m.sz : ℤ) + n.toInt < 0) :
    sys_sbrk m n = some (m, m.sz) := by
  have hle : m.sz ≤ addInt m.sz n := le_addInt h
  simp only [sys_sbrk, growproc, if_neg (show ¬ 0 < n.toInt by omega), if_pos hn, uvmdealloc,
    if_pos hle, Option.map_some]
  rfl

/-- A one-page process, page 0 mapped, readable and writable, with `free` pages left. -/
def onePage (free : ℕ) : Mem where
  sz := PGSIZE
  valid pg := pg == 0
  space := ⟨fun pg => pg == 0, fun pg => pg == 0, fun _ => 0⟩
  free := free

theorem onePage_ok (free : ℕ) : (onePage free).Ok where
  valid_below pg h := by
    have h0 : pg = 0 := by simp only [onePage, PGROUNDUP, PGSIZE] at h; omega
    simp [onePage, h0]
  unmapped_above pg h := by
    have h0 : pg ≠ 0 := by simp only [onePage, PGROUNDUP, PGSIZE] at h; omega
    simp [onePage, page, h0]

/-- `sbrk(-4096)` in a one-page process moves the break to `0`. -/
theorem sys_sbrk_shrink_one_page :
    ∃ m', sys_sbrk (onePage 0) (-4096) = some (m', 4096) ∧ (m'.sz : ℤ) = 0 := by
  obtain ⟨m', h1, h2, -⟩ := @sys_sbrk_shrink (onePage 0) (-4096) (onePage_ok 0) (by decide) (by decide)
    (by decide)
  exact ⟨m', h1, h2⟩

/-- `sbrk(-8192)` in a one-page process returns the old size `4096`, not `-1`, and the break
stays at `4096` instead of moving by `-8192`. -/
theorem sys_sbrk_minus_two_pages :
    ∃ m : Mem, m.Ok ∧ m.sz = 4096 ∧ (m.sz : ℤ) + (-8192 : Int32).toInt < 0 ∧
      sys_sbrk m (-8192) = some (m, 4096) :=
  ⟨onePage 0, onePage_ok 0, rfl, by decide, sys_sbrk_shrink_past_zero (by decide) (by decide)⟩

end Sbrk

end Grow

end Xv6
