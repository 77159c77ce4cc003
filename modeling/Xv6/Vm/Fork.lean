import Xv6.Exec.Atomic

/-!
# A new process's memory: `userinit` and `fork` (`uvmfirst` and `uvmcopy` in `vm.c`)

Every process's table comes from `allocproc`, which takes a trapframe page and calls
`proc_pagetable`. The first process gets one page from `uvmfirst`, holding `initcode`; every
other one is a `fork`, whose `uvmcopy` takes a page from `kalloc` for each page below the
parent's size, copies the parent's page into it and maps it with the parent's flags. Where
`kalloc` or `mappages` fails, `uvmcopy` unmaps and frees the pages it copied, and `fork` frees
the child with `freeproc`.

* `userinitMem_spec`: with seven free pages, the first process has the layout of size `PGSIZE`
  with `initcode` at address `0`, and every page taken is its own or its trapframe.
* `Copied old new n`: below address `n`, `new` maps each page with the flags of `old`'s entry and
  holds `old`'s bytes; `Copied.space` says the child's address space, as `copyin` and `copyout`
  see it, is then the parent's.
* `uvmcopy_spec`: from a parent with the layout of size `sz` and a child with the layout of size
  `0`, `uvmcopy` never panics, and either copies every page below `PGROUNDUP(sz)` into a child
  with the layout of size `sz`, or fails with the child back at size `0`. The pool and the
  child's owned pages add up to what they did. No bound on the pool is needed: the parent's
  layout keeps the pages below the trapframe.
* `forkMem_spec`: all of `fork`'s memory, failures included: it never panics, a `fork` that
  returns `-1` gives back every page it took, and one that succeeds has taken the child's owned
  pages and the trapframe page.
-/

namespace Xv6.Uvm

open PageTable (PTE_V PTE_R PTE_W PTE_X PTE_U)

/-- `memmove(mem, (char*)pa, PGSIZE)` into the page that will be mapped at `a`: the bytes of the
parent's page at `a`. -/
def copyPage (mem old : ℕ → UInt8) (a : ℕ) : ℕ → UInt8 :=
  fun va => if va / PGSIZE = a / PGSIZE then old va else mem va

/-- `err: uvmunmap(new, 0, i / PGSIZE, 1); return -1;`. -/
def uvmcopyErr (new : Pagetable) (free i : ℕ) : Option (Pagetable × ℕ × Bool) :=
  (uvmunmap new free 0 (i / PGSIZE) true).map fun r => (r.1, r.2, false)

/-- The loop of `uvmcopy` at `i`: the child's table, the pool, and whether it returned `0`;
`none` where it panics. `fuel` bounds the iterations. -/
def uvmcopyLoop (old : Pagetable) (sz : ℕ) : (fuel i : ℕ) → Pagetable → ℕ →
    Option (Pagetable × ℕ × Bool)
  | 0, _, new, free => some (new, free, true)
  | fuel + 1, i, new, free =>
    if i < sz then
      match walk old i with
      | none => none
      -- panic("uvmcopy: pte should exist")
      | some none => none
      | some (some pte) =>
        -- panic("uvmcopy: page not present")
        if pte &&& PTE_V = 0 then none
        else if free = 0 then uvmcopyErr new free i
        else
          match mappages { new with mem := copyPage new.mem old.mem i } (free - 1) i PGSIZE
              (PTE_FLAGS pte) with
          | none => none
          -- kfree(mem)
          | some (new, free, false) => uvmcopyErr new (free + 1) i
          | some (new, free, true) => uvmcopyLoop old sz fuel (i + PGSIZE) new free
    else some (new, free, true)

/-- `uvmcopy(old, new, sz)`: the child's table, the pool, and whether it returned `0`. -/
def uvmcopy (old new : Pagetable) (free sz : ℕ) : Option (Pagetable × ℕ × Bool) :=
  uvmcopyLoop old sz (sz / PGSIZE + 1) 0 new free

/-- `initcode`: the program the first process runs, `exec("/init")`. -/
def initcode : List UInt8 :=
  [0x17, 0x05, 0x00, 0x00, 0x13, 0x05, 0x45, 0x02,
   0x97, 0x05, 0x00, 0x00, 0x93, 0x85, 0x35, 0x02,
   0x93, 0x08, 0x70, 0x00, 0x73, 0x00, 0x00, 0x00,
   0x93, 0x08, 0x20, 0x00, 0x73, 0x00, 0x00, 0x00,
   0xef, 0xf0, 0x9f, 0xff, 0x2f, 0x69, 0x6e, 0x69,
   0x74, 0x00, 0x00, 0x24, 0x00, 0x00, 0x00, 0x00,
   0x00, 0x00, 0x00, 0x00]

/-- `uvmfirst(pagetable, src, sz)` of the bytes `src`: a zeroed page from `kalloc` mapped at `0`
with `PTE_W|PTE_R|PTE_X|PTE_U`, and `src` copied to its start. The table and the pool; `none`
where it panics. -/
def uvmfirst (pt : Pagetable) (free : ℕ) (src : List UInt8) : Option (Pagetable × ℕ) :=
  -- panic("uvmfirst: more than a page")
  if PGSIZE ≤ src.length then none
  -- `kalloc`'s `0` is not checked: the `memset` through it faults
  else if free = 0 then none
  else
    match mappages { pt with mem := zeroPage pt.mem 0 } (free - 1) 0 PGSIZE
        (PTE_W ||| PTE_R ||| PTE_X ||| PTE_U) with
    | none => none
    -- nor is what `mappages` returns: `memmove(mem, src, sz)` fills the page either way
    | some (pt, free, _) => some ({ pt with mem := Store.store id pt.mem 0 src }, free)

/-- The memory `userinit` sets up for the first process: `allocproc`'s trapframe page and
`proc_pagetable`, then `uvmfirst(p->pagetable, initcode, sizeof(initcode))`, after which
`p->sz = PGSIZE`. `userinit` checks none of it: where `allocproc` returns `0`, `uvmfirst` reads
through it, so `none`. The table and the pool. -/
def userinitMem (free : ℕ) : Option (Pagetable × ℕ) :=
  if free = 0 then none
  else
    match proc_pagetable (free - 1) with
    | some (some pt, free) => uvmfirst pt free initcode
    | _ => none

/-- The memory `fork` takes for a child of a parent with table `old` and size `sz`:
`allocproc`'s trapframe page from `kalloc` and `proc_pagetable`, then
`uvmcopy(p->pagetable, np->pagetable, p->sz)`. Where one of them fails, `freeproc(np)` gives back
the trapframe page and, once there is one, the child's table with
`proc_freepagetable(np->pagetable, 0)`: `np->sz` is still `0`. The child's table (`none` where
`fork` returns `-1`) and the pool; `none` where it panics. -/
def forkMem (old : Pagetable) (sz free : ℕ) : Option (Option Pagetable × ℕ) :=
  -- `allocproc`: `kalloc()` of the trapframe; `freeproc` then finds nothing to free
  if free = 0 then some (none, free)
  else
    match proc_pagetable (free - 1) with
    | none => none
    -- `freeproc`: `kfree(p->trapframe)`; `p->pagetable` is `0`
    | some (none, free) => some (none, free + 1)
    | some (some pt, free) =>
      match uvmcopy old pt free sz with
      | none => none
      | some (pt, free, true) => some (some pt, free)
      -- `freeproc`: `kfree(p->trapframe)`, then `proc_freepagetable(p->pagetable, p->sz)`
      | some (pt, free, false) => (proc_freepagetable pt (free + 1) 0).map fun free => (none, free)

/-- Below address `n`, `new` maps each page with the flags of `old`'s entry and holds `old`'s
bytes. -/
structure Copied (old new : Pagetable) (n : ℕ) : Prop where
  pte : ∀ pg < n / PGSIZE, new.pte pg = PTE_FLAGS (old.pte pg) ||| PTE_V
  mem : ∀ va < n, new.mem va = old.mem va

section Lemmas

open Grow (pgroundup_aligned pgroundup_of_aligned le_pgroundup pgroundup_mono)

variable {old new : Pagetable} {sz : ℕ}

/-- `PTE_FLAGS` keeps every flag. -/
theorem flags_and {m : UInt64} (x : UInt64) (hm : 0x3FF &&& m = m) : PTE_FLAGS x &&& m = x &&& m := by
  rw [PTE_FLAGS, UInt64.and_assoc, hm]

/-- The entry `uvmcopy` writes tests as the parent's for each flag but `PTE_V`. -/
theorem copied_flag {m : UInt64} (x : UInt64) (hm : 0x3FF &&& m = m) (hv : PTE_V &&& m = 0) :
    (PTE_FLAGS x ||| PTE_V) &&& m = x &&& m := by
  rw [Bits.or_and_of_disjoint _ hv, flags_and x hm]

/-- An aligned address between `s` and `PGROUNDUP(s)` is `PGROUNDUP(s)`. -/
theorem pgroundup_eq_of_le {a s : ℕ} (ha : a % PGSIZE = 0) (hup : a ≤ PGROUNDUP s) (hge : s ≤ a) :
    PGROUNDUP s = a :=
  Nat.le_antisymm ((pgroundup_mono hge).trans (pgroundup_of_aligned ha).le) hup

/-! ### The first process -/

theorem allocTable_some (tabs : Finset ℕ) (k : ℕ) {free : ℕ} (h : 0 < free) :
    ∃ r, allocTable tabs k free = some r ∧ free ≤ r.2 + 1 := by
  unfold allocTable
  by_cases hk : k ∈ tabs
  · exact ⟨_, if_pos hk, Nat.le_succ free⟩
  · rw [if_neg hk, if_neg (Nat.pos_iff_ne_zero.mp h)]
    exact ⟨_, rfl, by dsimp only; omega⟩

/-- With two pages in the pool, `walk(pagetable, va, 1)` finds or makes both tables. -/
theorem walkAlloc_ok (pt : Pagetable) {free va : ℕ} (hva : va < MAXVA) (h : 2 ≤ free) :
    ∃ r : Pagetable × ℕ, walkAlloc pt free va = some (r.1, r.2, true) := by
  obtain ⟨⟨l1, free₁⟩, h1, hle₁⟩ := allocTable_some pt.l1 (dir va) (by omega : 0 < free)
  obtain ⟨⟨l0, free₂⟩, h0, -⟩ := allocTable_some pt.l0 (tbl va) (show 0 < free₁ by dsimp only at hle₁; omega)
  refine ⟨({ pt with l1, l0 }, free₂), ?_⟩
  rw [walkAlloc, if_neg (Nat.not_le.mpr hva), h1]
  dsimp only
  rw [h0]

/-- **`mappages` of one page with two pages in the pool**: `mappages_page`, returning `0`. -/
theorem mappages_page_ok {pt : Pagetable} {va : ℕ} (hva : va < MAXVA) (ha : va % PGSIZE = 0)
    (hinv : pt.pte (va / PGSIZE) &&& PTE_V = 0) {free : ℕ} (h : 2 ≤ free) (perm : UInt64) :
    ∃ l1 l0 free', mappages pt free va PGSIZE perm =
        some ({ pt with pte := Function.update pt.pte (va / PGSIZE) (perm ||| PTE_V), l1, l0 },
          free', true) ∧
      pt.l1 ⊆ l1 ∧ pt.l0 ⊆ l0 ∧ free' + l0.card + l1.card = free + pt.l0.card + pt.l1.card ∧
      dir va ∈ l1 ∧ tbl va ∈ l0 := by
  obtain ⟨l1, l0, free', ok, hw, hs1, hs0, hc, hok, -⟩ := walkAlloc_spec pt free hva
  obtain ⟨r, hr⟩ := walkAlloc_ok pt hva h
  -- the two accounts of `walk` agree that it returned the entry
  obtain rfl : ok = true := by
    rw [hw, Option.some.injEq, Prod.mk.injEq, Prod.mk.injEq] at hr
    exact hr.2.2
  refine ⟨l1, l0, free', ?_, hs1, hs0, hc, hok rfl⟩
  rw [mappages, if_neg (by omega), if_neg (by decide), if_neg (by decide), Nat.add_sub_cancel,
    show PGSIZE / PGSIZE = 1 from rfl, mappagesLoop, hw]
  simp [hinv]

/-- `proc_pagetable` with three pages in the pool builds `trampolineTable`. -/
theorem proc_pagetable_trampoline (n : ℕ) :
    proc_pagetable (n + 3) = some (some Exec.trampolineTable, n) := rfl

/-- **`uvmfirst`'s spec** on a table with the layout of size `0` and three pages in the pool: the
layout of size `PGSIZE`, the page mapped with `uvmfirst`'s flags and holding `src` and then
zeros, and no page lost. -/
theorem uvmfirst_spec {pt : Pagetable} (h : Layout pt 0) {free : ℕ} (hfree : 3 ≤ free)
    {src : List UInt8} (hsrc : src.length < PGSIZE) :
    ∃ pt' free', uvmfirst pt free src = some (pt', free') ∧ Layout pt' PGSIZE ∧
      free' + owned pt' PGSIZE = free + owned pt 0 ∧
      pt'.pte 0 = PTE_W ||| PTE_R ||| PTE_X ||| PTE_U ||| PTE_V ∧
      ∀ va < PGSIZE, pt'.mem va = src[va]?.getD 0 := by
  have hinv : ({ pt with mem := zeroPage pt.mem 0 } : Pagetable).pte (0 / PGSIZE) &&& PTE_V = 0 :=
    h.invalid_at (by decide) (by decide)
  obtain ⟨l1, l0, free', hm, hs1, hs0, hc, hd1, hd0⟩ := mappages_page_ok (by decide) (by decide)
    hinv (show 2 ≤ free - 1 by omega) (PTE_W ||| PTE_R ||| PTE_X ||| PTE_U)
  rw [uvmfirst, if_neg (Nat.not_le.mpr hsrc), if_neg (by omega), hm]
  dsimp only
  have hleaf : Leaf ⟨Function.update pt.pte (0 / PGSIZE) (PTE_W ||| PTE_R ||| PTE_X ||| PTE_U ||| PTE_V),
      l1, l0, Store.store id (zeroPage pt.mem 0) 0 src⟩ (0 / PGSIZE) := by
    obtain ⟨hv, hr⟩ := read_leaf_flags (show (PTE_W ||| PTE_R ||| PTE_X ||| PTE_U) &&& PTE_R ≠ 0 by
      decide)
    refine ⟨?_, ?_, by rw [← dir_eq]; exact hd1, by rw [← tbl_eq]; exact hd0⟩
    · simpa using hv
    · simpa using hr
  refine ⟨_, free', rfl, ?_, ?_, by simp, fun va hva => ?_⟩
  · have hl := h.map (by decide) (by decide) hleaf (fun pg hpg => Function.update_of_ne hpg _ _)
      hs1 hs0
    rwa [Nat.zero_add] at hl
  · simp only [owned, show PGROUNDUP 0 = 0 from rfl, show PGROUNDUP PGSIZE = PGSIZE from rfl]
    simp only at hc
    simp only [PGSIZE] at *
    omega
  · -- the bytes of `src`, over the page `memset` zeroed
    show Store.store id (zeroPage pt.mem 0) 0 src va = _
    have hz : zeroPage pt.mem 0 va = 0 := if_pos (by simp only [PGSIZE] at hva ⊢; omega)
    simp only [Store.store, id, Nat.zero_le, if_true, Nat.sub_zero, hz]

/-- **The first process's memory**: with seven free pages, `userinit` never panics and gives the
first process the layout of size `PGSIZE` with `initcode` at address `0` and zeros after it;
the pages it took are the process's owned pages and its trapframe page. -/
theorem userinitMem_spec {free : ℕ} (hfree : 7 ≤ free) :
    ∃ pt free', userinitMem free = some (pt, free') ∧ Layout pt PGSIZE ∧
      free' + owned pt PGSIZE + 1 = free ∧ ∀ va < PGSIZE, pt.mem va = initcode[va]?.getD 0 := by
  obtain ⟨n, rfl⟩ : ∃ n, free = n + 4 := ⟨free - 4, by omega⟩
  obtain ⟨pt, free', h, hl, hacc, -, hmem⟩ :=
    uvmfirst_spec Exec.layout_trampolineTable (show 3 ≤ n by omega)
      (show initcode.length < PGSIZE by decide)
  refine ⟨pt, free', ?_, hl, ?_, hmem⟩
  · rw [userinitMem, if_neg (by omega), show n + 4 - 1 = n + 3 from rfl, proc_pagetable_trampoline]
    exact h
  · have h3 : owned Exec.trampolineTable 0 = 3 := rfl
    omega

/-! ### `fork` -/

theorem Copied.zero (old new : Pagetable) : Copied old new 0 :=
  ⟨fun _ h => absurd h (Nat.not_lt_zero _), fun _ h => absurd h (Nat.not_lt_zero _)⟩

/-- Copying the page at `a` into a fresh entry extends the copied range by that page. -/
theorem Copied.step {a : ℕ} (hc : Copied old new a) (ha : a % PGSIZE = 0) (l1 l0 : Finset ℕ) :
    Copied old ⟨Function.update new.pte (a / PGSIZE) (PTE_FLAGS (old.pte (a / PGSIZE)) ||| PTE_V),
      l1, l0, copyPage new.mem old.mem a⟩ (a + PGSIZE) := by
  have hdiv : (a + PGSIZE) / PGSIZE = a / PGSIZE + 1 := Nat.add_div_right _ (by decide)
  refine ⟨fun pg hpg => ?_, fun va hva => ?_⟩
  · show Function.update new.pte (a / PGSIZE) _ pg = _
    rw [hdiv] at hpg
    by_cases hpa : pg = a / PGSIZE
    · rw [hpa, Function.update_self]
    · rw [Function.update_of_ne hpa]
      exact hc.pte pg (by omega)
  · show (if va / PGSIZE = a / PGSIZE then old.mem va else new.mem va) = old.mem va
    split_ifs with hpa
    · rfl
    · -- an address below `a + PGSIZE` off `a`'s page is below `a`
      refine hc.mem va ?_
      simp only [PGSIZE] at ha hpa hva ⊢
      omega

/-- **The copy is the parent's address space.** Where both tables have their leaves, the child's
user pages, their write permission and their bytes are the parent's, as `copyin` and `copyout`
see them. -/
theorem Copied.space {n : ℕ} (hc : Copied old new n) (hn : n ≤ MAXVA) {pg : ℕ}
    (hpg : pg < n / PGSIZE) (hold : Leaf old pg) (hnew : Leaf new pg) :
    (Xv6.Uvm.space new).user pg = (Xv6.Uvm.space old).user pg ∧
      (Xv6.Uvm.space new).writable pg = (Xv6.Uvm.space old).writable pg := by
  have hdiv : pg * PGSIZE / PGSIZE = pg := Nat.mul_div_cancel _ (by decide)
  have hva : pg * PGSIZE < MAXVA := by
    simp only [PGSIZE] at hpg ⊢
    omega
  have hw : ∀ pt : Pagetable, Leaf pt pg →
      walk pt (pg * PGSIZE) = some (some (pt.pte pg)) := fun pt hl => by
    rw [walk_of_leaf hva (by rwa [hdiv]), hdiv]
  have hU := copied_flag (old.pte pg) (show 0x3FF &&& PTE_U = PTE_U by decide) (by decide)
  have hW := copied_flag (old.pte pg) (show 0x3FF &&& PTE_W = PTE_W by decide) (by decide)
  have hV : new.pte pg &&& PTE_V ≠ 0 := hnew.valid
  simp only [Xv6.Uvm.space, walkaddr, if_neg (Nat.not_le.mpr hva), hw new hnew, hw old hold,
    hc.pte pg hpg]
  rw [hc.pte pg hpg] at hV
  refine ⟨?_, by rw [hW]⟩
  rw [hU]
  simp [hV, hold.valid]

/-- `uvmunmap` of the user pages of a layout frees them and leaves the layout of size `0`. -/
theorem uvmcopyErr_spec {i : ℕ} (h : Layout new i) (hi : i % PGSIZE = 0) (free : ℕ) :
    ∃ new', uvmcopyErr new free i = some (new', free + i / PGSIZE, false) ∧ Layout new' 0 ∧
      free + i / PGSIZE + owned new' 0 = free + owned new i := by
  have hmax : 0 + i / PGSIZE * PGSIZE ≤ MAXVA := by
    have := h.le_trapframe
    have : TRAPFRAME ≤ MAXVA := by decide
    rw [pgroundup_of_aligned hi] at *
    rw [Nat.zero_add, Nat.div_mul_cancel (Nat.dvd_of_mod_eq_zero hi)]
    omega
  have hl : Layout (new.clear 0 (i / PGSIZE)) 0 := by
    simpa using h.clear_above hi (show 0 % PGSIZE = 0 by decide) (Nat.zero_le i)
  refine ⟨new.clear 0 (i / PGSIZE), ?_, hl, ?_⟩
  · rw [uvmcopyErr, uvmunmap, if_neg (by decide), uvmunmapLoop_eq true _ new free 0 (by decide)
      hmax fun k hk => h.leaf _ ?_]
    · rfl
    · unfold Kept
      rw [pgroundup_div hi, Nat.zero_div, Nat.zero_add]
      exact .inl hk
  · simp only [owned, clear_l0, clear_l1, pgroundup_div hi, show PGROUNDUP 0 = 0 from rfl,
      Nat.zero_div]
    omega

/-- **The loop of `uvmcopy`** at `i`, with the child copied and laid out up to `i`: on success
the child has the layout of size `sz` and every page below `PGROUNDUP(sz)` copied, on failure the
layout of size `0`. The pool and the child's owned pages keep their sum `F`. -/
theorem uvmcopyLoop_spec (hold : Layout old sz) {F : ℕ} :
    ∀ (fuel i : ℕ) (new : Pagetable) (free : ℕ), i % PGSIZE = 0 → i ≤ PGROUNDUP sz →
      sz ≤ i + fuel * PGSIZE → Layout new i → free + owned new i = F → Copied old new i →
      ∃ new' free' ok, uvmcopyLoop old sz fuel i new free = some (new', free', ok) ∧
        (ok = true ∧ Layout new' sz ∧ free' + owned new' sz = F ∧ Copied old new' (PGROUNDUP sz) ∨
          ok = false ∧ Layout new' 0 ∧ free' + owned new' 0 = F) := by
  -- past `sz` the loop has reached `PGROUNDUP(sz)`: the copied layout is the parent's
  have hdone : ∀ (i : ℕ) (new : Pagetable) (free : ℕ), i % PGSIZE = 0 → i ≤ PGROUNDUP sz →
      sz ≤ i → Layout new i → free + owned new i = F → Copied old new i →
      Layout new sz ∧ free + owned new sz = F ∧ Copied old new (PGROUNDUP sz) := by
    intro i new free hi hup hge hl hacc hc
    have heq := pgroundup_eq_of_le hi hup hge
    have hs : PGROUNDUP i = PGROUNDUP sz := by rw [heq, pgroundup_of_aligned hi]
    exact ⟨hl.of_pgroundup hs, by rwa [← owned_of_pgroundup hs], heq ▸ hc⟩
  -- a failed `kalloc` or `mappages` at `i`: the `err:` path frees what was copied
  have hundo : ∀ (i : ℕ) (new : Pagetable) (free : ℕ), i % PGSIZE = 0 → Layout new i →
      free + owned new i = F →
      ∃ new' free', uvmcopyErr new free i = some (new', free', false) ∧ Layout new' 0 ∧
        free' + owned new' 0 = F := by
    intro i new free hi hl hacc
    obtain ⟨new', heq, hl', hacc'⟩ := uvmcopyErr_spec hl hi free
    exact ⟨new', _, heq, hl', hacc'.trans hacc⟩
  intro fuel
  induction fuel with
  | zero =>
    intro i new free hi hup hfuel hl hacc hc
    obtain ⟨hl', hacc', hc'⟩ := hdone i new free hi hup (by simpa using hfuel) hl hacc hc
    exact ⟨new, free, true, rfl, .inl ⟨rfl, hl', hacc', hc'⟩⟩
  | succ fuel ih =>
    intro i new free hi hup hfuel hl hacc hc
    rw [uvmcopyLoop]
    by_cases hlt : i < sz
    swap
    · rw [if_neg hlt]
      obtain ⟨hl', hacc', hc'⟩ := hdone i new free hi hup (by omega) hl hacc hc
      exact ⟨new, free, true, rfl, .inl ⟨rfl, hl', hacc', hc'⟩⟩
    rw [if_pos hlt]
    -- the page at `i` is the parent's, below the trapframe
    have hroom : i + PGSIZE ≤ PGROUNDUP sz := by
      have h₁ := le_pgroundup sz
      have h₂ := pgroundup_aligned sz
      simp only [PGSIZE] at *
      omega
    have hT := hold.le_trapframe
    have hva : i < MAXVA := by
      have : TRAPFRAME ≤ MAXVA := by decide
      simp only [PGSIZE] at hroom
      omega
    have hpg : i / PGSIZE < PGROUNDUP sz / PGSIZE :=
      Nat.div_lt_div_of_lt_of_dvd (Nat.dvd_of_mod_eq_zero (pgroundup_aligned sz))
        (by simp only [PGSIZE] at hroom ⊢; omega)
    have hleaf := hold.leaf _ (.inl hpg)
    rw [walk_of_leaf hva hleaf]
    dsimp only
    rw [if_neg hleaf.valid]
    by_cases h0 : free = 0
    · rw [if_pos h0]
      obtain ⟨new', free', heq, hl', hacc'⟩ := hundo i new free hi hl hacc
      exact ⟨new', free', false, heq, .inr ⟨rfl, hl', hacc'⟩⟩
    rw [if_neg h0]
    have hinv : ({ new with mem := copyPage new.mem old.mem i } : Pagetable).pte (i / PGSIZE) &&&
        PTE_V = 0 :=
      hl.invalid_at hi (by simp only [PGSIZE] at hroom ⊢; omega)
    obtain ⟨l1, l0, free', ok, hm, hs1, hs0, hc', hok, -⟩ :=
      mappages_page hva hi hinv (free - 1) (PTE_FLAGS (old.pte (i / PGSIZE)))
    rw [hm]
    cases ok with
    | false =>
      -- `kfree(mem)` and `err:`, with the tables `walk` took kept in the child
      dsimp only
      have hl₁ : Layout ({ new with mem := copyPage new.mem old.mem i, l1, l0 } : Pagetable) i :=
        hl.tables rfl hs1 hs0
      obtain ⟨new', free'', heq, hl', hacc'⟩ := hundo i _ (free' + 1) hi hl₁ (by
        simp only [owned] at hacc ⊢
        simp only at hc'
        omega)
      exact ⟨new', free'', false, heq, .inr ⟨rfl, hl', hacc'⟩⟩
    | true =>
      obtain ⟨hd1, hd0⟩ := hok rfl
      have hr : PTE_FLAGS (old.pte (i / PGSIZE)) &&& PTE_R ≠ 0 := by
        rw [flags_and _ (by decide)]
        exact hleaf.read
      obtain ⟨hv', hr'⟩ := read_leaf_flags hr
      have hleaf' : Leaf ⟨Function.update new.pte (i / PGSIZE)
          (PTE_FLAGS (old.pte (i / PGSIZE)) ||| PTE_V), l1, l0, copyPage new.mem old.mem i⟩
          (i / PGSIZE) := by
        refine ⟨?_, ?_, by rw [← dir_eq]; exact hd1, by rw [← tbl_eq]; exact hd0⟩
        · simpa using hv'
        · simpa using hr'
      have hl' := hl.map hi (hroom.trans hT) hleaf' (fun pg hpg => Function.update_of_ne hpg _ _)
        hs1 hs0
      have hi' : (i + PGSIZE) % PGSIZE = 0 := by rw [Nat.add_mod_right]; exact hi
      refine ih (i + PGSIZE) _ free' hi' hroom (by rw [Nat.succ_mul] at hfuel; omega) hl' ?_
        (hc.step hi l1 l0)
      simp only [owned] at hacc ⊢
      rw [pgroundup_div hi'] at ⊢
      rw [pgroundup_div hi] at hacc
      simp only at hc'
      rw [Nat.add_div_right _ (by decide)]
      omega

/-- **`uvmcopy`'s spec**: from a parent with the layout of size `sz` and a child with the layout
of size `0`, it never panics; it either returns `0` with the child at the layout of size `sz`
and every page below `PGROUNDUP(sz)` copied, or `-1` with the child back at size `0`. The pool
and the child's owned pages add up to what they did. -/
theorem uvmcopy_spec (hold : Layout old sz) (hnew : Layout new 0) (free : ℕ) :
    ∃ new' free' ok, uvmcopy old new free sz = some (new', free', ok) ∧
      (ok = true ∧ Layout new' sz ∧ free' + owned new' sz = free + owned new 0 ∧
          Copied old new' (PGROUNDUP sz) ∨
        ok = false ∧ Layout new' 0 ∧ free' + owned new' 0 = free + owned new 0) :=
  uvmcopyLoop_spec hold (sz / PGSIZE + 1) 0 new free (by decide) (Nat.zero_le _)
    (by simp only [PGSIZE]; omega) hnew rfl (Copied.zero old new)

/-- **`fork`'s memory**: from a parent with the layout of size `sz`, it never panics. A `fork`
that returns `-1` leaves the pool as it found it: every page `allocproc` and `uvmcopy` took is
given back. One that succeeds gives the child the layout of size `sz` with every user page
copied, and has taken from the pool exactly the child's owned pages and its trapframe page. -/
theorem forkMem_spec (hold : Layout old sz) (free : ℕ) :
    forkMem old sz free = some (none, free) ∨
      ∃ new free', forkMem old sz free = some (some new, free') ∧ Layout new sz ∧
        free' + owned new sz + 1 = free ∧ Copied old new (PGROUNDUP sz) := by
  by_cases h0 : free = 0
  · left
    rw [forkMem, if_pos h0]
  rw [forkMem, if_neg h0]
  rcases proc_pagetable_spec (free - 1) with hp | ⟨pt, free₁, hp, hl, hacc⟩
  · -- `proc_pagetable` failed with its pages back; `freeproc` frees the trapframe
    left
    rw [hp]
    exact congrArg (fun n => some (none, n)) (by omega)
  rw [hp]
  dsimp only
  obtain ⟨new', free', ok, hc, hr⟩ := uvmcopy_spec hold hl free₁
  rw [hc]
  rcases hr with ⟨rfl, hl', hacc', hcp⟩ | ⟨rfl, hl', hacc'⟩
  · right
    exact ⟨new', free', rfl, hl', by omega, hcp⟩
  · -- `freeproc`: the trapframe, then the child's table at size `0`
    left
    dsimp only
    rw [proc_freepagetable_eq hl' (free' + 1)]
    exact congrArg (fun n => some (none, n)) (by omega)

/-- The first `fork`, by the first process, with the pool `userinit` leaves of a pool of
sixty-four pages: it succeeds. -/
theorem forkMem_spec_initproc :
    ∃ old free₀ new free', userinitMem 64 = some (old, free₀) ∧ Layout old PGSIZE ∧
      forkMem old PGSIZE free₀ = some (some new, free') ∧ Layout new PGSIZE ∧
      free' + owned new PGSIZE + 1 = free₀ ∧ Copied old new (PGROUNDUP PGSIZE) := by
  obtain ⟨old, free₀, hinit, hl, -, -⟩ := userinitMem_spec (show 7 ≤ 64 by decide)
  have hrun : ((userinitMem 64).bind fun r => (forkMem r.1 PGSIZE r.2).map fun r => r.1.isSome) =
      some true := by
    decide
  rw [hinit, Option.bind_some] at hrun
  rcases forkMem_spec hl free₀ with hnone | ⟨new, free', hfork, hl', hacc, hc⟩
  · simp [hnone] at hrun
  · exact ⟨old, free₀, new, free', hinit, hl, hfork, hl', hacc, hc⟩

end Lemmas

end Xv6.Uvm
