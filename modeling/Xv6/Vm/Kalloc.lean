import Xv6.Exec.Elf
import Xv6.Lib.Reach
import Xv6.Lib.Count
import Mathlib.Algebra.Order.Group.Multiset
import Mathlib.Data.Multiset.OrderedMonoid
import Mathlib.Data.Multiset.UnionInter

/-!
# The physical page allocator (`kernel/kalloc.c`)

`kmem.freelist` is a singly linked list threaded through the free pages themselves: the first
eight bytes of a free page hold the `struct run *` of the next one, little-endian, and `0` ends
the list. `kfree(pa)` checks that `pa` is a page of the pool, fills it with `1`s and pushes it;
`kalloc()` pops the head and fills it with `5`s. The pool is what `kinit` hands to `kfree`: every
page from `PGROUNDUP(end)` up to `PHYSTOP`, where `end`, the first address after the kernel, is
the parameter `kend`.

Only the push and the pop run under `kmem.lock`; the two `memset`s run outside it, on a page that
is off the list. The allocator is therefore modelled on `NCPU` CPUs, each making its call in two
steps (`Sys`, `step`), with the rest of the kernel storing bytes in between. The callers' side of
the contract is `Legal`: `kfree` only of a page `kalloc` returned and no `kfree` took back, and
stores only into such a page or outside the pool.

* `kinit_spec`: `kinit` puts every page of the pool on the list, highest first.
* `Wf`: the list is a chain of distinct pool pages through memory, and with the pages the
  callers hold and those in flight on a CPU it is the pool, each page once (`reachable_wf`).
* `kfree_twice`: `kfree` does not notice a page freed twice; the list then loops on it.
-/

namespace Xv6.Kalloc

open Exec (le leBytes le_leBytes length_leBytes)
open Uvm (PHYSTOP)

/-! ### `kmem` and the two calls -/

/-- `memset(dst, c, n)`. -/
def memset (mem : ℕ → UInt8) (dst : ℕ) (c : UInt8) (n : ℕ) : ℕ → UInt8 :=
  Store.store id mem dst (List.replicate n c)

/-- `r->next` of the `struct run` at `r`: the pointer in its first eight bytes. -/
def loadNext (mem : ℕ → UInt8) (r : ℕ) : ℕ := le (Store.slice mem r 8)

/-- `r->next = p`. -/
def storeNext (mem : ℕ → UInt8) (r p : ℕ) : ℕ → UInt8 := Store.store id mem r (leBytes 8 p)

/-- `kmem` without its lock: the head of the free list, `0` for none, and the physical memory
the list is threaded through. -/
structure Kmem where
  freelist : ℕ
  mem : ℕ → UInt8

/-- The part of `kfree(pa)` before `acquire(&kmem.lock)`: the test, then
`memset(pa, 1, PGSIZE)`. `none` is `panic("kfree")`. -/
def kfreeFill (kend : ℕ) (m : Kmem) (pa : ℕ) : Option Kmem :=
  if pa % PGSIZE ≠ 0 ∨ pa < kend ∨ PHYSTOP ≤ pa then none
  else some { m with mem := memset m.mem pa 1 PGSIZE }

/-- The part of `kfree(pa)` under `kmem.lock`: `r->next = kmem.freelist; kmem.freelist = r;`. -/
def kfreePush (m : Kmem) (pa : ℕ) : Kmem :=
  { freelist := pa, mem := storeNext m.mem pa m.freelist }

/-- `kfree(pa)` on one CPU. -/
def kfree (kend : ℕ) (m : Kmem) (pa : ℕ) : Option Kmem :=
  (kfreeFill kend m pa).map fun m => kfreePush m pa

/-- The part of `kalloc()` under `kmem.lock`: `r = kmem.freelist; if(r) kmem.freelist = r->next;`.
The `r` it goes on with is the `freelist` it started from. -/
def kallocPop (m : Kmem) : Kmem :=
  if m.freelist ≠ 0 then { m with freelist := loadNext m.mem m.freelist } else m

/-- The part of `kalloc()` after `release(&kmem.lock)`: `if(r) memset((char*)r, 5, PGSIZE);`. -/
def kallocFill (m : Kmem) (r : ℕ) : Kmem :=
  if r ≠ 0 then { m with mem := memset m.mem r 5 PGSIZE } else m

/-- `kalloc()` on one CPU: the page it returns, `0` when there is none, and `kmem` after. -/
def kalloc (m : Kmem) : ℕ × Kmem := (m.freelist, kallocFill (kallocPop m) m.freelist)

/-- The loop of `freerange(pa_start, pa_end)` at `p`:
`for(; p + PGSIZE <= (char*)pa_end; p += PGSIZE) kfree(p);`. -/
def freerangeLoop (kend pa_end : ℕ) (m : Kmem) (p : ℕ) : Option Kmem :=
  if _ : p + PGSIZE ≤ pa_end then
    (kfree kend m p).bind fun m => freerangeLoop kend pa_end m (p + PGSIZE)
  else some m
termination_by pa_end - p
decreasing_by
  simp only [PGSIZE] at *
  omega

/-- `freerange(pa_start, pa_end)`: from `p = PGROUNDUP(pa_start)` on. -/
def freerange (kend : ℕ) (m : Kmem) (pa_start pa_end : ℕ) : Option Kmem :=
  freerangeLoop kend pa_end m (PGROUNDUP pa_start)

/-- `kinit()` on `kmem` as the kernel image leaves it: `freelist` zero, memory anything. -/
def kinit (kend : ℕ) (mem : ℕ → UInt8) : Option Kmem :=
  freerange kend ⟨0, mem⟩ kend PHYSTOP

/-! ### The pool -/

/-- The `n` pages from `p` on. -/
def pagesFrom (p : ℕ) : ℕ → List ℕ
  | 0 => []
  | n + 1 => p :: pagesFrom (p + PGSIZE) n

/-- **The pool**: the pages `kinit` hands to `kfree`, from `PGROUNDUP(end)` up to `PHYSTOP`. -/
def pool (kend : ℕ) : List ℕ := pagesFrom (PGROUNDUP kend) ((PHYSTOP - PGROUNDUP kend) / PGSIZE)

theorem mem_pagesFrom {q : ℕ} : ∀ {p n : ℕ}, q ∈ pagesFrom p n ↔ ∃ i < n, q = p + i * PGSIZE
  | _, 0 => by simp [pagesFrom]
  | p, n + 1 => by
    rw [pagesFrom, List.mem_cons, mem_pagesFrom]
    constructor
    · rintro (rfl | ⟨i, hi, rfl⟩)
      · exact ⟨0, by omega, by omega⟩
      · exact ⟨i + 1, by omega, by rw [Nat.succ_mul]; omega⟩
    · rintro ⟨_ | i, hi, rfl⟩
      · exact .inl (by omega)
      · exact .inr ⟨i, by omega, by rw [Nat.succ_mul]; omega⟩

theorem pagesFrom_nodup : ∀ (p n : ℕ), (pagesFrom p n).Nodup
  | _, 0 => List.nodup_nil
  | p, n + 1 => by
    refine List.nodup_cons.mpr ⟨fun h => ?_, pagesFrom_nodup _ n⟩
    obtain ⟨i, -, hi⟩ := mem_pagesFrom.mp h
    simp only [PGSIZE] at hi
    omega

theorem phystop_eq : PHYSTOP = 0x88000000 := rfl

/-- **The pool is the pages `kfree` accepts.** -/
theorem mem_pool {kend pa : ℕ} : pa ∈ pool kend ↔ pa % PGSIZE = 0 ∧ kend ≤ pa ∧ pa < PHYSTOP := by
  rw [pool, mem_pagesFrom, phystop_eq]
  simp only [PGROUNDUP, PGSIZE]
  constructor
  · rintro ⟨i, hi, rfl⟩
    omega
  · rintro ⟨h₁, h₂, h₃⟩
    exact ⟨(pa - (kend + 4096 - 1) / 4096 * 4096) / 4096, by omega, by omega⟩

theorem pool_nodup (kend : ℕ) : (pool kend).Nodup := pagesFrom_nodup _ _

section Pool

variable {kend pa : ℕ}

theorem aligned_of_mem_pool (h : pa ∈ pool kend) : pa % PGSIZE = 0 := (mem_pool.mp h).1

theorem ne_zero_of_mem_pool (hend : 0 < kend) (h : pa ∈ pool kend) : pa ≠ 0 := by
  have := (mem_pool.mp h).2.1
  omega

theorem lt_of_mem_pool (h : pa ∈ pool kend) : pa < 2 ^ 64 := by
  have := (mem_pool.mp h).2.2
  rw [phystop_eq] at this
  omega

/-- `kfree` of a pool page passes the test and fills the page with `1`s. -/
theorem kfreeFill_of_mem_pool (m : Kmem) (h : pa ∈ pool kend) :
    kfreeFill kend m pa = some { m with mem := memset m.mem pa 1 PGSIZE } := by
  obtain ⟨h₁, h₂, h₃⟩ := mem_pool.mp h
  rw [kfreeFill, if_neg (by omega)]

end Pool

/-! ### The free list in memory -/

/-- **The free list**: following `r->next` from `p` visits the pages `F` in order and ends at
`0`. -/
def Chain (mem : ℕ → UInt8) : ℕ → List ℕ → Prop
  | p, [] => p = 0
  | p, q :: F => p = q ∧ q ≠ 0 ∧ Chain mem (loadNext mem q) F

/-- `mem'` differs from `mem` only in the page at `pa`. -/
def OnlyPage (pa : ℕ) (mem mem' : ℕ → UInt8) : Prop :=
  ∀ a, a < pa ∨ pa + PGSIZE ≤ a → mem' a = mem a

section Memory

variable {mem mem' : ℕ → UInt8} {p pa : ℕ} {F : List ℕ}

theorem Chain.eq_nil (h : Chain mem 0 F) : F = [] := by
  cases F with
  | nil => rfl
  | cons q F =>
    obtain ⟨rfl, hq, -⟩ := h
    exact absurd rfl hq

/-- The head of a chain is `0` or its first page. -/
theorem Chain.head_mem (h : Chain mem p F) : p = 0 ∨ p ∈ F := by
  cases F with
  | nil => exact .inl h
  | cons q F => exact .inr (h.1 ▸ List.mem_cons_self)

/-- A store of at most a page from `pa` changes only that page. -/
theorem onlyPage_store (mem : ℕ → UInt8) (pa : ℕ) {xs : List UInt8} (h : xs.length ≤ PGSIZE) :
    OnlyPage pa mem (Store.store id mem pa xs) := by
  rintro a (ha | ha)
  · exact Store.store_of_lt ha
  · exact Store.store_of_le (by simp only [id]; omega)

theorem onlyPage_memset (mem : ℕ → UInt8) (pa : ℕ) (c : UInt8) :
    OnlyPage pa mem (memset mem pa c PGSIZE) :=
  onlyPage_store mem pa (by simp)

theorem onlyPage_storeNext (mem : ℕ → UInt8) (pa p : ℕ) : OnlyPage pa mem (storeNext mem pa p) :=
  onlyPage_store mem pa (by simp [PGSIZE])

/-- A byte stored at `a` changes only the page of `a`. -/
theorem onlyPage_update (mem : ℕ → UInt8) (a : ℕ) (v : UInt8) :
    OnlyPage (PGROUNDDOWN a) mem (Function.update mem a v) := by
  intro b hb
  apply Function.update_of_ne
  rintro rfl
  simp only [PGROUNDDOWN, PGSIZE] at hb
  omega

/-- The pointer stored at `r` reads back, as a `uint64`. -/
theorem loadNext_storeNext (mem : ℕ → UInt8) (r p : ℕ) : loadNext (storeNext mem r p) r = p % 2 ^ 64 := by
  have h := Store.slice_store mem r (leBytes 8 p)
  rw [length_leBytes] at h
  rw [loadNext, storeNext, h, le_leBytes]
  rfl

/-- **Frame rule.** A change to a page off the list leaves the list as it was. -/
theorem Chain.frame (hpa : pa % PGSIZE = 0) (hm : OnlyPage pa mem mem') :
    ∀ {p : ℕ} {F : List ℕ}, (∀ q ∈ F, q % PGSIZE = 0 ∧ q ≠ pa) → Chain mem p F → Chain mem' p F
  | _, [], _, h => h
  | p, q :: F, hF, h => by
    obtain ⟨hp, hq, hrest⟩ := h
    obtain ⟨hqa, hqpa⟩ := hF q List.mem_cons_self
    -- the eight bytes of `q->next` lie in page `q`, which is not page `pa`
    have hnext : loadNext mem' q = loadNext mem q := by
      rw [loadNext, loadNext]
      congr 1
      refine Store.slice_congr fun i hi => hm _ ?_
      simp only [PGSIZE] at hpa hqa ⊢
      omega
    refine ⟨hp, hq, ?_⟩
    rw [hnext]
    exact Chain.frame hpa hm (fun q' hq' => hF q' (List.mem_cons_of_mem q hq')) hrest

/-- **Push.** Storing the head in page `pa` and making `pa` the head adds `pa` in front. -/
theorem Chain.push (h : Chain mem p F) (hpa : pa % PGSIZE = 0) (hpa0 : pa ≠ 0)
    (hF : ∀ q ∈ F, q % PGSIZE = 0 ∧ q ≠ pa) (hp : p < 2 ^ 64) :
    Chain (storeNext mem pa p) pa (pa :: F) := by
  refine ⟨rfl, hpa0, ?_⟩
  rw [loadNext_storeNext, Nat.mod_eq_of_lt hp]
  exact h.frame hpa (onlyPage_storeNext mem pa p) hF

/-- The head of a chain of pool pages is a `uint64`. -/
theorem Chain.lt {kend : ℕ} (h : Chain mem p F) (hF : ∀ q ∈ F, q ∈ pool kend) : p < 2 ^ 64 := by
  rcases h.head_mem with rfl | hp
  · exact Nat.two_pow_pos 64
  · exact lt_of_mem_pool (hF p hp)

end Memory

/-! ### `kinit` -/

section Init

variable {kend : ℕ}

/-- **`kfree` on one CPU** of a pool page off the list puts it in front. -/
theorem kfree_spec (hend : 0 < kend) {m : Kmem} {F : List ℕ} {pa : ℕ} (hpa : pa ∈ pool kend)
    (hc : Chain m.mem m.freelist F) (hF : ∀ q ∈ F, q ∈ pool kend ∧ q ≠ pa) :
    ∃ m', kfree kend m pa = some m' ∧ Chain m'.mem m'.freelist (pa :: F) := by
  have hal : ∀ q ∈ F, q % PGSIZE = 0 ∧ q ≠ pa :=
    fun q hq => ⟨aligned_of_mem_pool (hF q hq).1, (hF q hq).2⟩
  refine ⟨_, by rw [kfree, kfreeFill_of_mem_pool m hpa]; rfl, ?_⟩
  have hc₁ : Chain (memset m.mem pa 1 PGSIZE) m.freelist F :=
    hc.frame (aligned_of_mem_pool hpa) (onlyPage_memset m.mem pa 1) hal
  exact hc₁.push (aligned_of_mem_pool hpa) (ne_zero_of_mem_pool hend hpa) hal
    (hc.lt fun q hq => (hF q hq).1)

theorem pagesFrom_succ_reverse (p n : ℕ) (F : List ℕ) :
    (pagesFrom p (n + 1)).reverse ++ F = (pagesFrom (p + PGSIZE) n).reverse ++ p :: F := by
  simp [pagesFrom]

/-- **The loop of `freerange`**: from `p` on, each page pushed in turn, so the list runs down
from the last one to the pages it held before. -/
theorem freerangeLoop_spec (hend : 0 < kend) {pa_end : ℕ} (hpe : pa_end ≤ PHYSTOP) :
    ∀ (n p : ℕ) (m : Kmem) (F : List ℕ), (pa_end - p) / PGSIZE = n → p % PGSIZE = 0 →
      kend ≤ p → (∀ q ∈ F, q ∈ pool kend ∧ q < p) → Chain m.mem m.freelist F →
      ∃ m', freerangeLoop kend pa_end m p = some m' ∧
        Chain m'.mem m'.freelist ((pagesFrom p n).reverse ++ F)
  | 0, p, m, F, hn, _, _, _, hc => by
    have hstop : ¬ p + PGSIZE ≤ pa_end := by
      simp only [PGSIZE] at hn ⊢
      omega
    rw [freerangeLoop, dif_neg hstop]
    exact ⟨m, rfl, hc⟩
  | n + 1, p, m, F, hn, hp, hkp, hF, hc => by
    have hgo : p + PGSIZE ≤ pa_end := by
      simp only [PGSIZE] at hn ⊢
      omega
    have hpool : p ∈ pool kend := mem_pool.mpr ⟨hp, hkp, by simp only [PGSIZE] at hgo; omega⟩
    obtain ⟨m₁, hm₁, hc₁⟩ :=
      kfree_spec hend hpool hc fun q hq => ⟨(hF q hq).1, (Nat.ne_of_lt (hF q hq).2)⟩
    obtain ⟨m', hm', hc'⟩ := freerangeLoop_spec hend hpe n (p + PGSIZE) m₁ (p :: F)
      (by simp only [PGSIZE] at hn ⊢; omega) (by simp only [PGSIZE] at hp ⊢; omega)
      (by simp only [PGSIZE]; omega)
      (fun q hq => by
        rcases List.mem_cons.mp hq with rfl | hq
        · exact ⟨hpool, by simp [PGSIZE]⟩
        · exact ⟨(hF q hq).1, by have := (hF q hq).2; simp only [PGSIZE]; omega⟩)
      hc₁
    refine ⟨m', ?_, by rw [pagesFrom_succ_reverse]; exact hc'⟩
    rw [freerangeLoop, dif_pos hgo, hm₁, Option.bind_some, hm']

/-- **`kinit`** puts every page of the pool on the free list, highest first. -/
theorem kinit_spec (hend : 0 < kend) (mem : ℕ → UInt8) :
    ∃ m, kinit kend mem = some m ∧ Chain m.mem m.freelist (pool kend).reverse := by
  have hal : PGROUNDUP kend % PGSIZE = 0 := by simp only [PGROUNDUP, PGSIZE]; omega
  have hle : kend ≤ PGROUNDUP kend := by simp only [PGROUNDUP, PGSIZE]; omega
  obtain ⟨m, hm, hc⟩ := freerangeLoop_spec hend le_rfl _ (PGROUNDUP kend) ⟨0, mem⟩ [] rfl hal hle
    (fun _ h => absurd h List.not_mem_nil) rfl
  exact ⟨m, hm, by simpa [pool] using hc⟩

/-- The pages `n` successive `kalloc`s on one CPU return. -/
def kallocs : ℕ → Kmem → List ℕ
  | 0, _ => []
  | n + 1, m => (kalloc m).1 :: kallocs n (kalloc m).2

/-- **`kalloc` on one CPU** takes the free list in order, then returns `0`. -/
theorem kallocs_of_chain : ∀ (n : ℕ) {m : Kmem} {F : List ℕ}, Chain m.mem m.freelist F →
    F.Nodup → (∀ q ∈ F, q ∈ pool kend) →
      kallocs n m = F.take n ++ List.replicate (n - F.length) 0
  | 0, _, _, _, _, _ => by simp [kallocs]
  | n + 1, m, [], hc, _, _ => by
    -- an empty list: `kalloc` changes nothing and returns `0`
    have hr : m.freelist = 0 := hc
    have hk : kalloc m = (0, m) := by simp [kalloc, kallocPop, kallocFill, hr]
    rw [kallocs, hk, kallocs_of_chain n (hr ▸ hc) List.nodup_nil (fun _ h => absurd h List.not_mem_nil)]
    simp [List.replicate_succ]
  | n + 1, m, q :: F, hc, hnd, hF => by
    obtain ⟨hq, hq0, hrest⟩ := hc
    have hqF : q ∉ F := (List.nodup_cons.mp hnd).1
    have hk : kalloc m = (q, { freelist := loadNext m.mem q, mem := memset m.mem q 5 PGSIZE }) := by
      simp [kalloc, kallocPop, kallocFill, hq, hq0]
    -- the `memset` of the page taken leaves the rest of the list alone
    have hrest' : Chain (memset m.mem q 5 PGSIZE) (loadNext m.mem q) F :=
      hrest.frame (aligned_of_mem_pool (hF q List.mem_cons_self)) (onlyPage_memset _ q 5)
        fun q' hq' => ⟨aligned_of_mem_pool (hF q' (List.mem_cons_of_mem q hq')),
          fun h => hqF (h ▸ hq')⟩
    rw [kallocs, hk, kallocs_of_chain n hrest' (List.nodup_cons.mp hnd).2
      fun q' hq' => hF q' (List.mem_cons_of_mem q hq')]
    simp

/-- **After `kinit`**, successive `kalloc`s return the pool from the top page down, and `0` once
it is used up. -/
theorem kinit_kallocs (hend : 0 < kend) (mem : ℕ → UInt8) (n : ℕ) :
    ∃ m, kinit kend mem = some m ∧
      kallocs n m = (pool kend).reverse.take n ++ List.replicate (n - (pool kend).length) 0 := by
  obtain ⟨m, hm, hc⟩ := kinit_spec hend mem
  refine ⟨m, hm, ?_⟩
  rw [kallocs_of_chain n hc (List.nodup_reverse.mpr (pool_nodup kend))
    fun q hq => List.mem_reverse.mp hq, List.length_reverse]

theorem kinit_kallocs_top : ∃ m, kinit 0x87FFF000 (fun _ => 0) = some m ∧
    kallocs 2 m = (pool 0x87FFF000).reverse.take 2 ++ List.replicate (2 - (pool 0x87FFF000).length) 0 :=
  kinit_kallocs (by decide) _ 2

end Init

/-! ### The allocator on `NCPU` CPUs -/

/-- Where a CPU is in the allocator. -/
inductive Pc
  /-- Outside both calls. -/
  | idle
  /-- In `kfree(pa)` after the `memset`, before `acquire(&kmem.lock)`. -/
  | freeing (pa : ℕ)
  /-- In `kalloc()` after `release(&kmem.lock)` with `r ≠ 0`, before the `memset`. -/
  | filling (r : ℕ)
  deriving DecidableEq

/-- The page a CPU has in flight. -/
def Pc.pages : Pc → Multiset ℕ
  | .idle => 0
  | .freeing pa => {pa}
  | .filling r => {r}

/-- The pages in flight on the CPUs. -/
def inflight (pc : Fin NCPU → Pc) : Multiset ℕ := ∑ c, (pc c).pages

/-- The allocator, the CPUs in it, and (ghost) the pages `kalloc` returned that no `kfree` has
taken back. -/
structure Sys where
  kmem : Kmem
  pc : Fin NCPU → Pc
  held : Multiset ℕ

/-- A request: a CPU calls `kfree(pa)` or `kalloc()` or goes on with its call, or the rest of the
kernel stores a byte. -/
inductive Op
  | kfree (c : Fin NCPU) (pa : ℕ)
  | kalloc (c : Fin NCPU)
  | resume (c : Fin NCPU)
  | write (a : ℕ) (v : UInt8)

/-- One step; `none` where it panics or the CPU is not where the request needs it. A `kalloc`
that finds the list empty returns `0` at once. -/
def step (kend : ℕ) (s : Sys) : Op → Option Sys
  | .kfree c pa =>
    if s.pc c = .idle then
      (kfreeFill kend s.kmem pa).map fun m =>
        { kmem := m, pc := Function.update s.pc c (.freeing pa), held := s.held.erase pa }
    else none
  | .kalloc c =>
    if s.pc c = .idle then
      some { s with
        kmem := kallocPop s.kmem
        pc := Function.update s.pc c
          (if s.kmem.freelist ≠ 0 then .filling s.kmem.freelist else .idle) }
    else none
  | .resume c =>
    match s.pc c with
    | .idle => none
    | .freeing pa => some { s with kmem := kfreePush s.kmem pa, pc := Function.update s.pc c .idle }
    | .filling r =>
      some { kmem := kallocFill s.kmem r, pc := Function.update s.pc c .idle, held := r ::ₘ s.held }
  | .write a v => some { s with kmem := { s.kmem with mem := Function.update s.kmem.mem a v } }

/-- **The callers' contract**: `kfree` only of a page they hold, and stores only into a page
they hold or outside the pool. -/
def Legal (kend : ℕ) (s : Sys) : Op → Prop
  | .kfree _ pa => pa ∈ s.held
  | .write a _ => PGROUNDDOWN a ∉ pool kend ∨ PGROUNDDOWN a ∈ s.held
  | _ => True

instance instDecidableLegal (kend : ℕ) (s : Sys) : (op : Op) → Decidable (Legal kend s op)
  | .kfree _ pa => inferInstanceAs (Decidable (pa ∈ s.held))
  | .kalloc _ => inferInstanceAs (Decidable True)
  | .resume _ => inferInstanceAs (Decidable True)
  | .write a _ => inferInstanceAs (Decidable (PGROUNDDOWN a ∉ pool kend ∨ PGROUNDDOWN a ∈ s.held))

/-- A step the callers' contract allows. -/
def callerStep (kend : ℕ) (s : Sys) (op : Op) : Option Sys :=
  if Legal kend s op then step kend s op else none

/-- The states at boot: `kinit` done from any memory, every CPU idle, no page held. -/
def Init (kend : ℕ) (s : Sys) : Prop :=
  (∃ mem, kinit kend mem = some s.kmem) ∧ s.pc = (fun _ => .idle) ∧ s.held = 0

/-- The states the allocator reaches with callers that keep the contract. -/
def Reachable (kend : ℕ) : Sys → Prop :=
  Reach.Reachable (Init kend) (callerStep kend) fun _ => True

/-- **The allocator's invariant.** The free list is a chain through memory, and its pages, the
pages the callers hold and the pages in flight on a CPU are the pool, each page once. -/
def Wf (kend : ℕ) (s : Sys) : Prop :=
  ∃ F : List ℕ, Chain s.kmem.mem s.kmem.freelist F ∧
    (F : Multiset ℕ) + s.held + inflight s.pc = pool kend

/-! ### The invariant, step by step -/

/-- One CPU moves: the pages in flight lose its old page and gain its new one. -/
theorem inflight_update (pc : Fin NCPU → Pc) (c : Fin NCPU) (x : Pc) :
    inflight (Function.update pc c x) + (pc c).pages = inflight pc + x.pages := by
  have h : (fun c' => (Function.update pc c x c').pages) =
      Function.update (fun c' => (pc c').pages) c x.pages := by
    funext c'
    by_cases hc : c' = c
    · subst hc
      simp
    · simp [Function.update_of_ne hc]
  rw [inflight, inflight, h]
  exact Count.sum_update_add _ c x.pages

/-- A CPU that was idle puts its new page in flight. -/
theorem inflight_start {pc : Fin NCPU → Pc} {c : Fin NCPU} (hc : pc c = .idle) (x : Pc) :
    inflight (Function.update pc c x) = inflight pc + x.pages := by
  have h := inflight_update pc c x
  rwa [hc, show Pc.idle.pages = 0 from rfl, add_zero] at h

/-- A CPU that goes idle takes its page out of flight. -/
theorem inflight_stop {pc : Fin NCPU → Pc} {c : Fin NCPU} {x : Pc} (hc : pc c = x) :
    inflight (Function.update pc c .idle) + x.pages = inflight pc := by
  have h := inflight_update pc c .idle
  rwa [hc, show Pc.idle.pages = 0 from rfl, add_zero] at h

section Parts

variable {kend a : ℕ} {F H I : Multiset ℕ}

/-- The parts of the pool are apart. -/
theorem nodup_of_eq_pool (h : F + H + I = pool kend) : (F + H + I).Nodup :=
  h ▸ Multiset.coe_nodup.mpr (pool_nodup kend)

theorem mem_pool_of_mem (h : F + H + I = pool kend) (ha : a ∈ F + H + I) : a ∈ pool kend := by
  rw [h] at ha
  exact Multiset.mem_coe.mp ha

theorem mem_pool_of_free (h : F + H + I = pool kend) (ha : a ∈ F) : a ∈ pool kend :=
  mem_pool_of_mem h (Multiset.mem_add.mpr (.inl (Multiset.mem_add.mpr (.inl ha))))

theorem not_mem_free_of_held (h : F + H + I = pool kend) (ha : a ∈ H) : a ∉ F := fun hf =>
  Multiset.disjoint_left.mp (Multiset.nodup_add.mp (Multiset.nodup_add.mp (nodup_of_eq_pool h)).1).2.2
    hf ha

theorem not_mem_free_of_inflight (h : F + H + I = pool kend) (ha : a ∈ I) : a ∉ F := fun hf =>
  Multiset.disjoint_left.mp (Multiset.nodup_add.mp (nodup_of_eq_pool h)).2.2
    (Multiset.mem_add.mpr (.inl hf)) ha

/-- The free pages are pool pages other than a page held or in flight. -/
theorem free_off (h : F + H + I = pool kend) {pa : ℕ} (hpa : pa ∈ H ∨ pa ∈ I) :
    ∀ q ∈ F, q ∈ pool kend ∧ q ≠ pa := by
  intro q hq
  refine ⟨mem_pool_of_free h hq, ?_⟩
  rintro rfl
  rcases hpa with hpa | hpa
  · exact not_mem_free_of_held h hpa hq
  · exact not_mem_free_of_inflight h hpa hq

end Parts

section Steps

variable {kend : ℕ} {s t : Sys}

/-- The page a CPU has in flight is among the pages in flight. -/
theorem mem_inflight {pc : Fin NCPU → Pc} {c : Fin NCPU} {pa : ℕ}
    (h : pc c = .freeing pa ∨ pc c = .filling pa) : pa ∈ inflight pc := by
  have hpa : (pc c).pages = {pa} := by rcases h with h | h <;> rw [h] <;> rfl
  rw [← inflight_stop (rfl : pc c = pc c), hpa]
  exact Multiset.mem_add.mpr (.inr (Multiset.mem_singleton_self pa))

/-- A free list of pool pages apart from `pa` is one of aligned pages apart from `pa`. -/
theorem aligned_off {F : List ℕ} {pa : ℕ} (hF : ∀ q ∈ F, q ∈ pool kend ∧ q ≠ pa) :
    ∀ q ∈ F, q % PGSIZE = 0 ∧ q ≠ pa :=
  fun q hq => ⟨aligned_of_mem_pool (hF q hq).1, (hF q hq).2⟩

/-- **`kfree(pa)` of a held page**: the page leaves the callers, is filled outside the lock and
is in flight. -/
theorem Wf.kfree (hw : Wf kend s) {c : Fin NCPU} {pa : ℕ} (hpa : pa ∈ s.held)
    (h : step kend s (.kfree c pa) = some t) : Wf kend t := by
  obtain ⟨F, hc, hF⟩ := hw
  have hpool : pa ∈ pool kend := mem_pool_of_mem hF (by simp [hpa])
  simp only [step] at h
  split_ifs at h with hidle
  rw [kfreeFill_of_mem_pool _ hpool, Option.map_some, Option.some.injEq] at h
  subst h
  refine ⟨F, hc.frame (aligned_of_mem_pool hpool) (onlyPage_memset _ pa 1)
    (aligned_off (free_off hF (.inl hpa))), ?_⟩
  dsimp only
  rw [← hF, inflight_start hidle, Pc.pages]
  conv_rhs => rw [← Multiset.cons_erase hpa]
  rw [← Multiset.singleton_add]
  ac_rfl

/-- **`kalloc()`**: the head leaves the list and is in flight; an empty list changes nothing. -/
theorem Wf.kalloc (hw : Wf kend s) {c : Fin NCPU} (h : step kend s (.kalloc c) = some t) :
    Wf kend t := by
  obtain ⟨F, hc, hF⟩ := hw
  have hidle : s.pc c = .idle := by
    by_contra hne
    simp [step, hne] at h
  rw [step, if_pos hidle, Option.some.injEq] at h
  subst h
  by_cases hr : s.kmem.freelist = 0
  · -- `r == 0`: the list is empty and the CPU is idle again
    have hpc : (if s.kmem.freelist ≠ 0 then Pc.filling s.kmem.freelist else .idle) = .idle :=
      if_neg (not_not.mpr hr)
    have hpop : kallocPop s.kmem = s.kmem := if_neg (not_not.mpr hr)
    rw [hpc, ← hidle, Function.update_eq_self, hpop]
    exact ⟨F, hc, hF⟩
  · cases F with
    | nil => exact absurd hc hr
    | cons q F =>
      obtain ⟨hq, -, hrest⟩ := hc
      have hpc : (if s.kmem.freelist ≠ 0 then Pc.filling s.kmem.freelist else .idle) =
          .filling q := by rw [if_pos hr, hq]
      have hpop : kallocPop s.kmem = { s.kmem with freelist := loadNext s.kmem.mem q } := by
        rw [kallocPop, if_pos hr, hq]
      rw [hpc, hpop]
      refine ⟨F, hrest, ?_⟩
      rw [inflight_start hidle, Pc.pages, ← hF, ← Multiset.cons_coe, ← Multiset.singleton_add]
      ac_rfl

/-- **The locked part of `kfree`**: the page in flight goes in front of the list. -/
theorem Wf.push (hend : 0 < kend) (hw : Wf kend s) {c : Fin NCPU} {pa : ℕ}
    (hpc : s.pc c = .freeing pa) :
    Wf kend { s with kmem := kfreePush s.kmem pa, pc := Function.update s.pc c .idle } := by
  obtain ⟨F, hc, hF⟩ := hw
  have hin : pa ∈ inflight s.pc := mem_inflight (.inl hpc)
  have hpool : pa ∈ pool kend := mem_pool_of_mem hF (by simp [hin])
  have hoff := free_off hF (.inr hin)
  refine ⟨pa :: F, hc.push (aligned_of_mem_pool hpool) (ne_zero_of_mem_pool hend hpool)
    (aligned_off hoff) (hc.lt fun q hq => (hoff q hq).1), ?_⟩
  rw [← hF, ← inflight_stop hpc, Pc.pages, ← Multiset.cons_coe, ← Multiset.singleton_add]
  ac_rfl

/-- **The `memset` of `kalloc`**: the page in flight goes to the caller. -/
theorem Wf.fill (hw : Wf kend s) {c : Fin NCPU} {r : ℕ} (hpc : s.pc c = .filling r) :
    Wf kend
      { kmem := kallocFill s.kmem r, pc := Function.update s.pc c .idle, held := r ::ₘ s.held } := by
  obtain ⟨F, hc, hF⟩ := hw
  have hin : r ∈ inflight s.pc := mem_inflight (.inr hpc)
  have hpool : r ∈ pool kend := mem_pool_of_mem hF (by simp [hin])
  refine ⟨F, ?_, ?_⟩
  · by_cases hr : r = 0
    · simpa [kallocFill, hr] using hc
    · simpa [kallocFill, hr] using hc.frame (aligned_of_mem_pool hpool) (onlyPage_memset _ r 5)
        (aligned_off (free_off hF (.inr hin)))
  · dsimp only
    rw [← hF, ← inflight_stop hpc, Pc.pages, ← Multiset.singleton_add]
    ac_rfl

/-- **A store by the rest of the kernel** into its own memory leaves the list alone. -/
theorem Wf.write (hw : Wf kend s) {a : ℕ} {v : UInt8}
    (hlegal : PGROUNDDOWN a ∉ pool kend ∨ PGROUNDDOWN a ∈ s.held) :
    Wf kend { s with kmem := { s.kmem with mem := Function.update s.kmem.mem a v } } := by
  obtain ⟨F, hc, hF⟩ := hw
  have hoff : ∀ q ∈ F, q % PGSIZE = 0 ∧ q ≠ PGROUNDDOWN a := by
    intro q hq
    have hqpool : q ∈ pool kend := mem_pool_of_free hF hq
    refine ⟨aligned_of_mem_pool hqpool, ?_⟩
    rintro rfl
    rcases hlegal with hout | hheld
    · exact hout hqpool
    · exact not_mem_free_of_held hF hheld hq
  have hal : PGROUNDDOWN a % PGSIZE = 0 := by simp only [PGROUNDDOWN, PGSIZE]; omega
  exact ⟨F, hc.frame hal (onlyPage_update _ a v) hoff, hF⟩

/-- **Every step the contract allows keeps the invariant.** -/
theorem Wf.step (hend : 0 < kend) (hw : Wf kend s) {op : Op} (h : callerStep kend s op = some t) :
    Wf kend t := by
  unfold callerStep at h
  split_ifs at h with hlegal
  cases op with
  | kfree c pa => exact hw.kfree hlegal h
  | kalloc c => exact hw.kalloc h
  | resume c =>
    simp only [Kalloc.step] at h
    split at h
    · cases h
    · rw [Option.some.injEq] at h
      subst h
      exact hw.push hend ‹_›
    · rw [Option.some.injEq] at h
      subst h
      exact hw.fill ‹_›
  | write a v =>
    rw [Kalloc.step, Option.some.injEq] at h
    subst h
    exact hw.write hlegal

/-- The boot states satisfy the invariant: the whole pool is on the list. -/
theorem wf_init (hend : 0 < kend) (h : Init kend s) : Wf kend s := by
  obtain ⟨⟨mem, hm⟩, hpc, hheld⟩ := h
  obtain ⟨m, hm', hc⟩ := kinit_spec hend mem
  rw [hm, Option.some.injEq] at hm'
  refine ⟨(pool kend).reverse, hm' ▸ hc, ?_⟩
  have hi : inflight s.pc = 0 := by simp [inflight, hpc, Pc.pages]
  rw [hheld, hi, add_zero, add_zero, Multiset.coe_reverse]

/-- **The invariant holds in every reachable state.** -/
theorem reachable_wf (hend : 0 < kend) (h : Reachable kend s) : Wf kend s :=
  Reach.Reachable.invariant (fun _ => wf_init hend) (fun _ _ _ hw _ => hw.step hend) h

/-- The state `kinit` leaves, every CPU idle and no page held, is reachable. -/
theorem reachable_boot (hend : 0 < kend) (mem : ℕ → UInt8) :
    ∃ m, Chain m.mem m.freelist (pool kend).reverse ∧ Reachable kend ⟨m, fun _ => .idle, 0⟩ := by
  obtain ⟨m, hm, hc⟩ := kinit_spec hend mem
  exact ⟨m, hc, Reach.Reachable.init ⟨⟨mem, hm⟩, rfl, rfl⟩⟩

end Steps

/-! ### What the invariant gives the callers -/

section Callers

variable {kend : ℕ} {s : Sys}

/-- **No page is handed out twice.** In a reachable state the page `kalloc` would return, if
any, is a pool page that no caller holds and no CPU has in flight. -/
theorem kalloc_unheld (hend : 0 < kend) (h : Reachable kend s) (hr : (kalloc s.kmem).1 ≠ 0) :
    (kalloc s.kmem).1 ∈ pool kend ∧ (kalloc s.kmem).1 ∉ s.held ∧
      (kalloc s.kmem).1 ∉ inflight s.pc := by
  obtain ⟨F, hc, hF⟩ := reachable_wf hend h
  have hmem : s.kmem.freelist ∈ F := hc.head_mem.resolve_left hr
  have hfree : s.kmem.freelist ∈ (F : Multiset ℕ) := Multiset.mem_coe.mpr hmem
  refine ⟨mem_pool_of_free hF hfree, fun hh => not_mem_free_of_held hF hh hfree, fun hi => not_mem_free_of_inflight hF hi hfree⟩

/-- The boot state of a machine whose kernel ends one page below `PHYSTOP`: its one page is on
the list. -/
theorem kalloc_unheld_top : ∃ s, Reachable 0x87FFF000 s ∧ (kalloc s.kmem).1 = 0x87FFF000 ∧
    (kalloc s.kmem).1 ∈ pool 0x87FFF000 ∧ (kalloc s.kmem).1 ∉ s.held ∧
      (kalloc s.kmem).1 ∉ inflight s.pc := by
  obtain ⟨m, hc, hs⟩ := reachable_boot (by decide : 0 < 0x87FFF000) fun _ => 0
  have hpool : pool 0x87FFF000 = [0x87FFF000] := by decide
  rw [hpool] at hc
  have hr : (kalloc m).1 = 0x87FFF000 := hc.1
  exact ⟨_, hs, hr, kalloc_unheld (by decide) hs (by rw [hr]; decide)⟩

/-- **No page is lost.** In a reachable state `kalloc` returns `0` exactly when every page of the
pool is held by a caller or in flight on a CPU. -/
theorem kalloc_zero_iff (hend : 0 < kend) (h : Reachable kend s) :
    (kalloc s.kmem).1 = 0 ↔ s.held + inflight s.pc = pool kend := by
  obtain ⟨F, hc, hF⟩ := reachable_wf hend h
  constructor
  · intro hr
    have hnil : F = [] := (show Chain s.kmem.mem 0 F from hr ▸ hc).eq_nil
    rw [hnil, Multiset.coe_nil, zero_add] at hF
    exact hF
  · intro hall
    -- the free pages are what is left of the pool
    have hF0 : (F : Multiset ℕ) = 0 := by
      rw [← hall, add_assoc] at hF
      exact add_eq_right.mp hF
    have hnil : F = [] := (Multiset.coe_eq_zero F).mp hF0
    rw [hnil] at hc
    exact hc

theorem kalloc_zero_iff_top : ∃ s, Reachable 0x87FFF000 s ∧
    ((kalloc s.kmem).1 = 0 ↔ s.held + inflight s.pc = pool 0x87FFF000) := by
  obtain ⟨m, -, hs⟩ := reachable_boot (by decide : 0 < 0x87FFF000) fun _ => 0
  exact ⟨_, hs, kalloc_zero_iff (by decide) hs⟩

/-- **A page freed twice is not caught.** `kfree` accepts a page a second time; its `next` then
points to itself, and the next two `kalloc`s both return it. The contract rules this out: a
page leaves `held` when it is freed. -/
theorem kfree_twice (hend : 0 < kend) (m : Kmem) {pa : ℕ} (hpa : pa ∈ pool kend) :
    ∃ m', ((kfree kend m pa).bind fun m => kfree kend m pa) = some m' ∧
      (kalloc m').1 = pa ∧ (kalloc (kalloc m').2).1 = pa := by
  have hpa0 := ne_zero_of_mem_pool hend hpa
  let m₁ := kfreePush { m with mem := memset m.mem pa 1 PGSIZE } pa
  let m₂ := kfreePush { m₁ with mem := memset m₁.mem pa 1 PGSIZE } pa
  have h₁ : kfree kend m pa = some m₁ := by rw [kfree, kfreeFill_of_mem_pool m hpa]; rfl
  have h₂ : kfree kend m₁ pa = some m₂ := by rw [kfree, kfreeFill_of_mem_pool m₁ hpa]; rfl
  -- the second push stores `pa` itself in page `pa`
  have hself : loadNext m₂.mem pa = pa := by
    rw [show m₂.mem = storeNext (memset m₁.mem pa 1 PGSIZE) pa pa from rfl, loadNext_storeNext,
      Nat.mod_eq_of_lt (lt_of_mem_pool hpa)]
  have hpop : (kalloc m₂).2.freelist = pa := by
    simp only [kalloc, kallocFill, kallocPop, show m₂.freelist = pa from rfl, hpa0, ne_eq,
      not_false_eq_true, if_true, hself]
  exact ⟨m₂, by rw [h₁, Option.bind_some, h₂], rfl, hpop⟩

theorem kfree_twice_boot :
    ∃ m', ((kfree 0x80021000 ⟨0, fun _ => 0⟩ 0x80021000).bind fun m => kfree 0x80021000 m 0x80021000) =
      some m' ∧ (kalloc m').1 = 0x80021000 ∧ (kalloc (kalloc m').2).1 = 0x80021000 :=
  kfree_twice (by decide) _ (mem_pool.mpr (by decide))

end Callers

end Xv6.Kalloc
