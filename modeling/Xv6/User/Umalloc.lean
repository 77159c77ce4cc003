import Xv6.Vm.Grow

/-!
# The user allocator (`malloc`, `free`, `morecore` in `umalloc.c`)

Kernighan and Ritchie's allocator: a circular free list of blocks, each starting with a 16-byte
`Header` (`s.ptr`, the next block, and `s.size`, the block's length in headers), through the
static `base`. `malloc` walks the list from `freep` for the first block of at least `nunits`
units, splitting off its tail if it is larger; when the walk comes round to `freep` again it
asks `morecore` for at least `4096` units from `sbrk` and walks on. `free` puts a block back
after the list block below it, merging it with its neighbours.

The model runs the code over the process memory of `Xv6.Grow`: `sbrk` is `sys_sbrk`, and every
load and store of a header field faults unless its page is mapped for the user (writable, for a
store). Loops take a `fuel` bound.

* `nunitsOf_spec`: the units `malloc` asks for always cover the request.
* `mallocLoop_size`: the block `malloc` returns has `nunits` units in its header.
* `sbrk_request_toInt`: `morecore`'s request reaches `sbrk` as asked only below `2^31` bytes;
  `nu * sizeof(Header)` is an unsigned long, and C converts it to `sbrk`'s `int`.
* `malloc_max_overlaps`: `malloc(2^32 - 1)` asks `sbrk` for `2^32 + 16` bytes, which arrive
  as `16`. It still records a block of `2^28 + 1` units and returns a pointer at the new break,
  and the next `malloc(1)` returns a pointer inside that block.
-/

namespace Xv6.Umalloc

open Grow

/-- `sizeof(Header)`: a pointer and a `uint`, padded to the alignment of `long`. -/
def HDRSIZE : ℕ := 16

/-- The two fields of a `Header`. -/
structure Header where
  /-- `s.ptr`. -/
  ptr : ℕ
  /-- `s.size`, in units of `sizeof(Header)`. -/
  size : ℕ
  deriving DecidableEq, Repr

/-- A process as `malloc` and `free` see it: the memory `sbrk` grows, the header stored at each
address, `freep` (`0` is `NULL`), and where the static `base` lies. -/
structure Heap where
  mem : Grow.Mem
  hdr : ℕ → Header
  freep : ℕ
  base : ℕ

namespace Heap

/-- A load of the `len` bytes at `a` succeeds: both ends lie in pages mapped for the user. -/
def canLoad (h : Heap) (a len : ℕ) : Bool :=
  h.mem.space.canRead (PGROUNDDOWN a) && h.mem.space.canRead (PGROUNDDOWN (a + len - 1))

/-- A store to the `len` bytes at `a` succeeds: both ends lie in writable user pages. -/
def canStore (h : Heap) (a len : ℕ) : Bool :=
  h.mem.space.canWrite (PGROUNDDOWN a) && h.mem.space.canWrite (PGROUNDDOWN (a + len - 1))

/-- A load of the field of the header at `p` that is `len` bytes at `p + off`; `none` where it
faults. -/
def load (h : Heap) (p off len : ℕ) (field : Header → ℕ) : Option ℕ :=
  if h.canLoad (p + off) len then some (field (h.hdr p)) else none

/-- A store to the field of the header at `p` that is `len` bytes at `p + off`; `none` where it
faults. -/
def store (h : Heap) (p off len : ℕ) (set : Header → Header) : Option Heap :=
  if h.canStore (p + off) len then some { h with hdr := Function.update h.hdr p (set (h.hdr p)) }
  else none

/-- `p->s.ptr`. -/
def ptr (h : Heap) (p : ℕ) : Option ℕ := h.load p 0 8 Header.ptr

/-- `p->s.size`. -/
def size (h : Heap) (p : ℕ) : Option ℕ := h.load p 8 4 Header.size

/-- `p->s.ptr = v`. -/
def setPtr (h : Heap) (p v : ℕ) : Option Heap := h.store p 0 8 fun x => { x with ptr := v }

/-- `p->s.size = v`. -/
def setSize (h : Heap) (p v : ℕ) : Option Heap := h.store p 8 4 fun x => { x with size := v }

end Heap

/-- The search loop of `free`: the list block after which `bp` goes, where `bp` lies between it
and its successor, or it is the block at the wrap point and `bp` lies beyond either end. -/
def freeSearch (h : Heap) (bp : ℕ) : (fuel p : ℕ) → Option ℕ
  | 0, _ => none
  | fuel + 1, p => do
    let q ← h.ptr p
    if bp > p && bp < q then some p
    else if p ≥ q && (bp > p || bp < q) then some p
    else freeSearch h bp fuel q

/-- `free(ap)`: join the block to its successor if it ends where that starts, then to the list
block `p` before it if that ends where it starts, and leave `freep = p`. -/
def free (fuel : ℕ) (h : Heap) (ap : ℕ) : Option Heap := do
  let bp := ap - HDRSIZE
  let p ← freeSearch h bp fuel h.freep
  let q ← h.ptr p
  let bsz ← h.size bp
  let h ← if bp + bsz * HDRSIZE = q then do
      let qsz ← h.size q
      let h ← h.setSize bp ((bsz + qsz) % 2 ^ 32)
      let qnext ← h.ptr q
      h.setPtr bp qnext
    else h.setPtr bp q
  -- the second join reads `p`'s size and `bp`'s fields again, after the first one wrote them
  let psz ← h.size p
  let h ← if p + psz * HDRSIZE = bp then do
      let bsz ← h.size bp
      let h ← h.setSize p ((psz + bsz) % 2 ^ 32)
      let bnext ← h.ptr bp
      h.setPtr p bnext
    else h.setPtr p bp
  some { h with freep := p }

/-- `morecore(nu)`: the heap and `freep`, or `0` where `sbrk` fails. -/
def morecore (fuel : ℕ) (h : Heap) (nu : ℕ) : Option (Heap × ℕ) := do
  let nu := if nu < 4096 then 4096 else nu
  -- `nu * sizeof(Header)` is an unsigned long; `sbrk` takes an `int`
  let (m, p) ← sys_sbrk h.mem (Int32.ofNat (nu * HDRSIZE))
  let h := { h with mem := m }
  if p = 2 ^ 64 - 1 then some (h, 0)
  else do
    let h ← h.setSize p nu
    let h ← free fuel h (p + HDRSIZE)
    some (h, h.freep)

/-- `nunits` for a request of `nbytes`: the payload rounded up to whole headers, and one header.
The sum is an unsigned long, stored in a `uint`. -/
def nunitsOf (nbytes : UInt32) : ℕ := ((nbytes.toNat + HDRSIZE - 1) / HDRSIZE + 1) % 2 ^ 32

/-- The loop of `malloc` at the list block `p` after `prevp`: the heap and the pointer returned.
`n` bounds the iterations and `fuel` the loops of `morecore`. -/
def mallocLoop (fuel nunits : ℕ) : (n : ℕ) → Heap → (prevp p : ℕ) → Option (Heap × ℕ)
  | 0, _, _, _ => none
  | n + 1, h, prevp, p => do
    let psz ← h.size p
    if psz ≥ nunits then
      if psz = nunits then do
        let next ← h.ptr p
        let h ← h.setPtr prevp next
        some ({ h with freep := prevp }, p + HDRSIZE)
      else do
        -- hand out the tail of the block
        let h ← h.setSize p (psz - nunits)
        let p := p + (psz - nunits) * HDRSIZE
        let h ← h.setSize p nunits
        some ({ h with freep := prevp }, p + HDRSIZE)
    else if p = h.freep then do
      let (h, p) ← morecore fuel h nunits
      if p = 0 then some (h, 0)
      else do
        let next ← h.ptr p
        mallocLoop fuel nunits n h p next
    else do
      let next ← h.ptr p
      mallocLoop fuel nunits n h p next

/-- `malloc(nbytes)`: the heap and the pointer returned, `0` where `sbrk` fails. The first call
makes `base` a list of one empty block. -/
def malloc (fuel : ℕ) (h : Heap) (nbytes : UInt32) : Option (Heap × ℕ) := do
  let nunits := nunitsOf nbytes
  let h ← if h.freep = 0 then do
      let h ← h.setPtr h.base h.base
      ({ h with freep := h.base } : Heap).setSize h.base 0
    else some h
  let p ← h.ptr h.freep
  mallocLoop fuel nunits fuel h h.freep p

/-! ### Headers -/

namespace Heap

variable {h h' : Heap} {p q off len v : ℕ}

theorem hdr_store {set : Header → Header} (hs : h.store p off len set = some h') :
    h'.hdr = Function.update h.hdr p (set (h.hdr p)) := by
  unfold store at hs
  split_ifs at hs
  rw [← Option.some.inj hs]

theorem size_setSize (hs : h.setSize p v = some h') : (h'.hdr p).size = v := by
  rw [hdr_store hs, Function.update_self]

/-- A store to `s.ptr` leaves every size as it was. -/
theorem size_setPtr (hs : h.setPtr q v = some h') (p : ℕ) : (h'.hdr p).size = (h.hdr p).size := by
  rw [hdr_store hs]
  by_cases hpq : p = q
  · subst hpq
    rw [Function.update_self]
  · rw [Function.update_of_ne hpq]

theorem size_eq_some (hs : h.size p = some v) : v = (h.hdr p).size := by
  unfold size load at hs
  split_ifs at hs
  exact (Option.some.inj hs).symm

end Heap

/-! ### What `malloc` asks for -/

/-- The units `malloc` asks for cover the request and the header, with less than one unit to
spare. -/
theorem nunitsOf_spec (nbytes : UInt32) :
    nbytes.toNat + HDRSIZE ≤ nunitsOf nbytes * HDRSIZE ∧
      nunitsOf nbytes * HDRSIZE < nbytes.toNat + 2 * HDRSIZE := by
  have hlt := UInt32.toNat_lt nbytes
  have hmod : ((nbytes.toNat + HDRSIZE - 1) / HDRSIZE + 1) % 2 ^ 32 =
      (nbytes.toNat + HDRSIZE - 1) / HDRSIZE + 1 := Nat.mod_eq_of_lt (by unfold HDRSIZE; omega)
  unfold nunitsOf
  rw [hmod]
  unfold HDRSIZE
  omega

/-- `morecore`'s request reaches `sbrk` unchanged exactly when it is below `2^31` bytes. -/
theorem sbrk_request_toInt (nu : ℕ) :
    (Int32.ofNat (nu * HDRSIZE)).toInt = nu * HDRSIZE ↔ nu * HDRSIZE < 2 ^ 31 := by
  constructor
  · intro heq
    have hlt := Int32.toInt_lt (Int32.ofNat (nu * HDRSIZE))
    omega
  · exact fun h => Int32.toInt_ofNat_of_lt h

/-- **The block `malloc` returns** has `nunits` units in its header, whichever way the loop
found it: a block that fits exactly, the tail of a larger one, or one after `morecore`. -/
theorem mallocLoop_size (fuel nunits : ℕ) : ∀ (n : ℕ) (h : Heap) (prevp p : ℕ) {h' : Heap} {r : ℕ},
    mallocLoop fuel nunits n h prevp p = some (h', r) → r ≠ 0 → (h'.hdr (r - HDRSIZE)).size = nunits
  | 0, _, _, _, _, _, hrun, _ => by simp [mallocLoop] at hrun
  | n + 1, h, prevp, p, h', r, hrun, hr => by
    simp only [mallocLoop, Option.bind_eq_bind, Option.bind_eq_some_iff] at hrun
    obtain ⟨psz, hpsz, hrun⟩ := hrun
    by_cases hge : psz ≥ nunits
    · rw [if_pos hge] at hrun
      by_cases heq : psz = nunits
      · -- the block fits exactly: only the link before it changes
        rw [if_pos heq] at hrun
        simp only [Option.bind_eq_some_iff, Option.some.injEq, Prod.mk.injEq] at hrun
        obtain ⟨next, -, h1, hset, rfl, rfl⟩ := hrun
        rw [Nat.add_sub_cancel]
        show (h1.hdr p).size = nunits
        rw [Heap.size_setPtr hset, ← Heap.size_eq_some hpsz, heq]
      · -- the tail of the block, with its own header written last
        rw [if_neg heq] at hrun
        simp only [Option.bind_eq_some_iff, Option.some.injEq, Prod.mk.injEq] at hrun
        obtain ⟨h1, -, h2, hset, rfl, rfl⟩ := hrun
        rw [Nat.add_sub_cancel]
        show (h2.hdr _).size = nunits
        exact Heap.size_setSize hset
    · rw [if_neg hge] at hrun
      by_cases hfree : p = h.freep
      · -- `morecore`, then on from the block it returns
        rw [if_pos hfree] at hrun
        simp only [Option.bind_eq_some_iff] at hrun
        obtain ⟨⟨h1, p1⟩, -, hrun⟩ := hrun
        by_cases hp1 : p1 = 0
        · rw [if_pos hp1] at hrun
          obtain ⟨-, rfl⟩ := Prod.mk.inj (Option.some.inj hrun)
          exact absurd rfl hr
        · rw [if_neg hp1] at hrun
          obtain ⟨next, -, hrun⟩ := Option.bind_eq_some_iff.mp hrun
          exact mallocLoop_size fuel nunits n h1 p1 next hrun hr
      · rw [if_neg hfree] at hrun
        obtain ⟨next, -, hrun⟩ := Option.bind_eq_some_iff.mp hrun
        exact mallocLoop_size fuel nunits n h p next hrun hr

/-! ### A request near `2^32` -/

/-- A one-page process before its first `malloc`, with `base` in its data page. -/
def heap0 : Heap where
  mem := onePage 64
  hdr _ := ⟨0, 0⟩
  freep := 0
  base := 2048

/-- `malloc(2^32 - 1)` in a one-page process moves the break by `16` bytes and returns a pointer
at the new break, and the next `malloc(1)` returns a pointer inside the bytes the first one
handed out. -/
theorem malloc_max_overlaps :
    ∃ h1 p1 h2 p2, malloc 4 heap0 4294967295 = some (h1, p1) ∧ malloc 4 h1 1 = some (h2, p2) ∧
      h1.mem.sz = heap0.mem.sz + 16 ∧ p1 = h1.mem.sz ∧ p1 < p2 ∧ p2 < p1 + 4294967295 := by
  have hrun : ((malloc 4 heap0 4294967295).bind fun r =>
      (malloc 4 r.1 1).map fun r' => (r.2, r.1.mem.sz, r'.2)) = some (4112, 4112, 69632) := by
    decide
  obtain ⟨⟨h1, p1⟩, h1eq, hrun⟩ := Option.bind_eq_some_iff.mp hrun
  obtain ⟨⟨h2, p2⟩, h2eq, hvals⟩ := Option.map_eq_some_iff.mp hrun
  simp only [Prod.mk.injEq] at hvals
  obtain ⟨rfl, hsz, rfl⟩ := hvals
  exact ⟨h1, _, h2, _, h1eq, h2eq, hsz, hsz.symm, by decide, by decide⟩

end Xv6.Umalloc
