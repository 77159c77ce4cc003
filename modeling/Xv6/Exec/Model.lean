import Xv6.Exec.Elf
import Xv6.Lib.Ends
import Xv6.Param

/-!
# `exec` (`kernel/exec.c`)

`exec(path, argv)` builds a new user image in a page table of its own and only then replaces the
calling process's: it reads the ELF header, allocates and reads each `LOAD` segment, adds a guard
page and a stack page, pushes the argument strings and the array of pointers to them, and on
success commits the table, the size, the name and the registers and frees the old table. Every
failure before the commit is a `goto bad`, which frees the new table with the size reached so
far.

The routine is modelled as it is written. Each stage between `proc_pagetable` and the commit is a
computation in `ExceptT Image Option` (`Xv6.Lib.Ends`): `none` is a panic, `throw img` is
`goto bad` with the table, the pool and `sz` the cleanup sees, and the loops are `List.foldlM`
over the program headers and over `argv`. The file is its content, as `readi` sees it
(`Xv6.Exec.readi`), and `namei` finding it or not is whether there is one. What `exec` does to
the file system is the list of calls it makes on it (`Call`): `begin_op`, `namei`, and for a
file found `ilock`, `iunlockput` and `end_op`.

`uint64` arithmetic is kept where it can wrap: `sp -= strlen(s) + 1` is `sub64`, and `va + i`
in `loadseg` is taken modulo `2 ^ 64`. The `int` and `uint` conversions of the source are kept
too: the program header offset `off` is an `int` passed to `readi` as a `uint`, and `loadseg`
takes the segment's `offset` and `sz` as `uint`s, so both are cut to 32 bits.
-/

namespace Xv6.Exec

open Uvm
open PageTable (PTE_W)

/-- A string in kernel memory: its bytes before the NUL. -/
structure CStr where
  bytes : List UInt8
  no_nul : 0 ∉ bytes

/-- The registers of `p->trapframe` that `exec` sets. -/
structure Trapframe where
  epc : ℕ
  sp : ℕ
  a1 : ℕ
  deriving DecidableEq, Repr

/-- What `exec` reads and changes of the calling process. -/
structure Proc where
  pagetable : Pagetable
  sz : ℕ
  trapframe : Trapframe
  /-- The bytes of `p->name[16]`. -/
  name : ℕ → UInt8

/-- The new image while `exec` builds it: its table, the pool of free pages, and `sz`. -/
structure Image where
  pt : Pagetable
  free : ℕ
  sz : ℕ

/-- The file-system calls `exec` makes. -/
inductive Call
  | begin_op
  | namei
  | ilock
  | iunlockput
  | end_op
  deriving DecidableEq, Repr

/-- What `exec` returns and leaves: its return value, the process, the pool, and its calls on the
file system. -/
structure Result where
  ret : ℤ
  proc : Proc
  free : ℕ
  calls : List Call

/-- `a - b` on `uint64`. -/
def sub64 (a b : ℕ) : ℕ := (a + (2 ^ 64 - b % 2 ^ 64)) % 2 ^ 64

/-! ### `loadseg` -/

/-- The loop of `loadseg(pagetable, va, ip, offset, sz)` at `i`: for each page, `walkaddr` of
`va + i` and a `readi` of up to a page to the start of the page it returns. `none` is the panic
`"loadseg: address should exist"`, or the loop running out of `fuel`, which it does only where
`i += PGSIZE` wraps around the `uint`. -/
def loadsegLoop (va : ℕ) (f : List UInt8) (offset sz : UInt32) :
    (fuel : ℕ) → (i : UInt32) → Pagetable → Option (Pagetable × Bool)
  | 0, i, pt => if i < sz then none else some (pt, true)
  | fuel + 1, i, pt =>
    if i < sz then
      let a := (va + i.toNat) % 2 ^ 64
      if !walkaddr pt a then none
      else
        let n : UInt32 := if sz - i < UInt32.ofNat PGSIZE then sz - i else UInt32.ofNat PGSIZE
        let bs := readi f (offset + i) n
        let pt := { pt with mem := Store.store id pt.mem (PGROUNDDOWN a) bs }
        if bs.length ≠ n.toNat then some (pt, false)
        else loadsegLoop va f offset sz fuel (i + UInt32.ofNat PGSIZE) pt
    else some (pt, true)

/-- `loadseg(pagetable, va, ip, offset, sz)`: the table with the segment's bytes read into it,
and whether it returned `0`. -/
def loadseg (pt : Pagetable) (va : ℕ) (f : List UInt8) (offset sz : UInt32) :
    Option (Pagetable × Bool) :=
  loadsegLoop va f offset sz (sz.toNat / PGSIZE + 1) 0 pt

/-! ### The segments -/

/-- One iteration of the loop over the program headers: the header at file offset `off`, and for
a `LOAD` segment its pages allocated by `uvmalloc` and its bytes read by `loadseg`. -/
def loadPh (f : List UInt8) (off : UInt32) (img : Image) : ExceptT Image Option Image :=
  let b := readi f off (UInt32.ofNat sizeofProghdr)
  if b.length ≠ sizeofProghdr then throw img else
  let ph := Proghdr.ofBytes b
  if ph.type ≠ ELF_PROG_LOAD then pure img else
  if ph.memsz < ph.filesz then throw img else
  if ph.vaddr + ph.memsz < ph.vaddr then throw img else
  if ph.vaddr % UInt64.ofNat PGSIZE ≠ 0 then throw img else do
  let (pt, free, sz1) ← uvmalloc img.pt img.free img.sz (ph.vaddr + ph.memsz).toNat
    (flags2perm ph.flags)
  if sz1 = 0 then throw ⟨pt, free, img.sz⟩ else do
  let (pt, ok) ← loadseg pt ph.vaddr.toNat f ph.off.toUInt32 ph.filesz.toUInt32
  if !ok then throw ⟨pt, free, sz1⟩ else
  pure ⟨pt, free, sz1⟩

/-- The file offset of program header `i`: `off = elf.phoff` and `off += sizeof(ph)`, an `int`
passed to `readi` as a `uint`. -/
def phOff (elf : Elfhdr) (i : ℕ) : UInt32 := UInt32.ofNat (elf.phoff.toNat + sizeofProghdr * i)

/-- `for(i=0, off=elf.phoff; i<elf.phnum; i++, off+=sizeof(ph))`. -/
def loadSegs (f : List UInt8) (elf : Elfhdr) (img : Image) : ExceptT Image Option Image :=
  (List.range elf.phnum.toNat).foldlM (fun img i => loadPh f (phOff elf i) img) img

/-! ### The stack -/

/-- One iteration of the loop that pushes the argument strings, with `argc = ustack.length`
strings pushed so far below `sp`. -/
def pushArg (stackbase : ℕ) : Image × ℕ × List ℕ → CStr → ExceptT Image Option (Image × ℕ × List ℕ)
  | (img, sp, ustack), s =>
    if MAXARG ≤ ustack.length then throw img else
    let sp := sub64 sp (s.bytes.length + 1)
    let sp := sp - sp % 16
    if sp < stackbase then throw img else
    let r := Uvm.copyout img.pt sp (s.bytes ++ [0])
    if !r.2 then throw { img with pt := r.1 } else
    pure ({ img with pt := r.1 }, sp, ustack ++ [sp])

/-- From `sz = PGROUNDUP(sz)` to the copy of `ustack`: the guard and stack pages, the argument
strings, and the array of pointers to them ended by `0`. It returns the image, `sp` and
`argc`. -/
def stack (img : Image) (argv : List CStr) : ExceptT Image Option (Image × ℕ × ℕ) := do
  let sz := PGROUNDUP img.sz
  let (pt, free, sz1) ← uvmalloc img.pt img.free sz (sz + 2 * PGSIZE) PTE_W
  if sz1 = 0 then throw ⟨pt, free, sz⟩ else do
  let pt ← uvmclear pt (sz1 - 2 * PGSIZE)
  let stackbase := sz1 - PGSIZE
  let (img, sp, ustack) ← argv.foldlM (pushArg stackbase) (⟨pt, free, sz1⟩, sz1, [])
  let sp := sub64 sp ((ustack.length + 1) * 8)
  let sp := sp - sp % 16
  if sp < stackbase then throw img else
  let r := Uvm.copyout img.pt sp ((ustack ++ [0]).flatMap (leBytes 8))
  if !r.2 then throw { img with pt := r.1 } else
  pure ({ img with pt := r.1 }, sp, ustack.length)

/-! ### The program name -/

/-- Where the name starts: `for(last=s=path; *s; s++) if(*s == '/') last = s+1;`, with `s` and
`last` as offsets into the path. -/
def lastStart : List UInt8 → (s last : ℕ) → ℕ
  | [], _, last => last
  | c :: cs, s, last => lastStart cs (s + 1) (if c = 47 then s + 1 else last)

/-- The loop `while(--n > 0 && (*s++ = *t++) != 0)` of `safestrcpy` and the `*s = 0` after it,
with `n` the count before the decrement and `i` the offset of `s` and `t`. -/
def safestrcpyLoop (t : List UInt8) : (n i : ℕ) → (ℕ → UInt8) → ℕ → UInt8
  | 0, _, s => s
  | n + 1, i, s =>
    if n = 0 then Function.update s i 0
    else
      let c := t.getD i 0
      let s := Function.update s i c
      if c = 0 then Function.update s (i + 1) 0 else safestrcpyLoop t n (i + 1) s

/-- `safestrcpy(s, t, n)` into the bytes `s`, from the string `t`. -/
def safestrcpy (s : ℕ → UInt8) (t : List UInt8) (n : ℕ) : ℕ → UInt8 :=
  if n = 0 then s else safestrcpyLoop t n 0 s

/-! ### `exec` -/

/-- `exec(path, argv)` of the file `file` (`none` where `namei` finds nothing), by the process
`p`, with `free` pages in the pool. `none` is a panic. -/
def exec (p : Proc) (free : ℕ) (file : Option (List UInt8)) (path : CStr) (argv : List CStr) :
    Option Result :=
  match file with
  | none => some ⟨-1, p, free, [.begin_op, .namei, .end_op]⟩
  | some f =>
    let calls := [Call.begin_op, .namei, .ilock, .iunlockput, .end_op]
    let hdr := readi f 0 (UInt32.ofNat sizeofElfhdr)
    if hdr.length ≠ sizeofElfhdr then some ⟨-1, p, free, calls⟩ else
    let elf := Elfhdr.ofBytes hdr
    if elf.magic ≠ ELF_MAGIC then some ⟨-1, p, free, calls⟩ else
    match proc_pagetable free with
    | none => none
    | some (none, free) => some ⟨-1, p, free, calls⟩
    | some (some pt, free) =>
      match (loadSegs f elf ⟨pt, free, 0⟩ >>= fun img => stack img argv).run with
      | none => none
      | some (.error img) =>
        (proc_freepagetable img.pt img.free img.sz).map fun free => ⟨-1, p, free, calls⟩
      | some (.ok (img, sp, argc)) =>
        let p' : Proc :=
          { pagetable := img.pt
            sz := img.sz
            trapframe := { p.trapframe with a1 := sp, epc := elf.entry.toNat, sp := sp }
            name := safestrcpy p.name (path.bytes.drop (lastStart path.bytes 0 0)) 16 }
        (proc_freepagetable p.pagetable img.free p.sz).map fun free => ⟨argc, p', free, calls⟩

end Xv6.Exec
