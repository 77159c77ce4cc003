import Xv6.Fs.ReadWrite
import Xv6.Vm.Uvm

/-!
# The ELF headers `exec` reads (`kernel/elf.h`), through `readi`

`exec` reads the file header and each program header into a struct with
`readi(ip, 0, &x, off, sizeof(x))`, and uses a few of their fields: the header's `magic`, `entry`,
`phoff` and `phnum`, and a program header's `type`, `flags`, `off`, `vaddr`, `filesz` and
`memsz`. A struct read from bytes on RISC-V holds each field little-endian at its offset, so a
header here is decoded from the bytes `readi` copied (`Elfhdr.ofBytes`, `Proghdr.ofBytes`).

`readi` into kernel memory, on an inode whose content is `f`, copies the bytes from `off` on, at
most `n` of them, and returns their number; it copies nothing from past the end or when
`off + n` wraps as a `uint` (`readi`). `readi_content` says that the file system's `Xv6.readi`
does exactly that on an inode without holes.

`leBytes w x` are the `w` low bytes of `x`, least significant first, as `copyout` copies the
`uint64` words of `ustack`; `le_leBytes` reads them back.
-/

namespace Xv6.Exec

open PageTable (PTE_X PTE_W)

/-! ### Little-endian numbers -/

/-- The number stored little-endian in the bytes `bs`. -/
def le : List UInt8 → ℕ
  | [] => 0
  | b :: bs => b.toNat + 256 * le bs

/-- The `w` low bytes of `x`, least significant first. -/
def leBytes : ℕ → ℕ → List UInt8
  | 0, _ => []
  | w + 1, x => UInt8.ofNat x :: leBytes w (x / 256)

@[simp] theorem length_leBytes : ∀ (w x : ℕ), (leBytes w x).length = w
  | 0, _ => rfl
  | w + 1, x => by rw [leBytes, List.length_cons, length_leBytes w]

/-- **The round trip of a word.** Reading back `w` little-endian bytes of `x` gives `x` modulo
`256 ^ w`. -/
theorem le_leBytes : ∀ (w x : ℕ), le (leBytes w x) = x % 256 ^ w
  | 0, x => by rw [leBytes, le, Nat.pow_zero, Nat.mod_one]
  | w + 1, x => by
    have hb : (UInt8.ofNat x).toNat = x % 256 := by simp
    rw [leBytes, le, le_leBytes w, hb, Nat.pow_succ, Nat.mul_comm _ 256, Nat.mod_mul]

example : le (leBytes 8 0x80001000) = 0x80001000 := by decide

/-- The field of `n` bytes at offset `o` of a struct read into the bytes `bs`. -/
def field (bs : List UInt8) (o n : ℕ) : ℕ := le ((bs.drop o).take n)

/-! ### The headers -/

/-- `ELF_MAGIC`: the bytes `"\x7FELF"` read as a little-endian `uint`. -/
def ELF_MAGIC : UInt32 := 0x464C457F

/-- `ELF_PROG_LOAD`: the type of a program header to load. -/
def ELF_PROG_LOAD : UInt32 := 1

/-- `sizeof(struct elfhdr)`. -/
def sizeofElfhdr : ℕ := 64

/-- `sizeof(struct proghdr)`. -/
def sizeofProghdr : ℕ := 56

/-- The fields of `struct elfhdr` that `exec` reads. -/
structure Elfhdr where
  magic : UInt32
  entry : UInt64
  phoff : UInt64
  phnum : UInt16
  deriving DecidableEq, Repr

/-- The header in the bytes `readi` copied: `magic` at byte 0, `entry` at 24, `phoff` at 32 and
`phnum` at 56. -/
def Elfhdr.ofBytes (bs : List UInt8) : Elfhdr where
  magic := UInt32.ofNat (field bs 0 4)
  entry := UInt64.ofNat (field bs 24 8)
  phoff := UInt64.ofNat (field bs 32 8)
  phnum := UInt16.ofNat (field bs 56 2)

/-- The fields of `struct proghdr` that `exec` reads. -/
structure Proghdr where
  type : UInt32
  flags : UInt32
  off : UInt64
  vaddr : UInt64
  filesz : UInt64
  memsz : UInt64
  deriving DecidableEq, Repr

/-- The program header in the bytes `readi` copied: `type` at byte 0, `flags` at 4, `off` at 8,
`vaddr` at 16, `filesz` at 32 and `memsz` at 40. -/
def Proghdr.ofBytes (bs : List UInt8) : Proghdr where
  type := UInt32.ofNat (field bs 0 4)
  flags := UInt32.ofNat (field bs 4 4)
  off := UInt64.ofNat (field bs 8 8)
  vaddr := UInt64.ofNat (field bs 16 8)
  filesz := UInt64.ofNat (field bs 32 8)
  memsz := UInt64.ofNat (field bs 40 8)

/-- `flags2perm(flags)`: `PTE_X` for an executable segment, and `PTE_W` added for a writable
one. -/
def flags2perm (flags : UInt32) : UInt64 :=
  let perm := if flags &&& 0x1 ≠ 0 then PTE_X else 0
  if flags &&& 0x2 ≠ 0 then perm ||| PTE_W else perm

/-! ### `readi` of the file's content -/

/-- `readi(ip, 0, dst, off, n)` on an inode whose content is `f`: the bytes it copies to `dst`.
It returns their number. -/
def readi (f : List UInt8) (off n : UInt32) : List UInt8 :=
  if f.length < off.toNat ∨ off + n < off then [] else (f.drop off.toNat).take n.toNat

/-- A `readi` that copies all `n` bytes copies those of the content at `off`. -/
theorem readi_of_length {f : List UInt8} {off n : UInt32} (hn : 0 < n.toNat)
    (h : (readi f off n).length = n.toNat) :
    off.toNat + n.toNat ≤ f.length ∧ readi f off n = (f.drop off.toNat).take n.toNat := by
  unfold readi at h ⊢
  split_ifs at h ⊢ with hc
  · simp only [List.length_nil] at h
    omega
  · simp only [List.length_take, List.length_drop] at h
    exact ⟨by omega, rfl⟩

/-- **The file system's `readi` is this one.** On an inode without holes, `readi` into kernel
memory copies exactly `readi (content ip d) off n`, returns its length, and changes neither the
inode nor its blocks. -/
theorem readi_content (sb : Superblock) {ip : Inode} {d : Blocks} (hh : NoHoles ip d ip.size)
    (mem : Mem) (dst : ℕ) (off n : UInt32) :
    Xv6.readi sb ip d mem false dst off n =
      some ((((readi (content ip d) off n).length : ℕ) : ℤ), ip, d,
        mem.store false dst (readi (content ip d) off n)) := by
  have hlen : (content ip d).length = ip.size := Store.length_slice _ _ _
  obtain ⟨hout, hin⟩ := readi_spec sb hh mem false dst off n
  by_cases h : ip.size < off.toNat ∨ off + n < off
  · rw [hout h, readi, if_pos (by rwa [hlen]), List.length_nil, Mem.store_nil]
    rfl
  · obtain ⟨j, hj, heq, -, hstop⟩ := hin h
    -- a kernel destination is always writable, so nothing stops the copy
    have hjl : j = min n.toNat (ip.size - off.toNat) := by
      by_contra hne
      exact hstop (by omega) fun hu => Bool.noConfusion hu
    have htake : ((content ip d).drop off.toNat).take j =
        ((content ip d).drop off.toNat).take n.toNat := by
      rw [hjl, List.take_eq_take_iff, List.length_drop, hlen]
      omega
    rw [heq, if_pos hjl, readi, if_neg (by rwa [hlen]), htake, List.length_take, List.length_drop,
      hlen, ← hjl]

end Xv6.Exec
