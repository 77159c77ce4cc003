import Mathlib.Data.Nat.Basic
import Mathlib.Algebra.Ring.Nat

/-!
# Constants of `kernel/param.h` and `kernel/fs.h`

The sizes the kernel is compiled with, under their C names.
-/

namespace Xv6

/-- `NPROC`: maximum number of processes. -/
def NPROC : ℕ := 64

/-- `NCPU`: maximum number of CPUs. -/
def NCPU : ℕ := 8

/-- `MAXARG`: the most arguments `exec` takes. -/
def MAXARG : ℕ := 32

/-- `NINODE`: maximum number of active inodes, the size of the inode table. -/
def NINODE : ℕ := 50

/-- `ROOTDEV`: device number of the file system root disk. -/
def ROOTDEV : UInt32 := 1

/-- `MAXOPBLOCKS`: the most blocks any file-system operation writes. -/
def MAXOPBLOCKS : ℕ := 10

/-- `LOGSIZE`: the most data blocks in the on-disk log. -/
def LOGSIZE : ℕ := MAXOPBLOCKS * 3

/-- `NBUF`: size of the disk block cache. -/
def NBUF : ℕ := MAXOPBLOCKS * 3

/-- `FSSIZE`: size of the file system in blocks, as `mkfs` builds it. -/
def FSSIZE : ℕ := 2000

/-- `BSIZE`: block size in bytes. -/
def BSIZE : ℕ := 1024

/-- `NDIRECT`: direct block addresses in an inode. -/
def NDIRECT : ℕ := 12

/-- `NINDIRECT`: block addresses in an indirect block, `BSIZE / sizeof(uint)`. -/
def NINDIRECT : ℕ := BSIZE / 4

/-- `MAXFILE`: the most blocks a file has. -/
def MAXFILE : ℕ := NDIRECT + NINDIRECT

/-- `NOFILE`: open files per process. -/
def NOFILE : ℕ := 16

/-- `MAXPATH`: the longest path name, with its NUL, that a system call takes. -/
def MAXPATH : ℕ := 128

/-- `DIRSIZ`: bytes of the name field of a directory entry. -/
def DIRSIZ : ℕ := 14

/-- `ROOTINO`: the inode number of the root directory. -/
def ROOTINO : ℕ := 1

instance : NeZero NBUF := ⟨by decide⟩

instance : NeZero NPROC := ⟨by decide⟩

instance : NeZero NCPU := ⟨by decide⟩

end Xv6
