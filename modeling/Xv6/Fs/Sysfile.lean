import Xv6.Fs.Namei
import Xv6.Mkfs

/-!
# `create`, `sys_link` and `sys_unlink` (`sysfile.c`)

The system calls that change the name space, from the point where `argstr` has fetched their
paths: `sys_link(old, new)` gives the file `old` the second name `new`, `sys_unlink(path)`
removes a name, and `create(path, type, major, minor)` (called by `sys_open` with `O_CREATE`,
`sys_mkdir` and `sys_mknod`) returns the inode a name stands for, making it when there is none.
Each looks a path up with `namex`, locks the directory and the inode it works on, changes an
entry with `dirlink` or a zeroed `writei`, writes a changed link count back with `iupdate`, and
gives back every lock and reference it took on the way out, on the `bad` and `fail` paths too.

The routines are modelled as they are written, over the inode table, the disk and the memory of
the file-system models (`Itable`, `Blocks`, `Mem`), each stage of a long routine a definition of
its own. `none` is a panic, or a sleep on a lock no one will release. `de` is the kernel address
of the `struct dirent` buffers, and `name` what the buffer `name[DIRSIZ]` holds on entry; the
`namei` inside `sys_link` is handed the same. `begin_op` and `end_op` are left to the log's
model. An inode's fields that `iupdate` writes are kept as the `short`s of the dinode: the link
count `nlink++` and `nlink--` wrap at `2 ^ 16`, and `ip->nlink < 1` reads its 16 bits as signed.
-/

namespace Xv6

/-- `T_DEVICE` (`stat.h`). -/
def T_DEVICE : ℕ := 3

/-- The name `"."`. -/
def dot : List UInt8 := [46]

/-- The name `".."`. -/
def dotdot : List UInt8 := [46, 46]

/-- `n++` on a `short`. -/
def shortSucc (n : ℕ) : ℕ := (n + 1) % 2 ^ 16

/-- `n--` on a `short`. -/
def shortPred (n : ℕ) : ℕ := (n + (2 ^ 16 - 1)) % 2 ^ 16

/-- `n < 1` for the `short` whose bits are `n`. -/
def shortLtOne (n : ℕ) : Prop := n % 2 ^ 16 = 0 ∨ 2 ^ 15 ≤ n % 2 ^ 16

instance (n : ℕ) : Decidable (shortLtOne n) := inferInstanceAs (Decidable (_ ∨ _))

namespace Itable

/-- The copy of the inode in slot `i` replaced by `ip`: what a change to `ip->...` under the
slot's lock does. -/
def setIp (t : Itable) (i : ℕ) (ip : Inode) : Itable := t.set i { t.slot i with ip := ip }

end Itable

/-- `ip->nlink = f(ip->nlink); iupdate(ip);` for the inode in slot `i`. -/
def relink (sb : Superblock) (t : Itable) (d : Blocks) (i : ℕ) (f : ℕ → ℕ) : Itable × Blocks :=
  let t := t.setIp i { (t.slot i).ip with nlink := f (t.slot i).ip.nlink }
  (t, iupdate sb (t.slot i).ip d)

/-- `if(c){ ip->nlink = f(ip->nlink); iupdate(ip); }` for the inode in slot `i`. -/
def relinkIf (sb : Superblock) (c : Prop) [Decidable c] (t : Itable) (d : Blocks) (i : ℕ)
    (f : ℕ → ℕ) : Itable × Blocks :=
  if c then relink sb t d i f else (t, d)

/-! ### `isdirempty` -/

/-- The loop of `isdirempty(dp)` from offset `off`, reading each entry into `de`: whether every
entry from there on is free, and the inode, disk and memory after; `none` is the panic
`"isdirempty: readi"`. Each iteration reads one entry, so the loop ends within
`size / sizeof(de) + 1` of them. -/
def isdiremptyLoop (sb : Superblock) (de : ℕ) :
    (fuel : ℕ) → Inode → Blocks → Mem → (off : ℕ) → Option (Bool × Inode × Blocks × Mem)
  | 0, dp, d, mem, _ => some (true, dp, d, mem)
  | fuel + 1, dp, d, mem, off =>
    if off < dp.size then
      match readi sb dp d mem false de (UInt32.ofNat off) (UInt32.ofNat direntSize) with
      | none => none
      | some (r, dp, d, mem) =>
        if r ≠ direntSize then none
        else if (Dirent.ofBytes (Store.slice mem.kmem de direntSize)).inum ≠ 0 then
          some (false, dp, d, mem)
        else isdiremptyLoop sb de fuel dp d mem (off + direntSize)
    else some (true, dp, d, mem)

/-- `isdirempty(dp)`: whether the directory has no live entry after `.` and `..`. -/
def isdirempty (sb : Superblock) (dp : Inode) (d : Blocks) (mem : Mem) (de : ℕ) :
    Option (Bool × Inode × Blocks × Mem) :=
  isdiremptyLoop sb de (dp.size / direntSize + 1) dp d mem (2 * direntSize)

/-! ### `sys_link` -/

section Link

variable (sb : Superblock)

/-- The `bad` path of `sys_link`: the link count of `ip` taken back under its lock. -/
def linkBad (t : Itable) (d : Blocks) (mem : Mem) (ip : ℕ) : Option (ℤ × Itable × Blocks × Mem) :=
  match t.ilock sb d ip with
  | none => none
  | some t =>
    match relink sb t d ip shortPred with
    | (t, d) => (Itable.iunlockput sb t d ip).map fun r => (-1, r.1, r.2, mem)

/-- `iunlockput(dp); goto bad;`. -/
def linkUnlockBad (t : Itable) (d : Blocks) (mem : Mem) (dp ip : ℕ) :
    Option (ℤ × Itable × Blocks × Mem) :=
  match Itable.iunlockput sb t d dp with
  | none => none
  | some (t, d) => linkBad sb t d mem ip

/-- `sys_link` from `nameiparent(new, name)` on, with the link count of `ip` raised and `ip`
unlocked: the entry for the last element of `new` added to its directory. -/
def linkParent (t : Itable) (d : Blocks) (mem : Mem) (cwd : ℕ) (new name : List UInt8)
    (ip de : ℕ) : Option (ℤ × Itable × Blocks × Mem) :=
  match namex sb d mem t cwd new true name de with
  | none => none
  | some (none, _, t, d, mem) => linkBad sb t d mem ip
  | some (some dp, name, t, d, mem) =>
    match t.ilock sb d dp with
    | none => none
    | some t =>
      if (t.slot dp).dev ≠ (t.slot ip).dev then linkUnlockBad sb t d mem dp ip
      else
        match dirlink sb t (t.slot dp).dev (t.slot dp).ip d mem name (t.slot ip).ip.inum de with
        | none => none
        | some (r, t, dpi, d, mem) =>
          let t := t.setIp dp dpi
          if r < 0 then linkUnlockBad sb t d mem dp ip
          else
            match Itable.iunlockput sb t d dp with
            | none => none
            | some (t, d) => (Itable.iput sb t d ip).map fun r => (0, r.1, r.2, mem)

/-- `sys_link()` of the paths `old` and `new`, for a process whose current directory is slot
`cwd`: the return value, and the inode table, disk and memory after. -/
def sys_link (d : Blocks) (mem : Mem) (t : Itable) (cwd : ℕ) (old new name : List UInt8)
    (de : ℕ) : Option (ℤ × Itable × Blocks × Mem) :=
  match namex sb d mem t cwd old false name de with
  | none => none
  | some (none, _, t, d, mem) => some (-1, t, d, mem)
  | some (some ip, _, t, d, mem) =>
    match t.ilock sb d ip with
    | none => none
    | some t =>
      if (t.slot ip).ip.type = T_DIR then
        (Itable.iunlockput sb t d ip).map fun r => (-1, r.1, r.2, mem)
      else
        match relink sb t d ip shortSucc with
        | (t, d) =>
          match t.iunlock ip with
          | none => none
          | some t => linkParent sb t d mem cwd new name ip de

end Link

/-! ### `sys_unlink` -/

section Unlink

variable (sb : Superblock)

/-- The `bad` path of `sys_unlink`: the directory unlocked and put. -/
def unlinkBad (t : Itable) (d : Blocks) (mem : Mem) (dp : ℕ) : Option (ℤ × Itable × Blocks × Mem) :=
  (Itable.iunlockput sb t d dp).map fun r => (-1, r.1, r.2, mem)

/-- `sys_unlink` once the inode `ip` of the entry at offset `off` of the locked directory `dp` is
locked too: a directory must be empty; the entry is zeroed, and the link counts of `ip` and, for
a directory, of `dp` (its `..`) go down by one. -/
def unlinkEntry (t : Itable) (d : Blocks) (mem : Mem) (dp ip off de : ℕ) :
    Option (ℤ × Itable × Blocks × Mem) :=
  if shortLtOne (t.slot ip).ip.nlink then none
  else
    let empty : Option (Bool × Inode × Blocks × Mem) :=
      if (t.slot ip).ip.type = T_DIR then isdirempty sb (t.slot ip).ip d mem de
      else some (true, (t.slot ip).ip, d, mem)
    match empty with
    | none => none
    | some (false, ipi, d, mem) =>
      match Itable.iunlockput sb (t.setIp ip ipi) d ip with
      | none => none
      | some (t, d) => unlinkBad sb t d mem dp
    | some (true, ipi, d, mem) =>
      let t := t.setIp ip ipi
      -- `memset(&de, 0, sizeof(de))` and the entry written over
      let mem := mem.store false de (List.replicate direntSize 0)
      match writei sb (t.slot dp).ip d mem false de (UInt32.ofNat off) (UInt32.ofNat direntSize) with
      | none => none
      | some (r, dpi, d) =>
        if r ≠ direntSize then none
        else
          let t := t.setIp dp dpi
          -- one link less on `dp` for the `..` of a directory
          match relinkIf sb ((t.slot ip).ip.type = T_DIR) t d dp shortPred with
          | (t, d) =>
            match Itable.iunlockput sb t d dp with
            | none => none
            | some (t, d) =>
              match relink sb t d ip shortPred with
              | (t, d) => (Itable.iunlockput sb t d ip).map fun r => (0, r.1, r.2, mem)

/-- `sys_unlink()` of the path `path`, for a process whose current directory is slot `cwd`. -/
def sys_unlink (d : Blocks) (mem : Mem) (t : Itable) (cwd : ℕ) (path name : List UInt8)
    (de : ℕ) : Option (ℤ × Itable × Blocks × Mem) :=
  match namex sb d mem t cwd path true name de with
  | none => none
  | some (none, _, t, d, mem) => some (-1, t, d, mem)
  | some (some dp, name, t, d, mem) =>
    match t.ilock sb d dp with
    | none => none
    | some t =>
      -- `.` and `..` cannot be unlinked
      if namecmp name dot = 0 ∨ namecmp name dotdot = 0 then unlinkBad sb t d mem dp
      else
        match dirlookupScan sb (t.slot dp).ip d mem name de with
        | none => none
        | some (none, dpi, d, mem) => unlinkBad sb (t.setIp dp dpi) d mem dp
        | some (some (inum, off), dpi, d, mem) =>
          let t := t.setIp dp dpi
          match t.iget (t.slot dp).dev inum with
          | none => none
          | some (t, ip) =>
            match t.ilock sb d ip with
            | none => none
            | some t => unlinkEntry sb t d mem dp ip off de

end Unlink

/-! ### `create` -/

section Create

variable (sb : Superblock)

/-- The `fail` path of `create`: the new inode's link count set to `0`, so that `iput` of its
only reference frees it, and the directory unlocked and put. -/
def createFail (t : Itable) (d : Blocks) (mem : Mem) (dp ip : ℕ) :
    Option (Option ℕ × Itable × Blocks × Mem) :=
  match relink sb t d ip fun _ => 0 with
  | (t, d) =>
    match Itable.iunlockput sb t d ip with
    | none => none
    | some (t, d) => (Itable.iunlockput sb t d dp).map fun r => (none, r.1, r.2, mem)

/-- `create` from `dirlink(dp, name, ip->inum)` on: the new inode `ip` is locked and, for a
directory, has its `.` and `..`; the link count of `dp` goes up for that `..`. -/
def createLink (t : Itable) (d : Blocks) (mem : Mem) (dp ip : ℕ) (name : List UInt8)
    (type de : ℕ) : Option (Option ℕ × Itable × Blocks × Mem) :=
  match dirlink sb t (t.slot dp).dev (t.slot dp).ip d mem name (t.slot ip).ip.inum de with
  | none => none
  | some (r, t, dpi, d, mem) =>
    let t := t.setIp dp dpi
    if r < 0 then createFail sb t d mem dp ip
    else
      -- one link more on `dp` for the `..` of a directory
      match relinkIf sb (type = T_DIR) t d dp shortSucc with
      | (t, d) => (Itable.iunlockput sb t d dp).map fun r => (some ip, r.1, r.2, mem)

/-- `create` with the new inode `ip` locked and written back with `major`, `minor` and one link:
for a directory, its entries `.` and `..` first. -/
def createDots (t : Itable) (d : Blocks) (mem : Mem) (dp ip : ℕ) (name : List UInt8)
    (type de : ℕ) : Option (Option ℕ × Itable × Blocks × Mem) :=
  if type = T_DIR then
    match dirlink sb t (t.slot ip).dev (t.slot ip).ip d mem dot (t.slot ip).ip.inum de with
    | none => none
    | some (r, t, ipi, d, mem) =>
      let t := t.setIp ip ipi
      if r < 0 then createFail sb t d mem dp ip
      else
        match dirlink sb t (t.slot ip).dev (t.slot ip).ip d mem dotdot (t.slot dp).ip.inum de with
        | none => none
        | some (r, t, ipi, d, mem) =>
          let t := t.setIp ip ipi
          if r < 0 then createFail sb t d mem dp ip
          else createLink sb t d mem dp ip name type de
  else createLink sb t d mem dp ip name type de

/-- `create` once `dirlookup` has found no entry for `name` in the locked directory `dp`: a new
inode from `ialloc` on the device of `dp`, locked and set up. -/
def createNew (t : Itable) (d : Blocks) (mem : Mem) (dp : ℕ) (name : List UInt8)
    (type major minor de : ℕ) : Option (Option ℕ × Itable × Blocks × Mem) :=
  let a := ialloc sb d type
  if a.1 = 0 then (Itable.iunlockput sb t a.2 dp).map fun r => (none, r.1, r.2, mem)
  else
    match t.iget (t.slot dp).dev a.1 with
    | none => none
    | some (t, ip) =>
      match t.ilock sb a.2 ip with
      | none => none
      | some t =>
        let t := t.setIp ip { (t.slot ip).ip with major := major, minor := minor, nlink := 1 }
        let d := iupdate sb (t.slot ip).ip a.2
        createDots sb t d mem dp ip name type de

/-- `create(path, type, major, minor)`, for a process whose current directory is slot `cwd`:
the slot of the inode returned, locked, or `none` for `0`. -/
def create (d : Blocks) (mem : Mem) (t : Itable) (cwd : ℕ) (path name : List UInt8)
    (type major minor de : ℕ) : Option (Option ℕ × Itable × Blocks × Mem) :=
  match namex sb d mem t cwd path true name de with
  | none => none
  | some (none, _, t, d, mem) => some (none, t, d, mem)
  | some (some dp, name, t, d, mem) =>
    match t.ilock sb d dp with
    | none => none
    | some t =>
      match dirlookupScan sb (t.slot dp).ip d mem name de with
      | none => none
      | some (none, dpi, d, mem) => createNew sb (t.setIp dp dpi) d mem dp name type major minor de
      | some (some (inum, _), dpi, d, mem) =>
        -- the name is there: an existing file will do for `open`
        let t := t.setIp dp dpi
        match t.iget (t.slot dp).dev inum with
        | none => none
        | some (t, ip) =>
          match Itable.iunlockput sb t d dp with
          | none => none
          | some (t, d) =>
            match t.ilock sb d ip with
            | none => none
            | some t =>
              if type = Mkfs.T_FILE ∧
                  ((t.slot ip).ip.type = Mkfs.T_FILE ∨ (t.slot ip).ip.type = T_DEVICE) then
                some (some ip, t, d, mem)
              else (Itable.iunlockput sb t d ip).map fun r => (none, r.1, r.2, mem)

end Create

end Xv6
