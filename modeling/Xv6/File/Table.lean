import Xv6.Param
import Xv6.Pipe.Model
import Xv6.User.Sh.Parse
import Xv6.Lib.Count
import Xv6.Lib.Reach
import Mathlib.Data.Fintype.Prod
import Mathlib.Data.List.FinRange

/-!
# The file table and every process's descriptors (`file.c`, `sysfile.c`, `pipe.c`)

`ftable` holds the kernel's `struct file`s; a process's descriptor `fd` names one of them in
`p->ofile[fd]`, and `f->ref` counts the references to `f`. The calls that change them:

* `filealloc`, `filedup` and `fileclose` (`file.c`), with `fileclose` closing a pipe end by
  `pipeclose` or giving back the inode by `iput` when the last reference goes;
* `fdalloc` and `argfd`, and the system calls built on them: `sys_dup`, `sys_close`, the end of
  `sys_open` once it has the inode, and `sys_pipe` with `pipealloc`;
* `fork`, which shares each of the parent's files with the child by `filedup`, and `exit`,
  which closes each of its descriptors.

Each call is one step: the parts of a call that touch `ftable` hold `ftable.lock`, and a
process's descriptors are touched only by the process itself and by the `fork` that makes it.
A pipe is named by a number in place of the page `kalloc` gives it, so a freed pipe's number is
never used again; `kalloc`'s failure in `pipealloc` and `copyout`'s in `sys_pipe` are the
step's choices. Of the inode, a file keeps its number; `iref` counts the references the open
files hold on each inode, the one `sys_open` hands to the file and `fileclose`'s `iput` drops.
-/

namespace Xv6

/-- `NFILE`: open files per system. -/
def NFILE : ℕ := 100

instance : NeZero NFILE := ⟨by decide⟩

instance : NeZero NOFILE := ⟨by decide⟩

namespace Ftable

/-- `O_RDWR` of `fcntl.h`. -/
def O_RDWR : ℕ := 0x002

/-- `enum { FD_NONE, FD_PIPE, FD_INODE, FD_DEVICE } type`. -/
inductive FdType where
  | none
  | pipe
  | inode
  | device
  deriving DecidableEq, Repr

/-- A `struct file` with what the file-table calls read and write: its pipe by number, its
inode by inode number. -/
structure File where
  type : FdType
  ref : ℕ
  readable : Bool
  writable : Bool
  pipe : ℕ
  ip : ℕ
  deriving DecidableEq, Repr

/-- The file table, the descriptors, and the pipes and inode references the files hold. -/
structure Sys where
  /-- `ftable.file`. -/
  file : Fin NFILE → File
  /-- `p->ofile` of each process. -/
  ofile : Fin NPROC → Fin NOFILE → Option (Fin NFILE)
  /-- The pipes `pipealloc` made and `pipeclose` has not freed, by number. -/
  pipe : ℕ → Option Pipe
  /-- The number the next pipe gets. -/
  npipe : ℕ
  /-- The inode references the open files hold, by inode number. -/
  iref : ℕ → ℕ

/-- A zeroed `ftable` and `proc[]`: no file in use, no descriptor open. -/
def Sys.init : Sys :=
  ⟨fun _ => ⟨.none, 0, false, false, 0, 0⟩, fun _ _ => none, fun _ => none, 0, fun _ => 0⟩

/-- `*f = ...` of file `k`. -/
def Sys.setFile (s : Sys) (k : Fin NFILE) (f : File) : Sys :=
  { s with file := Function.update s.file k f }

/-- `p->ofile[fd] = v`. -/
def Sys.setOfile (s : Sys) (p : Fin NPROC) (fd : Fin NOFILE) (v : Option (Fin NFILE)) : Sys :=
  { s with ofile := Function.update s.ofile p (Function.update (s.ofile p) fd v) }

/-- `filealloc()`: the first file with `ref == 0`, given `ref = 1`; `none` when all are in use. -/
def filealloc (s : Sys) : Option (Fin NFILE × Sys) :=
  match (List.finRange NFILE).find? fun k => (s.file k).ref == 0 with
  | none => none
  | some k => some (k, s.setFile k { s.file k with ref := 1 })

/-- `filedup(f)`; `none` where it panics. -/
def filedup (s : Sys) (k : Fin NFILE) : Option Sys :=
  if (s.file k).ref < 1 then none
  else some (s.setFile k { s.file k with ref := (s.file k).ref + 1 })

/-- `pipeclose(pi, writable)`: the end closed, and the pipe freed once both are. `none` for a
pipe already freed, whose page `pipeclose` would write. The `wakeup`s are the pipe model's. -/
def pipeclose (s : Sys) (pi : ℕ) (writable : Bool) : Option Sys :=
  match s.pipe pi with
  | none => none
  | some pp =>
    let pp := if writable then { pp with writeopen := false } else { pp with readopen := false }
    -- `kfree((char*)pi)`
    if pp.readopen = false ∧ pp.writeopen = false then
      some { s with pipe := Function.update s.pipe pi none }
    else some { s with pipe := Function.update s.pipe pi (some pp) }

/-- `fileclose(f)`; `none` where it panics. The last reference closes the pipe end or gives
back the inode, from the copy `ff` taken before the file is cleared. -/
def fileclose (s : Sys) (k : Fin NFILE) : Option Sys :=
  let f := s.file k
  if f.ref < 1 then none
  else if 0 < f.ref - 1 then some (s.setFile k { f with ref := f.ref - 1 })
  else
    let s := s.setFile k { f with ref := 0, type := .none }
    match f.type with
    | .pipe => pipeclose s f.pipe f.writable
    -- `begin_op(); iput(ff.ip); end_op();`
    | .inode | .device => some { s with iref := Function.update s.iref f.ip (s.iref f.ip - 1) }
    | .none => some s

/-- `fdalloc(f)` for process `p`: the lowest free descriptor, now naming file `k`. -/
def fdalloc (s : Sys) (p : Fin NPROC) (k : Fin NFILE) : Option (Fin NOFILE × Sys) :=
  match (List.finRange NOFILE).find? fun fd => (s.ofile p fd).isNone with
  | none => none
  | some fd => some (fd, s.setOfile p fd (some k))

theorem toNat_lt_of_bounds {fd : ℤ} {n : ℕ} (h : 0 ≤ fd ∧ fd < n) : fd.toNat < n := by
  omega

/-- `argfd` of the descriptor `fd` of process `p`: the descriptor and its file; `none` for a
descriptor out of range or not open. -/
def argfd (s : Sys) (p : Fin NPROC) (fd : ℤ) : Option (Fin NOFILE × Fin NFILE) :=
  if h : 0 ≤ fd ∧ fd < NOFILE then
    (s.ofile p ⟨fd.toNat, toNat_lt_of_bounds h⟩).map fun k => (⟨fd.toNat, toNat_lt_of_bounds h⟩, k)
  else none

/-- `sys_dup()` of descriptor `fd` by process `p`: what it returns and the state after; `none`
where it panics. -/
def sys_dup (s : Sys) (p : Fin NPROC) (fd : ℤ) : Option (ℤ × Sys) :=
  match argfd s p fd with
  | none => some (-1, s)
  | some (_, k) =>
    match fdalloc s p k with
    | none => some (-1, s)
    | some (fd', s) => (filedup s k).map fun s => ((fd' : ℕ), s)

/-- `sys_close()` of descriptor `fd` by process `p`. -/
def sys_close (s : Sys) (p : Fin NPROC) (fd : ℤ) : Option (ℤ × Sys) :=
  match argfd s p fd with
  | none => some (-1, s)
  | some (fd, k) => (fileclose (s.setOfile p fd none) k).map fun s => (0, s)

/-- The end of `sys_open(path, omode)` by process `p`, once `create` or `namei` has the inode
`ip` locked and checked; `dev` is `ip->type == T_DEVICE`. The reference to `ip` passes to the
file; where `filealloc` or `fdalloc` fails, `iunlockput` drops it. -/
def openFile (s : Sys) (p : Fin NPROC) (ip : ℕ) (dev : Bool) (omode : ℕ) : Option (ℤ × Sys) :=
  match filealloc s with
  | none => some (-1, s)
  | some (k, s) =>
    match fdalloc s p k with
    | none => (fileclose s k).map fun s => (-1, s)
    | some (fd, s) =>
      let f : File := { s.file k with
        type := if dev then .device else .inode, ip := ip,
        readable := decide (omode &&& Sh.O_WRONLY = 0),
        writable := decide (omode &&& Sh.O_WRONLY ≠ 0) || decide (omode &&& O_RDWR ≠ 0) }
      some ((fd : ℕ), { s.setFile k f with iref := Function.update s.iref ip (s.iref ip + 1) })

/-- The fresh `struct pipe` on `kalloc`'s page: both ends open, nothing written, the data the
junk `kalloc` fills a page with. -/
def freshPipe : Pipe := ⟨fun _ => 5, 0, 0, true, true⟩

/-- `pipealloc(&f0, &f1)`: the read and the write file of a new pipe, or `none` inside where it
returns `-1`; `kallocOk` is whether `kalloc` gives the pipe a page. -/
def pipealloc (s : Sys) (kallocOk : Bool) : Option (Option (Fin NFILE × Fin NFILE) × Sys) :=
  match filealloc s with
  | none => some (none, s)
  | some (f0, s) =>
    match filealloc s with
    -- `bad:`
    | none => (fileclose s f0).map fun s => (none, s)
    | some (f1, s) =>
      if kallocOk then
        let pi := s.npipe
        let s := { s with pipe := Function.update s.pipe pi (some freshPipe), npipe := pi + 1 }
        let s := s.setFile f0
          { s.file f0 with type := .pipe, readable := true, writable := false, pipe := pi }
        let s := s.setFile f1
          { s.file f1 with type := .pipe, readable := false, writable := true, pipe := pi }
        some (some (f0, f1), s)
      else ((fileclose s f0).bind fun s => fileclose s f1).map fun s => (none, s)

/-- `sys_pipe()` by process `p`; `copyoutOk` is whether both descriptors reach user memory. -/
def sys_pipe (s : Sys) (p : Fin NPROC) (kallocOk copyoutOk : Bool) : Option (ℤ × Sys) :=
  match pipealloc s kallocOk with
  | none => none
  | some (none, s) => some (-1, s)
  | some (some (rf, wf), s) =>
    match fdalloc s p rf with
    | none => ((fileclose s rf).bind fun s => fileclose s wf).map fun s => (-1, s)
    | some (fd0, s) =>
      match fdalloc s p wf with
      | none =>
        ((fileclose (s.setOfile p fd0 none) rf).bind fun s => fileclose s wf).map fun s => (-1, s)
      | some (fd1, s) =>
        if copyoutOk then some (0, s)
        else ((fileclose ((s.setOfile p fd0 none).setOfile p fd1 none) rf).bind fun s =>
          fileclose s wf).map fun s => (-1, s)

/-- One pass of `fork`'s loop, for descriptor `i` of the parent `p` and the child `c`:
`if(p->ofile[i]) np->ofile[i] = filedup(p->ofile[i]);`. -/
def forkFile (p c : Fin NPROC) (s : Sys) (i : Fin NOFILE) : Option Sys :=
  match s.ofile p i with
  | none => some s
  | some k => (filedup s k).map fun s => s.setOfile c i (some k)

/-- `fork`'s loop over the descriptors of `p`, into the child `c`. -/
def forkFiles (s : Sys) (p c : Fin NPROC) : Option Sys :=
  (List.finRange NOFILE).foldlM (forkFile p c) s

/-- One pass of `exit`'s loop, for descriptor `fd` of `p`:
`if(p->ofile[fd]){ fileclose(f); p->ofile[fd] = 0; }`. -/
def exitFile (p : Fin NPROC) (s : Sys) (fd : Fin NOFILE) : Option Sys :=
  match s.ofile p fd with
  | none => some s
  | some k => (fileclose s k).map fun s => s.setOfile p fd none

/-- `exit`'s loop over the descriptors of `p`. -/
def exitFiles (s : Sys) (p : Fin NPROC) : Option Sys :=
  (List.finRange NOFILE).foldlM (exitFile p) s

/-- A step: one call by one process, with the choices of its environment. -/
inductive Op where
  | dup (p : Fin NPROC) (fd : ℤ)
  | close (p : Fin NPROC) (fd : ℤ)
  | openFile (p : Fin NPROC) (ip : ℕ) (dev : Bool) (omode : ℕ)
  | pipe (p : Fin NPROC) (kallocOk copyoutOk : Bool)
  /-- `fork` by `p` into the slot `c` that `allocproc` found, whose descriptors `exit` left
  closed. -/
  | fork (p c : Fin NPROC)
  | exit (p : Fin NPROC)

/-- The state after a step; `none` where the kernel panics or the step is not enabled. -/
def step (s : Sys) : Op → Option Sys
  | .dup p fd => (sys_dup s p fd).map Prod.snd
  | .close p fd => (sys_close s p fd).map Prod.snd
  | .openFile p ip dev omode => (openFile s p ip dev omode).map Prod.snd
  | .pipe p kallocOk copyoutOk => (sys_pipe s p kallocOk copyoutOk).map Prod.snd
  | .fork p c => if ∀ fd, s.ofile c fd = none then forkFiles s p c else none
  | .exit p => exitFiles s p

/-- The states the calls reach from boot. -/
def Reachable : Sys → Prop := Reach.Reachable (· = Sys.init) step fun _ => True

end Ftable

end Xv6
