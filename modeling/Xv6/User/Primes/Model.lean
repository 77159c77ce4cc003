import Xv6.Param
import Xv6.Lib.Reach
import Xv6.Pipe.Model

/-!
# The `primes` pipeline (`user/primes.c`)

`primes` builds a chain of processes joined by pipes. `main` makes a pipe and forks: the child
becomes the source, which writes the 4-byte integers `2, …, 35`, and the parent the sink. The
sink reads an integer `p`, prints it, makes a new pipe and forks a child that runs `cull(p)`: it
reads the rest of the sink's input and passes on the integers that `p` does not divide. The sink
then reads from the new pipe. Each side moves its end of a pipe to `STDIN` or `STDOUT` with
`connect(fd, pd)`: `close(fd); dup(pd[fd]); close(pd[0]); close(pd[1]);`.

The model is the system of all these processes, as a transition system whose label is the
process that moves. A step is one system call, or the C code between two calls. Every call is
atomic: `pipe`, `fork`, `dup`, `close` and `exit` change only the caller, and `pipewrite` and
`piperead` hold `pi->lock` up to their return, or up to the `sleep` of a writer that finds the
pipe full. So one step of `write` puts as many bytes as fit, and a writer that filled the pipe
resumes at the byte it reached.

* A process has a program point `Pc` and a descriptor table `fds`, `ofile[fd]` for
  `fd < NOFILE`; `fork` copies it, as `filedup` shares the files.
* A pipe is its bytes in order (`Pipe/Fifo` shows that the ring holds them so). An end is open
  while some descriptor refers to it: `fileclose` calls `pipeclose` when the last reference
  to a file goes, and every reference here is a descriptor, as each call takes its references
  and installs them in one step.
* `printf` in the sink is modelled by the value it prints.
* Processes are numbered in the order `fork` makes them, and pipes in the order `pipe` does.

A read that returns 1 to 3 bytes would leave a partly overwritten integer, and a `pipe`, `read`,
`write` or `printf` on a descriptor that is not what the code expects would leave the model's
behaviour; such a process stops at `fault`, and the invariant shows that none gets there. Ghost
fields record the integers written into and read out of each pipe, whole.
-/

namespace Xv6

namespace Primes

/-- `STDIN`. -/
def STDIN : ℕ := 0

/-- `STDOUT`. -/
def STDOUT : ℕ := 1

/-- The open file a descriptor refers to: the console, or the read (`writable = false`) or the
write end of pipe `j`. -/
inductive Fd where
  | console
  | pipe (j : ℕ) (writable : Bool)
  deriving DecidableEq

/-- The four bytes of the `int` `x`, lowest first, as `write(fd, &x, 4)` sends them. -/
def encode (x : ℕ) : List UInt8 :=
  [x.toUInt8, (x / 2 ^ 8).toUInt8, (x / 2 ^ 16).toUInt8, (x / 2 ^ 24).toUInt8]

/-- The `int` whose bytes, lowest first, `read(fd, &x, 4)` stored. -/
def decode (b : List UInt8) : ℕ := b.foldr (fun c acc => c.toNat + 2 ^ 8 * acc) 0

/-- `fdalloc`: the lowest free descriptor. -/
def fdalloc (fds : ℕ → Option Fd) : Option ℕ :=
  (List.range NOFILE).find? fun fd => (fds fd).isNone

/-- `argfd`: the file of descriptor `fd`, if `fd` is in range and open. -/
def argfd (fds : ℕ → Option Fd) (fd : ℕ) : Option Fd := if fd < NOFILE then fds fd else none

/-- The calls `connect` makes. -/
inductive Call where
  | close (fd : ℕ)
  | dup (fd : ℕ)
  deriving DecidableEq

/-- `sys_close` and `sys_dup` on the caller's table. A call that fails changes nothing and
returns `-1`, which `connect` ignores. -/
def Call.run : Call → (ℕ → Option Fd) → ℕ → Option Fd
  | .close fd, fds => if (argfd fds fd).isSome then Function.update fds fd none else fds
  | .dup fd, fds =>
    match argfd fds fd, fdalloc fds with
    | some f, some fd' => Function.update fds fd' (some f)
    | _, _ => fds

/-- The table after the calls `cs`, in order. -/
def runCalls (cs : List Call) (fds : ℕ → Option Fd) : ℕ → Option Fd :=
  cs.foldl (fun fds c => c.run fds) fds

/-- `connect(fd, pd)`, for `fd` one of `STDIN` and `STDOUT`, so that `pd[fd]` is one of the
two descriptors `pipe` returned. -/
def connect (fd : ℕ) (pd : ℕ × ℕ) : List Call :=
  [.close fd, .dup (if fd = STDIN then pd.1 else pd.2), .close pd.1, .close pd.2]

/-- Where a process is in `primes.c`. -/
inductive Pc where
  /-- `pipe(pd)`, to be followed by `fork()`, with the child going on to
  `connect(STDOUT, pd)` and then to `child`: the first line of `main`, whose child is the
  source, and the sink's `pipe(new_pipe)`, whose child culls. -/
  | pipe (child : Pc)
  /-- `fork()`, with `pd` the descriptors that `pipe` returned. -/
  | fork (pd : ℕ × ℕ) (child : Pc)
  /-- Inside `connect`, with the calls `cs` still to make, then going on to `next`. -/
  | calls (cs : List Call) (next : Pc)
  /-- The loop of `source`, with the integers it has still to write. -/
  | source (rest : List ℕ)
  /-- `write(STDOUT, &x, 4)` with `k` bytes written, then going on to `next`. -/
  | write (x k : ℕ) (next : Pc)
  /-- The test `read(STDIN, &p, 4)` of `sink`'s loop. -/
  | sink
  /-- `printf("p: %d\n", p)`. -/
  | print (p : ℕ)
  /-- The test `read(STDIN, &n, 4)` of `cull(p)`'s loop. -/
  | cull (p : ℕ)
  /-- After `exit`, and every slot with no process. -/
  | exited
  /-- Outside the behaviour modelled. -/
  | fault
  deriving DecidableEq

/-- A process: its program point and `ofile`. -/
structure Proc where
  pc : Pc
  fds : ℕ → Option Fd

/-- A slot with no process, or with one that has exited: `exit` closed every descriptor. -/
def Proc.unused : Proc := { pc := .exited, fds := fun _ => none }

/-- The processes of `primes`, their pipes and what the sink printed. -/
structure World where
  procs : ℕ → Proc
  /-- The processes so far; `fork` numbers the next one `nproc`. -/
  nproc : ℕ
  /-- The bytes in pipe `j`, oldest first. -/
  pipes : ℕ → List UInt8
  /-- The pipes so far; `pipe` numbers the next one `npipe`. -/
  npipe : ℕ
  /-- The integers the sink printed, in order. -/
  printed : List ℕ
  /-- Ghost: the integers written whole into pipe `j`, in order. -/
  wrote : ℕ → List ℕ
  /-- Ghost: the integers read whole out of pipe `j`, in order. -/
  took : ℕ → List ℕ

namespace World

/-- Some descriptor of some process refers to the end `writable` of pipe `j`: the file's `ref`
is positive, so `pipeclose` has not cleared `readopen` or `writeopen`. -/
def isOpen (w : World) (j : ℕ) (writable : Bool) : Bool :=
  (List.range w.nproc).any fun i =>
    (List.range NOFILE).any fun fd => (w.procs i).fds fd == some (.pipe j writable)

/-- Process `i` becomes `p`. -/
def setProc (w : World) (i : ℕ) (p : Proc) : World :=
  { w with procs := Function.update w.procs i p }

/-- Process `i` moves to program point `c`. -/
def goto (w : World) (i : ℕ) (c : Pc) : World := w.setProc i { w.procs i with pc := c }

/-- `exit(0)`, which `main` reaches by returning: every descriptor is closed. -/
def exit (w : World) (i : ℕ) : World := w.setProc i Proc.unused

/-- `pipe(pd)` (`sys_pipe`): `pipealloc` makes pipe `npipe`, and `fdalloc` installs its read
end and then its write end. The code ignores a failure and would go on with `pd` unset. -/
def sysPipe (w : World) (i : ℕ) (child : Pc) : World :=
  let fds := (w.procs i).fds
  match fdalloc fds with
  | none => w.goto i .fault
  | some fd0 =>
    let fds := Function.update fds fd0 (some (.pipe w.npipe false))
    match fdalloc fds with
    | none => w.goto i .fault
    | some fd1 =>
      { w.setProc i { pc := .fork (fd0, fd1) child,
                      fds := Function.update fds fd1 (some (.pipe w.npipe true)) } with
        npipe := w.npipe + 1 }

/-- `fork()`: the child, number `nproc`, gets a copy of the table and goes on to
`connect(STDOUT, pd)`, the parent to `connect(STDIN, pd)` and then the top of `sink`'s loop. -/
def fork (w : World) (i : ℕ) (pd : ℕ × ℕ) (child : Pc) : World :=
  let fds := (w.procs i).fds
  { (w.setProc i { pc := .calls (connect STDIN pd) .sink, fds }).setProc w.nproc
      { pc := .calls (connect STDOUT pd) child, fds } with nproc := w.nproc + 1 }

/-- One atomic part of `write(STDOUT, &x, 4)` from byte `k`. `pipewrite` returns `-1` if the
read end is closed; otherwise it copies bytes while the pipe has room, and if the pipe fills
first it sleeps at the byte it reached. The code ignores what `write` returns. -/
def write (w : World) (i x k : ℕ) (next : Pc) : World :=
  match argfd (w.procs i).fds STDOUT with
  | some (.pipe j true) =>
    if w.isOpen j false then
      let n := min (4 - k) (PIPESIZE - (w.pipes j).length)
      let w' := { w with pipes := Function.update w.pipes j (w.pipes j ++ ((encode x).drop k).take n) }
      if k + n = 4 then { w'.goto i next with wrote := Function.update w.wrote j (w.wrote j ++ [x]) }
      else w'.goto i (.write x (k + n) next)
    else w.goto i next
  | _ => w.goto i .fault

/-- What `read(STDIN, &x, 4)` returns. -/
inductive ReadResult where
  /-- `0`: the pipe is empty and its write end closed. -/
  | eof
  /-- `4`: the integer `x`, out of pipe `j`. -/
  | int (j x : ℕ)
  /-- `-1`, or `1` to `3` bytes. -/
  | bad

/-- `read(STDIN, &x, 4)`: `none` while `piperead` sleeps on an empty pipe whose write end is
open; otherwise it takes up to four bytes. -/
def readResult (w : World) (i : ℕ) : Option ReadResult :=
  match argfd (w.procs i).fds STDIN with
  | some (.pipe j false) =>
    let b := (w.pipes j).take 4
    if b = [] then (if w.isOpen j true then none else some .eof)
    else if b.length = 4 then some (.int j (decode b)) else some .bad
  | _ => some .bad

/-- `piperead` takes the integer `x` out of pipe `j`. -/
def take (w : World) (j x : ℕ) : World :=
  { w with pipes := Function.update w.pipes j ((w.pipes j).drop 4)
           took := Function.update w.took j (w.took j ++ [x]) }

end World

/-- The next step of process `i`, `none` if it has none: it has exited, or it sleeps in
`piperead`. -/
def step (w : World) (i : ℕ) : Option World :=
  match (w.procs i).pc with
  | .pipe child => some (w.sysPipe i child)
  | .fork pd child => some (w.fork i pd child)
  | .calls [] next => some (w.goto i next)
  | .calls (c :: cs) next =>
    some (w.setProc i { pc := .calls cs next, fds := c.run (w.procs i).fds })
  -- `source` returns, and so does `main`
  | .source [] => some (w.exit i)
  | .source (x :: rest) => some (w.goto i (.write x 0 (.source rest)))
  | .write x k next => some (w.write i x k next)
  | .sink =>
    (w.readResult i).map fun
      -- `sink` returns, and so does `main`
      | .eof => w.exit i
      | .int j p => (w.take j p).goto i (.print p)
      | .bad => w.goto i .fault
  | .print p =>
    some (if argfd (w.procs i).fds STDOUT = some .console then
      { w.goto i (.pipe (.cull p)) with printed := w.printed ++ [p] }
    else w.goto i .fault)
  | .cull p =>
    (w.readResult i).map fun
      -- `cull` returns into `sink`'s loop
      | .eof => w.goto i .sink
      | .int j n => (w.take j n).goto i (if n % p ≠ 0 then .write n 0 (.cull p) else .cull p)
      | .bad => w.goto i .fault
  | .exited | .fault => none

/-- `primes` as the shell starts it: one process, with descriptors 0, 1 and 2 on the console,
about to run `main` with a source that writes `xs`. -/
def World.init (xs : List ℕ) : World :=
  { procs := Function.update (fun _ => Proc.unused) 0
      { pc := .pipe (.source xs), fds := fun fd => if fd < 3 then some .console else none }
    nproc := 1, pipes := fun _ => [], npipe := 0, printed := [], wrote := fun _ => [],
    took := fun _ => [] }

/-- The states `primes` reaches with a source that writes `xs`, whatever the order in which
its processes move. -/
def Reachable (xs : List ℕ) : World → Prop :=
  Reach.Reachable (· = World.init xs) step fun _ => True

/-! ### The operations, one lemma each -/

@[simp] theorem stdin_eq : STDIN = 0 := rfl

@[simp] theorem stdout_eq : STDOUT = 1 := rfl

@[simp] theorem length_encode (x : ℕ) : (encode x).length = 4 := rfl

/-- `read` gives back the `int` that `write` sent. -/
theorem decode_encode {x : ℕ} (h : x < 2 ^ 32) : decode (encode x) = x := by
  simp only [decode, encode, List.foldr_cons, List.foldr_nil, Nat.toUInt8_eq, UInt8.toNat_ofNat']
  omega

/-- `fdalloc` finds `k` when it is free and every descriptor below it is taken. -/
theorem fdalloc_eq_some {fds : ℕ → Option Fd} {k : ℕ} (hk : k < NOFILE) (hfree : fds k = none)
    (hbelow : ∀ fd < k, fds fd ≠ none) : fdalloc fds = some k := by
  unfold fdalloc
  rw [List.find?_range_eq_some]
  refine ⟨by simp [hfree], List.mem_range.mpr hk, fun fd hfd => ?_⟩
  simpa [Option.isSome_iff_ne_none] using hbelow fd hfd

theorem Call.run_close {fds : ℕ → Option Fd} {fd : ℕ} (hfd : fd < NOFILE) (h : fds fd ≠ none) :
    (Call.close fd).run fds = Function.update fds fd none := by
  simp [Call.run, argfd, hfd, Option.isSome_iff_ne_none, h]

theorem Call.run_dup {fds : ℕ → Option Fd} {fd k : ℕ} {f : Fd} (hfd : fd < NOFILE)
    (h : fds fd = some f) (ha : fdalloc fds = some k) :
    (Call.dup fd).run fds = Function.update fds k (some f) := by
  simp [Call.run, argfd, hfd, h, ha]

theorem runCalls_append (cs cs' : List Call) (fds : ℕ → Option Fd) :
    runCalls (cs ++ cs') fds = runCalls cs' (runCalls cs fds) :=
  List.foldl_append

namespace World

variable (w : World) (i : ℕ)

@[simp] theorem setProc_procs (p : Proc) : (w.setProc i p).procs = Function.update w.procs i p :=
  rfl
theorem setProc_procs_self (p : Proc) : (w.setProc i p).procs i = p := Function.update_self ..
@[simp] theorem setProc_nproc (p : Proc) : (w.setProc i p).nproc = w.nproc := rfl
@[simp] theorem setProc_pipes (p : Proc) : (w.setProc i p).pipes = w.pipes := rfl
@[simp] theorem setProc_npipe (p : Proc) : (w.setProc i p).npipe = w.npipe := rfl
@[simp] theorem setProc_printed (p : Proc) : (w.setProc i p).printed = w.printed := rfl
@[simp] theorem setProc_wrote (p : Proc) : (w.setProc i p).wrote = w.wrote := rfl
@[simp] theorem setProc_took (p : Proc) : (w.setProc i p).took = w.took := rfl

variable (j x : ℕ)

@[simp] theorem take_procs : (w.take j x).procs = w.procs := rfl
@[simp] theorem take_nproc : (w.take j x).nproc = w.nproc := rfl
@[simp] theorem take_npipe : (w.take j x).npipe = w.npipe := rfl
@[simp] theorem take_printed : (w.take j x).printed = w.printed := rfl
@[simp] theorem take_wrote : (w.take j x).wrote = w.wrote := rfl

theorem isOpen_iff (j : ℕ) (wr : Bool) :
    w.isOpen j wr = true ↔ ∃ k < w.nproc, ∃ fd < NOFILE, (w.procs k).fds fd = some (.pipe j wr) := by
  simp [isOpen]

/-- A descriptor of a process keeps its end open. -/
theorem isOpen_of {k : ℕ} (fd : ℕ) {j : ℕ} {wr : Bool} (hk : k < w.nproc) (hfd : fd < NOFILE)
    (h : (w.procs k).fds fd = some (.pipe j wr)) : w.isOpen j wr = true :=
  (w.isOpen_iff j wr).mpr ⟨k, hk, fd, hfd, h⟩

end World

/-- What `source` writes: `for(int i = 2; i <= 35; i++)`. -/
def sourceInts : List ℕ := List.range' 2 34

end Primes

end Xv6
