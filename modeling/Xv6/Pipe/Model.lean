import Xv6.Lib.Reach
import Xv6.Lib.Ring
import Xv6.Lib.Sleep
import Mathlib.Data.Fintype.Basic

/-!
# Pipes (`kernel/pipe.c`)

A pipe is a `PIPESIZE`-byte ring with two free-running `uint` counters: byte `k` of the stream
goes to slot `k % PIPESIZE`, `nwrite` counts the bytes written and `nread` the bytes read, both
wrapping at `2^32`.

The model is the pipe together with the processes that use it, as a transition system. A step
is one atomic section of the code: from acquiring `pi->lock` (or returning from `sleep`, which
reacquires it) to the next release, sleep or loop iteration. Each iteration of the byte loops of
`pipewrite` and `piperead` is its own step, taken while the lock stays held; `kill` takes only
`p->lock`, so it can set `p->killed` between any two of them. `sleep` releases the lock and
marks the process `SLEEPING` in one step, as `p->lock` makes it atomic with respect to
`wakeup`.

A user buffer is modelled by its mapped prefix: the loops copy one byte at a time from the
front and stop at the first fault, and no other process can change a process's memory, so only
the length of the mapped prefix matters.

Two ghost fields record the bytes `pipewrite` took from writers (`accepted`) and the bytes
`piperead` handed to readers (`delivered`).
-/

namespace Xv6

/-- `PIPESIZE`. -/
def PIPESIZE : ℕ := 512

instance : NeZero PIPESIZE := ⟨by decide⟩

/-- `struct pipe` without its lock. -/
structure Pipe where
  data : Fin PIPESIZE → UInt8
  /-- Number of bytes read. -/
  nread : UInt32
  /-- Number of bytes written. -/
  nwrite : UInt32
  /-- The read end is still open. -/
  readopen : Bool
  /-- The write end is still open. -/
  writeopen : Bool

namespace Pipe

/-- `pi->data[pi->nwrite++ % PIPESIZE] = ch`. -/
def push (pi : Pipe) (ch : UInt8) : Pipe :=
  { pi with data := Function.update pi.data (Ring.slot PIPESIZE pi.nwrite.toNat) ch
            nwrite := pi.nwrite + 1 }

/-- `pi->data[pi->nread % PIPESIZE]`, the byte at the read end. -/
def head (pi : Pipe) : UInt8 := pi.data (Ring.slot PIPESIZE pi.nread.toNat)

/-- `pi->nread++`. -/
def pop (pi : Pipe) : Pipe := { pi with nread := pi.nread + 1 }

/-- The channels the pipe code sleeps on: `&pi->nread` and `&pi->nwrite`. -/
inductive Chan where
  | nread
  | nwrite
  deriving DecidableEq, Repr

/-- Where a process is in the pipe code. -/
inductive Pc where
  /-- Outside the pipe code. -/
  | idle
  /-- At the top of `pipewrite`'s loop with `i` bytes written, holding `pi->lock`. `src` is the
  mapped prefix of the user buffer: `copyin` of byte `i` succeeds iff `i < src.length`. -/
  | write (src : List UInt8) (n : ℤ) (i : ℕ)
  /-- In `sleep(&pi->nwrite, &pi->lock)` inside `pipewrite`. -/
  | writeSleep (src : List UInt8) (n : ℤ) (i : ℕ)
  /-- At `piperead`'s `while` test, holding `pi->lock`. `room` is the mapped prefix of the
  destination: `copyout` of byte `i` succeeds iff `i < room`. -/
  | readWait (n : ℤ) (room : ℕ)
  /-- In `sleep(&pi->nread, &pi->lock)` inside `piperead`. -/
  | readSleep (n : ℤ) (room : ℕ)
  /-- At the top of `piperead`'s copy loop with `i` bytes copied, holding `pi->lock`. -/
  | read (n : ℤ) (room : ℕ) (i : ℕ)
  /-- Returned `r` from `pipewrite` or `piperead`. -/
  | done (r : ℤ)
  deriving DecidableEq

/-- Outside any pipe call, so free to make a new one. -/
def Pc.outside : Pc → Bool
  | .idle | .done _ => true
  | _ => false

/-- Inside a `pipewrite` call. -/
def Pc.writing : Pc → Bool
  | .write .. | .writeSleep .. => true
  | _ => false

/-- Inside a `piperead` call, with its request `n`. -/
def Pc.reading : Pc → Option ℤ
  | .readWait n _ | .readSleep n _ | .read n _ _ => some n
  | _ => none

/-- The pipe and the processes that use it. -/
structure World (P : Type) where
  pipe : Pipe
  /-- The holder of `pi->lock`. -/
  lock : Option P
  /-- `p->state == SLEEPING` with `p->chan`, for the channels of this pipe. -/
  sleeping : P → Option Chan
  killed : P → Bool
  pc : P → Pc
  /-- Ghost: the bytes `pipewrite` put into the ring, in order. -/
  accepted : List UInt8
  /-- Ghost: the bytes `piperead` copied out to readers, in order. -/
  delivered : List UInt8

/-- What can happen next: a process calls into the pipe, takes its next step, or is killed. -/
inductive Act (P : Type) where
  | pipewrite (p : P) (src : List UInt8) (n : ℤ)
  | piperead (p : P) (n : ℤ) (room : ℕ)
  | pipeclose (p : P) (writable : Bool)
  | run (p : P)
  | kill (p : P)

variable {P : Type} [DecidableEq P]

namespace World

/-- `p` moves to program point `c`. -/
def goto (w : World P) (p : P) (c : Pc) : World P :=
  { w with pc := Function.update w.pc p c }

/-- `wakeup(chan); release(&pi->lock); return r;`: the ordinary exit of both calls. -/
def exit (w : World P) (p : P) (chan : Chan) (r : ℤ) : World P :=
  { w with lock := none, sleeping := Sleep.wake p chan w.sleeping,
           pc := Function.update w.pc p (.done r) }

/-- `release(&pi->lock); return -1;`: the early exits, which wake nobody. -/
def bail (w : World P) (p : P) : World P :=
  { w with lock := none, pc := Function.update w.pc p (.done (-1)) }

/-- `sleep(chan, &pi->lock)`: release the lock and sleep, resuming at `c`. -/
def sleep (w : World P) (p : P) (chan : Chan) (c : Pc) : World P :=
  { w with lock := none, sleeping := Sleep.sleepOn p chan w.sleeping,
           pc := Function.update w.pc p c }

end World

/-- One iteration of `pipewrite`'s loop at byte `i`. -/
def pipewriteStep (w : World P) (p : P) (src : List UInt8) (n : ℤ) (i : ℕ) : World P :=
  if (i : ℤ) < n then
    if w.pipe.readopen = false ∨ w.killed p = true then
      w.bail p
    else if w.pipe.nwrite = w.pipe.nread + UInt32.ofNat PIPESIZE then
      -- full: `wakeup(&pi->nread); sleep(&pi->nwrite, &pi->lock);`
      { w with sleeping := Sleep.wake p .nread w.sleeping }.sleep p .nwrite (.writeSleep src n i)
    else
      match src[i]? with
      | some ch =>
        { w with pipe := w.pipe.push ch, pc := Function.update w.pc p (.write src n (i + 1)),
                 accepted := w.accepted ++ [ch] }
      -- `copyin` failed: `break`
      | none => w.exit p .nread i
  else
    w.exit p .nread i

/-- `piperead`'s `while` test. -/
def pipereadWaitStep (w : World P) (p : P) (n : ℤ) (room : ℕ) : World P :=
  if w.pipe.nread = w.pipe.nwrite ∧ w.pipe.writeopen = true then
    if w.killed p = true then w.bail p
    else w.sleep p .nread (.readSleep n room)
  else
    w.goto p (.read n room 0)

/-- One iteration of `piperead`'s copy loop at byte `i`. The byte is taken (`nread++`) before
`copyout` is tried. -/
def pipereadStep (w : World P) (p : P) (n : ℤ) (room i : ℕ) : World P :=
  if (i : ℤ) < n then
    if w.pipe.nread = w.pipe.nwrite then
      w.exit p .nwrite i
    else
      if i < room then
        { w with pipe := w.pipe.pop, pc := Function.update w.pc p (.read n room (i + 1)),
                 delivered := w.delivered ++ [w.pipe.head] }
      else
        -- `copyout` failed: `break`
        { w with pipe := w.pipe.pop }.exit p .nwrite i
  else
    w.exit p .nwrite i

/-- `pipeclose(pi, writable)`. -/
def pipecloseStep (w : World P) (p : P) (writable : Bool) : World P :=
  if writable then
    { w with pipe := { w.pipe with writeopen := false },
             sleeping := Sleep.wake p .nread w.sleeping }
  else
    { w with pipe := { w.pipe with readopen := false },
             sleeping := Sleep.wake p .nwrite w.sleeping }

/-- The next atomic step of a process that is awake, from its program point. Sleeping on a
channel it is not runnable; returning from `sleep` needs `pi->lock` free. -/
def runStep (w : World P) (p : P) : Option (World P) :=
  match w.pc p with
  | .idle | .done _ => none
  | .write src n i => if w.lock = some p then some (pipewriteStep w p src n i) else none
  | .writeSleep src n i =>
    if w.lock = none then some { w with lock := some p, pc := Function.update w.pc p (.write src n i) }
    else none
  | .readWait n room => if w.lock = some p then some (pipereadWaitStep w p n room) else none
  | .readSleep n room =>
    if w.lock = none then some { w with lock := some p, pc := Function.update w.pc p (.readWait n room) }
    else none
  | .read n room i => if w.lock = some p then some (pipereadStep w p n room i) else none

variable [Fintype P]

/-- The transition system. A call needs `pi->lock` free and a caller outside the pipe code that
holds the end it uses: `pipewrite` and `piperead` are only reachable through an open file of
that end, and `pipeclose` of an end runs when the last file of that end is closed, so no call
through it is in progress. -/
def step (w : World P) : Act P → Option (World P)
  | .pipewrite p src n =>
    if (w.pc p).outside ∧ w.sleeping p = none ∧ w.lock = none ∧ w.pipe.writeopen = true then
      some { w with lock := some p, pc := Function.update w.pc p (.write src n 0) }
    else none
  | .piperead p n room =>
    if (w.pc p).outside ∧ w.sleeping p = none ∧ w.lock = none ∧ w.pipe.readopen = true then
      some { w with lock := some p, pc := Function.update w.pc p (.readWait n room) }
    else none
  | .pipeclose p writable =>
    if (w.pc p).outside ∧ w.sleeping p = none ∧ w.lock = none ∧
        (if writable then w.pipe.writeopen = true ∧ ∀ q, (w.pc q).writing = false
         else w.pipe.readopen = true ∧ ∀ q, (w.pc q).reading = none) then
      some (pipecloseStep w p writable)
    else none
  | .run p => if w.sleeping p = none then runStep w p else none
  | .kill p =>
    some { w with killed := Function.update w.killed p true,
                  sleeping := Sleep.rouse p w.sleeping }

/-- The state `pipealloc` leaves: both ends open, nothing written, nobody inside a call. -/
def Init (w : World P) : Prop :=
  w.pipe.nread = 0 ∧ w.pipe.nwrite = 0 ∧ w.pipe.readopen = true ∧ w.pipe.writeopen = true ∧
    w.lock = none ∧ (∀ p, w.pc p = .idle ∧ w.sleeping p = none) ∧
    w.accepted = [] ∧ w.delivered = []

/-- The state `pipealloc` returns: `kalloc` filled the page with `5`s, both ends open, the
counters at `0`, no process inside a call. -/
def World.alloc : World P :=
  { pipe := { data := fun _ => 5, nread := 0, nwrite := 0, readopen := true, writeopen := true }
    lock := none, sleeping := fun _ => none, killed := fun _ => false, pc := fun _ => .idle
    accepted := [], delivered := [] }

omit [DecidableEq P] [Fintype P] in
theorem init_alloc : Init (World.alloc : World P) :=
  ⟨rfl, rfl, rfl, rfl, rfl, fun _ => ⟨rfl, rfl⟩, rfl, rfl⟩

/-- The calls whose every `copyin` and `copyout` succeeds. -/
def Act.copiesSucceed : Act P → Prop
  | .pipewrite _ src n => n ≤ src.length
  | .piperead _ n room => n ≤ room
  | _ => True

end Xv6.Pipe
