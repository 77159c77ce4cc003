import Xv6.Param
import Xv6.Lib.Reach
import Mathlib.Data.Fintype.Basic

/-!
# The process table (`kernel/proc.c`)

`proc[NPROC]` with the fields that `p->lock` and `wait_lock` protect (`state`, `chan`, `killed`,
`xstate`, `pid`, `parent`), the `NCPU` CPUs with `c->proc`, and the kernel thread of every
process, as a transition system.

A step is one atomic section of the code: everything one CPU does between two acquisitions or
releases of a `p->lock` or of `wait_lock`. A `proc[]` scan (`allocproc`, `kill`, `wakeup`,
`reparent`, `wait`, `scheduler`) takes one step per slot, as it acquires and releases the slot's
lock, and its index is part of the program point (`KPc`). A lock is held by a CPU, as `lk->cpu`
records; `acquire` is a step enabled only while the lock is free. `sched()` and `swtch` hand
`p->lock` from the process to its CPU's scheduler and back: the scheduler acquires it, switches
to the process, and the process releases it (`forkret`, or the end of `yield` and `sleep`); the
process acquires it again, marks itself `RUNNABLE`, `SLEEPING` or `ZOMBIE` and switches, and the
scheduler releases it. `Context` is what the saved context returns to.

User code is arbitrary: a running process at `KPc.user` may make any of the modelled system
calls, and a timer interrupt may `yield` it wherever it holds no spinlock. `sleep` and `wakeup`
on channels other than a process (pipes, the console, `ticks`) are calls of their own. A
`kalloc`, `proc_pagetable` or `uvmcopy` that fails, and a `copyout` in `wait` that fails, are
the `ok = false` of the step that makes them.

`Trans` lists the atomic sections one by one, with their guards; `step_trans` says that the
executable `step` takes only those, and the invariants are proved over `Trans`.
-/

namespace Xv6

namespace Proc

/-- `enum procstate`. -/
inductive Procstate where
  | UNUSED
  | USED
  | SLEEPING
  | RUNNABLE
  | RUNNING
  | ZOMBIE
  deriving DecidableEq, Repr

/-- A sleep channel `void *chan`: `0`, the address of a `struct proc` (what `wait` sleeps on
and `exit` wakes), or the address of anything else (a pipe's counters, `ticks`, a buffer). -/
inductive Chan where
  | zero
  | proc (p : Fin NPROC)
  | other (a : ℕ)
  deriving DecidableEq, Repr

end Proc

/-- The fields of `struct proc` that `p->lock` and `wait_lock` protect. A parent is a slot of
`proc[]`, `none` for the null pointer. -/
structure Proc where
  state : Proc.Procstate
  chan : Proc.Chan
  killed : Bool
  xstate : ℤ
  pid : ℤ
  parent : Option (Fin NPROC)
  deriving DecidableEq, Repr

namespace Proc

open Procstate

/-- The slot `freeproc` leaves, which is also every slot of the zero-initialized `proc[]`. -/
def free : Proc :=
  { state := UNUSED, chan := .zero, killed := false, xstate := 0, pid := 0, parent := none }

/-- The channel of a `struct proc *`, as `wakeup(initproc)` and `wakeup(p->parent)` use it. -/
def chanOf : Option (Fin NPROC) → Chan
  | none => .zero
  | some p => .proc p

/-- Where a `wakeup` loop returns to. -/
inductive WakeCont where
  /-- The `wakeup(initproc)` for the child at `proc[i]`, inside `reparent`. -/
  | reparent (status : ℤ) (i : ℕ)
  /-- The `wakeup(p->parent)` of `exit`. -/
  | exit (status : ℤ)
  /-- A system call that wakes a channel of its own, such as `pipewrite`'s `wakeup`. -/
  | ret
  deriving DecidableEq, Repr

/-- Where the kernel thread of a process stands: a point between two atomic sections. -/
inductive KPc where
  /-- In user space: what it does next is a system call or a trap. -/
  | user
  /-- About to return `r` from a system call. -/
  | ret (r : ℤ)
  /-- `allocproc` for `fork`, about to `acquire(&p->lock)` of `proc[i]`. -/
  | allocScan (i : ℕ)
  /-- `allocproc` found `np`, set its `pid` and made it `USED`, and still holds its lock: next
  the allocations, `uvmcopy` and the copying in `fork`, up to `release(&np->lock)`. -/
  | allocated (np : Fin NPROC)
  /-- `fork`: `acquire(&wait_lock); np->parent = p; release(&wait_lock);`. -/
  | forkParent (np : Fin NPROC) (pid : ℤ)
  /-- `fork`: `acquire(&np->lock); np->state = RUNNABLE; release(&np->lock); return pid;`. -/
  | forkRun (np : Fin NPROC) (pid : ℤ)
  /-- `exit(status)` with its files closed: `acquire(&wait_lock)`. -/
  | exitStart (status : ℤ)
  /-- `reparent(p)` at `proc[i]`, holding `wait_lock`. -/
  | reparent (status : ℤ) (i : ℕ)
  /-- `wakeup(chan)` at `proc[j]`, going on at `k` after the last slot. -/
  | wake (chan : Chan) (j : ℕ) (k : WakeCont)
  /-- `exit`: `acquire(&p->lock); p->xstate = status; p->state = ZOMBIE; release(&wait_lock);
  sched();`. -/
  | exitZombie (status : ℤ)
  /-- `wait(addr)` at the top of its `for(;;)`: `acquire(&wait_lock)`. -/
  | waitStart (addr : ℕ)
  /-- The scan of `wait` at `proc[i]`, holding `wait_lock`, with `havekids` so far. -/
  | waitScan (addr : ℕ) (havekids : Bool) (i : ℕ)
  /-- `sleep(p, &wait_lock)` in `wait`. -/
  | waitSleep (addr : ℕ)
  /-- `kill(pid)` at `proc[i]`. -/
  | killScan (pid : ℤ) (i : ℕ)
  /-- Switched out by `exit`'s `sched()`: it never runs again. -/
  | zombie
  deriving DecidableEq, Repr

/-- What a `wakeup` loop goes on with after its last slot. -/
def WakeCont.next : WakeCont → KPc
  | .reparent status i => .reparent status (i + 1)
  | .exit status => .exitZombie status
  | .ret => .user

/-- The program points inside the `wait_lock` critical sections of `exit` and `wait`. -/
def KPc.holdsWait : KPc → Bool
  | .reparent .. | .exitZombie _ | .waitScan .. | .waitSleep _ => true
  | .wake _ _ .ret => false
  | .wake .. => true
  | _ => false

/-- The program points that hold a spinlock, where interrupts are off and `yield` cannot
happen. -/
def KPc.locked : KPc → Bool
  | .allocated _ => true
  | k => k.holdsWait

/-- The slot a `fork` in progress has allocated. -/
def KPc.forkChild : KPc → Option (Fin NPROC)
  | .allocated np | .forkParent np _ | .forkRun np _ => some np
  | _ => none

/-- What a saved `p->context` returns to when the scheduler switches to the process. -/
inductive Context where
  /-- Not switched out: the thread is running, or the slot has no thread. -/
  | none
  /-- Inside `yield`'s `sched()`, or at `forkret` for a process that has not run yet: the thread
  goes on with `release(&p->lock)`. -/
  | yield
  /-- Inside `sleep`'s `sched()`: `p->chan = 0; release(&p->lock);`. -/
  | sleep
  deriving DecidableEq, Repr

/-- Where a CPU is. -/
inductive CpuPc where
  /-- `scheduler()` about to `acquire(&p->lock)` of `proc[i]`. -/
  | sched (i : Fin NPROC)
  /-- Running the kernel thread of `c->proc`. -/
  | run
  /-- Back in `scheduler()` from `swtch`: `c->proc = 0; release(&p->lock);`. -/
  | back
  deriving DecidableEq, Repr

/-- `struct cpu`: `c->proc`, and where the CPU is. -/
structure Cpu where
  proc : Option (Fin NPROC)
  pc : CpuPc
  deriving DecidableEq, Repr

/-- The process table, the CPUs and the kernel threads. -/
structure Kernel where
  proc : Fin NPROC → Proc
  /-- The CPU holding `proc[p].lock`. -/
  lock : Fin NPROC → Option (Fin NCPU)
  /-- The CPU holding `wait_lock`. -/
  waitLock : Option (Fin NCPU)
  cpus : Fin NCPU → Cpu
  kpc : Fin NPROC → KPc
  context : Fin NPROC → Context
  initproc : Option (Fin NPROC)
  nextpid : ℤ
  /-- `started` of `main.c`: CPU 0 has finished `userinit`. -/
  started : Bool
  /-- Ghost: the exit statuses `wait` copied out, as (caller, `addr`, value), oldest first. -/
  copied : List (Fin NPROC × ℕ × ℤ)

/-- A system call a process makes from user space. -/
inductive Call where
  | fork
  | exit (status : ℤ)
  | wait (addr : ℕ)
  | kill (pid : ℤ)
  /-- A call that sleeps on a channel of its own, holding its own lock. -/
  | sleep (a : ℕ)
  /-- A call that wakes a channel of its own. -/
  | wakeup (a : ℕ)
  deriving DecidableEq, Repr

/-- Where a call enters the kernel; `sleep` is a step of its own. -/
def Call.entry : Call → KPc
  | .fork => .allocScan 0
  | .exit status => .exitStart status
  | .wait addr => .waitStart addr
  | .kill pid => .killScan pid 0
  | .sleep _ => .user
  | .wakeup a => .wake (.other a) 0 .ret

/-- What happens next: CPU 0 runs `userinit`, the process on a CPU makes a call or is preempted
by a timer interrupt, or a CPU takes its next atomic section; `ok` is whether the allocation or
`copyout` that section makes, if any, succeeds. -/
inductive Act where
  | userinit
  | call (c : Fin NCPU) (call : Call)
  | yield (c : Fin NCPU)
  | step (c : Fin NCPU) (ok : Bool)
  deriving DecidableEq, Repr

namespace Kernel

/-! ### Writing the state -/

variable (s : Kernel)

/-- Write `proc[p]`. -/
@[simp] def setProc (p : Fin NPROC) (x : Proc) : Kernel :=
  { s with proc := Function.update s.proc p x }

/-- `p->state = st`. -/
@[simp] def setState (p : Fin NPROC) (st : Procstate) : Kernel :=
  s.setProc p { s.proc p with state := st }

/-- Set the holder of `proc[p].lock`. -/
@[simp] def setLock (p : Fin NPROC) (h : Option (Fin NCPU)) : Kernel :=
  { s with lock := Function.update s.lock p h }

@[simp] def setCpu (c : Fin NCPU) (x : Cpu) : Kernel :=
  { s with cpus := Function.update s.cpus c x }

/-- Move the kernel thread of `p` to `k`. -/
@[simp] def goto (p : Fin NPROC) (k : KPc) : Kernel :=
  { s with kpc := Function.update s.kpc p k }

@[simp] def setContext (p : Fin NPROC) (x : Context) : Kernel :=
  { s with context := Function.update s.context p x }

/-- `sched()` of `p` on CPU `c`, which holds `p->lock`: save the context and `swtch` to the
scheduler. -/
@[simp] def switchOut (c : Fin NCPU) (p : Fin NPROC) (x : Context) : Kernel :=
  ((s.setLock p (some c)).setContext p x).setCpu c ⟨some p, .back⟩

/-- `release(&wait_lock)`. -/
@[simp] def releaseWait : Kernel := { s with waitLock := none }

/-! ### The atomic sections -/

/-- `allocproc`'s `found:` for `userinit` at boot: `p->pid = allocpid(); p->state = USED;`,
holding the lock, and `initproc = p`. -/
@[simp] def allocInit (p : Fin NPROC) : Kernel :=
  { (s.setProc p { s.proc p with pid := s.nextpid, state := USED }).setLock p (some 0) with
    initproc := some p, nextpid := s.nextpid + 1 }

/-- The rest of `userinit`: `p->state = RUNNABLE; release(&p->lock);`, the context at `forkret`,
then `started = 1`. -/
@[simp] def runInit (p : Fin NPROC) : Kernel :=
  { (((s.setState p RUNNABLE).setLock p none).goto p .user).setContext p .yield with
    started := true }

/-- `sleep(chan, lk)` by `p` on CPU `c`: `acquire(&p->lock); release(lk); p->chan = chan;
p->state = SLEEPING; sched();`, to go on at `k` once woken. -/
@[simp] def sleepOn (c : Fin NCPU) (p : Fin NPROC) (chan : Chan) (k : KPc) : Kernel :=
  ((s.setProc p { s.proc p with chan := chan, state := SLEEPING }).goto p k).switchOut c p .sleep

/-- `yield()` of `p` on CPU `c`: `acquire(&p->lock); p->state = RUNNABLE; sched();`. -/
@[simp] def yieldOn (c : Fin NCPU) (p : Fin NPROC) : Kernel :=
  (s.setState p RUNNABLE).switchOut c p .yield

/-- The scheduler on CPU `c` found `proc[i]` `RUNNABLE`: `p->state = RUNNING; c->proc = p;
swtch(...)`, still holding the lock. -/
@[simp] def dispatch (c : Fin NCPU) (i : Fin NPROC) : Kernel :=
  ((s.setState i RUNNING).setLock i (some c)).setCpu c ⟨some i, .run⟩

/-- Back from `swtch` in the scheduler: `c->proc = 0; release(&p->lock);`, on to the next slot. -/
@[simp] def schedBack (c : Fin NCPU) (p : Fin NPROC) : Kernel :=
  (s.setLock p none).setCpu c ⟨none, .sched (p + 1)⟩

/-- The end of `yield`, or `forkret`: `release(&p->lock)`. -/
@[simp] def resumeYield (p : Fin NPROC) : Kernel :=
  (s.setLock p none).setContext p .none

/-- The end of `sleep`: `p->chan = 0; release(&p->lock);`. -/
@[simp] def resumeSleep (p : Fin NPROC) : Kernel :=
  ((s.setProc p { s.proc p with chan := .zero }).setLock p none).setContext p .none

/-- `allocproc`'s `found:` at `proc[q]` for `fork` by `p` on CPU `c`, holding the lock. -/
@[simp] def allocFound (c : Fin NCPU) (p q : Fin NPROC) : Kernel :=
  { ((s.setProc q { s.proc q with pid := s.nextpid, state := USED }).setLock q (some c)).goto p
      (.allocated q) with nextpid := s.nextpid + 1 }

/-- The rest of `allocproc` and the copying in `fork`, all allocations succeeding: the context
of `np` at `forkret`, `fork` returning `0` in the child, and `release(&np->lock)`. -/
@[simp] def forkCopy (p np : Fin NPROC) : Kernel :=
  ((((s.setLock np none).goto np (.ret 0)).setContext np .yield).goto p
    (.forkParent np (s.proc np).pid))

/-- An allocation failed: `freeproc(np); release(&np->lock); return -1;`. -/
@[simp] def forkFail (p np : Fin NPROC) : Kernel :=
  ((s.setProc np free).setLock np none).goto p (.ret (-1))

/-- `np->parent = p` in `fork`. -/
@[simp] def adopt (p np : Fin NPROC) (pid : ℤ) : Kernel :=
  (s.setProc np { s.proc np with parent := some p }).goto p (.forkRun np pid)

/-- `np->state = RUNNABLE` at the end of `fork`. -/
@[simp] def forkRunnable (p np : Fin NPROC) (pid : ℤ) : Kernel :=
  (s.setState np RUNNABLE).goto p (.ret pid)

/-- `acquire(&wait_lock)` by CPU `c`, going on at `k`. -/
@[simp] def acquireWait (c : Fin NCPU) (p : Fin NPROC) (k : KPc) : Kernel :=
  { s with waitLock := some c }.goto p k

/-- `reparent` found a child at `proc[i]`: `pp->parent = initproc;`, then `wakeup(initproc)`. -/
@[simp] def reparentChild (p : Fin NPROC) (status : ℤ) (i : Fin NPROC) : Kernel :=
  (s.setProc i { s.proc i with parent := s.initproc }).goto p
    (.wake (chanOf s.initproc) 0 (.reparent status i))

/-- One slot of `wakeup(chan)`: `if(p->state == SLEEPING && p->chan == chan) p->state =
RUNNABLE;` at `proc[q]`, under its lock. -/
@[simp] def wakeOne (q : Fin NPROC) (chan : Chan) : Kernel :=
  s.setState q
    (if (s.proc q).state = SLEEPING ∧ (s.proc q).chan = chan then RUNNABLE else (s.proc q).state)

/-- `exit`'s last section, ending in `sched()` with `p->lock` held. -/
@[simp] def exitZombie (c : Fin NCPU) (p : Fin NPROC) (status : ℤ) : Kernel :=
  ((s.releaseWait.setProc p { s.proc p with xstate := status, state := ZOMBIE }).goto p
    .zombie).switchOut c p .none

/-- `release(&wait_lock); return r;` in `wait`. -/
@[simp] def waitRet (p : Fin NPROC) (r : ℤ) : Kernel :=
  s.releaseWait.goto p (.ret r)

/-- `wait` found the zombie child `q` and its `copyout` (if any) succeeded: `freeproc(pp);
release(&pp->lock); release(&wait_lock); return pid;`. -/
@[simp] def reap (p q : Fin NPROC) (addr : ℕ) : Kernel :=
  { s.setProc q free with
    waitLock := none
    copied := if addr ≠ 0 then s.copied ++ [(p, addr, (s.proc q).xstate)] else s.copied }.goto p
    (.ret (s.proc q).pid)

/-- `kill` found `pid` at `proc[q]`: `p->killed = 1;`, and a sleeper is made `RUNNABLE`. -/
@[simp] def killHit (p q : Fin NPROC) : Kernel :=
  (s.setProc q { s.proc q with
      killed := true
      state := if (s.proc q).state = SLEEPING then RUNNABLE else (s.proc q).state }).goto p
    (.ret 0)

/-! ### The step function -/

/-- The first `UNUSED` slot. -/
def firstUnused : Option (Fin NPROC) :=
  (List.finRange NPROC).find? fun i => (s.proc i).state = UNUSED

/-- `userinit()` on CPU 0 before `started`: `allocproc`, then the rest of it. -/
def userinit : Option Kernel :=
  match s.initproc with
  | none => s.firstUnused.map s.allocInit
  | some p => if s.started then none else some (s.runInit p)

/-- The step of the scheduler on CPU `c` at `proc[i]`. -/
def schedStep (c : Fin NCPU) (i : Fin NPROC) : Option Kernel :=
  if s.lock i = none then
    if (s.proc i).state = RUNNABLE then some (s.dispatch c i)
    else some (s.setCpu c ⟨none, .sched (i + 1)⟩)
  else none

/-- The first step of a thread the scheduler switched to. -/
def resumeStep (p : Fin NPROC) : Context → Option Kernel
  | .none => none
  | .yield => some (s.resumeYield p)
  | .sleep => some (s.resumeSleep p)

/-- A system call of `p` on CPU `c`. `exit` of `initproc` panics. -/
def callStep (c : Fin NCPU) (p : Fin NPROC) : Call → Option Kernel
  | .sleep a => if s.lock p = none then some (s.sleepOn c p (.other a) .user) else none
  | .exit status => if s.initproc = some p then none else some (s.goto p (.exitStart status))
  | call => some (s.goto p call.entry)

/-- An iteration of `allocproc`'s scan at `proc[i]`. -/
def allocStep (c : Fin NCPU) (p : Fin NPROC) (i : ℕ) : Option Kernel :=
  if h : i < NPROC then
    if s.lock ⟨i, h⟩ = none then
      if (s.proc ⟨i, h⟩).state = UNUSED then some (s.allocFound c p ⟨i, h⟩)
      else some (s.goto p (.allocScan (i + 1)))
    else none
  else some (s.goto p (.ret (-1)))

/-- An iteration of `reparent(p)` at `proc[i]`, or its end, `wakeup(p->parent)`. -/
def reparentStep (p : Fin NPROC) (status : ℤ) (i : ℕ) : Kernel :=
  if h : i < NPROC then
    if (s.proc ⟨i, h⟩).parent = some p then s.reparentChild p status ⟨i, h⟩
    else s.goto p (.reparent status (i + 1))
  else s.goto p (.wake (chanOf (s.proc p).parent) 0 (.exit status))

/-- An iteration of `wakeup(chan)` by `p` at `proc[j]`, skipping `myproc()`. -/
def wakeStep (p : Fin NPROC) (chan : Chan) (j : ℕ) (k : WakeCont) : Option Kernel :=
  if h : j < NPROC then
    if (⟨j, h⟩ : Fin NPROC) = p then some (s.goto p (.wake chan (j + 1) k))
    else if s.lock ⟨j, h⟩ = none then some ((s.wakeOne ⟨j, h⟩ chan).goto p (.wake chan (j + 1) k))
    else none
  else some (s.goto p k.next)

/-- An iteration of `wait`'s scan at `proc[i]`, or, after the last slot, its test
`if(!havekids || killed(p))`. -/
def waitStep (p : Fin NPROC) (ok : Bool) (addr : ℕ) (havekids : Bool) (i : ℕ) :
    Option Kernel :=
  if h : i < NPROC then
    if (s.proc ⟨i, h⟩).parent = some p then
      if s.lock ⟨i, h⟩ = none then
        if (s.proc ⟨i, h⟩).state = ZOMBIE then
          if addr ≠ 0 ∧ ok = false then some (s.waitRet p (-1))
          else some (s.reap p ⟨i, h⟩ addr)
        else some (s.goto p (.waitScan addr true (i + 1)))
      else none
    else some (s.goto p (.waitScan addr havekids (i + 1)))
  else if havekids = false then some (s.waitRet p (-1))
  else if s.lock p = none then
    if (s.proc p).killed then some (s.waitRet p (-1)) else some (s.goto p (.waitSleep addr))
  else none

/-- An iteration of `kill(pid)`'s scan at `proc[i]`. -/
def killStep (p : Fin NPROC) (pid : ℤ) (i : ℕ) : Option Kernel :=
  if h : i < NPROC then
    if s.lock ⟨i, h⟩ = none then
      if (s.proc ⟨i, h⟩).pid = pid then some (s.killHit p ⟨i, h⟩)
      else some (s.goto p (.killScan pid (i + 1)))
    else none
  else some (s.goto p (.ret (-1)))

/-- The next atomic section of the kernel thread of `p` on CPU `c`, at `k`. -/
def runStep (c : Fin NCPU) (p : Fin NPROC) (ok : Bool) : KPc → Option Kernel
  | .user => none
  | .ret _ => some (s.goto p .user)
  | .allocScan i => s.allocStep c p i
  | .allocated np => some (if ok then s.forkCopy p np else s.forkFail p np)
  | .forkParent np pid => if s.waitLock = none then some (s.adopt p np pid) else none
  | .forkRun np pid => if s.lock np = none then some (s.forkRunnable p np pid) else none
  | .exitStart status =>
    if s.waitLock = none then some (s.acquireWait c p (.reparent status 0)) else none
  | .reparent status i => some (s.reparentStep p status i)
  | .wake chan j k => s.wakeStep p chan j k
  | .exitZombie status => if s.lock p = none then some (s.exitZombie c p status) else none
  | .waitStart addr =>
    if s.waitLock = none then some (s.acquireWait c p (.waitScan addr false 0)) else none
  | .waitScan addr havekids i => s.waitStep p ok addr havekids i
  | .waitSleep addr =>
    if s.lock p = none then some (s.releaseWait.sleepOn c p (.proc p) (.waitStart addr))
    else none
  | .killScan pid i => s.killStep p pid i
  | .zombie => none

/-- One step. Before `started` only `userinit` runs: the other CPUs spin in `main`. -/
def step : Act → Option Kernel
  | .userinit => s.userinit
  | .call c call =>
    if s.started then
      match s.cpus c with
      | ⟨some p, .run⟩ =>
        if s.context p = .none ∧ s.kpc p = .user then s.callStep c p call else none
      | _ => none
    else none
  | .yield c =>
    if s.started then
      match s.cpus c with
      | ⟨some p, .run⟩ =>
        if s.context p = .none ∧ (s.kpc p).locked = false ∧ s.lock p = none then
          some (s.yieldOn c p)
        else none
      | _ => none
    else none
  | .step c ok =>
    if s.started then
      match s.cpus c with
      | ⟨none, .sched i⟩ => s.schedStep c i
      | ⟨some p, .back⟩ => some (s.schedBack c p)
      | ⟨some p, .run⟩ =>
        match s.context p with
        | .none => s.runStep c p ok (s.kpc p)
        | x => s.resumeStep p x
      | _ => none
    else none

end Kernel

/-- The state after `procinit`: every slot zero and `UNUSED`, every lock free, every CPU about
to start `scheduler()`, `nextpid = 1`. -/
def boot : Kernel :=
  { proc := fun _ => free, lock := fun _ => none, waitLock := none,
    cpus := fun _ => ⟨none, .sched 0⟩, kpc := fun _ => .user, context := fun _ => .none,
    initproc := none, nextpid := 1, started := false, copied := [] }

/-- The states of a run from boot, whatever the interleaving. -/
def Reachable (s : Kernel) : Prop :=
  Reach.Reachable (· = boot) Kernel.step (fun _ => True) s

end Proc

end Xv6
