import Xv6.Lib.Reach
import Xv6.Lib.Ring
import Mathlib.Data.Fintype.Basic

/-!
# Console input (`kernel/console.c`)

The input half of `struct cons` is an `INPUT_BUF_SIZE`-byte ring with three free-running `uint`
counters: `r` (the next byte `consoleread` takes), `w` (the end of the bytes handed to readers)
and `e` (the end of the line being edited). Byte `k` of the input sits in slot
`k % INPUT_BUF_SIZE`.

`consoleintr(c)` runs with `cons.lock` held and is one atomic step: it edits the line
(`^H`, DEL, `^U`), or stores a byte at `e` and, at a newline, a `^D` or a full buffer, commits
the line (`w = e`) and wakes the readers. Its echo and `procdump` only print and are left out.

The readers are processes, as in the pipe model: a step of `consoleread` is one iteration of its
`while(n > 0)` loop, taken while `cons.lock` stays held, or the return from
`sleep(&cons.r, &cons.lock)`. `kill` sets `p->killed` between any two steps and wakes `p`.
The destination is modelled by its mapped prefix `room`: the loop copies one byte at a time and
stops at the first fault, so only the length of that prefix matters.

Two ghost fields record the bytes committed to readers (`committed`) and the bytes
`consoleread` copied out (`delivered`), each in order.
-/

namespace Xv6

/-- `INPUT_BUF_SIZE`. -/
def INPUT_BUF_SIZE : ℕ := 128

instance : NeZero INPUT_BUF_SIZE := ⟨by decide⟩

namespace Console

/-- `C(x)`: the byte control-`x` sends, `x - '@'`. -/
def C (x : Char) : UInt8 := x.toUInt8 - '@'.toUInt8

/-- The input half of `struct cons`. -/
structure Cons where
  buf : Fin INPUT_BUF_SIZE → UInt8
  /-- Read index. -/
  r : UInt32
  /-- Write index. -/
  w : UInt32
  /-- Edit index. -/
  e : UInt32

namespace Cons

/-- `cons.buf[i % INPUT_BUF_SIZE]`. -/
def get (cons : Cons) (i : UInt32) : UInt8 := cons.buf (Ring.slot INPUT_BUF_SIZE i.toNat)

/-- The bytes from counter `a` up to counter `b`, `b - a` of them in wrapping arithmetic. -/
def window (cons : Cons) (a b : UInt32) : List UInt8 := Ring.view cons.buf a.toNat (b - a).toNat

/-- `cons.buf[cons.e++ % INPUT_BUF_SIZE] = c;`. -/
def store (cons : Cons) (c : UInt8) : Cons :=
  { cons with buf := Function.update cons.buf (Ring.slot INPUT_BUF_SIZE cons.e.toNat) c
              e := cons.e + 1 }

/-- `cons.e--`: erase the last byte of the line. -/
def erase (cons : Cons) : Cons := { cons with e := cons.e - 1 }

/-- `cons.w = cons.e;`: hand the edited line to the readers. -/
def commit (cons : Cons) : Cons := { cons with w := cons.e }

/-- `cons.r++`, after reading `cons.buf[cons.r % INPUT_BUF_SIZE]`. -/
def pop (cons : Cons) : Cons := { cons with r := cons.r + 1 }

/-- `cons.r--`: put the byte just taken back. -/
def unget (cons : Cons) : Cons := { cons with r := cons.r - 1 }

/-- The loop of `^U`,
`while(cons.e != cons.w && cons.buf[(cons.e-1) % INPUT_BUF_SIZE] != '\n') cons.e--;`,
for at most `fuel` rounds. `consoleintr` gives it `e - w` rounds, which is enough: each round
brings `e` one closer to `w` (`killLine_exit`). -/
def killLine : ℕ → Cons → Cons
  | 0, cons => cons
  | fuel + 1, cons =>
    if cons.e ≠ cons.w ∧ cons.get (cons.e - 1) ≠ '\n'.toUInt8 then
      killLine fuel cons.erase
    else cons

end Cons

/-- `consoleintr(c)` between `acquire(&cons.lock)` and `release(&cons.lock)`: the new state, and
whether it called `wakeup(&cons.r)`. -/
def consoleintr (cons : Cons) (c : UInt8) : Cons × Bool :=
  if c = C 'P' then (cons, false)
  else if c = C 'U' then (cons.killLine (cons.e - cons.w).toNat, false)
  else if c = C 'H' ∨ c = '\x7f'.toUInt8 then
    if cons.e ≠ cons.w then (cons.erase, false) else (cons, false)
  else if c ≠ 0 ∧ (cons.e - cons.r).toNat < INPUT_BUF_SIZE then
    let c := if c = '\r'.toUInt8 then '\n'.toUInt8 else c
    let cons := cons.store c
    if c = '\n'.toUInt8 ∨ c = C 'D' ∨ (cons.e - cons.r).toNat = INPUT_BUF_SIZE then
      (cons.commit, true)
    else (cons, false)
  else (cons, false)

/-- Where a process is in `consoleread`. -/
inductive Pc where
  /-- Outside `consoleread`. -/
  | idle
  /-- At the test of `while(n > 0)`, holding `cons.lock`, having been asked for `target` bytes
  with `n` still wanted. `room` is the mapped prefix of the destination: the copy of the
  call's byte `k` succeeds iff `k < room`. -/
  | read (target n room : ℕ)
  /-- In `sleep(&cons.r, &cons.lock)`. It wakes at the test `cons.r == cons.w`, inside the
  outer loop with `n > 0`, so it resumes at `read` with the same `n`. -/
  | readSleep (target n room : ℕ)
  /-- Returned `r` from `consoleread`. -/
  | done (r : ℤ)
  deriving DecidableEq

/-- Outside `consoleread`, so free to make a new call. -/
def Pc.outside : Pc → Bool
  | .idle | .done _ => true
  | _ => false

/-- The console and the processes that read from it. -/
structure World (P : Type) where
  cons : Cons
  /-- The process holding `cons.lock`. -/
  lock : Option P
  /-- `p` sleeps on `&cons.r`, the only channel of the console. -/
  sleeping : P → Bool
  killed : P → Bool
  pc : P → Pc
  /-- Ghost: the bytes committed to readers by `cons.w = cons.e`, in order. -/
  committed : List UInt8
  /-- Ghost: the bytes `consoleread` copied out, in order. -/
  delivered : List UInt8

/-- What can happen next: a character arrives, a process calls `consoleread(n)` with a
destination whose first `room` bytes are mapped, takes its next step, or is killed. -/
inductive Act (P : Type) where
  | consoleintr (c : UInt8)
  | consoleread (p : P) (n room : ℕ)
  | run (p : P)
  | kill (p : P)

variable {P : Type} [DecidableEq P]

namespace World

/-- `p` moves to program point `c`. -/
def goto (w : World P) (p : P) (c : Pc) : World P :=
  { w with pc := Function.update w.pc p c }

/-- `release(&cons.lock); return r;`. -/
def exit (w : World P) (p : P) (r : ℤ) : World P :=
  { w with lock := none, pc := Function.update w.pc p (.done r) }

/-- `sleep(&cons.r, &cons.lock)`: release the lock and sleep, resuming at `c`. -/
def sleep (w : World P) (p : P) (c : Pc) : World P :=
  { w with lock := none, sleeping := Function.update w.sleeping p true,
           pc := Function.update w.pc p c }

end World

/-- One iteration of `consoleread`'s loop, holding `cons.lock`. The byte is taken (`cons.r++`)
before it is tested for `^D` and before `either_copyout` is tried. -/
def consolereadStep (w : World P) (p : P) (target n room : ℕ) : World P :=
  if 0 < n then
    if w.cons.r = w.cons.w then
      if w.killed p then w.exit p (-1)
      else w.sleep p (.readSleep target n room)
    else
      let c := w.cons.get w.cons.r
      let cons := w.cons.pop
      if c = C 'D' then
        -- end-of-file: a `^D` after some bytes is saved for the next call
        let cons := if n < target then cons.unget else cons
        { w with cons }.exit p (target - n : ℕ)
      else if target - n < room then
        let w := { w with cons, delivered := w.delivered ++ [c] }
        if c = '\n'.toUInt8 then w.exit p (target - (n - 1) : ℕ)
        else w.goto p (.read target (n - 1) room)
      else
        -- `either_copyout` failed: `break`
        { w with cons }.exit p (target - n : ℕ)
  else
    w.exit p (target - n : ℕ)

/-- The next atomic step of a process that is awake, from its program point. Returning from
`sleep` needs `cons.lock` free. -/
def runStep (w : World P) (p : P) : Option (World P) :=
  match w.pc p with
  | .idle | .done _ => none
  | .read target n room =>
    if w.lock = some p then some (consolereadStep w p target n room) else none
  | .readSleep target n room =>
    if w.lock = none then
      some { w with lock := some p, pc := Function.update w.pc p (.read target n room) }
    else none

/-- `consoleintr(c)` in the world. The readers wake if it called `wakeup(&cons.r)`, and the
ghost `committed` grows by the bytes it committed, from the old `w` to the new one. -/
def World.intr (w : World P) (c : UInt8) : World P :=
  let cons := (consoleintr w.cons c).1
  { w with cons
           sleeping := if (consoleintr w.cons c).2 then fun _ => false else w.sleeping
           committed := w.committed ++ cons.window w.cons.w cons.w }

/-- The transition system. `consoleintr` and a call of `consoleread` both start with
`acquire(&cons.lock)`; `wakeup(&cons.r)` wakes every sleeper, as they all sleep on `&cons.r`. -/
def step (w : World P) : Act P → Option (World P)
  | .consoleintr c => if w.lock = none then some (w.intr c) else none
  | .consoleread p n room =>
    if (w.pc p).outside ∧ w.sleeping p = false ∧ w.lock = none then
      some { w with lock := some p, pc := Function.update w.pc p (.read n n room) }
    else none
  | .run p => if w.sleeping p = false then runStep w p else none
  | .kill p =>
    some { w with killed := Function.update w.killed p true,
                  sleeping := Function.update w.sleeping p false }

/-- A quiet console: nothing typed since the last commit, and no process inside a call. The
counters may have any common value, so runs from here cover every wrap of them. -/
def Init (w : World P) : Prop :=
  w.cons.r = w.cons.w ∧ w.cons.w = w.cons.e ∧ w.lock = none ∧
    (∀ p, w.pc p = .idle ∧ w.sleeping p = false) ∧ w.committed = [] ∧ w.delivered = []

/-- The state after boot: `cons` is a zeroed global. -/
def World.boot : World P :=
  { cons := { buf := fun _ => 0, r := 0, w := 0, e := 0 }
    lock := none, sleeping := fun _ => false, killed := fun _ => false, pc := fun _ => .idle
    committed := [], delivered := [] }

omit [DecidableEq P] in
theorem init_boot : Init (World.boot : World P) :=
  ⟨rfl, rfl, rfl, fun _ => ⟨rfl, rfl⟩, rfl, rfl⟩

/-- The calls whose every `either_copyout` succeeds. -/
def Act.copiesSucceed : Act P → Prop
  | .consoleread _ n room => n ≤ room
  | _ => True

end Console

end Xv6
