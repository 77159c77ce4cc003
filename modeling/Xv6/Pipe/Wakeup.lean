import Xv6.Pipe.Model

/-!
# Lost wakeups on a pipe

The wakeup discipline of `pipe.c` is that, whenever `pi->lock` is free, nobody sleeps on
`&pi->nread` while there is something to read or the write end is closed, and nobody sleeps on
`&pi->nwrite` while there is room or the read end is closed (`NoLostWakeup`): every exit from
`pipewrite` and `piperead` would have to wake the other side before it releases the lock.

`pipewrite`'s early exit

    if(pi->readopen == 0 || killed(pr)){
      release(&pi->lock);
      return -1;
    }

releases the lock without the `wakeup(&pi->nread)` that its other two exits issue. It runs at
the top of every iteration, so a writer that put a byte into an empty pipe and is killed before
its next iteration leaves the reader that was waiting for that byte asleep
(`pipe_lost_wakeup`).
-/

namespace Xv6

namespace Pipe

variable {P : Type} [DecidableEq P]

/-- No sleeper on either channel of the pipe has missed the wakeup for the condition it waits
for, whenever the lock is free. -/
def NoLostWakeup (w : World P) : Prop :=
  w.lock = none → ∀ p,
    (w.sleeping p = some .nread → w.pipe.nread = w.pipe.nwrite ∧ w.pipe.writeopen = true) ∧
    (w.sleeping p = some .nwrite →
      w.pipe.nwrite = w.pipe.nread + UInt32.ofNat PIPESIZE ∧ w.pipe.readopen = true)

/-- **A killed writer loses the reader's wakeup.** Process `0` reads from the empty pipe and
sleeps on `&pi->nread`; process `1` calls `pipewrite` for two bytes, writes the first, is
killed, and at the top of its loop takes the early exit. The lock is free, the pipe holds one
byte, and process `0` still sleeps on `&pi->nread`. -/
theorem pipe_lost_wakeup :
    ¬ ∀ w : World (Fin 2), Reach.Reachable Init step (fun _ => True) w → NoLostWakeup w := by
  intro h
  have hw := h _ (@Reach.Reachable.of_run _ _ Init step (fun _ => True) World.alloc _
    [.piperead 0 1 1, .run 0, .pipewrite 1 [65, 66] 2, .run 1, .kill 1, .run 1] init_alloc
    (by simp) rfl)
  have hsleep := ((hw rfl) 0).1 rfl
  exact absurd hsleep.1 (by decide)

end Pipe

end Xv6
