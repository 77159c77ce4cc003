import Xv6.Pipe.Model

/-!
# The pipe is a FIFO

`Pipe.count` is `nwrite - nread` in the code's wrapping arithmetic and `Pipe.contents` the
buffered bytes, oldest first. Since `PIPESIZE` divides `2 ^ 32`, indexing with
`nwrite % PIPESIZE` and the full test `nwrite == nread + PIPESIZE` keep their meaning after the
counters wrap (`full_iff`, `contents_push`, `contents_pop`).

`FifoInv` holds in every reachable state when every copy succeeds (`fifoInv_of_reachable`):
at most `PIPESIZE` bytes are buffered, and the bytes handed to readers followed by the buffered
ones are exactly the bytes taken from writers. `pipe_fifo` collects what that gives, with
`piperead`'s return of `0` only at end of file.

When a `copyout` fails, `piperead` has already taken the byte it was copying
(`pipereadStep_copyout_fail`): the byte is lost, and a call that delivered nothing returns `0`,
which the reader cannot tell from end of file (`piperead_copyout_fail_loses_byte`).
-/

namespace Xv6

namespace Pipe

/-! ### Counters and contents -/

/-- The number of buffered bytes, `nwrite - nread` as `uint`. -/
def count (pi : Pipe) : ℕ := (pi.nwrite - pi.nread).toNat

/-- The buffered bytes, oldest first. -/
def contents (pi : Pipe) : List UInt8 := Ring.view pi.data pi.nread.toNat pi.count

theorem pipesize_dvd : PIPESIZE ∣ 2 ^ 32 := ⟨2 ^ 23, by decide⟩

@[simp] theorem length_contents (pi : Pipe) : pi.contents.length = pi.count := by
  simp [contents]

/-- The full test of `pipewrite`. -/
theorem full_iff (pi : Pipe) :
    pi.nwrite = pi.nread + UInt32.ofNat PIPESIZE ↔ pi.count = PIPESIZE := by
  rw [Ring.eq_add_iff_toNat_sub]
  rfl

/-- The empty test of `piperead`. -/
theorem empty_iff (pi : Pipe) : pi.nread = pi.nwrite ↔ pi.count = 0 := by
  have h := Ring.eq_add_iff_toNat_sub pi.nread pi.nwrite 0
  rw [UInt32.add_zero] at h
  rw [eq_comm, h]
  rfl

theorem count_push (pi : Pipe) (ch : UInt8) (h : pi.count < PIPESIZE) :
    (pi.push ch).count = pi.count + 1 := by
  have h' : pi.count + 1 < 2 ^ 32 := by unfold PIPESIZE at h; omega
  exact Ring.toNat_succ_sub pi.nread pi.nwrite h'

/-- **Writing a byte appends it**, as long as the pipe is not full. -/
theorem contents_push (pi : Pipe) (ch : UInt8) (h : pi.count < PIPESIZE) :
    (pi.push ch).contents = pi.contents ++ [ch] := by
  unfold contents
  rw [count_push pi ch h]
  have hslot := Ring.slot_toNat_eq pipesize_dvd pi.nread pi.nwrite
  simp only [push]
  rw [hslot]
  exact Ring.view_push _ _ _ _ h

theorem count_pop (pi : Pipe) (h : 0 < pi.count) : pi.pop.count = pi.count - 1 :=
  Ring.toNat_sub_succ pi.nread pi.nwrite h

/-- **Reading a byte takes the oldest one.** -/
theorem contents_pop (pi : Pipe) (h : 0 < pi.count) : pi.contents = pi.head :: pi.pop.contents := by
  obtain ⟨c, hc⟩ : ∃ c, pi.count = c + 1 := ⟨pi.count - 1, by omega⟩
  have hpop : pi.pop.count = c := by rw [count_pop pi h, hc]; rfl
  unfold contents
  rw [hpop, hc, Ring.view_pop]
  simp only [pop, head]
  rw [Ring.view_toNat_succ pipesize_dvd]

/-! ### The invariant -/

variable {P : Type}

/-- The request `n` and the mapped room of the destination, for a process inside `piperead`. -/
def Pc.readRoom : Pc → Option (ℤ × ℕ)
  | .readWait n room | .readSleep n room | .read n room _ => some (n, room)
  | _ => none

/-- Every reader's destination holds its whole request, so each of its `copyout`s succeeds. -/
def RoomOk (pc : P → Pc) : Prop := ∀ p n room, (pc p).readRoom = some (n, room) → n ≤ room

/-- A reader at the first iteration of the copy loop that holds the lock got there because the
`while` test failed, and nobody has touched the pipe since. -/
def EntryOk (pi : Pipe) (lock : Option P) (pc : P → Pc) : Prop :=
  ∀ p n room, pc p = .read n room 0 → lock = some p → pi.nread ≠ pi.nwrite ∨ pi.writeopen = false

/-- The FIFO invariant. -/
structure FifoInv (w : World P) : Prop where
  count_le : w.pipe.count ≤ PIPESIZE
  /-- What readers got, then what is buffered, is what writers gave. -/
  stream : w.delivered ++ w.pipe.contents = w.accepted
  room : RoomOk w.pc
  entry : EntryOk w.pipe w.lock w.pc

theorem EntryOk.of_none (pi : Pipe) (pc : P → Pc) : EntryOk pi none pc := by
  intro _ _ _ _ h
  cases h

theorem fifoInv_init {w : World P} (h : Init w) : FifoInv w := by
  obtain ⟨hr, hw, -, -, hl, hpc, ha, hd⟩ := h
  have hcount : w.pipe.count = 0 := by simp [count, hr, hw]
  refine ⟨by omega, ?_, ?_, ?_⟩
  · rw [ha, hd, contents, hcount]
    rfl
  · intro p n room hp
    rw [(hpc p).1] at hp
    cases hp
  · rw [hl]
    exact EntryOk.of_none _ _

variable [DecidableEq P]

theorem RoomOk.update {pc : P → Pc} (h : RoomOk pc) {p : P} {c : Pc}
    (hc : ∀ n room, c.readRoom = some (n, room) → n ≤ room) : RoomOk (Function.update pc p c) := by
  intro q n room hq
  by_cases hqp : q = p
  · subst hqp
    rw [Function.update_self] at hq
    exact hc n room hq
  · rw [Function.update_of_ne hqp] at hq
    exact h q n room hq

/-- A lock holder that is not at the copy loop's first iteration satisfies the entry condition
vacuously. -/
theorem EntryOk.update_some (pi : Pipe) (pc : P → Pc) (p : P) {c : Pc}
    (hc : ∀ n room, c ≠ .read n room 0) : EntryOk pi (some p) (Function.update pc p c) := by
  intro q n room hq hl
  obtain rfl : q = p := (Option.some.inj hl).symm
  rw [Function.update_self] at hq
  exact absurd hq (hc n room)

/-- The steps that release the lock without touching the ring or the streams: `sleep`, the
ordinary exits and the early ones. -/
theorem FifoInv.release {w t : World P} (hi : FifoInv w) {p : P} {c : Pc}
    (hpipe : t.pipe = w.pipe) (hacc : t.accepted = w.accepted) (hdel : t.delivered = w.delivered)
    (hlock : t.lock = none) (hpc : t.pc = Function.update w.pc p c)
    (hc : ∀ n room, c.readRoom = some (n, room) → n ≤ room) : FifoInv t := by
  refine ⟨?_, ?_, ?_, ?_⟩
  · rw [hpipe]
    exact hi.count_le
  · rw [hpipe, hacc, hdel]
    exact hi.stream
  · rw [hpc]
    exact hi.room.update hc
  · rw [hlock]
    exact EntryOk.of_none _ _

/-- The steps that take the lock and move only the taker. -/
theorem FifoInv.acquire {w t : World P} (hi : FifoInv w) {p : P} {c : Pc}
    (hpipe : t.pipe = w.pipe) (hacc : t.accepted = w.accepted) (hdel : t.delivered = w.delivered)
    (hlock : t.lock = some p) (hpc : t.pc = Function.update w.pc p c)
    (hc : ∀ n room, c.readRoom = some (n, room) → n ≤ room) (hc0 : ∀ n room, c ≠ .read n room 0) :
    FifoInv t := by
  refine ⟨?_, ?_, ?_, ?_⟩
  · rw [hpipe]
    exact hi.count_le
  · rw [hpipe, hacc, hdel]
    exact hi.stream
  · rw [hpc]
    exact hi.room.update hc
  · rw [hlock, hpc]
    exact EntryOk.update_some _ _ _ hc0

theorem FifoInv.pipewrite_step {w : World P} (hi : FifoInv w) {p : P} {src : List UInt8} {n : ℤ}
    {i : ℕ} (hl : w.lock = some p) : FifoInv (pipewriteStep w p src n i) := by
  have hwr : ∀ c : Pc, c.writing = true → ∀ n room, c.readRoom = some (n, room) → n ≤ room := by
    intro c hc n room hr
    cases c <;> simp_all [Pc.writing, Pc.readRoom]
  unfold Pipe.pipewriteStep
  split_ifs with hlt hclosed hfull
  · exact hi.release rfl rfl rfl rfl rfl (by simp [Pc.readRoom])
  · exact hi.release rfl rfl rfl rfl rfl (hwr _ rfl)
  · split
    · -- `copyin` gave byte `ch`: it is appended to the ring and to the accepted stream
      rename_i ch _
      have hc : w.pipe.count < PIPESIZE :=
        lt_of_le_of_ne hi.count_le (fun h => hfull ((full_iff _).mpr h))
      refine ⟨?_, ?_, hi.room.update (hwr _ rfl), ?_⟩
      · show (w.pipe.push ch).count ≤ PIPESIZE
        rw [count_push _ _ hc]
        omega
      · show w.delivered ++ (w.pipe.push ch).contents = w.accepted ++ [ch]
        rw [contents_push _ _ hc, ← List.append_assoc, hi.stream]
      · show EntryOk (w.pipe.push ch) w.lock (Function.update w.pc p (.write src n (i + 1)))
        rw [hl]
        exact EntryOk.update_some _ _ _ (by simp)
    · exact hi.release rfl rfl rfl rfl rfl (by simp [Pc.readRoom])
  · exact hi.release rfl rfl rfl rfl rfl (by simp [Pc.readRoom])

theorem FifoInv.piperead_wait_step {w : World P} (hi : FifoInv w) {p : P} {n : ℤ} {room : ℕ}
    (hl : w.lock = some p) (hpc : w.pc p = .readWait n room) :
    FifoInv (pipereadWaitStep w p n room) := by
  have hroom : n ≤ room := hi.room p n room (by rw [hpc]; rfl)
  unfold Pipe.pipereadWaitStep
  split_ifs with hwait hk
  · exact hi.release rfl rfl rfl rfl rfl (by simp [Pc.readRoom])
  · exact hi.release rfl rfl rfl rfl rfl (by simpa [Pc.readRoom] using hroom)
  · -- the `while` test failed, which is what `EntryOk` records for the copy loop
    refine ⟨hi.count_le, hi.stream, hi.room.update (by simpa [Pc.readRoom] using hroom), ?_⟩
    intro q n' room' hq hlq
    obtain rfl : q = p := Option.some.inj (hlq.symm.trans hl)
    rw [not_and_or] at hwait
    rcases hwait with h | h
    · exact .inl h
    · exact .inr (show w.pipe.writeopen = false by simpa using h)

theorem FifoInv.piperead_step {w : World P} (hi : FifoInv w) {p : P} {n : ℤ} {room i : ℕ}
    (hl : w.lock = some p) (hpc : w.pc p = .read n room i) :
    FifoInv (pipereadStep w p n room i) := by
  have hroom : n ≤ room := hi.room p n room (by rw [hpc]; rfl)
  unfold Pipe.pipereadStep
  split_ifs with hlt hempty hi'
  · exact hi.release rfl rfl rfl rfl rfl (by simp [Pc.readRoom])
  · -- a byte is taken from the ring and copied out: it moves from the buffer to the readers
    have hc : 0 < w.pipe.count := Nat.pos_of_ne_zero (fun h => hempty ((empty_iff _).mpr h))
    refine ⟨?_, ?_, hi.room.update (by simpa [Pc.readRoom] using hroom), ?_⟩
    · show w.pipe.pop.count ≤ PIPESIZE
      rw [count_pop _ hc]
      have := hi.count_le
      omega
    · show (w.delivered ++ [w.pipe.head]) ++ w.pipe.pop.contents = w.accepted
      rw [List.append_assoc, List.singleton_append, ← contents_pop _ hc, hi.stream]
    · show EntryOk w.pipe.pop w.lock (Function.update w.pc p (.read n room (i + 1)))
      rw [hl]
      exact EntryOk.update_some _ _ _ (by simp)
  · -- `copyout` cannot fail: the destination holds the whole request
    omega
  · exact hi.release rfl rfl rfl rfl rfl (by simp [Pc.readRoom])

theorem FifoInv.run_step {w t : World P} (hi : FifoInv w) {p : P} (h : runStep w p = some t) :
    FifoInv t := by
  unfold Pipe.runStep at h
  split at h
  · cases h
  · cases h
  · rename_i src n i hpc
    split_ifs at h with hl
    obtain rfl := Option.some.inj h
    exact hi.pipewrite_step hl
  · rename_i src n i hpc
    split_ifs at h with hl
    obtain rfl := Option.some.inj h
    exact hi.acquire rfl rfl rfl rfl rfl (by simp [Pc.readRoom]) (by simp)
  · rename_i n room hpc
    split_ifs at h with hl
    obtain rfl := Option.some.inj h
    exact hi.piperead_wait_step hl hpc
  · rename_i n room hpc
    split_ifs at h with hl
    obtain rfl := Option.some.inj h
    have hroom : n ≤ room := hi.room p n room (by rw [hpc]; rfl)
    exact hi.acquire rfl rfl rfl rfl rfl (by simpa [Pc.readRoom] using hroom) (by simp)
  · rename_i n room i hpc
    split_ifs at h with hl
    obtain rfl := Option.some.inj h
    exact hi.piperead_step hl hpc

/-- **`piperead` returns `0` only at end of file**: in the copy loop's first iteration the pipe
is empty only if the `while` test let the reader through with the write end closed. -/
theorem FifoInv.piperead_step_zero {w : World P} (hi : FifoInv w) {p : P} {n : ℤ} {room i : ℕ}
    (hl : w.lock = some p) (hpc : w.pc p = .read n room i) (hn : 0 < n)
    (hd : (pipereadStep w p n room i).pc p = .done 0) :
    (pipereadStep w p n room i).pipe.nread = (pipereadStep w p n room i).pipe.nwrite ∧
      (pipereadStep w p n room i).pipe.writeopen = false := by
  have hroom : n ≤ room := hi.room p n room (by rw [hpc]; rfl)
  unfold Pipe.pipereadStep at hd ⊢
  split_ifs at hd ⊢ with hlt hempty hi'
  · -- the loop broke at once on an empty pipe
    simp only [World.exit, Function.update_self, Pc.done.injEq] at hd
    obtain rfl : i = 0 := by omega
    refine ⟨hempty, ?_⟩
    rcases hi.entry p n room hpc hl with h | h
    · exact absurd hempty h
    · exact h
  · simp at hd
  · omega
  · simp only [World.exit, Function.update_self, Pc.done.injEq] at hd
    omega

theorem FifoInv.run_step_read_zero {w t : World P} (hi : FifoInv w) {p : P} {n : ℤ}
    (hr : (w.pc p).reading = some n) (hn : 0 < n) (h : runStep w p = some t)
    (hd : t.pc p = .done 0) : t.pipe.nread = t.pipe.nwrite ∧ t.pipe.writeopen = false := by
  unfold Pipe.runStep at h
  split at h <;> rename_i hpc <;> rw [hpc] at hr <;> simp only [Pc.reading, reduceCtorEq] at hr
  · -- the `while` test never returns `0`
    split_ifs at h with hl
    obtain rfl := Option.some.inj h
    unfold Pipe.pipereadWaitStep at hd
    split_ifs at hd <;> simp [World.bail, World.sleep, World.goto] at hd
  · split_ifs at h with hl
    obtain rfl := Option.some.inj h
    simp at hd
  · split_ifs at h with hl
    obtain rfl := Option.some.inj h
    obtain rfl := Option.some.inj hr
    exact hi.piperead_step_zero hl hpc hn hd

variable [Fintype P]

/-- **One step keeps the FIFO invariant**, when its copies succeed. -/
theorem FifoInv.of_step {w t : World P} {a : Act P} (hi : FifoInv w) (ha : a.copiesSucceed)
    (h : step w a = some t) : FifoInv t := by
  cases a with
  | pipewrite p src n =>
    simp only [Pipe.step] at h
    split_ifs at h
    obtain rfl := Option.some.inj h
    exact hi.acquire rfl rfl rfl rfl rfl (by simp [Pc.readRoom]) (by simp)
  | piperead p n room =>
    simp only [Pipe.step] at h
    split_ifs at h
    obtain rfl := Option.some.inj h
    simp only [Act.copiesSucceed] at ha
    exact hi.acquire rfl rfl rfl rfl rfl (by simpa [Pc.readRoom] using ha) (by simp)
  | pipeclose p writable =>
    have hclose : ∀ b, w.lock = none → FifoInv (pipecloseStep w p b) := by
      intro b hl
      have hentry : EntryOk (pipecloseStep w p b).pipe w.lock w.pc := by
        rw [hl]
        exact EntryOk.of_none _ _
      cases b <;> exact ⟨hi.count_le, hi.stream, hi.room, hentry⟩
    cases writable <;> simp only [Pipe.step, Bool.false_eq_true, ↓reduceIte] at h <;>
      split_ifs at h with hg <;> obtain rfl := Option.some.inj h <;> exact hclose _ hg.2.2.1
  | run p =>
    simp only [Pipe.step] at h
    split_ifs at h
    exact hi.run_step h
  | kill p =>
    simp only [Pipe.step, Option.some.injEq] at h
    subst h
    exact ⟨hi.count_le, hi.stream, hi.room, hi.entry⟩

/-- `FifoInv` holds in every state reachable through calls whose copies succeed. -/
theorem fifoInv_of_reachable {w : World P}
    (hw : Reach.Reachable Init step Act.copiesSucceed w) : FifoInv w :=
  hw.invariant (fun _ h => fifoInv_init h) (fun _ _ _ hi ha h => hi.of_step ha h)

/-- **The pipe is a FIFO, whatever the interleaving and however often the counters wrap.** In
every state reachable through calls whose `copyin`s and `copyout`s succeed, with any number of
readers and writers: `nwrite - nread` (mod `2 ^ 32`) is at most `PIPESIZE`; the bytes handed to
readers, in step order, are a prefix of the bytes taken from writers, and what is still buffered
is exactly the rest, in order (nothing lost, duplicated or reordered); and a `piperead` of
`n > 0` bytes returns `0` only in a step where `nread = nwrite` and the write end is closed. -/
theorem pipe_fifo {w : World P} (hw : Reach.Reachable Init step Act.copiesSucceed w) :
    (w.pipe.nwrite - w.pipe.nread).toNat ≤ PIPESIZE ∧ w.delivered <+: w.accepted ∧
      w.delivered ++ w.pipe.contents = w.accepted ∧
      ∀ p n t, (w.pc p).reading = some n → 0 < n → step w (.run p) = some t →
        t.pc p = .done 0 → t.pipe.nread = t.pipe.nwrite ∧ t.pipe.writeopen = false := by
  have hi := fifoInv_of_reachable hw
  refine ⟨hi.count_le, ⟨w.pipe.contents, hi.stream⟩, hi.stream, ?_⟩
  intro p n t hr hn h hd
  simp only [Pipe.step] at h
  split_ifs at h
  exact hi.run_step_read_zero hr hn h hd

/-! ### A failed `copyout` -/

omit [Fintype P] in
/-- The iteration of `piperead`'s copy loop whose `copyout` fails has already taken the byte
with `nread++`: the byte leaves the pipe without reaching the reader, and the call returns the
count of bytes before it, `0` if it is the first. -/
theorem pipereadStep_copyout_fail (w : World P) (p : P) {n : ℤ} {room i : ℕ} (hn : (i : ℤ) < n)
    (hne : w.pipe.nread ≠ w.pipe.nwrite) (hroom : room ≤ i) :
    w.pipe.contents = w.pipe.head :: (pipereadStep w p n room i).pipe.contents ∧
      (pipereadStep w p n room i).delivered = w.delivered ∧
      (pipereadStep w p n room i).pc p = .done i := by
  have hc : 0 < w.pipe.count := Nat.pos_of_ne_zero (fun h => hne ((empty_iff _).mpr h))
  have hstep : pipereadStep w p n room i = { w with pipe := w.pipe.pop }.exit p .nwrite i := by
    unfold Pipe.pipereadStep
    rw [if_pos hn, if_neg hne, if_neg (by omega)]
  rw [hstep]
  exact ⟨contents_pop _ hc, rfl, by simp [World.exit]⟩

/-- A reader asks for one byte into a buffer whose first byte is not mapped, from a pipe that
holds the byte `65`: the failing `copyout` leaves the pipe empty, the reader got nothing, and
`piperead` returns `0`, as at end of file. -/
theorem piperead_copyout_fail_loses_byte :
    ∃ w : World (Fin 2), Reach.Reachable Init step (fun _ => True) w ∧ ∃ t,
      w.pc 1 = .read 1 0 0 ∧ step w (.run 1) = some t ∧ w.pipe.contents = [65] ∧
      t.pipe.contents = [] ∧ t.delivered = [] ∧ t.pc 1 = .done 0 := by
  refine ⟨_, @Reach.Reachable.of_run _ _ Init step (fun _ => True) World.alloc _
    [.pipewrite 0 [65] 1, .run 0, .run 0, .piperead 1 1 0, .run 1] init_alloc (by simp) rfl,
    _, rfl, rfl, by decide, by decide, rfl, rfl⟩

end Pipe

end Xv6
