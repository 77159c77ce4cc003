import Xv6.User.Primes.Model
import Mathlib.Data.List.Infix

/-!
# The descriptor tables of `primes`

Between its calls, every process of `primes` has one of a few tables, and `connect` moves
between them:

* `sinkFds inp`: `inp` at `STDIN`, the console at 1 and 2. The sink has it with `inp` the
  console before the first pipe and then the read end of the pipe it reads.
* `forkFds j`: the sink's table with the two ends of pipe `j` at 3 and 4, as `pipe` leaves it,
  and as `fork` copies it to the child.
* `writerFds j`: the child after `connect(STDOUT, pd)`, the writer of pipe `j`, with the write
  end at `STDOUT` and the sink's old input at `STDIN`.

`connect(STDIN, pd)` takes `forkFds j` to `sinkFds` of the read end of `j`
(`runCalls_connect_stdin`), and `connect(STDOUT, pd)` takes it to `writerFds j`
(`runCalls_connect_stdout`). Inside `connect`, each end still has a descriptor: the lemmas
`stdin_window` and `stdout_window` say which, after each prefix of the calls.
-/

namespace Xv6

namespace Primes

/-- The sink's `STDIN` when it makes pipe `j`: the console before the first pipe, then the read
end of the pipe before. -/
def inputOf : ℕ → Fd
  | 0 => .console
  | j + 1 => .pipe j false

/-- `inp` at `STDIN` and the console at 1 and 2. -/
def sinkFds (inp : Fd) (fd : ℕ) : Option Fd :=
  if fd = STDIN then some inp else if fd < 3 then some .console else none

/-- The table `pipe` leaves when it makes pipe `j`: the ends at 3 and 4. -/
def forkFds (j : ℕ) : ℕ → Option Fd :=
  Function.update (Function.update (sinkFds (inputOf j)) 3 (some (.pipe j false))) 4
    (some (.pipe j true))

/-- The writer of pipe `j` after `connect(STDOUT, pd)`. -/
def writerFds (j : ℕ) : ℕ → Option Fd :=
  Function.update (sinkFds (inputOf j)) STDOUT (some (.pipe j true))

theorem inputOf_eq_pipe {j k : ℕ} {wr : Bool} :
    inputOf j = .pipe k wr ↔ j = k + 1 ∧ wr = false := by
  cases j with
  | zero => simp [inputOf]
  | succ j => simp [inputOf, eq_comm]

theorem sinkFds_eq_pipe {inp : Fd} {fd j : ℕ} {wr : Bool} :
    sinkFds inp fd = some (.pipe j wr) ↔ fd = STDIN ∧ inp = .pipe j wr := by
  unfold sinkFds
  split_ifs <;> simp_all

theorem writerFds_eq_pipe {k fd j : ℕ} {wr : Bool} :
    writerFds k fd = some (.pipe j wr) ↔
      fd = STDIN ∧ k = j + 1 ∧ wr = false ∨ fd = STDOUT ∧ k = j ∧ wr = true := by
  unfold writerFds
  rcases eq_or_ne fd STDOUT with rfl | h1
  · simp [STDIN, STDOUT, eq_comm]
  · rw [Function.update_of_ne h1, sinkFds_eq_pipe, inputOf_eq_pipe]
    rw [stdout_eq] at h1
    simp [h1]

@[simp] theorem writerFds_zero (j : ℕ) : writerFds j 0 = some (inputOf j) := rfl

@[simp] theorem writerFds_one (j : ℕ) : writerFds j 1 = some (.pipe j true) := rfl

@[simp] theorem sinkFds_zero (inp : Fd) : sinkFds inp 0 = some inp := rfl

@[simp] theorem sinkFds_one (inp : Fd) : sinkFds inp 1 = some .console := rfl

/-- The table `World.init` gives the first process. -/
theorem sinkFds_console : sinkFds (inputOf 0) = fun fd => if fd < 3 then some .console else none := by
  funext fd
  unfold sinkFds
  split_ifs <;> simp_all [inputOf]

@[simp] theorem forkFds_zero (j : ℕ) : forkFds j 0 = some (inputOf j) := by
  simp [forkFds]

@[simp] theorem forkFds_one (j : ℕ) : forkFds j 1 = some .console := by
  simp [forkFds, sinkFds]

@[simp] theorem forkFds_three (j : ℕ) : forkFds j 3 = some (.pipe j false) := by
  simp [forkFds]

@[simp] theorem forkFds_four (j : ℕ) : forkFds j 4 = some (.pipe j true) := by
  simp [forkFds]

/-! ### `pipe` -/

theorem fdalloc_sinkFds (inp : Fd) : fdalloc (sinkFds inp) = some 3 := by
  apply fdalloc_eq_some (by decide) (by simp [sinkFds])
  intro fd hfd
  unfold sinkFds
  split_ifs <;> simp_all

theorem fdalloc_sinkFds_update (inp f : Fd) :
    fdalloc (Function.update (sinkFds inp) 3 (some f)) = some 4 := by
  apply fdalloc_eq_some (by decide) (by simp [sinkFds])
  intro fd hfd
  rcases eq_or_ne fd 3 with rfl | h3
  · simp
  · rw [Function.update_of_ne h3]
    unfold sinkFds
    split_ifs with h0 h2
    · simp
    · simp
    · exfalso
      omega

/-- `pipe(pd)` from a sink table installs the ends at 3 and 4. -/
theorem sysPipe_sinkFds {w : World} {i : ℕ} (child : Pc)
    (h : (w.procs i).fds = sinkFds (inputOf w.npipe)) :
    w.sysPipe i child =
      { w.setProc i { pc := .fork (3, 4) child, fds := forkFds w.npipe } with
        npipe := w.npipe + 1 } := by
  simp only [World.sysPipe, h, fdalloc_sinkFds, fdalloc_sinkFds_update]
  rfl

/-! ### `connect` -/

section Connect

variable (j : ℕ)

/-- The four calls of `connect(STDIN, pd)` on `forkFds j`: `dup(pd[0])` lands on `STDIN`, which
`close(STDIN)` has just freed. -/
theorem connect_stdin_calls :
    (Call.close STDIN).run (forkFds j) = Function.update (forkFds j) STDIN none ∧
    (Call.dup 3).run (Function.update (forkFds j) STDIN none) =
      Function.update (Function.update (forkFds j) STDIN none) STDIN (some (.pipe j false)) ∧
    (Call.close 3).run
        (Function.update (Function.update (forkFds j) STDIN none) STDIN (some (.pipe j false))) =
      Function.update
        (Function.update (Function.update (forkFds j) STDIN none) STDIN (some (.pipe j false)))
        3 none ∧
    (Call.close 4).run
        (Function.update
          (Function.update (Function.update (forkFds j) STDIN none) STDIN (some (.pipe j false)))
          3 none) =
      Function.update
        (Function.update
          (Function.update (Function.update (forkFds j) STDIN none) STDIN (some (.pipe j false)))
          3 none) 4 none := by
  have h0 : fdalloc (Function.update (forkFds j) STDIN none) = some STDIN :=
    fdalloc_eq_some (by decide) (by simp) (by simp)
  refine ⟨Call.run_close (by decide) (by simp), Call.run_dup (by decide) (by simp) h0,
    Call.run_close (by decide) (by simp), Call.run_close (by decide) (by simp)⟩

/-- The four calls of `connect(STDOUT, pd)` on `forkFds j`: `dup(pd[1])` lands on `STDOUT`, as
`STDIN` is taken. -/
theorem connect_stdout_calls :
    (Call.close STDOUT).run (forkFds j) = Function.update (forkFds j) STDOUT none ∧
    (Call.dup 4).run (Function.update (forkFds j) STDOUT none) =
      Function.update (Function.update (forkFds j) STDOUT none) STDOUT (some (.pipe j true)) ∧
    (Call.close 3).run
        (Function.update (Function.update (forkFds j) STDOUT none) STDOUT (some (.pipe j true))) =
      Function.update
        (Function.update (Function.update (forkFds j) STDOUT none) STDOUT (some (.pipe j true)))
        3 none ∧
    (Call.close 4).run
        (Function.update
          (Function.update (Function.update (forkFds j) STDOUT none) STDOUT (some (.pipe j true)))
          3 none) =
      Function.update
        (Function.update
          (Function.update (Function.update (forkFds j) STDOUT none) STDOUT (some (.pipe j true)))
          3 none) 4 none := by
  have h1 : fdalloc (Function.update (forkFds j) STDOUT none) = some STDOUT := by
    apply fdalloc_eq_some (by decide) (by simp)
    intro fd hfd
    obtain rfl : fd = 0 := by simpa [STDOUT] using hfd
    simp
  refine ⟨Call.run_close (by decide) (by simp), Call.run_dup (by decide) (by simp) h1,
    Call.run_close (by decide) (by simp), Call.run_close (by decide) (by simp)⟩

theorem runCalls_connect_stdin :
    runCalls (connect STDIN (3, 4)) (forkFds j) = sinkFds (.pipe j false) := by
  obtain ⟨e1, e2, e3, e4⟩ := connect_stdin_calls j
  simp only [runCalls, connect, List.foldl_cons, List.foldl_nil, if_true, e1, e2, e3, e4]
  funext fd
  simp only [Function.update_apply, forkFds, sinkFds]
  split_ifs <;> simp_all

theorem runCalls_connect_stdout :
    runCalls (connect STDOUT (3, 4)) (forkFds j) = writerFds j := by
  obtain ⟨e1, e2, e3, e4⟩ := connect_stdout_calls j
  simp only [runCalls, connect, show (STDOUT = STDIN) = False by decide, if_false,
    List.foldl_cons, List.foldl_nil, e1, e2, e3, e4]
  funext fd
  simp only [Function.update_apply, forkFds, writerFds, sinkFds]
  split_ifs <;> simp_all

/-- A prefix of `connect`'s calls is one of its five. -/
theorem connect_eq_take {fd : ℕ} {pd : ℕ × ℕ} {done cs : List Call}
    (h : done ++ cs = connect fd pd) : ∃ k ≤ 4, done = (connect fd pd).take k := by
  have hp : done <+: connect fd pd := ⟨cs, h⟩
  refine ⟨done.length, ?_, List.prefix_iff_eq_take.mp hp⟩
  simpa [connect] using hp.length_le

/-- `close` and `dup` only clear entries or copy them: every entry after a call was one before. -/
theorem Call.run_support {c : Call} {fds : ℕ → Option Fd} {fd : ℕ} {f : Fd}
    (h : c.run fds fd = some f) : ∃ fd', fds fd' = some f := by
  cases c with
  | close n =>
    simp only [Call.run] at h
    split_ifs at h
    · rcases eq_or_ne fd n with rfl | hne
      · simp at h
      · exact ⟨fd, by rwa [Function.update_of_ne hne] at h⟩
    · exact ⟨fd, h⟩
  | dup n =>
    cases hf : argfd fds n with
    | none =>
      simp only [Call.run, hf] at h
      exact ⟨fd, h⟩
    | some f' =>
      cases ha : fdalloc fds with
      | none =>
        simp only [Call.run, hf, ha] at h
        exact ⟨fd, h⟩
      | some fd' =>
        simp only [Call.run, hf, ha] at h
        rcases eq_or_ne fd fd' with rfl | hne
        · rw [Function.update_self, Option.some.injEq] at h
          subst h
          unfold argfd at hf
          split_ifs at hf
          exact ⟨n, hf⟩
        · exact ⟨fd, by rwa [Function.update_of_ne hne] at h⟩

theorem runCalls_support : ∀ (cs : List Call) {fds : ℕ → Option Fd} {fd : ℕ} {f : Fd},
    runCalls cs fds fd = some f → ∃ fd', fds fd' = some f
  | [], _, fd, _, h => ⟨fd, h⟩
  | c :: cs, fds, fd, f, h => by
    have h' : runCalls cs (c.run fds) fd = some f := h
    obtain ⟨fd', h''⟩ := runCalls_support cs h'
    exact Call.run_support h''

/-- The pipe ends in `forkFds j`: those of pipe `j`, and the sink's input. -/
theorem forkFds_eq_pipe {j k fd : ℕ} {wr : Bool} (h : forkFds j fd = some (.pipe k wr)) :
    k = j ∨ inputOf j = .pipe k wr := by
  unfold forkFds at h
  rcases eq_or_ne fd 4 with rfl | h4
  · left
    simp at h
    omega
  · rw [Function.update_of_ne h4] at h
    rcases eq_or_ne fd 3 with rfl | h3
    · left
      simp at h
      omega
    · rw [Function.update_of_ne h3, sinkFds_eq_pipe] at h
      exact Or.inr h.2

/-- Inside `connect(STDIN, pd)`, the read end of pipe `j` is at 3 until `close(pd[0])`, and at
`STDIN` from the `dup` on. -/
theorem stdin_window {done cs : List Call} (h : done ++ cs = connect STDIN (3, 4)) :
    runCalls done (forkFds j) 3 = some (.pipe j false) ∨
      runCalls done (forkFds j) STDIN = some (.pipe j false) := by
  obtain ⟨k, hk, rfl⟩ := connect_eq_take h
  obtain ⟨e1, e2, e3, e4⟩ := connect_stdin_calls j
  rcases k with _ | _ | _ | _ | _ | k
  all_goals simp only [runCalls, connect, if_true, List.take_succ_cons, List.take_zero,
    List.foldl_cons, List.foldl_nil, e1, e2, e3, e4]
  · simp
  · simp
  · simp
  · simp
  · simp
  · omega

/-- Inside `connect(STDOUT, pd)`, the write end of pipe `j` is at 4 until `close(pd[1])`, and
at `STDOUT` from the `dup` on; `STDIN` keeps the sink's input throughout. -/
theorem stdout_window {done cs : List Call} (h : done ++ cs = connect STDOUT (3, 4)) :
    (runCalls done (forkFds j) 4 = some (.pipe j true) ∨
      runCalls done (forkFds j) STDOUT = some (.pipe j true)) ∧
    runCalls done (forkFds j) STDIN = some (inputOf j) := by
  obtain ⟨k, hk, rfl⟩ := connect_eq_take h
  obtain ⟨e1, e2, e3, e4⟩ := connect_stdout_calls j
  rcases k with _ | _ | _ | _ | _ | k
  all_goals simp only [runCalls, connect, show (STDOUT = STDIN) = False by decide, if_false,
    List.take_succ_cons, List.take_zero, List.foldl_cons, List.foldl_nil, e1, e2, e3, e4]
  · simp
  · simp
  · simp
  · simp
  · simp
  · omega

end Connect

end Primes

end Xv6
