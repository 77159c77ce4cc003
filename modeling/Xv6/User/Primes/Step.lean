import Xv6.User.Primes.Inv

/-!
# Every step of `primes` keeps the invariant

One lemma for each thing a process does, by role: the sink's `pipe`, `fork`, `connect`, `read`
and `printf`, the source's `connect`, loop and `write`, and the culler's `connect`, `read`,
`write` and return into `sink`'s loop. `Inv.step` puts them together for a step of any
process, and `inv_reachable` carries the invariant along every run.

A `read` is the step that depends on the others (`Inv.readResult_eq`): the pipe holds whole
integers, so it returns the next one, or 0 once the pipe is empty and its writer has exited. The
source's integers are taken to fit in the four bytes of the `int` it writes, `x < 2 ^ 32`, so
that what `read` stores is what `write` sent.
-/

namespace Xv6

namespace Primes

section Step

variable {xs : List ℕ} {w w' : World}

/-- One call of `connect` made. -/
theorem calls_step {done cs conn : List Call} {c : Call} {F fds : ℕ → Option Fd}
    (h : done ++ c :: cs = conn) (hf : fds = runCalls done F) :
    (done ++ [c]) ++ cs = conn ∧ c.run fds = runCalls (done ++ [c]) F := by
  refine ⟨by simpa using h, ?_⟩
  rw [runCalls_append, hf]
  rfl

/-- What `read` returns to a reader of pipe `j`, which process `j + 1` fills: the next integer,
whole, or the end, once the pipe is empty and the writer has exited. It never returns `-1` or
part of an integer. -/
theorem Inv.readResult_eq (hi : Inv xs w) (hxs : ∀ x ∈ xs, x < 2 ^ 32) {i j : ℕ}
    {r : World.ReadResult} (hfd : (w.procs i).fds 0 = some (.pipe j false)) (hj : j + 1 < w.nproc)
    (hr : w.readResult i = some r) :
    (∃ y q, r = .int j y ∧ w.wrote j = w.took j ++ y :: q ∧ w.pipes j = bytesOf (y :: q)) ∨
      r = .eof ∧ Eof w j := by
  obtain ⟨q, hq, hpq⟩ := hi.fifo j
  cases q with
  | cons y q =>
    have hy : y < 2 ^ 32 := hxs y (hi.mem_xs (j := j) (by simp [hq]))
    rw [readResult_int hfd hpq hy, Option.some.injEq] at hr
    exact Or.inl ⟨y, q, hr.symm, hq, hpq⟩
  | nil =>
    rw [readResult_nil hfd hpq] at hr
    -- `piperead` sleeps on an empty pipe while its write end is open
    have hclosed : w.isOpen j true = false := by
      cases h : w.isOpen j true
      · rfl
      · simp [h] at hr
    rw [hclosed, if_neg (by simp), Option.some.injEq] at hr
    refine Or.inr ⟨hr.symm, hpq, ?_⟩
    by_contra ha
    simp [hi.writeOpen hj ha] at hclosed

/-! ### The sink -/

/-- The sink's `pipe(new_pipe)`. -/
theorem Inv.sink_pipe (hi : Inv xs w) {child : Pc} (hpc : (w.procs 0).pc = .pipe child)
    (h : step w 0 = some w') : Inv xs w' := by
  have hs := hi.sinkOk
  unfold SinkOk at hs
  rw [hpc] at hs
  obtain ⟨hfd, hN, hlen, hch⟩ := hs
  simp only [step, hpc, sysPipe_sinkFds child hfd, Option.some.injEq] at h
  subst h
  exact hi.sysPipe ⟨w.npipe, rfl, rfl, rfl, hN, hlen, hi.untaken _ le_rfl, hch.frame fun _ _ => rfl⟩

/-- The sink's `fork()`: the child goes on to the source, or to `cull(p)`. -/
theorem Inv.sink_fork (hi : Inv xs w) {pd : ℕ × ℕ} {child : Pc}
    (hpc : (w.procs 0).pc = .fork pd child) (h : step w 0 = some w') : Inv xs w' := by
  have hs := hi.sinkOk
  unfold SinkOk at hs
  rw [hpc] at hs
  obtain ⟨j, hj, rfl, hfd, hN, hlen, htj, hch⟩ := hs
  simp only [step, hpc, Option.some.injEq] at h
  subst h
  refine hi.fork ?_ ?_
  · -- the parent goes on to `connect(STDIN, pd)`
    have h0 : (0 : ℕ) ≠ w.nproc := by omega
    unfold SinkOk
    simp only [World.setProc_procs, Function.update_of_ne h0, Function.update_self]
    exact ⟨j, [], hj, trivial, rfl, hfd, by simp [hN], hlen, htj⟩
  · -- the child, number `j + 1`, to `connect(STDOUT, pd)`
    rcases hch with ⟨rfl, rfl⟩ | ⟨k, p, rfl, rfl, hk⟩
    · rw [show w.nproc = 1 by omega]
      exact ⟨rfl, hi.unwritten 0 (by omega), [], rfl, hfd⟩
    · rw [show w.nproc = k + 2 by omega]
      show CullOk _ k
      unfold CullOk
      simp only [World.setProc_procs, Function.update_self]
      exact ⟨⟨p, rfl, hk⟩, hi.unwritten (k + 1) (by omega), [], rfl, hfd⟩

/-- A call of the sink's `connect(STDIN, pd)`. -/
theorem Inv.sink_connect (hi : Inv xs w) {c : Call} {cs : List Call} {next : Pc}
    (hpc : (w.procs 0).pc = .calls (c :: cs) next) (h : step w 0 = some w') : Inv xs w' := by
  have hs := hi.sinkOk
  unfold SinkOk at hs
  rw [hpc] at hs
  obtain ⟨j, done, hj, rfl, hdone, hfd, hN, hlen, htj⟩ := hs
  obtain ⟨hdone', hfd'⟩ := calls_step hdone hfd
  simp only [step, hpc, Option.some.injEq] at h
  subst h
  exact hi.setProc hi.started (by simp [hpc]) ⟨j, done ++ [c], hj, rfl, hdone', hfd', hN, hlen, htj⟩

/-- The end of the sink's `connect`: it reads the new pipe. -/
theorem Inv.sink_connected (hi : Inv xs w) {next : Pc} (hpc : (w.procs 0).pc = .calls [] next)
    (h : step w 0 = some w') : Inv xs w' := by
  have hs := hi.sinkOk
  unfold SinkOk at hs
  rw [hpc] at hs
  obtain ⟨j, done, hj, rfl, hdone, hfd, hN, hlen, htj⟩ := hs
  rw [List.append_nil] at hdone
  rw [hdone, runCalls_connect_stdin] at hfd
  simp only [step, hpc, Option.some.injEq] at h
  subst h
  exact hi.setProc hi.started (by simp [hpc]) ⟨j, hj, hfd, hN, hlen, htj⟩

/-- The sink's `read(STDIN, &p, 4)`: it takes the first integer of its pipe, or returns at the
end. -/
theorem Inv.sink_read (hi : Inv xs w) (hxs : ∀ x ∈ xs, x < 2 ^ 32)
    (hpc : (w.procs 0).pc = .sink) (h : step w 0 = some w') : Inv xs w' := by
  have hs := hi.sinkOk
  unfold SinkOk at hs
  rw [hpc] at hs
  obtain ⟨j, hj, hfd, hN, hlen, htj⟩ := hs
  simp only [step, hpc, Option.map_eq_some_iff] at h
  obtain ⟨r, hr, rfl⟩ := h
  have hfd0 : (w.procs 0).fds 0 = some (.pipe j false) := by rw [hfd]; rfl
  rcases hi.readResult_eq hxs hfd0 (by omega) hr with ⟨y, q, rfl, hq, hpq⟩ | ⟨rfl, he⟩
  · refine hi.take hi.started (by simp [hpc]) (Or.inl ⟨rfl, hN, hlen⟩) (by omega) hq hpq ?_
    exact ⟨j, hj, hfd, hN, hlen, by simp [World.take, htj]⟩
  · exact hi.setProc hi.started (by simp [hpc]) ⟨j, hj, rfl, hN, hlen, htj, he.setProc (by omega)⟩

/-- The sink's `printf`: it prints the integer it took and goes on to make the next pipe. -/
theorem Inv.sink_print (hi : Inv xs w) {p : ℕ} (hpc : (w.procs 0).pc = .print p)
    (h : step w 0 = some w') : Inv xs w' := by
  have hs := hi.sinkOk
  unfold SinkOk at hs
  rw [hpc] at hs
  obtain ⟨j, hj, hfd, hN, hlen, htj⟩ := hs
  have hcon : argfd (w.procs 0).fds STDOUT = some .console := by
    simp [argfd, NOFILE, hfd]
  simp only [step, hpc, if_pos hcon, Option.some.injEq] at h
  subst h
  refine hi.print (by rw [hlen, htj]; rfl) ⟨?_, ?_, ?_, Or.inr ⟨j, p, hj, rfl, htj⟩⟩
  · show (w.procs 0).fds = sinkFds (inputOf w.npipe)
    rw [hfd, hj]
    rfl
  · show w.nproc = w.npipe + 1
    omega
  · show (w.printed ++ [p]).length = w.npipe
    simp [hlen, hj]

/-- A step of the sink. -/
theorem Inv.step_sink (hi : Inv xs w) (hxs : ∀ x ∈ xs, x < 2 ^ 32) (h : step w 0 = some w') :
    Inv xs w' := by
  have hs := hi.sinkOk
  unfold SinkOk at hs
  cases hpc : (w.procs 0).pc with
  | pipe child => exact hi.sink_pipe hpc h
  | fork pd child => exact hi.sink_fork hpc h
  | calls cs next =>
    cases cs with
    | nil => exact hi.sink_connected hpc h
    | cons c cs => exact hi.sink_connect hpc h
  | sink => exact hi.sink_read hxs hpc h
  | print p => exact hi.sink_print hpc h
  | exited => simp [step, hpc] at h
  | source _ | write _ _ _ | cull _ | fault =>
    rw [hpc] at hs
    exact hs.elim

/-! ### The source -/

/-- A call of the source's `connect(STDOUT, pd)`. -/
theorem Inv.source_connect (hi : Inv xs w) (h1 : 1 < w.nproc) {c : Call} {cs : List Call}
    {next : Pc} (hpc : (w.procs 1).pc = .calls (c :: cs) next) (h : step w 1 = some w') :
    Inv xs w' := by
  have hs := hi.sourceOk h1
  unfold SourceOk at hs
  rw [hpc] at hs
  obtain ⟨rfl, hw, done, hdone, hfd⟩ := hs
  obtain ⟨hdone', hfd'⟩ := calls_step hdone hfd
  simp only [step, hpc, Option.some.injEq] at h
  subst h
  exact hi.setProc h1 (by simp [hpc]) ⟨rfl, hw, done ++ [c], hdone', hfd'⟩

/-- The end of the source's `connect`: it starts its loop. -/
theorem Inv.source_connected (hi : Inv xs w) (h1 : 1 < w.nproc) {next : Pc}
    (hpc : (w.procs 1).pc = .calls [] next) (h : step w 1 = some w') : Inv xs w' := by
  have hs := hi.sourceOk h1
  unfold SourceOk at hs
  rw [hpc] at hs
  obtain ⟨rfl, hw, done, hdone, hfd⟩ := hs
  rw [List.append_nil] at hdone
  rw [hdone, runCalls_connect_stdout] at hfd
  simp only [step, hpc, Option.some.injEq] at h
  subst h
  exact hi.setProc h1 (by simp [hpc]) ⟨hfd, by rw [World.setProc_wrote, hw, List.nil_append]⟩

/-- The test of the source's loop: the next integer, or the return from `source`. -/
theorem Inv.source_loop (hi : Inv xs w) (h1 : 1 < w.nproc) {rest : List ℕ}
    (hpc : (w.procs 1).pc = .source rest) (h : step w 1 = some w') : Inv xs w' := by
  have hs := hi.sourceOk h1
  unfold SourceOk at hs
  rw [hpc] at hs
  obtain ⟨hfd, hrest⟩ := hs
  cases rest with
  | nil =>
    simp only [step, hpc, Option.some.injEq] at h
    subst h
    exact hi.setProc h1 (by simp [hpc]) ⟨rfl, by simpa using hrest⟩
  | cons x rest =>
    simp only [step, hpc, Option.some.injEq] at h
    subst h
    exact hi.setProc h1 (by simp [hpc]) ⟨rest, rfl, rfl, hfd, hrest⟩

/-- The source's `write(STDOUT, &i, 4)`: the integer goes in whole, or the source sleeps on a
full pipe with nothing written. -/
theorem Inv.source_write (hi : Inv xs w) (h1 : 1 < w.nproc) {x k : ℕ} {next : Pc}
    (hpc : (w.procs 1).pc = .write x k next) (h : step w 1 = some w') : Inv xs w' := by
  have hs := hi.sourceOk h1
  unfold SourceOk at hs
  rw [hpc] at hs
  obtain ⟨rest, rfl, rfl, hfd, hrest⟩ := hs
  have ha : (w.procs (0 + 1)).pc ≠ .exited := by simp [hpc]
  obtain ⟨q, -, hpq⟩ := hi.fifo 0
  have hfd1 : (w.procs 1).fds 1 = some (.pipe 0 true) := by rw [hfd]; rfl
  simp only [step, hpc, write_whole hfd1 (hi.readOpen h1 ha) hpq, Option.some.injEq] at h
  subst h
  split_ifs
  · refine hi.put rfl h1 ha ⟨hfd, ?_⟩
    simpa [World.put] using hrest
  · exact hi.setProc h1 ha ⟨rest, rfl, rfl, hfd, hrest⟩

/-- A step of the source. -/
theorem Inv.step_source (hi : Inv xs w) (h1 : 1 < w.nproc) (h : step w 1 = some w') :
    Inv xs w' := by
  have hs := hi.sourceOk h1
  unfold SourceOk at hs
  cases hpc : (w.procs 1).pc with
  | calls cs next =>
    cases cs with
    | nil => exact hi.source_connected h1 hpc h
    | cons c cs => exact hi.source_connect h1 hpc h
  | source rest => exact hi.source_loop h1 hpc h
  | write x k next => exact hi.source_write h1 hpc h
  | exited => simp [step, hpc] at h
  | pipe _ | fork _ _ | sink | print _ | cull _ | fault =>
    rw [hpc] at hs
    exact hs.elim

/-! ### The cullers -/

section Cull

variable {j : ℕ}

/-- A call of the culler's `connect(STDOUT, pd)`. -/
theorem Inv.cull_connect (hi : Inv xs w) (hj : j + 2 < w.nproc) {c : Call} {cs : List Call}
    {next : Pc} (hpc : (w.procs (j + 2)).pc = .calls (c :: cs) next)
    (h : step w (j + 2) = some w') : Inv xs w' := by
  have hs := hi.cullOk hj
  unfold CullOk at hs
  rw [hpc] at hs
  obtain ⟨hp, hw, done, hdone, hfd⟩ := hs
  obtain ⟨hdone', hfd'⟩ := calls_step hdone hfd
  simp only [step, hpc, Option.some.injEq] at h
  subst h
  refine hi.setProc hj (by simp [hpc]) ?_
  rw [RoleOk, CullOk, World.setProc_procs_self]
  exact ⟨hp, hw, done ++ [c], hdone', hfd'⟩

/-- The end of the culler's `connect`: it starts the loop of `cull(p)`. -/
theorem Inv.cull_connected (hi : Inv xs w) (hj : j + 2 < w.nproc) {next : Pc}
    (hpc : (w.procs (j + 2)).pc = .calls [] next) (h : step w (j + 2) = some w') :
    Inv xs w' := by
  have hs := hi.cullOk hj
  unfold CullOk at hs
  rw [hpc] at hs
  obtain ⟨⟨p, rfl, htj⟩, hw, done, hdone, hfd⟩ := hs
  rw [List.append_nil] at hdone
  rw [hdone, runCalls_connect_stdout] at hfd
  simp only [step, hpc, Option.some.injEq] at h
  subst h
  refine hi.setProc hj (by simp [hpc]) ?_
  rw [RoleOk, CullOk, World.setProc_procs_self]
  exact ⟨hfd, [], htj, hw⟩

/-- The culler's `read(STDIN, &n, 4)`: it takes the next integer of pipe `j`, to be passed on
if `p` does not divide it, or returns into `sink`'s loop at the end. -/
theorem Inv.cull_read (hi : Inv xs w) (hxs : ∀ x ∈ xs, x < 2 ^ 32) (hj : j + 2 < w.nproc)
    {p : ℕ} (hpc : (w.procs (j + 2)).pc = .cull p) (h : step w (j + 2) = some w') :
    Inv xs w' := by
  have hs := hi.cullOk hj
  unfold CullOk at hs
  rw [hpc] at hs
  obtain ⟨hfd, c, htj, hw⟩ := hs
  simp only [step, hpc, Option.map_eq_some_iff] at h
  obtain ⟨r, hr, rfl⟩ := h
  have hfd0 : (w.procs (j + 2)).fds 0 = some (.pipe j false) := by rw [hfd]; rfl
  have ha : (w.procs (j + 2)).pc ≠ .exited := by simp [hpc]
  rcases hi.readResult_eq hxs hfd0 (by omega) hr with ⟨y, q, rfl, hq, hpq⟩ | ⟨rfl, he⟩
  · -- a taken pipe has been made
    have hjn : j < w.npipe := by
      by_contra hn
      simp [hi.untaken j (by omega)] at htj
    refine hi.take hj ha (Or.inr ⟨rfl, by simp [htj]⟩) hjn hq hpq ?_
    rw [RoleOk, CullOk, World.setProc_procs_self]
    have htj' : (w.take j y).took j = p :: (c ++ [y]) := by simp [World.take, htj]
    -- `y` is passed on when `p` does not divide it
    split_ifs with hy
    · exact ⟨p, rfl, rfl, hfd, c ++ [y], htj', by simp [hw, hy]⟩
    · exact ⟨hfd, c ++ [y], htj', by simp [hw, hy]⟩
  · refine hi.setProc hj ha ?_
    rw [RoleOk, CullOk, World.setProc_procs_self]
    exact ⟨hfd, ⟨p, c, htj, hw⟩, he.setProc (by omega)⟩

/-- The culler's `write(STDOUT, &n, 4)`, as the source's. -/
theorem Inv.cull_write (hi : Inv xs w) (hj : j + 2 < w.nproc) {x k : ℕ} {next : Pc}
    (hpc : (w.procs (j + 2)).pc = .write x k next) (h : step w (j + 2) = some w') :
    Inv xs w' := by
  have hs := hi.cullOk hj
  unfold CullOk at hs
  rw [hpc] at hs
  obtain ⟨p, rfl, rfl, hfd, c, htj, hw⟩ := hs
  have ha : (w.procs (j + 2)).pc ≠ .exited := by simp [hpc]
  obtain ⟨q, -, hpq⟩ := hi.fifo (j + 1)
  have hfd1 : (w.procs (j + 2)).fds 1 = some (.pipe (j + 1) true) := by rw [hfd]; rfl
  simp only [step, hpc, write_whole hfd1 (hi.readOpen hj ha) hpq, Option.some.injEq] at h
  subst h
  split_ifs
  · refine hi.put rfl hj ha ?_
    rw [RoleOk, CullOk, World.setProc_procs_self]
    exact ⟨hfd, c, htj, by simpa [World.put] using hw⟩
  · refine hi.setProc hj ha ?_
    rw [RoleOk, CullOk, World.setProc_procs_self]
    exact ⟨p, rfl, rfl, hfd, c, htj, hw⟩

/-- The culler back in `sink`'s loop: its pipe is at its end, so `read` returns 0 and the
culler exits. -/
theorem Inv.cull_sink (hi : Inv xs w) (hxs : ∀ x ∈ xs, x < 2 ^ 32) (hj : j + 2 < w.nproc)
    (hpc : (w.procs (j + 2)).pc = .sink) (h : step w (j + 2) = some w') : Inv xs w' := by
  have hs := hi.cullOk hj
  unfold CullOk at hs
  rw [hpc] at hs
  obtain ⟨hfd, hc, he⟩ := hs
  simp only [step, hpc, Option.map_eq_some_iff] at h
  obtain ⟨r, hr, rfl⟩ := h
  have hfd0 : (w.procs (j + 2)).fds 0 = some (.pipe j false) := by rw [hfd]; rfl
  have ha : (w.procs (j + 2)).pc ≠ .exited := by simp [hpc]
  rcases hi.readResult_eq hxs hfd0 (by omega) hr with ⟨y, q, rfl, -, hpq⟩ | ⟨rfl, -⟩
  · -- the pipe is empty
    have hnil := he.1
    simp [hpq, bytesOf_cons, encode] at hnil
  · refine hi.setProc hj ha ?_
    rw [RoleOk, CullOk, World.setProc_procs_self]
    exact ⟨rfl, hc, he.setProc (by omega)⟩

/-- A step of the culler of pipe `j`. -/
theorem Inv.step_cull (hi : Inv xs w) (hxs : ∀ x ∈ xs, x < 2 ^ 32) (hj : j + 2 < w.nproc)
    (h : step w (j + 2) = some w') : Inv xs w' := by
  have hs := hi.cullOk hj
  unfold CullOk at hs
  cases hpc : (w.procs (j + 2)).pc with
  | calls cs next =>
    cases cs with
    | nil => exact hi.cull_connected hj hpc h
    | cons c cs => exact hi.cull_connect hj hpc h
  | cull p => exact hi.cull_read hxs hj hpc h
  | write x k next => exact hi.cull_write hj hpc h
  | sink => exact hi.cull_sink hxs hj hpc h
  | exited => simp [step, hpc] at h
  | pipe _ | fork _ _ | source _ | print _ | fault =>
    rw [hpc] at hs
    exact hs.elim

end Cull

/-- **A step of any process keeps the invariant.** -/
theorem Inv.step (hi : Inv xs w) (hxs : ∀ x ∈ xs, x < 2 ^ 32) {i : ℕ}
    (h : step w i = some w') : Inv xs w' := by
  rcases Nat.lt_or_ge i w.nproc with hiN | hiN
  · match i, hiN, h with
    | 0, _, h => exact hi.step_sink hxs h
    | 1, hiN, h => exact hi.step_source hiN h
    | j + 2, hiN, h => exact hi.step_cull hxs hiN h
  · -- no process there
    have hpc : (w.procs i).pc = .exited := by rw [hi.unused i hiN]; rfl
    simp [Primes.step, hpc] at h

/-- **The invariant holds in every state that `primes` reaches**, whatever the order in which
the processes move. -/
theorem inv_reachable (hxs : ∀ x ∈ xs, x < 2 ^ 32) (h : Reachable xs w) : Inv xs w :=
  Reach.Reachable.invariant (fun _ h0 => h0 ▸ inv_init xs)
    (fun _ _ _ hi _ hst => hi.step hxs hst) h

end Step

end Primes

end Xv6
