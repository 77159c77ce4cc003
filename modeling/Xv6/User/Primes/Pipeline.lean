import Xv6.User.Primes.Step

/-!
# What `primes` computes

From the invariant over every reachable state (`inv_reachable`):

* no process leaves the modelled behaviour (`Inv.pc_ne_fault`), and no `read` of the sink or of
  a culler returns `-1` or part of an integer (`Inv.readResult_ne_bad`);
* once the processes of pipe `j` (the sink, its writer `j + 1` and the culler `j + 2`) are out
  of `connect`, the pipe has one write descriptor, the writer's `STDOUT`, and one read
  descriptor, the `STDIN` of its reader, as long as these live (`Inv.write_end`,
  `Inv.read_end`);
* the sink has printed a prefix of the sieve of `xs` (`Inv.printed_isPrefix`), and all of it once
  it has exited (`Inv.printed_eq`): a pipe at its end carries its whole stage of the sieve
  (`Inv.wrote_eq_stage`).

`primes_correct` puts them together, for the integers `2, …, 35` of `source` and any other list
of `int`s, with `Sieve.sieve_range` for the lists `[2, …, N]`.
-/

namespace Xv6

namespace Primes

open Sieve

/-- The program points where a table changes: from `pipe`'s return to the end of `connect`. -/
def Pc.connecting : Pc → Bool
  | .fork _ _ | .calls _ _ => true
  | _ => false

/-- The reader of pipe `j`: its culler once the sink has forked it, the sink before. -/
def World.reader (w : World) (j : ℕ) : ℕ := if j + 2 < w.nproc then j + 2 else 0

section Results

variable {xs : List ℕ} {w : World}

/-! ### Nothing goes wrong -/

theorem RoleOk.pc_ne_fault : ∀ {i : ℕ}, RoleOk xs w i → (w.procs i).pc ≠ .fault
  | 0, h, hf => by
    change SinkOk xs w at h
    unfold SinkOk at h
    rw [hf] at h
    exact h
  | 1, h, hf => by
    change SourceOk xs w at h
    unfold SourceOk at h
    rw [hf] at h
    exact h
  | j + 2, h, hf => by
    change CullOk w j at h
    unfold CullOk at h
    rw [hf] at h
    exact h

/-- No process gets outside the behaviour of `primes.c`. -/
theorem Inv.pc_ne_fault (hi : Inv xs w) (i : ℕ) : (w.procs i).pc ≠ .fault := by
  rcases Nat.lt_or_ge i w.nproc with hiN | hiN
  · exact (hi.role i hiN).pc_ne_fault
  · rw [hi.unused i hiN]
    simp [Proc.unused]

/-- A process at the `read` of `sink` or of `cull` reads a pipe whose writer is a process. -/
theorem Inv.reads_pipe (hi : Inv xs w) :
    ∀ {i : ℕ}, i < w.nproc → ((w.procs i).pc = .sink ∨ ∃ p, (w.procs i).pc = .cull p) →
      ∃ j, (w.procs i).fds 0 = some (.pipe j false) ∧ j + 1 < w.nproc
  | 0, _, hrd => by
    have hs := hi.sinkOk
    unfold SinkOk at hs
    rcases hrd with hpc | ⟨p, hpc⟩ <;> rw [hpc] at hs
    · obtain ⟨j, -, hfd, hN, -⟩ := hs
      exact ⟨j, by rw [hfd]; rfl, by omega⟩
    · exact hs.elim
  | 1, h1, hrd => by
    have hs := hi.sourceOk h1
    unfold SourceOk at hs
    rcases hrd with hpc | ⟨p, hpc⟩ <;> rw [hpc] at hs <;> exact hs.elim
  | j + 2, hj, hrd => by
    have hs := hi.cullOk hj
    unfold CullOk at hs
    rcases hrd with hpc | ⟨p, hpc⟩ <;> rw [hpc] at hs
    · exact ⟨j, by rw [hs.1]; rfl, by omega⟩
    · exact ⟨j, by rw [hs.1]; rfl, by omega⟩

/-- **No `read` returns `-1` or part of an integer**: the sink and the cullers get 4 bytes, or 0
at the end, or sleep. -/
theorem Inv.readResult_ne_bad (hi : Inv xs w) (hxs : ∀ x ∈ xs, x < 2 ^ 32) {i : ℕ}
    (hrd : (w.procs i).pc = .sink ∨ ∃ p, (w.procs i).pc = .cull p) :
    w.readResult i ≠ some .bad := by
  intro hbad
  have hiN : i < w.nproc := by
    by_contra hge
    have hpc : (w.procs i).pc = .exited := by rw [hi.unused i (by omega)]; rfl
    rcases hrd with h | ⟨p, h⟩ <;> rw [hpc] at h <;> cases h
  obtain ⟨j, hfd, hj⟩ := hi.reads_pipe hiN hrd
  rcases hi.readResult_eq hxs hfd hj hbad with ⟨y, q, h, -⟩ | ⟨h, -⟩ <;> cases h

/-! ### The descriptors of a pipe -/

/-- An exited process holds no descriptor. -/
theorem RoleOk.fds_of_exited :
    ∀ {i : ℕ}, RoleOk xs w i → (w.procs i).pc = .exited → (w.procs i).fds = fun _ => none
  | 0, h, he => by
    change SinkOk xs w at h
    unfold SinkOk at h
    rw [he] at h
    obtain ⟨j, -, hfd, -⟩ := h
    exact hfd
  | 1, h, he => by
    change SourceOk xs w at h
    unfold SourceOk at h
    rw [he] at h
    exact h.1
  | j + 2, h, he => by
    change CullOk w j at h
    unfold CullOk at h
    rw [he] at h
    exact h.1

/-- A process with a descriptor is a live one. -/
theorem Inv.alive_of_fds (hi : Inv xs w) {i fd : ℕ} {f : Fd} (h : (w.procs i).fds fd = some f) :
    i < w.nproc ∧ (w.procs i).pc ≠ .exited := by
  have hiN : i < w.nproc := by
    by_contra hge
    rw [hi.unused i (by omega)] at h
    simp [Proc.unused] at h
  refine ⟨hiN, fun he => ?_⟩
  rw [(hi.role i hiN).fds_of_exited he] at h
  simp at h

/-- Out of `connect`, a live sink reads the newest pipe. -/
theorem Inv.sink_fds (hi : Inv xs w) (hs : (w.procs 0).pc.connecting = false)
    (ha : (w.procs 0).pc ≠ .exited) :
    (w.procs 0).fds = sinkFds (inputOf w.npipe) ∧ w.nproc = w.npipe + 1 := by
  have h := hi.sinkOk
  unfold SinkOk at h
  cases hpc : (w.procs 0).pc <;> rw [hpc] at h hs ha
  case pipe child => exact ⟨h.1, h.2.1⟩
  case sink =>
    obtain ⟨j, hj, hfd, hN, -⟩ := h
    exact ⟨by rw [hfd, hj]; rfl, by omega⟩
  case print p =>
    obtain ⟨j, hj, hfd, hN, -⟩ := h
    exact ⟨by rw [hfd, hj]; rfl, by omega⟩
  case fork => simp [Pc.connecting] at hs
  case calls => simp [Pc.connecting] at hs
  case exited => exact absurd rfl ha
  all_goals exact h.elim

theorem Inv.source_fds (hi : Inv xs w) (h1 : 1 < w.nproc) (hs : (w.procs 1).pc.connecting = false)
    (ha : (w.procs 1).pc ≠ .exited) : (w.procs 1).fds = writerFds 0 := by
  have h := hi.sourceOk h1
  unfold SourceOk at h
  cases hpc : (w.procs 1).pc <;> rw [hpc] at h hs ha
  case source rest => exact h.1
  case write x k next =>
    obtain ⟨-, -, -, hfd, -⟩ := h
    exact hfd
  case calls => simp [Pc.connecting] at hs
  case exited => exact absurd rfl ha
  all_goals exact h.elim

theorem Inv.culler_fds (hi : Inv xs w) {j : ℕ} (hj : j + 2 < w.nproc)
    (hs : (w.procs (j + 2)).pc.connecting = false) (ha : (w.procs (j + 2)).pc ≠ .exited) :
    (w.procs (j + 2)).fds = writerFds (j + 1) := by
  have h := hi.cullOk hj
  unfold CullOk at h
  cases hpc : (w.procs (j + 2)).pc <;> rw [hpc] at h hs ha
  case cull p => exact h.1
  case write x k next =>
    obtain ⟨-, -, -, hfd, -⟩ := h
    exact hfd
  case sink => exact h.1
  case calls => simp [Pc.connecting] at hs
  case exited => exact absurd rfl ha
  all_goals exact h.elim

/-- Out of `connect`, a live writer of pipe `k` has the write end at `STDOUT` and its input at
`STDIN`. -/
theorem Inv.writer_fds (hi : Inv xs w) :
    ∀ {k : ℕ}, k + 1 < w.nproc → (w.procs (k + 1)).pc.connecting = false →
      (w.procs (k + 1)).pc ≠ .exited → (w.procs (k + 1)).fds = writerFds k
  | 0, hk, hs, ha => hi.source_fds hk hs ha
  | _ + 1, hk, hs, ha => hi.culler_fds hk hs ha

/-- Inside `connect`, a writer of pipe `k` holds only ends of pipe `k` and its input: the
table it got from `fork`, less what it has closed, plus what it has moved. -/
theorem Inv.connecting_fds (hi : Inv xs w) :
    ∀ {k fd j : ℕ} {wr : Bool}, k + 1 < w.nproc → (w.procs (k + 1)).pc.connecting = true →
      (w.procs (k + 1)).fds fd = some (.pipe j wr) → j = k ∨ inputOf k = .pipe j wr
  | 0, _, _, _, hk, hs, h => by
    have hs' := hi.sourceOk hk
    unfold SourceOk at hs'
    have hc : (w.procs 1).pc.connecting = true := hs
    cases hpc : (w.procs 1).pc <;> rw [hpc] at hs' hc
    case calls cs next =>
      obtain ⟨-, -, done, -, hfd⟩ := hs'
      rw [show (w.procs (0 + 1)).fds = runCalls done (forkFds 0) from hfd] at h
      obtain ⟨fd', h'⟩ := runCalls_support done h
      exact forkFds_eq_pipe h'
    case fork => exact hs'.elim
    all_goals simp [Pc.connecting] at hc
  | m + 1, _, _, _, hk, hs, h => by
    have hs' := hi.cullOk hk
    unfold CullOk at hs'
    have hc : (w.procs (m + 2)).pc.connecting = true := hs
    cases hpc : (w.procs (m + 2)).pc <;> rw [hpc] at hs' hc
    case calls cs next =>
      obtain ⟨-, -, done, -, hfd⟩ := hs'
      rw [show (w.procs (m + 1 + 1)).fds = runCalls done (forkFds (m + 1)) from hfd] at h
      obtain ⟨fd', h'⟩ := runCalls_support done h
      exact forkFds_eq_pipe h'
    case fork => exact hs'.elim
    all_goals simp [Pc.connecting] at hc

section Ends

variable {j : ℕ} (hj : j < w.npipe)
  (hs : ∀ i ∈ [0, j + 1, j + 2], (w.procs i).pc.connecting = false)
include hj hs

/-- **The write end of pipe `j`** is the `STDOUT` of its writer, while it lives, and nothing
else. -/
theorem Inv.write_end (hi : Inv xs w) (i fd : ℕ) :
    (w.procs i).fds fd = some (.pipe j true) ↔
      i = j + 1 ∧ fd = STDOUT ∧ (w.procs i).pc ≠ .exited := by
  constructor
  · intro h
    obtain ⟨hiN, ha⟩ := hi.alive_of_fds h
    cases i with
    | zero =>
      rw [(hi.sink_fds (hs 0 (by simp)) ha).1, sinkFds_eq_pipe, inputOf_eq_pipe] at h
      simp at h
    | succ k =>
      cases hc : (w.procs (k + 1)).pc.connecting
      · rw [hi.writer_fds hiN hc ha, writerFds_eq_pipe] at h
        rcases h with ⟨-, -, h⟩ | ⟨rfl, rfl, -⟩
        · simp at h
        · exact ⟨rfl, rfl, ha⟩
      · rcases hi.connecting_fds hiN hc h with rfl | h'
        · simp [hs (j + 1) (by simp)] at hc
        · simp [inputOf_eq_pipe] at h'
  · rintro ⟨rfl, rfl, ha⟩
    have hiN : j + 1 < w.nproc := by
      by_contra hge
      rw [hi.unused _ (by omega)] at ha
      exact ha rfl
    rw [hi.writer_fds hiN (hs (j + 1) (by simp)) ha]
    rfl

/-- **The read end of pipe `j`** is the `STDIN` of its reader, while it lives, and nothing
else: the sink's until it has forked the culler of pipe `j`, then the culler's. -/
theorem Inv.read_end (hi : Inv xs w) (i fd : ℕ) :
    (w.procs i).fds fd = some (.pipe j false) ↔
      i = w.reader j ∧ fd = STDIN ∧ (w.procs i).pc ≠ .exited := by
  constructor
  · intro h
    obtain ⟨hiN, ha⟩ := hi.alive_of_fds h
    cases i with
    | zero =>
      obtain ⟨hfd, hN⟩ := hi.sink_fds (hs 0 (by simp)) ha
      rw [hfd, sinkFds_eq_pipe, inputOf_eq_pipe] at h
      obtain ⟨rfl, hn, -⟩ := h
      exact ⟨by simp [World.reader]; omega, rfl, ha⟩
    | succ k =>
      cases hc : (w.procs (k + 1)).pc.connecting
      · rw [hi.writer_fds hiN hc ha, writerFds_eq_pipe] at h
        rcases h with ⟨rfl, rfl, -⟩ | ⟨-, -, h⟩
        · exact ⟨by simp [World.reader, hiN], rfl, ha⟩
        · simp at h
      · rcases hi.connecting_fds hiN hc h with rfl | h'
        · simp [hs (j + 1) (by simp)] at hc
        · obtain ⟨rfl, -⟩ := inputOf_eq_pipe.mp h'
          simp [hs (j + 2) (by simp)] at hc
  · rintro ⟨hr, rfl, ha⟩
    unfold World.reader at hr
    split_ifs at hr with hc
    · subst hr
      rw [hi.writer_fds hc (hs (j + 2) (by simp)) ha]
      rfl
    · subst hr
      obtain ⟨hfd, hN⟩ := hi.sink_fds (hs 0 (by simp)) ha
      rw [hfd, show w.npipe = j + 1 by omega]
      rfl

end Ends

/-! ### The sieve -/

/-- A pipe at its end has given its reader all that was written into it. -/
theorem Inv.took_eq_wrote (hi : Inv xs w) {j : ℕ} (h : w.pipes j = []) : w.took j = w.wrote j := by
  obtain ⟨q, hq, hpq⟩ := hi.fifo j
  have hq0 : q = [] := by
    have hlen := length_bytesOf q
    rw [← hpq, h, List.length_nil] at hlen
    exact List.eq_nil_of_length_eq_zero (by omega)
  rw [hq, hq0, List.append_nil]

/-- The sink printed the first integer of each stage it went through. -/
theorem Inv.printed_heads (hi : Inv xs w) : Heads xs w.printed := by
  intro k hk
  have hh := hi.heads k hk
  obtain ⟨q, hq, -⟩ := hi.fifo k
  obtain ⟨t, ht⟩ := hi.wrote_isPrefix k
  have hne : w.took k ≠ [] := by
    intro h0
    simp [h0] at hh
  rw [← ht, hq, List.append_assoc, List.head?_append_of_ne_nil _ hne, hh]

/-- **The sink prints a prefix of the sieve.** -/
theorem Inv.printed_isPrefix (hi : Inv xs w) : w.printed <+: sieve xs :=
  prefix_sieve_of_heads hi.printed_heads

/-- A pipe whose writer has exited carries its whole stage: the source wrote all of `xs`, and
the culler of pipe `k` read pipe `k` to its end, by induction all of stage `k`, and struck the
multiples of its head. -/
theorem Inv.wrote_eq_stage (hi : Inv xs w) :
    ∀ j, j + 1 < w.nproc → (w.procs (j + 1)).pc = .exited → w.wrote j = stage xs j
  | 0, h1, he => by
    have hs := hi.sourceOk h1
    unfold SourceOk at hs
    rw [show (w.procs 1).pc = .exited from he] at hs
    exact hs.2
  | k + 1, hk, he => by
    have hc := hi.cullOk hk
    unfold CullOk at hc
    rw [show (w.procs (k + 2)).pc = .exited from he] at hc
    obtain ⟨-, ⟨p, c, htk, hw⟩, hend⟩ := hc
    have ih := hi.wrote_eq_stage k (by omega) hend.2
    rw [hw, stage_succ, ← ih, ← hi.took_eq_wrote hend.1, htk]
    rfl

/-- **Once the sink has exited, it has printed the whole sieve**: its last pipe was at its end,
so that stage of the sieve is empty. -/
theorem Inv.printed_eq (hi : Inv xs w) (he : (w.procs 0).pc = .exited) :
    w.printed = sieve xs := by
  have hs := hi.sinkOk
  unfold SinkOk at hs
  rw [he] at hs
  obtain ⟨j, -, -, hN, hlen, htj, hend⟩ := hs
  have hw := hi.wrote_eq_stage j (by omega) hend.2
  refine eq_sieve_of_heads hi.printed_heads ?_
  rw [hlen, ← hw, ← hi.took_eq_wrote hend.1, htj]

end Results

/-- **`primes` is a correct sieve**, whatever the order in which its processes move, for a
source that writes any list `xs` of `int`s (`sourceInts`, `2, …, 35`, in `primes.c`): no
process goes wrong, no `read` returns part of an integer, each pipe has one write and one read
descriptor once its processes are out of `connect`, and the sink prints a prefix of the sieve of
`xs`, all of it once it has exited; the sieve of `[2, …, N]` is the list of primes `≤ N`. -/
theorem primes_correct (xs : List ℕ) (hxs : ∀ x ∈ xs, x < 2 ^ 32) :
    (∀ w, Reachable xs w →
      (∀ i, (w.procs i).pc ≠ .fault) ∧
      (∀ i, ((w.procs i).pc = .sink ∨ ∃ p, (w.procs i).pc = .cull p) →
        w.readResult i ≠ some .bad) ∧
      (∀ j < w.npipe, (∀ i ∈ [0, j + 1, j + 2], (w.procs i).pc.connecting = false) → ∀ i fd,
        ((w.procs i).fds fd = some (.pipe j true) ↔
          i = j + 1 ∧ fd = STDOUT ∧ (w.procs i).pc ≠ .exited) ∧
        ((w.procs i).fds fd = some (.pipe j false) ↔
          i = w.reader j ∧ fd = STDIN ∧ (w.procs i).pc ≠ .exited)) ∧
      w.printed <+: sieve xs ∧
      ((w.procs 0).pc = .exited → w.printed = sieve xs)) ∧
    ∀ N, sieve (List.range' 2 (N - 1)) = (List.range (N + 1)).filter Nat.Prime := by
  refine ⟨fun w hw => ?_, sieve_range⟩
  have hi := inv_reachable hxs hw
  exact ⟨hi.pc_ne_fault, fun i hrd => hi.readResult_ne_bad hxs hrd,
    fun j hj hs i fd => ⟨hi.write_end hj hs i fd, hi.read_end hj hs i fd⟩,
    hi.printed_isPrefix, hi.printed_eq⟩

end Primes

end Xv6
