import Xv6.User.Primes.Fds
import Xv6.Lib.Sieve

/-!
# The invariant of `primes`

Process 0 is the sink, process 1 the source, the writer of pipe 0, and process `j + 2` the
culler that reads pipe `j` and writes pipe `j + 1`: `fork` numbers them so, as the sink makes
pipe `j + 1` right after it took the first integer of pipe `j`. `Inv` says where each of them
can be, with which table (`SinkOk`, `SourceOk`, `CullOk`), and what the pipes hold:

* every pipe holds whole integers, those written into it and not yet read (`fifo`): a writer
  starts an integer only on a whole number of integers, and `PIPESIZE` is a multiple of 4, so
  a full pipe never splits one;
* the source has written a prefix of `xs`, and the culler of pipe `j` has passed on those of
  the integers it took that the sink's `p` does not divide;
* the sink printed the first integer of each pipe it has left, and each pipe past the first is
  filled only by its culler.

A reader that finds a pipe empty with its write end closed has seen the end: the writer has
exited (`Inv.writeOpen`), so no integer is still to come (`Eof`). The invariant is proved over
every step of every process (`Inv.step`), from `World.init`.
-/

namespace Xv6

namespace Primes

open Sieve

/-! ### Whole integers in a pipe -/

/-- The bytes of the integers `q`, in order. -/
def bytesOf (q : List ℕ) : List UInt8 := q.flatMap encode

@[simp] theorem bytesOf_nil : bytesOf [] = [] := rfl

theorem bytesOf_cons (y : ℕ) (q : List ℕ) : bytesOf (y :: q) = encode y ++ bytesOf q :=
  List.flatMap_cons

theorem bytesOf_append (q q' : List ℕ) : bytesOf (q ++ q') = bytesOf q ++ bytesOf q' :=
  List.flatMap_append

theorem length_bytesOf (q : List ℕ) : (bytesOf q).length = 4 * q.length := by
  induction q with
  | nil => rfl
  | cons y q ih =>
    rw [bytesOf_cons, List.length_append, length_encode, ih, List.length_cons]
    omega

theorem take_bytesOf_cons (y : ℕ) (q : List ℕ) : (bytesOf (y :: q)).take 4 = encode y := by
  rw [bytesOf_cons, List.take_append_of_le_length (by simp), List.take_of_length_le (by simp)]

theorem drop_bytesOf_cons (y : ℕ) (q : List ℕ) : (bytesOf (y :: q)).drop 4 = bytesOf q := by
  rw [bytesOf_cons, List.drop_append_of_le_length (by simp), List.drop_of_length_le (by simp),
    List.nil_append]

section Inv

variable (xs : List ℕ)

/-! ### The invariant -/

/-- Pipe `j` is at its end: empty, and its writer, process `j + 1`, has exited. -/
def Eof (w : World) (j : ℕ) : Prop := w.pipes j = [] ∧ (w.procs (j + 1)).pc = .exited

/-- The culler of pipe `j` passed on the integers it took after the sink's `p` that `p` does not
divide. -/
def Culled (w : World) (j : ℕ) : Prop :=
  ∃ p c, w.took j = p :: c ∧ w.wrote (j + 1) = c.filter (· % p ≠ 0)

/-- What the child forked with pipe `j` goes on to: the source with the first pipe, and
`cull(p)` with the integer `p` the sink took from the pipe before. -/
def ChildOk (w : World) (j : ℕ) (child : Pc) : Prop :=
  j = 0 ∧ child = .source xs ∨ ∃ k p, j = k + 1 ∧ child = .cull p ∧ w.took k = [p]

/-- Where the sink, process 0, can be. After `pipe` it holds pipe `j = npipe - 1` at 3 and 4
until its `connect` is done; from then it reads pipe `j`, of which it has taken nothing yet, or
only the integer it is about to print. -/
def SinkOk (w : World) : Prop :=
  match (w.procs 0).pc with
  | .pipe child =>
    (w.procs 0).fds = sinkFds (inputOf w.npipe) ∧ w.nproc = w.npipe + 1 ∧
      w.printed.length = w.npipe ∧ ChildOk xs w w.npipe child
  | .fork pd child =>
    ∃ j, w.npipe = j + 1 ∧ pd = (3, 4) ∧ (w.procs 0).fds = forkFds j ∧ w.nproc = j + 1 ∧
      w.printed.length = j ∧ w.took j = [] ∧ ChildOk xs w j child
  | .calls cs next =>
    ∃ j done, w.npipe = j + 1 ∧ next = .sink ∧ done ++ cs = connect STDIN (3, 4) ∧
      (w.procs 0).fds = runCalls done (forkFds j) ∧ w.nproc = j + 2 ∧ w.printed.length = j ∧
      w.took j = []
  | .sink =>
    ∃ j, w.npipe = j + 1 ∧ (w.procs 0).fds = sinkFds (.pipe j false) ∧ w.nproc = j + 2 ∧
      w.printed.length = j ∧ w.took j = []
  | .print p =>
    ∃ j, w.npipe = j + 1 ∧ (w.procs 0).fds = sinkFds (.pipe j false) ∧ w.nproc = j + 2 ∧
      w.printed.length = j ∧ w.took j = [p]
  | .exited =>
    ∃ j, w.npipe = j + 1 ∧ (w.procs 0).fds = (fun _ => none) ∧ w.nproc = j + 2 ∧
      w.printed.length = j ∧ w.took j = [] ∧ Eof w j
  | _ => False

/-- Where the source, process 1, can be: it has written a prefix of `xs`. -/
def SourceOk (w : World) : Prop :=
  match (w.procs 1).pc with
  | .calls cs next =>
    next = .source xs ∧ w.wrote 0 = [] ∧
      ∃ done, done ++ cs = connect STDOUT (3, 4) ∧ (w.procs 1).fds = runCalls done (forkFds 0)
  | .source rest => (w.procs 1).fds = writerFds 0 ∧ w.wrote 0 ++ rest = xs
  | .write x k next =>
    ∃ rest, next = .source rest ∧ k = 0 ∧ (w.procs 1).fds = writerFds 0 ∧
      w.wrote 0 ++ x :: rest = xs
  | .exited => (w.procs 1).fds = (fun _ => none) ∧ w.wrote 0 = xs
  | _ => False

/-- Where the culler of pipe `j`, process `j + 2`, can be. The sink took the first integer `p`
of pipe `j`, the culler has taken the ones after it so far, `c`, and has written into pipe
`j + 1` those of them that `p` does not divide, but the one it is writing. Once `cull` has
returned, pipe `j` is at its end. -/
def CullOk (w : World) (j : ℕ) : Prop :=
  match (w.procs (j + 2)).pc with
  | .calls cs next =>
    (∃ p, next = .cull p ∧ w.took j = [p]) ∧ w.wrote (j + 1) = [] ∧
      ∃ done, done ++ cs = connect STDOUT (3, 4) ∧
        (w.procs (j + 2)).fds = runCalls done (forkFds (j + 1))
  | .cull p =>
    (w.procs (j + 2)).fds = writerFds (j + 1) ∧
      ∃ c, w.took j = p :: c ∧ w.wrote (j + 1) = c.filter (· % p ≠ 0)
  | .write x k next =>
    ∃ p, next = .cull p ∧ k = 0 ∧ (w.procs (j + 2)).fds = writerFds (j + 1) ∧
      ∃ c, w.took j = p :: c ∧ w.wrote (j + 1) ++ [x] = c.filter (· % p ≠ 0)
  | .sink => (w.procs (j + 2)).fds = writerFds (j + 1) ∧ Culled w j ∧ Eof w j
  | .exited => (w.procs (j + 2)).fds = (fun _ => none) ∧ Culled w j ∧ Eof w j
  | _ => False

/-- The clause of process `i`. -/
def RoleOk (w : World) : ℕ → Prop
  | 0 => SinkOk xs w
  | 1 => SourceOk xs w
  | j + 2 => CullOk w j

/-- The invariant of `primes` with a source that writes `xs`. -/
structure Inv (w : World) : Prop where
  started : 0 < w.nproc
  role : ∀ i < w.nproc, RoleOk xs w i
  unused : ∀ i, w.nproc ≤ i → w.procs i = Proc.unused
  /-- Pipe `j` holds, whole, the integers written into it and not yet read. -/
  fifo : ∀ j, ∃ q, w.wrote j = w.took j ++ q ∧ w.pipes j = bytesOf q
  untaken : ∀ j, w.npipe ≤ j → w.took j = []
  /-- Nothing is written into a pipe before its writer is forked. -/
  unwritten : ∀ j, w.nproc ≤ j + 1 → w.wrote j = []
  /-- The sink printed the first integer of each pipe it took one from. -/
  heads : ∀ k (hk : k < w.printed.length), (w.took k).head? = some w.printed[k]

theorem inv_init : Inv xs (World.init xs) := by
  refine ⟨Nat.one_pos, fun i hi => ?_, fun i hi => ?_, fun j => ⟨[], rfl, rfl⟩,
    fun _ _ => rfl, fun _ _ => rfl, fun k hk => absurd hk (by simp [World.init])⟩
  · obtain rfl : i = 0 := by simpa [World.init] using hi
    show SinkOk xs (World.init xs)
    unfold SinkOk
    exact ⟨sinkFds_console.symm, rfl, rfl, Or.inl ⟨rfl, rfl⟩⟩
  · have hi0 : i ≠ 0 := by simp [World.init] at hi; omega
    dsimp only [World.init]
    exact Function.update_of_ne hi0 _ _

/-! ### Frames: what each clause reads -/

variable {xs} {w w' : World}

theorem Eof.frame {j : ℕ} (he : Eof w j) (hpipe : w'.pipes j = w.pipes j)
    (hproc : w'.procs (j + 1) = w.procs (j + 1)) : Eof w' j :=
  ⟨hpipe.trans he.1, by rw [hproc]; exact he.2⟩

theorem Eof.setProc {j i : ℕ} {p : Proc} (h : Eof w j) (hi : j + 1 ≠ i) : Eof (w.setProc i p) j :=
  h.frame rfl (Function.update_of_ne hi _ _)

theorem ChildOk.frame {j : ℕ} {child : Pc} (h : ChildOk xs w j child)
    (ht : ∀ k, j = k + 1 → w'.took k = w.took k) : ChildOk xs w' j child := by
  rcases h with h | ⟨k, p, rfl, hc, hk⟩
  · exact Or.inl h
  · exact Or.inr ⟨k, p, rfl, hc, (ht k rfl).trans hk⟩

/-- The sink's clause reads its own process, the counts, what it printed, the integers taken
from its last two pipes, and the ends of pipes. -/
theorem SinkOk.frame (h : SinkOk xs w) (hp : w'.procs 0 = w.procs 0)
    (hn : w'.npipe = w.npipe) (hN : w'.nproc = w.nproc) (hpr : w'.printed = w.printed)
    (ht : ∀ k, w.nproc ≤ k + 2 → w'.took k = w.took k)
    (he : ∀ k, k + 1 < w.nproc → Eof w k → Eof w' k) : SinkOk xs w' := by
  unfold SinkOk at h ⊢
  rw [hp, hn, hN, hpr]
  cases hpc : (w.procs 0).pc <;> rw [hpc] at h
  case pipe child =>
    obtain ⟨hfd, hN', hlen, hc⟩ := h
    exact ⟨hfd, hN', hlen, hc.frame fun k hk => ht k (by omega)⟩
  case fork pd child =>
    obtain ⟨j, hj, hpd, hfd, hN', hlen, htj, hc⟩ := h
    exact ⟨j, hj, hpd, hfd, hN', hlen, (ht j (by omega)).trans htj,
      hc.frame fun k hk => ht k (by omega)⟩
  case calls cs next =>
    obtain ⟨j, done, hj, hnext, hdone, hfd, hN', hlen, htj⟩ := h
    exact ⟨j, done, hj, hnext, hdone, hfd, hN', hlen, (ht j (by omega)).trans htj⟩
  case sink =>
    obtain ⟨j, hj, hfd, hN', hlen, htj⟩ := h
    exact ⟨j, hj, hfd, hN', hlen, (ht j (by omega)).trans htj⟩
  case print p =>
    obtain ⟨j, hj, hfd, hN', hlen, htj⟩ := h
    exact ⟨j, hj, hfd, hN', hlen, (ht j (by omega)).trans htj⟩
  case exited =>
    obtain ⟨j, hj, hfd, hN', hlen, htj, hej⟩ := h
    exact ⟨j, hj, hfd, hN', hlen, (ht j (by omega)).trans htj, he j (by omega) hej⟩
  all_goals exact h

theorem SourceOk.frame (h : SourceOk xs w) (hp : w'.procs 1 = w.procs 1)
    (hw : w'.wrote 0 = w.wrote 0) : SourceOk xs w' := by
  unfold SourceOk at h ⊢
  rw [hp, hw]
  exact h

theorem CullOk.frame {j : ℕ} (h : CullOk w j) (hp : w'.procs (j + 2) = w.procs (j + 2))
    (ht : w'.took j = w.took j) (hw : w'.wrote (j + 1) = w.wrote (j + 1))
    (he : Eof w j → Eof w' j) : CullOk w' j := by
  unfold CullOk Culled at h ⊢
  rw [hp, ht, hw]
  cases hpc : (w.procs (j + 2)).pc <;> rw [hpc] at h
  case sink => exact ⟨h.1, h.2.1, he h.2.2⟩
  case exited => exact ⟨h.1, h.2.1, he h.2.2⟩
  all_goals exact h

/-- A clause holds on when what it reads is unchanged. -/
theorem RoleOk.frame {k : ℕ} (h : RoleOk xs w k) (hk : k < w.nproc)
    (hp : w'.procs k = w.procs k)
    (hsink : k = 0 → w'.npipe = w.npipe ∧ w'.nproc = w.nproc ∧ w'.printed = w.printed ∧
      ∀ j, w.nproc ≤ j + 2 → w'.took j = w.took j)
    (hsource : k = 1 → w'.wrote 0 = w.wrote 0)
    (hcull : ∀ j, k = j + 2 → w'.took j = w.took j ∧ w'.wrote (j + 1) = w.wrote (j + 1))
    (he : ∀ j, j + 1 < w.nproc → Eof w j → Eof w' j) : RoleOk xs w' k :=
  match k, h with
  | 0, h =>
    have ⟨hn, hN, hpr, ht⟩ := hsink rfl
    SinkOk.frame h hp hn hN hpr ht he
  | 1, h => SourceOk.frame h hp (hsource rfl)
  | j + 2, h => CullOk.frame h hp (hcull j rfl).1 (hcull j rfl).2 (he j (by omega))

/-! ### What the invariant gives -/

theorem Inv.sinkOk (hi : Inv xs w) : SinkOk xs w := hi.role 0 hi.started

theorem Inv.sourceOk (hi : Inv xs w) (h : 1 < w.nproc) : SourceOk xs w := hi.role 1 h

theorem Inv.cullOk (hi : Inv xs w) {j : ℕ} (h : j + 2 < w.nproc) : CullOk w j := hi.role (j + 2) h

/-- There is a pipe for every process but the sink, and a process for every pipe. -/
theorem SinkOk.counts (h : SinkOk xs w) : w.npipe ≤ w.nproc ∧ w.nproc ≤ w.npipe + 1 := by
  unfold SinkOk at h
  split at h
  · omega
  · obtain ⟨j, hj, -, -, hN, -⟩ := h
    omega
  · obtain ⟨j, -, hj, -, -, -, hN, -⟩ := h
    omega
  · obtain ⟨j, hj, -, hN, -⟩ := h
    omega
  · obtain ⟨j, hj, -, hN, -⟩ := h
    omega
  · obtain ⟨j, hj, -, hN, -⟩ := h
    omega
  · exact h.elim

/-- A live writer holds the write end of its pipe: at 4 or at `STDOUT` inside `connect`, at
`STDOUT` after it. -/
theorem Inv.writeOpen (hi : Inv xs w) {j : ℕ} (hj : j + 1 < w.nproc)
    (ha : (w.procs (j + 1)).pc ≠ .exited) : w.isOpen j true = true := by
  have hwin : ∀ done cs, done ++ cs = connect STDOUT (3, 4) →
      (w.procs (j + 1)).fds = runCalls done (forkFds j) → w.isOpen j true = true := by
    intro done cs hdone hfd
    rcases (stdout_window j hdone).1 with h4 | h1
    · exact w.isOpen_of 4 hj (by decide) (hfd ▸ h4)
    · exact w.isOpen_of 1 hj (by decide) (hfd ▸ h1)
  have hrun : (w.procs (j + 1)).fds = writerFds j → w.isOpen j true = true := fun hfd =>
    w.isOpen_of 1 hj (by decide) (by rw [hfd]; rfl)
  cases j with
  | zero =>
    have hs := hi.sourceOk hj
    unfold SourceOk at hs
    split at hs
    · obtain ⟨-, -, done, hdone, hfd⟩ := hs
      exact hwin done _ hdone hfd
    · exact hrun hs.1
    · obtain ⟨-, -, -, hfd, -⟩ := hs
      exact hrun hfd
    · exact absurd ‹_› ha
    · exact hs.elim
  | succ j =>
    have hc := hi.cullOk hj
    unfold CullOk at hc
    split at hc
    · obtain ⟨-, -, done, hdone, hfd⟩ := hc
      exact hwin done _ hdone hfd
    · exact hrun hc.1
    · obtain ⟨-, -, -, hfd, -⟩ := hc
      exact hrun hfd
    · exact hrun hc.1
    · exact absurd ‹_› ha
    · exact hc.elim

/-- While the writer of pipe `j` lives, so does a reader: the sink until it hands pipe `j` on,
then the culler of pipe `j`, which reads it to its end. -/
theorem Inv.readOpen (hi : Inv xs w) {j : ℕ} (hj : j + 1 < w.nproc)
    (ha : (w.procs (j + 1)).pc ≠ .exited) : w.isOpen j false = true := by
  rcases Nat.lt_or_ge (j + 2) w.nproc with hc | hc
  · have hcl := hi.cullOk hc
    unfold CullOk at hcl
    have hrun : (w.procs (j + 2)).fds = writerFds (j + 1) → w.isOpen j false = true := fun hfd =>
      w.isOpen_of 0 hc (by decide) (by rw [hfd]; rfl)
    split at hcl
    · obtain ⟨-, -, done, hdone, hfd⟩ := hcl
      exact w.isOpen_of 0 hc (by decide) (hfd ▸ (stdout_window (j + 1) hdone).2)
    · exact hrun hcl.1
    · obtain ⟨-, -, -, hfd, -⟩ := hcl
      exact hrun hfd
    · exact hrun hcl.1
    · exact absurd hcl.2.2.2 ha
    · exact hcl.elim
  · have h0 : 0 < w.nproc := hi.started
    have hs := hi.sinkOk
    unfold SinkOk at hs
    split at hs
    · obtain ⟨hfd, hN, -⟩ := hs
      refine w.isOpen_of 0 h0 (by decide) ?_
      rw [hfd, sinkFds_zero, show w.npipe = j + 1 by omega]
      rfl
    · obtain ⟨k, -, -, hfd, hN, -⟩ := hs
      refine w.isOpen_of 0 h0 (by decide) ?_
      rw [hfd, forkFds_zero, show k = j + 1 by omega]
      rfl
    · obtain ⟨k, done, -, -, hdone, hfd, hN, -⟩ := hs
      obtain rfl : k = j := by omega
      rcases stdin_window k hdone with h3 | h0'
      · exact w.isOpen_of 3 h0 (by decide) (hfd ▸ h3)
      · exact w.isOpen_of 0 h0 (by decide) (hfd ▸ h0')
    · obtain ⟨k, -, hfd, hN, -⟩ := hs
      obtain rfl : k = j := by omega
      exact w.isOpen_of 0 h0 (by decide) (by rw [hfd]; rfl)
    · obtain ⟨k, -, hfd, hN, -⟩ := hs
      obtain rfl : k = j := by omega
      exact w.isOpen_of 0 h0 (by decide) (by rw [hfd]; rfl)
    · obtain ⟨k, -, -, hN, -, -, hek⟩ := hs
      obtain rfl : k = j := by omega
      exact absurd hek.2 ha
    · exact hs.elim

/-- What the culler of pipe `j` wrote is a prefix of its filter of what it took. -/
theorem CullOk.wrote_isPrefix {j : ℕ} (h : CullOk w j) :
    ∃ p c, w.took j = p :: c ∧ w.wrote (j + 1) <+: c.filter (· % p ≠ 0) := by
  unfold CullOk at h
  split at h
  · obtain ⟨⟨p, -, htj⟩, hw, -⟩ := h
    exact ⟨p, [], htj, by rw [hw]; exact List.nil_prefix⟩
  · obtain ⟨-, c, htj, hw⟩ := h
    exact ⟨_, c, htj, by rw [hw]⟩
  · obtain ⟨p, -, -, -, c, htj, hw⟩ := h
    exact ⟨p, c, htj, by rw [← hw]; exact List.prefix_append _ _⟩
  · obtain ⟨-, ⟨p, c, htj, hw⟩, -⟩ := h
    exact ⟨p, c, htj, by rw [hw]⟩
  · obtain ⟨-, ⟨p, c, htj, hw⟩, -⟩ := h
    exact ⟨p, c, htj, by rw [hw]⟩
  · exact h.elim

theorem SourceOk.wrote_isPrefix (h : SourceOk xs w) : w.wrote 0 <+: xs := by
  unfold SourceOk at h
  split at h
  · rw [h.2.1]
    exact List.nil_prefix
  · exact ⟨_, h.2⟩
  · obtain ⟨rest, -, -, -, hw⟩ := h
    exact ⟨_, hw⟩
  · rw [h.2]
  · exact h.elim

/-- Striking the head of a stage from a prefix of it gives a prefix of the next stage. -/
theorem prefix_stage_succ {j p : ℕ} {c : List ℕ} (h : p :: c <+: stage xs j) :
    c.filter (· % p ≠ 0) <+: stage xs (j + 1) := by
  obtain ⟨t, ht⟩ := h
  rw [stage_succ, ← ht]
  exact (List.prefix_append c t).filter _

/-- **Each pipe carries a prefix of its stage of the sieve.** -/
theorem Inv.wrote_isPrefix (hi : Inv xs w) : ∀ j, w.wrote j <+: stage xs j
  | 0 => by
    rcases Nat.lt_or_ge 1 w.nproc with h1 | h1
    · exact (hi.sourceOk h1).wrote_isPrefix
    · rw [hi.unwritten 0 h1]
      exact List.nil_prefix
  | j + 1 => by
    rcases Nat.lt_or_ge (j + 2) w.nproc with hc | hc
    · obtain ⟨p, c, htj, hw⟩ := (hi.cullOk hc).wrote_isPrefix
      obtain ⟨q, hq, -⟩ := hi.fifo j
      have hpc : p :: c <+: stage xs j := by
        rw [← htj]
        exact (List.prefix_append _ q).trans (hq ▸ hi.wrote_isPrefix j)
      exact hw.trans (prefix_stage_succ hpc)
    · rw [hi.unwritten (j + 1) hc]
      exact List.nil_prefix

/-- Every integer in a pipe is one of the source's. -/
theorem Inv.mem_xs (hi : Inv xs w) {j x : ℕ} (hx : x ∈ w.wrote j) : x ∈ xs :=
  (stage_sublist xs j).subset ((hi.wrote_isPrefix j).subset hx)


/-! ### The operations on whole integers -/

/-- Pipe `j` with the integer `x` written into it, whole. -/
def World.put (w : World) (j x : ℕ) : World :=
  { w with pipes := Function.update w.pipes j (w.pipes j ++ encode x)
           wrote := Function.update w.wrote j (w.wrote j ++ [x]) }

namespace World

variable (w : World) (j x : ℕ)

@[simp] theorem put_procs : (w.put j x).procs = w.procs := rfl
@[simp] theorem put_nproc : (w.put j x).nproc = w.nproc := rfl
@[simp] theorem put_npipe : (w.put j x).npipe = w.npipe := rfl
@[simp] theorem put_printed : (w.put j x).printed = w.printed := rfl
@[simp] theorem put_took : (w.put j x).took = w.took := rfl

end World

/-- `write` of an integer into a pipe of whole integers whose read end is open: it goes in whole
if there is room for it, and otherwise the writer sleeps with nothing written. -/
theorem write_whole {i j x : ℕ} {next : Pc} {q : List ℕ}
    (hfd : (w.procs i).fds 1 = some (.pipe j true)) (hopen : w.isOpen j false = true)
    (hq : w.pipes j = bytesOf q) :
    w.write i x 0 next =
      if q.length < 128 then (w.put j x).goto i next else w.goto i (.write x 0 next) := by
  have hn : min (4 - 0) (PIPESIZE - (w.pipes j).length) = if q.length < 128 then 4 else 0 := by
    rw [hq, length_bytesOf]
    unfold PIPESIZE
    split_ifs <;> omega
  have hsome : argfd (w.procs i).fds STDOUT = some (.pipe j true) := by
    simp [argfd, NOFILE, hfd]
  simp only [World.write, hsome, hopen, if_true, hn]
  rcases Nat.lt_or_ge q.length 128 with hlen | hlen
  · simp only [hlen, if_true, Nat.zero_add, List.drop_zero,
      List.take_of_length_le (le_of_eq (length_encode x))]
    rfl
  · simp only [if_neg (Nat.not_lt.mpr hlen), Nat.zero_add, show ¬ (0 = 4) by decide, if_false,
      List.take_zero, List.append_nil, Function.update_eq_self]

/-- `read` from a pipe that starts with a whole integer takes it. -/
theorem readResult_int {i j y : ℕ} {q : List ℕ} (hfd : (w.procs i).fds 0 = some (.pipe j false))
    (hq : w.pipes j = bytesOf (y :: q)) (hy : y < 2 ^ 32) : w.readResult i = some (.int j y) := by
  have hsome : argfd (w.procs i).fds STDIN = some (.pipe j false) := by
    simp [argfd, NOFILE, hfd]
  simp only [World.readResult, hsome, hq, take_bytesOf_cons, length_encode, if_true,
    decode_encode hy]
  simp [encode]

/-- `read` from an empty pipe sleeps while the write end is open, and returns 0 once it is
closed. -/
theorem readResult_nil {i j : ℕ} (hfd : (w.procs i).fds 0 = some (.pipe j false))
    (hq : w.pipes j = []) :
    w.readResult i = if w.isOpen j true then none else some .eof := by
  have hsome : argfd (w.procs i).fds STDIN = some (.pipe j false) := by
    simp [argfd, NOFILE, hfd]
  simp only [World.readResult, hsome, hq, List.take_nil, if_true]

/-! ### Steps of each kind keep the invariant -/

/-- A step of a process leaves every slot above the processes unused. -/
theorem Inv.update_unused (hi : Inv xs w) {i k : ℕ} {p : Proc} (hiN : i < w.nproc)
    (hk : w.nproc ≤ k) : Function.update w.procs i p k = Proc.unused := by
  rw [Function.update_of_ne (by omega), hi.unused k hk]

/-- A step that changes only process `i`, which had not exited, keeps the invariant once the
clause of `i` holds after it. -/
theorem Inv.setProc (hi : Inv xs w) {i : ℕ} {p : Proc} (hiN : i < w.nproc)
    (ha : (w.procs i).pc ≠ .exited) (hr : RoleOk xs (w.setProc i p) i) :
    Inv xs (w.setProc i p) where
  started := hi.started
  role k hk := by
    rcases eq_or_ne k i with rfl | hki
    · exact hr
    · refine (hi.role k hk).frame hk (Function.update_of_ne hki _ _)
        (fun _ => ⟨rfl, rfl, rfl, fun _ _ => rfl⟩) (fun _ => rfl) (fun _ _ => ⟨rfl, rfl⟩)
        (fun j _ he => he.frame rfl (Function.update_of_ne ?_ _ _))
      rintro rfl
      exact ha he.2
  unused _ hk := hi.update_unused hiN hk
  fifo := hi.fifo
  untaken := hi.untaken
  unwritten := hi.unwritten
  heads := hi.heads

/-- Writing an integer whole into pipe `j` keeps the invariant once the clause of its writer
holds after it. -/
theorem Inv.put_writer (hi : Inv xs w) {j x : ℕ} {p : Proc} (hjN : j + 1 < w.nproc)
    (ha : (w.procs (j + 1)).pc ≠ .exited) (hr : RoleOk xs ((w.put j x).setProc (j + 1) p) (j + 1)) :
    Inv xs ((w.put j x).setProc (j + 1) p) where
  started := hi.started
  role k hk := by
    rcases eq_or_ne k (j + 1) with rfl | hkj
    · exact hr
    · have he : ∀ m, m + 1 < w.nproc → Eof w m → Eof ((w.put j x).setProc (j + 1) p) m := by
        intro m _ hm
        have hmj : m ≠ j := by
          rintro rfl
          exact ha hm.2
        exact hm.frame (Function.update_of_ne hmj _ _)
          (Function.update_of_ne (by omega) _ _)
      refine (hi.role k hk).frame hk (Function.update_of_ne hkj _ _)
        (fun _ => ⟨rfl, rfl, rfl, fun _ _ => rfl⟩) (fun hk1 => Function.update_of_ne ?_ _ _)
        (fun m hm => ⟨rfl, Function.update_of_ne ?_ _ _⟩) he
      · omega
      · omega
  unused _ hk := hi.update_unused hjN hk
  fifo m := by
    rcases eq_or_ne m j with rfl | hmj
    · obtain ⟨q, hq, hpq⟩ := hi.fifo m
      refine ⟨q ++ [x], ?_, ?_⟩
      · simp [World.put, hq]
      · simp [World.put, hpq, bytesOf_append, bytesOf_cons]
    · simpa [World.put, Function.update_of_ne hmj] using hi.fifo m
  untaken := hi.untaken
  unwritten m hm := by
    have hmj : m ≠ j := by simp at hm; omega
    simpa [World.put, Function.update_of_ne hmj] using hi.unwritten m (by simpa using hm)
  heads := hi.heads

/-- The same, with the writer's number as the caller has it. -/
theorem Inv.put (hi : Inv xs w) {i j x : ℕ} {p : Proc} (hij : i = j + 1) (hjN : i < w.nproc)
    (ha : (w.procs i).pc ≠ .exited) (hr : RoleOk xs ((w.put j x).setProc i p) i) :
    Inv xs ((w.put j x).setProc i p) := by
  subst hij
  exact hi.put_writer hjN ha hr

/-- The readers of pipe `j`: the sink while it reads pipe `j`, having taken nothing from it and
printed one integer for each pipe before, and the culler of pipe `j`, after the sink. -/
def Reads (w : World) (i j : ℕ) : Prop :=
  i = 0 ∧ w.nproc = j + 2 ∧ w.printed.length = j ∨ i = j + 2 ∧ w.took j ≠ []

/-- Taking the integer `y` out of pipe `j` keeps the invariant once the clause of the reader
holds after it. -/
theorem Inv.take (hi : Inv xs w) {i j y : ℕ} {q : List ℕ} {p : Proc} (hiN : i < w.nproc)
    (ha : (w.procs i).pc ≠ .exited) (hrd : Reads w i j) (hjn : j < w.npipe)
    (hq : w.wrote j = w.took j ++ y :: q) (hpq : w.pipes j = bytesOf (y :: q))
    (hr : RoleOk xs ((w.take j y).setProc i p) i) :
    Inv xs ((w.take j y).setProc i p) where
  started := hi.started
  role k hk := by
    rcases eq_or_ne k i with rfl | hki
    · exact hr
    · have hk' : k < w.nproc := hk
      have he : ∀ m, m + 1 < w.nproc → Eof w m → Eof ((w.take j y).setProc i p) m := by
        intro m _ hm
        have hmj : m ≠ j := by
          rintro rfl
          have hnil := hm.1
          simp [hpq, bytesOf_cons, encode] at hnil
        have hmi : m + 1 ≠ i := by
          rintro rfl
          exact ha hm.2
        exact hm.frame (Function.update_of_ne hmj _ _) (Function.update_of_ne hmi _ _)
      refine (hi.role k hk).frame hk (Function.update_of_ne hki _ _)
        (fun hk0 => ⟨rfl, rfl, rfl, fun m hm => Function.update_of_ne ?_ _ _⟩) (fun _ => rfl)
        (fun m hm => ⟨Function.update_of_ne ?_ _ _, rfl⟩) he
      · rintro rfl
        rcases hrd with ⟨rfl, -⟩ | ⟨rfl, -⟩ <;> omega
      · rintro rfl
        rcases hrd with ⟨rfl, hN, -⟩ | ⟨rfl, -⟩ <;> omega
  unused _ hk := hi.update_unused hiN hk
  fifo m := by
    rcases eq_or_ne m j with rfl | hmj
    · exact ⟨q, by simp [World.take, hq], by simp [World.take, hpq, drop_bytesOf_cons]⟩
    · simpa [World.take, Function.update_of_ne hmj] using hi.fifo m
  untaken m hm := by
    have hmj : m ≠ j := by simp at hm; omega
    simpa [World.take, Function.update_of_ne hmj] using hi.untaken m (by simpa using hm)
  unwritten := hi.unwritten
  heads k hk := by
    have hk' : k < w.printed.length := by simpa [World.take] using hk
    rcases eq_or_ne k j with rfl | hkj
    · rcases hrd with ⟨-, -, hlen⟩ | ⟨-, hne⟩
      · omega
      · simpa [World.take, List.head?_append_of_ne_nil _ hne] using hi.heads k hk'
    · simpa [World.take, Function.update_of_ne hkj] using hi.heads k hk'

/-- The sink's `pipe` keeps the invariant once the sink's clause holds after it. -/
theorem Inv.sysPipe (hi : Inv xs w) {p : Proc}
    (hr : SinkOk xs { w.setProc 0 p with npipe := w.npipe + 1 }) :
    Inv xs { w.setProc 0 p with npipe := w.npipe + 1 } where
  started := hi.started
  role k hk := by
    rcases eq_or_ne k 0 with rfl | hk0
    · exact hr
    · exact (hi.role k hk).frame hk (Function.update_of_ne hk0 _ _) (fun h => absurd h hk0)
        (fun _ => rfl) (fun _ _ => ⟨rfl, rfl⟩)
        (fun m _ he => he.setProc (by omega))
  unused _ hk := hi.update_unused hi.started hk
  fifo := hi.fifo
  untaken m hm := hi.untaken m (by simp at hm; omega)
  unwritten := hi.unwritten
  heads := hi.heads

/-- The sink's `printf` keeps the invariant once the sink's clause holds after it: it prints the
first integer of the pipe it reads. -/
theorem Inv.print (hi : Inv xs w) {p : Proc} {x : ℕ}
    (hx : (w.took w.printed.length).head? = some x)
    (hr : SinkOk xs { w.setProc 0 p with printed := w.printed ++ [x] }) :
    Inv xs { w.setProc 0 p with printed := w.printed ++ [x] } where
  started := hi.started
  role k hk := by
    rcases eq_or_ne k 0 with rfl | hk0
    · exact hr
    · exact (hi.role k hk).frame hk (Function.update_of_ne hk0 _ _) (fun h => absurd h hk0)
        (fun _ => rfl) (fun _ _ => ⟨rfl, rfl⟩)
        (fun m _ he => he.setProc (by omega))
  unused _ hk := hi.update_unused hi.started hk
  fifo := hi.fifo
  untaken := hi.untaken
  unwritten := hi.unwritten
  heads k hk := by
    rcases Nat.lt_or_ge k w.printed.length with hlt | hge
    · simpa [List.getElem_append_left hlt] using hi.heads k hlt
    · obtain rfl : k = w.printed.length := by simp at hk; omega
      simpa using hx

/-- The sink's `fork` keeps the invariant once the clauses of the sink and of the child hold
after it. -/
theorem Inv.fork (hi : Inv xs w) {p0 p1 : Proc}
    (hr0 : SinkOk xs { (w.setProc 0 p0).setProc w.nproc p1 with nproc := w.nproc + 1 })
    (hr1 : RoleOk xs { (w.setProc 0 p0).setProc w.nproc p1 with nproc := w.nproc + 1 } w.nproc) :
    Inv xs { (w.setProc 0 p0).setProc w.nproc p1 with nproc := w.nproc + 1 } where
  started := by simp
  role k hk := by
    rcases eq_or_ne k 0 with rfl | hk0
    · exact hr0
    rcases eq_or_ne k w.nproc with rfl | hkN
    · exact hr1
    have hk' : k < w.nproc := by simp at hk; omega
    refine (hi.role k hk').frame hk' ?_ (fun h => absurd h hk0)
      (fun _ => rfl) (fun _ _ => ⟨rfl, rfl⟩)
      (fun m hm he => he.frame rfl ?_)
    · simp [Function.update_of_ne hkN, Function.update_of_ne hk0]
    · simp [Function.update_of_ne (show m + 1 ≠ w.nproc by omega)]
  unused k hk := by
    have hk' : w.nproc + 1 ≤ k := hk
    show Function.update (Function.update w.procs 0 p0) w.nproc p1 k = Proc.unused
    rw [Function.update_of_ne (by omega), hi.update_unused hi.started (by omega)]
  fifo := hi.fifo
  untaken := hi.untaken
  unwritten m hm := hi.unwritten m (by simp at hm; omega)
  heads := hi.heads

end Inv

end Primes

end Xv6
