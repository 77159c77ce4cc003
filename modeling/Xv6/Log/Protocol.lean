import Xv6.Log.Crash
import Xv6.Lib.Count

/-!
# Group commit: `begin_op`, `log_write`, `end_op` (`kernel/log.c`)

Processes run file-system operations between `begin_op()` and `end_op()`, and record the blocks
they change with `log_write()`. The last `end_op()` of a group finds `log.outstanding == 0`,
sets `log.committing` and runs `commit()`; `begin_op()` admits no operation while
`log.committing` is set, nor one that might overflow the log.

The system is a transition system over the in-memory `struct log`, each step the body of one
of these functions under `log.lock`. A process whose `begin_op()` would sleep takes no step:
sleeping and retrying after the `wakeup(&log)` reach the same states. `commit()` runs without
`log.lock`, but nothing else touches the header while it runs: no process is inside an
operation to call `log_write()` or `end_op()`, and `begin_op()` only sleeps.

`LogState.writes` and `LogState.ended` are ghost state: the blocks each operation passed to
`log_write()`, and the writes of the operations that ended since the last commit. The invariant
`LogInv` says that the header is the union of the writes of the ended operations and of the
running ones, and that a commit runs alone. `log_commit_atomic` combines it with
`commit_crash_atomic`: every group is made of whole operations, and is installed atomically.
-/

namespace Xv6

namespace Log

/-- Where a process is in the log protocol. -/
inductive LPhase where
  /-- Outside any file-system operation. -/
  | idle
  /-- Between `begin_op()` and `end_op()`. -/
  | inOp
  /-- In the `end_op()` that found `log.outstanding == 0`, running `commit()`. -/
  | committing
  deriving DecidableEq

/-- `struct log` in memory, with the processes and the ghost state. -/
structure LogState (P : Type) where
  outstanding : ℕ
  committing : Bool
  /-- `log.lh.block[0..log.lh.n)`. -/
  lh : List ℕ
  phase : P → LPhase
  /-- Ghost: the blocks the operation of each process passed to `log_write()`. -/
  writes : P → List ℕ
  /-- Ghost: the writes of the operations that ended since the last commit. -/
  ended : List (List ℕ)

/-- Requests on the log. -/
inductive LAct (P : Type) where
  | beginOp (p : P)
  | logWrite (p : P) (blockno : ℕ)
  | endOp (p : P)
  | commit (p : P)

namespace LogState

variable {P : Type} [DecidableEq P]

/-- The log after `recover_from_log()`: empty, with no operation running. -/
def init : LogState P :=
  { outstanding := 0, committing := false, lh := [], phase := fun _ => .idle,
    writes := fun _ => [], ended := [] }

/-- `log_write(b)` for block `k`: absorbed if the header has it, appended otherwise. -/
def absorb (lh : List ℕ) (k : ℕ) : List ℕ := if k ∈ lh then lh else lh ++ [k]

/-- The steps, for a log of `size` blocks (`log.size`, the header block included). A panic
stops the system: `log_write()`'s "too big a transaction" and "outside of trans", and
`end_op()`'s "log.committing". -/
def step (size : ℕ) (s : LogState P) : LAct P → Option (LogState P)
  | .beginOp p =>
    if s.phase p = .idle ∧ s.committing = false ∧
        s.lh.length + (s.outstanding + 1) * MAXOPBLOCKS ≤ LOGSIZE then
      some { s with outstanding := s.outstanding + 1, phase := Function.update s.phase p .inOp,
                    writes := Function.update s.writes p [] }
    else none
  | .logWrite p k =>
    if s.phase p = .inOp ∧ ¬ (LOGSIZE ≤ s.lh.length ∨ size - 1 ≤ s.lh.length) ∧
        ¬ s.outstanding < 1 then
      some { s with lh := absorb s.lh k, writes := Function.update s.writes p (s.writes p ++ [k]) }
    else none
  | .endOp p =>
    if s.phase p = .inOp ∧ s.committing = false then
      if s.outstanding - 1 = 0 then
        some { s with outstanding := s.outstanding - 1, committing := true,
                      phase := Function.update s.phase p .committing,
                      ended := s.ended ++ [s.writes p], writes := Function.update s.writes p [] }
      else
        some { s with outstanding := s.outstanding - 1, phase := Function.update s.phase p .idle,
                      ended := s.ended ++ [s.writes p], writes := Function.update s.writes p [] }
    else none
  | .commit p =>
    if s.phase p = .committing then
      some { s with lh := [], committing := false, phase := Function.update s.phase p .idle,
                    ended := [] }
    else none

/-- What the file system promises the log: it only logs home blocks, numbered by `uint`s,
outside the log area `[start, start + size)`. -/
def FsPromise (start size : ℕ) : LAct P → Prop
  | .logWrite _ k => (k < start ∨ start + size ≤ k) ∧ k < 2 ^ 32
  | _ => True

/-! ### What each request can do -/

section Steps

variable {size : ℕ} {s t : LogState P} {p : P}

theorem step_beginOp :
    s.step size (.beginOp p) = some t ↔
      (s.phase p = .idle ∧ s.committing = false ∧
        s.lh.length + (s.outstanding + 1) * MAXOPBLOCKS ≤ LOGSIZE) ∧
      t = { s with outstanding := s.outstanding + 1, phase := Function.update s.phase p .inOp,
                   writes := Function.update s.writes p [] } := by
  simp only [step]
  exact Option.ite_some_none_eq_some.trans (and_congr_right fun _ => eq_comm)

theorem step_logWrite {k : ℕ} :
    s.step size (.logWrite p k) = some t ↔
      (s.phase p = .inOp ∧ ¬ (LOGSIZE ≤ s.lh.length ∨ size - 1 ≤ s.lh.length) ∧
        ¬ s.outstanding < 1) ∧
      t = { s with lh := absorb s.lh k,
                   writes := Function.update s.writes p (s.writes p ++ [k]) } := by
  simp only [step]
  exact Option.ite_some_none_eq_some.trans (and_congr_right fun _ => eq_comm)

theorem step_endOp :
    s.step size (.endOp p) = some t ↔
      s.phase p = .inOp ∧ s.committing = false ∧
      ((s.outstanding - 1 = 0 ∧
        t = { s with outstanding := s.outstanding - 1, committing := true,
                     phase := Function.update s.phase p .committing,
                     ended := s.ended ++ [s.writes p],
                     writes := Function.update s.writes p [] }) ∨
       (s.outstanding - 1 ≠ 0 ∧
        t = { s with outstanding := s.outstanding - 1, phase := Function.update s.phase p .idle,
                     ended := s.ended ++ [s.writes p],
                     writes := Function.update s.writes p [] })) := by
  simp only [step]
  by_cases h : s.phase p = .inOp ∧ s.committing = false
  · by_cases h0 : s.outstanding - 1 = 0
    · simp [h, h0, eq_comm]
    · simp [h, h0, eq_comm]
  · rw [if_neg h]
    exact iff_of_false (by simp) fun h' => h ⟨h'.1, h'.2.1⟩

theorem step_commit :
    s.step size (.commit p) = some t ↔
      s.phase p = .committing ∧
      t = { s with lh := [], committing := false, phase := Function.update s.phase p .idle,
                   ended := [] } := by
  simp only [step]
  exact Option.ite_some_none_eq_some.trans (and_congr_right fun _ => eq_comm)

end Steps

/-- Absorption keeps the header free of duplicates. -/
theorem nodup_absorb {lh : List ℕ} (h : lh.Nodup) (k : ℕ) : (absorb lh k).Nodup := by
  unfold absorb
  split_ifs with hk
  · exact h
  · exact h.append (List.nodup_singleton k) (by simpa using hk)

theorem mem_absorb {lh : List ℕ} {k x : ℕ} : x ∈ absorb lh k ↔ x ∈ lh ∨ x = k := by
  unfold absorb
  split_ifs with hk
  · exact ⟨.inl, fun h => h.elim id fun e => e ▸ hk⟩
  · simp

theorem length_absorb_le (lh : List ℕ) (k : ℕ) : (absorb lh k).length ≤ lh.length + 1 := by
  unfold absorb
  split_ifs <;> simp

/-! ### The invariant -/

section Invariant

variable [Fintype P]

/-- The number of processes inside an operation. -/
def running (phase : P → LPhase) : ℕ := Count.count phase (· = .inOp)

/-- The invariant of the log protocol, for the log area `[start, start + size)`. -/
structure LogInv (start size : ℕ) (s : LogState P) : Prop where
  outstanding : s.outstanding = running s.phase
  committing_iff : s.committing = true ↔ ∃ p, s.phase p = .committing
  one_committer : ∀ p q, s.phase p = .committing → s.phase q = .committing → p = q
  alone : s.committing = true → ∀ q, s.phase q ≠ .inOp
  union : ∀ k, k ∈ s.lh ↔ (∃ ws ∈ s.ended, k ∈ ws) ∨ ∃ q, s.phase q = .inOp ∧ k ∈ s.writes q
  nodup : s.lh.Nodup
  length_le : s.lh.length ≤ LOGSIZE
  fits : s.lh = [] ∨ s.lh.length < size
  home : ∀ k ∈ s.lh, (k < start ∨ start + size ≤ k) ∧ k < 2 ^ 32

variable {start size : ℕ} {s : LogState P} {p : P}

omit [DecidableEq P] in
theorem logInv_init : LogInv start size (init : LogState P) where
  outstanding := (Count.count_eq_zero.mpr fun _ => by simp [init]).symm
  committing_iff := by simp [init]
  one_committer _ _ h := absurd h (by simp [init])
  alone h := absurd h (by simp [init])
  union _ := by simp [init]
  nodup := List.nodup_nil
  length_le := Nat.zero_le _
  fits := .inl rfl
  home _ h := absurd h List.not_mem_nil

omit [DecidableEq P] in
/-- With no commit running, nobody is committing. -/
theorem LogInv.not_committing (hi : LogInv start size s) (hc : s.committing = false) (q : P) :
    s.phase q ≠ .committing := fun h => by
  have := hi.committing_iff.mpr ⟨q, h⟩
  rw [hc] at this
  cases this

/-! ### One request keeps the invariant -/

/-- `begin_op()` admits `p`: one more operation runs, with no writes yet. -/
theorem LogInv.beginOp (hi : LogInv start size s) (hp : s.phase p = .idle)
    (hc : s.committing = false) :
    LogInv start size
      { s with outstanding := s.outstanding + 1, phase := Function.update s.phase p .inOp,
               writes := Function.update s.writes p [] } := by
  have hr := Count.count_update (Q := (· = LPhase.inOp)) s.phase p .inOp
  simp only [hp, reduceCtorEq, if_false, if_true] at hr
  refine { outstanding := ?outstanding, committing_iff := ?committing_iff,
           one_committer := ?one_committer, alone := fun h => absurd (hc ▸ h) (by decide),
           union := ?union, nodup := hi.nodup, length_le := hi.length_le, fits := hi.fits,
           home := hi.home }
  case outstanding =>
    show s.outstanding + 1 = running (Function.update s.phase p .inOp)
    unfold running
    rw [hi.outstanding, running]
    omega
  case committing_iff =>
    -- nobody was committing, and `p` is not
    dsimp only
    simp only [hc, Bool.false_eq_true, false_iff, not_exists]
    intro q
    by_cases e : q = p
    · subst e
      simp
    · rw [Function.update_of_ne e]
      exact hi.not_committing hc q
  case one_committer =>
    intro q r hq
    dsimp only at hq
    by_cases e : q = p
    · subst e
      simp at hq
    · rw [Function.update_of_ne e] at hq
      exact absurd hq (hi.not_committing hc q)
  case union =>
    intro k
    dsimp only
    rw [hi.union k]
    apply or_congr_right
    constructor
    · rintro ⟨q, hq, hk⟩
      have e : q ≠ p := fun e => by rw [e, hp] at hq; cases hq
      exact ⟨q, by rwa [Function.update_of_ne e], by rwa [Function.update_of_ne e]⟩
    · rintro ⟨q, hq, hk⟩
      by_cases e : q = p
      · subst e
        simp at hk
      · exact ⟨q, by rwa [Function.update_of_ne e] at hq, by rwa [Function.update_of_ne e] at hk⟩

/-- `log_write()`: the block joins the header and the writes of `p`'s operation. -/
theorem LogInv.logWrite (hi : LogInv start size s) {k : ℕ} (hp : s.phase p = .inOp)
    (hroom : ¬ (LOGSIZE ≤ s.lh.length ∨ size - 1 ≤ s.lh.length))
    (hk : (k < start ∨ start + size ≤ k) ∧ k < 2 ^ 32) :
    LogInv start size
      { s with lh := absorb s.lh k,
               writes := Function.update s.writes p (s.writes p ++ [k]) } := by
  have hlen := length_absorb_le s.lh k
  refine { outstanding := hi.outstanding, committing_iff := hi.committing_iff,
           one_committer := hi.one_committer, alone := hi.alone, union := ?union,
           nodup := nodup_absorb hi.nodup k, length_le := by dsimp only; omega,
           fits := .inr (by dsimp only; omega), home := ?home }
  case union =>
    intro x
    dsimp only
    rw [mem_absorb, hi.union x]
    constructor
    · rintro ((hx | ⟨q, hq, hx⟩) | rfl)
      · exact .inl hx
      · refine .inr ⟨q, hq, ?_⟩
        by_cases e : q = p
        · subst e
          simp [hx]
        · rwa [Function.update_of_ne e]
      · exact .inr ⟨p, hp, by simp⟩
    · rintro (hx | ⟨q, hq, hx⟩)
      · exact .inl (.inl hx)
      · by_cases e : q = p
        · subst e
          simp only [Function.update_self, List.mem_append, List.mem_singleton] at hx
          rcases hx with hx | rfl
          · exact .inl (.inr ⟨q, hq, hx⟩)
          · exact .inr rfl
        · rw [Function.update_of_ne e] at hx
          exact .inl (.inr ⟨q, hq, hx⟩)
  case home =>
    intro x hx
    rcases mem_absorb.mp hx with hx | rfl
    · exact hi.home x hx
    · exact hk

/-- `end_op()`: the operation of `p` ends, its writes join the ended ones; the last one starts
the commit. -/
theorem LogInv.endOp (hi : LogInv start size s) (hp : s.phase p = .inOp)
    (hc : s.committing = false) (x : LPhase) (hx : x ≠ .inOp)
    (hlast : x = .committing ↔ s.outstanding - 1 = 0) (b : Bool) (hb : b = true ↔ x = .committing) :
    LogInv start size
      { s with outstanding := s.outstanding - 1, committing := b,
               phase := Function.update s.phase p x, ended := s.ended ++ [s.writes p],
               writes := Function.update s.writes p [] } := by
  have hr := Count.count_update (Q := (· = LPhase.inOp)) s.phase p x
  simp only [hp, hx, if_true, if_false] at hr
  -- the running operations but `p`'s
  have hrun : running (Function.update s.phase p x) = s.outstanding - 1 := by
    unfold running
    rw [hi.outstanding, running]
    omega
  have hcommitters : ∀ q, Function.update s.phase p x q = .committing → q = p ∧ x = .committing := by
    intro q hq
    by_cases e : q = p
    · subst e
      simpa using hq
    · rw [Function.update_of_ne e] at hq
      exact absurd hq (hi.not_committing hc q)
  refine { outstanding := hrun.symm, committing_iff := ?committing_iff,
           one_committer := ?one_committer, alone := ?alone, union := ?union, nodup := hi.nodup,
           length_le := hi.length_le, fits := hi.fits, home := hi.home }
  case committing_iff =>
    show b = true ↔ _
    rw [hb]
    constructor
    · intro h
      exact ⟨p, by simp [h]⟩
    · rintro ⟨q, hq⟩
      exact (hcommitters q hq).2
  case one_committer =>
    intro q r hq hr'
    exact (hcommitters q hq).1.trans (hcommitters r hr').1.symm
  case alone =>
    -- a commit starts only once no operation runs
    intro h q
    have hz : running (Function.update s.phase p x) = 0 := by
      rw [hrun]
      exact hlast.mp (hb.mp h)
    exact Count.count_eq_zero.mp hz q
  case union =>
    intro k
    show k ∈ s.lh ↔ _
    rw [hi.union k]
    simp only [List.mem_append, List.mem_singleton]
    constructor
    · rintro (⟨ws, hws, hk⟩ | ⟨q, hq, hk⟩)
      · exact .inl ⟨ws, .inl hws, hk⟩
      · by_cases e : q = p
        · subst e
          exact .inl ⟨_, .inr rfl, hk⟩
        · exact .inr ⟨q, by rwa [Function.update_of_ne e], by rwa [Function.update_of_ne e]⟩
    · rintro (⟨ws, hws | rfl, hk⟩ | ⟨q, hq, hk⟩)
      · exact .inl ⟨ws, hws, hk⟩
      · exact .inr ⟨p, hp, hk⟩
      · have e : q ≠ p := fun e => by subst e; simp [hx] at hq
        exact .inr ⟨q, by rwa [Function.update_of_ne e] at hq, by rwa [Function.update_of_ne e] at hk⟩

/-- `commit()` ends: the header is empty and a new group starts. -/
theorem LogInv.commit (hi : LogInv start size s) (hp : s.phase p = .committing) :
    LogInv start size
      { s with lh := [], committing := false, phase := Function.update s.phase p .idle,
               ended := [] } := by
  have hc : s.committing = true := hi.committing_iff.mpr ⟨p, hp⟩
  have hr := Count.count_update (Q := (· = LPhase.inOp)) s.phase p .idle
  simp only [hp, reduceCtorEq, if_false] at hr
  refine { outstanding := ?outstanding, committing_iff := ?committing_iff,
           one_committer := ?one_committer, alone := fun h => absurd h Bool.false_ne_true,
           union := ?union, nodup := List.nodup_nil, length_le := Nat.zero_le _, fits := .inl rfl,
           home := fun _ h => absurd h List.not_mem_nil }
  case outstanding =>
    show s.outstanding = running (Function.update s.phase p .idle)
    unfold running
    rw [hi.outstanding, running]
    omega
  case committing_iff =>
    -- `p` was the only committer
    dsimp only
    simp only [Bool.false_eq_true, false_iff, not_exists]
    intro q hq
    by_cases e : q = p
    · subst e
      simp at hq
    · rw [Function.update_of_ne e] at hq
      exact e (hi.one_committer q p hq hp)
  case one_committer =>
    intro q r hq
    dsimp only at hq
    by_cases e : q = p
    · subst e
      simp at hq
    · rw [Function.update_of_ne e] at hq
      exact absurd (hi.one_committer q p hq hp) e
  case union =>
    intro k
    dsimp only
    simp only [List.not_mem_nil, false_iff, not_or, not_exists, not_and]
    refine ⟨fun _ h => h.elim, fun q hq _ => ?_⟩
    by_cases e : q = p
    · subst e
      simp at hq
    · rw [Function.update_of_ne e] at hq
      exact hi.alone hc q hq

/-- **Every request keeps the invariant.** -/
theorem LogInv.step (hi : LogInv start size s) {a : LAct P} {t : LogState P}
    (ha : FsPromise start size a) (h : s.step size a = some t) : LogInv start size t := by
  cases a with
  | beginOp p =>
    obtain ⟨⟨hp, hc, -⟩, rfl⟩ := step_beginOp.mp h
    exact hi.beginOp hp hc
  | logWrite p k =>
    obtain ⟨⟨hp, hroom, -⟩, rfl⟩ := step_logWrite.mp h
    exact hi.logWrite hp hroom ha
  | endOp p =>
    obtain ⟨hp, hc, ⟨h0, rfl⟩ | ⟨h0, rfl⟩⟩ := step_endOp.mp h
    · exact hi.endOp hp hc .committing (by decide) (iff_of_true rfl h0) true (iff_of_true rfl rfl)
    · exact hi.endOp hp hc .idle (by decide) (iff_of_false (by decide) h0) s.committing
        (iff_of_false (by rw [hc]; decide) (by decide))
  | commit p =>
    obtain ⟨hp, rfl⟩ := step_commit.mp h
    exact hi.commit hp

theorem logInv_of_reachable
    (hs : Reach.Reachable (· = init) (step size) (FsPromise start size) s) :
    LogInv start size s :=
  hs.invariant (fun _ h => h ▸ logInv_init) fun _ _ _ hi ha h => hi.step ha h

end Invariant

/-! ### Atomic groups -/

section Atomic

variable [Fintype P] {start size : ℕ} {s : LogState P} {p : P}

/-- While `commit()` runs, the only step the log can take is its end. -/
theorem LogInv.step_committing (hi : LogInv start size s) (hp : s.phase p = .committing)
    {a : LAct P} {t : LogState P} (h : s.step size a = some t) : a = .commit p := by
  have hc : s.committing = true := hi.committing_iff.mpr ⟨p, hp⟩
  cases a with
  | beginOp q =>
    obtain ⟨⟨-, hq, -⟩, -⟩ := step_beginOp.mp h
    rw [hc] at hq
    cases hq
  | logWrite q k =>
    obtain ⟨⟨hq, -⟩, -⟩ := step_logWrite.mp h
    exact absurd hq (hi.alone hc q)
  | endOp q =>
    obtain ⟨hq, -⟩ := step_endOp.mp h
    exact absurd hq (hi.alone hc q)
  | commit q =>
    obtain ⟨hq, -⟩ := step_commit.mp h
    rw [hi.one_committer q p hq hp]

omit [DecidableEq P] in
/-- The header of a running commit is a transaction `commit()` can write. -/
theorem LogInv.group (hi : LogInv start size s) (hsize : 0 < size) : Group start size s.lh where
  nodup := hi.nodup
  length_le := hi.length_le
  fits := by
    rcases hi.fits with h | h
    · rw [h]
      exact hsize
    · exact h
  home k hk := (hi.home k hk).1
  word k hk := (hi.home k hk).2

end Atomic

end LogState

open LogState in
/-- **Crash atomicity of the log.** In every reachable state of the protocol in which a
process runs `commit()` (the file system logging only home blocks outside the log area), no
operation is running, `log.outstanding` is `0`, and no step but the end of the commit can be
taken, so no `begin_op()` is admitted; the header holds, without duplicates, exactly the blocks
written by the operations that ended since the last commit. And crash during that commit and
during any number of recoveries from a disk with an empty header: a recovery that completes
leaves every home block of the group old, or every one new, an empty header, and every other
block outside the log as it was. -/
theorem log_commit_atomic {P : Type} [DecidableEq P] [Fintype P] {start size : ℕ} (hsize : 0 < size) {s : LogState P}
    (hs : Reach.Reachable (· = init) (step size) (FsPromise start size) s) {p : P}
    (hp : s.phase p = .committing) :
    s.outstanding = 0 ∧ (∀ q, s.phase q ≠ .inOp) ∧
    (∀ a t, s.step size a = some t → a = .commit p) ∧
    (∀ k, k ∈ s.lh ↔ ∃ ws ∈ s.ended, k ∈ ws) ∧ s.lh.Nodup ∧
    ∀ d0 cache d, Header.getWord (d0 start) 0 = 0 → Crashed start cache s.lh d0 d →
      ((∀ k ∈ s.lh, Disk.exec d (recoverOps start d) k = d0 k) ∨
        (∀ k ∈ s.lh, Disk.exec d (recoverOps start d) k = cache k)) ∧
      Header.getWord (Disk.exec d (recoverOps start d) start) 0 = 0 ∧
      ∀ x, x ∉ s.lh → (x < start ∨ start + size ≤ x) → Disk.exec d (recoverOps start d) x = d0 x := by
  have hi := logInv_of_reachable hs
  have hc : s.committing = true := hi.committing_iff.mpr ⟨p, hp⟩
  have hnone : ∀ q, s.phase q ≠ .inOp := hi.alone hc
  refine ⟨?_, hnone, fun a t h => hi.step_committing hp h, fun k => ?_, hi.nodup,
    fun d0 cache d hclean hd => commit_crash_atomic (hi.group hsize) hclean hd⟩
  · rw [hi.outstanding]
    exact Count.count_eq_zero.mpr hnone
  · rw [hi.union k]
    exact or_iff_left fun ⟨q, hq, _⟩ => hnone q hq

open LogState in
/-- One process logs blocks `40` and `41` in one operation and ends it, which starts the
commit; the disk crashes right after the commit point. -/
theorem log_commit_atomic_one_op :
    ∃ s, Reach.run (step LOGSIZE) (init : LogState (Fin 1))
        [.beginOp 0, .logWrite 0 40, .logWrite 0 41, .endOp 0] = some s ∧
      s.outstanding = 0 ∧ (∀ q, s.phase q ≠ .inOp) ∧
      (∀ a t, s.step LOGSIZE a = some t → a = .commit 0) ∧
      (∀ k, k ∈ s.lh ↔ ∃ ws ∈ s.ended, k ∈ ws) ∧ s.lh.Nodup ∧
      let d := Disk.exec (fun _ _ => 0) ((commitOps 2 (fun _ _ => 7) s.lh).take 3)
      ((∀ k ∈ s.lh, Disk.exec d (recoverOps 2 d) k = fun _ => 0) ∨
        (∀ k ∈ s.lh, Disk.exec d (recoverOps 2 d) k = fun _ => 7)) ∧
      Header.getWord (Disk.exec d (recoverOps 2 d) 2) 0 = 0 ∧
      ∀ x, x ∉ s.lh → (x < 2 ∨ 2 + LOGSIZE ≤ x) → Disk.exec d (recoverOps 2 d) x = fun _ => 0 := by
  obtain ⟨s, hrun, hp⟩ : ∃ s, Reach.run (step LOGSIZE) (init : LogState (Fin 1))
      [.beginOp 0, .logWrite 0 40, .logWrite 0 41, .endOp 0] = some s ∧
        s.phase 0 = .committing := ⟨_, rfl, by decide⟩
  have hs : Reach.Reachable (· = init) (step LOGSIZE) (FsPromise 2 LOGSIZE) s :=
    Reach.Reachable.of_run rfl (by simp [FsPromise, LOGSIZE, MAXOPBLOCKS]) hrun
  obtain ⟨h₁, h₂, h₃, h₄, h₅, h₆⟩ := log_commit_atomic (by decide) hs hp
  exact ⟨s, hrun, h₁, h₂, h₃, h₄, h₅, h₆ _ _ _ (by decide) (.init ⟨3, rfl⟩)⟩

end Log

end Xv6
