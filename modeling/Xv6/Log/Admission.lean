import Xv6.Log.Protocol
import Mathlib.Algebra.Order.BigOperators.Group.Finset
import Mathlib.Algebra.BigOperators.Ring.Finset

/-!
# Room in the log (`begin_op` and `log_write` in `log.c`)

`begin_op()` admits an operation only while
`log.lh.n + (log.outstanding+1)*MAXOPBLOCKS <= LOGSIZE`: it holds `MAXOPBLOCKS` header slots for
each running operation. `log_write()` panics with "too big a transaction" when
`log.lh.n >= LOGSIZE || log.lh.n >= log.size - 1`, before it looks for the block in the
header, so even a write that would be absorbed needs a free slot; and it panics with
"log_write outside of trans" when `log.outstanding < 1`.

The model is the protocol of `Protocol.lean` run by operations that each pass at most `B`
distinct blocks to `log_write()` (`stepWithin`). The slots an operation still holds are
`MAXOPBLOCKS` less the distinct blocks it has logged (`held`), and `AdmInv` says that the header
and the held slots fit in `LOGSIZE`, with one to spare while an operation runs alone. So:

* `logWrite_no_panic`: with `B < MAXOPBLOCKS` and `LOGSIZE ≤ log.size`, no `log_write()` of a
  running operation panics.
* `logWrite_panic_of_maxopblocks`: with `B ≥ MAXOPBLOCKS` and `log.size = LOGSIZE`, as `mkfs`
  lays the log out, three operations admitted together reach `log.lh.n = log.size - 1` while
  the third still has a block to log.
-/

namespace Xv6

namespace Log

namespace LogState

variable {P : Type} [DecidableEq P] [Fintype P]

/-- The number of distinct blocks in a list of writes. -/
def used (ws : List ℕ) : ℕ := ws.toFinset.card

/-- The header slots `begin_op()` still holds for the operation of `q`. -/
def held (s : LogState P) (q : P) : ℕ :=
  if s.phase q = .inOp then MAXOPBLOCKS - used (s.writes q) else 0

/-- The slots held for all running operations. -/
def reserve (s : LogState P) : ℕ := ∑ q, s.held q

/-- The protocol for operations that each `log_write()` at most `B` distinct blocks: a write
past the budget is not made. -/
def stepWithin (B size : ℕ) (s : LogState P) (a : LAct P) : Option (LogState P) :=
  match a with
  | .logWrite p k => if used (s.writes p ++ [k]) ≤ B then s.step size a else none
  | _ => s.step size a

omit [Fintype P] in
theorem stepWithin_le {B size : ℕ} {s t : LogState P} {a : LAct P}
    (h : s.stepWithin B size a = some t) : s.step size a = some t := by
  cases a with
  | logWrite p k =>
    simp only [stepWithin] at h
    split_ifs at h
    exact h
  | _ => exact h

omit [Fintype P] in
/-- A larger budget allows every step a smaller one does. -/
theorem stepWithin_mono {B B' size : ℕ} (hB : B ≤ B') {s t : LogState P} {a : LAct P}
    (h : s.stepWithin B size a = some t) : s.stepWithin B' size a = some t := by
  cases a with
  | logWrite p k =>
    simp only [stepWithin] at h ⊢
    split_ifs at h with hk
    rw [if_pos (hk.trans hB)]
    exact h
  | _ => exact h

/-! ### Slots -/

theorem used_nil : used [] = 0 := rfl

theorem used_le_append (ws : List ℕ) (k : ℕ) : used ws ≤ used (ws ++ [k]) :=
  Finset.card_le_card (by simp [List.toFinset_append])

theorem used_append_of_not_mem {ws : List ℕ} {k : ℕ} (h : k ∉ ws) :
    used (ws ++ [k]) = used ws + 1 := by
  have hins : (ws ++ [k]).toFinset = insert k ws.toFinset := by
    ext x
    simp
  unfold used
  rw [hins, Finset.card_insert_of_notMem (by simpa using h)]

omit [Fintype P] in
/-- Replacing one operation's writes by writes within the budget keeps every operation within
it. -/
theorem budget_update {B : ℕ} {writes : P → List ℕ} (h : ∀ q, used (writes q) ≤ B) {ws : List ℕ}
    (hws : used ws ≤ B) (p : P) : ∀ q, used (Function.update writes p ws q) ≤ B := by
  intro q
  by_cases e : q = p
  · rw [e, Function.update_self]
    exact hws
  · rw [Function.update_of_ne e]
    exact h q

/-- A step that changes only `p`'s phase and writes changes the reserve by `p`'s slots. -/
theorem reserve_change (s s' : LogState P) (p : P) (hphase : ∀ q, q ≠ p → s'.phase q = s.phase q)
    (hwrites : ∀ q, q ≠ p → s'.writes q = s.writes q) :
    s'.reserve + s.held p = s.reserve + s'.held p := by
  have hf : s'.held = Function.update s.held p (s'.held p) := by
    funext q
    by_cases e : q = p
    · rw [e, Function.update_self]
    · rw [Function.update_of_ne e]
      simp only [held, hphase q e, hwrites q e]
  have := Count.sum_update_add s.held p (s'.held p)
  rw [← hf] at this
  exact this

variable {start size B : ℕ} {s : LogState P} {p : P}

omit [DecidableEq P] in
/-- Each running operation holds at most `MAXOPBLOCKS` slots. -/
theorem reserve_le (hi : LogInv start size s) : s.reserve ≤ s.outstanding * MAXOPBLOCKS := by
  calc s.reserve ≤ ∑ q, (if s.phase q = .inOp then 1 else 0) * MAXOPBLOCKS := by
        refine Finset.sum_le_sum fun q _ => ?_
        unfold held
        split_ifs <;> omega
    _ = s.outstanding * MAXOPBLOCKS := by
        rw [← Finset.sum_mul, ← Finset.card_filter, hi.outstanding]
        rfl

omit [DecidableEq P] in
/-- Within a budget below `MAXOPBLOCKS`, each running operation holds a slot. -/
theorem outstanding_le_reserve (hi : LogInv start size s) (hb : ∀ q, used (s.writes q) ≤ B)
    (hB : B < MAXOPBLOCKS) : s.outstanding ≤ s.reserve := by
  calc s.outstanding = ∑ q, (if s.phase q = .inOp then 1 else 0) := by
        rw [← Finset.card_filter, hi.outstanding]
        rfl
    _ ≤ s.reserve := by
        refine Finset.sum_le_sum fun q _ => ?_
        have := hb q
        unfold held
        split_ifs <;> omega

/-! ### The invariant -/

/-- The header and the slots held for the running operations fit in the log, with one slot
to spare while an operation runs alone; between groups the header is empty. -/
structure AdmInv (B : ℕ) (s : LogState P) : Prop where
  budget : ∀ q, used (s.writes q) ≤ B
  room : s.lh.length + s.reserve ≤ LOGSIZE
  spare : s.outstanding = 1 → s.lh.length + s.reserve < LOGSIZE
  empty : s.outstanding = 0 → s.committing = false → s.lh = []

omit [DecidableEq P] in
theorem admInv_init : AdmInv B (init : LogState P) where
  budget _ := Nat.zero_le _
  room := by simp [reserve, held, init]
  spare h := absurd h (by simp [init])
  empty _ _ := rfl

/-- `begin_op()` admits `p`, which holds `MAXOPBLOCKS` slots. -/
theorem AdmInv.beginOp (hi : LogInv start size s) (ha : AdmInv B s) (hp : s.phase p = .idle)
    (hc : s.committing = false) (hroom : s.lh.length + (s.outstanding + 1) * MAXOPBLOCKS ≤ LOGSIZE) :
    AdmInv B { s with outstanding := s.outstanding + 1, phase := Function.update s.phase p .inOp,
                      writes := Function.update s.writes p [] } := by
  set s' : LogState P := { s with outstanding := s.outstanding + 1,
                                  phase := Function.update s.phase p .inOp,
                                  writes := Function.update s.writes p [] } with hs'
  have hres := reserve_change s s' p (fun q e => Function.update_of_ne e _ _)
    (fun q e => Function.update_of_ne e _ _)
  have hold : s.held p = 0 := by simp [held, hp]
  have hnew : s'.held p = MAXOPBLOCKS := by simp [held, hs', used_nil]
  rw [hold, hnew] at hres
  have hle := reserve_le hi
  refine ⟨budget_update ha.budget (Nat.zero_le _) p, ?_, fun h1 => ?_,
    fun h0 => absurd h0 (Nat.succ_ne_zero _)⟩
  · show s.lh.length + s'.reserve ≤ LOGSIZE
    rw [Nat.add_mul, Nat.one_mul] at hroom
    omega
  · -- the first operation of a group finds the header empty
    have h0 : s.outstanding = 0 := by
      change s.outstanding + 1 = 1 at h1
      omega
    have hr0 : s.reserve = 0 := by
      rw [h0, Nat.zero_mul] at hle
      omega
    show s.lh.length + s'.reserve < LOGSIZE
    rw [ha.empty h0 hc, List.length_nil]
    unfold LOGSIZE MAXOPBLOCKS at *
    omega

/-- `log_write()` of a block new to the header fills one of `p`'s slots; any other leaves the
header as it is. -/
theorem AdmInv.logWrite (hi : LogInv start size s) (ha : AdmInv B s) (hB : B ≤ MAXOPBLOCKS)
    (hp : s.phase p = .inOp) {k : ℕ} (hk : used (s.writes p ++ [k]) ≤ B) :
    AdmInv B { s with lh := absorb s.lh k,
                      writes := Function.update s.writes p (s.writes p ++ [k]) } := by
  set s' : LogState P := { s with lh := absorb s.lh k,
                                  writes := Function.update s.writes p (s.writes p ++ [k]) } with hs'
  have hres := reserve_change s s' p (fun _ _ => rfl) (fun q e => Function.update_of_ne e _ _)
  have hold : s.held p = MAXOPBLOCKS - used (s.writes p) := if_pos hp
  have hnew : s'.held p = MAXOPBLOCKS - used (s.writes p ++ [k]) := by simp [held, hs', hp]
  rw [hold, hnew] at hres
  -- the header and the reserve together do not grow
  have hsum : s'.lh.length + s'.reserve ≤ s.lh.length + s.reserve := by
    have hu := used_le_append (s.writes p) k
    by_cases hin : k ∈ s.lh
    · have hlh : s'.lh = s.lh := if_pos hin
      rw [hlh]
      omega
    · -- a block new to the header is new to `p`'s writes, which the header contains
      have hnot : k ∉ s.writes p := fun h => hin ((hi.union k).mpr (.inr ⟨p, hp, h⟩))
      have hlh : s'.lh.length = s.lh.length + 1 := by
        show (absorb s.lh k).length = _
        rw [absorb, if_neg hin, List.length_append, List.length_singleton]
      rw [used_append_of_not_mem hnot] at hk hres
      rw [hlh]
      omega
  have hout : s.outstanding ≠ 0 := by
    rw [hi.outstanding]
    exact (Count.count_pos hp).ne'
  exact ⟨budget_update ha.budget hk p, hsum.trans ha.room,
    fun h1 => Nat.lt_of_le_of_lt hsum (ha.spare h1), fun h0 => absurd h0 hout⟩

/-- `end_op()` gives up `p`'s slots, at least one within the budget. -/
theorem AdmInv.endOp (ha : AdmInv B s) (hB : B < MAXOPBLOCKS) (hp : s.phase p = .inOp)
    (x : LPhase) (hx : x ≠ .inOp) (b : Bool) (hlast : s.outstanding - 1 = 0 → b = true) :
    AdmInv B { s with outstanding := s.outstanding - 1, committing := b,
                      phase := Function.update s.phase p x, ended := s.ended ++ [s.writes p],
                      writes := Function.update s.writes p [] } := by
  set s' : LogState P := { s with outstanding := s.outstanding - 1, committing := b,
                                  phase := Function.update s.phase p x,
                                  ended := s.ended ++ [s.writes p],
                                  writes := Function.update s.writes p [] } with hs'
  have hres := reserve_change s s' p (fun q e => Function.update_of_ne e _ _)
    (fun q e => Function.update_of_ne e _ _)
  have hold : s.held p = MAXOPBLOCKS - used (s.writes p) := if_pos hp
  have hnew : s'.held p = 0 := by simp [held, hs', hx]
  rw [hold, hnew] at hres
  have hb := ha.budget p
  have hroom := ha.room
  -- the header stays, and the reserve loses at least one slot
  have hless : s'.lh.length + s'.reserve < s.lh.length + s.reserve := by
    show s.lh.length + s'.reserve < _
    omega
  refine ⟨budget_update ha.budget (Nat.zero_le _) p, by omega, fun _ => by omega, fun h0 hc => ?_⟩
  -- the last `end_op()` of a group starts the commit
  change s.outstanding - 1 = 0 at h0
  change b = false at hc
  rw [hlast h0] at hc
  cases hc

/-- `commit()` empties the header; no operation runs meanwhile. -/
theorem AdmInv.commit (hi : LogInv start size s) (ha : AdmInv B s) (hp : s.phase p = .committing) :
    AdmInv B { s with lh := [], committing := false, phase := Function.update s.phase p .idle,
                      ended := [] } := by
  set s' : LogState P := { s with lh := [], committing := false,
                                  phase := Function.update s.phase p .idle, ended := [] } with hs'
  have hres := reserve_change s s' p (fun q e => Function.update_of_ne e _ _) (fun _ _ => rfl)
  have hold : s.held p = 0 := by simp [held, hp]
  have hnew : s'.held p = 0 := by simp [held, hs']
  rw [hold, hnew] at hres
  -- a commit runs alone, so nothing is outstanding
  have hout : s.outstanding = 0 := by
    rw [hi.outstanding]
    exact Count.count_eq_zero.mpr (hi.alone (hi.committing_iff.mpr ⟨p, hp⟩))
  have hroom := ha.room
  refine ⟨ha.budget, ?_, fun h1 => absurd (hout ▸ h1 : (0 : ℕ) = 1) (by decide), fun _ _ => rfl⟩
  show [].length + s'.reserve ≤ LOGSIZE
  rw [List.length_nil]
  omega

/-- **Every step within the budget keeps the invariant.** -/
theorem AdmInv.step (hi : LogInv start size s) (ha : AdmInv B s) (hB : B < MAXOPBLOCKS)
    {a : LAct P} {t : LogState P} (h : s.stepWithin B size a = some t) : AdmInv B t := by
  cases a with
  | beginOp p =>
    obtain ⟨⟨hp, hc, hroom⟩, rfl⟩ := step_beginOp.mp (stepWithin_le h)
    exact ha.beginOp hi hp hc hroom
  | logWrite p k =>
    have hk : used (s.writes p ++ [k]) ≤ B := by
      simp only [stepWithin] at h
      split_ifs at h with hk
      exact hk
    obtain ⟨⟨hp, -, -⟩, rfl⟩ := step_logWrite.mp (stepWithin_le h)
    exact ha.logWrite hi hB.le hp hk
  | endOp p =>
    obtain ⟨hp, -, ⟨h0, rfl⟩ | ⟨h0, rfl⟩⟩ := step_endOp.mp (stepWithin_le h)
    · exact ha.endOp hB hp .committing (by decide) true fun _ => rfl
    · exact ha.endOp hB hp .idle (by decide) s.committing fun h => absurd h h0
  | commit p =>
    obtain ⟨hp, rfl⟩ := step_commit.mp (stepWithin_le h)
    exact ha.commit hi hp

theorem admInv_of_reachable (hB : B < MAXOPBLOCKS)
    (hs : Reach.Reachable (· = init) (stepWithin B size) (FsPromise start size) s) :
    LogInv start size s ∧ AdmInv B s := by
  have hJ : ∀ t : LogState P, Reach.Reachable (· = init) (stepWithin B size) (FsPromise start size) t →
      LogInv start size t := fun t ht => logInv_of_reachable (ht.of_le fun _ _ _ => stepWithin_le)
  exact ⟨hJ s hs, hs.invariant_of hJ (fun _ h => h ▸ admInv_init)
    fun _ _ _ _ hi ha _ hst => ha.step hi hB hst⟩

/-! ### `log_write()` does not panic -/

/-- **Admission leaves room for every write.** When each operation logs fewer than
`MAXOPBLOCKS` distinct blocks and the log has at least `LOGSIZE` blocks, neither check of
`log_write()` fires for a running operation: the header has two free slots and an operation is
outstanding. -/
theorem logWrite_no_panic (hB : B < MAXOPBLOCKS) (hsize : LOGSIZE ≤ size)
    (hs : Reach.Reachable (· = init) (stepWithin B size) (FsPromise start size) s)
    (hp : s.phase p = .inOp) :
    s.lh.length + 2 ≤ LOGSIZE ∧ ¬ (LOGSIZE ≤ s.lh.length ∨ size - 1 ≤ s.lh.length) ∧
      ¬ s.outstanding < 1 := by
  obtain ⟨hi, ha⟩ := admInv_of_reachable hB hs
  have hout : 1 ≤ s.outstanding := by
    rw [hi.outstanding]
    exact Count.count_pos hp
  have hres := outstanding_le_reserve hi ha.budget hB
  -- alone, `p` holds a slot besides the spare one; otherwise two operations hold one each
  have hlh : s.lh.length + 2 ≤ LOGSIZE := by
    rcases Nat.lt_or_ge s.outstanding 2 with h2 | h2
    · have := ha.spare (by omega)
      omega
    · have := ha.room
      omega
  refine ⟨hlh, ?_, by omega⟩
  unfold LOGSIZE at *
  omega

theorem logWrite_no_panic_one_op :
    ∃ s : LogState (Fin 1), Reach.run (stepWithin 9 LOGSIZE) (init : LogState (Fin 1)) [.beginOp 0] = some s ∧
      s.lh.length + 2 ≤ LOGSIZE ∧ ¬ (LOGSIZE ≤ s.lh.length ∨ LOGSIZE - 1 ≤ s.lh.length) ∧
        ¬ s.outstanding < 1 := by
  obtain ⟨s, hrun, hp⟩ : ∃ s : LogState (Fin 1),
      Reach.run (stepWithin 9 LOGSIZE) (init : LogState (Fin 1)) [.beginOp 0] = some s ∧
        s.phase 0 = .inOp :=
    ⟨_, rfl, rfl⟩
  have hs : Reach.Reachable (· = (init : LogState (Fin 1))) (stepWithin 9 LOGSIZE) (FsPromise 2 LOGSIZE) s :=
    Reach.Reachable.of_run rfl (by simp [FsPromise]) hrun
  exact ⟨s, hrun, logWrite_no_panic (by decide) le_rfl hs hp⟩

/-- The labels of three operations admitted together, the first two logging blocks
`100`–`109` and `110`–`119`, the third blocks `120`–`128`. -/
def threeOps : List (LAct (Fin 3)) :=
  [.beginOp 0, .beginOp 1, .beginOp 2] ++ (List.range 10).map (fun i => .logWrite 0 (100 + i)) ++
    (List.range 10).map (fun i => .logWrite 1 (110 + i)) ++
    (List.range 9).map (fun i => .logWrite 2 (120 + i))

/-- **The budget `B < MAXOPBLOCKS` is needed.** With operations that log `MAXOPBLOCKS`
distinct blocks and a log of `LOGSIZE` blocks, three operations admitted together fill
`log.size - 1` slots while the third one, within its budget, still has a block to log: its
`log_write()` panics. -/
theorem logWrite_panic_of_maxopblocks (hB : MAXOPBLOCKS ≤ B) :
    ∃ s : LogState (Fin 3), Reach.Reachable (· = init) (stepWithin B LOGSIZE) (FsPromise 2 LOGSIZE) s ∧
      s.phase 2 = .inOp ∧ used (s.writes 2 ++ [129]) ≤ B ∧ LOGSIZE - 1 ≤ s.lh.length := by
  obtain ⟨s, hrun, hp, hk, hlh⟩ : ∃ s : LogState (Fin 3),
      Reach.run (stepWithin MAXOPBLOCKS LOGSIZE) (init : LogState (Fin 3)) threeOps = some s ∧
        s.phase 2 = .inOp ∧
        used (s.writes 2 ++ [129]) ≤ MAXOPBLOCKS ∧ LOGSIZE - 1 ≤ s.lh.length :=
    ⟨_, rfl, by decide, by decide, by decide⟩
  -- the blocks logged lie past the log area `[2, 2 + LOGSIZE)`
  have hall : ∀ a ∈ threeOps, FsPromise 2 LOGSIZE a := by
    intro a ha
    simp only [threeOps, List.mem_append, List.mem_map, List.mem_range] at ha
    rcases ha with ((ha | ⟨i, hi, rfl⟩) | ⟨i, hi, rfl⟩) | ⟨i, hi, rfl⟩
    · simp only [List.mem_cons, List.not_mem_nil, or_false] at ha
      rcases ha with rfl | rfl | rfl <;> trivial
    all_goals
      simp only [FsPromise, LOGSIZE, MAXOPBLOCKS]
      omega
  have hs₀ : Reach.Reachable (· = (init : LogState (Fin 3))) (stepWithin MAXOPBLOCKS LOGSIZE)
      (FsPromise 2 LOGSIZE) s := Reach.Reachable.of_run rfl hall hrun
  have hs := hs₀.of_le fun _ _ _ => stepWithin_mono hB
  exact ⟨s, hs, hp, hk.trans hB, hlh⟩

theorem logWrite_panic_of_maxopblocks_ten :
    ∃ s : LogState (Fin 3), Reach.Reachable (· = init) (stepWithin 10 LOGSIZE) (FsPromise 2 LOGSIZE) s ∧
      s.phase 2 = .inOp ∧ used (s.writes 2 ++ [129]) ≤ 10 ∧ LOGSIZE - 1 ≤ s.lh.length :=
  logWrite_panic_of_maxopblocks (le_refl 10)

end LogState

end Log

end Xv6
