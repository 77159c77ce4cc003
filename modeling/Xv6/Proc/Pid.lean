import Xv6.Proc.Model
import Mathlib.Algebra.Ring.Int.Defs

/-!
# Process ids (`allocpid`, `allocproc`, `fork` in `kernel/proc.c`)

`allocpid` hands out `nextpid` and increments it, an `int`; `allocproc` takes the first `UNUSED`
slot of `proc[]` and gives it the next pid, and `fork` returns the child's pid, or `-1` when no
slot is free or an allocation fails (then `freeproc` has put the slot back, with the pid used up).
The process-table model (`Proc.Model`) keeps `nextpid` in `ℤ`; here it is the `int` itself, so
`nextpid + 1` wraps at `INT_MAX` as the machine's 32-bit `addw` does.

The system keeps of every slot its `state` and `pid`. A `fork` is one step: `pid_lock` makes
`allocpid` atomic, and no other `allocproc` takes a slot while it is `USED`, so the rest of `fork`
touches only the child. The other steps are what the rest of the kernel does to these fields:
changes between live states (scheduling, `sleep`, `wakeup`, `kill`, `exit`) and `wait`'s
`freeproc` of a `ZOMBIE`. The ghost `allocs` counts the calls of `allocpid`.

* `fork_fresh_pid`: while fewer than `2^31 - 1` pids have been handed out, a `fork` returns `-1`
  and creates no process, or returns a positive pid that no other live process has;
* `fork_pid_wraps`: after `2^31 - 2` rounds of `fork`, `exit`, `wait` from `init`, `fork` returns
  `INT_MIN` for a child it has created, and after `2^32 - 1` rounds it returns `1`, `init`'s pid.
-/

namespace Xv6.Pid

open Proc Procstate

/-- The pid fields of `proc[]` and `nextpid`. -/
structure PidTab where
  state : Fin NPROC → Procstate
  pid : Fin NPROC → Int32
  nextpid : Int32
  /-- Ghost: the number of `allocpid` calls so far. -/
  allocs : ℕ

/-- `int nextpid = 1`, and `procinit` leaves every slot `UNUSED` with pid 0. -/
def boot : PidTab := ⟨fun _ => UNUSED, fun _ => 0, 1, 0⟩

/-- `allocpid()`: the pid returned and the state after `nextpid = nextpid + 1`. -/
def allocpid (s : PidTab) : Int32 × PidTab :=
  (s.nextpid, { s with nextpid := s.nextpid + 1, allocs := s.allocs + 1 })

/-- The slot where `allocproc`'s scan stops: the first `UNUSED` one. -/
def firstUnused (s : PidTab) : Option (Fin NPROC) :=
  (List.finRange NPROC).find? fun q => s.state q = UNUSED

/-- Set the state and the pid of slot `q`. -/
def setSlot (s : PidTab) (q : Fin NPROC) (st : Procstate) (pid : Int32) : PidTab :=
  { s with state := Function.update s.state q st, pid := Function.update s.pid q pid }

/-- `freeproc(p)`: `p->pid = 0; p->state = UNUSED;`. -/
def freeproc (s : PidTab) (q : Fin NPROC) : PidTab := setSlot s q UNUSED 0

/-- `allocproc()`, with `ok` for whether `kalloc` of the trapframe and `proc_pagetable` succeed:
`found:` sets `p->pid = allocpid(); p->state = USED;`, and a failed allocation frees the slot. -/
def allocproc (s : PidTab) (ok : Bool) : Option (Fin NPROC) × PidTab :=
  match firstUnused s with
  | none => (none, s)
  | some q =>
    let t := setSlot (allocpid s).2 q USED (allocpid s).1
    if ok then (some q, t) else (none, freeproc t q)

/-- `fork()`: its return value and the table after it, with `copied` for whether `uvmcopy`
succeeds. -/
def fork (s : PidTab) (ok copied : Bool) : Int32 × PidTab :=
  match allocproc s ok with
  | (none, t) => (-1, t)
  | (some np, t) =>
    if copied then (t.pid np, { t with state := Function.update t.state np RUNNABLE })
    else (-1, freeproc t np)

/-- `userinit()`: `allocproc`, which does not fail at boot, and `p->state = RUNNABLE`. -/
def userinit : PidTab :=
  match allocproc boot true with
  | (some p, t) => { t with state := Function.update t.state p RUNNABLE }
  | (none, t) => t

/-- What happens to the pid fields. -/
inductive Label where
  /-- `fork()` by the running process `p`. -/
  | fork (p : Fin NPROC) (ok copied : Bool)
  /-- A live process changes state (`scheduler`, `sleep`, `wakeup`, `kill`, `exit`). -/
  | setState (p : Fin NPROC) (st : Procstate)
  /-- `wait` frees the `ZOMBIE` child `p`. -/
  | reap (p : Fin NPROC)

/-- A slot that holds a process. -/
def Live (st : Procstate) : Prop := st ≠ UNUSED ∧ st ≠ USED

instance (st : Procstate) : Decidable (Live st) := inferInstanceAs (Decidable (_ ∧ _))

/-- The steps, `none` where the label is not enabled. -/
def step (s : PidTab) : Label → Option PidTab
  | .fork p ok copied => if s.state p = RUNNING then some (fork s ok copied).2 else none
  | .setState p st =>
    if Live (s.state p) ∧ Live st then some { s with state := Function.update s.state p st }
    else none
  | .reap p => if s.state p = ZOMBIE then some (freeproc s p) else none

/-- The states the kernel reaches after `userinit`. -/
def Reachable : PidTab → Prop := Reach.Reachable (· = userinit) step fun _ => True

/-! ### What each function does -/

@[simp] theorem allocpid_fst (s : PidTab) : (allocpid s).1 = s.nextpid := rfl

@[simp] theorem allocpid_state (s : PidTab) : (allocpid s).2.state = s.state := rfl

@[simp] theorem allocpid_pid (s : PidTab) : (allocpid s).2.pid = s.pid := rfl

@[simp] theorem allocpid_nextpid (s : PidTab) : (allocpid s).2.nextpid = s.nextpid + 1 := rfl

@[simp] theorem allocpid_allocs (s : PidTab) : (allocpid s).2.allocs = s.allocs + 1 := rfl

@[simp] theorem setSlot_state (s : PidTab) (q st pid) :
    (setSlot s q st pid).state = Function.update s.state q st := rfl

@[simp] theorem setSlot_pid (s : PidTab) (q st pid) :
    (setSlot s q st pid).pid = Function.update s.pid q pid := rfl

@[simp] theorem setSlot_nextpid (s : PidTab) (q st pid) : (setSlot s q st pid).nextpid = s.nextpid := rfl

@[simp] theorem setSlot_allocs (s : PidTab) (q st pid) : (setSlot s q st pid).allocs = s.allocs := rfl

theorem setSlot_setSlot (s : PidTab) (q st st' pid pid') :
    setSlot (setSlot s q st pid) q st' pid' = setSlot s q st' pid' := by
  simp [setSlot, Function.update_idem]

theorem firstUnused_spec {s : PidTab} {q : Fin NPROC} (h : firstUnused s = some q) :
    s.state q = UNUSED := by
  simpa using List.find?_some h

/-- **`fork`, case by case.** With no free slot it returns `-1` and changes nothing. Otherwise
`allocpid` runs once: if every allocation succeeds the first free slot becomes `RUNNABLE` with
the pid `nextpid` had, which `fork` returns; if one fails `freeproc` puts the slot back and
`fork` returns `-1`. -/
theorem fork_spec (s : PidTab) (ok copied : Bool) :
    (firstUnused s = none ∧ fork s ok copied = (-1, s)) ∨
    (∃ np, firstUnused s = some np ∧ ok = true ∧ copied = true ∧
      fork s ok copied = (s.nextpid, setSlot (allocpid s).2 np RUNNABLE s.nextpid)) ∨
    (∃ np, firstUnused s = some np ∧ (ok = false ∨ copied = false) ∧
      fork s ok copied = (-1, freeproc (allocpid s).2 np)) := by
  unfold fork allocproc
  cases hf : firstUnused s with
  | none => exact .inl ⟨rfl, rfl⟩
  | some np =>
    right
    cases ok <;> cases copied
    all_goals first
      | exact .inl ⟨np, rfl, rfl, rfl, by simp [setSlot, Function.update_idem]⟩
      | exact .inr ⟨np, rfl, by simp, by simp [freeproc, setSlot_setSlot]⟩

/-! ### Fresh pids before the counter wraps -/

/-- Two different naturals in `1..2^32` are different `int`s. -/
theorem ofNat_ne_of_lt {a b : ℕ} (ha : 0 < a) (hab : a < b) (hb : b ≤ 2 ^ 32) :
    Int32.ofNat a ≠ Int32.ofNat b := by
  intro h
  have h' : a % 2 ^ 32 = b % 2 ^ 32 := by
    simpa using congrArg (fun v : Int32 => v.toBitVec.toNat) h
  rw [Nat.mod_eq_of_lt (show a < 2 ^ 32 by omega)] at h'
  by_cases hb' : b = 2 ^ 32
  · rw [hb', Nat.mod_self] at h'
    omega
  · rw [Nat.mod_eq_of_lt (by omega)] at h'
    omega

theorem ofNat_succ (n : ℕ) : Int32.ofNat (n + 1) = Int32.ofNat n + 1 := by
  rw [Int32.ofNat_add]
  rfl

/-- The invariant: `nextpid` is the `int` of `allocs + 1`; no slot is left `USED`; every live
process has the pid of one of the `allocs` calls of `allocpid`; and while there were at most
`2^32` calls no two live processes share a pid. -/
structure PidInv (s : PidTab) : Prop where
  next : s.nextpid = Int32.ofNat (s.allocs + 1)
  noUsed : ∀ q, s.state q ≠ USED
  live : ∀ q, s.state q ≠ UNUSED → ∃ i < s.allocs, s.pid q = Int32.ofNat (i + 1)
  distinct : s.allocs ≤ 2 ^ 32 → ∀ q q', q ≠ q' → s.state q ≠ UNUSED → s.state q' ≠ UNUSED →
    s.pid q ≠ s.pid q'

/-- `userinit` takes slot 0 and pid 1. -/
theorem userinit_eq : userinit =
    ⟨Function.update (fun _ => UNUSED) 0 RUNNABLE, Function.update (fun _ => 0) 0 1, 2, 1⟩ := by
  have hf : firstUnused boot = some 0 := by decide
  unfold userinit allocproc
  rw [hf]
  simp [setSlot, allocpid, boot, Function.update_idem]

theorem pidInv_userinit : PidInv userinit := by
  rw [userinit_eq]
  -- only slot 0 is live
  have h0 : ∀ q : Fin NPROC, Function.update (fun _ => UNUSED) 0 RUNNABLE q ≠ UNUSED → q = 0 :=
    fun q hq => by
      by_contra h
      simp [h] at hq
  refine ⟨by decide, fun q => ?_, fun q hq => ?_, fun _ q q' hne hq hq' => ?_⟩
  · by_cases hq : q = 0 <;> simp [hq]
  · obtain rfl := h0 q hq
    exact ⟨0, by decide, by simp⟩
  · exact absurd ((h0 q hq).trans (h0 q' hq').symm) hne

/-- A step that counts its `allocpid` calls in `nextpid`, leaves no slot `USED`, creates no
process and keeps the pid of every process it keeps, keeps the invariant. -/
theorem PidInv.of_shrink {s t : PidTab} (hi : PidInv s) (hn : t.nextpid = Int32.ofNat (t.allocs + 1))
    (ha : s.allocs ≤ t.allocs) (hu : ∀ q, t.state q ≠ USED)
    (hk : ∀ q, t.state q ≠ UNUSED → s.state q ≠ UNUSED ∧ t.pid q = s.pid q) : PidInv t where
  next := hn
  noUsed := hu
  live q hq := by
    obtain ⟨hsq, hpq⟩ := hk q hq
    obtain ⟨i, hi', he⟩ := hi.live q hsq
    exact ⟨i, by omega, hpq.trans he⟩
  distinct hb q q' hne hq hq' := by
    rw [(hk q hq).2, (hk q' hq').2]
    exact hi.distinct (by omega) q q' hne (hk q hq).1 (hk q' hq').1

/-- Setting a slot to a state other than `USED` leaves no slot `USED`. -/
theorem noUsed_setSlot {s : PidTab} (hu : ∀ q, s.state q ≠ USED) {q : Fin NPROC} {st : Procstate}
    (hst : st ≠ USED) (pid : Int32) : ∀ r, (setSlot s q st pid).state r ≠ USED := fun r => by
  by_cases hr : r = q
  · subst hr; simpa using hst
  · simpa [hr] using hu r

/-- `freeproc` keeps the invariant, whatever it does to `nextpid` with it. -/
theorem PidInv.freeproc {s t : PidTab} (hi : PidInv s) (hn : t.nextpid = Int32.ofNat (t.allocs + 1))
    (ha : s.allocs ≤ t.allocs) (hs : t.state = s.state) (hp : t.pid = s.pid) (q : Fin NPROC) :
    PidInv (freeproc t q) := by
  refine hi.of_shrink hn ha (noUsed_setSlot (hs ▸ hi.noUsed) (by decide) 0) (fun r hr => ?_)
  have hrq : r ≠ q := fun h => hr (by subst h; simp [Xv6.Pid.freeproc])
  simp only [Xv6.Pid.freeproc, setSlot_state, setSlot_pid, Function.update_of_ne hrq, hs, hp] at hr ⊢
  exact ⟨hr, trivial⟩

/-- A successful `fork` keeps the invariant: the child's pid is the `allocs + 1`-th, which no
live process has while there were at most `2^32` calls. -/
theorem PidInv.spawn {s : PidTab} (hi : PidInv s) {np : Fin NPROC} (hnp : s.state np = UNUSED) :
    PidInv (setSlot (allocpid s).2 np RUNNABLE s.nextpid) where
  next := by simp [hi.next, ofNat_succ]
  noUsed := noUsed_setSlot hi.noUsed (by decide) s.nextpid
  live q hq := by
    by_cases hq' : q = np
    · subst hq'
      exact ⟨s.allocs, by simp, by simp [hi.next]⟩
    · simp only [setSlot_state, setSlot_pid, setSlot_allocs, allocpid_state, allocpid_pid,
        allocpid_allocs, Function.update_of_ne hq'] at hq ⊢
      obtain ⟨i, hi', he⟩ := hi.live q hq
      exact ⟨i, by omega, he⟩
  distinct hb q q' hne hq hq' := by
    simp only [setSlot_allocs, allocpid_allocs] at hb
    simp only [setSlot_state, setSlot_pid, allocpid_state, allocpid_pid] at hq hq' ⊢
    -- the child's pid against any other live pid
    have hfresh : ∀ r, s.state r ≠ UNUSED → s.pid r ≠ s.nextpid := fun r hr => by
      obtain ⟨i, hi', he⟩ := hi.live r hr
      rw [he, hi.next]
      exact ofNat_ne_of_lt (by omega) (by omega) hb
    by_cases h1 : q = np
    · subst h1
      have h2 : q' ≠ q := Ne.symm hne
      simp only [Function.update_of_ne h2, Function.update_self] at hq' ⊢
      exact (hfresh q' hq').symm
    · by_cases h2 : q' = np
      · subst h2
        simp only [Function.update_of_ne h1, Function.update_self] at hq ⊢
        exact hfresh q hq
      · simp only [Function.update_of_ne h1, Function.update_of_ne h2] at hq hq' ⊢
        exact hi.distinct (by omega) q q' hne hq hq'

theorem PidInv.fork {s : PidTab} (hi : PidInv s) (ok copied : Bool) : PidInv (fork s ok copied).2 := by
  rcases fork_spec s ok copied with ⟨-, he⟩ | ⟨np, hf, -, -, he⟩ | ⟨np, -, -, he⟩ <;> rw [he]
  · exact hi
  · exact hi.spawn (firstUnused_spec hf)
  · show PidInv (Xv6.Pid.freeproc (allocpid s).2 np)
    exact @PidInv.freeproc s (allocpid s).2 hi (by simp [hi.next, ofNat_succ]) (by simp) rfl rfl np

theorem PidInv.step {s t : PidTab} (hi : PidInv s) {a : Label} (h : step s a = some t) : PidInv t := by
  cases a with
  | fork p ok copied =>
    simp only [Xv6.Pid.step] at h
    split at h
    · cases h
      exact hi.fork ok copied
    · cases h
  | setState p st =>
    simp only [Xv6.Pid.step] at h
    split at h
    · rename_i hl
      cases h
      refine hi.of_shrink hi.next (Nat.le_refl _) (fun q => ?_) (fun q hq => ?_)
      · by_cases hq : q = p
        · subst hq; simpa using hl.2.2
        · simpa [hq] using hi.noUsed q
      · by_cases hq' : q = p
        · subst hq'; exact ⟨hl.1.1, rfl⟩
        · simp only [Function.update_of_ne hq'] at hq
          exact ⟨hq, rfl⟩
    · cases h
  | reap p =>
    simp only [Xv6.Pid.step] at h
    split at h
    · cases h
      exact hi.freeproc hi.next (Nat.le_refl _) rfl rfl p
    · cases h

theorem pidInv_of_reachable {s : PidTab} (hs : Reachable s) : PidInv s :=
  Reach.Reachable.invariant (fun _ h => h ▸ pidInv_userinit) (fun _ _ _ hi _ h => hi.step h) hs

/-- **Fresh pids.** In every run, while fewer than `2^31 - 1` pids have been handed out, `fork`
returns `-1` and leaves the set of live processes as it was, or creates a `RUNNABLE` child in a
free slot and returns its pid, which is positive and is the pid of no other live process. -/
theorem fork_fresh_pid {s : PidTab} (hs : Reachable s) (hn : s.allocs < 2 ^ 31 - 1) (ok copied : Bool) :
    ((fork s ok copied).1 = -1 ∧ ∀ q, ((fork s ok copied).2.state q = UNUSED ↔ s.state q = UNUSED)) ∨
    (0 < (fork s ok copied).1.toInt ∧ ∃ np, s.state np = UNUSED ∧
      (fork s ok copied).2.state np = RUNNABLE ∧ (fork s ok copied).2.pid np = (fork s ok copied).1 ∧
      ∀ q, q ≠ np → (fork s ok copied).2.state q ≠ UNUSED →
        (fork s ok copied).2.pid q ≠ (fork s ok copied).1) := by
  have hi := pidInv_of_reachable hs
  rcases fork_spec s ok copied with ⟨-, he⟩ | ⟨np, hf, -, -, he⟩ | ⟨np, hf, -, he⟩ <;> rw [he]
  · exact .inl ⟨rfl, fun _ => Iff.rfl⟩
  · have hnp := firstUnused_spec hf
    have ht := hi.spawn hnp
    refine .inr ⟨?_, np, hnp, by simp, by simp, fun q hq hlive => ?_⟩
    · rw [hi.next, Int32.toInt_ofNat_of_lt (by omega)]
      omega
    · have := ht.distinct (by simp; omega) q np hq hlive (by simp)
      simpa using this
  · refine .inl ⟨rfl, fun q => ?_⟩
    by_cases hq : q = np
    · subst hq; simp [freeproc, firstUnused_spec hf]
    · simp [freeproc, hq]

/-- `init`'s first `fork` creates a child with a positive pid. -/
theorem fork_fresh_pid_init : 0 < (fork userinit true true).1.toInt ∧
    ∃ np, userinit.state np = UNUSED ∧ (fork userinit true true).2.state np = RUNNABLE := by
  rcases fork_fresh_pid (.init rfl) (by decide) true true with ⟨h, -⟩ | ⟨hpos, np, hnp, hr, -⟩
  · exact absurd h (by decide)
  · exact ⟨hpos, np, hnp, hr⟩

/-! ### The counter wraps -/

/-- `init` alone, running in slot 0 with pid 1, after `k + 1` calls of `allocpid`. -/
def initAlone (k : ℕ) : PidTab :=
  ⟨fun q => if q = 0 then RUNNING else UNUSED, fun q => if q = 0 then 1 else 0, Int32.ofNat (k + 2), k + 1⟩

theorem firstUnused_initAlone (k : ℕ) : firstUnused (initAlone k) = some 1 := by
  show (List.finRange NPROC).find? (fun q => decide ((if q = 0 then RUNNING else UNUSED) = UNUSED)) = _
  decide

/-- `fork` by `init` alone puts the child in slot 1 with the pid `nextpid` held. -/
theorem fork_initAlone (k : ℕ) : fork (initAlone k) true true =
    (Int32.ofNat (k + 2), setSlot (allocpid (initAlone k)).2 1 RUNNABLE (Int32.ofNat (k + 2))) := by
  rcases fork_spec (initAlone k) true true with ⟨hf, -⟩ | ⟨np, hf, -, -, he⟩ | ⟨np, -, hc, -⟩
  · simp [firstUnused_initAlone] at hf
  · rw [firstUnused_initAlone, Option.some.injEq] at hf
    subst hf
    exact he
  · simp at hc

/-- One round: `init` forks, the child exits and `init`'s `wait` frees it. -/
theorem run_round (k : ℕ) :
    Reach.run step (initAlone k) [.fork 0 true true, .setState 1 ZOMBIE, .reap 1] =
      some (initAlone (k + 1)) := by
  let child := setSlot (allocpid (initAlone k)).2 1 RUNNABLE (Int32.ofNat (k + 2))
  let zombie : PidTab := { child with state := Function.update child.state 1 ZOMBIE }
  have h1 : step (initAlone k) (.fork 0 true true) = some child := by
    simp only [step, fork_initAlone]
    rfl
  have h2 : step child (.setState 1 ZOMBIE) = some zombie := by
    have hl : Live (child.state 1) ∧ Live ZOMBIE := by
      simp only [child, setSlot_state, Function.update_self]
      decide
    simp only [step, if_pos hl]
    rfl
  have h3 : step zombie (.reap 1) = some (freeproc zombie 1) := by
    simp [step, zombie]
  -- slot 1 is free again, with pid 0, and one more pid is used up
  have h4 : freeproc zombie 1 = initAlone (k + 1) := by
    have hs : Function.update (initAlone k).state 1 UNUSED = (initAlone k).state :=
      Function.update_eq_self_iff.mpr rfl
    have hp : Function.update (initAlone k).pid 1 0 = (initAlone k).pid :=
      Function.update_eq_self_iff.mpr rfl
    simp only [freeproc, setSlot, zombie, child, allocpid_state, allocpid_pid, allocpid_nextpid,
      allocpid_allocs, Function.update_idem, hs, hp]
    simp only [initAlone, PidTab.mk.injEq, true_and]
    exact ⟨(ofNat_succ (k + 2)).symm, trivial⟩
  simp only [Reach.run_cons, Reach.run_nil, h1, h2, h3, h4, Option.bind_some]

theorem initAlone_reachable : ∀ k, Reachable (initAlone k)
  | 0 => by
    refine @Reach.Reachable.of_run _ _ (· = userinit) step (fun _ => True) userinit _
      [.setState 0 RUNNING] rfl (fun _ _ => trivial) ?_
    have hl : Live (userinit.state 0) ∧ Live RUNNING := by
      rw [userinit_eq]
      decide
    simp only [Reach.run_cons, Reach.run_nil, step, if_pos hl, Option.bind_some, Option.some.injEq]
    rw [userinit_eq]
    simp only [initAlone, Function.update_idem, PidTab.mk.injEq]
    refine ⟨funext fun q => ?_, funext fun q => ?_, by decide, trivial⟩ <;>
      by_cases hq : q = 0 <;> simp [hq]
  | k + 1 => (initAlone_reachable k).trans_run (fun _ _ => trivial) (run_round k)

/-- **`nextpid` wraps.** In a run where `init` forks, and reaps its exited child, `2^31 - 2`
times, the next `fork` creates a child and returns `INT_MIN`; after `2^32 - 1` such rounds it
creates a child and returns `1`, the pid of `init`, which is still running. -/
theorem fork_pid_wraps :
    (∃ s, Reachable s ∧ s.state 0 = RUNNING ∧ s.state 1 = UNUSED ∧
      (fork s true true).1.toInt = -2 ^ 31 ∧ (fork s true true).2.state 1 = RUNNABLE) ∧
    (∃ s, Reachable s ∧ s.state 0 = RUNNING ∧ s.state 1 = UNUSED ∧
      (fork s true true).1 = 1 ∧ (fork s true true).2.state 1 = RUNNABLE ∧
      (fork s true true).2.state 0 = RUNNING ∧ (fork s true true).2.pid 0 = 1) := by
  refine ⟨⟨initAlone (2 ^ 31 - 2), initAlone_reachable _, rfl, rfl, ?_, ?_⟩,
    ⟨initAlone (2 ^ 32 - 1), initAlone_reachable _, rfl, rfl, ?_, ?_, ?_, ?_⟩⟩ <;>
    rw [fork_initAlone]
  · decide
  · simp
  · decide
  · simp
  · rfl
  · rfl

end Xv6.Pid
