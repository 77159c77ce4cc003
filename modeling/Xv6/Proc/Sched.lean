import Xv6.Proc.Trans

/-!
# The process state machine and the scheduler

`SchedInv` is what the CPUs and the locks keep of the process table in every reachable state:

* `thread`: the kernel thread of a slot is where its state says it can be (`ThreadOk`): a
  `RUNNABLE` or `SLEEPING` process is switched out, with a context that returns to a point that
  holds no spinlock; a zombie's thread is gone; a slot that is `UNUSED`, or `USED` by a `fork`
  that has not finished, has no thread yet, or one waiting at `forkret`.
* the CPUs: a CPU is in its scheduler with `c->proc = 0`, runs `c->proc`, or is back from
  `swtch` holding `c->proc`'s lock; a process is `RUNNING` iff a CPU runs it, and at most one CPU
  has it as `c->proc`.
* the locks: `proc[q].lock` is held by the CPU between the scheduler's switch to `q` and `q`'s
  release, and again between `q`'s switch out and the scheduler's release; `wait_lock` by the
  CPU whose process is inside `exit`'s or `wait`'s critical section.
* `fork`: the child of a `fork` in progress is `USED`, and belongs to that `fork` alone.

`proc_state_machine` then gives the state diagram of `proc.c`, that a process whose lock is
free is `RUNNING` iff exactly one CPU has it as `c->proc`, and that no CPU is left on a slot
that `wait` freed.
-/

namespace Xv6

namespace Proc

open Procstate Kernel

/-! ### The invariant -/

/-- A thread that has not started or has stopped: `user` in a slot that never ran, `zombie`
after `exit`. -/
def KPc.idle : KPc → Bool
  | .user | .zombie => true
  | _ => false

/-- Where a sleeper goes on: its own system call, or the top of `wait`'s loop. -/
def KPc.sleepCont : KPc → Bool
  | .user | .waitStart _ => true
  | _ => false

/-- What the kernel thread of a slot can be doing, by the slot's state: `x` is its saved
context and `k` where it stands. A process switched out by `yield` holds no spinlock, one
switched out by `sleep` goes on in its call. -/
def ThreadOk (st : Procstate) (k : KPc) (x : Context) : Prop :=
  match st with
  | UNUSED => k.idle ∧ x = .none
  | USED => (k.idle ∧ x = .none) ∨ (k = .ret 0 ∧ x = .yield)
  | SLEEPING => k.sleepCont ∧ x = .sleep
  | RUNNABLE => (x = .yield ∧ k.locked = false) ∨ (x = .sleep ∧ k.sleepCont)
  | RUNNING => x = .none ∨ (x = .yield ∧ k.locked = false) ∨ (x = .sleep ∧ k.sleepCont)
  | ZOMBIE => k = .zombie ∧ x = .none

/-- The points that hold `wait_lock` are among those that hold a spinlock. -/
theorem KPc.holdsWait_of_locked {k : KPc} (h : k.locked = false) : k.holdsWait = false := by
  cases k <;> simp_all [KPc.locked]

/-- The points that hold `wait_lock` hold a spinlock. -/
theorem KPc.locked_of_holdsWait {k : KPc} (h : k.holdsWait = true) : k.locked = true := by
  cases k <;> simp_all [KPc.locked]

/-- A thread inside a critical section is `RUNNING`, past its switch. -/
theorem ThreadOk.running_of_locked {st : Procstate} {k : KPc} {x : Context}
    (ht : ThreadOk st k x) (hk : k.locked = true) : st = RUNNING ∧ x = .none := by
  have hidle : k.idle = false := by
    cases k <;> simp_all [KPc.idle, KPc.locked, KPc.holdsWait]
  have hsleep : k.sleepCont = false := by
    cases k <;> simp_all [KPc.sleepCont, KPc.locked, KPc.holdsWait]
  have hret : k ≠ .ret 0 := by
    rintro rfl
    simp [KPc.locked, KPc.holdsWait] at hk
  cases st <;> simp only [ThreadOk] at ht
  case UNUSED => simp [hidle] at ht
  case USED => simp [hidle, hret] at ht
  case SLEEPING => simp [hsleep] at ht
  case RUNNABLE => simp [hk, hsleep] at ht
  case RUNNING => simpa [hk, hsleep] using ht
  case ZOMBIE =>
    rw [ht.1] at hk
    simp [KPc.locked, KPc.holdsWait] at hk

/-- A CPU is in its scheduler with `c->proc = 0`, or runs `c->proc`, or is back from it. -/
def Cpu.wf : Cpu → Bool
  | ⟨none, .sched _⟩ | ⟨some _, .run⟩ | ⟨some _, .back⟩ => true
  | _ => false

/-- CPU `c` holds `wait_lock`: its process is inside a critical section of `exit` or `wait`. -/
def HoldsWait (s : Kernel) (c : Fin NCPU) : Prop :=
  ∃ p, Active s c p ∧ (s.kpc p).holdsWait = true

/-- What the CPUs, the locks and the kernel threads keep of the process table. -/
structure SchedInv (s : Kernel) : Prop where
  /-- Before `started`, every other CPU spins in `main` and `initproc` is `USED`. -/
  boot : s.started = false → (∀ c, s.cpus c = ⟨none, .sched 0⟩) ∧
    ∀ p, (s.initproc = some p → (s.proc p).state = USED) ∧
      (s.initproc ≠ some p → (s.proc p).state = UNUSED)
  /-- `userinit` sets `initproc` before `started`. -/
  init_started : s.initproc = none → s.started = false
  thread : ∀ p, ThreadOk (s.proc p).state (s.kpc p) (s.context p)
  cpu : ∀ c, (s.cpus c).wf
  run_running : ∀ c p, s.cpus c = ⟨some p, .run⟩ → (s.proc p).state = RUNNING
  running_run : ∀ p, (s.proc p).state = RUNNING → ∃ c, s.cpus c = ⟨some p, .run⟩
  cpu_unique : ∀ c c' p, (s.cpus c).proc = some p → (s.cpus c').proc = some p → c = c'
  back_state : ∀ c p, s.cpus c = ⟨some p, .back⟩ →
    (s.proc p).state = RUNNABLE ∨ (s.proc p).state = SLEEPING ∨ (s.proc p).state = ZOMBIE
  /-- A CPU back from switching `q` out holds `q`'s lock. -/
  lock_back : ∀ q c, s.cpus c = ⟨some q, .back⟩ → s.lock q = some c
  /-- A CPU that switched to `q` holds `q`'s lock until `q` releases it. -/
  lock_run : ∀ q c, s.cpus c = ⟨some q, .run⟩ → s.context q ≠ .none → s.lock q = some c
  /-- A CPU whose process is inside `exit`'s or `wait`'s critical section holds `wait_lock`. -/
  wait_holds : ∀ c, HoldsWait s c → s.waitLock = some c
  /-- The child of a `fork` that holds its lock has no thread yet. -/
  fork_alloc : ∀ p np, s.kpc p = .allocated np →
    (s.proc np).state = USED ∧ (s.kpc np).idle ∧ s.context np = .none
  /-- The child of a `fork` that released its lock waits at `forkret`. -/
  fork_copied : ∀ p np pid, (s.kpc p = .forkParent np pid ∨ s.kpc p = .forkRun np pid) →
    (s.proc np).state = USED ∧ s.kpc np = .ret 0 ∧ s.context np = .yield
  fork_unique : ∀ p p' np, (s.kpc p).forkChild = some np → (s.kpc p').forkChild = some np → p = p'

variable {s t : Kernel}

namespace SchedInv

/-! ### What the invariant gives at once -/

section Facts

variable (hi : SchedInv s)
include hi

theorem active_running {c : Fin NCPU} {p : Fin NPROC} (ha : Active s c p) :
    (s.proc p).state = RUNNING :=
  hi.run_running c p ha.1

/-- A CPU whose `c->proc` is `q` runs `q` or is back from it. -/
theorem cpu_proc {c : Fin NCPU} {q : Fin NPROC} (hq : (s.cpus c).proc = some q) :
    s.cpus c = ⟨some q, .run⟩ ∨ s.cpus c = ⟨some q, .back⟩ := by
  have hwf := hi.cpu c
  cases hc : s.cpus c with
  | mk o pc =>
    rw [hc] at hq hwf
    simp only at hq
    subst hq
    cases pc <;> simp [Cpu.wf] at hwf ⊢

/-- A slot that is not `RUNNING` and whose lock is free is no CPU's `c->proc`. -/
theorem proc_ne {q : Fin NPROC} (hr : (s.proc q).state ≠ RUNNING) (hl : s.lock q = none)
    (c : Fin NCPU) : (s.cpus c).proc ≠ some q := by
  intro hq
  rcases hi.cpu_proc hq with hc | hc
  · exact hr (hi.run_running c q hc)
  · rw [hi.lock_back q c hc] at hl
    cases hl

/-- A CPU's `c->proc` is a process that has run: never a free slot or a `fork` child. -/
theorem cpu_proc_state {c : Fin NCPU} {q : Fin NPROC} (hq : (s.cpus c).proc = some q) :
    (s.proc q).state = RUNNING ∨ (s.proc q).state = RUNNABLE ∨ (s.proc q).state = SLEEPING ∨
      (s.proc q).state = ZOMBIE := by
  rcases hi.cpu_proc hq with hc | hc
  · exact .inl (hi.run_running c q hc)
  · exact .inr (hi.back_state c q hc)

/-- With its lock free, a process is `RUNNING` iff exactly one CPU has it as `c->proc`. -/
theorem running_iff {q : Fin NPROC} (hl : s.lock q = none) :
    (s.proc q).state = RUNNING ↔ ∃! c, (s.cpus c).proc = some q := by
  constructor
  · intro hr
    obtain ⟨c, hc⟩ := hi.running_run q hr
    have hcq : (s.cpus c).proc = some q := by rw [hc]
    exact ⟨c, hcq, fun c' hc' => hi.cpu_unique c' c q hc' hcq⟩
  · rintro ⟨c, hc, -⟩
    rcases hi.cpu_proc hc with hc | hc
    · exact hi.run_running c q hc
    · rw [hi.lock_back q c hc] at hl
      cases hl

/-- A thread inside a critical section runs on a CPU, past its switch. -/
theorem active_of_locked {p : Fin NPROC} (hk : (s.kpc p).locked = true) : ∃ c, Active s c p := by
  obtain ⟨hr, hx⟩ := (hi.thread p).running_of_locked hk
  obtain ⟨c, hc⟩ := hi.running_run p hr
  exact ⟨c, hc, hx⟩

/-- The thread inside a critical section of `exit` or `wait` runs on the CPU that holds
`wait_lock`. -/
theorem waitLock_of_holdsWait {p : Fin NPROC} (hk : (s.kpc p).holdsWait = true) :
    ∃ c, Active s c p ∧ s.waitLock = some c := by
  obtain ⟨c, ha⟩ := hi.active_of_locked (KPc.locked_of_holdsWait hk)
  exact ⟨c, ha, hi.wait_holds c ⟨p, ha, hk⟩⟩

/-- At most one thread is inside the critical sections of `wait_lock`. -/
theorem holdsWait_unique {p q : Fin NPROC} (hp : (s.kpc p).holdsWait = true)
    (hq : (s.kpc q).holdsWait = true) : p = q := by
  obtain ⟨c, hc, hw⟩ := hi.waitLock_of_holdsWait hp
  obtain ⟨c', hc', hw'⟩ := hi.waitLock_of_holdsWait hq
  obtain rfl : c = c' := Option.some.inj (hw.symm.trans hw')
  have hpq := hc.1.symm.trans hc'.1
  simpa using hpq

/-- A slot that a CPU is back from is not `USED`. -/
theorem back_ne_used {c : Fin NCPU} {q : Fin NPROC} (hc : s.cpus c = ⟨some q, .back⟩) :
    (s.proc q).state ≠ USED := by
  rcases hi.back_state c q hc with h | h | h <;> rw [h] <;> decide

/-- A process inside `sched`'s switch back holds no spinlock of its own: the thread the
scheduler switched to is not inside a critical section. -/
theorem not_locked_of_context {p : Fin NPROC} (hr : (s.proc p).state = RUNNING)
    (hx : s.context p ≠ .none) : (s.kpc p).locked = false := by
  have ht := hi.thread p
  rw [hr] at ht
  rcases ht with h | ⟨-, h⟩ | ⟨-, h⟩
  · exact absurd h hx
  · exact h
  · revert h
    cases s.kpc p <;> simp [KPc.sleepCont, KPc.locked, KPc.holdsWait]

/-- No thread is in `fork` before `started`. -/
theorem forkChild_boot (hs : s.started = false) (p : Fin NPROC) : (s.kpc p).forkChild = none := by
  have ht := hi.thread p
  by_cases hp : s.initproc = some p
  · rw [((hi.boot hs).2 p).1 hp] at ht
    rcases ht with ⟨hk, -⟩ | ⟨hk, -⟩
    · revert hk
      cases s.kpc p <;> simp [KPc.idle, KPc.forkChild]
    · rw [hk]
      rfl
  · rw [((hi.boot hs).2 p).2 hp] at ht
    revert ht
    cases s.kpc p <;> simp [ThreadOk, KPc.idle, KPc.forkChild]

/-- The child of a `fork` in progress is `USED`. -/
theorem forkChild_used {p np : Fin NPROC} (hk : (s.kpc p).forkChild = some np) :
    (s.proc np).state = USED := by
  cases hp : s.kpc p with
  | allocated np' =>
    rw [hp] at hk
    obtain rfl := Option.some.inj hk
    exact (hi.fork_alloc p _ hp).1
  | forkParent np' pid =>
    rw [hp] at hk
    obtain rfl := Option.some.inj hk
    exact (hi.fork_copied p _ pid (.inl hp)).1
  | forkRun np' pid =>
    rw [hp] at hk
    obtain rfl := Option.some.inj hk
    exact (hi.fork_copied p _ pid (.inr hp)).1
  | _ => simp [hp, KPc.forkChild] at hk

end Facts

/-! ### One section keeps the invariant, field by field

Each lemma goes through the sections of `Trans`. The sections that touch nothing the field
reads, or touch it as the field already allows, close by unfolding the section and the field's
own facts; the others are written out. -/

section Step

variable (hi : SchedInv s) (h : Trans s t)
include hi h

theorem boot_trans : t.started = false → (∀ c, t.cpus c = ⟨none, .sched 0⟩) ∧
    ∀ p, (t.initproc = some p → (t.proc p).state = USED) ∧
      (t.initproc ≠ some p → (t.proc p).state = UNUSED) := by
  have hboot := hi.boot
  have hinit := hi.init_started
  intro hst
  cases h
  case allocInit p hn _ =>
    -- `initproc` becomes the slot just taken; every other slot was and stays free
    have hb := hi.boot (hi.init_started hn)
    refine ⟨hb.1, fun q => ⟨fun hq => ?_, fun hq => ?_⟩⟩
    · obtain rfl := Option.some.inj hq
      simp
    · have hne : q ≠ p := fun e => hq (e ▸ rfl)
      simp only [Kernel.allocInit, Kernel.setLock, Kernel.setProc]
      rw [Function.update_of_ne hne]
      exact (hb.2 q).2 (by rw [hn]; simp)
  all_goals simp [Function.update_apply] at hst ⊢ <;> grind [Active]

theorem init_started_trans : t.initproc = none → t.started = false := by
  have hinit := hi.init_started
  cases h <;> simp <;> grind

theorem cpu_trans (c : Fin NCPU) : (t.cpus c).wf := by
  have hcpu := hi.cpu
  cases h <;> simp [Function.update_apply] <;> grind [Active, Cpu.wf]

theorem run_running_trans (c : Fin NCPU) (p' : Fin NPROC) (hc' : t.cpus c = ⟨some p', .run⟩) :
    (t.proc p').state = RUNNING := by
  have hrun := hi.run_running
  have huniq := hi.cpu_unique
  have halloc := hi.fork_alloc
  have hboot := hi.boot
  have hinit := hi.init_started
  cases h
  case forkRunnable p np pid _ _ hk _ =>
    -- the child is `USED`, so no CPU runs it
    have hused := (hi.fork_copied p np pid (.inr hk)).1
    simp only [Kernel.forkRunnable, Kernel.goto, Kernel.setState, Kernel.setProc] at hc' ⊢
    have hr := hi.run_running c p' hc'
    have hne : p' ≠ np := fun e => by rw [e, hused] at hr; cases hr
    rw [Function.update_of_ne hne]
    exact hr
  all_goals
    simp [Function.update_apply, free] at hc' ⊢
    grind [Active]

theorem running_run_trans (p' : Fin NPROC) (hp' : (t.proc p').state = RUNNING) :
    ∃ c, t.cpus c = ⟨some p', .run⟩ := by
  have hrun := hi.running_run
  have huniq := hi.cpu_unique
  have halloc := hi.fork_alloc
  have hcopied := hi.fork_copied
  have hboot := hi.boot
  have hinit := hi.init_started
  cases h <;> simp [Function.update_apply, free] at hp' ⊢ <;> grind [Active]

theorem cpu_unique_trans (c₁ c₂ : Fin NCPU) (p' : Fin NPROC) (h₁ : (t.cpus c₁).proc = some p')
    (h₂ : (t.cpus c₂).proc = some p') : c₁ = c₂ := by
  have hrun := hi.run_running
  have huniq := hi.cpu_unique
  have hcpu := hi.cpu
  cases h
  case dispatch c i _ _ hl hr =>
    -- the slot the scheduler takes was no CPU's `c->proc`: it was not running, its lock free
    have hfree := hi.proc_ne (by rw [hr]; decide) hl
    simp only [Kernel.dispatch, Kernel.setCpu, Kernel.setLock, Kernel.setState,
      Kernel.setProc] at h₁ h₂
    by_cases e1 : c₁ = c <;> by_cases e2 : c₂ = c
    · rw [e1, e2]
    · rw [e1, Function.update_self] at h₁
      rw [Function.update_of_ne e2, ← Option.some.inj h₁] at h₂
      exact absurd h₂ (hfree c₂)
    · rw [e2, Function.update_self] at h₂
      rw [Function.update_of_ne e1, ← Option.some.inj h₂] at h₁
      exact absurd h₁ (hfree c₁)
    · rw [Function.update_of_ne e1] at h₁
      rw [Function.update_of_ne e2] at h₂
      exact hi.cpu_unique c₁ c₂ p' h₁ h₂
  all_goals
    simp [Function.update_apply] at h₁ h₂ ⊢
    grind [Active]

theorem back_state_trans (c : Fin NCPU) (p' : Fin NPROC) (hc' : t.cpus c = ⟨some p', .back⟩) :
    (t.proc p').state = RUNNABLE ∨ (t.proc p').state = SLEEPING ∨
      (t.proc p').state = ZOMBIE := by
  have hrun := hi.run_running
  have huniq := hi.cpu_unique
  have halloc := hi.fork_alloc
  have hcopied := hi.fork_copied
  have hboot := hi.boot
  have hinit := hi.init_started
  have hback := hi.back_state
  have hlock := hi.lock_back
  cases h
  case dispatch c₀ i _ _ hl _ =>
    -- a CPU back from `p'` holds its lock, which the scheduler found free at `i`
    simp only [Kernel.dispatch, Kernel.setCpu, Kernel.setLock, Kernel.setState,
      Kernel.setProc] at hc' ⊢
    have hne : c ≠ c₀ := fun e => by rw [e, Function.update_self] at hc'; cases hc'
    rw [Function.update_of_ne hne] at hc'
    have hpi : p' ≠ i := fun e => by rw [← e, hi.lock_back p' c hc'] at hl; cases hl
    rw [Function.update_of_ne hpi]
    exact hi.back_state c p' hc'
  case reap p i addr _ _ _ _ _ hl _ =>
    simp only [Kernel.reap, Kernel.goto, Kernel.setProc] at hc' ⊢
    have hpi : p' ≠ i := fun e => by rw [← e, hi.lock_back p' c hc'] at hl; cases hl
    rw [Function.update_of_ne hpi]
    exact hi.back_state c p' hc'
  all_goals
    simp [Function.update_apply, free] at hc' ⊢
    grind [Active]

theorem lock_back_trans (q' : Fin NPROC) (c : Fin NCPU) (hc' : t.cpus c = ⟨some q', .back⟩) :
    t.lock q' = some c := by
  have hrun := hi.run_running
  have huniq := hi.cpu_unique
  have hboot := hi.boot
  have hinit := hi.init_started
  have hlock := hi.lock_back
  -- releasing the lock of a `fork` child: no CPU is back from a `USED` slot
  have hchild : ∀ p np, s.kpc p = .allocated np → s.cpus c = ⟨some q', .back⟩ →
      (Function.update s.lock np none) q' = some c := fun p np hk hb => by
    have hne : q' ≠ np := fun e => hi.back_ne_used hb (e ▸ (hi.fork_alloc p np hk).1)
    rw [Function.update_of_ne hne]
    exact hi.lock_back q' c hb
  cases h
  case forkCopy p np _ _ hk => exact hchild p np hk hc'
  case forkFail p np _ _ hk => exact hchild p np hk hc'
  all_goals
    simp [Function.update_apply, free] at hc' ⊢
    grind [Active]

theorem lock_run_trans (q' : Fin NPROC) (c : Fin NCPU) (hc' : t.cpus c = ⟨some q', .run⟩)
    (hx' : t.context q' ≠ .none) : t.lock q' = some c := by
  have hrun := hi.run_running
  have huniq := hi.cpu_unique
  have halloc := hi.fork_alloc
  have hcopied := hi.fork_copied
  have hboot := hi.boot
  have hinit := hi.init_started
  have hlock := hi.lock_run
  have hthread := hi.thread
  cases h <;> simp [Function.update_apply, free] at hc' hx' ⊢ <;>
    grind [Active, ThreadOk, KPc.forkChild]

theorem wait_holds_trans (c : Fin NCPU) (hw' : HoldsWait t c) : t.waitLock = some c := by
  have hrun := hi.run_running
  have huniq := hi.cpu_unique
  have hboot := hi.boot
  have hinit := hi.init_started
  have hthread := hi.thread
  have hwait := hi.wait_holds
  cases h
  case goto c₀ p k _ _ hn =>
    -- a move keeps whether its thread is in a `wait_lock` section
    obtain ⟨p', ha', hk'⟩ := hw'
    refine hi.wait_holds c ⟨p', ha', ?_⟩
    simp only [Kernel.goto] at hk'
    by_cases e : p' = p
    · subst e
      rw [Function.update_self, hn.holdsWait_eq] at hk'
      exact hk'
    · rwa [Function.update_of_ne e] at hk'
  case resumeYield c₀ p _ hc hx =>
    -- the thread the scheduler switched to holds no spinlock
    obtain ⟨p', ha', hk'⟩ := hw'
    have hfree := hi.not_locked_of_context (hi.run_running c₀ p hc) (by rw [hx]; decide)
    refine hi.wait_holds c ⟨p', ⟨ha'.1, ?_⟩, hk'⟩
    have hne : p' ≠ p := fun e => by
      subst e
      change (s.kpc p').holdsWait = true at hk'
      rw [KPc.holdsWait_of_locked hfree] at hk'
      cases hk'
    have := ha'.2
    simp only [Kernel.resumeYield, Kernel.setContext, Kernel.setLock] at this
    rwa [Function.update_of_ne hne] at this
  case resumeSleep c₀ p _ hc hx =>
    obtain ⟨p', ha', hk'⟩ := hw'
    have hfree := hi.not_locked_of_context (hi.run_running c₀ p hc) (by rw [hx]; decide)
    refine hi.wait_holds c ⟨p', ⟨ha'.1, ?_⟩, hk'⟩
    have hne : p' ≠ p := fun e => by
      subst e
      change (s.kpc p').holdsWait = true at hk'
      rw [KPc.holdsWait_of_locked hfree] at hk'
      cases hk'
    have := ha'.2
    simp only [Kernel.resumeSleep, Kernel.setContext, Kernel.setLock, Kernel.setProc] at this
    rwa [Function.update_of_ne hne] at this
  all_goals
    simp [Function.update_apply, HoldsWait, Active] at hw' hwait ⊢
    grind [Active, ThreadOk, KPc.holdsWait, KPc.locked, KPc.sleepCont]

theorem thread_trans (p' : Fin NPROC) :
    ThreadOk (t.proc p').state (t.kpc p') (t.context p') := by
  have hrun := hi.run_running
  have halloc := hi.fork_alloc
  have hcopied := hi.fork_copied
  have hthread := hi.thread
  cases h
  case allocInit p _ hp =>
    -- the slot `userinit` takes had no thread
    by_cases e : p' = p
    · subst e
      have ht := hi.thread p'
      rw [firstUnused_state hp] at ht
      simp only [ThreadOk] at ht
      simp [ThreadOk, ht]
    · simpa [Function.update_of_ne e] using hi.thread p'
  case forkRunnable p np pid _ ha hk _ =>
    -- the child leaves `USED` with its context at `forkret`; the parent runs on
    have hc := hi.fork_copied p np pid (.inr hk)
    have hne : np ≠ p := fun e => by
      have := hi.active_running ha
      rw [← e, hc.1] at this
      cases this
    by_cases e1 : p' = np
    · subst e1
      simp [hne, hc.2.1, hc.2.2, ThreadOk, KPc.locked, KPc.holdsWait]
    · by_cases e2 : p' = p
      · subst e2
        simp [e1, ha.2, hi.active_running ha, ThreadOk]
      · simpa [Function.update_of_ne e1, Function.update_of_ne e2] using hi.thread p'
  all_goals
    simp [Function.update_apply, free]
    grind [Active, ThreadOk, KPc.idle, KPc.locked, KPc.holdsWait, KPc.sleepCont]

omit h in
/-- After `userinit` no thread is in `fork` yet. -/
theorem forkChild_runInit (hs : s.started = false) (p q : Fin NPROC) :
    ((s.runInit p).kpc q).forkChild = none := by
  by_cases e : q = p
  · subst e
    simp [KPc.forkChild]
  · simpa [Function.update_of_ne e] using hi.forkChild_boot hs q

omit h in
/-- A move of the running `p` leaves every `fork` in progress, and its child, alone. -/
theorem goto_forkChild {c : Fin NCPU} {p q np : Fin NPROC} {k : KPc} (ha : Active s c p)
    (hn : Next s p (s.kpc p) k) (hq : ((s.goto p k).kpc q).forkChild = some np) :
    s.kpc q = (s.goto p k).kpc q ∧ np ≠ p := by
  have hqp : q ≠ p := by
    rintro rfl
    simp only [Kernel.goto, Function.update_self, hn.forkChild_eq_none.2] at hq
    cases hq
  have hkq : (s.goto p k).kpc q = s.kpc q := Function.update_of_ne hqp _ _
  refine ⟨hkq.symm, fun e => ?_⟩
  have hu := hi.forkChild_used (hkq ▸ hq)
  rw [e, hi.active_running ha] at hu
  cases hu

theorem fork_alloc_trans (p' np' : Fin NPROC) (hk' : t.kpc p' = .allocated np') :
    (t.proc np').state = USED ∧ (t.kpc np').idle ∧ t.context np' = .none := by
  have hrun := hi.run_running
  have halloc := hi.fork_alloc
  have hcopied := hi.fork_copied
  have hthread := hi.thread
  have huniq := hi.fork_unique
  cases h
  case runInit p _ hs =>
    have hb := hi.forkChild_runInit hs p p'
    rw [hk'] at hb
    cases hb
  case goto c p k _ ha hn =>
    obtain ⟨hkq, hnp⟩ := hi.goto_forkChild ha hn (by rw [hk']; rfl)
    simpa [Function.update_of_ne hnp] using hi.fork_alloc p' np' (hkq.trans hk')
  all_goals
    simp [Function.update_apply, free] at hk' ⊢
    grind [Active, ThreadOk, KPc.forkChild, KPc.idle]

theorem fork_copied_trans (p' np' : Fin NPROC) (pid' : ℤ)
    (hk' : t.kpc p' = .forkParent np' pid' ∨ t.kpc p' = .forkRun np' pid') :
    (t.proc np').state = USED ∧ t.kpc np' = .ret 0 ∧ t.context np' = .yield := by
  have hrun := hi.run_running
  have halloc := hi.fork_alloc
  have hcopied := hi.fork_copied
  have hthread := hi.thread
  have huniq := hi.fork_unique
  have hf : (t.kpc p').forkChild = some np' := by rcases hk' with hk' | hk' <;> rw [hk'] <;> rfl
  cases h
  case runInit p _ hs =>
    rw [hi.forkChild_runInit hs p p'] at hf
    cases hf
  case goto c p k _ ha hn =>
    obtain ⟨hkq, hnp⟩ := hi.goto_forkChild ha hn hf
    simpa [Function.update_of_ne hnp] using hi.fork_copied p' np' pid' (hkq ▸ hk')
  all_goals
    simp [Function.update_apply, free] at hk' ⊢
    grind [Active, ThreadOk, KPc.forkChild, KPc.idle]

theorem fork_unique_trans (p₁ p₂ np' : Fin NPROC) (h₁ : (t.kpc p₁).forkChild = some np')
    (h₂ : (t.kpc p₂).forkChild = some np') : p₁ = p₂ := by
  have hrun := hi.run_running
  have halloc := hi.fork_alloc
  have hcopied := hi.fork_copied
  have hthread := hi.thread
  have huniq := hi.fork_unique
  cases h
  case goto c p k _ ha hn =>
    obtain ⟨hk₁, -⟩ := hi.goto_forkChild ha hn h₁
    obtain ⟨hk₂, -⟩ := hi.goto_forkChild ha hn h₂
    exact hi.fork_unique p₁ p₂ np' (by rw [hk₁]; exact h₁) (by rw [hk₂]; exact h₂)
  case allocFound c p i _ _ _ _ hu =>
    -- the slot `allocproc` found was `UNUSED`, so no other `fork` has it
    have hfresh : ∀ q, (s.kpc q).forkChild ≠ some i := fun q hq => by
      have := hi.forkChild_used hq
      rw [hu] at this
      cases this
    simp only [Kernel.allocFound, Kernel.goto, Kernel.setLock, Kernel.setProc,
      Function.update_apply] at h₁ h₂
    by_cases e1 : p₁ = p <;> by_cases e2 : p₂ = p
    · rw [e1, e2]
    · simp only [e1, e2, if_true, if_false, KPc.forkChild, Option.some.injEq] at h₁ h₂
      exact absurd (h₁ ▸ h₂) (hfresh p₂)
    · simp only [e1, e2, if_true, if_false, KPc.forkChild, Option.some.injEq] at h₁ h₂
      exact absurd (h₂ ▸ h₁) (hfresh p₁)
    · simp only [e1, e2, if_false] at h₁ h₂
      exact hi.fork_unique p₁ p₂ np' h₁ h₂
  all_goals
    simp [Function.update_apply, free] at h₁ h₂ ⊢
    grind [Active, ThreadOk, KPc.forkChild, KPc.idle]

end Step

/-- Every atomic section keeps `SchedInv`. -/
theorem trans (hi : SchedInv s) (h : Trans s t) : SchedInv t where
  boot := hi.boot_trans h
  init_started := hi.init_started_trans h
  thread := hi.thread_trans h
  cpu := hi.cpu_trans h
  run_running := hi.run_running_trans h
  running_run := hi.running_run_trans h
  cpu_unique := hi.cpu_unique_trans h
  back_state := hi.back_state_trans h
  lock_back := hi.lock_back_trans h
  lock_run := hi.lock_run_trans h
  wait_holds := hi.wait_holds_trans h
  fork_alloc := hi.fork_alloc_trans h
  fork_copied := hi.fork_copied_trans h
  fork_unique := hi.fork_unique_trans h

end SchedInv

theorem schedInv_boot : SchedInv boot where
  boot _ := ⟨fun _ => rfl, fun _ => ⟨by simp [boot], fun _ => rfl⟩⟩
  init_started _ := rfl
  thread _ := ⟨rfl, rfl⟩
  cpu _ := rfl
  run_running _ _ h := by simp [boot] at h
  running_run _ h := by simp [boot, free] at h
  cpu_unique _ _ _ h := by simp [boot] at h
  back_state _ _ h := by simp [boot] at h
  lock_back _ _ h := by simp [boot] at h
  lock_run _ _ h := by simp [boot] at h
  wait_holds _ h := by simp [HoldsWait, Active, boot] at h
  fork_alloc _ _ h := by simp [boot] at h
  fork_copied _ _ _ h := by simp [boot] at h
  fork_unique _ _ _ h := by simp [boot, KPc.forkChild] at h

theorem schedInv_of_reachable (hs : Reachable s) : SchedInv s :=
  Reachable.invariant schedInv_boot (fun _ _ _ hi h => hi.trans h) hs

/-! ### The state diagram -/

/-- The edges of the state diagram of `proc.c`, each named by the code that takes it. -/
inductive StateEdge : Procstate → Procstate → Prop
  /-- `allocproc` takes a free slot. -/
  | allocproc : StateEdge UNUSED USED
  /-- `freeproc` when `fork`'s allocations fail. -/
  | freeproc : StateEdge USED UNUSED
  /-- `userinit` and `fork` hand the new process to the scheduler. -/
  | runnable : StateEdge USED RUNNABLE
  | scheduler : StateEdge RUNNABLE RUNNING
  | yield : StateEdge RUNNING RUNNABLE
  | sleep : StateEdge RUNNING SLEEPING
  /-- `wakeup` on the sleeper's channel, or `kill`. -/
  | wakeup : StateEdge SLEEPING RUNNABLE
  | exit : StateEdge RUNNING ZOMBIE
  /-- `wait` frees the zombie with `freeproc`. -/
  | wait : StateEdge ZOMBIE UNUSED

/-- Every section moves each slot along an edge of the diagram, or leaves its state. -/
theorem SchedInv.state_edge (hi : SchedInv s) (h : Trans s t) (q : Fin NPROC) :
    (t.proc q).state = (s.proc q).state ∨ StateEdge (s.proc q).state (t.proc q).state := by
  have hrun := hi.run_running
  have halloc := hi.fork_alloc
  have hboot := hi.boot
  cases h
  case forkRunnable p np pid _ _ hk _ =>
    -- the child of a finished `fork` was `USED`
    have hused := (hi.fork_copied p np pid (.inr hk)).1
    by_cases e : q = np
    · subst e
      simp [hused, StateEdge.runnable]
    · simp [Function.update_of_ne e]
  all_goals simp [Function.update_apply, free] <;>
    grind [Active, firstUnused_state, StateEdge.allocproc, StateEdge.freeproc,
      StateEdge.runnable, StateEdge.scheduler, StateEdge.yield, StateEdge.sleep,
      StateEdge.wakeup, StateEdge.exit, StateEdge.wait]

/-- The process state machine of `proc.c`: over every interleaving of the CPUs, each step moves
a slot's state along an edge of the diagram or leaves it; a process whose lock is free is
`RUNNING` iff it is `c->proc` of exactly one CPU; and no CPU is on a free slot, in particular
on one that `wait` has just freed. -/
theorem proc_state_machine (hs : Reachable s) (p : Fin NPROC) :
    (∀ a t, s.step a = some t →
      (t.proc p).state = (s.proc p).state ∨ StateEdge (s.proc p).state (t.proc p).state) ∧
    (s.lock p = none → ((s.proc p).state = RUNNING ↔ ∃! c, (s.cpus c).proc = some p)) ∧
    ((s.proc p).state = UNUSED → ∀ c, (s.cpus c).proc ≠ some p) := by
  have hi := schedInv_of_reachable hs
  refine ⟨fun a t h => hi.state_edge (step_trans h) p, hi.running_iff, fun hu c hc => ?_⟩
  rcases hi.cpu_proc_state hc with h | h | h | h <;> rw [hu] at h <;> cases h

theorem proc_state_machine_boot :
    (∀ a t, boot.step a = some t →
      (t.proc 0).state = (boot.proc 0).state ∨ StateEdge (boot.proc 0).state (t.proc 0).state) ∧
    (boot.lock 0 = none → ((boot.proc 0).state = RUNNING ↔ ∃! c, (boot.cpus c).proc = some 0)) ∧
    ((boot.proc 0).state = UNUSED → ∀ c, (boot.cpus c).proc ≠ some 0) :=
  proc_state_machine (.init rfl) 0

end Proc

end Xv6
