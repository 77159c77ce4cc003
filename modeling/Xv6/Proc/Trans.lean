import Xv6.Proc.Model

/-!
# The atomic sections of `proc.c`, one by one

`Trans s t` lists the atomic sections of the process code with their guards: the target of each
constructor is the section as `Kernel.step` computes it. `Next` collects the sections that only
move a kernel thread (a loop iteration that finds nothing, the start of a call, a return).
`step_trans` says that every step the executable model takes is one of them, so an invariant
is proved once over `Trans`, one case per section, and holds of every reachable state
(`Reachable.invariant`).
-/

namespace Xv6

namespace Proc

open Procstate Kernel

/-- CPU `c` runs the kernel thread of `p`, past the release that follows a switch. -/
def Active (s : Kernel) (c : Fin NCPU) (p : Fin NPROC) : Prop :=
  s.cpus c = ⟨some p, .run⟩ ∧ s.context p = .none

/-- The sections that only move the thread of `p` from one program point to another. -/
inductive Next (s : Kernel) (p : Fin NPROC) : KPc → KPc → Prop
  | fork : Next s p .user (.allocScan 0)
  | exit {status : ℤ} (hinit : s.initproc ≠ some p) : Next s p .user (.exitStart status)
  | wait {addr : ℕ} : Next s p .user (.waitStart addr)
  | kill {pid : ℤ} : Next s p .user (.killScan pid 0)
  | wakeup {a : ℕ} : Next s p .user (.wake (.other a) 0 .ret)
  | ret {r : ℤ} : Next s p (.ret r) .user
  /-- `allocproc`: the slot is not `UNUSED`, `release(&p->lock)`. -/
  | allocNext {i : ℕ} (h : i < NPROC) (hl : s.lock ⟨i, h⟩ = none)
      (hu : (s.proc ⟨i, h⟩).state ≠ UNUSED) : Next s p (.allocScan i) (.allocScan (i + 1))
  /-- `allocproc` found no free slot: `fork` returns `-1`. -/
  | allocEnd {i : ℕ} (h : NPROC ≤ i) : Next s p (.allocScan i) (.ret (-1))
  | reparentNext {status : ℤ} {i : ℕ} (h : i < NPROC) (hp : (s.proc ⟨i, h⟩).parent ≠ some p) :
      Next s p (.reparent status i) (.reparent status (i + 1))
  | reparentEnd {status : ℤ} {i : ℕ} (h : NPROC ≤ i) :
      Next s p (.reparent status i) (.wake (chanOf (s.proc p).parent) 0 (.exit status))
  /-- `wakeup` skips `myproc()`. -/
  | wakeSelf {chan : Chan} {j : ℕ} {k : WakeCont} (h : j < NPROC) (he : (⟨j, h⟩ : Fin NPROC) = p) :
      Next s p (.wake chan j k) (.wake chan (j + 1) k)
  | wakeEnd {chan : Chan} {j : ℕ} {k : WakeCont} (h : NPROC ≤ j) : Next s p (.wake chan j k) k.next
  | waitNext {addr : ℕ} {havekids : Bool} {i : ℕ} (h : i < NPROC)
      (hp : (s.proc ⟨i, h⟩).parent ≠ some p) :
      Next s p (.waitScan addr havekids i) (.waitScan addr havekids (i + 1))
  /-- `wait`: a child that is not a zombie, `release(&pp->lock)`. -/
  | waitKid {addr : ℕ} {havekids : Bool} {i : ℕ} (h : i < NPROC)
      (hp : (s.proc ⟨i, h⟩).parent = some p) (hl : s.lock ⟨i, h⟩ = none)
      (hz : (s.proc ⟨i, h⟩).state ≠ ZOMBIE) :
      Next s p (.waitScan addr havekids i) (.waitScan addr true (i + 1))
  /-- `wait` has children and is not killed: on to `sleep`. -/
  | waitToSleep {addr : ℕ} {i : ℕ} (h : NPROC ≤ i) (hl : s.lock p = none)
      (hk : (s.proc p).killed = false) : Next s p (.waitScan addr true i) (.waitSleep addr)
  | killNext {pid : ℤ} {i : ℕ} (h : i < NPROC) (hl : s.lock ⟨i, h⟩ = none)
      (hpid : (s.proc ⟨i, h⟩).pid ≠ pid) : Next s p (.killScan pid i) (.killScan pid (i + 1))
  | killEnd {pid : ℤ} {i : ℕ} (h : NPROC ≤ i) : Next s p (.killScan pid i) (.ret (-1))

/-- The atomic sections, each with its guard. -/
inductive Trans (s : Kernel) : Kernel → Prop
  | allocInit {p : Fin NPROC} (hi : s.initproc = none) (hp : s.firstUnused = some p) :
      Trans s (s.allocInit p)
  | runInit {p : Fin NPROC} (hi : s.initproc = some p) (hs : s.started = false) :
      Trans s (s.runInit p)
  | goto {c : Fin NCPU} {p : Fin NPROC} {k : KPc} (hs : s.started) (ha : Active s c p)
      (hk : Next s p (s.kpc p) k) : Trans s (s.goto p k)
  | sleepCall {c : Fin NCPU} {p : Fin NPROC} {a : ℕ} (hs : s.started) (ha : Active s c p)
      (hk : s.kpc p = .user) (hl : s.lock p = none) : Trans s (s.sleepOn c p (.other a) .user)
  | yield {c : Fin NCPU} {p : Fin NPROC} (hs : s.started) (ha : Active s c p)
      (hk : (s.kpc p).locked = false) (hl : s.lock p = none) : Trans s (s.yieldOn c p)
  | dispatch {c : Fin NCPU} {i : Fin NPROC} (hs : s.started) (hc : s.cpus c = ⟨none, .sched i⟩)
      (hl : s.lock i = none) (hr : (s.proc i).state = RUNNABLE) : Trans s (s.dispatch c i)
  | schedNext {c : Fin NCPU} {i : Fin NPROC} (hs : s.started) (hc : s.cpus c = ⟨none, .sched i⟩)
      (hl : s.lock i = none) (hr : (s.proc i).state ≠ RUNNABLE) :
      Trans s (s.setCpu c ⟨none, .sched (i + 1)⟩)
  | schedBack {c : Fin NCPU} {p : Fin NPROC} (hs : s.started) (hc : s.cpus c = ⟨some p, .back⟩) :
      Trans s (s.schedBack c p)
  | resumeYield {c : Fin NCPU} {p : Fin NPROC} (hs : s.started) (hc : s.cpus c = ⟨some p, .run⟩)
      (hx : s.context p = .yield) : Trans s (s.resumeYield p)
  | resumeSleep {c : Fin NCPU} {p : Fin NPROC} (hs : s.started) (hc : s.cpus c = ⟨some p, .run⟩)
      (hx : s.context p = .sleep) : Trans s (s.resumeSleep p)
  | allocFound {c : Fin NCPU} {p i : Fin NPROC} (hs : s.started) (ha : Active s c p)
      (hk : s.kpc p = .allocScan i.val) (hl : s.lock i = none) (hu : (s.proc i).state = UNUSED) :
      Trans s (s.allocFound c p i)
  | forkCopy {c : Fin NCPU} {p np : Fin NPROC} (hs : s.started) (ha : Active s c p)
      (hk : s.kpc p = .allocated np) : Trans s (s.forkCopy p np)
  | forkFail {c : Fin NCPU} {p np : Fin NPROC} (hs : s.started) (ha : Active s c p)
      (hk : s.kpc p = .allocated np) : Trans s (s.forkFail p np)
  | adopt {c : Fin NCPU} {p np : Fin NPROC} {pid : ℤ} (hs : s.started) (ha : Active s c p)
      (hk : s.kpc p = .forkParent np pid) (hw : s.waitLock = none) : Trans s (s.adopt p np pid)
  | forkRunnable {c : Fin NCPU} {p np : Fin NPROC} {pid : ℤ} (hs : s.started) (ha : Active s c p)
      (hk : s.kpc p = .forkRun np pid) (hl : s.lock np = none) :
      Trans s (s.forkRunnable p np pid)
  | exitStart {c : Fin NCPU} {p : Fin NPROC} {status : ℤ} (hs : s.started) (ha : Active s c p)
      (hk : s.kpc p = .exitStart status) (hw : s.waitLock = none) :
      Trans s (s.acquireWait c p (.reparent status 0))
  | waitStart {c : Fin NCPU} {p : Fin NPROC} {addr : ℕ} (hs : s.started) (ha : Active s c p)
      (hk : s.kpc p = .waitStart addr) (hw : s.waitLock = none) :
      Trans s (s.acquireWait c p (.waitScan addr false 0))
  | reparentChild {c : Fin NCPU} {p i : Fin NPROC} {status : ℤ} (hs : s.started)
      (ha : Active s c p) (hk : s.kpc p = .reparent status i.val)
      (hp : (s.proc i).parent = some p) : Trans s (s.reparentChild p status i)
  | wakeOne {c : Fin NCPU} {p j : Fin NPROC} {chan : Chan} {k : WakeCont} (hs : s.started)
      (ha : Active s c p) (hk : s.kpc p = .wake chan j.val k) (hne : j ≠ p)
      (hl : s.lock j = none) : Trans s ((s.wakeOne j chan).goto p (.wake chan (j.val + 1) k))
  | exitZombie {c : Fin NCPU} {p : Fin NPROC} {status : ℤ} (hs : s.started) (ha : Active s c p)
      (hk : s.kpc p = .exitZombie status) (hl : s.lock p = none) :
      Trans s (s.exitZombie c p status)
  /-- `wait`'s `copyout` of the zombie's status failed. -/
  | waitCopyFail {c : Fin NCPU} {p i : Fin NPROC} {addr : ℕ} {havekids : Bool} (hs : s.started)
      (ha : Active s c p) (hk : s.kpc p = .waitScan addr havekids i.val)
      (hp : (s.proc i).parent = some p) (hl : s.lock i = none) (hz : (s.proc i).state = ZOMBIE)
      (haddr : addr ≠ 0) : Trans s (s.waitRet p (-1))
  | reap {c : Fin NCPU} {p i : Fin NPROC} {addr : ℕ} {havekids : Bool} (hs : s.started)
      (ha : Active s c p) (hk : s.kpc p = .waitScan addr havekids i.val)
      (hp : (s.proc i).parent = some p) (hl : s.lock i = none) (hz : (s.proc i).state = ZOMBIE) :
      Trans s (s.reap p i addr)
  | waitNoKids {c : Fin NCPU} {p : Fin NPROC} {addr i : ℕ} (hs : s.started) (ha : Active s c p)
      (hk : s.kpc p = .waitScan addr false i) (h : NPROC ≤ i) : Trans s (s.waitRet p (-1))
  | waitKilled {c : Fin NCPU} {p : Fin NPROC} {addr i : ℕ} (hs : s.started) (ha : Active s c p)
      (hk : s.kpc p = .waitScan addr true i) (h : NPROC ≤ i) (hl : s.lock p = none)
      (hkill : (s.proc p).killed = true) : Trans s (s.waitRet p (-1))
  | waitSleep {c : Fin NCPU} {p : Fin NPROC} {addr : ℕ} (hs : s.started) (ha : Active s c p)
      (hk : s.kpc p = .waitSleep addr) (hl : s.lock p = none) :
      Trans s (s.releaseWait.sleepOn c p (.proc p) (.waitStart addr))
  | killHit {c : Fin NCPU} {p i : Fin NPROC} {pid : ℤ} (hs : s.started) (ha : Active s c p)
      (hk : s.kpc p = .killScan pid i.val) (hl : s.lock i = none) (hpid : (s.proc i).pid = pid) :
      Trans s (s.killHit p i)

/-! ### What a move leaves alone -/

section Next

variable {s : Kernel} {p : Fin NPROC} {k k' : KPc}

/-- A move neither enters nor leaves a `wait_lock` critical section. -/
theorem Next.holdsWait_eq (h : Next s p k k') : k'.holdsWait = k.holdsWait := by
  cases h with
  | wakeSelf => rename_i k _ _; cases k <;> rfl
  | wakeEnd => rename_i k _; cases k <;> rfl
  | _ => rfl

/-- A move is no part of `fork` after `allocproc` found a slot. -/
theorem Next.forkChild_eq_none (h : Next s p k k') : k.forkChild = none ∧ k'.forkChild = none := by
  cases h with
  | wakeEnd => rename_i k _; cases k <;> simp [KPc.forkChild, WakeCont.next]
  | _ => simp [KPc.forkChild]

end Next

/-- `userinit`'s `allocproc` takes a free slot. -/
theorem firstUnused_state {s : Kernel} {p : Fin NPROC} (h : s.firstUnused = some p) :
    (s.proc p).state = UNUSED := by
  simpa using List.find?_some h

/-! ### Every step is a `Trans` -/

variable {s t : Kernel}

theorem userinit_trans (h : s.userinit = some t) : Trans s t := by
  unfold Kernel.userinit at h
  split at h
  · rename_i hi
    obtain ⟨p, hp, rfl⟩ := Option.map_eq_some_iff.mp h
    exact .allocInit hi hp
  · rename_i p hi
    split_ifs at h with hs
    obtain rfl := Option.some.inj h
    exact .runInit hi (by simpa using hs)

theorem callStep_trans {c : Fin NCPU} {p : Fin NPROC} {call : Call} (hs : s.started)
    (ha : Active s c p) (hk : s.kpc p = .user) (h : s.callStep c p call = some t) : Trans s t := by
  have hgo : ∀ k, Next s p .user k → s.goto p k = t → Trans s t := fun k hn e => by
    rw [← e]
    exact .goto hs ha (hk ▸ hn)
  cases call with
  | fork => exact hgo _ .fork (Option.some.inj h)
  | exit status =>
    simp only [Kernel.callStep] at h
    split_ifs at h with hi
    exact hgo _ (.exit hi) (Option.some.inj h)
  | wait addr => exact hgo _ .wait (Option.some.inj h)
  | kill pid => exact hgo _ .kill (Option.some.inj h)
  | sleep a =>
    simp only [Kernel.callStep] at h
    split_ifs at h with hl
    obtain rfl := Option.some.inj h
    exact .sleepCall hs ha hk hl
  | wakeup a => exact hgo _ .wakeup (Option.some.inj h)

section Run

variable {c : Fin NCPU} {p : Fin NPROC} (hs : s.started) (ha : Active s c p)
include hs ha

theorem allocStep_trans {i : ℕ} (hk : s.kpc p = .allocScan i) (h : s.allocStep c p i = some t) :
    Trans s t := by
  unfold Kernel.allocStep at h
  split_ifs at h with hi hl hu
  · obtain rfl := Option.some.inj h
    exact .allocFound (i := ⟨i, hi⟩) hs ha hk hl hu
  · obtain rfl := Option.some.inj h
    exact .goto hs ha (hk ▸ .allocNext hi hl hu)
  · obtain rfl := Option.some.inj h
    exact .goto hs ha (hk ▸ .allocEnd (by omega))

theorem wakeStep_trans {chan : Chan} {j : ℕ} {k : WakeCont} (hk : s.kpc p = .wake chan j k)
    (h : s.wakeStep p chan j k = some t) : Trans s t := by
  unfold Kernel.wakeStep at h
  split_ifs at h with hj he hl
  · obtain rfl := Option.some.inj h
    exact .goto hs ha (hk ▸ .wakeSelf hj he)
  · obtain rfl := Option.some.inj h
    exact .wakeOne (j := ⟨j, hj⟩) hs ha hk he hl
  · obtain rfl := Option.some.inj h
    exact .goto hs ha (hk ▸ .wakeEnd (by omega))

theorem reparentStep_trans {status : ℤ} {i : ℕ} (hk : s.kpc p = .reparent status i)
    (h : s.reparentStep p status i = t) : Trans s t := by
  unfold Kernel.reparentStep at h
  split_ifs at h with hi hp
  · subst h
    exact .reparentChild (i := ⟨i, hi⟩) hs ha hk hp
  · subst h
    exact .goto hs ha (hk ▸ .reparentNext hi hp)
  · subst h
    exact .goto hs ha (hk ▸ .reparentEnd (by omega))

theorem waitStep_trans {ok : Bool} {addr : ℕ} {havekids : Bool} {i : ℕ}
    (hk : s.kpc p = .waitScan addr havekids i) (h : s.waitStep p ok addr havekids i = some t) :
    Trans s t := by
  unfold Kernel.waitStep at h
  split_ifs at h with hi hp hl hz hfail hnk hlp hkill
  · obtain rfl := Option.some.inj h
    exact .waitCopyFail (i := ⟨i, hi⟩) hs ha hk hp hl hz hfail.1
  · obtain rfl := Option.some.inj h
    exact .reap (i := ⟨i, hi⟩) hs ha hk hp hl hz
  · obtain rfl := Option.some.inj h
    exact .goto hs ha (hk ▸ .waitKid hi hp hl hz)
  · obtain rfl := Option.some.inj h
    exact .goto hs ha (hk ▸ .waitNext hi hp)
  · obtain rfl := Option.some.inj h
    subst hnk
    exact .waitNoKids hs ha hk (by omega)
  · obtain rfl := Option.some.inj h
    have hh : havekids = true := by simpa using hnk
    subst hh
    exact .waitKilled hs ha hk (by omega) hlp hkill
  · obtain rfl := Option.some.inj h
    have hh : havekids = true := by simpa using hnk
    subst hh
    exact .goto hs ha (hk ▸ .waitToSleep (by omega) hlp (by simpa using hkill))

theorem killStep_trans {pid : ℤ} {i : ℕ} (hk : s.kpc p = .killScan pid i)
    (h : s.killStep p pid i = some t) : Trans s t := by
  unfold Kernel.killStep at h
  split_ifs at h with hi hl hpid
  · obtain rfl := Option.some.inj h
    exact .killHit (i := ⟨i, hi⟩) hs ha hk hl hpid
  · obtain rfl := Option.some.inj h
    exact .goto hs ha (hk ▸ .killNext hi hl hpid)
  · obtain rfl := Option.some.inj h
    exact .goto hs ha (hk ▸ .killEnd (by omega))

/-- The sections of a running thread, by its program point. -/
theorem runStep_trans {ok : Bool} (h : s.runStep c p ok (s.kpc p) = some t) : Trans s t := by
  cases hk : s.kpc p with
  | user => simp [hk, Kernel.runStep] at h
  | ret r =>
    simp only [hk, Kernel.runStep, Option.some.injEq] at h
    subst h
    exact .goto hs ha (hk ▸ .ret)
  | allocScan i => exact allocStep_trans hs ha hk (by simpa [hk, Kernel.runStep] using h)
  | allocated np =>
    simp only [hk, Kernel.runStep, Option.some.injEq] at h
    subst h
    cases ok
    · exact .forkFail hs ha hk
    · exact .forkCopy hs ha hk
  | forkParent np pid =>
    simp only [hk, Kernel.runStep] at h
    split_ifs at h with hw
    obtain rfl := Option.some.inj h
    exact .adopt hs ha hk hw
  | forkRun np pid =>
    simp only [hk, Kernel.runStep] at h
    split_ifs at h with hl
    obtain rfl := Option.some.inj h
    exact .forkRunnable hs ha hk hl
  | exitStart status =>
    simp only [hk, Kernel.runStep] at h
    split_ifs at h with hw
    obtain rfl := Option.some.inj h
    exact .exitStart hs ha hk hw
  | reparent status i =>
    simp only [hk, Kernel.runStep, Option.some.injEq] at h
    exact reparentStep_trans hs ha hk h
  | wake chan j k => exact wakeStep_trans hs ha hk (by simpa [hk, Kernel.runStep] using h)
  | exitZombie status =>
    simp only [hk, Kernel.runStep] at h
    split_ifs at h with hl
    obtain rfl := Option.some.inj h
    exact .exitZombie hs ha hk hl
  | waitStart addr =>
    simp only [hk, Kernel.runStep] at h
    split_ifs at h with hw
    obtain rfl := Option.some.inj h
    exact .waitStart hs ha hk hw
  | waitScan addr havekids i =>
    exact waitStep_trans hs ha hk (by simpa [hk, Kernel.runStep] using h)
  | waitSleep addr =>
    simp only [hk, Kernel.runStep] at h
    split_ifs at h with hl
    obtain rfl := Option.some.inj h
    exact .waitSleep hs ha hk hl
  | killScan pid i => exact killStep_trans hs ha hk (by simpa [hk, Kernel.runStep] using h)
  | zombie => simp [hk, Kernel.runStep] at h

end Run

/-- **Every step of the model is one of the atomic sections.** -/
theorem step_trans {a : Act} (h : s.step a = some t) : Trans s t := by
  cases a with
  | userinit => exact userinit_trans h
  | call c call =>
    simp only [Kernel.step] at h
    split_ifs at h with hs
    split at h
    · rename_i p hc
      split_ifs at h with hg
      exact callStep_trans hs ⟨hc, hg.1⟩ hg.2 h
    · cases h
  | yield c =>
    simp only [Kernel.step] at h
    split_ifs at h with hs
    split at h
    · rename_i p hc
      split_ifs at h with hg
      obtain rfl := Option.some.inj h
      exact .yield hs ⟨hc, hg.1⟩ hg.2.1 hg.2.2
    · cases h
  | step c ok =>
    simp only [Kernel.step] at h
    split_ifs at h with hs
    split at h
    · rename_i i hc
      unfold Kernel.schedStep at h
      split_ifs at h with hl hr
      · obtain rfl := Option.some.inj h
        exact .dispatch hs hc hl hr
      · obtain rfl := Option.some.inj h
        exact .schedNext hs hc hl hr
    · rename_i p hc
      obtain rfl := Option.some.inj h
      exact .schedBack hs hc
    · rename_i p hc
      split at h
      · rename_i hx
        exact runStep_trans hs ⟨hc, hx⟩ h
      · rename_i hx
        cases hx' : s.context p with
        | none => exact absurd hx' hx
        | yield =>
          rw [hx'] at h
          obtain rfl := Option.some.inj h
          exact .resumeYield hs hc hx'
        | sleep =>
          rw [hx'] at h
          obtain rfl := Option.some.inj h
          exact .resumeSleep hs hc hx'
    · cases h

/-- Reachable states are reached through `Trans`. -/
theorem Reachable.invariant {I : Kernel → Prop} (h0 : I boot)
    (h1 : ∀ s t, Reachable s → I s → Trans s t → I t) {s : Kernel} (hs : Reachable s) : I s :=
  Reach.Reachable.invariant_of (J := Reachable) (fun _ h => h) (fun _ h => h ▸ h0)
    (fun _ _ _ hr _ hi _ h => h1 _ _ hr hi (step_trans h)) hs

end Proc

end Xv6
