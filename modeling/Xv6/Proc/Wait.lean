import Xv6.Proc.Sched

/-!
# No lost wakeup between `exit` and `wait`

`wait` sleeps on its own `struct proc *` and `exit` wakes its parent on that channel, both
under `wait_lock`:

    exit:  acquire(&wait_lock); reparent(p); wakeup(p->parent);
           acquire(&p->lock); p->state = ZOMBIE; release(&wait_lock); sched();
    wait:  acquire(&wait_lock); ... scan for a zombie child ...; sleep(p, &wait_lock);

`WakeInv` keeps what each side has made sure of, by where its thread is (`WakeOk`): `exit`'s
`wakeup(p->parent)` has woken the parent if it is among the slots it has passed, and `wait`'s
scan has found no zombie child among the slots it has passed. While one of them holds
`wait_lock`, nobody else can go to sleep in `wait`, make a child a zombie or move a child, since
all of these need the lock. The only waiter left asleep with a zombie child is `initproc` while
`reparent` has just handed it one and `wakeup(initproc)` has not reached it
(`WakeInv.lost`), and that is inside `exit`'s critical section.

`exit_wait_no_lost_wakeup`: whenever `wait_lock` is free, nobody sleeps on the channel of a
process that has a zombie child.
-/

namespace Xv6

namespace Proc

open Procstate Kernel

/-- `p` sleeps in `wait`, on its own channel. -/
def WaitSleeping (proc : Fin NPROC → Proc) (p : Fin NPROC) : Prop :=
  (proc p).state = SLEEPING ∧ (proc p).chan = .proc p

/-- What the thread of `p` has made sure of, by where it is in `exit` or `wait`. -/
def WakeOk (proc : Fin NPROC → Proc) (p : Fin NPROC) : KPc → Prop
  | .wake _ j (.exit _) => ∀ pp : Fin NPROC, (proc p).parent = some pp → pp.val < j →
    ¬ WaitSleeping proc pp
  | .exitZombie _ => ∀ pp, (proc p).parent = some pp → ¬ WaitSleeping proc pp
  | .waitScan _ _ i => ∀ z : Fin NPROC, z.val < i → (proc z).parent = some p →
    (proc z).state ≠ ZOMBIE
  | .waitSleep _ => ∀ z, (proc z).parent = some p → (proc z).state ≠ ZOMBIE
  | _ => True

/-- The wakeups of `exit` and `wait`. -/
structure WakeInv (s : Kernel) : Prop where
  /-- Only `wait` of `p` sleeps on the channel `p`. -/
  chan_self : ∀ x p, (s.proc x).chan = .proc p → x = p
  /-- `exit` wakes the channel of its parent. -/
  exit_chan : ∀ p ch j st, s.kpc p = .wake ch j (.exit st) → ch = chanOf (s.proc p).parent
  /-- A waiter asleep with a zombie child is one that `reparent`'s `wakeup(initproc)` is about
  to reach. -/
  lost : ∀ p z, WaitSleeping s.proc p → (s.proc z).parent = some p →
    (s.proc z).state = ZOMBIE →
    ∃ e j st i, s.kpc e = .wake (.proc p) j (.reparent st i) ∧ j ≤ p.val
  wake : ∀ p, WakeOk s.proc p (s.kpc p)

variable {s t : Kernel}

/-! ### What a thread has made sure of -/

section WakeOk

variable {f g : Fin NPROC → Proc} {p : Fin NPROC} {k k' : KPc}

/-- Only the sections that hold `wait_lock` have made sure of anything. -/
theorem WakeOk.of_not_holdsWait (hw : k.holdsWait = false) : WakeOk f p k := by
  cases k <;> try trivial
  case wake k => cases k <;> trivial

/-- What `p` has made sure of survives any change that makes no new sleeper in `wait`, gives
`p` no new child and no new zombie child, and keeps `p`'s parent. -/
theorem WakeOk.mono (h : WakeOk f p k) (hsleep : ∀ q, WaitSleeping g q → WaitSleeping f q)
    (hpar : ∀ z, (g z).parent = some p → (f z).parent = some p)
    (hzombie : ∀ z, (g z).parent = some p → (g z).state = ZOMBIE → (f z).state = ZOMBIE)
    (hparent : (g p).parent = (f p).parent) : WakeOk g p k := by
  cases k <;> try trivial
  case exitZombie => exact fun pp hpp hs => h pp (hparent ▸ hpp) (hsleep pp hs)
  case waitScan => exact fun z hz hp hzz => h z hz (hpar z hp) (hzombie z hp hzz)
  case waitSleep => exact fun z hp hzz => h z (hpar z hp) (hzombie z hp hzz)
  case wake k =>
    cases k <;> try trivial
    exact fun pp hpp hj hs => h pp (hparent ▸ hpp) hj (hsleep pp hs)

/-- A move of the running thread of `p` keeps what it has made sure of: each slot `wait`'s scan
passes is no zombie child, and `wakeup` skips `p` itself, which is not asleep. -/
theorem Next.wakeOk {s : Kernel} (hn : Next s p k k') (hr : (s.proc p).state = RUNNING)
    (h : WakeOk s.proc p k) : WakeOk s.proc p k' := by
  cases hn <;> try trivial
  case reparentEnd => exact fun pp _ hj => absurd hj (Nat.not_lt_zero _)
  case wakeSelf j k hj he =>
    cases k <;> try trivial
    intro pp hpp hlt hs
    rcases Nat.lt_succ_iff_lt_or_eq.mp hlt with hlt | hlt
    · exact h pp hpp hlt hs
    · have : pp = p := by rw [← he]; exact Fin.ext hlt
      rw [this, WaitSleeping, hr] at hs
      cases hs.1
  case wakeEnd k hj =>
    cases k <;> try trivial
    exact fun pp hpp hs => h pp hpp (lt_of_lt_of_le pp.isLt hj) hs
  case waitNext i hi hp =>
    intro z hz hzp
    rcases Nat.lt_succ_iff_lt_or_eq.mp hz with hz | hz
    · exact h z hz hzp
    · obtain rfl : z = ⟨i, hi⟩ := Fin.ext hz
      exact absurd hzp hp
  case waitKid i hi _ _ hz =>
    intro z hzi hzp
    rcases Nat.lt_succ_iff_lt_or_eq.mp hzi with hzi | hzi
    · exact h z hzi hzp
    · obtain rfl : z = ⟨i, hi⟩ := Fin.ext hzi
      exact hz
  case waitToSleep i hi _ _ => exact fun z hzp => h z (lt_of_lt_of_le z.isLt hi) hzp

/-- `exit`'s `wakeup(p->parent)` starts on the channel of the parent and keeps it. -/
theorem Next.exit_chan {s : Kernel} (hn : Next s p k k') {ch : Chan} {j : ℕ} {st : ℤ}
    (hk' : k' = .wake ch j (.exit st)) :
    ch = chanOf (s.proc p).parent ∨ ∃ j', k = .wake ch j' (.exit st) := by
  cases hn
  case reparentEnd =>
    injection hk' with h1
    exact .inl h1.symm
  case wakeSelf =>
    injection hk' with h1 h2 h3
    subst h1 h3
    exact .inr ⟨_, rfl⟩
  case wakeEnd k _ => cases k <;> simp [WakeCont.next] at hk'
  all_goals simp at hk'

/-- `reparent`'s `wakeup(initproc)` has not passed a sleeper it is still to wake: it skips only
the slot of its own thread, which is not that sleeper. -/
theorem Next.wake_pending {s : Kernel} (hn : Next s p k k') {q : Fin NPROC} {j : ℕ} {st : ℤ}
    {i : ℕ} (hk : k = .wake (.proc q) j (.reparent st i)) (hj : j ≤ q.val) (hq : q ≠ p) :
    ∃ j', k' = .wake (.proc q) j' (.reparent st i) ∧ j' ≤ q.val := by
  cases hn <;> simp at hk
  case wakeSelf j₀ k₀ h₀ he =>
    obtain ⟨rfl, rfl, rfl⟩ := hk
    refine ⟨_, rfl, lt_of_le_of_ne hj fun e => hq ?_⟩
    rw [← he]
    exact Fin.ext e.symm
  case wakeEnd j₀ k₀ h₀ =>
    obtain ⟨rfl, rfl, rfl⟩ := hk
    exact absurd (lt_of_le_of_lt hj q.isLt) (not_lt.mpr h₀)

end WakeOk

/-! ### A wakeup only wakes -/

section WakeOne

variable {s : Kernel} {j : Fin NPROC} {chan : Chan}

@[simp] theorem wakeOne_parent (z : Fin NPROC) :
    ((s.wakeOne j chan).proc z).parent = (s.proc z).parent := by
  by_cases e : z = j
  · subst e
    simp
  · simp [Function.update_of_ne e]

theorem waitSleeping_of_wakeOne {q : Fin NPROC} (h : WaitSleeping (s.wakeOne j chan).proc q) :
    WaitSleeping s.proc q := by
  by_cases e : q = j
  · subst e
    simp only [WaitSleeping, Kernel.wakeOne, Kernel.setState, Kernel.setProc,
      Function.update_self] at h ⊢
    split_ifs at h with hs
    · cases h.1
    · exact h
  · simpa [WaitSleeping, Function.update_of_ne e] using h

theorem zombie_of_wakeOne {z : Fin NPROC} (h : ((s.wakeOne j chan).proc z).state = ZOMBIE) :
    (s.proc z).state = ZOMBIE := by
  by_cases e : z = j
  · subst e
    simp only [Kernel.wakeOne, Kernel.setState, Kernel.setProc, Function.update_self] at h
    split_ifs at h
    exact h
  · simpa [Function.update_of_ne e] using h

/-- `wakeup(chan)` at the slot of a process asleep in `wait` on `chan` wakes it. -/
theorem not_waitSleeping_wakeOne (hch : chan = .proc j) :
    ¬ WaitSleeping (s.wakeOne j chan).proc j := by
  intro h
  have hs := waitSleeping_of_wakeOne h
  simp only [WaitSleeping, Kernel.wakeOne, Kernel.setState, Kernel.setProc,
    Function.update_self] at h
  rw [if_pos ⟨hs.1, hs.2.trans hch.symm⟩] at h
  cases h.1

end WakeOne

/-! ### While a thread holds `wait_lock`

A section of another thread neither puts anybody to sleep in `wait`, nor moves a child to or
from the holder, nor makes one of its children a zombie: all of these are done only under
`wait_lock`. -/

section Frame

variable (hi : SchedInv s) (h : Trans s t) {p : Fin NPROC} (hp : (s.kpc p).holdsWait = true)
  (hk : t.kpc p = s.kpc p)
include hi h hp hk

theorem waitSleeping_frame (q : Fin NPROC) (hq : WaitSleeping t.proc q) :
    WaitSleeping s.proc q := by
  cases h
  case waitSleep p' _ _ _ hk' _ =>
    obtain rfl : p = p' := hi.holdsWait_unique hp (by rw [hk']; rfl)
    simp [hk'] at hk
  case wakeOne => exact waitSleeping_of_wakeOne hq
  all_goals
    simp [WaitSleeping, Function.update_apply, free] at hq ⊢
    grind

theorem parent_frame (z : Fin NPROC) (hz : (t.proc z).parent = some p) :
    (s.proc z).parent = some p := by
  cases h
  case adopt p' np _ _ _ hk' _ =>
    by_cases e : p = p'
    · subst e
      simp [hk'] at hk
    · by_cases ez : z = np
      · subst ez
        simp only [Kernel.adopt, Kernel.goto, Kernel.setProc, Function.update_self,
          Option.some.injEq] at hz
        exact absurd hz.symm e
      · simpa [Function.update_of_ne ez] using hz
  case reparentChild p' _ _ _ _ hk' _ =>
    obtain rfl : p = p' := hi.holdsWait_unique hp (by rw [hk']; rfl)
    simp [hk'] at hk
  case wakeOne p' j chan _ _ _ _ _ _ =>
    exact (wakeOne_parent z : ((s.wakeOne j chan).proc z).parent = _).symm.trans hz
  all_goals
    simp [Function.update_apply, free] at hz ⊢
    grind

theorem zombie_frame (z : Fin NPROC) (hzz : (t.proc z).state = ZOMBIE) :
    (s.proc z).state = ZOMBIE := by
  cases h
  case exitZombie p' _ _ _ hk' _ =>
    obtain rfl : p = p' := hi.holdsWait_unique hp (by rw [hk']; rfl)
    simp [hk'] at hk
  case wakeOne => exact zombie_of_wakeOne hzz
  all_goals
    simp [Function.update_apply, free] at hzz ⊢
    grind

theorem own_parent_frame : (t.proc p).parent = (s.proc p).parent := by
  obtain ⟨c, ha, -⟩ := hi.waitLock_of_holdsWait hp
  have hr := hi.active_running ha
  have hcopied := hi.fork_copied
  have halloc := hi.fork_alloc
  cases h
  case reparentChild p' _ _ _ _ hk' _ =>
    obtain rfl : p = p' := hi.holdsWait_unique hp (by rw [hk']; rfl)
    simp [hk'] at hk
  case wakeOne => exact wakeOne_parent p
  all_goals
    simp [Function.update_apply, free] <;> grind

end Frame

namespace WakeInv

/-! ### One section keeps the invariant, field by field -/

section Step

variable (hi : SchedInv s) (hw : WakeInv s) (h : Trans s t)
include hi hw h

omit hi in
theorem chan_self_trans (x p : Fin NPROC) (hx : (t.proc x).chan = .proc p) : x = p := by
  have hchan := hw.chan_self
  cases h <;> simp [Function.update_apply, free] at hx <;> grind

theorem exit_chan_trans (p : Fin NPROC) (ch : Chan) (j : ℕ) (st : ℤ)
    (hk : t.kpc p = .wake ch j (.exit st)) : ch = chanOf (t.proc p).parent := by
  have hexit := hw.exit_chan
  have hcopied := hi.fork_copied
  cases h
  case goto p' k _ _ hn =>
    by_cases e : p = p'
    · subst e
      simp only [Kernel.goto, Function.update_self] at hk ⊢
      rcases hn.exit_chan hk with h | ⟨j', h⟩
      · exact h
      · exact hexit p ch j' st h
    · simp only [Kernel.goto, Function.update_of_ne e] at hk ⊢
      exact hexit p ch j st hk
  case reparentChild p' i _ _ _ hk' _ =>
    -- the thread of `p` and the one in `reparent` would both hold `wait_lock`
    by_cases e : p = p'
    · subst e
      simp at hk
    · simp only [Kernel.reparentChild, Kernel.goto, Kernel.setProc,
        Function.update_of_ne e] at hk
      exact absurd (hi.holdsWait_unique (by rw [hk]; rfl) (by rw [hk']; rfl)) e
  case reap p' i _ _ _ _ hk' _ _ _ =>
    by_cases e : p = p'
    · subst e
      simp at hk
    · simp only [Kernel.reap, Kernel.goto, Kernel.setProc, Function.update_of_ne e] at hk
      exact absurd (hi.holdsWait_unique (by rw [hk]; rfl) (by rw [hk']; rfl)) e
  case forkFail p' np _ _ hk' =>
    -- the slot freed was `USED`, so it is not `p`, which runs
    have hused := (hi.fork_alloc p' np hk').1
    by_cases e : p = p'
    · subst e
      simp at hk
    · simp only [Kernel.forkFail, Kernel.goto, Kernel.setLock, Kernel.setProc,
        Function.update_of_ne e] at hk ⊢
      obtain ⟨c, ha, -⟩ := hi.waitLock_of_holdsWait (p := p) (by rw [hk]; rfl)
      have hnp : p ≠ np := fun e' => by
        have := hi.active_running ha
        rw [e', hused] at this
        cases this
      rw [Function.update_of_ne hnp]
      exact hexit p ch j st hk
  all_goals
    simp [Function.update_apply] at hk ⊢
    grind

omit hi h in
/-- A step that makes no new sleeper in `wait`, no new zombie child and no new parent link for
the pair `(p, z)`, and moves no thread inside a `wakeup`, keeps the pending wakeup of the pair. -/
theorem lost_of_frame {p z : Fin NPROC} (hp : WaitSleeping t.proc p)
    (hz : (t.proc z).parent = some p) (hzz : (t.proc z).state = ZOMBIE)
    (hsleep : WaitSleeping t.proc p → WaitSleeping s.proc p)
    (hpar : (t.proc z).parent = some p → (s.proc z).parent = some p)
    (hzombie : (t.proc z).state = ZOMBIE → (s.proc z).state = ZOMBIE)
    (hkpc : ∀ e ch j w, s.kpc e = .wake ch j w → t.kpc e = s.kpc e) :
    ∃ e j st i, t.kpc e = .wake (.proc p) j (.reparent st i) ∧ j ≤ p.val := by
  obtain ⟨e, j, st, i, he, hj⟩ := hw.lost p z (hsleep hp) (hpar hz) (hzombie hzz)
  exact ⟨e, j, st, i, (hkpc e _ _ _ he).trans he, hj⟩

theorem lost_trans (p z : Fin NPROC) (hp : WaitSleeping t.proc p)
    (hz : (t.proc z).parent = some p) (hzz : (t.proc z).state = ZOMBIE) :
    ∃ e j st i, t.kpc e = .wake (.proc p) j (.reparent st i) ∧ j ≤ p.val := by
  have halloc := hi.fork_alloc
  have hcopied := hi.fork_copied
  cases h
  case goto p' k _ ha hn =>
    -- a move of the thread in `reparent`'s wakeup keeps it pending before the sleeper
    simp only [Kernel.goto] at hp hz hzz ⊢
    obtain ⟨e, j, st, i, he, hj⟩ := hw.lost p z hp hz hzz
    by_cases ee : e = p'
    · subst ee
      have hne : p ≠ e := fun h' => by
        rw [h', WaitSleeping, hi.active_running ha] at hp
        cases hp.1
      obtain ⟨j', hk', hj'⟩ := hn.wake_pending he hj hne
      exact ⟨e, j', st, i, by simpa using hk', hj'⟩
    · exact ⟨e, j, st, i, by simpa [Function.update_of_ne ee] using he, hj⟩
  case waitSleep p' _ _ _ hk _ =>
    -- `wait` sleeps only after its scan found no zombie child
    have hscan := hw.wake p'
    rw [hk] at hscan
    by_cases ep : p = p'
    · subst ep
      have hzp : z ≠ p := fun h' => by
        subst h'
        simp at hzz
      simp [Function.update_of_ne hzp] at hz hzz
      exact absurd hzz (hscan z hz)
    · refine hw.lost_of_frame hp hz hzz ?_ ?_ ?_ ?_
      · simp [WaitSleeping, Function.update_of_ne ep]
      · by_cases ez : z = p' <;> simp [ez, Function.update_of_ne]
      · by_cases ez : z = p' <;> simp [ez, Function.update_of_ne]
      · intro e _ _ _ he
        have hne : e ≠ p' := by
          rintro rfl
          rw [hk] at he
          cases he
        simp [Function.update_of_ne hne]
  case reparentChild p' i st _ _ hk _ =>
    -- a zombie handed to a sleeping `initproc` is woken by the `wakeup(initproc)` that follows
    by_cases hnew : z = i ∧ s.initproc = some p
    · obtain ⟨-, hip⟩ := hnew
      exact ⟨p', 0, st, i, by simp [hip, chanOf], Nat.zero_le _⟩
    · refine hw.lost_of_frame hp hz hzz ?_ ?_ ?_ ?_
      · simp [WaitSleeping, Function.update_apply]
        grind
      · by_cases ez : z = i
        · subst ez
          simp only [Kernel.reparentChild, Kernel.goto, Kernel.setProc, Function.update_self]
          exact fun hip => absurd ⟨rfl, hip⟩ hnew
        · simp [Function.update_of_ne ez]
      · by_cases ez : z = i <;> simp [ez, Function.update_of_ne]
      · intro e _ _ _ he
        have hne : e ≠ p' := by
          rintro rfl
          rw [hk] at he
          cases he
        simp [Function.update_of_ne hne]
  case exitZombie p' st _ _ hk _ =>
    -- `exit` becomes a zombie only after waking its parent out of `wait`
    have hwoke := hw.wake p'
    rw [hk] at hwoke
    have hpp : p ≠ p' := by
      rintro rfl
      simp [WaitSleeping] at hp
    have hsp : WaitSleeping s.proc p := by simpa [WaitSleeping, Function.update_of_ne hpp] using hp
    by_cases ez : z = p'
    · subst ez
      simp at hz
      exact absurd hsp (hwoke p hz)
    · refine hw.lost_of_frame hp hz hzz (fun _ => hsp) ?_ ?_ ?_
      · simp [Function.update_of_ne ez]
      · simp [Function.update_of_ne ez]
      · intro e _ _ _ he
        have hne : e ≠ p' := by
          rintro rfl
          rw [hk] at he
          cases he
        simp [Function.update_of_ne hne]
  case wakeOne p' j chan k _ _ hk _ _ =>
    -- the wakeup at the sleeper's own slot wakes it, otherwise it is still ahead
    simp only [Kernel.goto] at hp hz hzz ⊢
    obtain ⟨e, j₀, st, i, he, hj⟩ := hw.lost p z (waitSleeping_of_wakeOne hp)
      (by rwa [wakeOne_parent] at hz) (zombie_of_wakeOne hzz)
    by_cases ee : e = p'
    · subst ee
      rw [hk] at he
      obtain ⟨rfl, rfl, rfl⟩ := KPc.wake.inj he
      refine ⟨e, j.val + 1, st, i, by simp, ?_⟩
      rcases lt_or_eq_of_le hj with hj | hj
      · exact hj
      · obtain rfl : j = p := Fin.ext hj
        exact absurd hp (not_waitSleeping_wakeOne rfl)
    · exact ⟨e, j₀, st, i, by simpa [Function.update_of_ne ee] using he, hj⟩
  case runInit p' _ hs =>
    -- before `started` every slot is free or `initproc`, which becomes `RUNNABLE`: none sleeps
    have hb := (hi.boot hs).2 p
    simp only [WaitSleeping, Kernel.runInit, Kernel.setContext, Kernel.goto, Kernel.setLock,
      Kernel.setState, Kernel.setProc] at hp
    by_cases e : p = p'
    · subst e
      simp at hp
    · rw [Function.update_of_ne e] at hp
      by_cases hip : s.initproc = some p
      · rw [hb.1 hip] at hp
        cases hp.1
      · rw [hb.2 hip] at hp
        cases hp.1
  all_goals
    refine hw.lost_of_frame hp hz hzz ?_ ?_ ?_ ?_
    · simp [WaitSleeping, Function.update_apply, free] <;> grind
    · simp [Function.update_apply, free] at hzz ⊢ <;> grind
    · simp [Function.update_apply, free] at hz ⊢ <;> grind
    · intro e _ _ _ he
      simp [Function.update_apply] <;> grind [KPc.idle]

theorem wake_trans (p : Fin NPROC) : WakeOk t.proc p (t.kpc p) := by
  have hwake := hw.wake p
  cases hwt : (t.kpc p).holdsWait
  · exact WakeOk.of_not_holdsWait hwt
  by_cases hk : t.kpc p = s.kpc p
  · -- another thread's section, while `p` holds `wait_lock`
    rw [hk] at hwt ⊢
    exact hwake.mono (waitSleeping_frame hi h hwt hk) (parent_frame hi h hwt hk)
      (fun z _ => zombie_frame hi h hwt hk z) (own_parent_frame hi h hwt hk)
  -- a section of `p` itself
  cases h
  case goto p' k _ ha hn =>
    by_cases e : p = p'
    · subst e
      simp only [Kernel.goto, Function.update_self]
      exact hn.wakeOk (hi.active_running ha) (by simpa using hwake)
    · simp [Function.update_of_ne e] at hk
  case wakeOne p' j chan k _ _ hk' _ _ =>
    by_cases e : p = p'
    · subst e
      simp only [Kernel.goto, Function.update_self]
      rw [hk'] at hwake
      cases k with
      | exit st =>
        -- `exit`'s `wakeup(p->parent)` at the parent's slot wakes it if it slept in `wait`
        intro pp hpp hlt hws
        rw [wakeOne_parent] at hpp
        rcases Nat.lt_succ_iff_lt_or_eq.mp hlt with hlt | hlt
        · exact hwake pp hpp hlt (waitSleeping_of_wakeOne hws)
        · obtain rfl : pp = j := Fin.ext hlt
          have hch := hw.exit_chan p chan _ st hk'
          rw [hpp] at hch
          exact not_waitSleeping_wakeOne hch hws
      | reparent st i => trivial
      | ret => trivial
    · simp [Function.update_of_ne e] at hk
  all_goals
    simp [Function.update_apply] at hk hwt ⊢
    try split_ifs at hk hwt ⊢
    all_goals first
      | trivial
      | exact absurd hk.1 ‹_›
      | (intro z hz; simp at hz)

end Step

/-- Every atomic section keeps `WakeInv`. -/
theorem trans (hi : SchedInv s) (hw : WakeInv s) (h : Trans s t) : WakeInv t where
  chan_self := hw.chan_self_trans h
  exit_chan := hw.exit_chan_trans hi h
  lost := hw.lost_trans hi h
  wake := hw.wake_trans hi h

end WakeInv

theorem wakeInv_boot : WakeInv boot where
  chan_self _ _ h := by simp [boot, free] at h
  exit_chan _ _ _ _ h := by simp [boot] at h
  lost _ _ h := by simp [WaitSleeping, boot, free] at h
  wake _ := trivial

theorem wakeInv_of_reachable (hs : Reachable s) : WakeInv s :=
  Reachable.invariant wakeInv_boot
    (fun _ _ hr hw h => hw.trans (schedInv_of_reachable hr) h) hs

/-- **No lost wakeup between `exit` and `wait`.** In every reachable state in which `wait_lock`
is free, no process sleeps on the channel of a process `p` that has a zombie child: `wait` of
`p` would never be woken for that child. This holds for `initproc` too, which `reparent` hands
children that may already be zombies. -/
theorem exit_wait_no_lost_wakeup (hs : Reachable s) (hw : s.waitLock = none) (x p z : Fin NPROC)
    (hx : (s.proc x).state = SLEEPING) (hc : (s.proc x).chan = .proc p)
    (hz : (s.proc z).parent = some p) : (s.proc z).state ≠ ZOMBIE := by
  have hi := schedInv_of_reachable hs
  have hwi := wakeInv_of_reachable hs
  obtain rfl := hwi.chan_self x p hc
  intro hzz
  -- the only sleeper left with a zombie child waits for a wakeup inside `exit`'s critical section
  obtain ⟨e, j, st, i, he, -⟩ := hwi.lost x z ⟨hx, hc⟩ hz hzz
  obtain ⟨c, -, hc'⟩ := hi.waitLock_of_holdsWait (p := e) (by rw [he]; rfl)
  rw [hw] at hc'
  cases hc'

/-- `initproc` forks a child and waits for it: it sleeps on its own channel, with `wait_lock`
free, and its child is not a zombie. -/
theorem exit_wait_no_lost_wakeup_fork_wait :
    ∃ s, Reachable s ∧ s.waitLock = none ∧ (s.proc 0).state = SLEEPING ∧
      (s.proc 0).chan = .proc 0 ∧ (s.proc 1).parent = some 0 ∧ (s.proc 1).state ≠ ZOMBIE := by
  have hs := @Reach.Reachable.of_run _ _ (· = boot) Kernel.step (fun _ => True) boot _
    ([.userinit, .userinit, .step 0 true, .step 0 true, .call 0 .fork] ++
      List.replicate 6 (.step 0 true) ++ [.call 0 (.wait 0)] ++ List.replicate 68 (.step 0 true))
    rfl (by simp) rfl
  exact ⟨_, hs, rfl, rfl, rfl, rfl, exit_wait_no_lost_wakeup hs rfl 0 0 1 rfl rfl rfl⟩

end Proc

end Xv6
