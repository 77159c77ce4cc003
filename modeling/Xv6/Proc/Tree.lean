import Xv6.Proc.Sched

/-!
# The process tree

`TreeInv` is what `fork`, `exit` and `wait` keep of the parent pointers, under `wait_lock`:

* a parent pointer is held by a slot in use and names a process that has run and not exited
  (`RUNNABLE`, `RUNNING` or `SLEEPING`), and every process past `fork` other than `initproc` has
  one;
* `initproc` never enters `exit`, so it stays live once `userinit` has made it runnable;
* the scans: `exit`'s `reparent` has moved every child it has passed, and none is left once it
  ends; `wait`'s scan with `havekids = 0` has passed no child.

No process moves a child to or from `p` while `p` is in one of these scans: `fork` adds a child
to its caller only, `reparent` adds one to `initproc`, and the only `reparent` that could add
one to a waiting `initproc` needs the `wait_lock` the waiter holds.

`proc_tree` then proves that no zombie is orphaned, that `wait` frees only a zombie child after
copying out its status, and when `wait` returns `-1`.
-/

namespace Xv6

namespace Proc

open Procstate Kernel

/-- A process that has run and not exited: what a parent pointer may name. -/
def Procstate.live : Procstate → Bool
  | RUNNABLE | RUNNING | SLEEPING => true
  | _ => false

/-- A process whose `fork` has completed. -/
def Procstate.forked : Procstate → Bool
  | UNUSED | USED => false
  | _ => true

/-- The program points of `exit` before its last section. -/
def KPc.inExit : KPc → Bool
  | .exitStart _ | .reparent .. | .exitZombie _ => true
  | .wake _ _ (.reparent ..) | .wake _ _ (.exit _) => true
  | _ => false

/-- `exit` after `reparent`: the thread has no children left. -/
def KPc.reparented : KPc → Bool
  | .wake _ _ (.exit _) | .exitZombie _ => true
  | _ => false

/-- How far the scans of `exit` and `wait` by `p` have got, by where its thread is: no slot
they have passed is a child of `p`. `wait`'s scan counts only while it has found no child. -/
def ScanOk (proc : Fin NPROC → Proc) (p : Fin NPROC) : KPc → Prop
  | .reparent _ i | .waitScan _ false i => ∀ q : Fin NPROC, q.val < i → (proc q).parent ≠ some p
  | .wake _ _ (.reparent _ i) => ∀ q : Fin NPROC, q.val ≤ i → (proc q).parent ≠ some p
  | .wake _ _ (.exit _) | .exitZombie _ => ∀ q, (proc q).parent ≠ some p
  | _ => True

/-- The parent pointers, and how far the scans of `exit` and `wait` have got. -/
structure TreeInv (s : Kernel) : Prop where
  parent_live : ∀ q pp, (s.proc q).parent = some pp →
    (s.proc q).state ≠ UNUSED ∧ (s.proc pp).state.live
  has_parent : ∀ q, s.initproc ≠ some q → (s.proc q).state.forked → (s.proc q).parent ≠ none
  init_live : ∀ ip, s.initproc = some ip → s.started = true → (s.proc ip).state.live
  init_exit : ∀ ip, s.initproc = some ip → (s.kpc ip).inExit = false
  /-- `fork` sets `np->parent` before it makes `np` runnable. -/
  fork_parent : ∀ p np pid, s.kpc p = .forkRun np pid → (s.proc np).parent = some p
  scan : ∀ p, ScanOk s.proc p (s.kpc p)

variable {s t : Kernel}

/-! ### The scans -/

section Scan

variable {f g : Fin NPROC → Proc} {p : Fin NPROC} {k k' : KPc}

/-- Progress of a scan survives any change that gives `p` no new child. -/
theorem ScanOk.mono (h : ScanOk f p k)
    (hpar : ∀ q, (g q).parent = some p → (f q).parent = some p) : ScanOk g p k := by
  cases k <;> try trivial
  case reparent => exact fun q hq hp => h q hq (hpar q hp)
  case exitZombie => exact fun q hp => h q (hpar q hp)
  case waitScan havekids _ =>
    cases havekids
    · exact fun q hq hp => h q hq (hpar q hp)
    · trivial
  case wake k =>
    cases k
    · exact fun q hq hp => h q hq (hpar q hp)
    · exact fun q hp => h q (hpar q hp)
    · trivial

@[simp] theorem scanOk_wake {ch ch' : Chan} {j j' : ℕ} {k : WakeCont} :
    ScanOk f p (.wake ch j k) ↔ ScanOk f p (.wake ch' j' k) := by
  cases k <;> rfl

/-- Only `exit` and a `wait` that holds `wait_lock` have a scan in progress. -/
theorem ScanOk.of_not_scanning (hk : k.inExit = false) (hw : k.holdsWait = false) :
    ScanOk f p k := by
  cases k <;> try trivial
  case wake k => cases k <;> trivial

/-- A move of the thread of `p` keeps its scans' progress: each slot it passes is not a child
of `p`, and `reparent` ends only after its last slot. -/
theorem Next.scanOk {s : Kernel} (hn : Next s p k k') (h : ScanOk s.proc p k) :
    ScanOk s.proc p k' := by
  cases hn <;> try trivial
  case reparentNext i hi hp =>
    intro q hq
    rcases Nat.lt_succ_iff_lt_or_eq.mp hq with hq | hq
    · exact h q hq
    · obtain rfl : q = ⟨i, hi⟩ := Fin.ext hq
      exact hp
  case reparentEnd i hi => exact fun q => h q (lt_of_lt_of_le q.isLt hi)
  case wakeSelf => exact scanOk_wake.mp h
  case wakeEnd k _ =>
    cases k
    · exact fun q hq => h q (Nat.lt_succ_iff.mp hq)
    · exact h
    · trivial
  case waitNext havekids i hi hp =>
    cases havekids
    · intro q hq
      rcases Nat.lt_succ_iff_lt_or_eq.mp hq with hq | hq
      · exact h q hq
      · obtain rfl : q = ⟨i, hi⟩ := Fin.ext hq
        exact hp
    · trivial

end Scan

section Exit

variable {k k' : KPc}

theorem KPc.inExit_of_idle (h : k.idle) : k.inExit = false := by
  cases k <;> simp_all [KPc.idle, KPc.inExit]

@[simp] theorem KPc.inExit_wake {ch ch' : Chan} {j j' : ℕ} {k : WakeCont} :
    (KPc.wake ch j k).inExit = (KPc.wake ch' j' k).inExit := by
  cases k <;> rfl

/-- A move of `initproc` never enters `exit`: `exit` of `initproc` panics. -/
theorem Next.inExit_eq_false {s : Kernel} {p : Fin NPROC} (hn : Next s p k k')
    (hinit : s.initproc = some p) (hk : k.inExit = false) : k'.inExit = false := by
  cases hn <;> try rfl
  case exit hne => exact absurd hinit hne
  case reparentNext | reparentEnd => simp [KPc.inExit] at hk
  case wakeSelf => rwa [KPc.inExit_wake]
  case wakeEnd k _ => cases k <;> simp_all [KPc.inExit, WakeCont.next]

end Exit

namespace TreeInv

/-- After `reparent`, `p` has no children. -/
theorem exit_done (ht : TreeInv s) {p : Fin NPROC} (hk : (s.kpc p).reparented) (q : Fin NPROC) :
    (s.proc q).parent ≠ some p := by
  have hs := ht.scan p
  cases hkp : s.kpc p <;> rw [hkp] at hs hk <;> simp [KPc.reparented] at hk
  case wake k =>
    cases k <;> simp at hk
    exact hs q
  case exitZombie => exact hs q

/-! ### One section keeps the invariant, field by field -/

section Step

variable (hi : SchedInv s) (ht : TreeInv s) (h : Trans s t)
include hi ht h

theorem parent_live_trans (q pp : Fin NPROC) (hq : (t.proc q).parent = some pp) :
    (t.proc q).state ≠ UNUSED ∧ (t.proc pp).state.live := by
  have hrun := hi.run_running
  have hcopied := hi.fork_copied
  have halloc := hi.fork_alloc
  have hlive := ht.parent_live
  have hinit := ht.init_live
  have hdone := fun p => ht.exit_done (p := p)
  have hfp := ht.fork_parent
  cases h <;> simp [Function.update_apply, free] at hq ⊢ <;>
    grind [Active, Procstate.live, KPc.reparented, firstUnused_state]

theorem has_parent_trans (q : Fin NPROC) (hq : t.initproc ≠ some q)
    (hf : (t.proc q).state.forked) : (t.proc q).parent ≠ none := by
  have hrun := hi.run_running
  have hparent := ht.has_parent
  have hfp := ht.fork_parent
  have hstart := hi.init_started
  cases h <;> simp [Function.update_apply, free] at hq hf ⊢ <;>
    grind [Active, Procstate.forked]

theorem init_live_trans (ip : Fin NPROC) (hip : t.initproc = some ip) (hs : t.started = true) :
    (t.proc ip).state.live := by
  have hrun := hi.run_running
  have hstart := hi.init_started
  have hinit := ht.init_live
  have hexit := ht.init_exit
  have halloc := hi.fork_alloc
  cases h <;> simp [Function.update_apply, free] at hip hs ⊢ <;>
    grind [Active, Procstate.live, KPc.inExit]

theorem init_exit_trans (ip : Fin NPROC) (hip : t.initproc = some ip) :
    (t.kpc ip).inExit = false := by
  have hexit := ht.init_exit
  cases h
  case allocInit p _ hp =>
    -- the slot `userinit` takes has no thread yet
    obtain rfl : p = ip := Option.some.inj hip
    have ht0 := hi.thread p
    rw [firstUnused_state hp] at ht0
    exact KPc.inExit_of_idle ht0.1
  case goto p k _ _ hn =>
    by_cases e : ip = p
    · subst e
      simpa using hn.inExit_eq_false hip (hexit ip hip)
    · simpa [Function.update_of_ne e] using hexit ip hip
  case wakeOne p j _ _ _ _ hk _ _ =>
    by_cases e : ip = p
    · subst e
      have := hexit ip hip
      rw [hk] at this
      simpa using (KPc.inExit_wake.trans this)
    · simpa [Function.update_of_ne e] using hexit ip hip
  all_goals
    simp [Function.update_apply, free] at hip ⊢
    grind [Active, KPc.inExit]

theorem fork_parent_trans (p np : Fin NPROC) (pid : ℤ) (hk : t.kpc p = .forkRun np pid) :
    (t.proc np).parent = some p := by
  have hfp := ht.fork_parent
  have hcopied := hi.fork_copied
  have halloc := hi.fork_alloc
  have huniq := hi.fork_unique
  cases h
  case goto p' k _ _ hn =>
    -- no move enters `fork` after `allocproc`
    by_cases e : p = p'
    · subst e
      simp only [Kernel.goto, Function.update_self] at hk
      have hnone := hn.forkChild_eq_none.2
      rw [hk] at hnone
      cases hnone
    · simp only [Kernel.goto, Function.update_of_ne e] at hk
      exact hfp p np pid hk
  all_goals
    simp [Function.update_apply, free] at hk ⊢
    grind [Active, KPc.forkChild]

theorem scan_trans (p : Fin NPROC) : ScanOk t.proc p (t.kpc p) := by
  have hs := ht.scan p
  cases h
  case goto p' k _ _ hn =>
    by_cases e : p = p'
    · subst e
      simpa using hn.scanOk hs
    · simpa [Function.update_of_ne e] using hs
  case exitStart p' _ _ _ _ _ =>
    by_cases e : p = p'
    · subst e
      simp [ScanOk]
    · simpa [Function.update_of_ne e] using hs
  case waitStart p' _ _ _ _ _ =>
    by_cases e : p = p'
    · subst e
      simp [ScanOk]
    · simpa [Function.update_of_ne e] using hs
  case wakeOne p' j chan _ _ _ hk _ _ =>
    -- a wakeup changes no parent pointer
    have hpar : ∀ q, ((s.wakeOne j chan).proc q).parent = (s.proc q).parent := fun q => by
      by_cases eq : q = j
      · subst eq
        simp
      · simp [Function.update_of_ne eq]
    by_cases e : p = p'
    · subst e
      rw [hk] at hs
      simp only [Kernel.goto, Function.update_self]
      exact scanOk_wake.mp (hs.mono (fun q hq => by rwa [hpar] at hq))
    · simp only [Kernel.goto, Function.update_of_ne e]
      exact hs.mono (fun q hq => by rwa [hpar] at hq)
  case reparentChild p' i st _ _ hk _ =>
    -- the child goes to `initproc`, which is not in `exit` and holds no `wait_lock` then
    have hne : s.initproc ≠ some p' := fun hip => by
      have := ht.init_exit p' hip
      rw [hk] at this
      cases this
    by_cases e : p = p'
    · subst e
      rw [hk] at hs
      simp only [Kernel.reparentChild, Kernel.goto, Kernel.setProc, Function.update_self]
      intro q hq
      by_cases eq : q = i
      · subst eq
        simpa using hne
      · rw [Function.update_of_ne eq]
        exact hs q (lt_of_le_of_ne hq (fun h => eq (Fin.ext h)))
    · simp only [Kernel.reparentChild, Kernel.goto, Kernel.setProc, Function.update_of_ne e]
      by_cases hip : s.initproc = some p
      · refine ScanOk.of_not_scanning (ht.init_exit p hip) ?_
        cases hw : (s.kpc p).holdsWait
        · rfl
        · exact absurd (hi.holdsWait_unique hw (by rw [hk]; rfl)) e
      · refine hs.mono (fun q hq => ?_)
        by_cases eq : q = i
        · subst eq
          simp only [Function.update_self] at hq
          exact absurd hq hip
        · rwa [Function.update_of_ne eq] at hq
  all_goals
    simp [Function.update_apply, free]
    try split_ifs
    all_goals first
      | trivial
      | exact hs
      | exact hs.mono (fun q hq => by grind)

end Step

/-- Every atomic section keeps `TreeInv`. -/
theorem trans (hi : SchedInv s) (ht : TreeInv s) (h : Trans s t) : TreeInv t where
  parent_live := ht.parent_live_trans hi h
  has_parent := ht.has_parent_trans hi h
  init_live := ht.init_live_trans hi h
  init_exit := ht.init_exit_trans hi h
  fork_parent := ht.fork_parent_trans hi h
  scan := ht.scan_trans hi h

end TreeInv

theorem treeInv_boot : TreeInv boot where
  parent_live _ _ h := by simp [boot, free] at h
  has_parent _ _ h := by simp [boot, free, Procstate.forked] at h
  init_live _ h := by simp [boot] at h
  init_exit _ h := by simp [boot] at h
  fork_parent _ _ _ h := by simp [boot] at h
  scan _ := trivial

theorem treeInv_of_reachable (hs : Reachable s) : TreeInv s :=
  Reachable.invariant treeInv_boot
    (fun _ _ hr ht h => ht.trans (schedInv_of_reachable hr) h) hs

/-! ### Process ids -/

/-- `allocpid` counts up from 1 and `freeproc` zeroes the pid: no pid is negative. -/
def PidNonneg (s : Kernel) : Prop :=
  0 ≤ s.nextpid ∧ ∀ q, 0 ≤ (s.proc q).pid

theorem PidNonneg.trans (hp : PidNonneg s) (h : Trans s t) : PidNonneg t := by
  obtain ⟨hnext, hpid⟩ := hp
  refine ⟨?_, fun q => ?_⟩
  · cases h <;> simp <;> omega
  · cases h <;> simp [Function.update_apply, free] <;> grind

theorem pidNonneg_of_reachable (hs : Reachable s) : PidNonneg s :=
  Reachable.invariant (I := PidNonneg) ⟨by decide, fun _ => le_refl 0⟩
    (fun _ _ _ hp h => hp.trans h) hs

/-! ### What `wait` does -/

section Wait

variable (hi : SchedInv s) (h : Trans s t)
include hi h

/-- A zombie is freed only by `wait` of its parent, which copies out its status when `addr`
is not 0 and returns its pid. -/
theorem zombie_freed {z : Fin NPROC} (hz : (s.proc z).state = ZOMBIE)
    (hz' : (t.proc z).state = UNUSED) :
    ∃ p addr havekids, s.kpc p = .waitScan addr havekids z.val ∧
      (s.proc z).parent = some p ∧ t.kpc p = .ret (s.proc z).pid ∧
      t.copied = if addr ≠ 0 then s.copied ++ [(p, addr, (s.proc z).xstate)] else s.copied := by
  have halloc := hi.fork_alloc
  cases h
  case reap p i addr havekids _ _ hk hp _ _ =>
    by_cases e : z = i
    · subst e
      exact ⟨p, addr, havekids, hk, hp, by simp, by simp⟩
    · simp [Function.update_of_ne e, hz] at hz'
  all_goals
    simp [Function.update_apply, free] at hz'
    grind

/-- `wait` returns `-1` only when its caller has no children, is killed, or has a zombie child
whose status it could not copy out to `addr`, which then stays in the table. -/
theorem wait_fail {p : Fin NPROC} {addr : ℕ} {havekids : Bool} {i : ℕ} (ht : TreeInv s)
    (hpid : PidNonneg s) (hk : s.kpc p = .waitScan addr havekids i) (hr : t.kpc p = .ret (-1)) :
    (∀ z, (s.proc z).parent ≠ some p) ∨ (s.proc p).killed = true ∨
      (addr ≠ 0 ∧ ∃ z, (s.proc z).parent = some p ∧ (s.proc z).state = ZOMBIE ∧
        t.proc = s.proc) := by
  have halloc := hi.fork_alloc
  cases h
  case goto p' k _ _ hn =>
    -- the moves of the scan go on scanning or to `sleep`
    by_cases e : p = p'
    · subst e
      simp only [Kernel.goto, Function.update_self] at hr
      subst hr
      rw [hk] at hn
      cases hn
    · simp [Function.update_of_ne e, hk] at hr
  case waitCopyFail p' i' addr' _ _ _ hk' hp hl hz haddr =>
    by_cases e : p = p'
    · subst e
      rw [hk] at hk'
      obtain ⟨rfl, -, -⟩ := KPc.waitScan.inj hk'
      exact .inr (.inr ⟨haddr, i', hp, hz, rfl⟩)
    · simp [Function.update_of_ne e, hk] at hr
  case reap p' i' _ _ _ _ hk' _ _ hz =>
    -- a reaped child's pid is positive
    by_cases e : p = p'
    · subst e
      have := hpid.2 i'
      simp only [Kernel.reap, Kernel.goto, Function.update_self, KPc.ret.injEq] at hr
      omega
    · simp [Function.update_of_ne e, hk] at hr
  case waitNoKids p' _ i' _ _ hk' hi' =>
    by_cases e : p = p'
    · subst e
      have hs := ht.scan p
      rw [hk'] at hs
      exact .inl (fun z => hs z (lt_of_lt_of_le z.isLt hi'))
    · simp [Function.update_of_ne e, hk] at hr
  case waitKilled p' _ _ _ _ hk' _ _ hkill =>
    by_cases e : p = p'
    · subst e
      exact .inr (.inl hkill)
    · simp [Function.update_of_ne e, hk] at hr
  all_goals
    simp [Function.update_apply] at hr
    grind [KPc.idle]

end Wait

/-- **The process tree.** In every reachable state of the process table, every process other
than `initproc` whose `fork` has completed has a parent that is neither `UNUSED` nor a zombie.
A step frees a zombie only as `wait` of its parent, which copies out exactly its status (when
`addr` is not 0) and returns its pid; and `wait` returns `-1` only when its caller has no
children, is killed, or could not copy out a zombie child's status, which then stays. -/
theorem proc_tree (hs : Reachable s) :
    (∀ q, s.initproc ≠ some q → (s.proc q).state.forked →
      ∃ pp, (s.proc q).parent = some pp ∧ (s.proc pp).state ≠ UNUSED ∧
        (s.proc pp).state ≠ ZOMBIE) ∧
    (∀ a t z, s.step a = some t → (s.proc z).state = ZOMBIE → (t.proc z).state = UNUSED →
      ∃ p addr havekids, s.kpc p = .waitScan addr havekids z.val ∧
        (s.proc z).parent = some p ∧ t.kpc p = .ret (s.proc z).pid ∧
        t.copied = if addr ≠ 0 then s.copied ++ [(p, addr, (s.proc z).xstate)] else s.copied) ∧
    (∀ a t p addr havekids i, s.step a = some t → s.kpc p = .waitScan addr havekids i →
      t.kpc p = .ret (-1) →
      (∀ z, (s.proc z).parent ≠ some p) ∨ (s.proc p).killed = true ∨
        (addr ≠ 0 ∧ ∃ z, (s.proc z).parent = some p ∧ (s.proc z).state = ZOMBIE ∧
          t.proc = s.proc)) := by
  have hi := schedInv_of_reachable hs
  have ht := treeInv_of_reachable hs
  refine ⟨fun q hq hf => ?_, fun a t z h hz hz' => zombie_freed hi (step_trans h) hz hz',
    fun a t p addr havekids i h hk hr =>
      wait_fail hi (step_trans h) ht (pidNonneg_of_reachable hs) hk hr⟩
  obtain ⟨pp, hpp⟩ := Option.ne_none_iff_exists'.mp (ht.has_parent q hq hf)
  have hlive := (ht.parent_live q pp hpp).2
  refine ⟨pp, hpp, ?_, ?_⟩ <;> intro he <;> rw [he] at hlive <;> cases hlive

end Proc

end Xv6
