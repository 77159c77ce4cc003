import Xv6.Proc.Sched

/-!
# kill

`kill(pid)` scans `proc[]` and marks the first slot whose `pid` matches, whatever its state:

    if(p->pid == pid){
      p->killed = 1;
      if(p->state == SLEEPING)
        p->state = RUNNABLE;
      release(&p->lock);
      return 0;
    }

* `freePid_of_reachable`: a free slot has `pid = 0`, as `freeproc` zeroes it and `allocproc`
  sets it only as the slot becomes `USED`.
* `kill_hit_live`: so for `pid ≠ 0` a `kill` that returns 0 has just marked a live process with
  that pid, and changed nothing of the table but that process's `killed` and a `SLEEPING` state.
* `kill_zero_marks_free_slot`: `kill(0)`, which the `kill` utility makes for an argument that is
  not a number (`atoi` returns 0), matches the first free slot instead, returns 0 and leaves
  `killed = 1` there. `allocproc` does not clear `killed`, so the next `fork` hands that slot out
  as a child that is killed before it has run.
-/

namespace Xv6

namespace Proc

open Procstate Kernel

variable {s t : Kernel}

/-- Every free slot has `pid = 0`. -/
def FreePid (s : Kernel) : Prop :=
  ∀ q, (s.proc q).state = UNUSED → (s.proc q).pid = 0

theorem FreePid.trans (hf : FreePid s) (h : Trans s t) : FreePid t := by
  unfold FreePid at hf
  intro q hq
  cases h <;> simp [Function.update_apply, free] at hq ⊢ <;> grind

theorem freePid_of_reachable (hs : Reachable s) : FreePid s :=
  Reachable.invariant (I := FreePid) (fun _ _ => rfl) (fun _ _ _ hf h => hf.trans h) hs

/-- A step that ends `p`'s `kill(pid)` scan with 0 is its hit at `proc[i]`: `p` was at slot `i`
of the scan, and the slot's `pid` was `pid`. The table changes only there. -/
theorem kill_ret_zero {p : Fin NPROC} {pid : ℤ} {i : ℕ} (hi : SchedInv s)
    (hk : s.kpc p = .killScan pid i) (h : Trans s t) (hr : t.kpc p = .ret 0) :
    ∃ q : Fin NPROC, q.val = i ∧ (s.proc q).pid = pid ∧
      t.proc = Function.update s.proc q
        { s.proc q with
          killed := true
          state := if (s.proc q).state = SLEEPING then RUNNABLE else (s.proc q).state } := by
  cases h
  case goto p' k _ _ hn =>
    -- a move of the scan goes to its next slot or returns -1
    by_cases e : p = p'
    · subst e
      rw [hk] at hn
      simp only [Kernel.goto, Function.update_self] at hr
      subst hr
      cases hn
    · simp [Function.update_of_ne e, hk] at hr
  case forkCopy p' np _ _ hk' =>
    -- the child that `fork` sets at `forkret` has no thread yet, so it is not `p`
    have hidle := (hi.fork_alloc p' np hk').2.1
    have hne : p ≠ np := fun e => by
      rw [← e, hk] at hidle
      cases hidle
    simp [Function.update_of_ne hne, Function.update_apply, hk] at hr
    split_ifs at hr
  case killHit p' q pid' _ _ hk' _ hpid =>
    by_cases e : p = p'
    · subst e
      rw [hk] at hk'
      obtain ⟨rfl, rfl⟩ := KPc.killScan.inj hk'
      exact ⟨q, rfl, hpid, rfl⟩
    · simp [Function.update_of_ne e, hk] at hr
  all_goals
    simp [Function.update_apply] at hr
    grind

/-- **`kill` of a nonzero pid hits only a live process.** In every reachable state, a step
that ends a `kill(pid)` with `pid ≠ 0` returning 0 has marked a process that is not `UNUSED`
and has that pid, and has changed nothing of the table but its `killed` flag and, if it slept,
its state. -/
theorem kill_hit_live {p : Fin NPROC} {pid : ℤ} {i : ℕ} {a : Act} (hs : Reachable s)
    (hk : s.kpc p = .killScan pid i) (hpid : pid ≠ 0) (h : s.step a = some t)
    (hr : t.kpc p = .ret 0) :
    ∃ q : Fin NPROC, q.val = i ∧ (s.proc q).state ≠ UNUSED ∧ (s.proc q).pid = pid ∧
      t.proc = Function.update s.proc q
        { s.proc q with
          killed := true
          state := if (s.proc q).state = SLEEPING then RUNNABLE else (s.proc q).state } := by
  obtain ⟨q, hq, hqpid, ht⟩ := kill_ret_zero (schedInv_of_reachable hs) hk (step_trans h) hr
  refine ⟨q, hq, fun hu => hpid ?_, hqpid, ht⟩
  rw [← hqpid, freePid_of_reachable hs q hu]

theorem kill_hit_live_pid_one :
    ∃ s t, Reachable s ∧ s.kpc 0 = .killScan 1 0 ∧ s.step (.step 0 true) = some t ∧
      t.kpc 0 = .ret 0 ∧ (s.proc 0).state ≠ UNUSED ∧ (s.proc 0).pid = 1 := by
  refine ⟨_, _, @Reach.Reachable.of_run _ _ (· = boot) Kernel.step (fun _ => True) boot _
    [.userinit, .userinit, .step 0 true, .step 0 true, .call 0 (.kill 1)] rfl (by simp) rfl,
    rfl, rfl, rfl, ?_, rfl⟩
  obtain ⟨q, hq, hlive, -⟩ := @kill_hit_live _ _ 0 1 0 (.step 0 true)
    (@Reach.Reachable.of_run _ _ (· = boot) Kernel.step (fun _ => True) boot _
      [.userinit, .userinit, .step 0 true, .step 0 true, .call 0 (.kill 1)] rfl (by simp) rfl)
    rfl (by decide) rfl rfl
  obtain rfl : q = 0 := Fin.ext hq
  exact hlive

/-- **`kill(0)` marks a free slot, and `fork` hands it out killed.** After `userinit`, `initproc`
(slot 0, pid 1) runs on CPU 0 and no live process has pid 0. It calls `kill(0)`: the scan
passes slot 0 and matches the free slot 1, whose `pid` is 0, sets its `killed` and returns 0.
It then calls `fork`, whose `allocproc` takes slot 1 and keeps `killed = 1`. -/
theorem kill_zero_marks_free_slot :
    ∃ s t u, Reachable s ∧ s.kpc 0 = .user ∧
      (∀ q, (s.proc q).state ≠ UNUSED → (s.proc q).pid ≠ 0) ∧
      Reach.run Kernel.step s [.call 0 (.kill 0), .step 0 true, .step 0 true] = some t ∧
      t.kpc 0 = .ret 0 ∧ (t.proc 1).state = UNUSED ∧ (t.proc 1).killed = true ∧
      Reach.run Kernel.step t [.step 0 true, .call 0 .fork, .step 0 true, .step 0 true] =
        some u ∧
      u.kpc 0 = .allocated 1 ∧ (u.proc 1).state = USED ∧ (u.proc 1).killed = true :=
  ⟨_, _, _, @Reach.Reachable.of_run _ _ (· = boot) Kernel.step (fun _ => True) boot _
    [.userinit, .userinit, .step 0 true, .step 0 true] rfl (by simp) rfl,
    rfl, by decide, rfl, rfl, rfl, rfl, rfl, rfl, rfl, rfl⟩

end Proc

end Xv6
