import Xv6.Exec.Stack

/-!
# `exec` is total and atomic

`exec` builds the new image in a table of its own and touches the process only in the commit
after the last `goto bad`. The stages before it keep `Inv` on every exit (`loadSegs_ends`,
`stack_ends`), so the cleanup `proc_freepagetable(pagetable, sz)` meets a table in the layout of
the size it is given and gives back every page `proc_pagetable` and the stages took
(`Uvm.proc_freepagetable_eq`). On success the old table, in the layout of the old size, is freed
the same way.

Nothing panics. `loadseg`'s `walkaddr` finds every page below the size (`UserBelow`), and
`walk` and `mappages` would panic only above the trapframe, where a pool of the pages from
`KERNBASE` to `PHYSTOP` never lets the image reach (`Uvm.room_of_pool`).
-/

namespace Xv6.Exec

open Uvm
open PageTable (PTE_R PTE_W PTE_X PTE_V)

/-- The calls on the file system that release what `exec` took: where `namei` found nothing,
the transaction ends; a file found is locked, and then unlocked and put before the transaction
ends. -/
def fsCalls : Option (List UInt8) → List Call
  | none => [.begin_op, .namei, .end_op]
  | some _ => [.begin_op, .namei, .ilock, .iunlockput, .end_op]

/-- **`exec` is total and atomic.** For a process whose table has the layout of its size and a
pool no larger than the pages from `KERNBASE` to `PHYSTOP`, `exec` of any file and any `argv`
does not panic, releases the inode and the transaction, and either returns `-1` with the process
and the pool as they were, or returns `argc` with a new image in the layout of its size, having
freed the old one: no page is lost. -/
theorem exec_total_atomic (p : Proc) (hp : Layout p.pagetable p.sz) (free : ℕ)
    (hfree : free ≤ (PHYSTOP - KERNBASE) / PGSIZE) (file : Option (List UInt8)) (path : CStr)
    (argv : List CStr) :
    ∃ r, exec p free file path argv = some r ∧ r.calls = fsCalls file ∧
      (r.ret = -1 ∧ r.proc = p ∧ r.free = free ∨
        r.ret = argv.length ∧ Layout r.proc.pagetable r.proc.sz ∧
          r.free + owned r.proc.pagetable r.proc.sz = free + owned p.pagetable p.sz) := by
  cases file with
  | none => exact ⟨_, rfl, rfl, .inl ⟨rfl, rfl, rfl⟩⟩
  | some f =>
    unfold exec
    dsimp only
    -- a short header or a bad magic number: `goto bad` before any page is taken
    split_ifs
    · exact ⟨_, rfl, rfl, .inl ⟨rfl, rfl, rfl⟩⟩
    · exact ⟨_, rfl, rfl, .inl ⟨rfl, rfl, rfl⟩⟩
    rcases proc_pagetable_spec free with h0 | ⟨pt, F, hpt, hl, hacc⟩
    · rw [h0]
      exact ⟨_, rfl, rfl, .inl ⟨rfl, rfl, rfl⟩⟩
    rw [hpt]
    dsimp only
    have hinv : Inv free ⟨pt, F, 0⟩ := ⟨hl, hacc⟩
    have hU : UserBelow pt 0 := fun pg hpg => absurd hpg (by simp [show PGROUNDUP 0 = 0 from rfl])
    obtain ⟨r, hr, hq⟩ := (loadSegs_ends hfree f _ hinv hU).bind (f := fun img => stack img argv)
      (Q := fun r => Inv free r.1 ∧ r.2.2 = argv.length)
      fun img h => (stack_ends hfree h.1 h.2 argv).mono (fun _ h' => ⟨h'.1, h'.2.argc⟩) fun _ => id
    rw [hr]
    cases r with
    | error img =>
      -- `goto bad`: the new table freed with the size reached
      dsimp only
      rw [proc_freepagetable_eq hq.layout]
      exact ⟨_, rfl, rfl, .inl ⟨rfl, rfl, hq.acct⟩⟩
    | ok res =>
      -- the commit, and the old table freed
      obtain ⟨img, sp, argc⟩ := res
      obtain ⟨hinv', hb⟩ := hq
      have hacc' := hinv'.acct
      dsimp only
      rw [proc_freepagetable_eq hp]
      refine ⟨_, rfl, rfl, .inr ⟨congrArg Nat.cast hb, hinv'.layout, ?_⟩⟩
      dsimp only at hacc' ⊢
      omega

/-- The table `proc_pagetable` builds: the trampoline and the trapframe mapped, nothing below. -/
def trampolineTable : Pagetable :=
  ⟨Function.update (Function.update (fun _ => 0) (TRAMPOLINE / PGSIZE) (PTE_R ||| PTE_X ||| PTE_V))
    (TRAPFRAME / PGSIZE) (PTE_R ||| PTE_W ||| PTE_V), {dir TRAMPOLINE}, {tbl TRAMPOLINE}, fun _ => 0⟩

theorem layout_trampolineTable : Layout trampolineTable 0 := by
  have hT : TRAPFRAME / PGSIZE ≠ TRAMPOLINE / PGSIZE := by decide
  refine ⟨Nat.zero_le _, fun pg hk => ?_, fun pg hk => ?_⟩
  · rcases hk with h | rfl | rfl
    · exact absurd h (by simp [show PGROUNDUP 0 = 0 from rfl])
    · exact ⟨by decide, by decide, by decide, by decide⟩
    · exact ⟨by decide, by decide, by decide, by decide⟩
  · simp only [Kept, not_or] at hk
    show Function.update (Function.update (fun _ => (0 : UInt64)) (TRAMPOLINE / PGSIZE)
      (PTE_R ||| PTE_X ||| PTE_V)) (TRAPFRAME / PGSIZE) (PTE_R ||| PTE_W ||| PTE_V) pg &&& PTE_V = 0
    rw [Function.update_of_ne hk.2.1, Function.update_of_ne hk.2.2]
    exact UInt64.zero_and

/-- `exec` by a process of size `0` with the table `proc_pagetable` builds, of a file `namei`
does not find. -/
theorem exec_total_atomic_missing :
    Layout trampolineTable 0 ∧ 12 ≤ (PHYSTOP - KERNBASE) / PGSIZE ∧
      ∃ r, exec ⟨trampolineTable, 0, ⟨0, 0, 0⟩, fun _ => 0⟩ 12 none ⟨[47, 97], by decide⟩ [] = some r ∧
        r.calls = fsCalls none ∧
        (r.ret = -1 ∧ r.proc = ⟨trampolineTable, 0, ⟨0, 0, 0⟩, fun _ => 0⟩ ∧ r.free = 12 ∨
          r.ret = (([] : List CStr).length : ℤ) ∧ Layout r.proc.pagetable r.proc.sz ∧
            r.free + owned r.proc.pagetable r.proc.sz = 12 + owned trampolineTable 0) :=
  ⟨layout_trampolineTable, by decide,
    exec_total_atomic ⟨trampolineTable, 0, ⟨0, 0, 0⟩, fun _ => 0⟩ layout_trampolineTable 12
      (by decide) none _ []⟩

end Xv6.Exec
