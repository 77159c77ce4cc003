import Xv6.File.Refs

/-!
# Every call keeps the file table's account (`sysfile.c`, `pipe.c`, `proc.c`)

Each system call is proved from its parts' specs in `Refs`: from a well-formed table whose
`ref`s are exactly the descriptors (`Wf s` and `Held s 0`), it does not panic and leaves such a
table again. Within a call the ledger runs ahead or behind: `filealloc` takes a reference that
`fdalloc` hands to a descriptor, `sys_dup` installs a descriptor before its `filedup`, and
`sys_close` and `exit` clear a descriptor and `fileclose` gives its reference back.

* `step_spec`: every enabled step keeps the invariant, and only `fork` into a slot with open
  descriptors is not enabled; `exitFiles_spec` shows `exit` leaves every descriptor closed.
* `reachable_inv`: the invariant holds in every state reached from boot, and the results about
  reachable states follow from it.
-/

namespace Xv6.Ftable

section Calls

variable {s : Sys}

/-- **`sys_dup`**: `fdalloc` installs the file in a new descriptor and `filedup` takes the
reference for it. -/
theorem sys_dup_spec (hw : Wf s) (hh : Held s 0) (p : Fin NPROC) (fd : ℤ) :
    ∃ r s', sys_dup s p fd = some (r, s') ∧ Wf s' ∧ Held s' 0 := by
  unfold sys_dup
  cases ha : argfd s p fd with
  | none => exact ⟨-1, s, rfl, hw, hh⟩
  | some a =>
    obtain ⟨i, k⟩ := a
    have hk := argfd_eq_some ha
    dsimp only
    cases hf : fdalloc s p k with
    | none => exact ⟨-1, s, rfl, hw, hh⟩
    | some b =>
      obtain ⟨fd', s₁⟩ := b
      obtain ⟨hw₁, hh₁, -, -, hfile⟩ := fdalloc_spec hw hh hf
      -- the file is in use: descriptor `i` names it
      have hpos : 0 < (s₁.file k).ref := by
        rw [hfile, hh.zero k]
        exact nfd_pos hk
      obtain ⟨s₂, hd, hw₂, hh₂, -⟩ := filedup_spec hw₁ hh₁ hpos
      refine ⟨_, s₂, by dsimp only; rw [hd]; rfl, hw₂, hh₂.congr fun j => ?_⟩
      simp only [bump, Pi.zero_apply]
      split_ifs <;> omega

/-- **`sys_close`**: the descriptor is cleared and `fileclose` gives back its reference. -/
theorem sys_close_spec (hw : Wf s) (hh : Held s 0) (p : Fin NPROC) (fd : ℤ) :
    ∃ r s', sys_close s p fd = some (r, s') ∧ Wf s' ∧ Held s' 0 := by
  unfold sys_close
  cases ha : argfd s p fd with
  | none => exact ⟨-1, s, rfl, hw, hh⟩
  | some a =>
    obtain ⟨i, k⟩ := a
    have hk := argfd_eq_some ha
    dsimp only
    have hpos : 0 < ((s.setOfile p i none).file k).ref := by
      rw [setOfile_file, hh.zero k]
      exact nfd_pos hk
    obtain ⟨s₁, hc, hw₁, hh₁, -⟩ := fileclose_spec (hw.setOfile p i none) (hh.uninstall hk) hpos
    refine ⟨0, s₁, by rw [hc]; rfl, hw₁, hh₁.congr fun j => ?_⟩
    simp only [bump, Pi.zero_apply]
    split_ifs <;> omega

/-- **The end of `sys_open`**: `filealloc` takes a free file, `fdalloc` installs it, and it gets
its inode; where `fdalloc` fails, `fileclose` frees the file again. -/
theorem openFile_spec (hw : Wf s) (hh : Held s 0) (p : Fin NPROC) (ip : ℕ) (dev : Bool)
    (omode : ℕ) : ∃ r s', openFile s p ip dev omode = some (r, s') ∧ Wf s' ∧ Held s' 0 := by
  unfold openFile
  cases ha : filealloc s with
  | none => exact ⟨-1, s, rfl, hw, hh⟩
  | some a =>
    obtain ⟨k, s₁⟩ := a
    obtain ⟨hw₁, hh₁, -, href, htype⟩ := filealloc_spec hw hh ha
    dsimp only
    cases hf : fdalloc s₁ p k with
    | none =>
      obtain ⟨s₂, hc, hw₂, hh₂, -⟩ := fileclose_spec hw₁ hh₁ (show 0 < (s₁.file k).ref by omega)
      refine ⟨-1, s₂, by rw [hc]; rfl, hw₂, hh₂.congr fun j => ?_⟩
      simp only [bump, Pi.zero_apply]
      split_ifs <;> omega
    | some b =>
      obtain ⟨fd, s₂⟩ := b
      obtain ⟨hw₂, hh₂, -, -, hfile⟩ := fdalloc_spec hw₁ hh₁ hf
      have href₂ : (s₂.file k).ref = 1 := by rw [hfile, href]
      have htype₂ : (s₂.file k).type = .none := by rw [hfile, htype]
      refine ⟨_, _, rfl, hw₂.setInode (by omega) htype₂ (by cases dev <;> simp) ip _ _, ?_⟩
      -- the type changes, no `ref` does
      refine (hh₂.of_eq (fun j => ?_) ?_).congr fun j => ?_
      · by_cases hj : j = k
        · subst hj
          simp
        · simp [hj]
      · rfl
      · simp only [bump, Pi.zero_apply]
        split_ifs <;> omega

theorem mkpipe_ref (f0 f1 j : Fin NFILE) (hne : f0 ≠ f1) :
    ((mkpipe s f0 f1).file j).ref = (s.file j).ref := by
  rw [mkpipe_file f0 f1 j hne]
  split_ifs with h1 h0
  · rw [h1]
  · rw [h0]
  · rfl

/-- **`pipealloc`**: two files from `filealloc` and a pipe for them; where a `filealloc` or the
`kalloc` fails, the files it took are closed again. The call holds one reference of each file
it returns. -/
theorem pipealloc_spec (hw : Wf s) (hh : Held s 0) (kallocOk : Bool) :
    ∃ r s', pipealloc s kallocOk = some (r, s') ∧ Wf s' ∧ s'.ofile = s.ofile ∧
      (r = none → Held s' 0) ∧
      ∀ f0 f1, r = some (f0, f1) → f0 ≠ f1 ∧ Held s' (bump (bump 0 f0 1) f1 1) := by
  unfold pipealloc
  cases ha : filealloc s with
  | none => exact ⟨none, s, rfl, hw, rfl, fun _ => hh, fun _ _ h => by cases h⟩
  | some a =>
    obtain ⟨f0, s₁⟩ := a
    obtain ⟨hw₁, hh₁, ho₁, href₁, htype₁⟩ := filealloc_spec hw hh ha
    dsimp only
    cases hb : filealloc s₁ with
    | none =>
      obtain ⟨s₂, hc, hw₂, hh₂, ho₂⟩ := fileclose_spec hw₁ hh₁ (show 0 < (s₁.file f0).ref by omega)
      refine ⟨none, s₂, by rw [hc]; rfl, hw₂, ho₂.trans ho₁, fun _ => hh₂.congr fun j => ?_,
        fun _ _ h => by cases h⟩
      simp only [bump, Pi.zero_apply]
      split_ifs <;> omega
    | some b =>
      obtain ⟨f1, s₂⟩ := b
      have hne : f0 ≠ f1 := by
        rintro rfl
        rw [(filealloc_eq_some hb).1] at href₁
        cases href₁
      obtain ⟨hw₂, hh₂, ho₂, href₂, htype₂⟩ := filealloc_spec hw₁ hh₁ hb
      have hfile₀ : s₂.file f0 = s₁.file f0 := by
        rw [(filealloc_eq_some hb).2, setFile_file_of_ne _ hne]
      dsimp only
      cases kallocOk with
      | true =>
        refine ⟨some (f0, f1), mkpipe s₂ f0 f1, rfl,
          hw₂.newPipe hne (by rw [hfile₀]; omega) (by omega) (by rw [hfile₀]; exact htype₁) htype₂,
          ho₂.trans ho₁, (fun h => by cases h), fun _ _ h => ?_⟩
        obtain ⟨rfl, rfl⟩ := Prod.mk.inj (Option.some.inj h)
        exact ⟨hne, hh₂.of_eq (fun j => mkpipe_ref f0 f1 j hne) rfl⟩
      | false =>
        -- `bad:` closes both files
        have hpos₀ : 0 < (s₂.file f0).ref := by rw [hfile₀]; omega
        obtain ⟨s₃, hc₃, hw₃, hh₃, ho₃⟩ := fileclose_spec hw₂ hh₂ hpos₀
        have hpos₁ : 0 < (s₃.file f1).ref := hh₃.ref_pos (by simp [Ne.symm hne])
        obtain ⟨s₄, hc₄, hw₄, hh₄, ho₄⟩ := fileclose_spec hw₃ hh₃ hpos₁
        refine ⟨none, s₄, by rw [if_neg Bool.false_ne_true, hc₃, Option.bind_some, hc₄]; rfl, hw₄,
          by rw [ho₄, ho₃, ho₂, ho₁], fun _ => hh₄.congr fun j => ?_, fun _ _ h => by cases h⟩
        simp only [bump, Pi.zero_apply]
        split_ifs <;> omega

/-- `sys_pipe`'s failure paths: `fileclose(rf); fileclose(wf);` gives back the reference the
call holds of each. -/
theorem closeBoth_spec (hw : Wf s) {rf wf : Fin NFILE} (hne : rf ≠ wf)
    (hh : Held s (bump (bump 0 rf 1) wf 1)) :
    ∃ s', ((fileclose s rf).bind fun s => fileclose s wf) = some s' ∧ Wf s' ∧ Held s' 0 := by
  obtain ⟨s₁, hc₁, hw₁, hh₁, -⟩ := fileclose_spec hw hh
    (hh.ref_pos (show 0 < bump (bump 0 rf 1) wf 1 rf by simp [hne]))
  obtain ⟨s₂, hc₂, hw₂, hh₂, -⟩ := fileclose_spec hw₁ hh₁
    (hh₁.ref_pos (show 0 < bump (bump (bump 0 rf 1) wf 1) rf (-1) wf by simp [Ne.symm hne]))
  refine ⟨s₂, by rw [hc₁, Option.bind_some, hc₂], hw₂, hh₂.congr fun j => ?_⟩
  simp only [bump, Pi.zero_apply]
  split_ifs <;> omega

/-- **`sys_pipe`**: `pipealloc`, then a descriptor for each end; where a `fdalloc` or the
`copyout` fails, the descriptors are cleared and both files closed. -/
theorem sys_pipe_spec (hw : Wf s) (hh : Held s 0) (p : Fin NPROC) (kallocOk copyoutOk : Bool) :
    ∃ r s', sys_pipe s p kallocOk copyoutOk = some (r, s') ∧ Wf s' ∧ Held s' 0 := by
  obtain ⟨r, s₁, hpa, hw₁, -, hr⟩ := pipealloc_spec hw hh kallocOk
  unfold sys_pipe
  rw [hpa]
  rcases r with _ | ⟨rf, wf⟩
  · exact ⟨-1, s₁, rfl, hw₁, hr.1 rfl⟩
  obtain ⟨hne, hh₁⟩ := hr.2 rf wf rfl
  dsimp only
  cases h₀ : fdalloc s₁ p rf with
  | none =>
    obtain ⟨s', hc, hw', hh'⟩ := closeBoth_spec hw₁ hne hh₁
    exact ⟨-1, s', by rw [hc]; rfl, hw', hh'⟩
  | some a =>
    obtain ⟨fd0, s₂⟩ := a
    obtain ⟨hw₂, hh₂, -, hfd0, -⟩ := fdalloc_spec hw₁ hh₁ h₀
    dsimp only
    cases h₁ : fdalloc s₂ p wf with
    | none =>
      -- `p->ofile[fd0] = 0`, then both files closed
      obtain ⟨s', hc, hw', hh'⟩ := closeBoth_spec (hw₂.setOfile p fd0 none) hne
        ((hh₂.uninstall hfd0).congr fun j => by
          simp only [bump, Pi.zero_apply]
          split_ifs <;> omega)
      exact ⟨-1, s', by rw [hc]; rfl, hw', hh'⟩
    | some b =>
      obtain ⟨fd1, s₃⟩ := b
      obtain ⟨hw₃, hh₃, hfree1, hfd1, -⟩ := fdalloc_spec hw₂ hh₂ h₁
      have hne01 : fd0 ≠ fd1 := fun h => by rw [h, hfree1] at hfd0; cases hfd0
      dsimp only
      cases copyoutOk with
      | true =>
        refine ⟨0, s₃, rfl, hw₃, hh₃.congr fun j => ?_⟩
        simp only [bump, Pi.zero_apply]
        split_ifs <;> omega
      | false =>
        -- both descriptors cleared, both files closed
        have hfd0' : s₃.ofile p fd0 = some rf := by
          rw [(fdalloc_eq_some h₁).2, setOfile_ofile, if_neg fun h => hne01 h.2, hfd0]
        have hfd1' : (s₃.setOfile p fd0 none).ofile p fd1 = some wf := by
          rw [setOfile_ofile, if_neg fun h => hne01 h.2.symm, hfd1]
        obtain ⟨s', hc, hw', hh'⟩ := closeBoth_spec ((hw₃.setOfile p fd0 none).setOfile p fd1 none)
          hne (((hh₃.uninstall hfd0').uninstall hfd1').congr fun j => by
            simp only [bump, Pi.zero_apply]
            split_ifs <;> omega)
        exact ⟨-1, s', by rw [if_neg Bool.false_ne_true, hc]; rfl, hw', hh'⟩

/-- **`fork`'s descriptors**: each open descriptor of the parent is shared with the child by
`filedup`, into the child's descriptors, all closed before. -/
theorem forkFiles_spec (hw : Wf s) (hh : Held s 0) (p c : Fin NPROC)
    (hc : ∀ fd, s.ofile c fd = none) : ∃ s', forkFiles s p c = some s' ∧ Wf s' ∧ Held s' 0 := by
  -- after `n` descriptors: the invariant, and the child's descriptors from `n` on still closed
  let I (n : ℕ) (s' : Sys) : Prop :=
    Wf s' ∧ Held s' 0 ∧ ∀ j : Fin NOFILE, n ≤ (j : ℕ) → s'.ofile c j = none
  have hstep : ∀ n (hn : n < (List.finRange NOFILE).length) s', I n s' →
      ∃ s'', forkFile p c s' (List.finRange NOFILE)[n] = some s'' ∧ I (n + 1) s'' := by
    intro n hn s' hI
    obtain ⟨hw', hh', hfree⟩ := hI
    set i := (List.finRange NOFILE)[n] with hi
    have hin : (i : ℕ) = n := by simp [hi]
    unfold forkFile
    cases hk : s'.ofile p i with
    | none => exact ⟨s', rfl, hw', hh', fun j hj => hfree j (by omega)⟩
    | some k =>
      have hpos : 0 < (s'.file k).ref := by
        rw [hh'.zero k]
        exact nfd_pos hk
      obtain ⟨s'', hd, hw'', hh'', ho''⟩ := filedup_spec hw' hh' hpos
      have hci : s''.ofile c i = none := by rw [ho'']; exact hfree i (by omega)
      refine ⟨_, by dsimp only; rw [hd]; rfl, hw''.setOfile c i _, (hh''.install hci k).congr fun j => ?_,
        fun j hj => ?_⟩
      · simp only [bump, Pi.zero_apply]
        split_ifs <;> omega
      · rw [setOfile_ofile, if_neg fun h => by rw [h.2] at hj; omega, ho'']
        exact hfree j (by omega)
  obtain ⟨s', h, hw', hh', -⟩ :=
    Ends.foldlM_some (forkFile p c) (List.finRange NOFILE) I hstep s ⟨hw, hh, fun j _ => hc j⟩
  exact ⟨s', h, hw', hh'⟩

/-- **`exit`'s descriptors**: each open descriptor is closed, and none is left open. -/
theorem exitFiles_spec (hw : Wf s) (hh : Held s 0) (p : Fin NPROC) :
    ∃ s', exitFiles s p = some s' ∧ Wf s' ∧ Held s' 0 ∧ ∀ fd, s'.ofile p fd = none := by
  -- after `n` descriptors: the invariant, and the descriptors below `n` closed
  let I (n : ℕ) (s' : Sys) : Prop :=
    Wf s' ∧ Held s' 0 ∧ ∀ j : Fin NOFILE, (j : ℕ) < n → s'.ofile p j = none
  have hstep : ∀ n (hn : n < (List.finRange NOFILE).length) s', I n s' →
      ∃ s'', exitFile p s' (List.finRange NOFILE)[n] = some s'' ∧ I (n + 1) s'' := by
    intro n hn s' hI
    obtain ⟨hw', hh', hdone⟩ := hI
    set i := (List.finRange NOFILE)[n] with hi
    have hin : (i : ℕ) = n := by simp [hi]
    unfold exitFile
    cases hk : s'.ofile p i with
    | none =>
      refine ⟨s', rfl, hw', hh', fun j hj => ?_⟩
      by_cases hji : j = i
      · rw [hji, hk]
      · exact hdone j (by have := Fin.val_ne_of_ne hji; omega)
    | some k =>
      have hpos : 0 < (s'.file k).ref := by
        rw [hh'.zero k]
        exact nfd_pos hk
      obtain ⟨s'', hc, hw'', hh'', ho''⟩ := fileclose_spec hw' hh' hpos
      have hpi : s''.ofile p i = some k := by rw [ho'', hk]
      refine ⟨_, by dsimp only; rw [hc]; rfl, hw''.setOfile p i none, (hh''.uninstall hpi).congr fun j => ?_,
        fun j hj => ?_⟩
      · simp only [bump, Pi.zero_apply]
        split_ifs <;> omega
      · rw [setOfile_ofile]
        split_ifs with hji
        · rfl
        · rw [ho'']
          exact hdone j (by
            have : j ≠ i := fun h => hji ⟨rfl, h⟩
            have := Fin.val_ne_of_ne this
            omega)
  obtain ⟨s', h, hw', hh', hclosed⟩ := Ends.foldlM_some (exitFile p) (List.finRange NOFILE) I
    hstep s ⟨hw, hh, fun j hj => absurd hj (Nat.not_lt_zero _)⟩
  exact ⟨s', h, hw', hh', fun fd => hclosed fd (by simp)⟩

end Calls

/-! ### Steps and runs -/

/-- A step is enabled unless it is a `fork` into a slot with a descriptor still open. -/
def Op.Enabled (s : Sys) : Op → Prop
  | .fork _ c => ∀ fd, s.ofile c fd = none
  | _ => True

section Runs

variable {s s' : Sys}

/-- **Every enabled step** keeps the invariant, and never panics. -/
theorem step_spec (hw : Wf s) (hh : Held s 0) (op : Op) (hen : op.Enabled s) :
    ∃ s', step s op = some s' ∧ Wf s' ∧ Held s' 0 := by
  cases op with
  | dup p fd =>
    obtain ⟨r, s', h, hw', hh'⟩ := sys_dup_spec hw hh p fd
    exact ⟨s', by rw [step, h]; rfl, hw', hh'⟩
  | close p fd =>
    obtain ⟨r, s', h, hw', hh'⟩ := sys_close_spec hw hh p fd
    exact ⟨s', by rw [step, h]; rfl, hw', hh'⟩
  | openFile p ip dev omode =>
    obtain ⟨r, s', h, hw', hh'⟩ := openFile_spec hw hh p ip dev omode
    exact ⟨s', by rw [step, h]; rfl, hw', hh'⟩
  | pipe p kallocOk copyoutOk =>
    obtain ⟨r, s', h, hw', hh'⟩ := sys_pipe_spec hw hh p kallocOk copyoutOk
    exact ⟨s', by rw [step, h]; rfl, hw', hh'⟩
  | fork p c =>
    obtain ⟨s', h, hw', hh'⟩ := forkFiles_spec hw hh p c hen
    exact ⟨s', by rw [step, if_pos (show ∀ fd, s.ofile c fd = none from hen), h], hw', hh'⟩
  | exit p =>
    obtain ⟨s', h, hw', hh', -⟩ := exitFiles_spec hw hh p
    exact ⟨s', h, hw', hh'⟩

/-- A step that happens was enabled. -/
theorem Op.enabled_of_step {op : Op} (h : step s op = some s') : op.Enabled s := by
  cases op with
  | fork p c =>
    by_contra hen
    rw [step, if_neg (show ¬ ∀ fd, s.ofile c fd = none from hen)] at h
    cases h
  | _ => trivial

theorem step_inv (hw : Wf s) (hh : Held s 0) {op : Op} (h : step s op = some s') :
    Wf s' ∧ Held s' 0 := by
  obtain ⟨s'', h', hw', hh'⟩ := step_spec hw hh op (Op.enabled_of_step h)
  rw [h, Option.some.injEq] at h'
  subst h'
  exact ⟨hw', hh'⟩

theorem wf_init : Wf Sys.init where
  free _ _ := rfl
  ends pi w := by
    refine iff_of_false (fun h => ?_) fun h => ?_
    · obtain ⟨_, he⟩ := h
      exact Nat.lt_irrefl 0 he.1
    · obtain ⟨_, hpp, _⟩ := h
      cases hpp
  unique _ _ _ _ he := absurd he.1 (Nat.lt_irrefl 0)
  freed _ _ h := by cases h
  fresh _ _ := rfl
  iref ip := (Count.count_eq_zero.mpr fun _ ho => Nat.lt_irrefl 0 ho.1).symm

theorem held_init : Held Sys.init 0 := by
  intro k
  have h : nfd Sys.init k = 0 := Count.count_eq_zero.mpr fun _ h => by cases h
  rw [Pi.zero_apply, add_zero, h]
  rfl

/-- **The invariant of every reachable state.** -/
theorem reachable_inv (h : Reachable s) : Wf s ∧ Held s 0 :=
  Reach.Reachable.invariant (fun _ h0 => h0 ▸ ⟨wf_init, held_init⟩)
    (fun _ _ _ hi _ hst => step_inv hi.1 hi.2 hst) h

/-- A file is in use exactly when a descriptor names it. -/
theorem nfd_pos_iff {k : Fin NFILE} : 0 < nfd s k ↔ ∃ p fd, s.ofile p fd = some k := by
  constructor
  · intro h
    by_contra hn
    simp only [not_exists] at hn
    have : nfd s k = 0 := Count.count_eq_zero.mpr fun q hq => hn q.1 q.2 hq
    omega
  · rintro ⟨p, fd, hk⟩
    exact nfd_pos hk

end Runs

/-! ### What every reachable state satisfies -/

/-- A run from boot: a pipe, a `fork` that shares both ends with the child, the parent's read end
closed, and a file opened for writing by the child. -/
def demoRun : List Op := [.pipe 0 true true, .fork 0 1, .close 0 0, .openFile 1 7 false 1]

theorem demoRun_reachable : ∃ s, Reach.run step Sys.init demoRun = some s ∧ Reachable s := by
  have hs : (Reach.run step Sys.init demoRun).isSome = true := by decide
  obtain ⟨s, hr⟩ := Option.isSome_iff_exists.mp hs
  exact ⟨s, hr, Reach.Reachable.of_run rfl (fun _ _ => trivial) hr⟩

section Reachable

variable {s : Sys}

/-- **Reference counts are exact.** In every state reached from boot, each file's `ref` is the
number of descriptors, over all processes, that name it. -/
theorem ref_eq_descriptors (h : Reachable s) (k : Fin NFILE) : (s.file k).ref = nfd s k :=
  (reachable_inv h).2.zero k

theorem ref_eq_descriptors_demo :
    ∃ s, Reach.run step Sys.init demoRun = some s ∧ Reachable s ∧
      ∀ k, (s.file k).ref = nfd s k := by
  obtain ⟨s, hr, h⟩ := demoRun_reachable
  exact ⟨s, hr, h, ref_eq_descriptors h⟩

/-- **No call panics.** From every state reached from boot, `dup`, `close`, `open`, `pipe`,
`fork` into a slot with its descriptors closed, and `exit` all return: no `filedup` or
`fileclose` of a free file, and no `pipeclose` of a freed pipe. -/
theorem step_isSome (h : Reachable s) (op : Op) (hen : op.Enabled s) : (step s op).isSome := by
  obtain ⟨hw, hh⟩ := reachable_inv h
  obtain ⟨s', hs, -⟩ := step_spec hw hh op hen
  rw [hs]
  rfl

theorem step_isSome_demo :
    ∃ s, Reach.run step Sys.init demoRun = some s ∧ Reachable s ∧ (step s (.exit 1)).isSome := by
  obtain ⟨s, hr, h⟩ := demoRun_reachable
  exact ⟨s, hr, h, step_isSome h (.exit 1) trivial⟩

/-- **A pipe end is open exactly while a descriptor names it.** In every state reached from
boot, `readopen` (`w = false`) or `writeopen` (`w = true`) of pipe `pi` is set exactly when some
process has a descriptor on that end. -/
theorem pipe_end_open_iff (h : Reachable s) (pi : ℕ) (w : Bool) :
    (∃ p fd k, s.ofile p fd = some k ∧ (s.file k).type = .pipe ∧ (s.file k).pipe = pi ∧
        (s.file k).writable = w) ↔
      ∃ pp, s.pipe pi = some pp ∧ isOpen pp w = true := by
  obtain ⟨hw, hh⟩ := reachable_inv h
  rw [← hw.ends pi w]
  constructor
  · rintro ⟨p, fd, k, hk, ht, hpi, hwr⟩
    exact ⟨k, by rw [hh.zero k]; exact nfd_pos hk, ht, hpi, hwr⟩
  · rintro ⟨k, hpos, ht, hpi, hwr⟩
    rw [hh.zero k, nfd_pos_iff] at hpos
    obtain ⟨p, fd, hk⟩ := hpos
    exact ⟨p, fd, k, hk, ht, hpi, hwr⟩

theorem pipe_end_open_iff_demo :
    ∃ s, Reach.run step Sys.init demoRun = some s ∧ Reachable s ∧
      ((∃ p fd k, s.ofile p fd = some k ∧ (s.file k).type = .pipe ∧ (s.file k).pipe = 0 ∧
          (s.file k).writable = false) ↔
        ∃ pp, s.pipe 0 = some pp ∧ isOpen pp false = true) := by
  obtain ⟨s, hr, h⟩ := demoRun_reachable
  exact ⟨s, hr, h, pipe_end_open_iff h 0 false⟩

/-- **No pipe is leaked or used after it is freed.** In every state reached from boot, pipe `pi`
is allocated exactly while some descriptor names one of its ends. -/
theorem pipe_allocated_iff (h : Reachable s) (pi : ℕ) :
    (∃ pp, s.pipe pi = some pp) ↔
      ∃ p fd k, s.ofile p fd = some k ∧ (s.file k).type = .pipe ∧ (s.file k).pipe = pi := by
  obtain ⟨hw, -⟩ := reachable_inv h
  constructor
  · rintro ⟨pp, hpp⟩
    -- a pipe still allocated has an end open, which a descriptor names
    have hend : ∃ w, isOpen pp w = true := by
      rcases hw.freed pi pp hpp with hr | hwo
      · exact ⟨false, hr⟩
      · exact ⟨true, hwo⟩
    obtain ⟨w, hw'⟩ := hend
    obtain ⟨p, fd, k, hk, ht, hpi, -⟩ := (pipe_end_open_iff h pi w).mpr ⟨pp, hpp, hw'⟩
    exact ⟨p, fd, k, hk, ht, hpi⟩
  · rintro ⟨p, fd, k, hk, ht, hpi⟩
    obtain ⟨pp, hpp, -⟩ :=
      (pipe_end_open_iff h pi (s.file k).writable).mp ⟨p, fd, k, hk, ht, hpi, rfl⟩
    exact ⟨pp, hpp⟩

theorem pipe_allocated_iff_demo :
    ∃ s, Reach.run step Sys.init demoRun = some s ∧ Reachable s ∧
      ((∃ pp, s.pipe 0 = some pp) ↔
        ∃ p fd k, s.ofile p fd = some k ∧ (s.file k).type = .pipe ∧ (s.file k).pipe = 0) := by
  obtain ⟨s, hr, h⟩ := demoRun_reachable
  exact ⟨s, hr, h, pipe_allocated_iff h 0⟩

/-- **Each open file holds one reference on its inode.** In every state reached from boot, the
inode references the files hold on `ip` are the files in use on `ip`: `fileclose`'s `iput`
gives each back with the last descriptor. -/
theorem iref_eq_nopen (h : Reachable s) (ip : ℕ) : s.iref ip = nopen s ip :=
  (reachable_inv h).1.iref ip

theorem iref_eq_nopen_demo :
    ∃ s, Reach.run step Sys.init demoRun = some s ∧ Reachable s ∧ s.iref 7 = nopen s 7 := by
  obtain ⟨s, hr, h⟩ := demoRun_reachable
  exact ⟨s, hr, h, iref_eq_nopen h 7⟩

/-- **`open` returns a file of its own.** From every state reached from boot, a descriptor that
`sys_open` returns names a file on the inode opened, which no other descriptor names. -/
theorem openFile_unshared (h : Reachable s) {p : Fin NPROC} {ip : ℕ} {dev : Bool} {omode : ℕ}
    {r : ℤ} {s' : Sys} (hr : openFile s p ip dev omode = some (r, s')) (hr0 : 0 ≤ r) :
    ∃ (fd : Fin NOFILE) (k : Fin NFILE), ((fd : ℕ) : ℤ) = r ∧ s'.ofile p fd = some k ∧
      nfd s' k = 1 ∧ (s'.file k).ip = ip := by
  obtain ⟨-, hh⟩ := reachable_inv h
  unfold openFile at hr
  cases ha : filealloc s with
  | none =>
    rw [ha, Option.some.injEq, Prod.mk.injEq] at hr
    omega
  | some a =>
    obtain ⟨k, s₁⟩ := a
    obtain ⟨h0, rfl⟩ := filealloc_eq_some ha
    rw [ha] at hr
    dsimp only at hr
    cases hf : fdalloc (s.setFile k { s.file k with ref := 1 }) p k with
    | none =>
      rw [hf] at hr
      obtain ⟨_, -, hx⟩ := Option.map_eq_some_iff.mp hr
      rw [Prod.mk.injEq] at hx
      omega
    | some b =>
      obtain ⟨fd, s₂⟩ := b
      obtain ⟨hfree, rfl⟩ := fdalloc_eq_some hf
      rw [hf, Option.some.injEq, Prod.mk.injEq] at hr
      obtain ⟨rfl, rfl⟩ := hr
      -- the file was free, so the new descriptor is the only one on it
      have hn : nfd s k = 0 := by rw [← hh.zero k, h0]
      have hn' := nfd_setOfile (s := s.setFile k { s.file k with ref := 1 }) p fd (some k) k
      rw [nfd_setFile, hn, if_neg (by rw [hfree]; nofun), if_pos rfl]
        at hn'
      have hn₁ : nfd ((s.setFile k { s.file k with ref := 1 }).setOfile p fd (some k)) k = 1 := by
        omega
      exact ⟨fd, k, rfl, by simp [setOfile_ofile], hn₁, by simp⟩

theorem openFile_unshared_boot :
    ∃ r s', openFile Sys.init 0 7 false 1 = some (r, s') ∧ 0 ≤ r ∧
      ∃ (fd : Fin NOFILE) (k : Fin NFILE), ((fd : ℕ) : ℤ) = r ∧ s'.ofile 0 fd = some k ∧
        nfd s' k = 1 ∧ (s'.file k).ip = 7 := by
  have hs : ((openFile Sys.init 0 7 false 1).map fun x => decide (0 ≤ x.1)) = some true := by
    decide
  obtain ⟨⟨r, s'⟩, hr, hr0⟩ := Option.map_eq_some_iff.mp hs
  have hr0' : 0 ≤ r := of_decide_eq_true hr0
  exact ⟨r, s', hr, hr0', openFile_unshared (Reach.Reachable.init rfl) hr hr0'⟩

end Reachable

end Xv6.Ftable
