import Xv6.Console.Line

/-!
# What the readers get

Every step moves bytes through the console in one of four ways (`Flow`): `consoleintr` commits
bytes to the end of the unread ones, or a reader takes the first unread byte and copies it out,
consumes it as an end-of-file `^D`, or loses it because its `either_copyout` failed (the byte
was taken by `cons.r++` before the copy was tried).

From that, in every reachable state:

* `wf_of_reachable`: the counters stay ordered and the line being edited holds no newline;
* `streamOk_of_reachable`: the bytes committed are the bytes readers took, then the unread
  ones, and the bytes copied out are a subsequence of those taken, less the `^D`s;
* `exactOk_of_reachable`: when every copy succeeds, the bytes copied out are exactly the bytes
  taken, less the `^D`s.
-/

namespace Xv6

namespace Console

open Cons

variable {P : Type} [DecidableEq P]

/-- The arguments of a process inside `consoleread`: asked for, still wanted, mapped room. -/
def Pc.args : Pc → Option (ℕ × ℕ × ℕ)
  | .read target n room | .readSleep target n room => some (target, n, room)
  | _ => none

/-! ### One step of `consoleread` -/

/-- A step of `consoleread` moves the ring only by taking the byte at `r`, and not at all when
it puts a `^D` back. -/
theorem consolereadStep_cons (w : World P) (p : P) (target n room : ℕ) :
    (consolereadStep w p target n room).cons = w.cons ∨
      (w.cons.r ≠ w.cons.w ∧ (consolereadStep w p target n room).cons = w.cons.pop) := by
  dsimp only [consolereadStep]
  split_ifs <;> simp_all [World.exit, World.sleep, World.goto]

/-- **How one step moves bytes.** -/
inductive Flow (s t : World P) : Prop
  /-- `consoleintr` commits `x` (nothing, for every other step that takes no byte). -/
  | commit (x : List UInt8) : t.committed = s.committed ++ x → t.cons.unread = s.cons.unread ++ x →
      t.delivered = s.delivered → Flow s t
  /-- A reader copies out the first unread byte. -/
  | deliver (c : UInt8) : s.cons.unread = c :: t.cons.unread → c ≠ C 'D' →
      t.committed = s.committed → t.delivered = s.delivered ++ [c] → Flow s t
  /-- A reader consumes a `^D`. -/
  | eof : s.cons.unread = C 'D' :: t.cons.unread → t.committed = s.committed →
      t.delivered = s.delivered → Flow s t
  /-- Reader `p`, at a loop iteration whose copy faults, takes the first unread byte. -/
  | lose (c : UInt8) (p : P) (target n room : ℕ) : s.pc p = .read target n room → 0 < n →
      room ≤ target - n → s.cons.unread = c :: t.cons.unread → t.committed = s.committed →
      t.delivered = s.delivered → Flow s t

omit [DecidableEq P] in
/-- A step that leaves the ring and both ghosts alone. -/
theorem Flow.stay {s t : World P} (hc : t.cons = s.cons) (hcm : t.committed = s.committed)
    (hd : t.delivered = s.delivered) : Flow s t :=
  .commit [] (by simp [hcm]) (by simp [hc]) hd

theorem consolereadStep_flow {w : World P} {p : P} {target n room : ℕ}
    (hp : w.pc p = .read target n room) : Flow w (consolereadStep w p target n room) := by
  dsimp only [consolereadStep]
  split_ifs with hn hr _ hD hlt hroom
  · exact .stay rfl rfl rfl
  · exact .stay rfl rfl rfl
  · exact .stay (by simp [World.exit]) rfl rfl
  · -- the `^D` is consumed
    exact .eof (hD ▸ unread_pop hr) rfl rfl
  · exact .deliver _ (unread_pop hr) hD rfl rfl
  · exact .deliver _ (unread_pop hr) hD rfl rfl
  · exact .lose _ p target n room hp hn (Nat.le_of_not_lt hroom) (unread_pop hr) rfl rfl
  · exact .stay rfl rfl rfl

theorem runStep_flow {s t : World P} {p : P} (h : runStep s p = some t) : Flow s t := by
  unfold runStep at h
  split at h
  · cases h
  · cases h
  · split_ifs at h
    obtain rfl := Option.some.inj h
    exact consolereadStep_flow ‹_›
  · split_ifs at h
    obtain rfl := Option.some.inj h
    exact .stay rfl rfl rfl

/-- **Every step is a `Flow`.** -/
theorem step_flow {s t : World P} {a : Act P} (hw : s.cons.Wf) (h : step s a = some t) :
    Flow s t := by
  cases a with
  | consoleintr c =>
    simp only [step] at h
    split_ifs at h
    obtain rfl := Option.some.inj h
    exact .commit _ rfl (unread_consoleintr hw.ordered c) rfl
  | consoleread p n room =>
    simp only [step] at h
    split_ifs at h
    obtain rfl := Option.some.inj h
    exact .stay rfl rfl rfl
  | run p =>
    simp only [step] at h
    split_ifs at h
    exact runStep_flow h
  | kill p =>
    simp only [step, Option.some.injEq] at h
    subst h
    exact .stay rfl rfl rfl

/-! ### The ring stays well formed -/

theorem Cons.Wf.pop {cons : Cons} (hw : cons.Wf) (hr : cons.r ≠ cons.w) : cons.pop.Wf :=
  ⟨ordered_pop hw.ordered hr, edit_pop ▸ hw.edit_nl⟩

theorem runStep_wf {s t : World P} {p : P} (hw : s.cons.Wf) (h : runStep s p = some t) :
    t.cons.Wf := by
  unfold runStep at h
  split at h
  · cases h
  · cases h
  · split_ifs at h
    obtain rfl := Option.some.inj h
    rcases consolereadStep_cons s p _ _ _ with hc | ⟨hr, hc⟩
    · exact hc ▸ hw
    · exact hc ▸ hw.pop hr
  · split_ifs at h
    obtain rfl := Option.some.inj h
    exact hw

theorem step_wf {s t : World P} {a : Act P} (hw : s.cons.Wf) (h : step s a = some t) :
    t.cons.Wf := by
  cases a with
  | consoleintr c =>
    simp only [step] at h
    split_ifs at h
    obtain rfl := Option.some.inj h
    exact wf_consoleintr hw c
  | consoleread p n room =>
    simp only [step] at h
    split_ifs at h
    obtain rfl := Option.some.inj h
    exact hw
  | run p =>
    simp only [step] at h
    split_ifs at h
    exact runStep_wf hw h
  | kill p =>
    simp only [step, Option.some.injEq] at h
    subst h
    exact hw

omit [DecidableEq P] in
theorem wf_init {w : World P} (h : Init w) : w.cons.Wf := by
  obtain ⟨hr, he, -⟩ := h
  have hwr : w.cons.w - w.cons.r = 0 := by rw [hr, UInt32.sub_self]
  have her : w.cons.e - w.cons.r = 0 := by rw [← he, hr, UInt32.sub_self]
  refine ⟨⟨by rw [hwr, her], by rw [her]; decide⟩, ?_⟩
  simp [edit, he]

/-- **The ring stays well formed in every reachable state, whatever the copies do**: `r ≤ w ≤ e`
in ring order with at most `INPUT_BUF_SIZE` bytes from `r` to `e`, and no newline in the line
being edited. -/
theorem wf_of_reachable {allowed : Act P → Prop} {s : World P}
    (hs : Reach.Reachable Init step allowed s) : s.cons.Wf :=
  hs.invariant (fun _ h => wf_init h) (fun _ _ _ hw _ h => step_wf hw h)

/-! ### The stream -/

/-- The committed bytes are the bytes readers took, then the unread ones; and the bytes copied
out are some of those taken, in order, without the `^D`s. -/
def StreamOk (w : World P) : Prop :=
  ∃ taken, w.committed = taken ++ w.cons.unread ∧ w.delivered.Sublist (taken.filter (· ≠ C 'D'))

/-- As `StreamOk`, with every byte taken that is not a `^D` copied out. -/
def ExactOk (w : World P) : Prop :=
  ∃ taken, w.committed = taken ++ w.cons.unread ∧ taken.filter (· ≠ C 'D') = w.delivered

/-- Every reader wants no more than it asked for, and its destination holds all it asked for. -/
def RoomOk (pc : P → Pc) : Prop :=
  ∀ p target n room, (pc p).args = some (target, n, room) → n ≤ target ∧ target ≤ room

variable {s t : World P}

omit [DecidableEq P] in
theorem filter_append_D (taken : List UInt8) :
    (taken ++ [C 'D']).filter (· ≠ C 'D') = taken.filter (· ≠ C 'D') := by
  simp

omit [DecidableEq P] in
theorem filter_append_of_ne {c : UInt8} (hc : c ≠ C 'D') (taken : List UInt8) :
    (taken ++ [c]).filter (· ≠ C 'D') = taken.filter (· ≠ C 'D') ++ [c] := by
  simp [hc]

omit [DecidableEq P] in
theorem Flow.streamOk (hf : Flow s t) (hs : StreamOk s) : StreamOk t := by
  obtain ⟨taken, hc, hd⟩ := hs
  cases hf with
  | commit x hcm hu hdl => exact ⟨taken, by rw [hcm, hu, hc, List.append_assoc], hdl ▸ hd⟩
  | deliver c hu hD hcm hdl =>
    refine ⟨taken ++ [c], by rw [hcm, hc, hu]; simp, ?_⟩
    rw [hdl, filter_append_of_ne hD]
    exact hd.append (List.Sublist.refl _)
  | eof hu hcm hdl =>
    refine ⟨taken ++ [C 'D'], by rw [hcm, hc, hu]; simp, ?_⟩
    rw [hdl, filter_append_D]
    exact hd
  | lose c _ _ _ _ _ _ _ hu hcm hdl =>
    -- the byte is taken and copied nowhere
    refine ⟨taken ++ [c], by rw [hcm, hc, hu]; simp, ?_⟩
    rw [hdl, List.filter_append]
    exact hd.trans (List.sublist_append_left _ _)

omit [DecidableEq P] in
/-- A reader whose destination holds its whole request never has a copy fail. -/
theorem Flow.exactOk (hf : Flow s t) (hs : ExactOk s) (hroom : RoomOk s.pc) : ExactOk t := by
  obtain ⟨taken, hc, hd⟩ := hs
  cases hf with
  | commit x hcm hu hdl => exact ⟨taken, by rw [hcm, hu, hc, List.append_assoc], hdl ▸ hd⟩
  | deliver c hu hD hcm hdl =>
    exact ⟨taken ++ [c], by rw [hcm, hc, hu]; simp, by rw [hdl, filter_append_of_ne hD, hd]⟩
  | eof hu hcm hdl =>
    exact ⟨taken ++ [C 'D'], by rw [hcm, hc, hu]; simp, by rw [hdl, filter_append_D, hd]⟩
  | lose c p target n room hp hn hfault _ _ _ =>
    have hr := hroom p target n room (by simp [hp, Pc.args])
    omega

omit [DecidableEq P] in
theorem streamOk_init {w : World P} (h : Init w) : StreamOk w := by
  obtain ⟨hr, -, -, -, hc, hd⟩ := h
  exact ⟨[], by simp [hc, unread, hr], by simp [hd]⟩

omit [DecidableEq P] in
theorem exactOk_init {w : World P} (h : Init w) : ExactOk w := by
  obtain ⟨hr, -, -, -, hc, hd⟩ := h
  exact ⟨[], by simp [hc, unread, hr], by simp [hd]⟩

/-- **Nothing is reordered or duplicated**: in every reachable state, whatever the copies do,
the bytes copied out are a subsequence of the bytes committed, with the unread ones last. -/
theorem streamOk_of_reachable {allowed : Act P → Prop} {s : World P}
    (hs : Reach.Reachable Init step allowed s) : StreamOk s :=
  hs.invariant_of (J := fun w => w.cons.Wf) (fun _ h => wf_of_reachable h)
    (fun _ h => streamOk_init h) (fun _ _ _ _ hw hi _ h => (step_flow hw h).streamOk hi)

theorem RoomOk.update {pc : P → Pc} (h : RoomOk pc) {p : P} {c : Pc}
    (hc : ∀ target n room, c.args = some (target, n, room) → n ≤ target ∧ target ≤ room) :
    RoomOk (Function.update pc p c) := by
  intro q target n room hq
  by_cases hqp : q = p
  · subst hqp
    rw [Function.update_self] at hq
    exact hc target n room hq
  · rw [Function.update_of_ne hqp] at hq
    exact h q target n room hq

theorem roomOk_consolereadStep {w : World P} {p : P} {target n room : ℕ} (hr : RoomOk w.pc)
    (hp : w.pc p = .read target n room) : RoomOk (consolereadStep w p target n room).pc := by
  have ht := hr p target n room (by simp [hp, Pc.args])
  dsimp only [consolereadStep]
  split_ifs <;> refine hr.update ?_ <;> intro target' n' room' hc <;> simp [Pc.args] at hc
  all_goals omega

theorem roomOk_step {a : Act P} (hr : RoomOk s.pc) (ha : a.copiesSucceed)
    (h : step s a = some t) : RoomOk t.pc := by
  cases a with
  | consoleintr c =>
    simp only [step] at h
    split_ifs at h
    obtain rfl := Option.some.inj h
    exact hr
  | consoleread p n room =>
    simp only [step] at h
    split_ifs at h
    obtain rfl := Option.some.inj h
    refine hr.update ?_
    intro target' n' room' hc
    simp only [Pc.args, Option.some.injEq, Prod.mk.injEq] at hc
    simp only [Act.copiesSucceed] at ha
    omega
  | run p =>
    simp only [step] at h
    split_ifs at h
    unfold runStep at h
    split at h
    · cases h
    · cases h
    · split_ifs at h
      obtain rfl := Option.some.inj h
      exact roomOk_consolereadStep hr ‹_›
    · split_ifs at h
      obtain rfl := Option.some.inj h
      refine hr.update ?_
      intro target' n' room' hc
      exact hr p target' n' room' (by simpa [Pc.args, *] using hc)
  | kill p =>
    simp only [step, Option.some.injEq] at h
    subst h
    exact hr

/-- The exact-stream invariant, for runs whose copies succeed. -/
structure ExactInv (w : World P) : Prop where
  exact : ExactOk w
  room : RoomOk w.pc

omit [DecidableEq P] in
theorem exactInv_init {w : World P} (h : Init w) : ExactInv w := by
  refine ⟨exactOk_init h, ?_⟩
  intro p target n room hp
  rw [(h.2.2.2.1 p).1] at hp
  cases hp

/-- **With every copy succeeding, readers get exactly the committed bytes**, in order, less the
`^D`s they consumed. -/
theorem exactInv_of_reachable {s : World P}
    (hs : Reach.Reachable Init step Act.copiesSucceed s) : ExactInv s :=
  hs.invariant_of (J := fun w => w.cons.Wf) (fun _ h => wf_of_reachable h)
    (fun _ h => exactInv_init h)
    (fun _ _ _ _ hw hi ha h => ⟨(step_flow hw h).exactOk hi.exact hi.room, roomOk_step hi.room ha h⟩)

/-! ### How a call of `consoleread` ends -/

section Ends

variable {w : World P} {p : P} {target n room : ℕ}

/-- A running reader at its loop takes the step of `consolereadStep`. -/
theorem step_run_read (hp : s.pc p = .read target n room) (h : step s (.run p) = some t) :
    t = consolereadStep s p target n room := by
  simp only [step, runStep, hp] at h
  split_ifs at h
  exact (Option.some.inj h).symm

/-- **A call stops after a newline**: the iteration that copies out a newline returns. -/
theorem consolereadStep_newline
    (h : (consolereadStep w p target n room).delivered = w.delivered ++ ['\n'.toUInt8]) :
    ((consolereadStep w p target n room).pc p).outside = true := by
  dsimp only [consolereadStep] at h ⊢
  split_ifs at h ⊢ <;> simp_all [World.exit, World.sleep, World.goto, Pc.outside]

omit [DecidableEq P] in
theorem unread_ne_nil (hu : w.cons.unread ≠ []) : w.cons.r ≠ w.cons.w := fun h => by
  simp [unread, h] at hu

/-- **A `^D` as the first byte of a call** is consumed, and the call returns 0. -/
theorem consolereadStep_eof_first {rest : List UInt8} (h0 : 0 < target)
    (hD : w.cons.unread = C 'D' :: rest) :
    (consolereadStep w p target target room).pc p = .done 0 ∧
      (consolereadStep w p target target room).cons.unread = rest ∧
      (consolereadStep w p target target room).delivered = w.delivered := by
  have hr := unread_ne_nil (w := w) (by simp [hD])
  obtain ⟨hget, hpop⟩ := List.cons.inj (unread_pop hr ▸ hD)
  dsimp only [consolereadStep]
  rw [if_pos h0, if_neg hr, if_pos hget, if_neg (lt_irrefl _)]
  simp [World.exit, hpop]

/-- **A `^D` after some bytes of a call** ends the call and is put back, so that it is still
the first unread byte. -/
theorem consolereadStep_eof_later {rest : List UInt8} (hn : 0 < n) (hlt : n < target)
    (hD : w.cons.unread = C 'D' :: rest) :
    (consolereadStep w p target n room).pc p = .done (target - n : ℕ) ∧
      (consolereadStep w p target n room).cons = w.cons ∧
      (consolereadStep w p target n room).delivered = w.delivered := by
  have hr := unread_ne_nil (w := w) (by simp [hD])
  obtain ⟨hget, -⟩ := List.cons.inj (unread_pop hr ▸ hD)
  dsimp only [consolereadStep]
  rw [if_pos hn, if_neg hr, if_pos hget, if_pos hlt]
  simp [World.exit]

end Ends

/-- The erasing keys change only `e`. -/
theorem consoleintr_erase {cons : Cons} {c : UInt8}
    (hc : c = C 'H' ∨ c = '\x7f'.toUInt8 ∨ c = C 'U') : (consoleintr cons c).1.w = cons.w := by
  have hP : c ≠ C 'P' := by rcases hc with rfl | rfl | rfl <;> decide
  dsimp only [consoleintr]
  rw [if_neg hP]
  split_ifs with hU hH
  · exact w_killLine _
  · rfl
  · rfl
  -- the storing branches are for bytes that are no erasing key
  all_goals exact absurd hc (by simp only [not_or] at hH ⊢; exact ⟨hH.1, hH.2, hU⟩)

/-! ### The line discipline, end to end -/

/-- `consoleintr` as a step of the system. -/
theorem step_consoleintr {c : UInt8} (h : step s (.consoleintr c) = some t) : t = s.intr c := by
  simp only [step] at h
  split_ifs at h
  exact (Option.some.inj h).symm

/-- **The console input line discipline**, with any number of readers, whatever the interleaving
and however often the counters wrap. In every reachable state:

* `w - r ≤ e - r ≤ INPUT_BUF_SIZE` in the code's wrapping arithmetic;
* each `consoleintr(c)` acts on the unread bytes and the line as `lineIntr` says (`'\r'` stored
  as `'\n'`, erased bytes gone, a line committed at a newline, a `^D` or a full buffer);
* `^H`, DEL and `^U` leave `r`, `w`, the unread bytes and the committed ones alone and only cut
  the line short;
* the bytes `consoleread` copies out are, in order, a subsequence of the committed ones: the
  committed bytes are those taken by readers, then the unread ones, and what was copied out is
  what was taken less the `^D`s and less the bytes of faulting copies;
* an iteration that copies out a newline returns;
* a `^D` as the first byte of a call is consumed and the call returns 0; a `^D` after some bytes
  ends the call and stays the first unread byte.

When every copy succeeds, the bytes copied out are exactly the committed ones taken by readers,
less the `^D`s. -/
theorem console_line_discipline :
    (∀ s : World P, Reach.Reachable Init step (fun _ => True) s →
      ((s.cons.w - s.cons.r).toNat ≤ (s.cons.e - s.cons.r).toNat ∧
        (s.cons.e - s.cons.r).toNat ≤ INPUT_BUF_SIZE) ∧
      (∀ c t, step s (.consoleintr c) = some t →
        (t.cons.unread, t.cons.edit) = lineIntr s.cons.unread s.cons.edit c) ∧
      (∀ c t, (c = C 'H' ∨ c = '\x7f'.toUInt8 ∨ c = C 'U') → step s (.consoleintr c) = some t →
        t.cons.r = s.cons.r ∧ t.cons.w = s.cons.w ∧ t.cons.unread = s.cons.unread ∧
          t.cons.edit <+: s.cons.edit ∧ t.committed = s.committed) ∧
      (∃ taken, s.committed = taken ++ s.cons.unread ∧
        s.delivered.Sublist (taken.filter (· ≠ C 'D'))) ∧
      (∀ p target n room t, s.pc p = .read target n room → step s (.run p) = some t →
        t.delivered = s.delivered ++ ['\n'.toUInt8] → (t.pc p).outside = true) ∧
      (∀ p target room rest t, s.pc p = .read target target room → 0 < target →
        s.cons.unread = C 'D' :: rest → step s (.run p) = some t →
        t.pc p = .done 0 ∧ t.cons.unread = rest ∧ t.delivered = s.delivered) ∧
      (∀ p target n room rest t, s.pc p = .read target n room → 0 < n → n < target →
        s.cons.unread = C 'D' :: rest → step s (.run p) = some t →
        t.pc p = .done (target - n : ℕ) ∧ t.cons.unread = s.cons.unread)) ∧
    (∀ s : World P, Reach.Reachable Init step Act.copiesSucceed s →
      ∃ taken, s.committed = taken ++ s.cons.unread ∧ taken.filter (· ≠ C 'D') = s.delivered) := by
  refine ⟨fun s hs => ?_, fun s hs => (exactInv_of_reachable hs).exact⟩
  have hw := wf_of_reachable hs
  refine ⟨⟨hw.ordered.w_le, hw.ordered.e_le⟩, ?_, ?_, streamOk_of_reachable hs, ?_, ?_, ?_⟩
  · intro c t h
    rw [step_consoleintr h]
    exact consoleintr_refines hw c
  · intro c t hc h
    obtain rfl := step_consoleintr h
    have hv := consoleintr_refines hw c
    have hu : (consoleintr s.cons c).1.unread = _ := congrArg Prod.fst hv
    have he : (consoleintr s.cons c).1.edit = _ := congrArg Prod.snd hv
    obtain ⟨hu', he'⟩ := @lineIntr_erase s.cons.unread s.cons.edit c hc
    have hwc := @consoleintr_erase s.cons c hc
    refine ⟨r_consoleintr c, hwc, hu.trans hu', he ▸ he', ?_⟩
    simp [World.intr, hwc]
  · intro p target n room t hp h hd
    rw [step_run_read hp h] at hd ⊢
    exact consolereadStep_newline hd
  · intro p target room rest t hp h0 hD h
    rw [step_run_read hp h]
    exact consolereadStep_eof_first h0 hD
  · intro p target n room rest t hp hn hlt hD h
    rw [step_run_read hp h]
    exact ⟨(consolereadStep_eof_later hn hlt hD).1,
      congrArg Cons.unread (consolereadStep_eof_later hn hlt hD).2.1⟩

/-- **A faulting copy loses a committed byte.** `'a'` and a newline are typed. A read of two
bytes into a destination with nothing mapped takes the `'a'` (`cons.r++`), fails to copy it and
returns 0; the next read of two bytes gets only the newline and returns 1. Nothing is unread, and
the `'a'` was copied out nowhere. -/
theorem consoleread_fault_loses_byte :
    ∃ s : World Unit, Reach.Reachable Init step (fun _ => True) s ∧
      s.committed = ['a'.toUInt8, '\n'.toUInt8] ∧ s.cons.unread = [] ∧
      s.delivered = ['\n'.toUInt8] ∧ s.pc () = .done 1 :=
  ⟨_, @Reach.Reachable.of_run _ _ Init step (fun _ => True) World.boot _
    [.consoleintr 'a'.toUInt8, .consoleintr '\n'.toUInt8, .consoleread () 2 0, .run (),
      .consoleread () 2 2, .run ()] init_boot (by simp) rfl, rfl, rfl, rfl, rfl⟩

end Console

end Xv6
