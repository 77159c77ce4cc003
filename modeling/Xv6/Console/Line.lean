import Xv6.Console.Model

/-!
# The console line discipline

`Cons.unread` is the window `[r, w)`, the committed bytes no reader has taken, and `Cons.edit`
the window `[w, e)`, the line being edited. `Cons.Ordered` says `r ≤ w ≤ e` in ring order with
at most `INPUT_BUF_SIZE` bytes from `r` to `e`, all differences taken in the code's wrapping
`uint` arithmetic; since `INPUT_BUF_SIZE` divides `2 ^ 32`, the slots `i % INPUT_BUF_SIZE` do
not see the wrap.

`lineIntr` is the line discipline on lists, what `consoleintr` is for, and
`consoleintr_refines` says that the ring implements it, in every state where the counters are
ordered and the line holds no newline.
-/

namespace Xv6

namespace Console

theorem input_buf_size_dvd : INPUT_BUF_SIZE ∣ 2 ^ 32 := ⟨2 ^ 25, by decide⟩

namespace Cons

/-- The committed bytes no reader has taken yet, `[r, w)`. -/
def unread (cons : Cons) : List UInt8 := cons.window cons.r cons.w

/-- The line being edited, `[w, e)`. -/
def edit (cons : Cons) : List UInt8 := cons.window cons.w cons.e

/-- `r ≤ w ≤ e` in ring order, with at most a buffer's worth from `r` to `e`. -/
structure Ordered (cons : Cons) : Prop where
  w_le : (cons.w - cons.r).toNat ≤ (cons.e - cons.r).toNat
  e_le : (cons.e - cons.r).toNat ≤ INPUT_BUF_SIZE

variable {cons : Cons}

@[simp] theorem r_store (c : UInt8) : (cons.store c).r = cons.r := rfl
@[simp] theorem w_store (c : UInt8) : (cons.store c).w = cons.w := rfl
@[simp] theorem e_store (c : UInt8) : (cons.store c).e = cons.e + 1 := rfl
@[simp] theorem r_erase : cons.erase.r = cons.r := rfl
@[simp] theorem w_erase : cons.erase.w = cons.w := rfl
@[simp] theorem e_erase : cons.erase.e = cons.e - 1 := rfl
@[simp] theorem r_commit : cons.commit.r = cons.r := rfl
@[simp] theorem w_commit : cons.commit.w = cons.e := rfl
@[simp] theorem e_commit : cons.commit.e = cons.e := rfl
@[simp] theorem r_pop : cons.pop.r = cons.r + 1 := rfl
@[simp] theorem w_pop : cons.pop.w = cons.w := rfl
@[simp] theorem e_pop : cons.pop.e = cons.e := rfl

@[simp] theorem length_window (cons : Cons) (a b : UInt32) :
    (cons.window a b).length = (b - a).toNat := by
  simp [window]

@[simp] theorem window_self (cons : Cons) (a : UInt32) : cons.window a a = [] := by
  simp [window]

/-- The bytes from `r` to `e` are the unread ones, then the line. -/
theorem window_r_e (ho : cons.Ordered) : cons.window cons.r cons.e = cons.unread ++ cons.edit :=
  Ring.view_sub_append input_buf_size_dvd _ _ _ _ ho.w_le

theorem length_unread_add_edit (ho : cons.Ordered) :
    cons.unread.length + cons.edit.length = (cons.e - cons.r).toNat := by
  rw [← List.length_append, ← window_r_e ho, length_window]

/-! ### The ring operations on the two windows -/

section Store

variable (c : UInt8) (hlt : (cons.e - cons.r).toNat < INPUT_BUF_SIZE)
include hlt

theorem toNat_store : ((cons.store c).e - cons.r).toNat = (cons.e - cons.r).toNat + 1 :=
  Ring.toNat_succ_sub _ _ (by unfold INPUT_BUF_SIZE at hlt; omega)

/-- Storing at `e` leaves the unread bytes alone: slot `e % INPUT_BUF_SIZE` is outside
`[r, w)` while `e - r < INPUT_BUF_SIZE`. -/
theorem unread_store (ho : cons.Ordered) : (cons.store c).unread = cons.unread := by
  unfold unread window
  simp only [store]
  apply Ring.view_update_of_forall_ne
  intro k hk
  rw [Ring.slot_toNat_eq input_buf_size_dvd cons.r cons.e]
  have hw := ho.w_le
  exact Ring.slot_ne_of_lt (by omega) (by omega)

/-- Storing at `e` appends to the line. -/
theorem edit_store (ho : cons.Ordered) : (cons.store c).edit = cons.edit ++ [c] := by
  have hlen : (cons.e - cons.w).toNat < INPUT_BUF_SIZE := by
    rw [Ring.toNat_sub_sub _ _ _ ho.w_le]
    omega
  unfold edit window
  simp only [store]
  rw [Ring.toNat_succ_sub _ _ (by unfold INPUT_BUF_SIZE at hlen; omega),
    Ring.slot_toNat_eq input_buf_size_dvd cons.w cons.e]
  exact Ring.view_push _ _ _ _ hlen

theorem ordered_store (ho : cons.Ordered) : (cons.store c).Ordered := by
  have hw := ho.w_le
  constructor
  · simp only [r_store, w_store]
    rw [toNat_store c hlt]
    exact Nat.le_succ_of_le hw
  · simp only [r_store]
    rw [toNat_store c hlt]
    exact hlt

end Store

theorem toNat_sub_pos (h : cons.e ≠ cons.w) : 0 < (cons.e - cons.w).toNat :=
  Nat.pos_of_ne_zero fun h0 => h ((Ring.toNat_sub_eq_zero_iff _ _).mp h0)

/-- Erasing drops the last byte of a nonempty line, the one at `e - 1`. -/
theorem edit_eq_erase_append (h : cons.e ≠ cons.w) :
    cons.edit = cons.erase.edit ++ [cons.get (cons.e - 1)] := by
  have hpos := toNat_sub_pos h
  obtain ⟨k, hk⟩ : ∃ k, (cons.e - cons.w).toNat = k + 1 := ⟨_, (Nat.sub_add_cancel hpos).symm⟩
  have hk' : (cons.e - 1 - cons.w).toNat = k := by
    rw [Ring.toNat_pred_sub _ _ hpos, hk, Nat.add_sub_cancel]
  unfold edit window get
  simp only [erase]
  rw [hk, hk', Ring.view_succ, Ring.slot_toNat_eq input_buf_size_dvd cons.w (cons.e - 1), hk']

theorem edit_erase (h : cons.e ≠ cons.w) : cons.erase.edit = cons.edit.dropLast := by
  rw [edit_eq_erase_append h, List.dropLast_concat]

theorem unread_erase : cons.erase.unread = cons.unread := rfl

theorem ordered_erase (ho : cons.Ordered) (h : cons.e ≠ cons.w) : cons.erase.Ordered := by
  have hpos := toNat_sub_pos h
  have hw := ho.w_le
  have he := ho.e_le
  rw [Ring.toNat_sub_sub _ _ _ hw] at hpos
  constructor
  · show (cons.w - cons.r).toNat ≤ (cons.e - 1 - cons.r).toNat
    rw [Ring.toNat_pred_sub _ _ (by omega)]
    omega
  · show (cons.e - 1 - cons.r).toNat ≤ INPUT_BUF_SIZE
    rw [Ring.toNat_pred_sub _ _ (by omega)]
    omega

theorem unread_commit (ho : cons.Ordered) : cons.commit.unread = cons.unread ++ cons.edit :=
  window_r_e ho

@[simp] theorem edit_commit : cons.commit.edit = [] := window_self _ _

theorem ordered_commit (ho : cons.Ordered) : cons.commit.Ordered :=
  ⟨le_refl _, ho.e_le⟩

/-- Taking the byte at `r` pops it off the unread bytes. -/
theorem unread_pop (h : cons.r ≠ cons.w) : cons.unread = cons.get cons.r :: cons.pop.unread := by
  have hpos : 0 < (cons.w - cons.r).toNat :=
    Nat.pos_of_ne_zero fun h0 => h ((Ring.toNat_sub_eq_zero_iff _ _).mp h0).symm
  obtain ⟨k, hk⟩ : ∃ k, (cons.w - cons.r).toNat = k + 1 := ⟨_, (Nat.sub_add_cancel hpos).symm⟩
  have hk' : (cons.w - (cons.r + 1)).toNat = k := by
    rw [Ring.toNat_sub_succ _ _ hpos, hk, Nat.add_sub_cancel]
  unfold unread window get
  simp only [pop]
  rw [hk, hk', Ring.view_pop, Ring.view_toNat_succ input_buf_size_dvd]

theorem edit_pop : cons.pop.edit = cons.edit := rfl

theorem ordered_pop (ho : cons.Ordered) (h : cons.r ≠ cons.w) : cons.pop.Ordered := by
  have hpos : 0 < (cons.w - cons.r).toNat :=
    Nat.pos_of_ne_zero fun h0 => h ((Ring.toNat_sub_eq_zero_iff _ _).mp h0).symm
  have hw := ho.w_le
  have he := ho.e_le
  constructor
  · show (cons.w - (cons.r + 1)).toNat ≤ (cons.e - (cons.r + 1)).toNat
    rw [Ring.toNat_sub_succ _ _ hpos, Ring.toNat_sub_succ _ _ (by omega)]
    omega
  · show (cons.e - (cons.r + 1)).toNat ≤ INPUT_BUF_SIZE
    rw [Ring.toNat_sub_succ _ _ (by omega)]
    omega

/-- `cons.r--` undoes `cons.r++`. -/
@[simp] theorem unget_pop (cons : Cons) : cons.pop.unget = cons := by
  simp [pop, unget]

/-! ### Kill-line -/

/-- `^U`'s loop moves only `e`. -/
theorem killLine_eq (fuel : ℕ) (cons : Cons) :
    cons.killLine fuel = { cons with e := (cons.killLine fuel).e } := by
  induction fuel generalizing cons with
  | zero => rfl
  | succ fuel ih =>
    unfold killLine
    split_ifs
    · exact ih cons.erase
    · rfl

theorem unread_killLine (fuel : ℕ) : (cons.killLine fuel).unread = cons.unread := by
  rw [killLine_eq]
  rfl

/-- **`e - w` rounds are enough for `^U`'s loop**: after them its test fails, so the bounded
loop ends where the code's `while` does. -/
theorem killLine_exit :
    ¬((cons.killLine (cons.e - cons.w).toNat).e ≠ (cons.killLine (cons.e - cons.w).toNat).w ∧
      (cons.killLine (cons.e - cons.w).toNat).get ((cons.killLine (cons.e - cons.w).toNat).e - 1) ≠
        '\n'.toUInt8) := by
  generalize hn : (cons.e - cons.w).toNat = n
  induction n generalizing cons with
  | zero =>
    -- an empty line: `e = w` already
    rw [Ring.toNat_sub_eq_zero_iff] at hn
    simp [killLine, hn]
  | succ n ih =>
    have hne : cons.e ≠ cons.w := fun h => by simp [h] at hn
    unfold killLine
    split_ifs with hc
    · apply ih
      show (cons.e - 1 - cons.w).toNat = n
      rw [Ring.toNat_pred_sub _ _ (toNat_sub_pos hne), hn, Nat.add_sub_cancel]
    · exact hc

/-- With no newline in the line, `^U` erases all of it. -/
theorem killLine_of_not_mem (hnl : '\n'.toUInt8 ∉ cons.edit) :
    cons.killLine (cons.e - cons.w).toNat = { cons with e := cons.w } := by
  generalize hn : (cons.e - cons.w).toNat = n
  induction n generalizing cons with
  | zero =>
    rw [Ring.toNat_sub_eq_zero_iff] at hn
    cases cons
    simp only at hn
    subst hn
    rfl
  | succ n ih =>
    have hne : cons.e ≠ cons.w := fun h => by simp [h] at hn
    have hsplit := edit_eq_erase_append hne
    have hlast : cons.get (cons.e - 1) ≠ '\n'.toUInt8 := fun h => hnl (by simp [hsplit, h])
    unfold killLine
    rw [if_pos ⟨hne, hlast⟩]
    apply ih
    · intro hmem
      exact hnl (hsplit ▸ List.mem_append_left _ hmem)
    · show (cons.e - 1 - cons.w).toNat = n
      rw [Ring.toNat_pred_sub _ _ (toNat_sub_pos hne), hn, Nat.add_sub_cancel]

theorem ordered_killLine (fuel : ℕ) (ho : cons.Ordered) : (cons.killLine fuel).Ordered := by
  induction fuel generalizing cons with
  | zero => exact ho
  | succ fuel ih =>
    unfold killLine
    split_ifs with h
    · exact ih (ordered_erase ho h.1)
    · exact ho

@[simp] theorem r_killLine (fuel : ℕ) : (cons.killLine fuel).r = cons.r := by
  rw [killLine_eq]

@[simp] theorem w_killLine (fuel : ℕ) : (cons.killLine fuel).w = cons.w := by
  rw [killLine_eq]

/-- Ordered counters and no newline in the line being edited: what `consoleintr` needs to
implement the line discipline, and keeps. -/
structure Wf (cons : Cons) : Prop where
  ordered : cons.Ordered
  edit_nl : '\n'.toUInt8 ∉ cons.edit

end Cons

/-! ### The line discipline -/

/-- **The line discipline** that `consoleintr` implements, on the committed bytes no reader has
taken (`unread`) and the line being edited: `^U` clears the line, `^H` and DEL drop its last
byte, and any other nonzero byte, with `'\r'` read as `'\n'`, is appended while the two hold
fewer than `INPUT_BUF_SIZE` bytes. A newline, a `^D` or a full buffer hands the line to the
readers. -/
def lineIntr (unread edit : List UInt8) (c : UInt8) : List UInt8 × List UInt8 :=
  if c = C 'P' then (unread, edit)
  else if c = C 'U' then (unread, [])
  else if c = C 'H' ∨ c = '\x7f'.toUInt8 then (unread, edit.dropLast)
  else if c ≠ 0 ∧ unread.length + edit.length < INPUT_BUF_SIZE then
    let c := if c = '\r'.toUInt8 then '\n'.toUInt8 else c
    if c = '\n'.toUInt8 ∨ c = C 'D' ∨ unread.length + edit.length + 1 = INPUT_BUF_SIZE then
      (unread ++ edit ++ [c], [])
    else (unread, edit ++ [c])
  else (unread, edit)

/-! The control bytes, for rewriting the tests of `consoleintr` and `lineIntr`. -/

theorem C_P : C 'P' = 16 := rfl
theorem C_U : C 'U' = 21 := rfl
theorem C_H : C 'H' = 8 := rfl
theorem toUInt8_del : '\x7f'.toUInt8 = 127 := rfl

/-- **The erasing keys change only the line**, and only by cutting it short. -/
theorem lineIntr_erase {unread edit : List UInt8} {c : UInt8}
    (hc : c = C 'H' ∨ c = '\x7f'.toUInt8 ∨ c = C 'U') :
    (lineIntr unread edit c).1 = unread ∧ (lineIntr unread edit c).2 <+: edit := by
  rcases hc with rfl | rfl | rfl <;>
    simp [lineIntr, C_P, C_U, C_H, toUInt8_del, List.dropLast_prefix]

open Cons

variable {cons : Cons}

/-- The storing branch: `c` goes to the end of the line, and the line is handed over if `c` ends
it or fills the buffer. -/
theorem store_refines (ho : cons.Ordered) (hlt : (cons.e - cons.r).toNat < INPUT_BUF_SIZE)
    (c : UInt8) :
    let r := if c = '\n'.toUInt8 ∨ c = C 'D' ∨ ((cons.store c).e - (cons.store c).r).toNat =
      INPUT_BUF_SIZE then ((cons.store c).commit, true) else (cons.store c, false)
    (r.1.unread, r.1.edit) =
      if c = '\n'.toUInt8 ∨ c = C 'D' ∨ (cons.e - cons.r).toNat + 1 = INPUT_BUF_SIZE then
        (cons.unread ++ cons.edit ++ [c], [])
      else (cons.unread, cons.edit ++ [c]) := by
  intro r
  simp only [r, r_store, toNat_store c hlt]
  split_ifs
  · rw [unread_commit (ordered_store c hlt ho), unread_store c hlt ho, edit_store c hlt ho,
      edit_commit, List.append_assoc]
  · rw [unread_store c hlt ho, edit_store c hlt ho]

/-- **`consoleintr` implements the line discipline** on the two windows of the ring. -/
theorem consoleintr_refines (hw : cons.Wf) (c : UInt8) :
    ((consoleintr cons c).1.unread, (consoleintr cons c).1.edit) =
      lineIntr cons.unread cons.edit c := by
  have ho := hw.ordered
  unfold consoleintr lineIntr
  rw [length_unread_add_edit ho]
  split_ifs with _ _ _ hne
  · rfl
  · -- `^U`: the line holds no newline, so the loop erases all of it
    rw [killLine_of_not_mem hw.edit_nl]
    exact Prod.ext rfl (window_self _ _)
  · exact Prod.ext rfl (edit_erase hne)
  · have he : cons.e = cons.w := not_not.mp hne
    simp [edit, he]
  all_goals first
    | rfl
    | exact store_refines ho ‹c ≠ 0 ∧ _›.2 _

/-- The line the discipline leaves never holds a newline: a newline ends the line. -/
theorem lineIntr_edit_nl {unread edit : List UInt8} (h : '\n'.toUInt8 ∉ edit) (c : UInt8) :
    '\n'.toUInt8 ∉ (lineIntr unread edit c).2 := by
  dsimp only [lineIntr]
  split_ifs
  all_goals simp only [List.mem_append, List.mem_singleton, List.not_mem_nil, not_false_eq_true,
    not_or]
  all_goals first
    | exact h
    | exact fun hm => h (List.mem_of_mem_dropLast hm)
    -- a byte appended without ending the line is no newline
    | exact ⟨h, fun hc => ‹¬(_ ∨ _)› (Or.inl hc.symm)⟩
    | exact absurd (Or.inl rfl) ‹¬(_ ∨ _)›

theorem r_consoleintr (c : UInt8) : (consoleintr cons c).1.r = cons.r := by
  dsimp only [consoleintr]
  split_ifs <;> simp

theorem ordered_consoleintr (ho : cons.Ordered) (c : UInt8) : (consoleintr cons c).1.Ordered := by
  dsimp only [consoleintr]
  split_ifs with _ _ _ hne
  · exact ho
  · exact ordered_killLine _ ho
  · exact ordered_erase ho hne
  all_goals first
    | exact ho
    | exact ordered_commit (ordered_store _ ‹c ≠ 0 ∧ _›.2 ho)
    | exact ordered_store _ ‹c ≠ 0 ∧ _›.2 ho

theorem wf_consoleintr (hw : cons.Wf) (c : UInt8) : (consoleintr cons c).1.Wf := by
  have hedit : (consoleintr cons c).1.edit = (lineIntr cons.unread cons.edit c).2 :=
    congrArg Prod.snd (consoleintr_refines hw c)
  exact ⟨ordered_consoleintr hw.ordered c, hedit ▸ lineIntr_edit_nl hw.edit_nl c⟩

/-- `consoleintr` appends to the unread bytes exactly the bytes it commits, from the old `w` to
the new one. -/
theorem unread_consoleintr (ho : cons.Ordered) (c : UInt8) :
    (consoleintr cons c).1.unread =
      cons.unread ++ (consoleintr cons c).1.window cons.w (consoleintr cons c).1.w := by
  dsimp only [consoleintr]
  split_ifs
  -- the branches that commit nothing leave `w`, and the window from `w` to `w` is empty
  all_goals first
    | rw [unread_commit (ordered_store _ ‹c ≠ 0 ∧ _›.2 ho), unread_store _ ‹c ≠ 0 ∧ _›.2 ho]
      rfl
    | simp [unread_store _ ‹c ≠ 0 ∧ _›.2 ho]
    | simp [unread_killLine, unread_erase]

end Console

end Xv6
