import Xv6.Fs.Free
import Xv6.Fs.Dinode

/-!
# The inode table (`iget`, `idup`, `ilock`, `iunlock`, `iput` in `fs.c`)

The kernel keeps the inodes in use in a table of `NINODE` slots. A slot holds the device and
inode number, a reference count `ref`, whether its copy of the dinode has been read (`valid`),
its sleep lock, and the copy itself. `iget` finds the slot of an inode, or recycles the first slot
with no references, and counts one more reference; `idup` counts one more; `ilock` takes the lock
and reads the dinode if the copy is not valid; `iunlock` releases the lock; `iput` counts one
less, and frees the inode on the disk when that was the last reference to an inode with no links.

Every one of them moves `ref` by one on one slot and keeps every other slot
(`iget_some`, `iput_some`), and `ilock` and `iunlock` change only the lock and the copy
(`ilock_some`, `iunlock_some`): the reference and lock bookkeeping of a caller is arithmetic on
these.
-/

namespace Xv6

/-- A slot of the inode table: `dev`, `ref`, `valid`, whether the sleep lock is held, and the
fields of the inode, `inum` among them. -/
structure Slot where
  dev : UInt32
  ref : ℕ
  valid : Bool
  locked : Bool
  ip : Inode

/-- The inode table `itable.inode[NINODE]`; a pointer into it is a slot number. -/
structure Itable where
  slot : ℕ → Slot

namespace Itable

/-- Slot `i` replaced by `s`. -/
def set (t : Itable) (i : ℕ) (s : Slot) : Itable := ⟨Function.update t.slot i s⟩

/-- The loop of `iget` over the slots from `i` on, with `empty` the first slot seen with no
references: the slot already holding the inode (`true`), or the empty one to recycle (`false`);
`none` for `panic("iget: no inodes")`. -/
def igetLoop (t : Itable) (dev : UInt32) (inum : ℕ) :
    (fuel i : ℕ) → (empty : Option ℕ) → Option (Bool × ℕ)
  | 0, _, empty => empty.map fun e => (false, e)
  | fuel + 1, i, empty =>
    if 0 < (t.slot i).ref ∧ (t.slot i).dev = dev ∧ (t.slot i).ip.inum = inum then some (true, i)
    else igetLoop t dev inum fuel (i + 1) (if empty = none ∧ (t.slot i).ref = 0 then some i else empty)

/-- `iget(dev, inum)`: the table after and the slot; `none` is a panic. -/
def iget (t : Itable) (dev : UInt32) (inum : ℕ) : Option (Itable × ℕ) :=
  match igetLoop t dev inum NINODE 0 none with
  | none => none
  | some (true, i) => some (t.set i { t.slot i with ref := (t.slot i).ref + 1 }, i)
  | some (false, i) =>
    let s := { t.slot i with dev := dev, ip := { (t.slot i).ip with inum := inum } }
    some (t.set i { s with ref := 1, valid := false }, i)

/-- `idup(ip)`. -/
def idup (t : Itable) (i : ℕ) : Itable := t.set i { t.slot i with ref := (t.slot i).ref + 1 }

/-- `ilock(ip)`: the lock taken, and the dinode read from the disk if the copy is not valid.
`none` where it panics (no reference, or a dinode of type `0`) or would sleep on a lock held
elsewhere. -/
def ilock (sb : Superblock) (d : Blocks) (t : Itable) (i : ℕ) : Option Itable :=
  let s := t.slot i
  if s.ref < 1 then none
  else if s.locked then none
  else if s.valid then some (t.set i { s with locked := true })
  else
    let ip := dinode sb d s.ip.inum
    if ip.type = 0 then none
    else some (t.set i { s with locked := true, ip := ip, valid := true })

/-- `iunlock(ip)`; `none` where it panics. -/
def iunlock (t : Itable) (i : ℕ) : Option Itable :=
  let s := t.slot i
  if !s.locked ∨ s.ref < 1 then none else some (t.set i { s with locked := false })

/-- `iput(ip)`: one reference less; the last one to a read inode with no links frees it on the
disk and leaves the copy invalid. `none` is a panic of `itrunc`. -/
def iput (sb : Superblock) (t : Itable) (d : Blocks) (i : ℕ) : Option (Itable × Blocks) :=
  let s := t.slot i
  if s.ref = 1 ∧ s.valid = true ∧ s.ip.nlink = 0 then
    (Xv6.iput sb s.ip d true).map fun d => (t.set i { s with valid := false, ref := s.ref - 1 }, d)
  else some (t.set i { s with ref := s.ref - 1 }, d)

/-- `iunlockput(ip)`. -/
def iunlockput (sb : Superblock) (t : Itable) (d : Blocks) (i : ℕ) : Option (Itable × Blocks) :=
  match iunlock t i with
  | none => none
  | some t => iput sb t d i

/-! ### Slots -/

@[simp] theorem set_slot_self (t : Itable) (i : ℕ) (s : Slot) : (t.set i s).slot i = s :=
  Function.update_self _ _ _

@[simp] theorem set_slot_of_ne (t : Itable) {i j : ℕ} (s : Slot) (h : j ≠ i) :
    (t.set i s).slot j = t.slot j :=
  Function.update_of_ne h _ _

/-- The slots with no references. -/
def Empty (t : Itable) (k : ℕ) : Prop := (t.slot k).ref = 0

/-! ### `iget` -/

/-- The loop of `iget` stops at a slot of the table that holds the inode, or at an empty one. -/
theorem igetLoop_spec (t : Itable) (dev : UInt32) (inum : ℕ) :
    ∀ (fuel i : ℕ) (empty : Option ℕ) (b : Bool) (j : ℕ),
      (∀ e, empty = some e → t.Empty e ∧ e < NINODE) → i + fuel ≤ NINODE →
      igetLoop t dev inum fuel i empty = some (b, j) →
      j < NINODE ∧ (b = true → 0 < (t.slot j).ref ∧ (t.slot j).dev = dev ∧ (t.slot j).ip.inum = inum) ∧
        (b = false → t.Empty j)
  | 0, i, empty, b, j, he, _, h => by
    cases empty with
    | none => cases h
    | some e =>
      simp only [igetLoop, Option.map_some, Option.some.injEq, Prod.mk.injEq] at h
      obtain ⟨rfl, rfl⟩ := h
      exact ⟨(he e rfl).2, by simp, fun _ => (he e rfl).1⟩
  | fuel + 1, i, empty, b, j, he, hle, h => by
    unfold igetLoop at h
    by_cases hm : 0 < (t.slot i).ref ∧ (t.slot i).dev = dev ∧ (t.slot i).ip.inum = inum
    · rw [if_pos hm] at h
      simp only [Option.some.injEq, Prod.mk.injEq] at h
      obtain ⟨rfl, rfl⟩ := h
      exact ⟨by omega, fun _ => hm, by simp⟩
    · rw [if_neg hm] at h
      refine igetLoop_spec t dev inum fuel (i + 1) _ b j (fun e he' => ?_) (by omega) h
      split_ifs at he' with hz
      · cases he'
        exact ⟨hz.2, by omega⟩
      · exact he e he'

/-- With an empty slot ahead, or one remembered, the loop of `iget` does not panic. -/
theorem igetLoop_isSome (t : Itable) (dev : UInt32) (inum : ℕ) :
    ∀ (fuel i : ℕ) (empty : Option ℕ),
      (empty.isSome ∨ ∃ k, i ≤ k ∧ k < i + fuel ∧ t.Empty k) →
      (igetLoop t dev inum fuel i empty).isSome
  | 0, i, empty, h => by
    rcases h with h | ⟨k, hk, hk', -⟩
    · cases empty with
      | none => cases h
      | some e => rfl
    · omega
  | fuel + 1, i, empty, h => by
    unfold igetLoop
    by_cases hm : 0 < (t.slot i).ref ∧ (t.slot i).dev = dev ∧ (t.slot i).ip.inum = inum
    · rw [if_pos hm]
      rfl
    · rw [if_neg hm]
      apply igetLoop_isSome t dev inum fuel (i + 1)
      by_cases hz : empty = none ∧ (t.slot i).ref = 0
      · rw [if_pos hz]
        exact .inl rfl
      · rw [if_neg hz]
        rcases h with h | ⟨k, hk, hk', hzk⟩
        · exact .inl h
        · by_cases hki : k = i
          · subst hki
            cases empty with
            | none => exact absurd ⟨rfl, hzk⟩ hz
            | some e => exact .inl rfl
          · exact .inr ⟨k, by omega, by omega, hzk⟩

/-- **`iget`.** It hands out a slot of the table that now holds the inode with one more
reference, the same lock, and a valid copy only if the slot already had that copy; every other
slot is kept. -/
theorem iget_some {t t' : Itable} {dev : UInt32} {inum j : ℕ} (h : iget t dev inum = some (t', j)) :
    j < NINODE ∧ (t'.slot j).ref = (t.slot j).ref + 1 ∧ (t'.slot j).locked = (t.slot j).locked ∧
      (t'.slot j).ip.inum = inum ∧ (t'.slot j).dev = dev ∧
      ((t'.slot j).valid = true →
        0 < (t.slot j).ref ∧ t'.slot j = { t.slot j with ref := (t.slot j).ref + 1 }) ∧
      ∀ k ≠ j, t'.slot k = t.slot k := by
  unfold iget at h
  cases hl : igetLoop t dev inum NINODE 0 none with
  | none => rw [hl] at h; cases h
  | some p =>
    obtain ⟨b, i⟩ := p
    obtain ⟨hi, hfound, hempty⟩ := igetLoop_spec t dev inum NINODE 0 none b i (by simp) (by omega) hl
    rw [hl] at h
    cases b with
    | true =>
      -- the slot already holds the inode
      simp only [Option.some.injEq, Prod.mk.injEq] at h
      obtain ⟨rfl, rfl⟩ := h
      obtain ⟨hpos, hd, hn⟩ := hfound rfl
      refine ⟨hi, by simp, by simp, by simp [hn], by simp [hd], fun _ => ⟨hpos, by simp⟩,
        fun k hk => ?_⟩
      simp [hk]
    | false =>
      -- an empty slot recycled for the inode
      simp only [Option.some.injEq, Prod.mk.injEq] at h
      obtain ⟨rfl, rfl⟩ := h
      have he : (t.slot i).ref = 0 := hempty rfl
      refine ⟨hi, by simp [he], by simp, by simp, by simp, fun hv => by simp at hv, fun k hk => ?_⟩
      simp [hk]

theorem iget_isSome (t : Itable) (dev : UInt32) (inum : ℕ) (h : ∃ k < NINODE, t.Empty k) :
    (iget t dev inum).isSome := by
  obtain ⟨k, hk, hz⟩ := h
  have hs := igetLoop_isSome t dev inum NINODE 0 none (.inr ⟨k, Nat.zero_le _, by omega, hz⟩)
  unfold iget
  split
  · rename_i hl
    rw [hl] at hs
    cases hs
  · rfl
  · rfl

/-! ### `idup`, `ilock`, `iunlock`, `iput` -/

@[simp] theorem idup_slot_self (t : Itable) (i : ℕ) :
    (t.idup i).slot i = { t.slot i with ref := (t.slot i).ref + 1 } := by
  simp [idup]

theorem idup_slot_of_ne (t : Itable) {i k : ℕ} (h : k ≠ i) : (t.idup i).slot k = t.slot k := by
  simp [idup, h]

/-- **`ilock`.** When it returns, the slot was unlocked and referenced; it is now locked and valid,
with the dinode read in if its copy was not valid; every other slot is kept. -/
theorem ilock_some {sb : Superblock} {d : Blocks} {t t' : Itable} {i : ℕ}
    (h : ilock sb d t i = some t') :
    1 ≤ (t.slot i).ref ∧ (t.slot i).locked = false ∧
      t' = t.set i { t.slot i with
        locked := true
        valid := true
        ip := if (t.slot i).valid then (t.slot i).ip else dinode sb d (t.slot i).ip.inum } ∧
      ((t'.slot i).ip.type ≠ 0 ∨ (t.slot i).valid = true) := by
  unfold ilock at h
  dsimp only at h
  by_cases hr : (t.slot i).ref < 1
  · rw [if_pos hr] at h
    cases h
  rw [if_neg hr] at h
  by_cases hl : (t.slot i).locked = true
  · rw [if_pos hl] at h
    cases h
  rw [if_neg hl] at h
  by_cases hv : (t.slot i).valid = true
  · -- the copy is valid: only the lock is taken
    rw [if_pos hv] at h
    cases h
    exact ⟨by omega, by simpa using hl, by simp [hv], .inr hv⟩
  · -- the dinode is read in
    rw [if_neg hv] at h
    split_ifs at h with ht
    cases h
    exact ⟨by omega, by simpa using hl, by simp [hv], .inl (by simpa using ht)⟩

/-- `ilock` of a referenced unlocked slot whose copy is valid, or whose dinode has a type. -/
theorem ilock_eq {sb : Superblock} {d : Blocks} {t : Itable} {i : ℕ} (hr : 1 ≤ (t.slot i).ref)
    (hl : (t.slot i).locked = false)
    (hok : (t.slot i).valid = true ∨ (dinode sb d (t.slot i).ip.inum).type ≠ 0) :
    ilock sb d t i = some (t.set i { t.slot i with
        locked := true
        valid := true
        ip := if (t.slot i).valid then (t.slot i).ip else dinode sb d (t.slot i).ip.inum }) := by
  unfold ilock
  rw [if_neg (by omega), if_neg (by simp [hl])]
  by_cases hv : (t.slot i).valid = true
  · rw [if_pos hv]
    simp [hv]
  · rw [if_neg hv, if_neg (hok.resolve_left hv)]
    simp [hv]

/-- **`iunlock`.** When it returns, the slot was locked and referenced, and only its lock
changed. -/
theorem iunlock_some {t t' : Itable} {i : ℕ} (h : iunlock t i = some t') :
    (t.slot i).locked = true ∧ 1 ≤ (t.slot i).ref ∧ t' = t.set i { t.slot i with locked := false } := by
  unfold iunlock at h
  dsimp only at h
  split_ifs at h with hc
  cases h
  simp only [Bool.not_eq_true', not_or, Bool.not_eq_false] at hc
  exact ⟨hc.1, by omega, rfl⟩

theorem iunlock_eq {t : Itable} {i : ℕ} (hl : (t.slot i).locked = true) (hr : 1 ≤ (t.slot i).ref) :
    iunlock t i = some (t.set i { t.slot i with locked := false }) := by
  unfold iunlock
  rw [if_neg (by simp [hl]; omega)]

/-- **`iput`.** One reference less on the slot; every other slot is kept, and the lock too. -/
theorem iput_some {sb : Superblock} {t t' : Itable} {d d' : Blocks} {i : ℕ}
    (h : iput sb t d i = some (t', d')) :
    (t'.slot i).ref = (t.slot i).ref - 1 ∧ (t'.slot i).locked = (t.slot i).locked ∧
      ∀ k ≠ i, t'.slot k = t.slot k := by
  unfold iput at h
  dsimp only at h
  split_ifs at h with hf
  · obtain ⟨d₁, -, h⟩ := Option.map_eq_some_iff.mp h
    simp only [Prod.mk.injEq] at h
    obtain ⟨rfl, -⟩ := h
    exact ⟨by simp, by simp, fun k hk => by simp [hk]⟩
  · simp only [Option.some.injEq, Prod.mk.injEq] at h
    obtain ⟨rfl, -⟩ := h
    exact ⟨by simp, by simp, fun k hk => by simp [hk]⟩

/-- `iput` of a slot that is not the last reference to a read inode with no links keeps the
disk. -/
theorem iput_eq (sb : Superblock) (t : Itable) (d : Blocks) {i : ℕ}
    (h : ¬ ((t.slot i).ref = 1 ∧ (t.slot i).valid = true ∧ (t.slot i).ip.nlink = 0)) :
    iput sb t d i = some (t.set i { t.slot i with ref := (t.slot i).ref - 1 }, d) := by
  unfold iput
  rw [if_neg h]

/-- An `iput` right after an `iget` gives the reference back: the slot `iget` handed out is not
the last reference to a read inode, so the disk is kept, and every slot has the reference count
and the lock it had before the `iget`. -/
theorem iput_of_iget {t t' : Itable} {dev : UInt32} {inum j : ℕ} (h : iget t dev inum = some (t', j))
    (sb : Superblock) (d : Blocks) :
    ∃ t'', iput sb t' d j = some (t'', d) ∧
      ∀ k, (t''.slot k).ref = (t.slot k).ref ∧ (t''.slot k).locked = (t.slot k).locked := by
  obtain ⟨-, href, hlock, -, -, hvalid, hother⟩ := iget_some h
  -- a valid copy means the slot was already referenced, so the `iget` did not make it the last
  have hnot : ¬ ((t'.slot j).ref = 1 ∧ (t'.slot j).valid = true ∧ (t'.slot j).ip.nlink = 0) := by
    rintro ⟨h1, hv, -⟩
    have := (hvalid hv).1
    omega
  refine ⟨_, iput_eq sb t' d hnot, fun k => ?_⟩
  by_cases hk : k = j
  · subst hk
    simp [href, hlock]
  · simp [hk, hother k hk]

/-- **`iunlockput`.** When it returns, the slot was locked and referenced; it is now unlocked with
one reference less, and every other slot is kept. -/
theorem iunlockput_some {sb : Superblock} {t t' : Itable} {d d' : Blocks} {i : ℕ}
    (h : iunlockput sb t d i = some (t', d')) :
    (t.slot i).locked = true ∧ 1 ≤ (t.slot i).ref ∧ (t'.slot i).ref = (t.slot i).ref - 1 ∧
      (t'.slot i).locked = false ∧ ∀ k ≠ i, t'.slot k = t.slot k := by
  unfold iunlockput at h
  split at h
  · cases h
  · rename_i t₁ hu
    obtain ⟨hl, hr, rfl⟩ := iunlock_some hu
    obtain ⟨href, hlock, hother⟩ := iput_some h
    refine ⟨hl, hr, by simpa using href, by simpa using hlock, fun k hk => ?_⟩
    rw [hother k hk]
    simp [hk]

/-- `iunlockput` of a locked, referenced slot that is not the last reference to a read inode
with no links keeps the disk. -/
theorem iunlockput_eq (sb : Superblock) (t : Itable) (d : Blocks) {i : ℕ}
    (hl : (t.slot i).locked = true) (hr : 1 ≤ (t.slot i).ref)
    (h : ¬ ((t.slot i).ref = 1 ∧ (t.slot i).valid = true ∧ (t.slot i).ip.nlink = 0)) :
    iunlockput sb t d i =
      some (t.set i { t.slot i with locked := false, ref := (t.slot i).ref - 1 }, d) := by
  unfold iunlockput
  rw [iunlock_eq hl hr]
  dsimp only
  rw [iput_eq sb _ d (by simpa using h)]
  simp [set, Function.update_idem]

/-! ### References and locks

What each operation does to the reference count and the lock of every slot, the arithmetic a
caller's bookkeeping is made of. -/

theorem iget_ref {t t' : Itable} {dev : UInt32} {inum j : ℕ} (h : iget t dev inum = some (t', j))
    (k : ℕ) : (t'.slot k).ref = (t.slot k).ref + (if k = j then 1 else 0) ∧
      (t'.slot k).locked = (t.slot k).locked := by
  obtain ⟨-, href, hlock, -, -, -, hother⟩ := iget_some h
  by_cases hk : k = j
  · subst hk
    exact ⟨by rw [href, if_pos rfl], hlock⟩
  · rw [hother k hk, if_neg hk]
    exact ⟨rfl, rfl⟩

theorem idup_ref (t : Itable) (i k : ℕ) :
    ((t.idup i).slot k).ref = (t.slot k).ref + (if k = i then 1 else 0) ∧
      ((t.idup i).slot k).locked = (t.slot k).locked := by
  by_cases hk : k = i
  · subst hk
    simp
  · rw [idup_slot_of_ne t hk, if_neg hk]
    exact ⟨rfl, rfl⟩

theorem ilock_ref {sb : Superblock} {d : Blocks} {t t' : Itable} {i : ℕ}
    (h : ilock sb d t i = some t') (k : ℕ) :
    (t'.slot k).ref = (t.slot k).ref ∧ (t'.slot k).locked = if k = i then true else (t.slot k).locked := by
  obtain ⟨-, -, rfl, -⟩ := ilock_some h
  by_cases hk : k = i
  · subst hk
    simp
  · simp [hk]

theorem iunlock_ref {t t' : Itable} {i : ℕ} (h : iunlock t i = some t') (k : ℕ) :
    (t'.slot k).ref = (t.slot k).ref ∧
      (t'.slot k).locked = if k = i then false else (t.slot k).locked := by
  obtain ⟨-, -, rfl⟩ := iunlock_some h
  by_cases hk : k = i
  · subst hk
    simp
  · simp [hk]

theorem iput_ref {sb : Superblock} {t t' : Itable} {d d' : Blocks} {i : ℕ}
    (h : iput sb t d i = some (t', d')) (hr : 1 ≤ (t.slot i).ref) (k : ℕ) :
    (t'.slot k).ref + (if k = i then 1 else 0) = (t.slot k).ref ∧
      (t'.slot k).locked = (t.slot k).locked := by
  obtain ⟨href, hlock, hother⟩ := iput_some h
  by_cases hk : k = i
  · subst hk
    rw [if_pos rfl, href, hlock]
    exact ⟨by omega, rfl⟩
  · rw [hother k hk, if_neg hk]
    exact ⟨rfl, rfl⟩

theorem iunlockput_ref {sb : Superblock} {t t' : Itable} {d d' : Blocks} {i : ℕ}
    (h : iunlockput sb t d i = some (t', d')) (k : ℕ) :
    (t'.slot k).ref + (if k = i then 1 else 0) = (t.slot k).ref ∧
      (t'.slot k).locked = if k = i then false else (t.slot k).locked := by
  obtain ⟨-, hr, href, hlock, hother⟩ := iunlockput_some h
  by_cases hk : k = i
  · subst hk
    rw [if_pos rfl, if_pos rfl, href, hlock]
    exact ⟨by omega, rfl⟩
  · rw [hother k hk, if_neg hk, if_neg hk]
    exact ⟨rfl, rfl⟩

end Itable

end Xv6
