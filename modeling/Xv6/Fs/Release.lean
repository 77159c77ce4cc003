import Xv6.Fs.Sysfile

/-!
# What `sysfile.c` takes of the inode table, it gives back

A routine of `sysfile.c` takes references on slots of the inode table (`namex`, `iget`) and
their locks (`ilock`) as it goes, and must give each back (`iunlock`, `iput`, `iunlockput`) on
every way out: the `return`s in the middle, the `bad` paths of `sys_link` and `sys_unlink`, and
the `fail` path of `create`. A reference left behind keeps an inode in the table for good, and a
lock left behind hangs the next process that locks the inode.

`Itable.Taken t₀ t R L` is the ledger of a caller at the table `t` that started from `t₀`: it
holds `R k` references on slot `k` and the locks of the slots where `L` holds, each one free in
`t₀`; every other lock is as in `t₀`. Each operation on the table moves the ledger in one rule
(`Taken.iget`, `Taken.ilock`, `Taken.iput`, ...), and the changes to the inode copies and the
disk do not touch it (`Taken.setIp`). The theorems of this file read the ledger at every exit:

* `sys_link_releases`, `sys_unlink_releases`: whenever the call returns, the ledger is empty,
  so every slot has the references and the lock it had;
* `create_releases`: whenever `create` returns, it holds the lock and one reference of the slot
  it returns, and nothing else; on `0` it holds nothing.
-/

namespace Xv6

namespace Itable

@[simp] theorem setIp_slot_ref (t : Itable) (i : ℕ) (ip : Inode) (k : ℕ) :
    ((t.setIp i ip).slot k).ref = (t.slot k).ref := by
  by_cases hk : k = i
  · subst hk
    simp [setIp]
  · simp [setIp, hk]

@[simp] theorem setIp_slot_locked (t : Itable) (i : ℕ) (ip : Inode) (k : ℕ) :
    ((t.setIp i ip).slot k).locked = (t.slot k).locked := by
  by_cases hk : k = i
  · subst hk
    simp [setIp]
  · simp [setIp, hk]

/-! ### The ledger -/

/-- The ledger of a caller at the table `t` that started from `t₀`: `R k` references held on
slot `k`, and the locks of the slots where `L` holds, each free in `t₀`; every other lock is as
in `t₀`. -/
structure Taken (t₀ t : Itable) (R : ℕ → ℕ) (L : ℕ → Bool) : Prop where
  ref : ∀ k, (t.slot k).ref = (t₀.slot k).ref + R k
  locked : ∀ k, (t.slot k).locked = ((t₀.slot k).locked || L k)
  free : ∀ k, L k = true → (t₀.slot k).locked = false

section Taken

variable {sb : Superblock} {d d' : Blocks} {t₀ t t' : Itable} {R S : ℕ → ℕ} {L M : ℕ → Bool}
  {i : ℕ}

/-- Nothing is held at the start. -/
theorem Taken.refl (t : Itable) : Taken t t (fun _ => 0) (fun _ => false) :=
  ⟨fun _ => rfl, fun _ => (Bool.or_false _).symm, fun _ h => absurd h (by simp)⟩

/-- The same ledger, written another way. -/
theorem Taken.congr (h : Taken t₀ t R L) (hR : ∀ k, R k = S k) (hL : ∀ k, L k = M k) :
    Taken t₀ t S M :=
  ⟨fun k => hR k ▸ h.ref k, fun k => hL k ▸ h.locked k, fun k hk => h.free k (hL k ▸ hk)⟩

/-- A change to an inode's copy leaves the ledger as it was. -/
theorem Taken.setIp (h : Taken t₀ t R L) (i : ℕ) (ip : Inode) : Taken t₀ (t.setIp i ip) R L :=
  ⟨fun k => by rw [setIp_slot_ref, h.ref k], fun k => by rw [setIp_slot_locked, h.locked k],
    h.free⟩

/-- `relink` changes an inode's copy only. -/
theorem Taken.relink {f : ℕ → ℕ} (h : Taken t₀ t R L) (hrel : relink sb t d i f = (t', d')) :
    Taken t₀ t' R L := by
  rw [Xv6.relink, Prod.mk.injEq] at hrel
  rw [← hrel.1]
  exact h.setIp _ _

/-- A link count changed or not, as a branch decides. -/
theorem Taken.relinkIf {c : Prop} [Decidable c] {f : ℕ → ℕ} (h : Taken t₀ t R L)
    (hrel : Xv6.relinkIf sb c t d i f = (t', d')) : Taken t₀ t' R L := by
  unfold Xv6.relinkIf at hrel
  split_ifs at hrel
  · exact h.relink hrel
  · cases hrel
    exact h

/-- What `namex` does to the table: one reference more on the slot it returns. -/
theorem Taken.moved {b : Option ℕ} (h : Taken t₀ t R L) (hm : Moved t t' none b) :
    Taken t₀ t' (fun k => R k + oneAt b k) L := by
  refine ⟨fun k => ?_, fun k => ?_, h.free⟩
  · have hk := (hm k).1
    rw [oneAt_none, Nat.add_zero] at hk
    rw [hk, h.ref k, Nat.add_assoc]
  · rw [(hm k).2, h.locked k]

/-- `iget`: one reference more on the slot it hands out. -/
theorem Taken.iget {dev : UInt32} {inum j : ℕ} (h : Taken t₀ t R L)
    (hg : t.iget dev inum = some (t', j)) : Taken t₀ t' (fun k => R k + oneAt (some j) k) L :=
  h.moved (moved_iget hg)

/-- `ilock`: the slot was not locked by the caller, and now it is. -/
theorem Taken.ilock (h : Taken t₀ t R L) (hl : t.ilock sb d i = some t') :
    L i = false ∧ Taken t₀ t' R (fun k => L k || decide (k = i)) := by
  have hfree : (t.slot i).locked = false := (ilock_some hl).2.1
  have hLi : L i = false ∧ (t₀.slot i).locked = false := by
    rw [h.locked i, Bool.or_eq_false_iff] at hfree
    exact ⟨hfree.2, hfree.1⟩
  refine ⟨hLi.1, fun k => ?_, fun k => ?_, fun k hk => ?_⟩
  · rw [(ilock_ref hl k).1, h.ref k]
  · rw [(ilock_ref hl k).2]
    by_cases hk : k = i
    · simp [hk]
    · simp [hk, h.locked k]
  · by_cases hki : k = i
    · rw [hki]
      exact hLi.2
    · simp only [hki, decide_false, Bool.or_false] at hk
      exact h.free k hk

/-- `iunlock` of a slot the caller locked. -/
theorem Taken.iunlock (h : Taken t₀ t R L) (hu : t.iunlock i = some t')
    (hL : ∀ k, L k = (M k || decide (k = i))) (hM : M i = false) : Taken t₀ t' R M := by
  have hfree : (t₀.slot i).locked = false := h.free i (by simp [hL])
  refine ⟨fun k => by rw [(iunlock_ref hu k).1, h.ref k], fun k => ?_, fun k hk => ?_⟩
  · rw [(iunlock_ref hu k).2]
    by_cases hk : k = i
    · simp [hk, hfree, hM]
    · simp [hk, h.locked k, hL k]
  · exact h.free k (by simp [hL k, hk])

/-- `iput` of a reference the caller holds. -/
theorem Taken.iput (h : Taken t₀ t R L) (hp : Itable.iput sb t d i = some (t', d'))
    (hR : ∀ k, R k = S k + oneAt (some i) k) : Taken t₀ t' S L := by
  have hr : 1 ≤ (t.slot i).ref := by
    rw [h.ref i, hR i, oneAt_some, if_pos rfl]
    omega
  refine ⟨fun k => ?_, fun k => by rw [(iput_ref hp hr k).2, h.locked k], h.free⟩
  have hk := (iput_ref hp hr k).1
  rw [h.ref k, hR k, oneAt_some] at hk
  omega

/-- `iunlockput` of a slot the caller locked and holds a reference on. -/
theorem Taken.iunlockput (h : Taken t₀ t R L) (hp : Itable.iunlockput sb t d i = some (t', d'))
    (hR : ∀ k, R k = S k + oneAt (some i) k) (hL : ∀ k, L k = (M k || decide (k = i)))
    (hM : M i = false) : Taken t₀ t' S M := by
  unfold Itable.iunlockput at hp
  cases hu : t.iunlock i with
  | none => rw [hu] at hp; cases hp
  | some t₁ =>
    rw [hu] at hp
    exact (h.iunlock hu hL hM).iput hp hR

/-- `dirlink` gives back the reference its `dirlookup` takes on a name that is there. -/
theorem Taken.dirlink {dev : UInt32} {dp dp' : Inode} {mem mem' : Mem} {name : List UInt8}
    {inum de : ℕ} {r : ℤ} (h : Taken t₀ t R L)
    (hw : Xv6.dirlink sb t dev dp d mem name inum de = some (r, t', dp', d', mem')) :
    Taken t₀ t' R L := by
  rcases dirlink_table hw with rfl | ⟨inum₁, j, t₁, d₁, hg, hput⟩
  · exact h
  · exact (h.iget hg).iput hput fun _ => rfl

end Taken

end Itable

open Itable

/-! ### `sys_link` -/

section Link

variable {sb : Superblock} {d d' : Blocks} {mem mem' : Mem} {t₀ t t' : Itable} {R : ℕ → ℕ}
  {L : ℕ → Bool} {r : ℤ} {ip dp : ℕ}

/-- The `bad` path of `sys_link` gives back the reference on `ip`, and leaves it unlocked. -/
theorem linkBad_taken (h : Taken t₀ t R L) (hR : ∀ k, R k = oneAt (some ip) k)
    (hL : ∀ k, L k = false) (hrun : linkBad sb t d mem ip = some (r, t', d', mem')) :
    r = -1 ∧ Taken t₀ t' (fun _ => 0) (fun _ => false) := by
  unfold linkBad at hrun
  cases hl : t.ilock sb d ip with
  | none => rw [hl] at hrun; cases hrun
  | some t₁ =>
    rw [hl] at hrun
    dsimp only at hrun
    obtain ⟨-, h₁⟩ := h.ilock hl
    cases hrel : relink sb t₁ d ip shortPred with
    | mk t₂ d₂ =>
      rw [hrel] at hrun
      dsimp only at hrun
      obtain ⟨⟨t₃, d₃⟩, hp, heq⟩ := Option.map_eq_some_iff.mp hrun
      simp only [Prod.mk.injEq] at heq
      obtain ⟨rfl, rfl, rfl, rfl⟩ := heq
      exact ⟨rfl, (h₁.relink hrel).iunlockput hp (fun k => by simp [hR k])
        (fun k => by simp [hL k]) rfl⟩

/-- `iunlockput(dp); goto bad;` gives back both references and the lock of `dp`. -/
theorem linkUnlockBad_taken (h : Taken t₀ t R L)
    (hR : ∀ k, R k = oneAt (some ip) k + oneAt (some dp) k) (hL : ∀ k, L k = decide (k = dp))
    (hrun : linkUnlockBad sb t d mem dp ip = some (r, t', d', mem')) :
    r = -1 ∧ Taken t₀ t' (fun _ => 0) (fun _ => false) := by
  unfold linkUnlockBad at hrun
  cases hp : Itable.iunlockput sb t d dp with
  | none => rw [hp] at hrun; cases hrun
  | some q =>
    obtain ⟨t₁, d₁⟩ := q
    rw [hp] at hrun
    have h₁ := h.iunlockput hp (S := oneAt (some ip)) (M := fun _ => false) hR
      (fun k => by simp [hL k]) rfl
    exact linkBad_taken h₁ (fun _ => rfl) (fun _ => rfl) hrun

/-- `sys_link` from `nameiparent(new, name)` on, holding one reference on `ip`, gives it back
and takes nothing else. -/
theorem linkParent_taken {cwd de : ℕ} {new name : List UInt8} (h : Taken t₀ t R L)
    (hR : ∀ k, R k = oneAt (some ip) k) (hL : ∀ k, L k = false)
    (hrun : linkParent sb t d mem cwd new name ip de = some (r, t', d', mem')) :
    Taken t₀ t' (fun _ => 0) (fun _ => false) := by
  unfold linkParent at hrun
  cases hn : namex sb d mem t cwd new true name de with
  | none => rw [hn] at hrun; cases hrun
  | some q =>
    obtain ⟨b, name₁, t₁, d₁, mem₁⟩ := q
    rw [hn] at hrun
    have h₁ := h.moved (namex_moved hn)
    cases b with
    | none =>
      -- no parent: `goto bad`
      exact (linkBad_taken h₁ (fun k => by simp [hR k]) hL hrun).2
    | some dp =>
      dsimp only at hrun
      cases hl : t₁.ilock sb d₁ dp with
      | none => rw [hl] at hrun; cases hrun
      | some t₂ =>
        rw [hl] at hrun
        dsimp only at hrun
        obtain ⟨-, h₂⟩ := h₁.ilock hl
        have hR₂ : ∀ k, R k + oneAt (some dp) k = oneAt (some ip) k + oneAt (some dp) k :=
          fun k => by rw [hR k]
        have hL₂ : ∀ k, (L k || decide (k = dp)) = decide (k = dp) := fun k => by simp [hL k]
        split_ifs at hrun with hdev
        · -- another device
          exact (linkUnlockBad_taken h₂ hR₂ hL₂ hrun).2
        · cases hw : dirlink sb t₂ (t₂.slot dp).dev (t₂.slot dp).ip d₁ mem₁ name₁
              (t₂.slot ip).ip.inum de with
          | none => rw [hw] at hrun; cases hrun
          | some q =>
            obtain ⟨r₁, t₃, dpi, d₂, mem₂⟩ := q
            rw [hw] at hrun
            dsimp only at hrun
            have h₃ := (h₂.dirlink hw).setIp dp dpi
            split_ifs at hrun with hr₁
            · -- `dirlink` failed
              exact (linkUnlockBad_taken h₃ hR₂ hL₂ hrun).2
            · cases hp : Itable.iunlockput sb (t₃.setIp dp dpi) d₂ dp with
              | none => rw [hp] at hrun; cases hrun
              | some q =>
                obtain ⟨t₄, d₄⟩ := q
                rw [hp] at hrun
                dsimp only at hrun
                obtain ⟨⟨t₅, d₅⟩, hput, heq⟩ := Option.map_eq_some_iff.mp hrun
                simp only [Prod.mk.injEq] at heq
                obtain ⟨-, rfl, -, -⟩ := heq
                have h₄ := h₃.iunlockput hp (S := oneAt (some ip)) (M := fun _ => false) hR₂
                  (fun k => by simp [hL₂ k]) rfl
                exact h₄.iput hput fun k => by simp

/-- **`sys_link` gives back what it takes.** Whenever it returns, on the way out of the
middle, of `bad` or of the end, it holds no reference and no lock: every slot of the inode table
has the references and the lock it had. -/
theorem sys_link_releases {cwd de : ℕ} {old new name : List UInt8}
    (hrun : sys_link sb d mem t cwd old new name de = some (r, t', d', mem')) :
    Taken t t' (fun _ => 0) (fun _ => false) := by
  unfold sys_link at hrun
  cases hn : namex sb d mem t cwd old false name de with
  | none => rw [hn] at hrun; cases hrun
  | some q =>
    obtain ⟨b, name₁, t₁, d₁, mem₁⟩ := q
    rw [hn] at hrun
    have h₁ := (Taken.refl t).moved (namex_moved hn)
    cases b with
    | none =>
      -- `old` is not there
      cases hrun
      exact h₁.congr (fun k => by simp) (fun _ => rfl)
    | some ip =>
      dsimp only at hrun
      cases hl : t₁.ilock sb d₁ ip with
      | none => rw [hl] at hrun; cases hrun
      | some t₂ =>
        rw [hl] at hrun
        dsimp only at hrun
        obtain ⟨-, h₂⟩ := h₁.ilock hl
        split_ifs at hrun with hdir
        · -- a directory cannot be linked
          obtain ⟨⟨t₃, d₃⟩, hp, heq⟩ := Option.map_eq_some_iff.mp hrun
          simp only [Prod.mk.injEq] at heq
          obtain ⟨-, rfl, -, -⟩ := heq
          exact h₂.iunlockput hp (fun k => by simp) (fun k => by simp) rfl
        · -- the link count raised, `ip` unlocked, and on to the parent of `new`
          cases hrel : relink sb t₂ d₁ ip shortSucc with
          | mk t₃ d₃ =>
            rw [hrel] at hrun
            dsimp only at hrun
            cases hu : t₃.iunlock ip with
            | none => rw [hu] at hrun; cases hrun
            | some t₄ =>
              rw [hu] at hrun
              have h₄ := (h₂.relink hrel).iunlock hu (M := fun _ => false) (fun k => by simp) rfl
              exact linkParent_taken h₄ (fun k => by simp) (fun _ => rfl) hrun

/-- `link("/", "/b")` on the disk with only the root directory: `/` is a directory, so the call
returns `-1` from the middle. -/
theorem sys_link_releases_dir :
    ∃ r t' d' mem', sys_link Superblock.mkfs rootDisk memZero emptyItable 0 [47] [47, 98] [] 0 =
      some (r, t', d', mem') ∧ Taken emptyItable t' (fun _ => 0) (fun _ => false) := by
  have hs : (sys_link Superblock.mkfs rootDisk memZero emptyItable 0 [47] [47, 98] [] 0).isSome =
      true := by decide +kernel
  obtain ⟨⟨r, t', d', mem'⟩, hr⟩ := Option.isSome_iff_exists.mp hs
  exact ⟨r, t', d', mem', hr, sys_link_releases hr⟩

end Link

/-! ### `sys_unlink` -/

section Unlink

variable {sb : Superblock} {d d' : Blocks} {mem mem' : Mem} {t₀ t t' : Itable} {R : ℕ → ℕ}
  {L : ℕ → Bool} {r : ℤ} {ip dp : ℕ}

/-- The `bad` path of `sys_unlink` gives back the reference and the lock of `dp`. -/
theorem unlinkBad_taken (h : Taken t₀ t R L) (hR : ∀ k, R k = oneAt (some dp) k)
    (hL : ∀ k, L k = decide (k = dp)) (hrun : unlinkBad sb t d mem dp = some (r, t', d', mem')) :
    r = -1 ∧ Taken t₀ t' (fun _ => 0) (fun _ => false) := by
  obtain ⟨⟨t₁, d₁⟩, hp, heq⟩ := Option.map_eq_some_iff.mp hrun
  simp only [Prod.mk.injEq] at heq
  obtain ⟨rfl, rfl, rfl, rfl⟩ := heq
  exact ⟨rfl, h.iunlockput hp (fun k => by simp [hR k]) (fun k => by simp [hL k]) rfl⟩

/-- `sys_unlink` from the locked entry on gives back both inodes, each unlocked and put, on the
way out of `bad` as at the end. -/
theorem unlinkEntry_taken {off de : ℕ} (h : Taken t₀ t R L)
    (hR : ∀ k, R k = oneAt (some dp) k + oneAt (some ip) k)
    (hL : ∀ k, L k = (decide (k = dp) || decide (k = ip))) (hne : ip ≠ dp)
    (hrun : unlinkEntry sb t d mem dp ip off de = some (r, t', d', mem')) :
    Taken t₀ t' (fun _ => 0) (fun _ => false) := by
  have hdp : decide (ip = dp) = false := decide_eq_false hne
  unfold unlinkEntry at hrun
  by_cases hlt : shortLtOne (t.slot ip).ip.nlink
  · rw [if_pos hlt] at hrun
    cases hrun
  rw [if_neg hlt] at hrun
  dsimp only at hrun
  split at hrun
  · cases hrun
  · -- a directory with entries: `iunlockput(ip); goto bad;`
    rename_i ipi d₁ mem₁ _
    cases hp : Itable.iunlockput sb (t.setIp ip ipi) d₁ ip with
    | none => rw [hp] at hrun; cases hrun
    | some q =>
      obtain ⟨t₂, d₂⟩ := q
      rw [hp] at hrun
      have h₂ := (h.setIp ip ipi).iunlockput hp hR hL hdp
      exact (unlinkBad_taken h₂ (fun _ => rfl) (fun _ => rfl) hrun).2
  · -- the entry zeroed and the link counts lowered
    rename_i ipi d₁ mem₁ _
    have h₁ := h.setIp ip ipi
    split at hrun
    · cases hrun
    · rename_i r₁ dpi d₂ _
      split_ifs at hrun with hr₁
      have h₂ := h₁.setIp dp dpi
      cases hrel : relinkIf sb ((((t.setIp ip ipi).setIp dp dpi).slot ip).ip.type = T_DIR)
          ((t.setIp ip ipi).setIp dp dpi) d₂ dp shortPred with
      | mk t₃ d₃ =>
      rw [hrel] at hrun
      dsimp only at hrun
      have h₃ := h₂.relinkIf hrel
      cases hp : Itable.iunlockput sb t₃ d₃ dp with
      | none => rw [hp] at hrun; cases hrun
      | some q =>
        obtain ⟨t₄, d₄⟩ := q
        rw [hp] at hrun
        dsimp only at hrun
        have h₄ := h₃.iunlockput hp (S := oneAt (some ip)) (M := fun k => decide (k = ip))
          (fun k => by rw [hR k, Nat.add_comm]) (fun k => by rw [hL k, Bool.or_comm])
          (decide_eq_false (Ne.symm hne))
        cases hrel₂ : relink sb t₄ d₄ ip shortPred with
        | mk t₅ d₅ =>
          rw [hrel₂] at hrun
          dsimp only at hrun
          obtain ⟨⟨t₆, d₆⟩, hp₂, heq⟩ := Option.map_eq_some_iff.mp hrun
          simp only [Prod.mk.injEq] at heq
          obtain ⟨-, rfl, -, -⟩ := heq
          exact (h₄.relink hrel₂).iunlockput hp₂ (fun k => by simp) (fun k => by simp) rfl

/-- **`sys_unlink` gives back what it takes.** Whenever it returns, on the way out of the
middle, of `bad` or of the end, it holds no reference and no lock: every slot of the inode table
has the references and the lock it had. -/
theorem sys_unlink_releases {cwd de : ℕ} {path name : List UInt8}
    (hrun : sys_unlink sb d mem t cwd path name de = some (r, t', d', mem')) :
    Taken t t' (fun _ => 0) (fun _ => false) := by
  unfold sys_unlink at hrun
  cases hn : namex sb d mem t cwd path true name de with
  | none => rw [hn] at hrun; cases hrun
  | some q =>
    obtain ⟨b, name₁, t₁, d₁, mem₁⟩ := q
    rw [hn] at hrun
    have h₁ := (Taken.refl t).moved (namex_moved hn)
    cases b with
    | none =>
      -- no parent
      cases hrun
      exact h₁.congr (fun k => by simp) (fun _ => rfl)
    | some dp =>
      dsimp only at hrun
      cases hl : t₁.ilock sb d₁ dp with
      | none => rw [hl] at hrun; cases hrun
      | some t₂ =>
        rw [hl] at hrun
        dsimp only at hrun
        obtain ⟨-, h₂⟩ := h₁.ilock hl
        have hR₂ : ∀ k, (0 + oneAt (some dp) k) = oneAt (some dp) k := fun k => Nat.zero_add _
        have hL₂ : ∀ k, (false || decide (k = dp)) = decide (k = dp) := fun k => Bool.false_or _
        split_ifs at hrun with hdot
        · -- `.` or `..`
          exact (unlinkBad_taken h₂ hR₂ hL₂ hrun).2
        · cases hdl : dirlookupScan sb (t₂.slot dp).ip d₁ mem₁ name₁ de with
          | none => rw [hdl] at hrun; cases hrun
          | some q =>
            obtain ⟨found, dpi, d₂, mem₂⟩ := q
            rw [hdl] at hrun
            have h₃ := h₂.setIp dp dpi
            cases found with
            | none =>
              -- no such name
              exact (unlinkBad_taken h₃ hR₂ hL₂ hrun).2
            | some f =>
              obtain ⟨inum, off⟩ := f
              dsimp only at hrun
              cases hg : (t₂.setIp dp dpi).iget ((t₂.setIp dp dpi).slot dp).dev inum with
              | none => rw [hg] at hrun; cases hrun
              | some q =>
                obtain ⟨t₄, ip⟩ := q
                rw [hg] at hrun
                dsimp only at hrun
                have h₄ := h₃.iget hg
                cases hl₂ : t₄.ilock sb d₂ ip with
                | none => rw [hl₂] at hrun; cases hrun
                | some t₅ =>
                  rw [hl₂] at hrun
                  dsimp only at hrun
                  obtain ⟨hfree, h₅⟩ := h₄.ilock hl₂
                  have hne : ip ≠ dp := fun he => by simp [he] at hfree
                  exact unlinkEntry_taken h₅ (fun k => by simp) (fun k => by simp) hne hrun

/-- `unlink("/.")` on the disk with only the root directory: `.` cannot be unlinked, and the
root goes back through `bad`. -/
theorem sys_unlink_releases_dot :
    ∃ r t' d' mem', sys_unlink Superblock.mkfs rootDisk memZero emptyItable 0 [47, 46] [] 0 =
      some (r, t', d', mem') ∧ Taken emptyItable t' (fun _ => 0) (fun _ => false) := by
  have hs : (sys_unlink Superblock.mkfs rootDisk memZero emptyItable 0 [47, 46] [] 0).isSome =
      true := by decide +kernel
  obtain ⟨⟨r, t', d', mem'⟩, hr⟩ := Option.isSome_iff_exists.mp hs
  exact ⟨r, t', d', mem', hr, sys_unlink_releases hr⟩

end Unlink

/-! ### `create` -/

section Create

variable {sb : Superblock} {d d' : Blocks} {mem mem' : Mem} {t₀ t t' : Itable} {R : ℕ → ℕ}
  {L : ℕ → Bool} {r : Option ℕ} {ip dp : ℕ} {name : List UInt8} {type de : ℕ}

/-- The `fail` path of `create` gives back both inodes and returns `0`. -/
theorem createFail_taken (h : Taken t₀ t R L)
    (hR : ∀ k, R k = oneAt (some dp) k + oneAt (some ip) k)
    (hL : ∀ k, L k = (decide (k = dp) || decide (k = ip))) (hne : ip ≠ dp)
    (hrun : createFail sb t d mem dp ip = some (r, t', d', mem')) :
    r = none ∧ Taken t₀ t' (fun _ => 0) (fun _ => false) := by
  unfold createFail at hrun
  cases hrel : relink sb t d ip (fun _ => 0) with
  | mk t₁ d₁ =>
    rw [hrel] at hrun
    dsimp only at hrun
    cases hp : Itable.iunlockput sb t₁ d₁ ip with
    | none => rw [hp] at hrun; cases hrun
    | some q =>
      obtain ⟨t₂, d₂⟩ := q
      rw [hp] at hrun
      dsimp only at hrun
      have h₂ := (h.relink hrel).iunlockput hp (M := fun k => decide (k = dp)) hR hL
        (decide_eq_false hne)
      obtain ⟨⟨t₃, d₃⟩, hp₂, heq⟩ := Option.map_eq_some_iff.mp hrun
      simp only [Prod.mk.injEq] at heq
      obtain ⟨rfl, rfl, -, -⟩ := heq
      exact ⟨rfl, h₂.iunlockput hp₂ (fun k => by simp) (fun k => by simp) rfl⟩

/-- `create` from the `dirlink` of the name on: either the new inode is returned, locked and
with its reference, or the `fail` path gives both back. -/
theorem createLink_taken (h : Taken t₀ t R L)
    (hR : ∀ k, R k = oneAt (some dp) k + oneAt (some ip) k)
    (hL : ∀ k, L k = (decide (k = dp) || decide (k = ip))) (hne : ip ≠ dp)
    (hrun : createLink sb t d mem dp ip name type de = some (r, t', d', mem')) :
    Taken t₀ t' (oneAt r) (fun k => decide (r = some k)) := by
  unfold createLink at hrun
  cases hw : dirlink sb t (t.slot dp).dev (t.slot dp).ip d mem name (t.slot ip).ip.inum de with
  | none => rw [hw] at hrun; cases hrun
  | some q =>
    obtain ⟨r₁, t₁, dpi, d₁, mem₁⟩ := q
    rw [hw] at hrun
    dsimp only at hrun
    have h₁ := (h.dirlink hw).setIp dp dpi
    split_ifs at hrun with hr₁
    · -- `dirlink` failed
      obtain ⟨rfl, h₂⟩ := createFail_taken h₁ hR hL hne hrun
      exact h₂.congr (fun _ => rfl) (fun _ => by simp)
    · cases hrel : relinkIf sb (type = T_DIR) (t₁.setIp dp dpi) d₁ dp shortSucc with
      | mk t₂ d₂ =>
        rw [hrel] at hrun
        dsimp only at hrun
        obtain ⟨⟨t₃, d₃⟩, hp, heq⟩ := Option.map_eq_some_iff.mp hrun
        simp only [Prod.mk.injEq] at heq
        obtain ⟨rfl, rfl, -, -⟩ := heq
        have h₃ := (h₁.relinkIf hrel).iunlockput hp (S := oneAt (some ip))
          (M := fun k => decide (k = ip)) (fun k => by rw [hR k, Nat.add_comm])
          (fun k => by rw [hL k, Bool.or_comm]) (decide_eq_false (Ne.symm hne))
        exact h₃.congr (fun _ => rfl) (fun k => by simp [eq_comm])

/-- `create` with the new inode set up: its `.` and `..` for a directory, then the name. -/
theorem createDots_taken (h : Taken t₀ t R L)
    (hR : ∀ k, R k = oneAt (some dp) k + oneAt (some ip) k)
    (hL : ∀ k, L k = (decide (k = dp) || decide (k = ip))) (hne : ip ≠ dp)
    (hrun : createDots sb t d mem dp ip name type de = some (r, t', d', mem')) :
    Taken t₀ t' (oneAt r) (fun k => decide (r = some k)) := by
  unfold createDots at hrun
  split_ifs at hrun with hdir
  · cases hw : dirlink sb t (t.slot ip).dev (t.slot ip).ip d mem dot (t.slot ip).ip.inum de with
    | none => rw [hw] at hrun; cases hrun
    | some q =>
      obtain ⟨r₁, t₁, ipi, d₁, mem₁⟩ := q
      rw [hw] at hrun
      dsimp only at hrun
      have h₁ := (h.dirlink hw).setIp ip ipi
      split_ifs at hrun with hr₁
      · -- no room for `.`
        obtain ⟨rfl, h₂⟩ := createFail_taken h₁ hR hL hne hrun
        exact h₂.congr (fun _ => rfl) (fun _ => by simp)
      · cases hw₂ : dirlink sb (t₁.setIp ip ipi) ((t₁.setIp ip ipi).slot ip).dev
            ((t₁.setIp ip ipi).slot ip).ip d₁ mem₁ dotdot ((t₁.setIp ip ipi).slot dp).ip.inum
            de with
        | none => rw [hw₂] at hrun; cases hrun
        | some q =>
          obtain ⟨r₂, t₂, ipi₂, d₂, mem₂⟩ := q
          rw [hw₂] at hrun
          dsimp only at hrun
          have h₂ := (h₁.dirlink hw₂).setIp ip ipi₂
          split_ifs at hrun with hr₂
          · -- no room for `..`
            obtain ⟨rfl, h₃⟩ := createFail_taken h₂ hR hL hne hrun
            exact h₃.congr (fun _ => rfl) (fun _ => by simp)
          · exact createLink_taken h₂ hR hL hne hrun
  · exact createLink_taken h hR hL hne hrun

/-- `create` of a new inode, with the directory `dp` locked and referenced. -/
theorem createNew_taken {major minor : ℕ} (h : Taken t₀ t R L) (hR : ∀ k, R k = oneAt (some dp) k)
    (hL : ∀ k, L k = decide (k = dp))
    (hrun : createNew sb t d mem dp name type major minor de = some (r, t', d', mem')) :
    Taken t₀ t' (oneAt r) (fun k => decide (r = some k)) := by
  unfold createNew at hrun
  dsimp only at hrun
  split_ifs at hrun with hnone
  · -- no free inode
    obtain ⟨⟨t₁, d₁⟩, hp, heq⟩ := Option.map_eq_some_iff.mp hrun
    simp only [Prod.mk.injEq] at heq
    obtain ⟨rfl, rfl, -, -⟩ := heq
    exact h.iunlockput hp (S := oneAt none) (M := fun _ => false) (fun k => by simp [hR k])
      (fun k => by simp [hL k]) rfl
  · cases hg : t.iget (t.slot dp).dev (ialloc sb d type).1 with
    | none => rw [hg] at hrun; cases hrun
    | some q =>
      obtain ⟨t₁, ip⟩ := q
      rw [hg] at hrun
      dsimp only at hrun
      cases hl : t₁.ilock sb (ialloc sb d type).2 ip with
      | none => rw [hl] at hrun; cases hrun
      | some t₂ =>
        rw [hl] at hrun
        dsimp only at hrun
        obtain ⟨hfree, h₂⟩ := (h.iget hg).ilock hl
        have hne : ip ≠ dp := fun he => by simp [hL, he] at hfree
        exact createDots_taken (h₂.setIp _ _) (fun k => by rw [hR k]) (fun k => by rw [hL k])
          hne hrun

/-- **`create` takes one inode, and gives back everything else.** Whenever it returns, it
holds the lock and one reference of the slot it returns and nothing else, and nothing at all
when it returns `0`: on the way out of the middle, of `fail` or of the end. -/
theorem create_releases {cwd major minor : ℕ} {path : List UInt8}
    (hrun : create sb d mem t cwd path name type major minor de = some (r, t', d', mem')) :
    Taken t t' (oneAt r) (fun k => decide (r = some k)) := by
  unfold create at hrun
  cases hn : namex sb d mem t cwd path true name de with
  | none => rw [hn] at hrun; cases hrun
  | some q =>
    obtain ⟨b, name₁, t₁, d₁, mem₁⟩ := q
    rw [hn] at hrun
    have h₁ := (Taken.refl t).moved (namex_moved hn)
    cases b with
    | none =>
      -- no parent
      cases hrun
      exact h₁.congr (fun k => by simp) (fun _ => by simp)
    | some dp =>
      dsimp only at hrun
      cases hl : t₁.ilock sb d₁ dp with
      | none => rw [hl] at hrun; cases hrun
      | some t₂ =>
        rw [hl] at hrun
        dsimp only at hrun
        obtain ⟨-, h₂⟩ := h₁.ilock hl
        cases hdl : dirlookupScan sb (t₂.slot dp).ip d₁ mem₁ name₁ de with
        | none => rw [hdl] at hrun; cases hrun
        | some q =>
          obtain ⟨found, dpi, d₂, mem₂⟩ := q
          rw [hdl] at hrun
          have h₃ := h₂.setIp dp dpi
          cases found with
          | none =>
            -- a new inode
            exact createNew_taken h₃ (fun k => by simp) (fun k => by simp) hrun
          | some f =>
            -- the name is there
            obtain ⟨inum, off⟩ := f
            dsimp only at hrun
            cases hg : (t₂.setIp dp dpi).iget ((t₂.setIp dp dpi).slot dp).dev inum with
            | none => rw [hg] at hrun; cases hrun
            | some q =>
              obtain ⟨t₄, ip⟩ := q
              rw [hg] at hrun
              dsimp only at hrun
              cases hp : Itable.iunlockput sb t₄ d₂ dp with
              | none => rw [hp] at hrun; cases hrun
              | some q =>
                obtain ⟨t₅, d₅⟩ := q
                rw [hp] at hrun
                dsimp only at hrun
                have h₅ := (h₃.iget hg).iunlockput hp (S := oneAt (some ip))
                  (M := fun _ => false) (fun k => by simp [Nat.add_comm]) (fun k => by simp) rfl
                cases hl₂ : t₅.ilock sb d₅ ip with
                | none => rw [hl₂] at hrun; cases hrun
                | some t₆ =>
                  rw [hl₂] at hrun
                  dsimp only at hrun
                  obtain ⟨-, h₆⟩ := h₅.ilock hl₂
                  split_ifs at hrun with hfile
                  · -- an existing file or device, returned locked
                    cases hrun
                    exact h₆.congr (fun _ => rfl) (fun k => by simp [eq_comm])
                  · obtain ⟨⟨t₇, d₇⟩, hp₂, heq⟩ := Option.map_eq_some_iff.mp hrun
                    simp only [Prod.mk.injEq] at heq
                    obtain ⟨rfl, rfl, -, -⟩ := heq
                    exact h₆.iunlockput hp₂ (S := oneAt none) (M := fun _ => false)
                      (fun k => by simp) (fun k => by simp) rfl

/-- `create("/a", T_FILE, 0, 0)` on the disk with only the root directory: a new inode, in the
second slot of the table, returned locked. -/
theorem create_releases_file :
    ∃ r t' d' mem', create Superblock.mkfs rootDisk memZero emptyItable 0 [47, 97] [] Mkfs.T_FILE
      0 0 0 = some (r, t', d', mem') ∧ r = some 1 ∧
      Taken emptyItable t' (oneAt r) (fun k => decide (r = some k)) := by
  have hs : (create Superblock.mkfs rootDisk memZero emptyItable 0 [47, 97] [] Mkfs.T_FILE 0 0
      0).map (·.1) = some (some 1) := by decide +kernel
  obtain ⟨⟨r, t', d', mem'⟩, hr, hr₁⟩ := Option.map_eq_some_iff.mp hs
  exact ⟨r, t', d', mem', hr, hr₁, create_releases hr⟩

end Create

end Xv6
