import Xv6.Fs.Inode

/-!
# Inodes on the disk (`ilock`, `iupdate`, `ialloc` in `fs.c`)

Inode `i` lives in dinode `i % IPB` of block `IBLOCK(i, sb)`: sixteen little-endian words,
`type | major << 16`, `minor | nlink << 16`, `size` and the thirteen `addrs`. `getDinode` reads
one back as `ilock` copies it into `struct inode`, and `dinode sb d i` is inode `i` as the disk
`d` has it.

Writing an inode back and reading it again gives it with each field cut to its width in
`struct dinode` (`dinode_iupdate`), and writing one inode leaves every other inode as it was
(`dinode_iupdate_of_ne`), also those that share its block. `ialloc` takes the first inode from
`1` up whose type is `0`, and its spec `ialloc_cases` says so with the zeroed dinode it writes.
-/

namespace Xv6

open Header

/-- `ilock` reading dinode `k` of an inode block into `struct inode` for inode `inum`. -/
def getDinode (b : Block) (k inum : ℕ) : Inode :=
  let w := 16 * k
  { inum := inum
    type := getWord b w % 2 ^ 16
    major := getWord b w / 2 ^ 16
    minor := getWord b (w + 1) % 2 ^ 16
    nlink := getWord b (w + 1) / 2 ^ 16
    size := getWord b (w + 2)
    addrs := fun i => getWord b (w + 3 + i.val) }

/-- Inode `i` as the disk has it. -/
def dinode (sb : Superblock) (d : Blocks) (i : ℕ) : Inode :=
  getDinode (d (IBLOCK i sb)) (i % IPB) i

namespace Inode

/-- What `iupdate` keeps of an inode: each field cut to its width in `struct dinode`, `short`
for the first four and `uint` for the size and the block addresses. -/
def stored (ip : Inode) : Inode :=
  { ip with
    type := ip.type % 2 ^ 16
    major := ip.major % 2 ^ 16
    minor := ip.minor % 2 ^ 16
    nlink := ip.nlink % 2 ^ 16
    size := ip.size % 2 ^ 32
    addrs := fun i => ip.addrs i % 2 ^ 32 }

/-- The dinode `ialloc` writes for inode `inum`: `memset(dip, 0, sizeof(*dip))`, then
`dip->type = type`. -/
def zeroed (inum type : ℕ) : Inode :=
  { inum, type, major := 0, minor := 0, nlink := 0, size := 0, addrs := fun _ => 0 }

@[simp] theorem stored_type (ip : Inode) : ip.stored.type = ip.type % 2 ^ 16 := rfl

@[simp] theorem stored_inum (ip : Inode) : ip.stored.inum = ip.inum := rfl

theorem stored_size {ip : Inode} (h : ip.size < 2 ^ 32) : ip.stored.size = ip.size :=
  Nat.mod_eq_of_lt h

theorem stored_addrs {ip : Inode} (h : ∀ i, ip.addrs i < 2 ^ 32) : ip.stored.addrs = ip.addrs :=
  funext fun i => Nat.mod_eq_of_lt (h i)

end Inode

/-! ### The words of a dinode -/

section Words

variable {n : ℕ} (f : Fin n → ℕ) (w : ℕ)

/-- A word that no store of the loop `for i in l: word[w + i] = f i` aims at is left alone. -/
theorem getWord_foldl_setWord_of_forall_ne {j : ℕ} :
    ∀ (l : List (Fin n)) (b : Block), (∀ i ∈ l, w + i.val ≠ j) →
      getWord (l.foldl (fun b i => setWord b (w + i.val) (f i)) b) j = getWord b j
  | [], _, _ => rfl
  | i :: l, b, h => by
    rw [List.foldl_cons, getWord_foldl_setWord_of_forall_ne l _ fun i' hi' =>
      h i' (List.mem_cons_of_mem _ hi')]
    exact getWord_setWord_of_ne _ _ (h i List.mem_cons_self).symm

/-- The word the loop stores at `w + i` is `f i`, when each index comes once. -/
theorem getWord_foldl_setWord_of_mem {i : Fin n} (hw : 4 * (w + n) ≤ BSIZE) :
    ∀ (l : List (Fin n)) (b : Block), l.Nodup → i ∈ l →
      getWord (l.foldl (fun b i => setWord b (w + i.val) (f i)) b) (w + i.val) = f i % 2 ^ 32
  | [], _, _, hi => absurd hi List.not_mem_nil
  | i' :: l, b, hnd, hi => by
    rw [List.foldl_cons]
    obtain ⟨hi', hnd'⟩ := List.nodup_cons.mp hnd
    by_cases e : i' = i
    · -- the store at `w + i` is this one; the later ones aim elsewhere
      subst e
      rw [getWord_foldl_setWord_of_forall_ne f w l _ fun i₁ h₁ h => hi' (by
        have := Fin.ext (Nat.add_left_cancel h)
        exact this ▸ h₁)]
      exact getWord_setWord_self _ _ (by have := i'.isLt; omega)
    · exact getWord_foldl_setWord_of_mem hw l _ hnd'
        ((List.mem_cons.mp hi).resolve_left (Ne.symm e))

end Words

variable {sb : Superblock} {ip : Inode} {d : Blocks}

/-- Words outside dinode `k` are left alone by `putDinode`. -/
theorem getWord_putDinode_of_not_mem (b : Block) (k : ℕ) (ip : Inode) {j : ℕ}
    (hj : j < 16 * k ∨ 16 * k + 16 ≤ j) : getWord (putDinode b k ip) j = getWord b j := by
  unfold putDinode
  simp only
  rw [getWord_foldl_setWord_of_forall_ne _ _ _ _ fun i _ => by
      have := i.isLt; unfold NDIRECT at this; omega,
    getWord_setWord_of_ne _ _ (by omega), getWord_setWord_of_ne _ _ (by omega),
    getWord_setWord_of_ne _ _ (by omega)]

/-- **Round trip of a dinode.** Reading back dinode `k` after `putDinode` gives the inode with
its fields cut to their widths. -/
theorem getDinode_putDinode (b : Block) {k : ℕ} (hk : k < IPB) (ip : Inode) :
    getDinode (putDinode b k ip) k ip.inum = ip.stored := by
  have hk' : 16 * k + 16 ≤ BSIZE / 4 := by unfold IPB BSIZE at *; omega
  -- the loop over `addrs` stores words `16k + 3` to `16k + 15`, past the three before it
  have hfold : ∀ (b : Block) j, j < 16 * k + 3 →
      getWord ((List.finRange (NDIRECT + 1)).foldl
        (fun b (i : Fin (NDIRECT + 1)) => setWord b (16 * k + 3 + i.val) (ip.addrs i)) b) j =
        getWord b j := fun b j hj =>
    getWord_foldl_setWord_of_forall_ne _ _ _ _ fun i _ => by omega
  have h0 : getWord (putDinode b k ip) (16 * k) =
      ip.type % 2 ^ 16 + 2 ^ 16 * (ip.major % 2 ^ 16) := by
    unfold putDinode
    simp only
    rw [hfold _ _ (by omega), getWord_setWord_of_ne _ _ (by omega),
      getWord_setWord_of_ne _ _ (by omega), getWord_setWord_self _ _ (by unfold BSIZE at *; omega)]
    omega
  have h1 : getWord (putDinode b k ip) (16 * k + 1) =
      ip.minor % 2 ^ 16 + 2 ^ 16 * (ip.nlink % 2 ^ 16) := by
    unfold putDinode
    simp only
    rw [hfold _ _ (by omega), getWord_setWord_of_ne _ _ (by omega),
      getWord_setWord_self _ _ (by unfold BSIZE at *; omega)]
    omega
  have h2 : getWord (putDinode b k ip) (16 * k + 2) = ip.size % 2 ^ 32 := by
    unfold putDinode
    simp only
    rw [hfold _ _ (by omega), getWord_setWord_self _ _ (by unfold BSIZE at *; omega)]
  have h3 : ∀ i : Fin (NDIRECT + 1),
      getWord (putDinode b k ip) (16 * k + 3 + i.val) = ip.addrs i % 2 ^ 32 := fun i => by
    unfold putDinode
    exact getWord_foldl_setWord_of_mem _ _ (by unfold NDIRECT BSIZE at *; omega) _ _
      (List.nodup_finRange _) (List.mem_finRange i)
  simp only [getDinode, h0, h1, h2, h3, Inode.stored]
  congr 1 <;> omega

/-- Storing dinode `k` leaves the other dinodes of the block alone. -/
theorem getDinode_putDinode_of_ne (b : Block) {k k' : ℕ} (h : k' ≠ k) (ip : Inode) (i : ℕ) :
    getDinode (putDinode b k ip) k' i = getDinode b k' i := by
  have h0 := getWord_putDinode_of_not_mem b k ip (j := 16 * k') (by omega)
  have h1 := getWord_putDinode_of_not_mem b k ip (j := 16 * k' + 1) (by omega)
  have h2 := getWord_putDinode_of_not_mem b k ip (j := 16 * k' + 2) (by omega)
  have h3 : ∀ i : Fin (NDIRECT + 1), getWord (putDinode b k ip) (16 * k' + 3 + i.val) =
      getWord b (16 * k' + 3 + i.val) := fun i =>
    getWord_putDinode_of_not_mem _ _ _ (by have := i.isLt; unfold NDIRECT at this; omega)
  simp only [getDinode, h0, h1, h2, h3]

/-! ### `iupdate` seen through `ilock` -/

/-- An inode is read from its block only. -/
theorem dinode_congr {d' : Blocks} {i : ℕ} (h : d' (IBLOCK i sb) = d (IBLOCK i sb)) :
    dinode sb d' i = dinode sb d i := by
  unfold dinode
  rw [h]

/-- **`iupdate` then `ilock`.** The inode comes back with its fields cut to their widths. -/
theorem dinode_iupdate (ip : Inode) (d : Blocks) :
    dinode sb (iupdate sb ip d) ip.inum = ip.stored := by
  unfold dinode iupdate
  rw [Function.update_self]
  exact getDinode_putDinode _ (Nat.mod_lt _ (by decide)) ip

/-- `iupdate` of one inode leaves every other inode as it was, also in the same block. -/
theorem dinode_iupdate_of_ne {j : ℕ} (h : j ≠ ip.inum) :
    dinode sb (iupdate sb ip d) j = dinode sb d j := by
  unfold dinode iupdate
  by_cases hb : IBLOCK j sb = IBLOCK ip.inum sb
  · -- one block: the two inodes are different dinodes of it
    have hk : j % IPB ≠ ip.inum % IPB := by
      unfold IBLOCK IPB BSIZE at *
      omega
    rw [hb, Function.update_self, getDinode_putDinode_of_ne _ hk]
  · rw [Function.update_of_ne hb]

/-- A block address of an inode that owns its blocks fits a `uint`. -/
theorem Owned.addrs_lt (hl : sb.Layout) (ho : Owned sb ip d) (i : Fin (NDIRECT + 1)) :
    ip.addrs i < 2 ^ 32 := by
  by_cases h0 : ip.addrs i = 0
  · rw [h0]
    exact Nat.two_pow_pos 32
  have hsize := hl.size_lt
  by_cases hi : i = Fin.last NDIRECT
  · -- the indirect block
    have := (ho.ref_indirect (by rw [Inode.indirect, ← hi]; exact h0)).2.1
    rw [Inode.indirect, ← hi] at this
    omega
  · -- a direct block
    have hlt : i.val < NDIRECT := Fin.val_lt_last hi
    have hb : blockOf ip d i.val = ip.addrs i := by simp [blockOf, hlt]
    have := (ho.ref_blockOf (hb ▸ h0)).2.1
    rw [hb] at this
    omega

/-! ### `ialloc` -/

/-- `ialloc(dev, type)`: the first inode from `1` below `sb.ninodes` whose dinode has type `0`,
its dinode zeroed with the type set, or `0` for `ialloc: no inodes` when there is none. -/
def ialloc (sb : Superblock) (d : Blocks) (type : ℕ) : ℕ × Blocks :=
  match (List.range' 1 (sb.ninodes - 1)).find? (fun i => (dinode sb d i).type = 0) with
  | some i => (i, iupdate sb (Inode.zeroed i type) d)
  | none => (0, d)

/-- **`ialloc`'s spec.** Either every inode from `1` up is in use and nothing changes, or a free
inode `i` gets the zeroed dinode. -/
theorem ialloc_cases (sb : Superblock) (d : Blocks) (type : ℕ) :
    (ialloc sb d type = (0, d) ∧ ∀ i, 1 ≤ i → i < sb.ninodes → (dinode sb d i).type ≠ 0) ∨
    ∃ i, ialloc sb d type = (i, iupdate sb (Inode.zeroed i type) d) ∧ 1 ≤ i ∧
      i < sb.ninodes ∧ (dinode sb d i).type = 0 := by
  unfold ialloc
  cases hfind : (List.range' 1 (sb.ninodes - 1)).find?
      (fun i => (dinode sb d i).type = 0) with
  | none =>
    left
    refine ⟨rfl, fun i h1 h2 => ?_⟩
    have := List.find?_eq_none.mp hfind i (List.mem_range'_1.mpr ⟨h1, by omega⟩)
    simpa using this
  | some i =>
    right
    have hmem := List.mem_range'_1.mp (List.mem_of_find?_eq_some hfind)
    exact ⟨i, rfl, hmem.1, by omega, by simpa using List.find?_some hfind⟩

end Xv6
