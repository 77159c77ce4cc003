import Xv6.Fs.Dinode
import Xv6.Fs.Free
import Xv6.Fs.ReadWrite
import Xv6.Lib.Own
import Xv6.Lib.Reach

/-!
# The block-allocation invariant of the file system

The disk `d` satisfies `FsInv` when every metadata block is marked in use, every allocated
inode owns its blocks (distinct data blocks, marked) with no hole below its size, and a data
block is marked iff an allocated inode holds it, and then only one (`Own.Exclusive`).

The file-system calls change blocks and inodes only through the inode layer: `ialloc`, the
`iupdate` of a changed link count or device number, `writei` (directory entries included),
`readi`, `itrunc` and `iput`, each on an inode it has locked. `fsStep` is one of them, with any
arguments, on any allocated inode, so a run of `fsStep` is any sequence of these operations,
interleaved as the inode locks allow. An operation on inode `i` reads the inode from the disk as
`ilock` does, and every one of them ends by writing the inode back with `iupdate`.

`FsInv.update` is the frame rule of one such operation: it stays within the inode's own
blocks (`Confined`), and leaves the inode owning its blocks with no hole; then the invariant
holds of the disk after its `iupdate`. Each operation is shown to be of that kind, and
`fsInv_of_reachable` carries the invariant along every run.
-/

namespace Xv6

open Header

/-- Inode `i` is allocated on the disk: a number below `sb.ninodes` whose dinode has a type. -/
def Allocated (sb : Superblock) (d : Blocks) (i : ℕ) : Prop :=
  i < sb.ninodes ∧ (dinode sb d i).type ≠ 0

instance (sb : Superblock) (d : Blocks) (i : ℕ) : Decidable (Allocated sb d i) :=
  inferInstanceAs (Decidable (_ ∧ _))

/-- Block `x` is a data block marked in use. -/
def Marked (sb : Superblock) (d : Blocks) (x : ℕ) : Prop :=
  sb.datastart ≤ x ∧ x < sb.size ∧ bitIsSet sb d x = true

/-- Inode `i` is allocated and `x` is one of its blocks. -/
def Holds (sb : Superblock) (d : Blocks) (i x : ℕ) : Prop :=
  Allocated sb d i ∧ IsRef (dinode sb d i) d x

/-- **The block-allocation invariant.** Every metadata block is marked in use; every allocated
inode owns its blocks with no hole below its size; and a data block is marked iff an
allocated inode holds it, and then only one. -/
structure FsInv (sb : Superblock) (d : Blocks) : Prop where
  metadata : ∀ b < sb.datastart, bitIsSet sb d b = true
  owned : ∀ i, Allocated sb d i → Owned sb (dinode sb d i) d
  noHoles : ∀ i, Allocated sb d i → NoHoles (dinode sb d i) d (dinode sb d i).size
  exclusive : Own.Exclusive (Marked sb d) (Holds sb d)

variable {sb : Superblock} {d d₁ : Blocks} {ip ip₀ : Inode}

@[simp] theorem dinode_inum (sb : Superblock) (d : Blocks) (i : ℕ) : (dinode sb d i).inum = i :=
  rfl

theorem dinode_type_lt (sb : Superblock) (d : Blocks) (i : ℕ) : (dinode sb d i).type < 2 ^ 16 :=
  Nat.mod_lt _ (by decide)

/-- An allocated inode holds exactly its blocks. -/
theorem holds_iff {i : ℕ} (hi : Allocated sb d i) (x : ℕ) :
    Holds sb d i x ↔ IsRef (dinode sb d i) d x :=
  ⟨And.right, And.intro hi⟩

/-- An inode with no blocks owns them, once the metadata is marked. -/
theorem owned_of_not_isRef (hnone : ∀ x, ¬ IsRef ip d x)
    (hmeta : ∀ b < sb.datastart, bitIsSet sb d b = true) : Owned sb ip d where
  inj bn _ h _ := absurd ⟨h, .inl ⟨bn, rfl⟩⟩ (hnone _)
  ne_indirect bn h := absurd ⟨h, .inl ⟨bn, rfl⟩⟩ (hnone _)
  ref x hx := absurd hx (hnone x)
  metadata := hmeta

/-- An inode whose blocks are untouched and still marked keeps owning them. -/
theorem Owned.of_blocks (ho : Owned sb ip d) {d' : Blocks}
    (hb : ∀ bn, blockOf ip d' bn = blockOf ip d bn)
    (hset : ∀ x, IsRef ip d x → bitIsSet sb d' x = true)
    (hmeta : ∀ b < sb.datastart, bitIsSet sb d' b = true) : Owned sb ip d' := by
  have href : ∀ x, IsRef ip d' x ↔ IsRef ip d x := fun x => by simp only [IsRef, hb]
  refine ⟨fun bn bn' h e => ?_, fun bn h => ?_, fun x hx => ?_, hmeta⟩
  · rw [hb, hb] at e
    exact ho.inj bn bn' (hb bn ▸ h) e
  · rw [hb]
    exact ho.ne_indirect bn (hb bn ▸ h)
  · obtain ⟨h1, h2, -⟩ := ho.ref x ((href x).mp hx)
    exact ⟨h1, h2, hset x ((href x).mp hx)⟩

/-! ### Writing an inode back -/

/-- `iupdate` writes an inode block, which holds no bit of the bitmap. -/
theorem bitIsSet_iupdate (hl : sb.Layout) (hi : ip.inum < sb.ninodes) (x : ℕ) :
    bitIsSet sb (iupdate sb ip d) x = bitIsSet sb d x := by
  have h1 := hl.iblock_lt_bmapstart hi
  have h2 : sb.bmapstart ≤ BBLOCK x sb := Nat.le_add_left _ _
  unfold iupdate
  exact bitIsSet_update _ (by omega)

section Stored

variable (hl : sb.Layout) (ho : Owned sb ip d₁) (hi : ip.inum < sb.ninodes)
include hl ho hi

/-- The inode written back, read again, has the blocks it was written with. -/
theorem blockOf_iupdate (bn : ℕ) : blockOf ip.stored (iupdate sb ip d₁) bn = blockOf ip d₁ bn := by
  rw [blockOf_of_addrs (Inode.stored_addrs (ho.addrs_lt hl))]
  exact blockOf_congr (fun h => iupdate_of_ne (ho.ne_iblock hl hi ⟨h, .inr rfl⟩)) bn

theorem isRef_iupdate (x : ℕ) : IsRef ip.stored (iupdate sb ip d₁) x ↔ IsRef ip d₁ x := by
  have hind : ip.stored.indirect = ip.indirect := by
    rw [Inode.indirect, Inode.stored_addrs (ho.addrs_lt hl)]
    rfl
  simp only [IsRef, blockOf_iupdate hl ho hi, hind]

/-- The inode written back, read again, owns its blocks. -/
theorem owned_stored_iupdate : Owned sb ip.stored (iupdate sb ip d₁) :=
  (ho.iupdate hl hi).congr (fun bn => by
      rw [blockOf_iupdate hl ho hi]
      exact (blockOf_congr (fun h => iupdate_of_ne (ho.ne_iblock hl hi ⟨h, .inr rfl⟩)) bn).symm)
    (by rw [Inode.indirect, Inode.stored_addrs (ho.addrs_lt hl)]; rfl) fun _ _ => rfl

end Stored

/-- After an operation confined to its inode and the `iupdate`, every other inode below
`sb.ninodes` is read as before. -/
theorem Confined.dinode_iupdate (hl : sb.Layout) (hc : Confined sb ip₀ d ip d₁) {j : ℕ}
    (hj : j < sb.ninodes) (hne : j ≠ ip.inum) : dinode sb (iupdate sb ip d₁) j = dinode sb d j :=
  (dinode_iupdate_of_ne hne).trans (dinode_congr (hc.low _ (hl.iblock_lt_bmapstart hj)))

section Update

variable (hl : sb.Layout) (hinv : FsInv sb d) (hi : ip.inum < sb.ninodes)
  (hheld : ∀ x, Holds sb d ip.inum x ↔ IsRef ip₀ d x) (hc : Confined sb ip₀ d ip d₁)
include hl hinv hi hheld hc

/-- The blocks of another allocated inode, in use and not the operation's, are untouched: in
particular its indirect block, so it has the same blocks. -/
theorem FsInv.blockOf_of_ne {j : ℕ} (hj : Allocated sb d j) (hne : j ≠ ip.inum) (bn : ℕ) :
    blockOf (dinode sb d j) (iupdate sb ip d₁) bn = blockOf (dinode sb d j) d bn := by
  refine blockOf_congr (fun hind => ?_) bn
  have href : IsRef (dinode sb d j) d (dinode sb d j).indirect := ⟨hind, .inr rfl⟩
  obtain ⟨hdata, hlt, hset⟩ := (hinv.owned j hj).ref _ href
  have hnot : ¬ IsRef ip₀ d (dinode sb d j).indirect := fun h =>
    hne (hinv.exclusive.unique j ip.inum _ ⟨hj, href⟩ ((hheld _).mpr h))
  have hiblock := hl.iblock_lt hi
  rw [iupdate_of_ne (by omega)]
  exact (hc.other _ hdata hlt hset hnot).1

/-- Another inode holds what it held. -/
theorem FsInv.holds_of_ne {j : ℕ} (hne : j ≠ ip.inum) (x : ℕ) :
    Holds sb (iupdate sb ip d₁) j x ↔ Holds sb d j x := by
  by_cases hj : j < sb.ninodes
  · have hdin := hc.dinode_iupdate hl hj hne
    have halloc : Allocated sb (iupdate sb ip d₁) j ↔ Allocated sb d j := by
      simp only [Allocated, hdin]
    refine ⟨fun ⟨ha, hx⟩ => ?_, fun ⟨ha, hx⟩ => ?_⟩
    · have ha' := halloc.mp ha
      rw [hdin] at hx
      exact ⟨ha', by simpa only [IsRef, hinv.blockOf_of_ne hl hi hheld hc ha' hne] using hx⟩
    · refine ⟨halloc.mpr ha, ?_⟩
      rw [hdin]
      simpa only [IsRef, hinv.blockOf_of_ne hl hi hheld hc ha hne] using hx
  · exact ⟨fun h => absurd h.1.1 hj, fun h => absurd h.1.1 hj⟩

/-- **One inode written back.** An operation on inode `ip.inum` that started from the blocks of
`ip₀`, the ones the inode held, stays within them, and leaves `ip` owning its blocks with no
hole and with blocks only if it has a type: after it writes `ip` back, the invariant holds. -/
theorem FsInv.update (ho : Owned sb ip d₁) (hh : NoHoles ip d₁ ip.size)
    (hfree : ip.type % 2 ^ 16 = 0 → ∀ x, ¬ IsRef ip d₁ x) : FsInv sb (iupdate sb ip d₁) := by
  have hbits := bitIsSet_iupdate (d := d₁) hl hi
  have hself : dinode sb (iupdate sb ip d₁) ip.inum = ip.stored := dinode_iupdate ip d₁
  have halloc : Allocated sb (iupdate sb ip d₁) ip.inum ↔ ip.type % 2 ^ 16 ≠ 0 := by
    simp only [Allocated, hself, Inode.stored_type, hi, true_and]
  -- what the inode holds now: the blocks it was written with, when it has a type
  have hholds : ∀ x, Holds sb (iupdate sb ip d₁) ip.inum x ↔
      ip.type % 2 ^ 16 ≠ 0 ∧ IsRef ip d₁ x := fun x => by
    rw [Holds, halloc, hself, isRef_iupdate hl ho hi]
  have hmarked : ∀ x, Marked sb (iupdate sb ip d₁) x ↔ Marked sb d₁ x := fun x => by
    simp only [Marked, hbits]
  -- another inode allocated now was allocated before, and none of its blocks was the operation's
  have hother : ∀ j, j ≠ ip.inum → Allocated sb (iupdate sb ip d₁) j → Allocated sb d j :=
    fun j hne hj => ⟨hj.1, by rw [← hc.dinode_iupdate hl hj.1 hne]; exact hj.2⟩
  have hnot : ∀ j x, j ≠ ip.inum → Holds sb d j x → ¬ IsRef ip₀ d x := fun j x hne hx h =>
    hne (hinv.exclusive.unique j ip.inum x hx ((hheld x).mpr h))
  refine ⟨fun b hb => (hbits b).trans (ho.metadata b hb), ?owned, ?noHoles, ?exclusive⟩
  case owned =>
    intro j hj
    by_cases hne : j = ip.inum
    · rw [hne, hself]
      exact owned_stored_iupdate hl ho hi
    have hj' := hother j hne hj
    rw [hc.dinode_iupdate hl hj.1 hne]
    refine (hinv.owned j hj').of_blocks (hinv.blockOf_of_ne hl hi hheld hc hj' hne)
      (fun x hx => ?_) fun b hb => (hbits b).trans (ho.metadata b hb)
    -- its blocks keep their bits: they are not the operation's
    obtain ⟨hdata, hlt, hset⟩ := (hinv.owned j hj').ref x hx
    rw [hbits]
    exact (hc.other x hdata hlt hset (hnot j x hne ⟨hj', hx⟩)).2
  case noHoles =>
    intro j hj bn hbn
    by_cases hne : j = ip.inum
    · rw [hne, hself] at hbn ⊢
      rw [Inode.stored_size (Nat.lt_of_le_of_lt hh.le_maxfile (by decide))] at hbn
      rw [blockOf_iupdate hl ho hi]
      exact hh bn hbn
    have hj' := hother j hne hj
    rw [hc.dinode_iupdate hl hj.1 hne] at hbn ⊢
    rw [hinv.blockOf_of_ne hl hi hheld hc hj' hne]
    exact hinv.noHoles j hj' bn hbn
  case exclusive =>
    refine hinv.exclusive.update ip.inum (fun j hne x => hinv.holds_of_ne hl hi hheld hc hne x)
      (fun x hx => ?_) (fun x hx => ?_) (fun x hx hm => ?_) (fun x hm hx => ?_) fun x hx => ?_
    · -- a block the inode holds now it held, or it was free
      obtain ⟨-, hx⟩ := (hholds x).mp hx
      rcases hc.fresh x hx with h | h
      · exact .inl ((hheld x).mpr h)
      · exact .inr fun hm => by rw [hm.2.2] at h; exact Bool.noConfusion h
    · -- a block marked now was marked, or is the inode's
      obtain ⟨hdata, hlt, hset⟩ := (hmarked x).mp hx
      rcases hc.marked x hlt hset with h | h
      · exact .inl ⟨hdata, hlt, h⟩
      · exact .inr ((hholds x).mpr ⟨fun ht => hfree ht x h, h⟩)
    · -- a block of the inode's still marked is still the inode's
      have hk := hc.kept x ((hheld x).mp hx) ((hmarked x).mp hm).2.2
      exact (hholds x).mpr ⟨fun ht => hfree ht x hk, hk⟩
    · -- a marked block of another inode stays marked
      obtain ⟨hdata, hlt, hset⟩ := hm
      exact (hmarked x).mpr ⟨hdata, hlt, (hc.other x hdata hlt hset fun h => hx ((hheld x).mpr h)).2⟩
    · obtain ⟨-, hx⟩ := (hholds x).mp hx
      exact (hmarked x).mpr (ho.ref x hx)

end Update

/-! ### The operations of the inode layer -/

/-- Writing back an inode with no blocks over one that held none keeps the invariant: the inode
`ialloc` takes, and the one `iput` frees. -/
theorem FsInv.update_empty (hl : sb.Layout) (hinv : FsInv sb d) (hi : ip.inum < sb.ninodes)
    (hnone : ∀ x, ¬ Holds sb d ip.inum x) (haddrs : ∀ k, ip.addrs k = 0) (hsize : ip.size = 0) :
    FsInv sb (iupdate sb ip d) := by
  have href : ∀ x, ¬ IsRef ip d x := not_isRef_of_addrs haddrs
  have hheld : ∀ x, Holds sb d ip.inum x ↔ IsRef ip d x :=
    fun x => ⟨fun h => absurd h (hnone x), fun h => absurd h (href x)⟩
  refine hinv.update hl hi hheld Confined.refl (owned_of_not_isRef href hinv.metadata) (fun bn hbn => ?_) fun _ => href
  rw [hsize] at hbn
  omega

/-- `ialloc` keeps the invariant: the inode it takes was free, and gets no blocks. -/
theorem FsInv.ialloc (hl : sb.Layout) (hinv : FsInv sb d) (type : ℕ) :
    FsInv sb (Xv6.ialloc sb d type).2 := by
  rcases ialloc_cases sb d type with ⟨h, -⟩ | ⟨i, h, -, hi, hfree⟩
  · rw [h]
    exact hinv
  · rw [h]
    have hi' : (Inode.zeroed i type).inum < sb.ninodes := hi
    exact hinv.update_empty hl hi' (fun x hx => hx.1.2 hfree)
      (fun _ => rfl) rfl

/-- A new link count or device number written back keeps the invariant. -/
theorem FsInv.iupdate_meta (hl : sb.Layout) (hinv : FsInv sb d) {i : ℕ} (hi : Allocated sb d i)
    (major minor nlink : ℕ) :
    FsInv sb (Xv6.iupdate sb { dinode sb d i with major, minor, nlink } d) := by
  have htype : (dinode sb d i).type % 2 ^ 16 = (dinode sb d i).type :=
    Nat.mod_eq_of_lt (dinode_type_lt sb d i)
  exact hinv.update hl hi.1 (holds_iff hi) (Confined.refl.of_isRef fun _ => Iff.rfl)
    ((hinv.owned i hi).congr (fun _ => rfl) rfl fun _ _ => rfl) (hinv.noHoles i hi)
    fun h => absurd (htype ▸ h) hi.2

/-- **`writei` keeps the invariant**, on an allocated inode, whatever it returns. -/
theorem FsInv.writei (hl : sb.Layout) (hinv : FsInv sb d) {i : ℕ} (hi : Allocated sb d i)
    {mem : Mem} {user : Bool} {src : ℕ} {off n : UInt32} {r : ℤ} {ip' : Inode} {d' : Blocks}
    (h : Xv6.writei sb (dinode sb d i) d mem user src off n = some (r, ip', d')) : FsInv sb d' := by
  have ho := hinv.owned i hi
  have hh := hinv.noHoles i hi
  by_cases hg : (dinode sb d i).size < off.toNat ∨ off + n < off ∨
      MAXFILE * BSIZE < (off + n).toNat
  · -- off the end, wrapping around or past `MAXFILE` blocks: nothing changes
    rw [writei_guard hg] at h
    simp only [Option.some.injEq, Prod.mk.injEq] at h
    rw [← h.2.2]
    exact hinv
  obtain ⟨r', ip₁, d₁, hw, hinum, htype, ho₁, hh₁, hc⟩ :=
    writei_confined hl ho hh mem user src off n (by tauto) (by omega)
  rw [hw] at h
  simp only [Option.some.injEq, Prod.mk.injEq] at h
  rw [← h.2.2]
  have htype' : (dinode sb d i).type % 2 ^ 16 = (dinode sb d i).type :=
    Nat.mod_eq_of_lt (dinode_type_lt sb d i)
  refine hinv.update hl (by rw [hinum]; exact hi.1) (by rw [hinum]; exact holds_iff hi) hc ho₁ hh₁ fun ht => absurd (htype' ▸ htype ▸ ht) hi.2

/-- **`readi` never reaches `balloc`.** On an inode with no hole it returns the inode and the
disk as they were. -/
theorem readi_unchanged (hh : NoHoles ip d ip.size) (mem : Mem) (user : Bool) (dst : ℕ)
    (off n : UInt32) : ∃ r mem', readi sb ip d mem user dst off n = some (r, ip, d, mem') := by
  obtain ⟨h₁, h₂⟩ := readi_spec sb hh mem user dst off n
  by_cases hg : ip.size < off.toNat ∨ off + n < off
  · exact ⟨0, mem, h₁ hg⟩
  · obtain ⟨j, -, hr, -⟩ := h₂ hg
    exact ⟨_, _, hr⟩

/-- Freeing every block of an inode keeps its metadata blocks marked. -/
theorem Freed.metadata (ho : Owned sb ip d) (hf : Freed sb d d₁ (IsRef ip d)) :
    ∀ b < sb.datastart, bitIsSet sb d₁ b = true := fun b hb =>
  (hf.bits b (Nat.lt_of_lt_of_le hb Superblock.datastart_le)).mpr
    ⟨ho.metadata b hb, fun h => by have := (ho.ref b h).1; omega⟩

/-- An allocated inode whose blocks were all freed, written back with no blocks: the invariant
holds. -/
theorem FsInv.freed (hl : sb.Layout) (hinv : FsInv sb d) {i : ℕ} (hi : Allocated sb d i)
    (hf : Freed sb d d₁ (IsRef (dinode sb d i) d)) :
    FsInv sb (Xv6.iupdate sb { dinode sb d i with size := 0, addrs := fun _ => 0 } d₁) := by
  have ho := hinv.owned i hi
  have hnone : ∀ x, ¬ IsRef { dinode sb d i with size := 0, addrs := fun _ => 0 } d₁ x :=
    not_isRef_of_addrs fun _ => rfl
  refine hinv.update hl hi.1 (holds_iff hi) (Confined.of_freed ho hf hnone)
    (owned_of_not_isRef hnone (hf.metadata ho)) (fun bn hbn => ?_) fun _ => hnone
  simp at hbn

/-- **`itrunc` keeps the invariant**, and never panics on an allocated inode. -/
theorem FsInv.itrunc (hl : sb.Layout) (hinv : FsInv sb d) {i : ℕ} (hi : Allocated sb d i) :
    ∃ ip' d', Xv6.itrunc sb (dinode sb d i) d = some (ip', d') ∧ FsInv sb d' := by
  obtain ⟨d₁, htr, hf⟩ := itrunc_spec hl (hinv.owned i hi)
  exact ⟨_, _, htr, hinv.freed hl hi hf⟩

/-- **`iput` keeps the invariant**, and never panics on an allocated inode. -/
theorem FsInv.iput (hl : sb.Layout) (hinv : FsInv sb d) {i : ℕ} (hi : Allocated sb d i)
    (last : Bool) : ∃ d', Xv6.iput sb (dinode sb d i) d last = some d' ∧ FsInv sb d' := by
  rcases iput_spec hl (hinv.owned i hi) last with ⟨-, h⟩ | ⟨-, -, d₁, hf, h⟩
  · exact ⟨d, h, hinv⟩
  refine ⟨_, h, ?_⟩
  -- first the blocks freed, then the inode, which holds none now, given type `0`
  have hinv₁ := hinv.freed hl hi hf
  refine hinv₁.update_empty hl hi.1 (fun x hx => ?_) (fun _ => rfl) rfl
  obtain ⟨-, hx⟩ := hx
  rw [dinode_iupdate] at hx
  exact not_isRef_of_addrs (fun _ => by simp [Inode.stored]) x hx

/-- The operations of the inode layer that the file-system calls are made of, with the
arguments they pass: `ialloc` of `create`; the `iupdate` of a new link count or device number
of `create`, `sys_link` and `sys_unlink`; `writei` of `filewrite` and of the directory entries
that `dirlink` and `sys_unlink` write; `readi` of `fileread`, `dirlookup` and `exec`; `itrunc`
of `open` with `O_TRUNC`; and `iput`, with `last` for `ip->ref == 1 && ip->valid`. -/
inductive FsOp where
  | ialloc (type : ℕ)
  | iupdate (i major minor nlink : ℕ)
  | writei (i : ℕ) (mem : Mem) (user : Bool) (src : ℕ) (off n : UInt32)
  | readi (i : ℕ) (mem : Mem) (user : Bool) (dst : ℕ) (off n : UInt32)
  | itrunc (i : ℕ)
  | iput (i : ℕ) (last : Bool)

/-- One operation on the disk. An operation on inode `i` has locked it, and `ilock` panics on
type `0`, so it is enabled on an allocated inode only; `none` is also a panic of the operation
itself. -/
def fsStep (sb : Superblock) (d : Blocks) : FsOp → Option Blocks
  | .ialloc type => some (Xv6.ialloc sb d type).2
  | .iupdate i major minor nlink =>
    if Allocated sb d i then some (Xv6.iupdate sb { dinode sb d i with major, minor, nlink } d)
    else none
  | .writei i mem user src off n =>
    if Allocated sb d i then (Xv6.writei sb (dinode sb d i) d mem user src off n).map (·.2.2)
    else none
  | .readi i mem user dst off n =>
    if Allocated sb d i then (readi sb (dinode sb d i) d mem user dst off n).map (·.2.2.1)
    else none
  | .itrunc i => if Allocated sb d i then (Xv6.itrunc sb (dinode sb d i) d).map (·.2) else none
  | .iput i last => if Allocated sb d i then Xv6.iput sb (dinode sb d i) d last else none

/-- **Every operation keeps the invariant.** -/
theorem FsInv.step (hl : sb.Layout) (hinv : FsInv sb d) {op : FsOp} {d' : Blocks}
    (h : fsStep sb d op = some d') : FsInv sb d' := by
  cases op with
  | ialloc type =>
    simp only [fsStep, Option.some.injEq] at h
    exact h ▸ hinv.ialloc hl type
  | iupdate i major minor nlink =>
    simp only [fsStep] at h
    split_ifs at h with hi
    cases h
    exact hinv.iupdate_meta hl hi major minor nlink
  | writei i mem user src off n =>
    simp only [fsStep] at h
    split_ifs at h with hi
    obtain ⟨⟨r, ip', d''⟩, hw, rfl⟩ := Option.map_eq_some_iff.mp h
    exact hinv.writei hl hi hw
  | readi i mem user dst off n =>
    simp only [fsStep] at h
    split_ifs at h with hi
    obtain ⟨r, mem', hr⟩ := readi_unchanged (hinv.noHoles i hi) mem user dst off n
    rw [hr, Option.map_some, Option.some.injEq] at h
    exact h ▸ hinv
  | itrunc i =>
    simp only [fsStep] at h
    split_ifs at h with hi
    obtain ⟨ip', d'', htr, hinv'⟩ := hinv.itrunc hl hi
    rw [htr, Option.map_some, Option.some.injEq] at h
    exact h ▸ hinv'
  | iput i last =>
    simp only [fsStep] at h
    split_ifs at h with hi
    obtain ⟨d'', hput, hinv'⟩ := hinv.iput hl hi last
    rw [hput, Option.some.injEq] at h
    exact h ▸ hinv'

/-- **The invariant along every run**, from an image where it holds. -/
theorem fsInv_of_reachable (hl : sb.Layout)
    (hd : Reach.Reachable (FsInv sb) (fsStep sb) (fun _ => True) d) : FsInv sb d :=
  hd.invariant (fun _ h => h) fun _ _ _ hinv _ h => hinv.step hl h

/-! ### What the invariant says -/

/-- A block is marked in use iff it is a metadata block or exactly one allocated inode holds
it. -/
theorem FsInv.bitIsSet_iff (hinv : FsInv sb d) {b : ℕ} (hb : b < sb.size) :
    bitIsSet sb d b = true ↔ b < sb.datastart ∨ ∃! i, Holds sb d i b := by
  constructor
  · intro hset
    by_cases hmeta : b < sb.datastart
    · exact .inl hmeta
    · exact .inr (hinv.exclusive.existsUnique ⟨by omega, hb, hset⟩)
  · rintro (hmeta | ⟨i, hi, -⟩)
    · exact hinv.metadata b hmeta
    · exact (hinv.exclusive.marked_of_holds i b hi).2.2

/-- `balloc` hands out a block no inode holds. -/
theorem FsInv.balloc_not_holds (hinv : FsInv sb d) {b : ℕ} {d' : Blocks}
    (h : balloc sb d = (b, d')) (hb : b ≠ 0) (i : ℕ) : ¬ Holds sb d i b := by
  rcases balloc_cases hinv.metadata with ⟨h0, -⟩ | ⟨b', hb', -, -, hfree⟩
  · rw [h0, Prod.mk.injEq] at h
    exact absurd h.1.symm hb
  · rw [hb', Prod.mk.injEq] at h
    rw [← h.1]
    exact hinv.exclusive.not_holds (fun hm => by rw [hm.2.2] at hfree; exact Bool.noConfusion hfree) i

/-- **The block-allocation invariant of the file system, operation by operation.** Start from
an image where it holds and run any sequence of the inode-layer operations the file-system
calls are made of, each on an allocated inode, with any arguments, succeeding or failing. Then
a block below `sb.size` is marked in use iff it is a metadata block or exactly one allocated
inode holds it, as a direct block, as its indirect block or as an entry of that block; no two
inodes hold one block; every allocated inode owns its blocks, distinct data blocks, with no
hole below its size, so `readi` returns the inode and the disk as they were and never reaches
`balloc`; `itrunc` and `iput` never reach `bfree`'s `freeing free block` panic; and `balloc`
never hands out a block an inode holds. -/
theorem block_allocation_invariant (hl : sb.Layout)
    (hd : Reach.Reachable (FsInv sb) (fsStep sb) (fun _ => True) d) :
    (∀ b < sb.size, bitIsSet sb d b = true ↔ b < sb.datastart ∨ ∃! i, Holds sb d i b) ∧
    (∀ i j x, Holds sb d i x → Holds sb d j x → i = j) ∧
    (∀ i, Allocated sb d i →
      Owned sb (dinode sb d i) d ∧ NoHoles (dinode sb d i) d (dinode sb d i).size ∧
      (∀ mem user dst off n, ∃ r mem',
        readi sb (dinode sb d i) d mem user dst off n = some (r, dinode sb d i, d, mem')) ∧
      (∃ r, itrunc sb (dinode sb d i) d = some r) ∧
      ∀ last, ∃ d', iput sb (dinode sb d i) d last = some d') ∧
    ∀ b d', balloc sb d = (b, d') → b ≠ 0 → ∀ i, ¬ Holds sb d i b := by
  have hinv := fsInv_of_reachable hl hd
  refine ⟨fun b hb => hinv.bitIsSet_iff hb, hinv.exclusive.unique, fun i hi => ?_,
    fun b d' h hb => hinv.balloc_not_holds h hb⟩
  obtain ⟨ip', d', htr, -⟩ := hinv.itrunc hl hi
  refine ⟨hinv.owned i hi, hinv.noHoles i hi, readi_unchanged (hinv.noHoles i hi), ⟨_, htr⟩,
    fun last => ?_⟩
  obtain ⟨d'', hput, -⟩ := hinv.iput hl hi last
  exact ⟨d'', hput⟩

/-- A disk with only its metadata blocks marked in use and every other byte `0`. -/
def blankImage (sb : Superblock) : Blocks :=
  (List.range sb.datastart).foldl (markBit sb) fun _ _ => 0

/-- Marking the blocks of `l` one after the other sets their bits and no other. -/
theorem bitIsSet_foldl_markBit (l : List ℕ) (d : Blocks) (x : ℕ) :
    bitIsSet sb (l.foldl (markBit sb) d) x = (bitIsSet sb d x || decide (x ∈ l)) := by
  induction l generalizing d with
  | nil => simp
  | cons b l ih =>
    rw [List.foldl_cons, ih, bitIsSet_markBit]
    simp only [List.mem_cons, Bool.decide_or, Bool.or_assoc]

/-- Marking blocks writes the bitmap only. -/
theorem foldl_markBit_of_lt (l : List ℕ) (d : Blocks) {a : ℕ} (ha : a < sb.bmapstart) :
    l.foldl (markBit sb) d a = d a := by
  induction l generalizing d with
  | nil => rfl
  | cons b l ih =>
    rw [List.foldl_cons, ih]
    have : sb.bmapstart ≤ BBLOCK b sb := Nat.le_add_left _ _
    exact setByte_of_ne (by omega)

/-- The blank image satisfies the invariant: no inode is allocated and no data block is
marked. -/
theorem fsInv_blankImage (hl : sb.Layout) : FsInv sb (blankImage sb) := by
  have hbits : ∀ x, bitIsSet sb (blankImage sb) x = decide (x < sb.datastart) := fun x => by
    rw [blankImage, bitIsSet_foldl_markBit, bitIsSet_eq_testBit]
    simp
  have hfree : ∀ i, ¬ Allocated sb (blankImage sb) i := fun i ⟨hi, ht⟩ => ht (by
    simp only [dinode, getDinode, blankImage, foldl_markBit_of_lt _ _ (hl.iblock_lt_bmapstart hi),
      getWord_zero, Nat.zero_mod])
  refine ⟨fun b hb => by simpa [hbits] using hb, fun i hi => absurd hi (hfree i),
    fun i hi => absurd hi (hfree i), ⟨fun i _ h => absurd h.1 (hfree i), fun x hx => ?_,
    fun i _ _ h => absurd h.1 (hfree i)⟩⟩
  have := hx.2.2
  rw [hbits, decide_eq_true_eq] at this
  exact absurd hx.1 (by omega)

/-- On the blank image of `mkfs`'s layout, the first data block is marked iff exactly one
inode holds it. -/
theorem block_allocation_invariant_blank :
    bitIsSet Superblock.mkfs (blankImage Superblock.mkfs) 46 = true ↔
      46 < Superblock.mkfs.datastart ∨
        ∃! i, Holds Superblock.mkfs (blankImage Superblock.mkfs) i 46 :=
  (block_allocation_invariant Superblock.mkfs_layout.1
    (.init (fsInv_blankImage Superblock.mkfs_layout.1))).1 46 (by decide)

end Xv6
