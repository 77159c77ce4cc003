import Xv6.Fs.Layout
import Xv6.Lib.Store

/-!
# Inodes and the blocks of their content (`bmap`, `iupdate` in `fs.c`)

Block `bn` of a file is `ip->addrs[bn]` below `NDIRECT` and entry `bn - NDIRECT` of the indirect
block `ip->addrs[NDIRECT]` above (`blockOf`); byte `k` of the file is byte `k % BSIZE` of block
`k / BSIZE` (`byteAt`), and its content is its first `ip->size` bytes.

`bmap` returns block `bn`, allocating it (and the indirect block) where it is `0`. What it can do
is said once, in two lemmas that the read and write loops use without unfolding it:
* `bmap_of_blockOf_ne_zero`: a block that is there comes back and nothing changes;
* `bmap_hole`: a hole is filled with a fresh zeroed block, or stays when the disk is full; either
  way the inode still owns its blocks, the file's other blocks and their bytes stay, and each
  block allocated comes off the free count (`Grown`).

`Owned` is the block-allocation invariant of the file system seen from one inode: its blocks
are distinct data blocks marked in use, and every metadata block is marked, so that `balloc`
never hands one of them out.
-/

namespace Xv6

open Header

/-- The fields of `struct inode` that the content code reads and `iupdate` writes; `dev`, `ref`,
`valid` and the sleep lock are outside the model (one device). -/
structure Inode where
  inum : ℕ
  type : ℕ
  major : ℕ
  minor : ℕ
  nlink : ℕ
  size : ℕ
  addrs : Fin (NDIRECT + 1) → ℕ

namespace Inode

/-- `ip->addrs[NDIRECT]`: the indirect block, or `0`. -/
def indirect (ip : Inode) : ℕ := ip.addrs (Fin.last NDIRECT)

/-- `ip->addrs[i] = a`. -/
def setAddr (ip : Inode) (i : Fin (NDIRECT + 1)) (a : ℕ) : Inode :=
  { ip with addrs := Function.update ip.addrs i a }

@[simp] theorem indirect_setAddr_last (ip : Inode) (a : ℕ) :
    (ip.setAddr (Fin.last NDIRECT) a).indirect = a := by
  simp [setAddr, indirect]

theorem indirect_setAddr_castSucc (ip : Inode) (i : Fin NDIRECT) (a : ℕ) :
    (ip.setAddr i.castSucc a).indirect = ip.indirect := by
  simp [setAddr, indirect, Function.update_of_ne (Fin.ne_of_lt (Fin.castSucc_lt_last i)).symm]

end Inode

/-- The disk block of block `bn` of the file, `0` where there is none. -/
def blockOf (ip : Inode) (d : Blocks) (bn : ℕ) : ℕ :=
  if h : bn < NDIRECT then ip.addrs ⟨bn, by omega⟩
  else if ip.indirect = 0 then 0 else getWord (d ip.indirect) (bn - NDIRECT)

/-- Byte `k` of the file. -/
def byteAt (ip : Inode) (d : Blocks) (k : ℕ) : UInt8 :=
  d (blockOf ip d (k / BSIZE)) ⟨k % BSIZE, Nat.mod_lt _ (by decide)⟩

/-- The content of the file: its first `ip->size` bytes. -/
def content (ip : Inode) (d : Blocks) : List UInt8 := Store.slice (byteAt ip d) 0 ip.size

/-! ### `bmap` and `iupdate` -/

/-- The end of `bmap` once the indirect block `ind` is loaded: entry `bn` of it, allocated and
stored there (`a[bn] = addr; log_write(bp)`) when it is `0`. -/
def bmapIndirect (sb : Superblock) (ip : Inode) (d : Blocks) (ind bn : ℕ) : ℕ × Inode × Blocks :=
  let addr := getWord (d ind) bn
  if addr = 0 then
    let (addr, d) := balloc sb d
    if addr = 0 then (0, ip, d) else (addr, ip, Function.update d ind (setWord (d ind) bn addr))
  else (addr, ip, d)

/-- `bmap(ip, bn)`: the disk block of block `bn` of the file, allocated if there is none, `0`
when the disk is full, and `none` for the panic `bmap: out of range`. -/
def bmap (sb : Superblock) (ip : Inode) (d : Blocks) (bn : ℕ) : Option (ℕ × Inode × Blocks) :=
  if h : bn < NDIRECT then
    let addr := ip.addrs ⟨bn, by omega⟩
    if addr = 0 then
      let (addr, d) := balloc sb d
      if addr = 0 then some (0, ip, d) else some (addr, ip.setAddr ⟨bn, by omega⟩ addr, d)
    else some (addr, ip, d)
  else if bn - NDIRECT < NINDIRECT then
    -- load the indirect block, allocating if necessary
    if ip.indirect = 0 then
      let (addr, d) := balloc sb d
      if addr = 0 then some (0, ip, d)
      else some (bmapIndirect sb (ip.setAddr (Fin.last NDIRECT) addr) d addr (bn - NDIRECT))
    else some (bmapIndirect sb ip d ip.indirect (bn - NDIRECT))
  else none

/-- The dinode `k` of an inode block, written from `ip`: sixteen little-endian words from word
`16 * k`, holding `type | major << 16`, `minor | nlink << 16`, `size`, then `addrs`. -/
def putDinode (b : Block) (k : ℕ) (ip : Inode) : Block :=
  let w := 16 * k
  let b := setWord b w (ip.type % 2 ^ 16 + 2 ^ 16 * (ip.major % 2 ^ 16))
  let b := setWord b (w + 1) (ip.minor % 2 ^ 16 + 2 ^ 16 * (ip.nlink % 2 ^ 16))
  let b := setWord b (w + 2) ip.size
  (List.finRange (NDIRECT + 1)).foldl
    (fun b (i : Fin (NDIRECT + 1)) => setWord b (w + 3 + i.val) (ip.addrs i)) b

/-- `iupdate(ip)`: the inode copied to its dinode in block `IBLOCK(ip->inum, sb)`. -/
def iupdate (sb : Superblock) (ip : Inode) (d : Blocks) : Blocks :=
  Function.update d (IBLOCK ip.inum sb) (putDinode (d (IBLOCK ip.inum sb)) (ip.inum % IPB) ip)

/-! ### Ownership of blocks -/

/-- `x` is a block of the inode: one of its nonzero data blocks, or its indirect block. -/
def IsRef (ip : Inode) (d : Blocks) (x : ℕ) : Prop :=
  x ≠ 0 ∧ ((∃ bn, blockOf ip d bn = x) ∨ x = ip.indirect)

/-- The inode owns its blocks: they are distinct data blocks, marked in use, and no metadata
block is free. -/
structure Owned (sb : Superblock) (ip : Inode) (d : Blocks) : Prop where
  inj : ∀ bn bn', blockOf ip d bn ≠ 0 → blockOf ip d bn = blockOf ip d bn' → bn = bn'
  ne_indirect : ∀ bn, blockOf ip d bn ≠ 0 → blockOf ip d bn ≠ ip.indirect
  ref : ∀ x, IsRef ip d x → sb.datastart ≤ x ∧ x < sb.size ∧ bitIsSet sb d x = true
  metadata : ∀ b < sb.datastart, bitIsSet sb d b = true

/-- No hole below `len`: every block that holds a byte before `len` is there. -/
def NoHoles (ip : Inode) (d : Blocks) (len : ℕ) : Prop :=
  ∀ bn, bn * BSIZE < len → blockOf ip d bn ≠ 0

/-- The blocks that can still be allocated as data blocks: the free ones, less one kept for the
indirect block while there is none. -/
def spare (sb : Superblock) (ip : Inode) (d : Blocks) : ℕ :=
  nfree sb d - if ip.indirect = 0 then 1 else 0

variable {sb : Superblock} {ip ip' : Inode} {d d' : Blocks}

/-- Blocks past `MAXFILE` are never there: their entries would lie past the indirect block. -/
theorem blockOf_lt_maxfile {bn : ℕ} (h : blockOf ip d bn ≠ 0) : bn < MAXFILE := by
  by_contra hge
  apply h
  have hd : ¬ bn < NDIRECT := by unfold MAXFILE at hge; omega
  unfold blockOf
  rw [dif_neg hd]
  split_ifs
  · rfl
  · exact getWord_of_le _ (by unfold MAXFILE NINDIRECT at hge; unfold NDIRECT BSIZE at *; omega)

/-- No hole below `len` puts `len` within `MAXFILE` blocks. -/
theorem NoHoles.le_maxfile {len : ℕ} (hh : NoHoles ip d len) : len ≤ MAXFILE * BSIZE := by
  by_contra hlt
  exact Nat.lt_irrefl _ (blockOf_lt_maxfile (hh MAXFILE (by omega)))

/-- Where the data blocks are looked up: only the indirect block of `d` is read. -/
theorem blockOf_congr (h : ip.indirect ≠ 0 → d' ip.indirect = d ip.indirect) (bn : ℕ) :
    blockOf ip d' bn = blockOf ip d bn := by
  unfold blockOf
  split_ifs with h1 h2
  · rfl
  · rfl
  · rw [h h2]

/-- A byte reads the same through two views that agree on its block. -/
theorem byteAt_congr {k : ℕ} (hb : blockOf ip' d' (k / BSIZE) = blockOf ip d (k / BSIZE))
    (hd : d' (blockOf ip d (k / BSIZE)) = d (blockOf ip d (k / BSIZE))) :
    byteAt ip' d' k = byteAt ip d k := by
  unfold byteAt
  rw [hb, hd]

theorem Owned.ref_blockOf (ho : Owned sb ip d) {bn : ℕ} (h : blockOf ip d bn ≠ 0) :
    sb.datastart ≤ blockOf ip d bn ∧ blockOf ip d bn < sb.size ∧
      bitIsSet sb d (blockOf ip d bn) = true :=
  ho.ref _ ⟨h, .inl ⟨bn, rfl⟩⟩

theorem Owned.ref_indirect (ho : Owned sb ip d) (h : ip.indirect ≠ 0) :
    sb.datastart ≤ ip.indirect ∧ ip.indirect < sb.size ∧ bitIsSet sb d ip.indirect = true :=
  ho.ref _ ⟨h, .inr rfl⟩

/-- A block whose bit is clear is none of the inode's. -/
theorem Owned.ne_of_free (ho : Owned sb ip d) {b x : ℕ} (hfree : bitIsSet sb d b = false)
    (hx : IsRef ip d x) : x ≠ b := by
  rintro rfl
  rw [(ho.ref x hx).2.2] at hfree
  exact Bool.noConfusion hfree

/-- `Owned` only looks at the data blocks, the indirect block and the bits below `sb.size`. -/
theorem Owned.congr (ho : Owned sb ip d) (hb : ∀ bn, blockOf ip' d' bn = blockOf ip d bn)
    (hi : ip'.indirect = ip.indirect)
    (hbits : ∀ x < sb.size, bitIsSet sb d' x = bitIsSet sb d x) : Owned sb ip' d' := by
  have href : ∀ x, IsRef ip' d' x ↔ IsRef ip d x := by
    intro x
    simp only [IsRef, hb, hi]
  refine ⟨?inj, ?ne_indirect, ?ref, ?metadata⟩
  case inj =>
    intro bn bn' h heq
    rw [hb, hb] at heq
    exact ho.inj bn bn' (hb bn ▸ h) heq
  case ne_indirect =>
    intro bn h
    rw [hb, hi]
    exact ho.ne_indirect bn (hb bn ▸ h)
  case ref =>
    intro x hx
    obtain ⟨h1, h2, h3⟩ := ho.ref x ((href x).mp hx)
    exact ⟨h1, h2, (hbits x h2).trans h3⟩
  case metadata =>
    intro b hb'
    rw [hbits b (Nat.lt_of_lt_of_le hb' Superblock.datastart_le)]
    exact ho.metadata b hb'

/-- Writing a block that is neither the indirect block nor a bitmap block keeps `Owned`. -/
theorem Owned.update (ho : Owned sb ip d) {a : ℕ} (v : Block)
    (hind : ip.indirect ≠ 0 → a ≠ ip.indirect) (hbm : ∀ x < sb.size, a ≠ BBLOCK x sb) :
    Owned sb ip (Function.update d a v) :=
  ho.congr (blockOf_congr fun h => Function.update_of_ne (hind h).symm _ _) rfl
    fun x hx => bitIsSet_update v (hbm x hx)

section Alloc

variable (hl : sb.Layout) (ho : Owned sb ip d) {b : ℕ} (hdata : sb.datastart ≤ b)
  (hb : b < sb.size) (hfree : bitIsSet sb d b = false)
include hl ho hdata hb hfree

/-- **Filling a hole.** Recording a fresh data block `b` as block `bn` of the file keeps the
inode owning its blocks. -/
theorem Owned.fill {bn : ℕ} (hthis : blockOf ip' d' bn = b)
    (hother : ∀ bn', bn' ≠ bn → blockOf ip' d' bn' = blockOf ip d bn')
    (hi : ip'.indirect = ip.indirect)
    (hbits : ∀ x < sb.size, bitIsSet sb d' x = (bitIsSet sb d x || decide (x = b))) :
    Owned sb ip' d' := by
  have hb0 : b ≠ 0 := by have := hl.datastart_pos; omega
  have hfresh : ∀ x, IsRef ip d x → x ≠ b := fun x hx => ho.ne_of_free hfree hx
  refine ⟨?inj, ?ne_indirect, ?ref, ?metadata⟩
  case inj =>
    intro bn₁ bn₂ h₁ h₁₂
    by_cases e₁ : bn₁ = bn <;> by_cases e₂ : bn₂ = bn
    · rw [e₁, e₂]
    · -- block `bn₂` was already `b`, which was free
      rw [e₁, hthis, hother bn₂ e₂] at h₁₂
      exact absurd h₁₂.symm (hfresh _ ⟨h₁₂ ▸ hb0, .inl ⟨bn₂, rfl⟩⟩)
    · rw [e₂, hthis, hother bn₁ e₁] at h₁₂
      exact absurd h₁₂ (hfresh _ ⟨h₁₂ ▸ hb0, .inl ⟨bn₁, rfl⟩⟩)
    · rw [hother bn₁ e₁, hother bn₂ e₂] at h₁₂
      exact ho.inj bn₁ bn₂ (hother bn₁ e₁ ▸ h₁) h₁₂
  case ne_indirect =>
    intro bn₁ h₁
    rw [hi]
    by_cases e₁ : bn₁ = bn
    · rw [e₁, hthis]
      intro hbi
      by_cases hind : ip.indirect = 0
      · exact hb0 (hbi.trans hind)
      · exact hfresh _ ⟨hind, .inr rfl⟩ hbi.symm
    · rw [hother bn₁ e₁] at h₁ ⊢
      exact ho.ne_indirect bn₁ h₁
  case ref =>
    rintro x ⟨hx0, hx⟩
    rw [hi] at hx
    by_cases hxb : x = b
    · subst hxb
      exact ⟨hdata, hb, by rw [hbits x hb]; simp⟩
    · -- any other block of the new inode was a block of the old one
      have hold : IsRef ip d x := by
        refine ⟨hx0, ?_⟩
        rcases hx with ⟨bn₁, h₁⟩ | h₁
        · by_cases e₁ : bn₁ = bn
          · rw [e₁, hthis] at h₁
            exact absurd h₁.symm hxb
          · exact .inl ⟨bn₁, (hother bn₁ e₁).symm.trans h₁⟩
        · exact .inr h₁
      obtain ⟨h1, h2, h3⟩ := ho.ref x hold
      exact ⟨h1, h2, by rw [hbits x h2, h3]; rfl⟩
  case metadata =>
    intro x hx
    rw [hbits x (Nat.lt_of_lt_of_le hx Superblock.datastart_le), ho.metadata x hx]
    rfl

omit hl in
/-- **Attaching an indirect block.** A fresh block `b` recorded as the indirect block of an
inode keeps the inode owning its blocks. -/
theorem Owned.attach (hblk : ∀ bn, blockOf ip' d' bn = blockOf ip d bn)
    (hi : ip'.indirect = b)
    (hbits : ∀ x < sb.size, bitIsSet sb d' x = (bitIsSet sb d x || decide (x = b))) :
    Owned sb ip' d' := by
  have hfresh : ∀ x, IsRef ip d x → x ≠ b := fun x hx => ho.ne_of_free hfree hx
  refine ⟨?inj, ?ne_indirect, ?ref, ?metadata⟩
  case inj =>
    intro bn bn' h heq
    rw [hblk, hblk] at heq
    exact ho.inj bn bn' (hblk bn ▸ h) heq
  case ne_indirect =>
    intro bn h
    rw [hblk, hi]
    rw [hblk] at h
    exact hfresh _ ⟨h, .inl ⟨bn, rfl⟩⟩
  case ref =>
    rintro x ⟨hx0, hx⟩
    rw [hi] at hx
    by_cases hxb : x = b
    · subst hxb
      exact ⟨hdata, hb, by rw [hbits x hb]; simp⟩
    · have hold : IsRef ip d x := by
        refine ⟨hx0, ?_⟩
        rcases hx with ⟨bn₁, h₁⟩ | h₁
        · exact .inl ⟨bn₁, (hblk bn₁).symm.trans h₁⟩
        · exact absurd h₁ hxb
      obtain ⟨h1, h2, h3⟩ := ho.ref x hold
      exact ⟨h1, h2, by rw [hbits x h2, h3]; rfl⟩
  case metadata =>
    intro x hx
    rw [hbits x (Nat.lt_of_lt_of_le hx Superblock.datastart_le), ho.metadata x hx]
    rfl

end Alloc

/-- Allocating block `b` leaves the inode's other blocks alone. -/
theorem alloc_ref (hl : sb.Layout) (ho : Owned sb ip d) {b x : ℕ} (hb : b < sb.size)
    (hx : IsRef ip d x) (hxb : x ≠ b) : bzero (markBit sb d b) b x = d x :=
  alloc_of_ne hxb (hl.ne_bblock (ho.ref x hx).1 hb)

/-! ### What an operation on one inode leaves of the rest of the disk -/

/-- An operation on one inode, from `ip` and `d` to `ip'` and `d'`, stays within its own blocks:
it leaves the blocks before the bitmap alone, and every data block in use that is not the
inode's, with its bit; a bit it sets is of a block the inode now has; a block the inode now has
was its own or free; and a block of its own that is still in use it still has. -/
structure Confined (sb : Superblock) (ip : Inode) (d : Blocks) (ip' : Inode) (d' : Blocks) :
    Prop where
  low : ∀ x < sb.bmapstart, d' x = d x
  other : ∀ x, sb.datastart ≤ x → x < sb.size → bitIsSet sb d x = true → ¬ IsRef ip d x →
    d' x = d x ∧ bitIsSet sb d' x = true
  marked : ∀ x < sb.size, bitIsSet sb d' x = true → bitIsSet sb d x = true ∨ IsRef ip' d' x
  fresh : ∀ x, IsRef ip' d' x → IsRef ip d x ∨ bitIsSet sb d x = false
  kept : ∀ x, IsRef ip d x → bitIsSet sb d' x = true → IsRef ip' d' x

theorem Confined.refl : Confined sb ip d ip d :=
  ⟨fun _ _ => rfl, fun _ _ _ h _ => ⟨rfl, h⟩, fun _ _ h => .inl h, fun _ h => .inl h,
    fun _ h _ => h⟩

/-- Two operations on one inode, one after the other, stay within it. -/
theorem Confined.trans {ip'' : Inode} {d'' : Blocks} (ho : Owned sb ip d) (ho'' : Owned sb ip'' d'')
    (h₁ : Confined sb ip d ip' d') (h₂ : Confined sb ip' d' ip'' d'') :
    Confined sb ip d ip'' d'' := by
  refine ⟨fun x hx => (h₂.low x hx).trans (h₁.low x hx), ?other, ?marked, ?fresh, ?kept⟩
  case other =>
    intro x hdata hx hset href
    obtain ⟨e₁, hset₁⟩ := h₁.other x hdata hx hset href
    -- a block in use that was not the inode's is not one it took
    have href₁ : ¬ IsRef ip' d' x := fun h => by
      rcases h₁.fresh x h with h | h
      · exact href h
      · rw [hset] at h; exact Bool.noConfusion h
    obtain ⟨e₂, hset₂⟩ := h₂.other x hdata hx hset₁ href₁
    exact ⟨e₂.trans e₁, hset₂⟩
  case marked =>
    intro x hx hset
    rcases h₂.marked x hx hset with h | h
    · rcases h₁.marked x hx h with h' | h'
      · exact .inl h'
      · exact .inr (h₂.kept x h' hset)
    · exact .inr h
  case fresh =>
    intro x hx
    rcases h₂.fresh x hx with h | h
    · exact h₁.fresh x h
    · -- freed in between: it was free, or the inode's, since others keep their bits
      obtain ⟨hdata, hlt, -⟩ := ho''.ref x hx
      by_cases hset : bitIsSet sb d x = true
      · by_cases href : IsRef ip d x
        · exact .inl href
        · rw [(h₁.other x hdata hlt hset href).2] at h
          exact Bool.noConfusion h
      · exact .inr (by simpa using hset)
  case kept =>
    intro x hx hset
    by_cases hset₁ : bitIsSet sb d' x = true
    · exact h₂.kept x (h₁.kept x hx hset₁) hset
    · rcases h₂.marked x (ho.ref x hx).2.1 hset with h | h
      · exact absurd h hset₁
      · exact h

/-- Only the blocks the inode ends with count, not how it records them. -/
theorem Confined.of_isRef {ip'' : Inode} (h : Confined sb ip d ip' d')
    (href : ∀ x, IsRef ip'' d' x ↔ IsRef ip' d' x) : Confined sb ip d ip'' d' :=
  ⟨h.low, h.other, fun x hx hset => (h.marked x hx hset).imp_right (href x).mpr,
    fun x hx => h.fresh x ((href x).mp hx), fun x hx hset => (href x).mpr (h.kept x hx hset)⟩

/-- The blocks of an inode whose hole `c` now holds block `b`: its old ones and `b`. -/
theorem isRef_fill {b c : ℕ} (hz : blockOf ip d c = 0) (hb0 : b ≠ 0)
    (hblk : ∀ bn, blockOf ip' d' bn = if bn = c then b else blockOf ip d bn)
    (hi : ip'.indirect = ip.indirect) (x : ℕ) : IsRef ip' d' x ↔ IsRef ip d x ∨ x = b := by
  constructor
  · rintro ⟨hx0, ⟨bn, hbn⟩ | hx⟩
    · rw [hblk] at hbn
      by_cases e : bn = c
      · rw [if_pos e] at hbn
        exact .inr hbn.symm
      · rw [if_neg e] at hbn
        exact .inl ⟨hx0, .inl ⟨bn, hbn⟩⟩
    · exact .inl ⟨hx0, .inr (hx.trans hi)⟩
  · rintro (⟨hx0, ⟨bn, hbn⟩ | hx⟩ | rfl)
    · have e : bn ≠ c := fun e => hx0 (by rw [← hbn, e, hz])
      exact ⟨hx0, .inl ⟨bn, by rw [hblk, if_neg e, hbn]⟩⟩
    · exact ⟨hx0, .inr (hx.trans hi.symm)⟩
    · exact ⟨hb0, .inl ⟨c, by rw [hblk, if_pos rfl]⟩⟩

/-- The blocks of an inode that had no indirect block and now has `c`: its old ones and `c`. -/
theorem isRef_attach {c : ℕ} (hind : ip.indirect = 0) (hc0 : c ≠ 0)
    (hblk : ∀ bn, blockOf ip' d' bn = blockOf ip d bn) (hi : ip'.indirect = c) (x : ℕ) :
    IsRef ip' d' x ↔ IsRef ip d x ∨ x = c := by
  constructor
  · rintro ⟨hx0, ⟨bn, hbn⟩ | hx⟩
    · exact .inl ⟨hx0, .inl ⟨bn, (hblk bn).symm.trans hbn⟩⟩
    · exact .inr (hx.trans hi)
  · rintro (⟨hx0, ⟨bn, hbn⟩ | hx⟩ | rfl)
    · exact ⟨hx0, .inl ⟨bn, (hblk bn).trans hbn⟩⟩
    · exact absurd (hx.trans hind) hx0
    · exact ⟨hc0, .inr hi.symm⟩

/-- **Taking a free block.** An inode that gains the free data block `b`, when only `b`, its
bitmap block and the inode's own blocks change, stays within its blocks. -/
theorem Confined.grow (hl : sb.Layout) (ho : Owned sb ip d) {b : ℕ} (hdata : sb.datastart ≤ b)
    (hb : b < sb.size) (hfree : bitIsSet sb d b = false) (href : ∀ x, IsRef ip' d' x ↔ IsRef ip d x ∨ x = b)
    (hbits : ∀ x < sb.size, bitIsSet sb d' x = (bitIsSet sb d x || decide (x = b)))
    (hblocks : ∀ x, x ≠ b → x ≠ BBLOCK b sb → ¬ IsRef ip d x → d' x = d x) :
    Confined sb ip d ip' d' := by
  have hbm := hl.bmapstart_lt
  refine ⟨fun x hx => ?_, fun x hxd hx hset hx' => ?_, fun x hx hset => ?_, fun x hx => ?_,
    fun x hx _ => (href x).mpr (.inl hx)⟩
  · -- below the bitmap: neither `b`, nor a bitmap block, nor a block of the inode
    have hxb : x ≠ BBLOCK b sb := by
      have : sb.bmapstart ≤ BBLOCK b sb := Nat.le_add_left _ _
      omega
    exact hblocks x (by omega) hxb fun h => by have := (ho.ref x h).1; omega
  · have hxb : x ≠ b := fun e => by rw [e, hfree] at hset; exact Bool.noConfusion hset
    refine ⟨hblocks x hxb (hl.ne_bblock hxd hb) hx', ?_⟩
    rw [hbits x hx, hset, Bool.true_or]
  · rw [hbits x hx, Bool.or_eq_true, decide_eq_true_eq] at hset
    exact hset.imp_right fun e => (href x).mpr (.inr e)
  · exact ((href x).mp hx).imp_right fun e => by rw [e]; exact hfree

/-- **Writing a block of its own.** An inode whose data block `a`, not its indirect block, is
rewritten stays within its blocks. -/
theorem Confined.update (hl : sb.Layout) (ho : Owned sb ip d) {a : ℕ} (ha : IsRef ip d a)
    (hna : a ≠ ip.indirect) (v : Block) : Confined sb ip d ip (Function.update d a v) := by
  have hdata := (ho.ref a ha).1
  have hbits : ∀ x < sb.size, bitIsSet sb (Function.update d a v) x = bitIsSet sb d x :=
    fun x hx => bitIsSet_update v (hl.ne_bblock hdata hx)
  have href : ∀ x, IsRef ip (Function.update d a v) x ↔ IsRef ip d x := fun x => by
    simp only [IsRef, blockOf_congr (fun _ => Function.update_of_ne hna.symm _ _)]
  refine ⟨fun x hx => Function.update_of_ne ?_ _ _, fun x _ hx hset hx' => ?_,
    fun x hx hset => .inl ((hbits x hx).symm.trans hset), fun x hx => .inl ((href x).mp hx),
    fun x hx _ => (href x).mpr hx⟩
  · have := hl.bmapstart_lt
    omega
  · exact ⟨Function.update_of_ne (fun e => hx' (by rw [e]; exact ha)) _ _,
      (hbits x hx).trans hset⟩

/-! ### What `bmap` does -/

/-- A block that is there is what `bmap` returns, and nothing changes. -/
theorem bmap_of_blockOf_ne_zero {bn : ℕ} (h : blockOf ip d bn ≠ 0) :
    bmap sb ip d bn = some (blockOf ip d bn, ip, d) := by
  have hmax := blockOf_lt_maxfile h
  unfold bmap
  by_cases hdir : bn < NDIRECT
  · have hb : blockOf ip d bn = ip.addrs ⟨bn, by omega⟩ := by simp [blockOf, hdir]
    rw [dif_pos hdir]
    simp only
    rw [if_neg (hb ▸ h), hb]
  · have hind : ip.indirect ≠ 0 := fun h0 => h (by simp [blockOf, hdir, h0])
    have hb : blockOf ip d bn = getWord (d ip.indirect) (bn - NDIRECT) := by
      simp [blockOf, hdir, hind]
    rw [dif_neg hdir, if_pos (by unfold MAXFILE at hmax; omega), if_neg hind]
    unfold bmapIndirect
    simp only
    rw [if_neg (hb ▸ h), hb]

/-- One block allocated costs at most one spare block. -/
theorem spare_le_of_nfree (h : nfree sb d ≤ nfree sb d' + 1) (hi : ip'.indirect = ip.indirect) :
    spare sb ip d ≤ spare sb ip' d' + 1 := by
  unfold spare
  rw [hi]
  split_ifs <;> omega

/-- The indirect block, once allocated, was the block held back for it. -/
theorem spare_attach (hind : ip.indirect = 0) (hi : ip'.indirect ≠ 0)
    (h : nfree sb d' + 1 = nfree sb d) : spare sb ip' d' = spare sb ip d := by
  unfold spare
  rw [if_pos hind, if_neg hi]
  omega

/-- What `bmap` leaves when block `bn` of the file is a hole and it returns `a`. -/
structure Grown (sb : Superblock) (ip : Inode) (d : Blocks) (bn a : ℕ) (ip' : Inode)
    (d' : Blocks) : Prop where
  owned : Owned sb ip' d'
  fields : ip' = { ip with addrs := ip'.addrs }
  other : ∀ bn', bn' ≠ bn → blockOf ip' d' bn' = blockOf ip d bn'
  filled : a ≠ 0 → blockOf ip' d' bn = a ∧ d' a = fun _ => 0
  keep : ∀ bn', blockOf ip d bn' ≠ 0 → d' (blockOf ip d bn') = d (blockOf ip d bn')
  spare_le : a ≠ 0 → spare sb ip d ≤ spare sb ip' d' + 1
  ok : 1 ≤ spare sb ip d → a ≠ 0
  confined : Confined sb ip d ip' d'

/-- Nothing allocated: the disk was full. -/
theorem Grown.full (ho : Owned sb ip d) (hfull : nfree sb d = 0) (bn : ℕ) :
    Grown sb ip d bn 0 ip d where
  owned := ho
  fields := rfl
  other _ _ := rfl
  filled h := absurd rfl h
  keep _ _ := rfl
  spare_le h := absurd rfl h
  ok h := by unfold spare at h; omega
  confined := Confined.refl

section Hole

variable (hl : sb.Layout) (ho : Owned sb ip d)
include hl ho

/-- Entry `j` of an indirect block that is there, a hole, gets a fresh block if one is free. -/
theorem bmapIndirect_hole (hind : ip.indirect ≠ 0) {j : ℕ} (hj : j < NINDIRECT)
    (hz : getWord (d ip.indirect) j = 0) :
    ∃ a d', bmapIndirect sb ip d ip.indirect j = (a, ip, d') ∧
      Grown sb ip d (NDIRECT + j) a ip d' := by
  have hzb : blockOf ip d (NDIRECT + j) = 0 := by
    simp [blockOf, hind, hz]
  unfold bmapIndirect
  simp only [hz, if_true]
  rcases balloc_cases ho.metadata with ⟨hfail, hfull⟩ | ⟨b, hball, hdata, hb, hfree⟩
  · rw [hfail]
    exact ⟨0, d, rfl, Grown.full ho hfull _⟩
  have hb0 : b ≠ 0 := by have := hl.datastart_pos; omega
  rw [hball]
  simp only [if_neg hb0]
  refine ⟨b, _, rfl, ?_⟩
  -- `d₁` is the disk after `balloc`, `d₂` after the entry is stored in the indirect block
  set d₁ := bzero (markBit sb d b) b with hd₁
  set ind := ip.indirect with hind_def
  have hrefi : IsRef ip d ind := ⟨hind, .inr rfl⟩
  have hbi : ind ≠ b := ho.ne_of_free hfree hrefi
  have hd₁i : d₁ ind = d ind := alloc_ref hl ho hb hrefi hbi
  have hbits₁ : ∀ x < sb.size, bitIsSet sb d₁ x = (bitIsSet sb d x || decide (x = b)) :=
    fun x hx => bitIsSet_alloc hl hdata hx
  have hbits₂ : ∀ x < sb.size, bitIsSet sb (Function.update d₁ ind (setWord (d₁ ind) j b)) x =
      (bitIsSet sb d x || decide (x = b)) := fun x hx => by
    rw [bitIsSet_update _ (hl.ne_bblock (ho.ref_indirect hind).1 hx), hbits₁ x hx]
  have hblk : ∀ bn, blockOf ip (Function.update d₁ ind (setWord (d₁ ind) j b)) bn =
      if bn = NDIRECT + j then b else blockOf ip d bn := by
    intro bn
    unfold blockOf
    by_cases hdir : bn < NDIRECT
    · simp only [dif_pos hdir]
      rw [if_neg (by omega)]
    · simp only [dif_neg hdir, ← hind_def, if_neg hind, Function.update_self, hd₁i]
      by_cases hbn : bn = NDIRECT + j
      · rw [if_pos hbn, hbn, Nat.add_sub_cancel_left,
          getWord_setWord_self _ _ (by unfold NINDIRECT at hj; unfold BSIZE at *; omega),
          Nat.mod_eq_of_lt (Nat.lt_trans hb hl.size_lt)]
      · rw [if_neg hbn, getWord_setWord_of_ne _ _ (by omega)]
  refine ⟨?owned, rfl, ?other, ?filled, ?keep, ?spare_le, fun _ => hb0, ?confined⟩
  case owned =>
    exact ho.fill hl hdata hb hfree (by rw [hblk, if_pos rfl])
      (fun bn' h => by rw [hblk, if_neg h]) rfl hbits₂
  case other => exact fun bn' h => by rw [hblk, if_neg h]
  case filled =>
    intro _
    refine ⟨by rw [hblk, if_pos rfl], ?_⟩
    rw [Function.update_of_ne hbi.symm, hd₁, bzero, Function.update_self]
  case keep =>
    intro bn' h
    have hx : IsRef ip d (blockOf ip d bn') := ⟨h, .inl ⟨bn', rfl⟩⟩
    rw [Function.update_of_ne (ho.ne_indirect bn' h)]
    exact alloc_ref hl ho hb hx (ho.ne_of_free hfree hx)
  case spare_le =>
    intro _
    have hn : nfree sb (Function.update d₁ ind (setWord (d₁ ind) j b)) + 1 = nfree sb d := by
      rw [nfree_congr fun x hx => (hbits₂ x hx).trans (hbits₁ x hx).symm]
      exact nfree_alloc hl hdata hb hfree
    exact spare_le_of_nfree hn.ge rfl
  case confined =>
    -- `balloc` touched `b` and its bitmap block, and the entry went into the inode's own block
    refine Confined.grow hl ho hdata hb hfree (isRef_fill hzb hb0 hblk rfl) hbits₂
      fun x hxb hxm hx => ?_
    rw [Function.update_of_ne fun e => hx (by rw [e]; exact hrefi)]
    exact alloc_of_ne hxb hxm

/-- A direct block that is a hole gets a fresh block if one is free. -/
theorem bmap_hole_direct {bn : ℕ} (hdir : bn < NDIRECT) (hz : blockOf ip d bn = 0) :
    ∃ a ip' d', bmap sb ip d bn = some (a, ip', d') ∧ Grown sb ip d bn a ip' d' := by
  have haddr : ip.addrs ⟨bn, by omega⟩ = 0 := by simpa [blockOf, hdir] using hz
  unfold bmap
  simp only [dif_pos hdir, haddr, if_true]
  rcases balloc_cases ho.metadata with ⟨hfail, hfull⟩ | ⟨b, hball, hdata, hb, hfree⟩
  · rw [hfail]
    exact ⟨0, ip, d, rfl, Grown.full ho hfull _⟩
  have hb0 : b ≠ 0 := by have := hl.datastart_pos; omega
  rw [hball]
  simp only [if_neg hb0]
  refine ⟨b, _, _, rfl, ?_⟩
  set d₁ := bzero (markBit sb d b) b with hd₁
  set i : Fin NDIRECT := ⟨bn, hdir⟩
  have hcast : (⟨bn, by omega⟩ : Fin (NDIRECT + 1)) = i.castSucc := rfl
  have hi : (ip.setAddr ⟨bn, by omega⟩ b).indirect = ip.indirect := by
    rw [hcast, Inode.indirect_setAddr_castSucc]
  have hd₁i : ip.indirect ≠ 0 → d₁ ip.indirect = d ip.indirect := fun hind =>
    alloc_ref hl ho hb ⟨hind, .inr rfl⟩ (ho.ne_of_free hfree ⟨hind, .inr rfl⟩)
  have hblk : ∀ bn', blockOf (ip.setAddr ⟨bn, by omega⟩ b) d₁ bn' =
      if bn' = bn then b else blockOf ip d bn' := by
    intro bn'
    by_cases hdir' : bn' < NDIRECT
    · simp only [blockOf, dif_pos hdir', Inode.setAddr, Function.update_apply, Fin.ext_iff]
    · rw [if_neg (by omega)]
      unfold blockOf
      simp only [dif_neg hdir', hi]
      split_ifs with hind
      · rfl
      · rw [hd₁i hind]
  have hbits₁ : ∀ x < sb.size, bitIsSet sb d₁ x = (bitIsSet sb d x || decide (x = b)) :=
    fun x hx => bitIsSet_alloc hl hdata hx
  refine ⟨?owned, rfl, ?other, ?filled, ?keep, ?spare_le, fun _ => hb0, ?confined⟩
  case owned =>
    exact ho.fill hl hdata hb hfree (by rw [hblk, if_pos rfl])
      (fun bn' h => by rw [hblk, if_neg h]) hi hbits₁
  case other => exact fun bn' h => by rw [hblk, if_neg h]
  case filled =>
    intro _
    exact ⟨by rw [hblk, if_pos rfl], by rw [hd₁, bzero, Function.update_self]⟩
  case keep =>
    intro bn' h
    have hx : IsRef ip d (blockOf ip d bn') := ⟨h, .inl ⟨bn', rfl⟩⟩
    exact alloc_ref hl ho hb hx (ho.ne_of_free hfree hx)
  case spare_le =>
    intro _
    exact spare_le_of_nfree (nfree_alloc hl hdata hb hfree).ge hi
  case confined =>
    exact Confined.grow hl ho hdata hb hfree (isRef_fill hz hb0 hblk hi) hbits₁
      fun x hxb hxm _ => alloc_of_ne hxb hxm

/-- A block past the direct ones, in an inode with no indirect block yet: the indirect block is
allocated first, then the entry. -/
theorem bmap_hole_attach {bn : ℕ} (hdir : ¬ bn < NDIRECT) (hbn : bn < MAXFILE)
    (hind : ip.indirect = 0) :
    ∃ a ip' d', bmap sb ip d bn = some (a, ip', d') ∧ Grown sb ip d bn a ip' d' := by
  have hj : bn - NDIRECT < NINDIRECT := by unfold MAXFILE at hbn; omega
  unfold bmap
  simp only [dif_neg hdir, if_pos hj, hind, if_true]
  rcases balloc_cases ho.metadata with ⟨hfail, hfull⟩ | ⟨c, hball, hdata, hc, hfree⟩
  · rw [hfail]
    exact ⟨0, ip, d, rfl, Grown.full ho hfull _⟩
  have hc0 : c ≠ 0 := by have := hl.datastart_pos; omega
  rw [hball]
  simp only [if_neg hc0]
  -- first the indirect block `c`, zeroed, in `ip₁` and `d₁`
  set d₁ := bzero (markBit sb d c) c with hd₁
  set ip₁ := ip.setAddr (Fin.last NDIRECT) c with hip₁
  have hi₁ : ip₁.indirect = c := Inode.indirect_setAddr_last ip c
  have hblk₁ : ∀ bn', blockOf ip₁ d₁ bn' = blockOf ip d bn' := by
    intro bn'
    unfold blockOf
    by_cases hdir' : bn' < NDIRECT
    · simp only [dif_pos hdir', hip₁, Inode.setAddr]
      rw [Function.update_of_ne (by simp [Fin.ext_iff]; omega)]
    · simp only [dif_neg hdir', hi₁, if_neg hc0, hind, if_true, hd₁, bzero, Function.update_self,
        getWord_zero]
  have hbits₁ : ∀ x < sb.size, bitIsSet sb d₁ x = (bitIsSet sb d x || decide (x = c)) :=
    fun x hx => bitIsSet_alloc hl hdata hx
  have ho₁ : Owned sb ip₁ d₁ := ho.attach hdata hc hfree hblk₁ hi₁ hbits₁
  have hz₁ : getWord (d₁ ip₁.indirect) (bn - NDIRECT) = 0 := by
    rw [hi₁, hd₁, bzero, Function.update_self, getWord_zero]
  -- then the entry, in the zeroed indirect block
  obtain ⟨a, d', hbi, hg⟩ := bmapIndirect_hole hl ho₁ (by rw [hi₁]; exact hc0) hj hz₁
  rw [hi₁] at hbi
  rw [hbi]
  have hbn' : NDIRECT + (bn - NDIRECT) = bn := by omega
  rw [hbn'] at hg
  have hspare₁ : spare sb ip₁ d₁ = spare sb ip d :=
    spare_attach hind (by rw [hi₁]; exact hc0) (nfree_alloc hl hdata hc hfree)
  refine ⟨a, ip₁, d', rfl, ?_⟩
  refine ⟨hg.owned, rfl, ?other, hg.filled, ?keep, ?spare_le, ?ok, ?confined⟩
  case other => exact fun bn' h => (hg.other bn' h).trans (hblk₁ bn')
  case keep =>
    intro bn' h
    have hx : IsRef ip d (blockOf ip d bn') := ⟨h, .inl ⟨bn', rfl⟩⟩
    rw [← hblk₁, hg.keep bn' (by rw [hblk₁]; exact h), hblk₁]
    exact alloc_ref hl ho hc hx (ho.ne_of_free hfree hx)
  case spare_le =>
    intro ha
    have := hg.spare_le ha
    omega
  case ok =>
    intro h
    exact hg.ok (by omega)
  case confined =>
    -- the indirect block is taken first, then the entry
    have hc₁ : Confined sb ip d ip₁ d₁ :=
      Confined.grow hl ho hdata hc hfree (isRef_attach hind hc0 hblk₁ hi₁) hbits₁
        fun x hxc hxm _ => alloc_of_ne hxc hxm
    exact hc₁.trans ho hg.owned hg.confined

/-- **`bmap` on a hole.** A hole below `MAXFILE` is filled with a fresh zeroed block, or left
when the disk is full; either way `Grown` holds. -/
theorem bmap_hole {bn : ℕ} (hbn : bn < MAXFILE) (hz : blockOf ip d bn = 0) :
    ∃ a ip' d', bmap sb ip d bn = some (a, ip', d') ∧ Grown sb ip d bn a ip' d' := by
  by_cases hdir : bn < NDIRECT
  · exact bmap_hole_direct hl ho hdir hz
  by_cases hind : ip.indirect = 0
  · exact bmap_hole_attach hl ho hdir hbn hind
  have hj : bn - NDIRECT < NINDIRECT := by unfold MAXFILE at hbn; omega
  have hz' : getWord (d ip.indirect) (bn - NDIRECT) = 0 := by
    simpa [blockOf, hdir, hind] using hz
  obtain ⟨a, d', hbi, hg⟩ := bmapIndirect_hole hl ho hind hj hz'
  have hbn' : NDIRECT + (bn - NDIRECT) = bn := by omega
  rw [hbn'] at hg
  refine ⟨a, ip, d', ?_, hg⟩
  unfold bmap
  rw [dif_neg hdir, if_pos hj, if_neg hind, hbi]

end Hole

/-! ### `iupdate` -/

theorem iupdate_of_ne {a : ℕ} (h : a ≠ IBLOCK ip.inum sb) : iupdate sb ip d a = d a :=
  Function.update_of_ne h _ _

section Iupdate

variable (hl : sb.Layout) (ho : Owned sb ip d) (hinum : ip.inum < sb.ninodes)
include hl ho hinum

/-- No block of the inode is its inode block. -/
theorem Owned.ne_iblock {x : ℕ} (hx : IsRef ip d x) : x ≠ IBLOCK ip.inum sb := by
  have h1 := (ho.ref x hx).1
  have h2 := hl.iblock_lt hinum
  omega

/-- Writing the inode back keeps what it owns. -/
theorem Owned.iupdate : Owned sb ip (iupdate sb ip d) := by
  refine ho.update _ (fun h => (ho.ne_iblock hl hinum ⟨h, .inr rfl⟩).symm) fun x _ => ?_
  have h1 := hl.iblock_lt_bmapstart hinum
  have h2 : sb.bmapstart ≤ BBLOCK x sb := Nat.le_add_left _ _
  omega

/-- Writing the inode back leaves the bytes of its blocks alone. -/
theorem byteAt_iupdate {k : ℕ} (h : blockOf ip d (k / BSIZE) ≠ 0) :
    byteAt ip (iupdate sb ip d) k = byteAt ip d k := by
  have hb : blockOf ip (iupdate sb ip d) (k / BSIZE) = blockOf ip d (k / BSIZE) :=
    blockOf_congr (fun h => iupdate_of_ne (ho.ne_iblock hl hinum ⟨h, .inr rfl⟩)) _
  exact byteAt_congr hb (iupdate_of_ne (ho.ne_iblock hl hinum ⟨h, .inl ⟨_, rfl⟩⟩))

end Iupdate

end Xv6
