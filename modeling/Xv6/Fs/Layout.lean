import Xv6.Log.Header
import Xv6.Lib.Bits
import Mathlib.Data.Finset.Card

/-!
# The disk layout and the free-block bitmap (`fs.h`, `balloc` in `fs.c`)

`mkfs` lays the disk out as boot block, super block, log, inode blocks, free bitmap and data
blocks; `Superblock.Layout` says so of a super block. Bit `b % BPB` of bitmap block
`BBLOCK(b, sb)` records whether block `b` is in use: `bitIsSet` tests it as `balloc` and `bfree`
do, through the byte `bi/8` and the mask `1 << (bi % 8)`.

`balloc` takes the first block whose bit is clear, marks it and zeroes it (`bzero`). Its spec,
`balloc_cases`, is all the rest of the file system needs: either no bit is clear and nothing
changes, or a data block whose bit was clear comes back, its bit is now set, no other bit moved
and the count of free blocks `nfree` went down by one.

`Blocks` is what `bread` returns for each block of the device: the buffer cache's copy where
there is one, the disk's otherwise. Writes to a buffer (`log_write` included) change it at once.
-/

namespace Xv6

/-- Bitmap bits per block. -/
def BPB : ℕ := BSIZE * 8

/-- Inodes per block, `BSIZE / sizeof(struct dinode)` with a 64-byte `dinode`. -/
def IPB : ℕ := BSIZE / 64

/-- The fields of `struct superblock` that the block and inode code reads. -/
structure Superblock where
  size : ℕ
  nblocks : ℕ
  ninodes : ℕ
  inodestart : ℕ
  bmapstart : ℕ
deriving Repr, DecidableEq

/-- Block of the free map holding the bit of block `b`. -/
def BBLOCK (b : ℕ) (sb : Superblock) : ℕ := b / BPB + sb.bmapstart

/-- Block holding inode `i`. -/
def IBLOCK (i : ℕ) (sb : Superblock) : ℕ := i / IPB + sb.inodestart

/-- The contents `bread` returns for each block number of the device. -/
abbrev Blocks := ℕ → Block

namespace Superblock

/-- The first data block, `sb.size - sb.nblocks`; everything below it is metadata. -/
def datastart (sb : Superblock) : ℕ := sb.size - sb.nblocks

/-- The layout `mkfs` writes: `ninodes / IPB + 1` inode blocks, then `size / BPB + 1` bitmap
blocks, then the data blocks, all block numbers fitting a `uint`. -/
structure Layout (sb : Superblock) : Prop where
  inodes : sb.inodestart + sb.ninodes / IPB + 1 ≤ sb.bmapstart
  bitmap : sb.bmapstart + sb.size / BPB + 1 ≤ sb.datastart
  size_lt : sb.size < 2 ^ 32

variable {sb : Superblock}

theorem Layout.datastart_pos (hl : sb.Layout) : 0 < sb.datastart :=
  Nat.lt_of_lt_of_le (Nat.succ_pos _) hl.bitmap

/-- The bitmap comes before the data blocks. -/
theorem Layout.bmapstart_lt (hl : sb.Layout) : sb.bmapstart < sb.datastart :=
  Nat.lt_of_lt_of_le (Nat.lt_succ_of_le (Nat.le_add_right _ _)) hl.bitmap

/-- Bitmap blocks are metadata. -/
theorem Layout.bblock_lt (hl : sb.Layout) {b : ℕ} (hb : b < sb.size) :
    BBLOCK b sb < sb.datastart := by
  have h1 : b / BPB ≤ sb.size / BPB := Nat.div_le_div_right hb.le
  have h2 := hl.bitmap
  unfold BBLOCK
  omega

/-- Inode blocks come before the bitmap. -/
theorem Layout.iblock_lt_bmapstart (hl : sb.Layout) {i : ℕ} (hi : i < sb.ninodes) :
    IBLOCK i sb < sb.bmapstart := by
  have h1 : i / IPB ≤ sb.ninodes / IPB := Nat.div_le_div_right hi.le
  have h2 := hl.inodes
  unfold IBLOCK
  omega

/-- Inode blocks are metadata. -/
theorem Layout.iblock_lt (hl : sb.Layout) {i : ℕ} (hi : i < sb.ninodes) :
    IBLOCK i sb < sb.datastart := by
  have h1 := hl.iblock_lt_bmapstart hi
  have h2 := hl.bitmap
  unfold BPB BSIZE at *
  omega

/-- A data block is no bitmap block. -/
theorem Layout.ne_bblock (hl : sb.Layout) {a b : ℕ} (ha : sb.datastart ≤ a) (hb : b < sb.size) :
    a ≠ BBLOCK b sb := by
  have := hl.bblock_lt hb
  omega

theorem datastart_le : sb.datastart ≤ sb.size := Nat.sub_le _ _

/-- `NINODES` of `mkfs`. -/
def NINODES : ℕ := 200

/-- The super block `mkfs` writes: after the boot block and the super block, `nlog = LOGSIZE`
log blocks, `NINODES / IPB + 1` inode blocks and `FSSIZE / (BSIZE * 8) + 1` bitmap blocks. -/
def mkfs : Superblock :=
  let nbitmap := FSSIZE / (BSIZE * 8) + 1
  let ninodeblocks := NINODES / IPB + 1
  let nlog := LOGSIZE
  let nmeta := 2 + nlog + ninodeblocks + nbitmap
  { size := FSSIZE, nblocks := FSSIZE - nmeta, ninodes := NINODES, inodestart := 2 + nlog,
    bmapstart := 2 + nlog + ninodeblocks }

/-- `mkfs` lays the disk out as `Layout` says: 46 metadata blocks, then the data blocks. -/
theorem mkfs_layout : mkfs.Layout ∧ mkfs.datastart = 46 :=
  ⟨⟨by decide, by decide, by decide⟩, rfl⟩

end Superblock

/-! ### The bitmap -/

/-- The byte `bi/8` of the bitmap block holding block `b`'s bit, `bi = b % BPB`. -/
def bitByte (b : ℕ) : Fin BSIZE := ⟨b % BPB / 8, by unfold BPB BSIZE; omega⟩

/-- The mask `m = 1 << (bi % 8)`. -/
def bitMask (b : ℕ) : UInt8 := 1 <<< (b % BPB % 8).toUInt8

/-- `(bp->data[bi/8] & m) != 0`: block `b` is in use. -/
def bitIsSet (sb : Superblock) (d : Blocks) (b : ℕ) : Bool :=
  d (BBLOCK b sb) (bitByte b) &&& bitMask b != 0

/-- Byte `k` of block `a` replaced by `v`. -/
def setByte (d : Blocks) (a : ℕ) (k : Fin BSIZE) (v : UInt8) : Blocks :=
  Function.update d a (Function.update (d a) k v)

/-- `bp->data[bi/8] |= m`. -/
def markBit (sb : Superblock) (d : Blocks) (b : ℕ) : Blocks :=
  setByte d (BBLOCK b sb) (bitByte b) (d (BBLOCK b sb) (bitByte b) ||| bitMask b)

/-- `bzero`: block `bno` filled with zeroes. -/
def bzero (d : Blocks) (bno : ℕ) : Blocks := Function.update d bno fun _ => 0

/-- `balloc`: the first block below `sb.size` whose bit is clear, marked in use and zeroed, or
`0` when there is none. The two loops of the source visit `b + bi` in increasing order, one
bitmap block at a time, which is the scan of `List.range sb.size`. -/
def balloc (sb : Superblock) (d : Blocks) : ℕ × Blocks :=
  match (List.range sb.size).find? (fun b => !bitIsSet sb d b) with
  | some b => (b, bzero (markBit sb d b) b)
  | none => (0, d)

/-- The number of blocks whose bit is clear. -/
def nfree (sb : Superblock) (d : Blocks) : ℕ :=
  ((Finset.range sb.size).filter fun b => bitIsSet sb d b = false).card

variable {sb : Superblock} {d : Blocks}

theorem bitIsSet_eq_testBit (sb : Superblock) (d : Blocks) (b : ℕ) :
    bitIsSet sb d b = (d (BBLOCK b sb) (bitByte b)).toNat.testBit (b % BPB % 8) :=
  Bits.and_mask_ne_zero _ (by omega)

theorem setByte_of_ne {a a' : ℕ} {k : Fin BSIZE} {v : UInt8} (h : a' ≠ a) :
    setByte d a k v a' = d a' :=
  Function.update_of_ne h _ _

/-- Blocks `x` and `b` share a bitmap block and a byte there only if their bit positions
differ or they are the same block. -/
theorem eq_of_bit_eq {x b : ℕ} (hblk : BBLOCK x sb = BBLOCK b sb) (hbyte : bitByte x = bitByte b)
    (hbit : b % BPB % 8 = x % BPB % 8) : x = b := by
  simp only [BBLOCK, bitByte, Fin.ext_iff] at hblk hbyte
  unfold BPB BSIZE at *
  omega

/-- **Marking a block.** Its bit is set and no other bit changes. -/
theorem bitIsSet_markBit (b x : ℕ) :
    bitIsSet sb (markBit sb d b) x = (bitIsSet sb d x || decide (x = b)) := by
  rw [bitIsSet_eq_testBit, bitIsSet_eq_testBit]
  unfold markBit setByte
  by_cases hblk : BBLOCK x sb = BBLOCK b sb
  · rw [hblk, Function.update_self]
    by_cases hbyte : bitByte x = bitByte b
    · rw [hbyte, Function.update_self, bitMask, Bits.testBit_or_mask _ (by omega)]
      -- the same byte of the same bitmap block: the bits agree iff the blocks do
      have hiff : decide (b % BPB % 8 = x % BPB % 8) = decide (x = b) := by
        refine decide_eq_decide.mpr ⟨eq_of_bit_eq hblk hbyte, fun h => by rw [h]⟩
      rw [hiff]
    · have hne : x ≠ b := fun h => hbyte (h ▸ rfl)
      rw [Function.update_of_ne hbyte]
      simp [hne]
  · have hne : x ≠ b := fun h => hblk (h ▸ rfl)
    rw [Function.update_of_ne hblk]
    simp [hne]

/-- Writing a block that does not hold `x`'s bit leaves that bit alone. -/
theorem bitIsSet_update {a x : ℕ} (v : Block) (h : a ≠ BBLOCK x sb) :
    bitIsSet sb (Function.update d a v) x = bitIsSet sb d x := by
  unfold bitIsSet
  rw [Function.update_of_ne (Ne.symm h)]

theorem bitIsSet_bzero {bno x : ℕ} (h : bno ≠ BBLOCK x sb) :
    bitIsSet sb (bzero d bno) x = bitIsSet sb d x :=
  bitIsSet_update _ h

/-- Two bitmaps with the same bits below `sb.size` have the same number of free blocks. -/
theorem nfree_congr {d' : Blocks} (h : ∀ x < sb.size, bitIsSet sb d' x = bitIsSet sb d x) :
    nfree sb d' = nfree sb d := by
  unfold nfree
  congr 1
  ext x
  simp only [Finset.mem_filter, Finset.mem_range]
  exact ⟨fun ⟨hx, hb⟩ => ⟨hx, (h x hx) ▸ hb⟩, fun ⟨hx, hb⟩ => ⟨hx, (h x hx).symm ▸ hb⟩⟩

/-- Marking a free block takes one off the free count. -/
theorem nfree_markBit {b : ℕ} (hb : b < sb.size) (hfree : bitIsSet sb d b = false) :
    nfree sb (markBit sb d b) + 1 = nfree sb d := by
  unfold nfree
  have herase : ((Finset.range sb.size).filter fun x => bitIsSet sb (markBit sb d b) x = false) =
      ((Finset.range sb.size).filter fun x => bitIsSet sb d x = false).erase b := by
    ext x
    simp only [Finset.mem_filter, Finset.mem_range, Finset.mem_erase, bitIsSet_markBit,
      Bool.or_eq_false_iff, decide_eq_false_iff_not]
    tauto
  rw [herase]
  exact Finset.card_erase_add_one (by simp [hb, hfree])

/-- **`balloc`'s spec.** With every metadata block marked in use, `balloc` either finds no free
block and changes nothing, or returns a free data block `b`, marked and zeroed. -/
theorem balloc_cases (hmeta : ∀ b < sb.datastart, bitIsSet sb d b) :
    (balloc sb d = (0, d) ∧ nfree sb d = 0) ∨
    ∃ b, balloc sb d = (b, bzero (markBit sb d b) b) ∧ sb.datastart ≤ b ∧ b < sb.size ∧
      bitIsSet sb d b = false := by
  unfold balloc
  cases hfind : (List.range sb.size).find? (fun b => !bitIsSet sb d b) with
  | none =>
    -- no bit is clear below `sb.size`
    left
    refine ⟨rfl, Finset.card_eq_zero.mpr (Finset.filter_eq_empty_iff.mpr fun x hx => ?_)⟩
    have := List.find?_eq_none.mp hfind x (List.mem_range.mpr (Finset.mem_range.mp hx))
    simpa using this
  | some b =>
    right
    have hclear : bitIsSet sb d b = false := by simpa using List.find?_some hfind
    have hlt : b < sb.size := List.mem_range.mp (List.mem_of_find?_eq_some hfind)
    -- a metadata block is marked, so the free block found is a data block
    have hdata : sb.datastart ≤ b := by
      by_contra h
      rw [hmeta b (by omega)] at hclear
      exact Bool.noConfusion hclear
    exact ⟨b, rfl, hdata, hlt, hclear⟩

section Alloc

variable (hl : sb.Layout) {b : ℕ} (hdata : sb.datastart ≤ b)
include hl hdata

/-- After allocating data block `b`, the bits below `sb.size` are the old ones and `b`'s. -/
theorem bitIsSet_alloc {x : ℕ} (hx : x < sb.size) :
    bitIsSet sb (bzero (markBit sb d b) b) x = (bitIsSet sb d x || decide (x = b)) := by
  have hne : b ≠ BBLOCK x sb := by have := hl.bblock_lt hx; omega
  rw [bitIsSet_bzero hne, bitIsSet_markBit]

/-- Allocating a free data block takes one off the free count. -/
theorem nfree_alloc (hb : b < sb.size) (hfree : bitIsSet sb d b = false) :
    nfree sb (bzero (markBit sb d b) b) + 1 = nfree sb d := by
  have hsame : nfree sb (bzero (markBit sb d b) b) = nfree sb (markBit sb d b) :=
    nfree_congr fun x hx => by
      rw [bitIsSet_bzero (by have := hl.bblock_lt hx; omega)]
  rw [hsame, nfree_markBit hb hfree]

end Alloc

/-- Allocating block `b` changes only `b` and its bitmap block. -/
theorem alloc_of_ne {a b : ℕ} (hab : a ≠ b) (hbm : a ≠ BBLOCK b sb) :
    bzero (markBit sb d b) b a = d a := by
  unfold bzero markBit
  rw [Function.update_of_ne hab, setByte_of_ne hbm]

end Xv6
