import Xv6.Fs.Dir
import Xv6.Fs.Dinode

/-!
# The file-system image builder (`mkfs/mkfs.c`)

`mkfs` writes `FSSIZE` zero blocks, the super block, the root directory (inode `1`) with `.` and
`..`, and for each input file an inode, an entry in the root and the file's bytes. `iappend`
appends bytes to an inode one block piece at a time, taking each new block, and the indirect
block, from `freeblock` in order. At the end `mkfs` rounds the root directory's size up and
writes the bitmap of the blocks taken.

The rounding is `off = ((off/BSIZE) + 1) * BSIZE`, the end of the block after the one that holds
offset `off`. When the entries end exactly at a block boundary that block was never taken:

* `iappend_root`: one entry appended to the root, which keeps its blocks exactly below its size;
* `mkfs_root_blocks`: for every list of empty input files with good names, the root's final
  size and blocks;
* `mkfs_root_noHoles_iff`: the root has a hole iff its entries fill whole blocks, which
  happens with 62 input files (`mkfs_root_hole`).
-/

namespace Xv6.Mkfs

open Header

/-- `T_FILE`. -/
def T_FILE : ℕ := 2

/-- `FSMAGIC`. -/
def FSMAGIC : ℕ := 0x10203040

/-- `nmeta`: the boot block, the super block, and the log, inode and bitmap blocks. -/
def nmeta : ℕ := 2 + LOGSIZE + (Superblock.NINODES / IPB + 1) + (FSSIZE / (BSIZE * 8) + 1)

/-- The state of `mkfs`: the image, and the globals `freeinode` and `freeblock`. -/
structure Image where
  d : Blocks
  freeinode : ℕ
  freeblock : ℕ

/-- `zeroes`. -/
def zeroes : Block := fun _ => 0

/-- `wsect(sec, buf)`. -/
def wsect (d : Blocks) (sec : ℕ) (buf : Block) : Blocks := Function.update d sec buf

/-- `rsect(sec, buf)`: `none` where `read` comes short and `mkfs` dies, past the `FSSIZE` blocks
of the image (every `wsect` comes after an `rsect` of its block, so the image never grows). -/
def rsect (d : Blocks) (sec : ℕ) : Option Block := if sec < FSSIZE then some (d sec) else none

/-- `winode(inum, ip)`: the block of the inode read, the dinode put in its slot, the block
written back. -/
def winode (d : Blocks) (inum : ℕ) (din : Inode) : Option Blocks :=
  (rsect d (IBLOCK inum Superblock.mkfs)).map fun _ => iupdate Superblock.mkfs { din with inum } d

/-- `rinode(inum, ip)`. -/
def rinode (d : Blocks) (inum : ℕ) : Option Inode :=
  (rsect d (IBLOCK inum Superblock.mkfs)).map fun _ => dinode Superblock.mkfs d inum

/-- `ialloc(type)`: the next inode number, with a dinode of the type, one link and no blocks. -/
def ialloc (img : Image) (type : ℕ) : Option (ℕ × Image) :=
  (winode img.d img.freeinode { Inode.zeroed img.freeinode type with nlink := 1 }).map fun d =>
    (img.freeinode, { img with d := d, freeinode := img.freeinode + 1 })

/-- The block `iappend` writes for file block `fbn`: `din.addrs[fbn]` below `NDIRECT`, and the
entry of the indirect block above, each taken from `freeblock` where it is `0`. The inode, the
image and `freeblock` after, and the block. -/
def blockFor (din : Inode) (d : Blocks) (fb fbn : ℕ) : Option (Inode × Blocks × ℕ × ℕ) :=
  if h : fbn < NDIRECT then
    let k : Fin (NDIRECT + 1) := ⟨fbn, Nat.lt_succ_of_lt h⟩
    if din.addrs k = 0 then some ({ din with addrs := Function.update din.addrs k fb }, d, fb + 1, fb)
    else some (din, d, fb, din.addrs k)
  else
    let (din, fb) :=
      if din.indirect = 0 then
        ({ din with addrs := Function.update din.addrs (Fin.last NDIRECT) fb }, fb + 1)
      else (din, fb)
    (rsect d din.indirect).map fun ind =>
      if getWord ind (fbn - NDIRECT) = 0 then
        (din, wsect d din.indirect (setWord ind (fbn - NDIRECT) fb), fb + 1, fb)
      else (din, d, fb, getWord ind (fbn - NDIRECT))

/-- `bcopy(p, buf + o, n)` for the `n` bytes `p`. -/
def bcopy (buf : Block) (o : ℕ) (p : List UInt8) : Block :=
  fun k => if o ≤ k.val ∧ k.val < o + p.length then p.getD (k.val - o) 0 else buf k

/-- The loop of `iappend` with the inode `din` read in: the bytes `p` appended at offset `off`,
one piece of a block at a time. The inode, the image, `freeblock` and the offset after; `none`
where an `assert` fails or `mkfs` dies. -/
def iappendLoop : (fuel : ℕ) → Inode → Blocks → (fb off : ℕ) → List UInt8 →
    Option (Inode × Blocks × ℕ × ℕ)
  | 0, _, _, _, _, _ => none
  | fuel + 1, din, d, fb, off, p =>
    if p = [] then some (din, d, fb, off)
    else if MAXFILE ≤ off / BSIZE then none
    else
      match blockFor din d fb (off / BSIZE) with
      | none => none
      | some (din, d, fb, x) =>
        let n1 := min p.length ((off / BSIZE + 1) * BSIZE - off)
        match rsect d x with
        | none => none
        | some buf =>
          iappendLoop fuel din (wsect d x (bcopy buf (off - off / BSIZE * BSIZE) (p.take n1))) fb
            (off + n1) (p.drop n1)

/-- `iappend(inum, p, n)` for the `n` bytes `p`. -/
def iappend (img : Image) (inum : ℕ) (p : List UInt8) : Option Image :=
  match rinode img.d inum with
  | none => none
  | some din =>
    match iappendLoop (p.length + 1) din img.d img.freeblock din.size p with
    | none => none
    | some (din, d, fb, off) =>
      (winode d inum { din with size := off }).map fun d => { img with d := d, freeblock := fb }

/-- The `struct dirent` with `de.inum = xshort(inum)` and `strncpy(de.name, name, DIRSIZ)`. -/
def direntBytes (inum : ℕ) (name : List UInt8) : List UInt8 := Dirent.toBytes ⟨inum, strncpy name DIRSIZ⟩

/-- An input file: its command-line argument and the bytes `read` returns from it. -/
structure File where
  arg : List UInt8
  data : List UInt8

/-- The name written for the argument `arg`: without a leading `user/`, then without a leading
`_`; `none` where the rest holds a `/` (the `assert`). -/
def shortname (arg : List UInt8) : Option (List UInt8) :=
  let s := if arg.take 5 = [117, 115, 101, 114, 47] then arg.drop 5 else arg
  if (47 : UInt8) ∈ s then none else some (if s.headD 0 = 95 then s.tail else s)

/-- `while((cc = read(fd, buf, sizeof(buf))) > 0) iappend(inum, buf, cc)`: the bytes in pieces of
`BSIZE`, as `read` returns them from a regular file. -/
def appendData (inum : ℕ) : (fuel : ℕ) → Image → List UInt8 → Option Image
  | 0, _, _ => none
  | fuel + 1, img, data =>
    if data = [] then some img
    else (iappend img inum (data.take BSIZE)).bind fun img => appendData inum fuel img (data.drop BSIZE)

/-- One round of the loop over the files: an inode, its entry in the root `rootino`, its bytes. -/
def addFile (rootino : ℕ) (img : Image) (f : File) : Option Image :=
  match shortname f.arg with
  | none => none
  | some name =>
    match ialloc img T_FILE with
    | none => none
    | some (inum, img) =>
      (iappend img rootino (direntBytes inum name)).bind fun img =>
        appendData inum (f.data.length + 1) img f.data

/-- The super block as `mkfs` writes it into block 1: the fields of `struct superblock` as
little-endian words. -/
def sbBlock : Block :=
  let fields := [FSMAGIC, FSSIZE, FSSIZE - nmeta, Superblock.NINODES, LOGSIZE, 2, 2 + LOGSIZE,
    2 + LOGSIZE + (Superblock.NINODES / IPB + 1)]
  (List.range fields.length).foldl (fun b i => setWord b i (fields.getD i 0)) zeroes

/-- The bitmap block `balloc(used)` writes: bit `i` set for each `i < used`. -/
def bitmap (used : ℕ) : Block :=
  let buf := (List.range used).foldl (fun (buf : ℕ → UInt8) i =>
    Function.update buf (i / 8) (buf (i / 8) ||| (1 <<< UInt8.ofNat (i % 8)))) fun _ => 0
  fun k => buf k.val

/-- `balloc(used)`; `none` where the `assert` fails. -/
def balloc (img : Image) (used : ℕ) : Option Image :=
  if used < BSIZE * 8 then some { img with d := wsect img.d Superblock.mkfs.bmapstart (bitmap used) }
  else none

/-- The image `mkfs` starts from: `FSSIZE` zero blocks and the super block, with no inode and no
data block taken. -/
def initImage : Image := ⟨wsect (fun _ => zeroes) 1 sbBlock, 1, nmeta⟩

/-- The end of `main`: the size of the root directory `rootino` rounded up, and the bitmap of the
blocks taken. -/
def finish (rootino : ℕ) (img : Image) : Option Image := do
  -- fix size of root inode dir
  let din ← rinode img.d rootino
  let d ← winode img.d rootino { din with size := (din.size / BSIZE + 1) * BSIZE }
  balloc { img with d := d } img.freeblock

/-- `mkfs fs.img files...`: the image, or `none` where an `assert` fails or `mkfs` dies. -/
def mkfs (files : List File) : Option Image := do
  let (rootino, img) ← ialloc initImage T_DIR
  if rootino ≠ ROOTINO then none
  let img ← iappend img rootino (direntBytes rootino [46])
  let img ← iappend img rootino (direntBytes rootino [46, 46])
  let img ← files.foldlM (addFile rootino) img
  finish rootino img

/-! ### Reading and writing the image -/

section Steps

variable {d : Blocks}

theorem rsect_eq {sec : ℕ} (h : sec < FSSIZE) : rsect d sec = some (d sec) := if_pos h

theorem iblock_lt {inum : ℕ} (h : inum < Superblock.NINODES) :
    IBLOCK inum Superblock.mkfs < FSSIZE := by
  have hb : IBLOCK inum Superblock.mkfs = inum / 16 + 32 := rfl
  have hi : inum < 200 := h
  rw [hb]
  unfold FSSIZE
  omega

theorem winode_eq {inum : ℕ} (h : inum < Superblock.NINODES) (din : Inode) :
    winode d inum din = some (iupdate Superblock.mkfs { din with inum } d) := by
  rw [winode, rsect_eq (iblock_lt h)]
  rfl

theorem rinode_eq {inum : ℕ} (h : inum < Superblock.NINODES) :
    rinode d inum = some (dinode Superblock.mkfs d inum) := by
  rw [rinode, rsect_eq (iblock_lt h)]
  rfl

theorem ialloc_eq (img : Image) (type : ℕ) (h : img.freeinode < Superblock.NINODES) :
    ialloc img type = some (img.freeinode, { img with
      d := iupdate Superblock.mkfs { Inode.zeroed img.freeinode type with nlink := 1 } img.d
      freeinode := img.freeinode + 1 }) := by
  rw [ialloc, winode_eq h]
  rfl

theorem blockFor_direct (din : Inode) (d : Blocks) (fb : ℕ) {fbn : ℕ} (h : fbn < NDIRECT) :
    blockFor din d fb fbn =
      if din.addrs ⟨fbn, Nat.lt_succ_of_lt h⟩ = 0 then
        some ({ din with addrs := Function.update din.addrs ⟨fbn, Nat.lt_succ_of_lt h⟩ fb },
          d, fb + 1, fb)
      else some (din, d, fb, din.addrs ⟨fbn, Nat.lt_succ_of_lt h⟩) := by
  rw [blockFor, dif_pos h]

theorem iappendLoop_nil (fuel : ℕ) (din : Inode) (d : Blocks) (fb off : ℕ) :
    iappendLoop (fuel + 1) din d fb off [] = some (din, d, fb, off) := by
  rw [iappendLoop, if_pos rfl]

/-- One piece of the loop: the block for the offset, and as many bytes as fit in it. -/
theorem iappendLoop_step {fuel : ℕ} {din din' : Inode} {d' : Blocks} {fb fb' off x : ℕ}
    {p : List UInt8} (hp : p ≠ []) (hmax : off / BSIZE < MAXFILE)
    (hb : blockFor din d fb (off / BSIZE) = some (din', d', fb', x)) (hx : x < FSSIZE) :
    iappendLoop (fuel + 1) din d fb off p =
      iappendLoop fuel din' (wsect d' x (bcopy (d' x) (off - off / BSIZE * BSIZE)
        (p.take (min p.length ((off / BSIZE + 1) * BSIZE - off))))) fb'
        (off + min p.length ((off / BSIZE + 1) * BSIZE - off))
        (p.drop (min p.length ((off / BSIZE + 1) * BSIZE - off))) := by
  rw [iappendLoop, if_neg hp, if_neg (by omega), hb]
  dsimp only
  rw [rsect_eq hx]

/-- Bytes that fit in what is left of the block of `off` go in one piece. -/
theorem iappendLoop_fits (fuel : ℕ) {din din' : Inode} {d' : Blocks} {fb fb' off x : ℕ}
    {p : List UInt8} (hp : p ≠ []) (hmax : off / BSIZE < MAXFILE)
    (hfit : off + p.length ≤ (off / BSIZE + 1) * BSIZE)
    (hb : blockFor din d fb (off / BSIZE) = some (din', d', fb', x)) (hx : x < FSSIZE) :
    iappendLoop (fuel + 2) din d fb off p =
      some (din', wsect d' x (bcopy (d' x) (off - off / BSIZE * BSIZE) p), fb', off + p.length) := by
  have hn1 : min p.length ((off / BSIZE + 1) * BSIZE - off) = p.length := by omega
  rw [iappendLoop_step hp hmax hb hx, hn1, List.take_length, List.drop_length, iappendLoop_nil]

theorem length_direntBytes (inum : ℕ) (name : List UInt8) :
    (direntBytes inum name).length = direntSize := by
  rw [direntBytes, Dirent.length_toBytes, length_strncpy]
  rfl

end Steps

/-! ### The root directory -/

/-- The root directory while `mkfs` appends its `j` entries, with no file bytes yet: a directory
of `j` entries whose blocks are exactly those below its size, and `freeblock` just past the
metadata and those blocks. -/
structure RootInv (img : Image) (j : ℕ) : Prop where
  type : (dinode Superblock.mkfs img.d ROOTINO).type = T_DIR
  size : (dinode Superblock.mkfs img.d ROOTINO).size = direntSize * j
  addrs : ∀ k, (dinode Superblock.mkfs img.d ROOTINO).addrs k ≠ 0 ↔ k.val * BSIZE < direntSize * j
  below : ∀ k, (dinode Superblock.mkfs img.d ROOTINO).addrs k < img.freeblock
  free : img.freeblock = nmeta + (direntSize * j + BSIZE - 1) / BSIZE

theorem RootInv.congr {img img' : Image} {j : ℕ} (h : RootInv img j)
    (hd : dinode Superblock.mkfs img'.d ROOTINO = dinode Superblock.mkfs img.d ROOTINO)
    (hfb : img'.freeblock = img.freeblock) : RootInv img' j :=
  ⟨by rw [hd]; exact h.type, by rw [hd]; exact h.size, by rw [hd]; exact h.addrs,
    by rw [hd, hfb]; exact h.below, by rw [hfb]; exact h.free⟩

/-- `freeblock` stays far inside the image while the root has at most `NINODES` entries. -/
theorem RootInv.freeblock_le {img : Image} {j : ℕ} (h : RootInv img j) (hj : j ≤ Superblock.NINODES) :
    img.freeblock ≤ nmeta + 4 := by
  have hj' : j ≤ 200 := hj
  rw [h.free]
  unfold nmeta direntSize DIRSIZ BSIZE
  omega

/-- The block for the next entry: the root's block of offset `16 j`, taken from `freeblock` iff
the entries so far end at a block boundary. -/
theorem blockFor_root {img : Image} {j : ℕ} (h : RootInv img j) (hj : j < Superblock.NINODES) :
    ∃ din' fb' x, blockFor (dinode Superblock.mkfs img.d ROOTINO) img.d img.freeblock
        (direntSize * j / BSIZE) = some (din', img.d, fb', x) ∧ x < FSSIZE ∧ din'.type = T_DIR ∧
      (∀ k, din'.addrs k ≠ 0 ↔ k.val * BSIZE < direntSize * (j + 1)) ∧ (∀ k, din'.addrs k < fb') ∧
      fb' = nmeta + (direntSize * (j + 1) + BSIZE - 1) / BSIZE := by
  have hj' : j < 200 := hj
  have hfb := h.freeblock_le hj.le
  have hsz : direntSize = 16 := rfl
  have hbs : BSIZE = 1024 := rfl
  have hnm : nmeta = 46 := rfl
  have hfs : FSSIZE = 2000 := rfl
  have haddrs := h.addrs
  have hfree := h.free
  rw [hsz, hbs] at haddrs hfree ⊢
  rw [hnm] at hfree hfb
  -- the file block of offset `16 j`
  obtain ⟨q, hq⟩ : ∃ q, q = 16 * j / 1024 := ⟨_, rfl⟩
  have hqd : q < NDIRECT := by
    unfold NDIRECT
    omega
  rw [← hq, blockFor_direct _ _ _ hqd, hnm, hfs]
  have hcur := haddrs ⟨q, by omega⟩
  simp only at hcur
  by_cases h0 : (dinode Superblock.mkfs img.d ROOTINO).addrs ⟨q, by omega⟩ = 0
  · -- the entries end at a block boundary: a new block from `freeblock`
    rw [if_pos h0]
    have hb : 16 * j = q * 1024 := by
      rw [h0] at hcur
      simp only [ne_eq, not_true_eq_false, false_iff, not_lt] at hcur
      omega
    refine ⟨_, _, _, rfl, by omega, h.type, fun k => ?_, fun k => ?_, by omega⟩
    · by_cases hk : k = ⟨q, by omega⟩
      · subst hk
        simp only [Function.update_self]
        exact ⟨fun _ => by omega, fun _ => by omega⟩
      · have hkv : k.val ≠ q := fun hv => hk (Fin.ext hv)
        simp only [Function.update_of_ne hk]
        rw [haddrs k]
        omega
    · by_cases hk : k = ⟨q, by omega⟩
      · subst hk
        simp only [Function.update_self]
        omega
      · simp only [Function.update_of_ne hk]
        have := h.below k
        omega
  · -- the block of offset `16 j` is there already
    rw [if_neg h0]
    have hb : q * 1024 < 16 * j := hcur.mp h0
    refine ⟨_, _, _, rfl, by have := h.below ⟨q, by omega⟩; omega, h.type, fun k => ?_, h.below,
      by omega⟩
    rw [haddrs k]
    omega

/-- What `winode` leaves of an inode whose fields fit their widths. -/
theorem dinode_iupdate_root {d : Blocks} {din : Inode} (htype : din.type = T_DIR) (hsize : din.size < 2 ^ 32)
    (haddrs : ∀ k, din.addrs k < 2 ^ 32) :
    (dinode Superblock.mkfs (iupdate Superblock.mkfs { din with inum := ROOTINO } d) ROOTINO).type = T_DIR ∧
    (dinode Superblock.mkfs (iupdate Superblock.mkfs { din with inum := ROOTINO } d) ROOTINO).size = din.size ∧
    (dinode Superblock.mkfs (iupdate Superblock.mkfs { din with inum := ROOTINO } d) ROOTINO).addrs = din.addrs := by
  have hd := @dinode_iupdate Superblock.mkfs { din with inum := ROOTINO } d
  exact ⟨by rw [hd, Inode.stored_type]; simp [htype, T_DIR], by rw [hd]; exact Inode.stored_size hsize,
    by rw [hd]; exact Inode.stored_addrs haddrs⟩

/-- **One entry appended to the root.** `iappend` of the `sizeof(struct dirent)` bytes of an entry
puts them in the block of offset `16 j`, taken from `freeblock` iff none is there, and the root
keeps its blocks exactly below its size. -/
theorem iappend_root {img : Image} {j : ℕ} (h : RootInv img j) (hj : j < Superblock.NINODES)
    {p : List UInt8} (hp : p.length = direntSize) :
    ∃ img', iappend img ROOTINO p = some img' ∧ RootInv img' (j + 1) ∧ img'.freeinode = img.freeinode := by
  obtain ⟨din', fb', x, hb, hx, htype, haddrs, hbelow, hfree⟩ := blockFor_root h hj
  have hj' : j < 200 := hj
  have hsz : direntSize = 16 := rfl
  have hbs : BSIZE = 1024 := rfl
  have hnm : nmeta = 46 := rfl
  have hp0 : p ≠ [] := fun h0 => by rw [h0] at hp; exact absurd hp (by decide)
  have hmax : direntSize * j / BSIZE < MAXFILE := by
    rw [hsz, hbs, show MAXFILE = 268 from rfl]
    omega
  have hfit : direntSize * j + p.length ≤ (direntSize * j / BSIZE + 1) * BSIZE := by
    rw [hp, hsz, hbs]
    omega
  have hloop : iappendLoop (p.length + 1) (dinode Superblock.mkfs img.d ROOTINO) img.d img.freeblock
      (dinode Superblock.mkfs img.d ROOTINO).size p =
        some (din', wsect img.d x (bcopy (img.d x) (direntSize * j - direntSize * j / BSIZE * BSIZE) p),
          fb', direntSize * j + p.length) := by
    rw [h.size, show p.length + 1 = (p.length - 1) + 2 by omega]
    exact iappendLoop_fits _ hp0 hmax hfit hb hx
  have hfb : fb' ≤ 50 := by
    rw [hfree, hnm, hsz, hbs]
    omega
  have hsmall : ∀ k, din'.addrs k < 2 ^ 32 := fun k => by
    have := hbelow k
    omega
  -- the image after: the data block written, then the inode
  set d₁ := wsect img.d x (bcopy (img.d x) (direntSize * j - direntSize * j / BSIZE * BSIZE) p)
    with hd₁
  set din₂ : Inode := { din' with size := direntSize * j + p.length } with hdin₂
  obtain ⟨ht', hs', ha'⟩ := @dinode_iupdate_root d₁ din₂ htype
    (by show direntSize * j + p.length < 2 ^ 32; rw [hp, hsz]; omega) hsmall
  refine ⟨{ img with d := iupdate Superblock.mkfs { din₂ with inum := ROOTINO } d₁, freeblock := fb' },
    ?_, ⟨ht', ?_, fun k => ?_, fun k => ?_, hfree⟩, rfl⟩
  · rw [iappend, rinode_eq (by decide)]
    dsimp only
    rw [hloop]
    dsimp only
    rw [winode_eq (by decide)]
    rfl
  · rw [hs']
    show direntSize * j + p.length = _
    rw [hp, Nat.mul_succ]
  · rw [ha']
    exact haddrs k
  · rw [ha']
    exact hbelow k

/-- The loop over the files, for files with no bytes: each adds an inode and its entry. -/
theorem foldlM_addFile_root :
    ∀ (files : List File) (img : Image) (j : ℕ), RootInv img j → img.freeinode = j → 2 ≤ j →
      j + files.length ≤ Superblock.NINODES →
      (∀ f ∈ files, (shortname f.arg).isSome ∧ f.data = []) →
      ∃ img', files.foldlM (addFile ROOTINO) img = some img' ∧ RootInv img' (j + files.length) ∧
        img'.freeinode = j + files.length
  | [], img, j, h, hfi, _, _, _ => ⟨img, rfl, h, hfi⟩
  | f :: files, img, j, h, hfi, h2, hlen, hfiles => by
    obtain ⟨hname, hdata⟩ := hfiles f (List.mem_cons_self)
    obtain ⟨name, hn⟩ := Option.isSome_iff_exists.mp hname
    have hlen' : j + 1 + files.length ≤ Superblock.NINODES := by
      rw [List.length_cons] at hlen
      omega
    have hjn : j < Superblock.NINODES := by omega
    -- `ialloc` writes inode `j`, not the root
    have hia := ialloc_eq img T_FILE (hfi ▸ hjn)
    have h₁ : RootInv { img with
        d := iupdate Superblock.mkfs { Inode.zeroed img.freeinode T_FILE with nlink := 1 } img.d
        freeinode := img.freeinode + 1 } j :=
      h.congr (dinode_iupdate_of_ne (by show ROOTINO ≠ img.freeinode; rw [hfi]; unfold ROOTINO; omega))
        rfl
    obtain ⟨img₂, happ, h₂, hfi₂⟩ := iappend_root h₁ hjn (length_direntBytes img.freeinode name)
    have hstep : addFile ROOTINO img f = some img₂ := by
      rw [addFile, hn]
      dsimp only
      rw [hia]
      dsimp only
      rw [happ, hdata]
      rfl
    obtain ⟨img', hrest, h', hfi'⟩ := foldlM_addFile_root files img₂ (j + 1) h₂
      (by rw [hfi₂, hfi]) (by omega) hlen' fun g hg => hfiles g (List.mem_cons_of_mem _ hg)
    refine ⟨img', ?_, ?_, ?_⟩
    · rw [List.foldlM_cons, hstep]
      exact hrest
    · rw [List.length_cons, show j + (files.length + 1) = j + 1 + files.length by omega]
      exact h'
    · rw [List.length_cons, show j + (files.length + 1) = j + 1 + files.length by omega]
      exact hfi'

/-- The root inode as `ialloc` writes it: a directory with no entries. -/
theorem ialloc_init :
    ∃ img, ialloc initImage T_DIR = some (ROOTINO, img) ∧ RootInv img 0 ∧ img.freeinode = 2 := by
  have hd : dinode Superblock.mkfs (iupdate Superblock.mkfs { Inode.zeroed ROOTINO T_DIR with
      nlink := 1 } initImage.d) ROOTINO = ({ Inode.zeroed ROOTINO T_DIR with nlink := 1 } : Inode).stored :=
    dinode_iupdate _ _
  refine ⟨{ initImage with
      d := iupdate Superblock.mkfs { Inode.zeroed ROOTINO T_DIR with nlink := 1 } initImage.d
      freeinode := 2 }, ialloc_eq initImage T_DIR (by decide),
    ⟨?_, ?_, fun k => ?_, fun k => ?_, rfl⟩, rfl⟩ <;> dsimp only <;> rw [hd]
  · rfl
  · rfl
  · simp [Inode.stored, Inode.zeroed]
  · show 0 % 2 ^ 32 < nmeta
    decide

/-- The blocks of an inode whose direct blocks are there exactly below `L`, within the direct
blocks. -/
theorem blockOf_of_addrs {ip : Inode} {L : ℕ} (d : Blocks)
    (h : ∀ k, ip.addrs k ≠ 0 ↔ k.val * BSIZE < L) (hL : L ≤ NDIRECT * BSIZE) (bn : ℕ) :
    blockOf ip d bn ≠ 0 ↔ bn * BSIZE < L := by
  unfold blockOf
  by_cases hb : bn < NDIRECT
  · rw [dif_pos hb]
    exact h ⟨bn, by omega⟩
  · -- no indirect block: its address is past `L`
    have hind : ip.indirect = 0 := by
      by_contra hne
      have := (h (Fin.last NDIRECT)).mp hne
      simp only [Fin.val_last] at this
      omega
    rw [dif_neg hb, if_pos hind]
    have : NDIRECT * BSIZE ≤ bn * BSIZE := Nat.mul_le_mul_right _ (by omega)
    simp only [ne_eq, not_true_eq_false, false_iff, not_lt]
    omega

/-- **The end of `mkfs`.** The root directory of `j` entries gets the size of
`16 j / BSIZE + 1` whole blocks but keeps its blocks below its entries only; the bitmap written
after leaves the inodes alone. -/
theorem finish_root {img : Image} {j : ℕ} (h : RootInv img j) (hj : j ≤ Superblock.NINODES) :
    ∃ img', finish ROOTINO img = some img' ∧
      (dinode Superblock.mkfs img'.d ROOTINO).size = (direntSize * j / BSIZE + 1) * BSIZE ∧
      ∀ bn, blockOf (dinode Superblock.mkfs img'.d ROOTINO) img'.d bn ≠ 0 ↔
        bn * BSIZE < direntSize * j := by
  have hj' : j ≤ 200 := hj
  have hsz : direntSize = 16 := rfl
  have hbs : BSIZE = 1024 := rfl
  have hfb : img.freeblock ≤ 50 := h.freeblock_le hj
  set din₁ : Inode := { dinode Superblock.mkfs img.d ROOTINO with
    size := ((dinode Superblock.mkfs img.d ROOTINO).size / BSIZE + 1) * BSIZE } with hdin₁
  set d₁ := iupdate Superblock.mkfs { din₁ with inum := ROOTINO } img.d with hd₁
  obtain ⟨-, hs₁, ha₁⟩ := @dinode_iupdate_root img.d din₁ h.type
    (by show ((dinode Superblock.mkfs img.d ROOTINO).size / BSIZE + 1) * BSIZE < 2 ^ 32
        rw [h.size, hsz, hbs]; omega)
    fun k => by show (dinode Superblock.mkfs img.d ROOTINO).addrs k < 2 ^ 32; have := h.below k; omega
  -- the bitmap block is not the root's inode block
  have hbm : dinode Superblock.mkfs (wsect d₁ Superblock.mkfs.bmapstart (bitmap img.freeblock)) ROOTINO =
      dinode Superblock.mkfs d₁ ROOTINO :=
    dinode_congr (Function.update_of_ne (by decide) _ _)
  refine ⟨{ img with d := wsect d₁ Superblock.mkfs.bmapstart (bitmap img.freeblock) }, ?_, ?_,
    fun bn => ?_⟩
  · rw [finish, rinode_eq (by decide)]
    simp only [Option.bind_eq_bind, Option.bind_some]
    rw [winode_eq (by decide)]
    simp only [Option.bind_some]
    rw [balloc, if_pos (by rw [hbs]; omega)]
  · rw [hbm, hs₁]
    show ((dinode Superblock.mkfs img.d ROOTINO).size / BSIZE + 1) * BSIZE = _
    rw [h.size]
  · rw [hbm]
    exact blockOf_of_addrs _ (fun k => by rw [ha₁]; exact h.addrs k)
      (by rw [hsz, hbs]; unfold NDIRECT; omega) bn

/-- **The root directory `mkfs` writes**, for every list of at most `NINODES - 2` empty input
files whose names have no `/`: its size is `16 (m + 2)` rounded up past the next block
boundary, and its blocks are there exactly below its `m + 2` entries. -/
theorem mkfs_root_blocks (files : List File) (hm : files.length + 2 ≤ Superblock.NINODES)
    (hfiles : ∀ f ∈ files, (shortname f.arg).isSome ∧ f.data = []) :
    ∃ img, mkfs files = some img ∧
      (dinode Superblock.mkfs img.d ROOTINO).size =
        (direntSize * (files.length + 2) / BSIZE + 1) * BSIZE ∧
      ∀ bn, blockOf (dinode Superblock.mkfs img.d ROOTINO) img.d bn ≠ 0 ↔
        bn * BSIZE < direntSize * (files.length + 2) := by
  obtain ⟨img₁, hia, h₁, hfi₁⟩ := ialloc_init
  obtain ⟨img₂, h₁₂, h₂, hfi₂⟩ := iappend_root h₁ (by decide) (length_direntBytes ROOTINO [46])
  obtain ⟨img₃, h₂₃, h₃, hfi₃⟩ := iappend_root h₂ (by decide) (length_direntBytes ROOTINO [46, 46])
  obtain ⟨img₄, h₃₄, h₄, -⟩ := foldlM_addFile_root files img₃ 2 h₃ (by rw [hfi₃, hfi₂, hfi₁])
    le_rfl (by omega) hfiles
  obtain ⟨img₅, h₄₅, hsize, hblocks⟩ := finish_root h₄ (by omega)
  refine ⟨img₅, ?_, by rw [hsize, Nat.add_comm 2], fun bn => by rw [hblocks, Nat.add_comm 2]⟩
  rw [mkfs, hia]
  simp only [Option.bind_eq_bind, Option.bind_some, ne_eq, not_true_eq_false, if_false, h₁₂, h₂₃,
    h₃₄, h₄₅]

/-- The root directory has a hole iff its entries fill whole blocks. -/
theorem mkfs_root_noHoles_iff (files : List File) (hm : files.length + 2 ≤ Superblock.NINODES)
    (hfiles : ∀ f ∈ files, (shortname f.arg).isSome ∧ f.data = []) :
    ∃ img, mkfs files = some img ∧
      (NoHoles (dinode Superblock.mkfs img.d ROOTINO) img.d (dinode Superblock.mkfs img.d ROOTINO).size ↔
        direntSize * (files.length + 2) % BSIZE ≠ 0) := by
  obtain ⟨img, hmk, hsize, hblocks⟩ := mkfs_root_blocks files hm hfiles
  refine ⟨img, hmk, ?_⟩
  have hbs : 0 < BSIZE := by decide
  rw [hsize]
  constructor
  · -- the block of the last entry's end is within the size
    intro hh hz
    have hlast := hh (direntSize * (files.length + 2) / BSIZE) (by
      rw [Nat.add_mul, Nat.one_mul]
      omega)
    rw [hblocks] at hlast
    have := Nat.div_add_mod (direntSize * (files.length + 2)) BSIZE
    rw [hz, Nat.add_zero, Nat.mul_comm] at this
    omega
  · intro hz bn hbn
    rw [hblocks]
    have hlt : bn < direntSize * (files.length + 2) / BSIZE + 1 := (Nat.mul_lt_mul_right hbs).mp hbn
    have := Nat.div_add_mod (direntSize * (files.length + 2)) BSIZE
    have hle : bn * BSIZE ≤ direntSize * (files.length + 2) / BSIZE * BSIZE :=
      Nat.mul_le_mul_right _ (by omega)
    rw [Nat.mul_comm] at this
    omega

/-- With no input file the root holds `.` and `..` in part of one block, and has no hole. -/
theorem mkfs_root_noHoles_empty : ∃ img, mkfs [] = some img ∧
    (NoHoles (dinode Superblock.mkfs img.d ROOTINO) img.d (dinode Superblock.mkfs img.d ROOTINO).size ↔
      direntSize * (([] : List File).length + 2) % BSIZE ≠ 0) :=
  mkfs_root_noHoles_iff [] (by decide) (by simp)

/-- Sixty-two empty files `aa`, `ab`, ...: with `.` and `..` the root holds `64` entries, exactly
one block. -/
def sixtyTwoFiles : List File := (List.range 62).map fun i => ⟨[97, UInt8.ofNat (97 + i)], []⟩

/-- With 62 distinct empty input files the root directory's size is two blocks, but its second
block was never taken: block index `1` of the root is a hole. -/
theorem mkfs_root_hole : (sixtyTwoFiles.map File.arg).Nodup ∧
    ∃ img, mkfs sixtyTwoFiles = some img ∧ (dinode Superblock.mkfs img.d ROOTINO).size = 2 * BSIZE ∧
      blockOf (dinode Superblock.mkfs img.d ROOTINO) img.d 1 = 0 := by
  have hlen : sixtyTwoFiles.length = 62 := rfl
  obtain ⟨img, hmk, hsize, hblocks⟩ :=
    mkfs_root_blocks sixtyTwoFiles (by rw [hlen]; decide) (by decide)
  refine ⟨by decide, img, hmk, by rw [hsize, hlen]; rfl, ?_⟩
  -- the root's 64 entries end exactly at the end of block 0
  by_contra hne
  have := (hblocks 1).mp hne
  rw [hlen] at this
  exact absurd this (by decide)

end Xv6.Mkfs
