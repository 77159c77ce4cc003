import Xv6.Fs.Inode
import Xv6.Vm.Copy

/-!
# Reading and writing the bytes of an inode (`readi`, `writei` in `fs.c`)

Both loops move one chunk per iteration, `m = min(n - tot, BSIZE - off % BSIZE)` bytes, between
block `off / BSIZE` of the file and the other side of `either_copyout` or `either_copyin`. For an
inode that owns its blocks and has no hole (`Owned`, `NoHoles`):

* `readi_spec`: `readi` copies out exactly the bytes `off .. off + len` of the content, with
  `len = min(n, size - off)`, and returns `len`; if `either_copyout` fails, it has copied the
  bytes before the first page it could not write and returns `-1`. The inode and its blocks do
  not change: `bmap` never allocates below the size.
* `writei_spec`: `writei` returns some `t ≤ n`; the file is its old bytes before `off`, `t` bytes
  of the source, and its old bytes after, with size `max(size, off + t)` ... except that when
  `either_copyin` fails partway through a chunk, the `j` bytes it had already copied stay in the
  buffer (no `log_write`, but the buffer cache returns them). Where they lie below the size,
  the file shows them. With every source page readable and enough free blocks, `t = n`.

The loops are run with `fuel` (their byte count is enough, as each iteration moves a byte).
-/

namespace Xv6

open Header

/-- Byte `k` of a block, `0` past its end. -/
def blockByte (b : Block) (k : ℕ) : UInt8 := if h : k < BSIZE then b ⟨k, h⟩ else 0

/-- The loop of `readi` with `tot` bytes read, at file offset `off` and destination `dst`.
`none` is `bmap`'s panic. -/
def readLoop (sb : Superblock) (user_dst : Bool) (n : ℕ) :
    (fuel : ℕ) → Inode → Blocks → Mem → (tot off dst : ℕ) → Option (ℤ × Inode × Blocks × Mem)
  | 0, ip, d, mem, tot, _, _ => some (tot, ip, d, mem)
  | fuel + 1, ip, d, mem, tot, off, dst =>
    if tot < n then
      match bmap sb ip d (off / BSIZE) with
      | none => none
      | some (addr, ip, d) =>
        if addr = 0 then some (tot, ip, d, mem) else
        let m := min (n - tot) (BSIZE - off % BSIZE)
        let r := eitherCopyout mem user_dst dst (Store.slice (blockByte (d addr)) (off % BSIZE) m)
        if r.2 then readLoop sb user_dst n fuel ip d r.1 (tot + m) (off + m) (dst + m)
        else some (-1, ip, d, r.1)
    else some (tot, ip, d, mem)

/-- `readi(ip, user_dst, dst, off, n)`: its return value and the inode, blocks and memory it
leaves. -/
def readi (sb : Superblock) (ip : Inode) (d : Blocks) (mem : Mem) (user_dst : Bool) (dst : ℕ)
    (off n : UInt32) : Option (ℤ × Inode × Blocks × Mem) :=
  if ip.size < off.toNat ∨ off + n < off then some (0, ip, d, mem)
  else
    let n := if ip.size < (off + n).toNat then ip.size - off.toNat else n.toNat
    readLoop sb user_dst n n ip d mem 0 off.toNat dst

/-- The loop of `writei` with `tot` bytes written, at file offset `off` and source `src`: the
final `tot` and `off`, and the inode and blocks. `none` is `bmap`'s panic. -/
def writeLoop (sb : Superblock) (mem : Mem) (user_src : Bool) (n : ℕ) :
    (fuel : ℕ) → Inode → Blocks → (tot off src : ℕ) → Option (ℕ × ℕ × Inode × Blocks)
  | 0, ip, d, tot, off, _ => some (tot, off, ip, d)
  | fuel + 1, ip, d, tot, off, src =>
    if tot < n then
      match bmap sb ip d (off / BSIZE) with
      | none => none
      | some (addr, ip, d) =>
        if addr = 0 then some (tot, off, ip, d) else
        let m := min (n - tot) (BSIZE - off % BSIZE)
        let r := eitherCopyin mem user_src src m
        -- the bytes copied reach the buffer even when the copy then fails
        let d := Function.update d addr (Store.store Fin.val (d addr) (off % BSIZE) r.1)
        if r.2 then writeLoop sb mem user_src n fuel ip d (tot + m) (off + m) (src + m)
        else some (tot, off, ip, d)
    else some (tot, off, ip, d)

/-- `writei(ip, user_src, src, off, n)`: its return value and the inode and blocks it leaves. -/
def writei (sb : Superblock) (ip : Inode) (d : Blocks) (mem : Mem) (user_src : Bool) (src : ℕ)
    (off n : UInt32) : Option (ℤ × Inode × Blocks) :=
  if ip.size < off.toNat ∨ off + n < off then some (-1, ip, d)
  else if MAXFILE * BSIZE < (off + n).toNat then some (-1, ip, d)
  else
    match writeLoop sb mem user_src n.toNat n.toNat ip d 0 off.toNat src with
    | none => none
    | some (tot, off, ip, d) =>
      let ip := if ip.size < off then { ip with size := off } else ip
      -- written back even if the size did not change: `bmap` may have added a block
      some (tot, ip, iupdate sb ip d)

/-! ### Chunks -/

/-- The bytes `i < BSIZE - off % BSIZE` after `off` lie in the block of `off`. -/
theorem same_block (off i : ℕ) (hi : i < BSIZE - off % BSIZE) :
    (off + i) / BSIZE = off / BSIZE ∧ (off + i) % BSIZE = off % BSIZE + i := by
  unfold BSIZE at *
  omega

/-- The blocks the bytes `off .. off + r` touch, one chunk each. -/
def chunksLeft (off r : ℕ) : ℕ := if r = 0 then 0 else (off + r - 1) / BSIZE - off / BSIZE + 1

theorem chunksLeft_step (off r : ℕ) (hr : 0 < r) :
    chunksLeft (off + min r (BSIZE - off % BSIZE)) (r - min r (BSIZE - off % BSIZE)) + 1 =
      chunksLeft off r := by
  unfold chunksLeft BSIZE
  split_ifs <;> omega

theorem chunksLeft_le (off r : ℕ) : chunksLeft off r ≤ r / BSIZE + 2 := by
  unfold chunksLeft BSIZE
  split_ifs <;> omega

variable {sb : Superblock} {ip ip' : Inode} {d d' : Blocks}

/-- The chunk at `off` read from its block is the file's bytes from `off`. -/
theorem slice_blockByte {off m addr : ℕ} (hm : m ≤ BSIZE - off % BSIZE)
    (h : blockOf ip d (off / BSIZE) = addr) :
    Store.slice (blockByte (d addr)) (off % BSIZE) m = Store.slice (byteAt ip d) off m := by
  unfold Store.slice
  refine List.map_congr_left fun i hi => ?_
  obtain ⟨h1, h2⟩ := same_block off i (by simp at hi; omega)
  have hlt : off % BSIZE + i < BSIZE := by simp at hi; omega
  simp only [blockByte, dif_pos hlt, byteAt, h1, h, h2]

/-- A file's bytes depend on its block addresses only. -/
theorem blockOf_of_addrs (h : ip'.addrs = ip.addrs) : blockOf ip' d = blockOf ip d := by
  funext bn
  unfold blockOf Inode.indirect
  rw [h]

theorem byteAt_of_addrs (h : ip'.addrs = ip.addrs) : byteAt ip' d = byteAt ip d := by
  funext k
  unfold byteAt
  rw [blockOf_of_addrs h]

/-- No holes, extended over a chunk whose block is there. -/
theorem NoHoles.extend {S off m : ℕ} (hh : NoHoles ip d (max S off))
    (hb : blockOf ip d (off / BSIZE) ≠ 0) (hm : m ≤ BSIZE - off % BSIZE) :
    NoHoles ip d (max S (off + m)) := by
  intro bn hbn
  by_cases hlt : bn * BSIZE < max S off
  · exact hh bn hlt
  · have hbn' : bn = off / BSIZE := by unfold BSIZE at *; omega
    rw [hbn']
    exact hb

/-- What the write loop has after `bmap` at `off`: block `a` of the file for the chunk, with
the file's bytes so far untouched. -/
structure Prepared (sb : Superblock) (ip : Inode) (d : Blocks) (off a : ℕ) (ip₁ : Inode)
    (d₁ : Blocks) : Prop where
  fields : ip₁ = { ip with addrs := ip₁.addrs }
  owned : Owned sb ip₁ d₁
  noHoles : NoHoles ip₁ d₁ (max ip.size off)
  bytes : ∀ k < max ip.size off, byteAt ip₁ d₁ k = byteAt ip d k
  block : a ≠ 0 → blockOf ip₁ d₁ (off / BSIZE) = a
  spare_le : a ≠ 0 → spare sb ip d ≤ spare sb ip₁ d₁ + 1
  full : a = 0 → spare sb ip d = 0
  confined : Confined sb ip d ip₁ d₁

/-- **`bmap` in the write loop.** Below the size and the offset there is no hole, so whatever
`bmap` allocates for the chunk at `off` leaves the bytes written so far. -/
theorem bmap_prepare (hl : sb.Layout) (ho : Owned sb ip d) {off : ℕ}
    (hh : NoHoles ip d (max ip.size off)) (hoff : off < MAXFILE * BSIZE) :
    ∃ a ip₁ d₁, bmap sb ip d (off / BSIZE) = some (a, ip₁, d₁) ∧ Prepared sb ip d off a ip₁ d₁ := by
  by_cases hz : blockOf ip d (off / BSIZE) = 0
  · have hbn : off / BSIZE < MAXFILE := by unfold BSIZE at *; omega
    obtain ⟨a, ip₁, d₁, hb, g⟩ := bmap_hole hl ho hbn hz
    -- the blocks below `max size off` are there, so none of them is the hole
    have hne : ∀ bn, bn * BSIZE < max ip.size off → bn ≠ off / BSIZE := fun bn h e =>
      hh bn h (e ▸ hz)
    refine ⟨a, ip₁, d₁, hb, g.fields, g.owned, ?_, ?_, fun h => (g.filled h).1,
      g.spare_le, fun h => ?_, g.confined⟩
    · intro bn h
      rw [g.other bn (hne bn h)]
      exact hh bn h
    · intro k hk
      have hk' : k / BSIZE * BSIZE < max ip.size off :=
        Nat.lt_of_le_of_lt (Nat.div_mul_le_self k BSIZE) hk
      exact byteAt_congr (g.other _ (hne _ hk')) (g.keep _ (hh _ hk'))
    · by_contra hs
      exact g.ok (by omega) h
  · exact ⟨_, ip, d, bmap_of_blockOf_ne_zero hz, rfl, ho, hh, fun _ _ => rfl, fun _ => rfl,
      fun _ => Nat.le_succ _, fun h => absurd h hz, Confined.refl⟩

/-- **One chunk written.** The bytes of `f` from `src` written into block `a` of the file at
`off`, inside that block. -/
theorem chunk_write (hl : sb.Layout) (ho : Owned sb ip d) {off a : ℕ}
    (ha : blockOf ip d (off / BSIZE) = a) (ha0 : a ≠ 0) (f : ℕ → UInt8) (src : ℕ) {j : ℕ}
    (hj : j ≤ BSIZE - off % BSIZE) :
    let d' := Function.update d a (Store.store Fin.val (d a) (off % BSIZE) (Store.slice f src j))
    Owned sb ip d' ∧ blockOf ip d' = blockOf ip d ∧ spare sb ip d' = spare sb ip d ∧
      ∀ k, byteAt ip d' k = if off ≤ k ∧ k < off + j then f (src + (k - off)) else byteAt ip d k := by
  dsimp only
  set d' := Function.update d a (Store.store Fin.val (d a) (off % BSIZE) (Store.slice f src j))
    with hd'
  have hba : blockOf ip d (off / BSIZE) ≠ 0 := ha ▸ ha0
  have hdata := (ho.ref_blockOf hba).1
  rw [ha] at hdata
  have hind : ip.indirect ≠ 0 → a ≠ ip.indirect := fun _ => ha ▸ ho.ne_indirect _ hba
  have hbm : ∀ x < sb.size, a ≠ BBLOCK x sb := fun x hx => hl.ne_bblock hdata hx
  have hblk : blockOf ip d' = blockOf ip d :=
    funext (blockOf_congr fun h => Function.update_of_ne (hind h).symm _ _)
  refine ⟨ho.update _ hind hbm, hblk, ?_, fun k => ?_⟩
  · unfold spare
    rw [nfree_congr fun x hx => bitIsSet_update _ (hbm x hx)]
  unfold byteAt
  rw [hblk]
  by_cases hk : k / BSIZE = off / BSIZE
  · -- a byte of the chunk's block: inside the run it is the source's, outside the block's
    rw [hk, ha, hd', Function.update_self]
    have hlen : (Store.slice f src j).length = j := Store.length_slice _ _ _
    by_cases hin : off ≤ k ∧ k < off + j
    · have hmod : k % BSIZE = off % BSIZE + (k - off) := by unfold BSIZE at *; omega
      rw [if_pos hin, Store.store_of_mem (by simp only; omega) (by simp only [hlen]; omega),
        Store.getElem_slice]
      simp only [hmod, Nat.add_sub_cancel_left]
    · rw [if_neg hin]
      by_cases hlo : k < off
      · rw [Store.store_of_lt (by simp only; unfold BSIZE at *; omega)]
      · rw [Store.store_of_le (by simp only [hlen]; unfold BSIZE at *; omega)]
  · -- a byte of another block: that block is not `a`, and no byte of it is in the chunk
    have hout : ¬ (off ≤ k ∧ k < off + j) := by
      rintro ⟨h1, h2⟩
      have := (same_block off (k - off) (by omega)).1
      rw [Nat.add_sub_cancel' h1] at this
      exact hk this
    rw [if_neg hout]
    by_cases h0 : blockOf ip d (k / BSIZE) = a
    · exact absurd (ho.inj _ _ hba (ha.trans h0.symm)).symm hk
    · rw [hd', Function.update_of_ne h0]

/-- A `uint` sum that is not below its first term did not wrap. -/
theorem toNat_add_of_not_lt {off n : UInt32} (h : ¬ off + n < off) :
    (off + n).toNat = off.toNat + n.toNat := by
  rw [UInt32.toNat_add]
  have h' := UInt32.lt_iff_toNat_lt.not.mp h
  rw [UInt32.toNat_add] at h'
  have := off.toNat_lt
  have := n.toNat_lt
  omega

/-! ### `readi` -/

/-- **The read loop.** Reading `n - tot` bytes with no hole under them copies out some
`j ≤ n - tot` of them, each to a writable page, and returns `n` iff all of them. -/
theorem readLoop_spec (sb : Superblock) (ip : Inode) (d : Blocks) (user : Bool) (n : ℕ) :
    ∀ (fuel : ℕ) (mem : Mem) (tot off dst : ℕ), tot ≤ n → n - tot ≤ fuel →
      (∀ k, off ≤ k → k < off + (n - tot) → blockOf ip d (k / BSIZE) ≠ 0) →
      ∃ j ≤ n - tot,
        readLoop sb user n fuel ip d mem tot off dst =
          some (if j = n - tot then (n : ℤ) else -1, ip, d,
            mem.store user dst (Store.slice (byteAt ip d) off j)) ∧
        (∀ i < j, mem.Writable user (dst + i)) ∧ (j < n - tot → ¬ mem.Writable user (dst + j))
  | 0, mem, tot, off, dst, htot, hfuel, _ => by
    have htn : tot = n := by omega
    refine ⟨0, Nat.zero_le _, ?_, by simp, by omega⟩
    simp [readLoop, htn]
  | fuel + 1, mem, tot, off, dst, htot, hfuel, hblk => by
    by_cases hlt : tot < n
    swap
    · have htn : tot = n := by omega
      refine ⟨0, Nat.zero_le _, ?_, by simp, by omega⟩
      simp [readLoop, htn]
    have hb := hblk off (Nat.le_refl _) (by omega)
    set m := min (n - tot) (BSIZE - off % BSIZE) with hm
    have hm0 : 0 < m := Nat.lt_min.mpr ⟨by omega, by unfold BSIZE; omega⟩
    have hmb : m ≤ BSIZE - off % BSIZE := Nat.min_le_right _ _
    obtain ⟨j', hj', hcopy, hw, hf⟩ :=
      eitherCopyout_spec mem user dst (Store.slice (byteAt ip d) off m)
    simp only [Store.length_slice] at hj' hcopy hf
    have hread : readLoop sb user n (fuel + 1) ip d mem tot off dst =
        if j' = m then readLoop sb user n fuel ip d
          (mem.store user dst (Store.slice (byteAt ip d) off m)) (tot + m) (off + m) (dst + m)
        else some (-1, ip, d, mem.store user dst (Store.slice (byteAt ip d) off j')) := by
      rw [readLoop, if_pos hlt, bmap_of_blockOf_ne_zero hb]
      simp only [if_neg hb, ← hm]
      rw [slice_blockByte hmb rfl, hcopy]
      simp only [decide_eq_true_eq]
      split_ifs with h
      · rw [h, Store.take_slice _ _ (Nat.le_refl _)]
      · rw [Store.take_slice _ _ hj']
    by_cases hall : j' = m
    · -- the whole chunk went out: the rest of the read follows
      obtain ⟨j, hj, hrest, hw', hf'⟩ := readLoop_spec sb ip d user n fuel
        (mem.store user dst (Store.slice (byteAt ip d) off m)) (tot + m) (off + m) (dst + m)
        (by omega) (by omega) fun k h1 h2 => hblk k (by omega) (by omega)
      refine ⟨m + j, by omega, ?_, ?_, ?_⟩
      · rw [hread, if_pos hall, hrest,
          show dst + m = dst + (Store.slice (byteAt ip d) off m).length by simp,
          ← Mem.store_append, ← Store.slice_add]
        congr 2
        exact if_congr (by omega : j = n - (tot + m) ↔ m + j = n - tot) rfl rfl
      · intro i hi
        by_cases him : i < m
        · exact hw i (hall ▸ him)
        · have := hw' (i - m) (by omega)
          rwa [Mem.writable_store, show dst + m + (i - m) = dst + i by omega] at this
      · intro hlt'
        have := hf' (by omega)
        rwa [Mem.writable_store, Nat.add_assoc] at this
    · -- the copy stopped inside the chunk
      have hlt' : j' < m := by omega
      refine ⟨j', by omega, ?_, fun i hi => hw i hi, fun _ => hf hlt'⟩
      rw [hread, if_neg hall, if_neg (by omega)]

/-- **`readi`'s spec.** Off the end or wrapping around, `readi` returns `0`. Otherwise, with
`len = min(n, size - off)`, it copies out the first `j ≤ len` bytes of the content from `off`,
each to a writable page, and returns `len` iff `j = len`, `-1` otherwise, when the page of byte
`j` is not writable; the inode and its blocks stay as they are. -/
theorem readi_spec (sb : Superblock) (hh : NoHoles ip d ip.size) (mem : Mem) (user : Bool) (dst : ℕ)
    (off n : UInt32) :
    (ip.size < off.toNat ∨ off + n < off → readi sb ip d mem user dst off n = some (0, ip, d, mem)) ∧
    (¬ (ip.size < off.toNat ∨ off + n < off) → ∃ j ≤ min n.toNat (ip.size - off.toNat),
      readi sb ip d mem user dst off n =
        some (if j = min n.toNat (ip.size - off.toNat) then ((min n.toNat (ip.size - off.toNat) : ℕ) : ℤ)
          else -1, ip, d, mem.store user dst (((content ip d).drop off.toNat).take j)) ∧
      (∀ i < j, mem.Writable user (dst + i)) ∧
      (j < min n.toNat (ip.size - off.toNat) → ¬ mem.Writable user (dst + j))) := by
  refine ⟨fun h => by rw [readi, if_pos h], fun h => ?_⟩
  have hwrap := toNat_add_of_not_lt (not_or.mp h).2
  have hoff : off.toNat ≤ ip.size := by omega
  set len := min n.toNat (ip.size - off.toNat) with hlen
  have hlen' : (if ip.size < (off + n).toNat then ip.size - off.toNat else n.toNat) = len := by
    rw [hwrap]
    split_ifs <;> omega
  obtain ⟨j, hj, hloop, hw, hf⟩ := readLoop_spec sb ip d user len len mem 0
    off.toNat dst (Nat.zero_le _) (by omega) fun k h1 h2 =>
      hh _ (Nat.lt_of_le_of_lt (Nat.div_mul_le_self k BSIZE) (by omega))
  refine ⟨j, by omega, ?_, hw, hf⟩
  rw [readi, if_neg h]
  simp only [hlen', hloop, Nat.sub_zero, content, Store.slice_drop_take _ (by omega : off.toNat + j ≤ ip.size)]

/-! ### `writei` -/

/-- What the write loop leaves, run from offset `off` and source `src` for `r` bytes: `t` bytes
written, and `j` more that reached their block before `either_copyin` failed. -/
structure Wrote (sb : Superblock) (mem : Mem) (user : Bool) (ip : Inode) (d : Blocks)
    (off src r t j : ℕ) (ip' : Inode) (d' : Blocks) : Prop where
  le : t + j ≤ r
  spill : 0 < j → t + j < r ∧ ¬ mem.Readable user (src + t + j)
  fields : ip' = { ip with addrs := ip'.addrs }
  owned : Owned sb ip' d'
  noHoles : NoHoles ip' d' (max ip.size (off + t))
  bytes : ∀ k < max ip.size (off + t), byteAt ip' d' k =
    if off ≤ k ∧ k < off + (t + j) then mem.source user (src + (k - off)) else byteAt ip d k
  complete : (∀ i < r, mem.Readable user (src + i)) → chunksLeft off r ≤ spare sb ip d → t = r
  confined : Confined sb ip d ip' d'

/-- Nothing written: the loop stopped at once, with `j` bytes of a failed copy in the block. -/
theorem Wrote.stop {mem : Mem} {user : Bool} {off src r j a : ℕ} {ip₁ : Inode} {d₁ : Blocks}
    (hp : Prepared sb ip d off a ip₁ d₁) (ho : Owned sb ip₁ d') (hc : Confined sb ip d ip₁ d')
    (hblk : blockOf ip₁ d' = blockOf ip₁ d₁) (hjr : j < r ∨ j = 0)
    (hbytes : ∀ k, byteAt ip₁ d' k =
      if off ≤ k ∧ k < off + j then mem.source user (src + (k - off)) else byteAt ip₁ d₁ k)
    (hspill : 0 < j → ¬ mem.Readable user (src + j))
    (hcomplete : (∀ i < r, mem.Readable user (src + i)) → chunksLeft off r ≤ spare sb ip d →
      0 = r) :
    Wrote sb mem user ip d off src r 0 j ip₁ d' := by
  refine ⟨by omega, fun h => ⟨by omega, by simpa using hspill h⟩, hp.fields, ho, ?_, ?_, hcomplete,
    hc⟩
  · intro bn h
    rw [hblk]
    exact hp.noHoles bn h
  · intro k hk
    rw [hbytes k, Nat.zero_add]
    split_ifs
    · rfl
    · exact hp.bytes k (by simpa using hk)

/-- **The write loop.** From any state that owns its blocks with no hole below the size and the
offset, the loop returns without a panic, and `Wrote` says what it left. -/
theorem writeLoop_spec (hl : sb.Layout) (mem : Mem) (user : Bool) (n : ℕ) :
    ∀ (fuel : ℕ) (ip : Inode) (d : Blocks) (tot off src : ℕ), tot ≤ n → n - tot ≤ fuel →
      off + (n - tot) ≤ MAXFILE * BSIZE → Owned sb ip d → NoHoles ip d (max ip.size off) →
      ∃ t j ip' d', writeLoop sb mem user n fuel ip d tot off src = some (tot + t, off + t, ip', d') ∧
        Wrote sb mem user ip d off src (n - tot) t j ip' d'
  | 0, ip, d, tot, off, src, htot, hfuel, _, ho, hh => by
    refine ⟨0, 0, ip, d, by simp [writeLoop], ?_⟩
    refine ⟨by omega, by omega, rfl, ho, by simpa using hh, fun k _ => by simp, fun _ _ => by omega,
      Confined.refl⟩
  | fuel + 1, ip, d, tot, off, src, htot, hfuel, hmax, ho, hh => by
    by_cases hlt : tot < n
    swap
    · refine ⟨0, 0, ip, d, by simp [writeLoop, hlt], ?_⟩
      refine ⟨by omega, by omega, rfl, ho, by simpa using hh, fun k _ => by simp,
        fun _ _ => by omega, Confined.refl⟩
    obtain ⟨a, ip₁, d₁, hb, hp⟩ := bmap_prepare hl ho hh (by omega)
    have hsize₁ : ip₁.size = ip.size := by rw [hp.fields]
    by_cases ha : a = 0
    · -- the disk is full: the loop stops here
      refine ⟨0, 0, ip₁, d₁, by simp [writeLoop, hlt, hb, ha], ?_⟩
      refine Wrote.stop hp hp.owned hp.confined rfl (.inr rfl) (fun k => by simp) (by omega) fun _ hc => ?_
      have := hp.full ha
      unfold chunksLeft at hc
      split_ifs at hc <;> omega
    set m := min (n - tot) (BSIZE - off % BSIZE) with hm
    have hm0 : 0 < m := Nat.lt_min.mpr ⟨by omega, by unfold BSIZE; omega⟩
    have hmb : m ≤ BSIZE - off % BSIZE := Nat.min_le_right _ _
    obtain ⟨j', hj', hcopy, hrd, hflt⟩ := eitherCopyin_spec mem user src m
    obtain ⟨ho₂, hblk₂, hspare₂, hbytes₂⟩ :=
      chunk_write hl hp.owned (hp.block ha) ha (mem.source user) src (Nat.le_trans hj' hmb)
    set d₂ := Function.update d₁ a
      (Store.store Fin.val (d₁ a) (off % BSIZE) (Store.slice (mem.source user) src j'))
    -- the chunk went into a data block of the inode's own
    have hc₂ : Confined sb ip d ip₁ d₂ := by
      have hba : blockOf ip₁ d₁ (off / BSIZE) ≠ 0 := by rw [hp.block ha]; exact ha
      have hne : a ≠ ip₁.indirect := by
        rw [← hp.block ha]
        exact hp.owned.ne_indirect _ hba
      exact hp.confined.trans ho ho₂
        (Confined.update hl hp.owned ⟨ha, .inl ⟨_, hp.block ha⟩⟩ hne _)
    have hstep : writeLoop sb mem user n (fuel + 1) ip d tot off src =
        if j' = m then writeLoop sb mem user n fuel ip₁ d₂ (tot + m) (off + m) (src + m)
        else some (tot, off, ip₁, d₂) := by
      rw [writeLoop, if_pos hlt, hb]
      simp only [if_neg ha, ← hm, hcopy, decide_eq_true_eq]
      rfl
    by_cases hall : j' = m
    swap
    · -- the copy failed inside the chunk, after `j'` bytes
      refine ⟨0, j', ip₁, d₂, by rw [hstep, if_neg hall]; rfl, ?_⟩
      refine Wrote.stop hp ho₂ hc₂ hblk₂ (.inl (by omega)) hbytes₂
        (fun _ => by simpa using hflt (by omega)) fun hr _ => ?_
      exact absurd (hr j' (by omega)) (hflt (by omega))
    -- the whole chunk was copied: the rest of the write follows
    subst hall
    have hh₂ : NoHoles ip₁ d₂ (max ip₁.size (off + m)) := by
      rw [hsize₁]
      refine NoHoles.extend (fun bn h => ?_) (by rw [hblk₂, hp.block ha]; exact ha) hmb
      rw [hblk₂]
      exact hp.noHoles bn h
    obtain ⟨t, j, ip', d', hrest, w⟩ := writeLoop_spec hl mem user n fuel ip₁ d₂ (tot + m)
      (off + m) (src + m) (by omega) (by omega) (by omega) ho₂ hh₂
    refine ⟨m + t, j, ip', d', ?_, ?_⟩
    · rw [hstep, if_pos rfl, hrest]
      simp only [Nat.add_assoc]
    have hr : n - (tot + m) = n - tot - m := by omega
    rw [hr] at w
    refine ⟨by have := w.le; omega, fun hj => ?_, ?_, w.owned, ?_, ?_, ?_,
      hc₂.trans ho w.owned w.confined⟩
    · obtain ⟨h1, h2⟩ := w.spill hj
      have e : src + m + t + j = src + (m + t) + j := by omega
      exact ⟨by omega, e ▸ h2⟩
    · rw [w.fields, hp.fields]
    · simpa [Nat.add_assoc, hsize₁] using w.noHoles
    · intro k hk
      rw [w.bytes k (by rw [hsize₁]; omega), hbytes₂ k]
      -- before the chunk, in it, in the rest of the write, and after it
      by_cases h1 : off + m ≤ k ∧ k < off + m + (t + j)
      · rw [if_pos h1, if_pos ⟨by omega, by omega⟩]
        congr 1
        omega
      · rw [if_neg h1]
        by_cases h2 : off ≤ k ∧ k < off + m
        · rw [if_pos h2, if_pos ⟨h2.1, by omega⟩]
        · rw [if_neg h2, if_neg (by omega), hp.bytes k (by omega)]
    · intro hrd' hc
      have hc' : chunksLeft (off + m) (n - tot - m) ≤ spare sb ip₁ d₂ := by
        have hcs := chunksLeft_step off (n - tot) (by omega)
        rw [← hm] at hcs
        have := hp.spare_le ha
        rw [hspare₂]
        omega
      have := w.complete (fun i hi => by
        have := hrd' (m + i) (by omega)
        rwa [← Nat.add_assoc] at this) hc'
      omega

/-- Off the end of the file, wrapping around, or past `MAXFILE` blocks, `writei` returns `-1`
and changes nothing. -/
theorem writei_guard {mem : Mem} {user : Bool} {src : ℕ} {off n : UInt32}
    (h : ip.size < off.toNat ∨ off + n < off ∨ MAXFILE * BSIZE < (off + n).toNat) :
    writei sb ip d mem user src off n = some (-1, ip, d) := by
  unfold writei
  by_cases h' : ip.size < off.toNat ∨ off + n < off
  · rw [if_pos h']
  · rw [if_neg h', if_pos (by tauto)]

/-- **`writei` as its loop.** Within the file and `MAXFILE` blocks, `writei` runs the write loop
from `off`, grows the inode to the offset reached and writes it back. -/
theorem writei_loop (hl : sb.Layout) (ho : Owned sb ip d) (hh : NoHoles ip d ip.size) (mem : Mem)
    (user : Bool) (src : ℕ) (off n : UInt32) (hok : ¬ (ip.size < off.toNat ∨ off + n < off))
    (hmax : (off + n).toNat ≤ MAXFILE * BSIZE) :
    ∃ (t j : ℕ) (ip₁ : Inode) (d₁ : Blocks),
      Wrote sb mem user ip d off.toNat src n.toNat t j ip₁ d₁ ∧
      writei sb ip d mem user src off n =
        some ((t : ℤ), { ip₁ with size := max ip.size (off.toNat + t) },
          iupdate sb { ip₁ with size := max ip.size (off.toNat + t) } d₁) := by
  have hwrap := toNat_add_of_not_lt (not_or.mp hok).2
  have hoff : off.toNat ≤ ip.size := by omega
  obtain ⟨t, j, ip₁, d₁, hloop, w⟩ := writeLoop_spec hl mem user n.toNat n.toNat ip d 0 off.toNat
    src (Nat.zero_le _) (by omega) (by omega) ho (by rw [Nat.max_eq_left hoff]; exact hh)
  simp only [Nat.sub_zero, Nat.zero_add] at hloop w
  have hsize₁ : ip₁.size = ip.size := by rw [w.fields]
  have hgrow : (if ip₁.size < off.toNat + t then { ip₁ with size := off.toNat + t } else ip₁) =
      { ip₁ with size := max ip.size (off.toNat + t) } := by
    rw [hsize₁]
    split_ifs with hlt
    · rw [Nat.max_eq_right hlt.le]
    · rw [Nat.max_eq_left (by omega), ← hsize₁]
  refine ⟨t, j, ip₁, d₁, w, ?_⟩
  rw [writei, if_neg hok, if_neg (by omega), hloop]
  simp only [hgrow]

/-- **`writei`'s spec.** Within the file and `MAXFILE` blocks, `writei` does not panic and returns
some `t ≤ n`. The inode grows to `max(size, off + t)` and still owns its blocks with no hole, and
the file is its old bytes up to `off`, `t + j` bytes of the source, and its old bytes after that,
cut to the new size: `j` is `0` unless `either_copyin` failed inside a chunk after copying `j`
bytes, at a page that is not readable. With every source page readable and `n / BSIZE + 3` free
blocks, `t = n`. -/
theorem writei_spec (hl : sb.Layout) (ho : Owned sb ip d) (hh : NoHoles ip d ip.size)
    (hinum : ip.inum < sb.ninodes) (mem : Mem) (user : Bool) (src : ℕ) (off n : UInt32)
    (hok : ¬ (ip.size < off.toNat ∨ off + n < off)) (hmax : (off + n).toNat ≤ MAXFILE * BSIZE) :
    ∃ (t j : ℕ) (ip' : Inode) (d' : Blocks),
      writei sb ip d mem user src off n = some ((t : ℤ), ip', d') ∧
      t + j ≤ n.toNat ∧ (0 < j → t + j < n.toNat ∧ ¬ mem.Readable user (src + t + j)) ∧
      ip' = { ip with size := max ip.size (off.toNat + t), addrs := ip'.addrs } ∧
      Owned sb ip' d' ∧ NoHoles ip' d' ip'.size ∧
      content ip' d' = ((content ip d).take off.toNat ++
        (Store.slice (mem.source user) src n.toNat).take (t + j) ++
        (content ip d).drop (off.toNat + t + j)).take ip'.size ∧
      ((∀ i < n.toNat, mem.Readable user (src + i)) → n.toNat / BSIZE + 3 ≤ nfree sb d →
        t = n.toNat) := by
  have hoff : off.toNat ≤ ip.size := by omega
  obtain ⟨t, j, ip₁, d₁, w, hwi⟩ := writei_loop hl ho hh mem user src off n hok hmax
  -- the inode `writei` writes back: the loop's, grown to the offset reached
  set ip' : Inode := { ip₁ with size := max ip.size (off.toNat + t) } with hip'
  have hinum' : ip'.inum < sb.ninodes := by
    rw [hip', w.fields]
    exact hinum
  have hblk' : blockOf ip' d₁ = blockOf ip₁ d₁ := blockOf_of_addrs rfl
  have ho' : Owned sb ip' d₁ := w.owned.congr (fun bn => by rw [hblk']) rfl fun _ _ => rfl
  have hh' : NoHoles ip' d₁ ip'.size := fun bn hbn => by
    rw [hblk']
    exact w.noHoles bn hbn
  have hblk'' : blockOf ip' (iupdate sb ip' d₁) = blockOf ip' d₁ :=
    funext (blockOf_congr fun h => iupdate_of_ne (ho'.ne_iblock hl hinum' ⟨h, .inr rfl⟩))
  refine ⟨t, j, ip', iupdate sb ip' d₁, hwi, w.le, w.spill, ?_, ho'.iupdate hl hinum', ?_, ?_, ?_⟩
  · rw [hip']
    conv_lhs => rw [w.fields]
  · intro bn hbn
    rw [hblk'']
    exact hh' bn hbn
  · -- byte by byte: the loop's bytes, through `iupdate` and the new size
    have hL : ip'.size ≤ max ip.size (off.toNat + (t + j)) := by
      simp only [hip']
      omega
    simp only [content]
    rw [Store.slice_shift (mem.source user), Nat.add_assoc, Store.take_splice _ _ hoff w.le hL]
    refine Store.slice_congr fun k hk => ?_
    simp only [Nat.zero_add] at hk ⊢
    have haddr : byteAt ip' d₁ = byteAt ip₁ d₁ := byteAt_of_addrs rfl
    rw [byteAt_iupdate hl ho' hinum' (hh' _ (Nat.lt_of_le_of_lt (Nat.div_mul_le_self k BSIZE) hk)),
      haddr, w.bytes k hk]
  · intro hrd hfree
    apply w.complete hrd
    have := chunksLeft_le off.toNat n.toNat
    unfold spare
    split_ifs <;> omega

/-- **What `writei` leaves of the rest of the disk.** Within the file and `MAXFILE` blocks,
`writei` writes back an inode with the same number and type, owning its blocks with no hole,
and before that `iupdate` it has stayed within the inode's blocks. -/
theorem writei_confined (hl : sb.Layout) (ho : Owned sb ip d) (hh : NoHoles ip d ip.size)
    (mem : Mem) (user : Bool) (src : ℕ) (off n : UInt32)
    (hok : ¬ (ip.size < off.toNat ∨ off + n < off)) (hmax : (off + n).toNat ≤ MAXFILE * BSIZE) :
    ∃ (r : ℤ) (ip' : Inode) (d₁ : Blocks),
      writei sb ip d mem user src off n = some (r, ip', iupdate sb ip' d₁) ∧
      ip'.inum = ip.inum ∧ ip'.type = ip.type ∧ Owned sb ip' d₁ ∧ NoHoles ip' d₁ ip'.size ∧
      Confined sb ip d ip' d₁ := by
  obtain ⟨t, j, ip₁, d₁, w, hwi⟩ := writei_loop hl ho hh mem user src off n hok hmax
  -- the size written back does not change which blocks the inode has
  have hblk : blockOf { ip₁ with size := max ip.size (off.toNat + t) } d₁ = blockOf ip₁ d₁ :=
    blockOf_of_addrs rfl
  have href : ∀ x, IsRef { ip₁ with size := max ip.size (off.toNat + t) } d₁ x ↔ IsRef ip₁ d₁ x :=
    fun x => by simp only [IsRef, hblk]; rfl
  refine ⟨t, _, d₁, hwi, by rw [w.fields], by rw [w.fields],
    w.owned.congr (fun bn => by rw [hblk]) rfl fun _ _ => rfl, fun bn hbn => ?_,
    w.confined.of_isRef href⟩
  rw [hblk]
  exact w.noHoles bn hbn

/-- **`readi` and `writei` on the bytes of an inode.** For an inode that owns its blocks and has
no hole: `readi` returns `0` off the end or on wrap-around, and otherwise copies out the content
from `off`, `min(n, size - off)` bytes or, when `either_copyout` fails, the ones before the first
page it could not write, returning `-1`; it changes neither the inode nor its blocks. `writei`
returns `-1` and changes nothing off the end, on wrap-around or past `MAXFILE` blocks, and
otherwise returns `t ≤ n` with the content `content[0, off) ++ data[0, t + j) ++
content[off + t + j, size)` cut to `max(size, off + t)`, where `j > 0` only for the bytes a
failed `either_copyin` had already copied; `t = n` when every source page is readable and
`n / BSIZE + 3` blocks are free. -/
theorem readi_writei_bytes (hl : sb.Layout) (ho : Owned sb ip d) (hh : NoHoles ip d ip.size)
    (hinum : ip.inum < sb.ninodes) (mem : Mem) (user : Bool) (addr : ℕ) (off n : UInt32) :
    (ip.size < off.toNat ∨ off + n < off →
      readi sb ip d mem user addr off n = some (0, ip, d, mem)) ∧
    (¬ (ip.size < off.toNat ∨ off + n < off) → ∃ j ≤ min n.toNat (ip.size - off.toNat),
      readi sb ip d mem user addr off n =
        some (if j = min n.toNat (ip.size - off.toNat)
          then ((min n.toNat (ip.size - off.toNat) : ℕ) : ℤ) else -1, ip, d,
          mem.store user addr (((content ip d).drop off.toNat).take j)) ∧
      (∀ i < j, mem.Writable user (addr + i)) ∧
      (j < min n.toNat (ip.size - off.toNat) → ¬ mem.Writable user (addr + j))) ∧
    (ip.size < off.toNat ∨ off + n < off ∨ MAXFILE * BSIZE < (off + n).toNat →
      writei sb ip d mem user addr off n = some (-1, ip, d)) ∧
    (¬ (ip.size < off.toNat ∨ off + n < off ∨ MAXFILE * BSIZE < (off + n).toNat) →
      ∃ (t j : ℕ) (ip' : Inode) (d' : Blocks),
        writei sb ip d mem user addr off n = some ((t : ℤ), ip', d') ∧
        t + j ≤ n.toNat ∧ (0 < j → t + j < n.toNat ∧ ¬ mem.Readable user (addr + t + j)) ∧
        ip'.size = max ip.size (off.toNat + t) ∧
        content ip' d' = ((content ip d).take off.toNat ++
          (Store.slice (mem.source user) addr n.toNat).take (t + j) ++
          (content ip d).drop (off.toNat + t + j)).take ip'.size ∧
        ((∀ i < n.toNat, mem.Readable user (addr + i)) → n.toNat / BSIZE + 3 ≤ nfree sb d →
          t = n.toNat)) := by
  obtain ⟨hr₁, hr₂⟩ := readi_spec sb hh mem user addr off n
  refine ⟨hr₁, hr₂, writei_guard, fun h => ?_⟩
  · obtain ⟨t, j, ip', d', hw, hle, hspill, hip', -, -, hc, hcomplete⟩ :=
      writei_spec hl ho hh hinum mem user addr off n (by tauto) (by omega)
    refine ⟨t, j, ip', d', hw, hle, hspill, by rw [hip'], hc, hcomplete⟩

/-! ### A disk with one file -/

/-- The `mkfs` disk with one data block in use, `46`, marked with the metadata blocks in bitmap
block `45`; every other block is zero. -/
def diskOne : Blocks := fun b => if b = 45 then (fun k => if k.val < 5 then 255 else
  if k.val = 5 then 127 else 0) else fun _ => 0

/-- Inode `1` with the given type and size, whose only block is `46`. -/
def inodeOne (type size : ℕ) : Inode := ⟨1, type, 0, 0, 1, size, fun i => if i = 0 then 46 else 0⟩

theorem indirect_inodeOne (type size : ℕ) : (inodeOne type size).indirect = 0 := rfl

theorem blockOf_inodeOne (type size : ℕ) (d : Blocks) (bn : ℕ) :
    blockOf (inodeOne type size) d bn = if bn = 0 then 46 else 0 := by
  unfold blockOf
  by_cases h : bn < NDIRECT
  · rw [dif_pos h]
    show (if (⟨bn, _⟩ : Fin (NDIRECT + 1)) = 0 then 46 else 0) = _
    by_cases h0 : bn = 0 <;> simp [h0, Fin.ext_iff]
  · rw [dif_neg h, if_pos (indirect_inodeOne type size), if_neg (by unfold NDIRECT at h; omega)]

/-- `inodeOne` owns its block on `diskOne`. -/
theorem inodeOne_owned (type size : ℕ) : Owned Superblock.mkfs (inodeOne type size) diskOne := by
  have hblk := blockOf_inodeOne type size diskOne
  have href : ∀ x, IsRef (inodeOne type size) diskOne x → x = 46 := by
    rintro x ⟨hx0, ⟨bn, hbn⟩ | hx⟩
    · rw [hblk] at hbn
      split_ifs at hbn <;> omega
    · exact absurd hx hx0
  refine ⟨fun bn bn' h heq => ?_, fun bn h => ?_, fun x hx => ?_, by decide⟩
  · rw [hblk, hblk] at heq
    rw [hblk] at h
    split_ifs at h heq <;> omega
  · rw [hblk] at h ⊢
    split_ifs at h ⊢ with h0
    · rw [indirect_inodeOne]
      decide
    · exact absurd rfl h
  · rw [href x hx]
    decide

/-- `inodeOne` has no hole when it fits in its block. -/
theorem inodeOne_noHoles {type size : ℕ} (h : size ≤ BSIZE) :
    NoHoles (inodeOne type size) diskOne size := by
  intro bn hbn
  have hbn0 : bn = 0 := by
    have : bn * BSIZE < BSIZE := by omega
    by_contra hne
    have : BSIZE ≤ bn * BSIZE := Nat.le_mul_of_pos_left _ (Nat.pos_of_ne_zero hne)
    omega
  rw [blockOf_inodeOne, if_pos hbn0]
  decide

/-- **The bytes of a failed copy show in the file.** On the same disk, a write of two bytes from
user address `4095`, whose page is mapped while the next is not, has `copyin` move one byte into
block `46` before it fails; `writei` returns `0`, and the file reads `[7, 0]`, not
`content[0, 0) ++ data[0, 0) ++ content[0, 2) = [0, 0]`. -/
theorem writei_fault_shows :
    let ip : Inode := ⟨1, 2, 0, 0, 1, 2, fun i => if i = 0 then 46 else 0⟩
    let d : Blocks := fun b => if b = 45 then (fun k => if k.val < 5 then 255 else
      if k.val = 5 then 127 else 0) else fun _ => 0
    let mem : Mem := ⟨⟨fun p => p == 0, fun _ => true, fun _ => 7⟩, fun _ => 0⟩
    NoHoles ip d ip.size ∧ ∃ ip' d',
      writei Superblock.mkfs ip d mem true 4095 0 2 = some (0, ip', d') ∧
      content ip' d' = [7, 0] ∧
      content ip' d' ≠ (content ip d).take 0 ++ (Store.slice (mem.source true) 4095 2).take 0 ++
        (content ip d).drop (0 + 0) := by
  intro ip d mem
  refine ⟨fun bn hbn => ?_, _, _, rfl, by decide, by decide⟩
  have hbn0 : bn = 0 := by simp [ip, BSIZE] at hbn; omega
  subst hbn0
  decide

end Xv6
