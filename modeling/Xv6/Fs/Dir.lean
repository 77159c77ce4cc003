import Xv6.File.Offset
import Xv6.Fs.Itable

/-!
# Directories (`dirlookup`, `dirlink` in `fs.c`; `strncmp`, `strncpy` in `string.c`)

A directory's content is a run of `struct dirent`s: a `ushort` inode number, `0` for a free
slot, and `DIRSIZ` name bytes. `dirlookup` reads them one by one with `readi`, stops at the
first live one whose name `namecmp` finds equal (`dirlookupScan`) and hands its inode number to
`iget(dp->dev, inum)`; `dirlink` refuses a name that is there, `iput`ting the inode `dirlookup`
got, looks for the first free slot, and writes the new entry there, or at the end, with `writei`.

`entries` cuts a content into its entries, and `lookup` is what the scan is for: the first live
entry with the name, and its offset. For a directory that owns its blocks, has no hole and holds
a whole number of entries:

* `dirlookupScan_eq`: the scan returns `lookup` of the entries and changes neither the inode nor
  the disk; with a free slot in the inode table, `dirlookup` then returns the slot `iget` gives
  that inode in (`looksUp_lookup`).
* `strncmp_eq_zero_iff`: `strncmp(p, q, n)` is `0` iff the C strings agree in their first `n`
  bytes; so `namecmp` finds a name equal to the `strncpy` that `dirlink` stores
  (`namecmp_strncpy`).
* `dirlink_spec`: `dirlink` of a name that is there returns `-1` and changes nothing but the
  references `iget` and `iput` take and give back. Otherwise it keeps the table and writes
  `(inum, strncpy(name, DIRSIZ))` into the first free slot, which never fails, or appends it; an
  append that fails returns `-1` and leaves the entries as they were.
* `dirlookup_dirlink`: after a `dirlink` that returned `0`, `dirlookup` of the name returns the
  inode whose number the `ushort` holds, and every name that `namecmp` tells apart from it looks
  up as before.

The inode number passes through the `ushort` `de.inum`: `dirlink` of inode number `2^16`
succeeds and writes a free slot (`dirlink_inum_wraps`).
-/

namespace Xv6

/-- `T_DIR`. -/
def T_DIR : ℕ := 1

/-- `sizeof(struct dirent)`: a `ushort` and `DIRSIZ` bytes. -/
def direntSize : ℕ := 2 + DIRSIZ

/-! ### Strings -/

/-- `strncmp(p, q, n)`; a list read past its end gives NUL. -/
def strncmp : (p q : List UInt8) → (n : ℕ) → ℤ
  | _, _, 0 => 0
  | p, q, n + 1 =>
    if p.headD 0 ≠ 0 ∧ p.headD 0 = q.headD 0 then strncmp p.tail q.tail n
    else ((p.headD 0).toNat : ℤ) - (q.headD 0).toNat

/-- `namecmp(s, t)`. -/
def namecmp (s t : List UInt8) : ℤ := strncmp s t DIRSIZ

/-- The `n` bytes `strncpy(s, t, n)` writes: `t` up to its NUL, then NULs. -/
def strncpy (t : List UInt8) : ℕ → List UInt8
  | 0 => []
  | n + 1 => if t.headD 0 = 0 then List.replicate (n + 1) 0 else t.headD 0 :: strncpy t.tail n

/-- The bytes of the C string at `s`: those before its first NUL. -/
def cstr (s : List UInt8) : List UInt8 := s.takeWhile (· ≠ 0)

theorem cstr_eq (s : List UInt8) :
    cstr s = if s.headD 0 = 0 then [] else s.headD 0 :: cstr s.tail := by
  cases s with
  | nil => rfl
  | cons c s =>
    unfold cstr
    rw [List.takeWhile_cons]
    by_cases hc : c = 0 <;> simp [hc]

/-- **`strncmp` compares C strings**: it is `0` iff their first `n` bytes agree. -/
theorem strncmp_eq_zero_iff : ∀ (p q : List UInt8) (n : ℕ),
    strncmp p q n = 0 ↔ (cstr p).take n = (cstr q).take n
  | _, _, 0 => by simp [strncmp]
  | p, q, n + 1 => by
    rw [strncmp, cstr_eq p, cstr_eq q]
    by_cases h : p.headD 0 ≠ 0 ∧ p.headD 0 = q.headD 0
    · rw [if_pos h, strncmp_eq_zero_iff p.tail q.tail n, if_neg h.1, if_neg (h.2 ▸ h.1), h.2]
      simp
    · rw [if_neg h]
      -- the loop stopped: at a NUL of `p`, or at two different bytes
      have hne : ((p.headD 0).toNat : ℤ) - (q.headD 0).toNat = 0 ↔ p.headD 0 = q.headD 0 := by
        rw [sub_eq_zero, Int.natCast_inj, UInt8.toNat_inj]
      rw [hne]
      by_cases hp : p.headD 0 = 0
      · by_cases hq : q.headD 0 = 0
        · rw [if_pos hp, if_pos hq, hp, hq]
          simp
        · rw [if_pos hp, if_neg hq, List.take_nil, List.take_succ_cons]
          exact iff_of_false (fun e => hq (e.symm.trans hp)) (List.cons_ne_nil _ _).symm
      · have hpq : p.headD 0 ≠ q.headD 0 := fun e => h ⟨hp, e⟩
        rw [if_neg hp, List.take_succ_cons]
        by_cases hq : q.headD 0 = 0
        · rw [if_pos hq, List.take_nil]
          exact iff_of_false hpq (List.cons_ne_nil _ _)
        · rw [if_neg hq, List.take_succ_cons]
          exact iff_of_false hpq fun e => hpq (List.cons.inj e).1

@[simp] theorem length_strncpy : ∀ (t : List UInt8) (n : ℕ), (strncpy t n).length = n
  | _, 0 => rfl
  | t, n + 1 => by
    unfold strncpy
    split_ifs
    · simp
    · simp [length_strncpy t.tail n]

theorem cstr_replicate_zero (n : ℕ) : cstr (List.replicate n 0) = [] := by
  cases n with
  | zero => rfl
  | succ n => simp [cstr, List.replicate_succ]

/-- The C string `strncpy` leaves is the source's, cut to `n` bytes. -/
theorem cstr_strncpy : ∀ (t : List UInt8) (n : ℕ), cstr (strncpy t n) = (cstr t).take n
  | _, 0 => rfl
  | t, n + 1 => by
    rw [strncpy, cstr_eq t]
    by_cases ht : t.headD 0 = 0
    · rw [if_pos ht, if_pos ht, cstr_replicate_zero, List.take_nil]
    · rw [if_neg ht, if_neg ht, cstr_eq, List.take_succ_cons]
      simp only [List.headD_cons, List.tail_cons, if_neg ht, cstr_strncpy t.tail n]

/-- **`namecmp` finds a name equal to its `strncpy`.** -/
theorem namecmp_strncpy (s t : List UInt8) :
    namecmp s (strncpy t DIRSIZ) = 0 ↔ namecmp s t = 0 := by
  unfold namecmp
  rw [strncmp_eq_zero_iff, strncmp_eq_zero_iff, cstr_strncpy, List.take_take, Nat.min_self]

/-! ### Entries -/

/-- A `struct dirent`. -/
structure Dirent where
  inum : ℕ
  name : List UInt8
  deriving DecidableEq, Repr

namespace Dirent

/-- The entry in the `sizeof(struct dirent)` bytes `b`, the `ushort` little-endian. -/
def ofBytes (b : List UInt8) : Dirent :=
  ⟨(b.getD 0 0).toNat + 256 * (b.getD 1 0).toNat, (b.drop 2).take DIRSIZ⟩

/-- The bytes of an entry whose number fits the `ushort`. -/
def toBytes (e : Dirent) : List UInt8 := UInt8.ofNat e.inum :: UInt8.ofNat (e.inum / 256) :: e.name

theorem length_toBytes (e : Dirent) : e.toBytes.length = e.name.length + 2 := rfl

theorem ofBytes_toBytes {e : Dirent} (hi : e.inum < 2 ^ 16) (hn : e.name.length = DIRSIZ) :
    ofBytes e.toBytes = e := by
  obtain ⟨inum, name⟩ := e
  simp only at hi hn
  simp only [ofBytes, toBytes, List.getD_cons_zero, List.getD_cons_succ, List.drop_succ_cons,
    List.drop_zero, UInt8.toNat_ofNat', Dirent.mk.injEq]
  refine ⟨by omega, by rw [← hn, List.take_length]⟩

/-- `dirlookup` takes the entry for `name`: it is live and `namecmp` finds the names equal. -/
def Matches (e : Dirent) (name : List UInt8) : Prop := e.inum ≠ 0 ∧ namecmp name e.name = 0

instance (e : Dirent) (name : List UInt8) : Decidable (e.Matches name) :=
  inferInstanceAs (Decidable (_ ∧ _))

end Dirent

/-- The entries of a content, one for each whole `sizeof(struct dirent)` bytes. -/
def entries (c : List UInt8) : List Dirent :=
  (List.range (c.length / direntSize)).map fun i =>
    Dirent.ofBytes ((c.drop (direntSize * i)).take direntSize)

/-- What `dirlookup` is for, from the entry at offset `off` on: the inode number and the offset
of the first entry `name` matches. -/
def lookupFrom (name : List UInt8) : List Dirent → (off : ℕ) → Option (ℕ × ℕ)
  | [], _ => none
  | e :: es, off =>
    if e.Matches name then some (e.inum, off) else lookupFrom name es (off + direntSize)

/-- `lookupFrom` from the first entry. -/
def lookup (es : List Dirent) (name : List UInt8) : Option (ℕ × ℕ) := lookupFrom name es 0

/-- The first free slot. -/
def firstFree (es : List Dirent) : ℕ := es.findIdx fun e => e.inum = 0

/-! ### `dirlookup` and `dirlink` -/

/-- The loop of `dirlookup` from offset `off`, reading each entry into the kernel's `de`:
the inode number and offset found, and the inode, disk and memory after; `none` is a panic. -/
def dirlookupLoop (sb : Superblock) (name : List UInt8) (de : ℕ) :
    (fuel : ℕ) → Inode → Blocks → Mem → (off : ℕ) → Option (Option (ℕ × ℕ) × Inode × Blocks × Mem)
  | 0, dp, d, mem, _ => some (none, dp, d, mem)
  | fuel + 1, dp, d, mem, off =>
    if off < dp.size then
      match readi sb dp d mem false de (UInt32.ofNat off) (UInt32.ofNat direntSize) with
      | none => none
      | some (r, dp, d, mem) =>
        if r ≠ direntSize then none else
        let e := Dirent.ofBytes (Store.slice mem.kmem de direntSize)
        if e.inum = 0 then dirlookupLoop sb name de fuel dp d mem (off + direntSize)
        else if namecmp name e.name = 0 then some (some (e.inum, off), dp, d, mem)
        else dirlookupLoop sb name de fuel dp d mem (off + direntSize)
    else some (none, dp, d, mem)

/-- The scan of `dirlookup(dp, name, &off)` with its `de` at kernel address `de`, up to the
inode number it hands to `iget`: that number and the offset, or nothing for `0`. Each iteration
reads one entry, so the loop ends within `size / sizeof(de) + 1` of them. -/
def dirlookupScan (sb : Superblock) (dp : Inode) (d : Blocks) (mem : Mem) (name : List UInt8)
    (de : ℕ) : Option (Option (ℕ × ℕ) × Inode × Blocks × Mem) :=
  if dp.type ≠ T_DIR then none
  else dirlookupLoop sb name de (dp.size / direntSize + 1) dp d mem 0

/-- `dirlookup(dp, name, &off)` for the directory `dp` of device `dev` (`dp->dev`): the scan,
then `iget(dp->dev, inum)` of the inode number found. It returns the slot `iget` hands out and
the offset, or nothing for `0`, with the inode table after; `none` is a panic, `iget`'s
`"iget: no inodes"` among them. -/
def dirlookup (sb : Superblock) (t : Itable) (dev : UInt32) (dp : Inode) (d : Blocks) (mem : Mem)
    (name : List UInt8) (de : ℕ) : Option (Option (ℕ × ℕ) × Itable × Inode × Blocks × Mem) :=
  match dirlookupScan sb dp d mem name de with
  | none => none
  | some (none, dp, d, mem) => some (none, t, dp, d, mem)
  | some (some (inum, off), dp, d, mem) =>
    match t.iget dev inum with
    | none => none
    | some (t, ip) => some (some (ip, off), t, dp, d, mem)

/-- The loop of `dirlink` that looks for a free slot from offset `off`: the offset it stops at. -/
def freeLoop (sb : Superblock) (de : ℕ) :
    (fuel : ℕ) → Inode → Blocks → Mem → (off : ℕ) → Option (ℕ × Inode × Blocks × Mem)
  | 0, dp, d, mem, off => some (off, dp, d, mem)
  | fuel + 1, dp, d, mem, off =>
    if off < dp.size then
      match readi sb dp d mem false de (UInt32.ofNat off) (UInt32.ofNat direntSize) with
      | none => none
      | some (r, dp, d, mem) =>
        if r ≠ direntSize then none
        else if (Dirent.ofBytes (Store.slice mem.kmem de direntSize)).inum = 0 then
          some (off, dp, d, mem)
        else freeLoop sb de fuel dp d mem (off + direntSize)
    else some (off, dp, d, mem)

/-- `dirlink(dp, name, inum)` for the directory `dp` of device `dev`, with its `de` at kernel
address `de` (the `dirlookup` it calls reads into the same place, which nothing reads
afterwards): the return value, and the inode table, inode, disk and memory after. A name that is
there is `iget` by `dirlookup` and `iput` again before the `-1`. -/
def dirlink (sb : Superblock) (t : Itable) (dev : UInt32) (dp : Inode) (d : Blocks) (mem : Mem)
    (name : List UInt8) (inum de : ℕ) : Option (ℤ × Itable × Inode × Blocks × Mem) :=
  match dirlookup sb t dev dp d mem name de with
  | none => none
  | some (some (ip, _), t, dp, d, mem) =>
    (Itable.iput sb t d ip).map fun r => (-1, r.1, dp, r.2, mem)
  | some (none, t, dp, d, mem) =>
    match freeLoop sb de (dp.size / direntSize + 1) dp d mem 0 with
    | none => none
    | some (off, dp, d, mem) =>
      -- `strncpy(de.name, name, DIRSIZ); de.inum = inum;`, the `uint` cut to the `ushort`
      let mem := mem.store false de (Dirent.toBytes ⟨inum % 2 ^ 16, strncpy name DIRSIZ⟩)
      match writei sb dp d mem false de (UInt32.ofNat off) (UInt32.ofNat direntSize) with
      | none => none
      | some (r, dp, d) =>
        if r ≠ direntSize then some (-1, t, dp, d, mem) else some (0, t, dp, d, mem)

/-! ### Reading and writing one entry -/

section Entry

variable {sb : Superblock} {dp : Inode} {d : Blocks}

theorem length_entries (c : List UInt8) : (entries c).length = c.length / direntSize := by
  simp [entries]

/-- The entries from the `i`-th on: the `i`-th, cut from its bytes, and those after it. -/
theorem drop_entries {c : List UInt8} {i : ℕ} (hi : i < c.length / direntSize) :
    (entries c).drop i =
      Dirent.ofBytes ((c.drop (direntSize * i)).take direntSize) :: (entries c).drop (i + 1) := by
  rw [List.drop_eq_getElem_cons (by rw [length_entries]; exact hi)]
  simp [entries]

theorem length_content (dp : Inode) (d : Blocks) : (content dp d).length = dp.size :=
  Store.length_slice _ _ _

/-- An entry's offset within `MAXFILE` blocks as the `uint` that `readi` and `writei` take,
and the offset after the entry: neither wraps. -/
theorem entry_offsets {off : ℕ} (h : off ≤ MAXFILE * BSIZE) :
    (UInt32.ofNat off).toNat = off ∧
      (UInt32.ofNat off + UInt32.ofNat direntSize).toNat = off + direntSize ∧
      ¬ UInt32.ofNat off + UInt32.ofNat direntSize < UInt32.ofNat off := by
  have hlt : MAXFILE * BSIZE + direntSize < 2 ^ 32 := by decide
  have hoff : (UInt32.ofNat off).toNat = off := by
    rw [UInt32.toNat_ofNat', Nat.mod_eq_of_lt (by omega)]
  have hadd : (UInt32.ofNat off + UInt32.ofNat direntSize).toNat = off + direntSize := by
    rw [@Share.toNat_add_ofNat (UInt32.ofNat off) direntSize (by rw [hoff]; omega), hoff]
  refine ⟨hoff, hadd, ?_⟩
  rw [UInt32.lt_iff_toNat_lt, hadd, hoff]
  omega

/-- **One entry read into `de`**: `readi` returns `sizeof(de)`, leaves the inode and the disk
alone, and leaves the entry's bytes at `de`. -/
theorem readi_entry (sb : Superblock) (hh : NoHoles dp d dp.size) (mem : Mem) (de : ℕ) {off : ℕ}
    (hoff : off + direntSize ≤ dp.size) :
    readi sb dp d mem false de (UInt32.ofNat off) (UInt32.ofNat direntSize) =
      some ((direntSize : ℤ), dp, d, mem.store false de (((content dp d).drop off).take direntSize)) := by
  have hmax := hh.le_maxfile
  obtain ⟨hoff32, -, hwrap⟩ := entry_offsets (by omega : off ≤ MAXFILE * BSIZE)
  have hn32 : (UInt32.ofNat direntSize).toNat = direntSize := rfl
  have hok : ¬ (dp.size < (UInt32.ofNat off).toNat ∨
      UInt32.ofNat off + UInt32.ofNat direntSize < UInt32.ofNat off) := by
    rw [hoff32]
    exact not_or.mpr ⟨by omega, hwrap⟩
  obtain ⟨j, hj, hread, -, hfail⟩ := (readi_spec sb hh mem false de _ _).2 hok
  have hmin : min (UInt32.ofNat direntSize).toNat (dp.size - (UInt32.ofNat off).toNat) =
      direntSize := by
    rw [hoff32, hn32]
    omega
  rw [hmin] at hj hread hfail
  -- kernel memory takes every byte
  obtain rfl : j = direntSize := by
    by_contra hne
    exact hfail (by omega) fun h => absurd h Bool.false_ne_true
  rw [hread, if_pos rfl, hoff32]

/-- What `de` holds after `readi_entry`: the entry at `off`. -/
theorem slice_entry (mem : Mem) (de : ℕ) {c : List UInt8} {off : ℕ} (hoff : off + direntSize ≤ c.length) :
    Store.slice (mem.store false de ((c.drop off).take direntSize)).kmem de direntSize =
      (c.drop off).take direntSize := by
  have hlen : ((c.drop off).take direntSize).length = direntSize := by simp; omega
  have h := Store.slice_store mem.kmem de ((c.drop off).take direntSize)
  rw [hlen] at h
  exact h

end Entry

/-! ### The loops -/

section Loops

variable {sb : Superblock} {dp : Inode} {d : Blocks}

/-- **The loop of `dirlookup`** from the `i`-th entry: it finds what `lookupFrom` finds among
the entries from the `i`-th on, and leaves the inode and the disk alone. -/
theorem dirlookupLoop_eq (sb : Superblock) (hh : NoHoles dp d dp.size) (hsz : dp.size % direntSize = 0)
    (name : List UInt8) (de : ℕ) : ∀ (fuel i : ℕ) (mem : Mem), i ≤ dp.size / direntSize →
      dp.size / direntSize - i < fuel → ∃ mem',
        dirlookupLoop sb name de fuel dp d mem (direntSize * i) =
          some (lookupFrom name ((entries (content dp d)).drop i) (direntSize * i), dp, d, mem')
  | 0, _, _, _, hf => absurd hf (Nat.not_lt_zero _)
  | fuel + 1, i, mem, hi, hf => by
    have hlen := length_content dp d
    rcases Nat.lt_or_ge i (dp.size / direntSize) with hlt | hge
    · -- entry `i` is read and tested
      have hoff : direntSize * i + direntSize ≤ dp.size := by unfold direntSize DIRSIZ at *; omega
      have hnext : direntSize * i + direntSize = direntSize * (i + 1) := (Nat.mul_succ _ _).symm
      rw [dirlookupLoop, if_pos (by unfold direntSize DIRSIZ at *; omega), readi_entry sb hh mem de hoff]
      simp only [ne_eq, not_true_eq_false, if_false]
      rw [slice_entry mem de (hlen ▸ hoff), drop_entries (hlen ▸ hlt), lookupFrom]
      by_cases h0 : (Dirent.ofBytes (((content dp d).drop (direntSize * i)).take direntSize)).inum = 0
      · rw [if_pos h0, if_neg (fun hm => hm.1 h0), hnext]
        exact dirlookupLoop_eq sb hh hsz name de fuel (i + 1) _ (by omega) (by omega)
      · rw [if_neg h0]
        by_cases hn : namecmp name
            (Dirent.ofBytes (((content dp d).drop (direntSize * i)).take direntSize)).name = 0
        · rw [if_pos hn, if_pos ⟨h0, hn⟩]
          exact ⟨_, rfl⟩
        · rw [if_neg hn, if_neg (fun hm => hn hm.2), hnext]
          exact dirlookupLoop_eq sb hh hsz name de fuel (i + 1) _ (by omega) (by omega)
    · -- past the last entry
      have hend : ¬ direntSize * i < dp.size := by unfold direntSize DIRSIZ at *; omega
      rw [dirlookupLoop, if_neg hend,
        List.drop_of_length_le (by rw [length_entries, hlen]; omega), lookupFrom]
      exact ⟨mem, rfl⟩

/-- **The scan of `dirlookup` is `lookup`** of the entries, on a directory with no hole and a
whole number of entries; the inode and the disk stay as they are. -/
theorem dirlookupScan_eq (sb : Superblock) (hdir : dp.type = T_DIR) (hh : NoHoles dp d dp.size)
    (hsz : dp.size % direntSize = 0) (mem : Mem) (name : List UInt8) (de : ℕ) :
    ∃ mem', dirlookupScan sb dp d mem name de =
      some (lookup (entries (content dp d)) name, dp, d, mem') := by
  obtain ⟨mem', h⟩ := dirlookupLoop_eq sb hh hsz name de (dp.size / direntSize + 1) 0 mem
    (Nat.zero_le _) (Nat.lt_succ_of_le (Nat.sub_le _ _))
  rw [Nat.mul_zero, List.drop_zero] at h
  exact ⟨mem', by rw [dirlookupScan, if_neg (not_not.mpr hdir), h]; rfl⟩

/-- **The free-slot loop of `dirlink`** from the `i`-th entry stops at the first free slot from
the `i`-th on, or past the last entry. -/
theorem freeLoop_eq (sb : Superblock) (hh : NoHoles dp d dp.size) (hsz : dp.size % direntSize = 0) (de : ℕ) :
    ∀ (fuel i : ℕ) (mem : Mem), i ≤ dp.size / direntSize → dp.size / direntSize - i < fuel →
      ∃ mem', freeLoop sb de fuel dp d mem (direntSize * i) =
        some (direntSize * (i + firstFree ((entries (content dp d)).drop i)), dp, d, mem')
  | 0, _, _, _, hf => absurd hf (Nat.not_lt_zero _)
  | fuel + 1, i, mem, hi, hf => by
    have hlen := length_content dp d
    rcases Nat.lt_or_ge i (dp.size / direntSize) with hlt | hge
    · have hoff : direntSize * i + direntSize ≤ dp.size := by unfold direntSize DIRSIZ at *; omega
      rw [freeLoop, if_pos (by unfold direntSize DIRSIZ at *; omega), readi_entry sb hh mem de hoff]
      simp only [ne_eq, not_true_eq_false, if_false]
      rw [slice_entry mem de (hlen ▸ hoff), drop_entries (hlen ▸ hlt), firstFree, List.findIdx_cons]
      by_cases h0 : (Dirent.ofBytes (((content dp d).drop (direntSize * i)).take direntSize)).inum = 0
      · rw [if_pos h0]
        simp [h0]
      · rw [if_neg h0, (Nat.mul_succ _ _).symm]
        obtain ⟨mem', h⟩ := freeLoop_eq sb hh hsz de fuel (i + 1) _ (by omega) (by omega)
        refine ⟨mem', ?_⟩
        rw [h]
        simp only [h0, decide_false, cond_false, firstFree]
        rw [Nat.add_assoc, Nat.add_comm 1]
    · have hend : ¬ direntSize * i < dp.size := by unfold direntSize DIRSIZ at *; omega
      rw [freeLoop, if_neg hend,
        List.drop_of_length_le (by rw [length_entries, hlen]; omega)]
      exact ⟨mem, by simp [firstFree]⟩

end Loops

/-! ### Writing one entry -/

section Write

variable {sb : Superblock} {ip ip' : Inode} {d d' : Blocks}

/-- The write loop on a run from kernel memory that fits in one block moves all of it or
nothing, and all of it when the block is there. -/
theorem writeLoop_chunk {mem : Mem} {n fuel off src : ℕ} {r : ℕ × ℕ × Inode × Blocks}
    (hn : 0 < n) (hfuel : 0 < fuel) (hfit : off % BSIZE + n ≤ BSIZE)
    (h : writeLoop sb mem false n fuel ip d 0 off src = some r) :
    (r.1 = 0 ∨ r.1 = n) ∧ (blockOf ip d (off / BSIZE) ≠ 0 → r.1 = n) := by
  obtain ⟨fuel, rfl⟩ : ∃ k, fuel = k + 1 := ⟨fuel - 1, by omega⟩
  rw [writeLoop, if_pos hn] at h
  rcases hb : bmap sb ip d (off / BSIZE) with _ | ⟨addr, ip₁, d₁⟩
  · rw [hb] at h
    cases h
  · rw [hb] at h
    simp only at h
    by_cases ha : addr = 0
    · -- no block: nothing written
      rw [if_pos ha] at h
      obtain rfl := (Option.some.inj h).symm
      refine ⟨Or.inl rfl, fun hne => ?_⟩
      rw [bmap_of_blockOf_ne_zero hne, Option.some.injEq, Prod.mk.injEq] at hb
      exact absurd (hb.1.trans ha) hne
    · -- a kernel copy succeeds, and the next iteration finds the run written
      rw [if_neg ha] at h
      have hm : min (n - 0) (BSIZE - off % BSIZE) = n := by omega
      simp only [eitherCopyin, Bool.false_eq_true, if_false, hm, Nat.zero_add, if_true] at h
      cases fuel with
      | zero =>
        rw [writeLoop] at h
        obtain rfl := (Option.some.inj h).symm
        exact ⟨Or.inr rfl, fun _ => rfl⟩
      | succ k =>
        rw [writeLoop, if_neg (Nat.lt_irrefl n)] at h
        obtain rfl := (Option.some.inj h).symm
        exact ⟨Or.inr rfl, fun _ => rfl⟩

/-- `writei` of a run from kernel memory that fits in one block returns all of it or `0`, and
all of it when the block is there. -/
theorem writei_chunk {mem : Mem} {src : ℕ} {off n : UInt32} {r : ℤ} (hn : 0 < n.toNat)
    (hfit : off.toNat % BSIZE + n.toNat ≤ BSIZE)
    (hg : ¬ (ip.size < off.toNat ∨ off + n < off ∨ MAXFILE * BSIZE < (off + n).toNat))
    (h : writei sb ip d mem false src off n = some (r, ip', d')) :
    (r = 0 ∨ r = n.toNat) ∧ (blockOf ip d (off.toNat / BSIZE) ≠ 0 → r = n.toNat) := by
  unfold writei at h
  rw [if_neg (by tauto), if_neg (by tauto)] at h
  rcases hl : writeLoop sb mem false n.toNat n.toNat ip d 0 off.toNat src with _ | ⟨tot, off', ip₁, d₁⟩
  · rw [hl] at h
    cases h
  · rw [hl] at h
    simp only [Option.some.injEq, Prod.mk.injEq] at h
    obtain ⟨rfl, -, -⟩ := h
    obtain ⟨h1, h2⟩ := writeLoop_chunk hn hn hfit hl
    exact ⟨by exact_mod_cast h1, fun hb => by exact_mod_cast h2 hb⟩

/-- **One entry written from `de`** at a multiple `off` of `sizeof(de)` no further than the end:
`writei` either returns `sizeof(de)` with those bytes at `off` in the content, or, only at the
end, returns something else and leaves the content as it was. The inode keeps its number and
type, and owns its blocks with no hole. -/
theorem writei_entry (hl : sb.Layout) (ho : Owned sb ip d) (hh : NoHoles ip d ip.size)
    (hinum : ip.inum < sb.ninodes) (hsz : ip.size % direntSize = 0) (mem : Mem) (de : ℕ) {off : ℕ}
    (hoff : off ≤ ip.size) (hal : off % direntSize = 0) :
    ∃ r ip' d', writei sb ip d mem false de (UInt32.ofNat off) (UInt32.ofNat direntSize) =
        some (r, ip', d') ∧ Owned sb ip' d' ∧ NoHoles ip' d' ip'.size ∧ ip'.inum = ip.inum ∧
      ip'.type = ip.type ∧
      ((r = direntSize ∧ ip'.size = max ip.size (off + direntSize) ∧
          content ip' d' = Store.slice (fun k => if off ≤ k ∧ k < off + direntSize then
            mem.kmem (de + (k - off)) else byteAt ip d k) 0 ip'.size) ∨
        (r ≠ direntSize ∧ off = ip.size ∧ content ip' d' = content ip d)) := by
  have hmax := hh.le_maxfile
  have hlen := length_content ip d
  obtain ⟨hoff32, hadd, hwrap⟩ := entry_offsets (by omega : off ≤ MAXFILE * BSIZE)
  have hn32 : (UInt32.ofNat direntSize).toNat = direntSize := rfl
  by_cases hfull : MAXFILE * BSIZE < off + direntSize
  · -- past `MAXFILE`: `-1` and nothing written, which only happens at the end
    refine ⟨-1, ip, d, writei_guard (Or.inr (Or.inr (by rw [hadd]; exact hfull))), ho, hh, rfl,
      rfl, Or.inr ⟨by decide, ?_, rfl⟩⟩
    unfold direntSize DIRSIZ at *
    omega
  · have hok : ¬ (ip.size < (UInt32.ofNat off).toNat ∨
        UInt32.ofNat off + UInt32.ofNat direntSize < UInt32.ofNat off) := by
      rw [hoff32]
      exact not_or.mpr ⟨by omega, hwrap⟩
    obtain ⟨t, j, ip', d', hw, -, hspill, hip', ho', hh', hc, -⟩ :=
      writei_spec hl ho hh hinum mem false de _ _ hok (by rw [hadd]; omega)
    -- nothing spills from kernel memory
    have hj : j = 0 := by
      by_contra hj0
      exact (hspill (Nat.pos_of_ne_zero hj0)).2 fun h => absurd h Bool.false_ne_true
    subst hj
    have hfit : (UInt32.ofNat off).toNat % BSIZE + (UInt32.ofNat direntSize).toNat ≤ BSIZE := by
      rw [hoff32, hn32]
      unfold direntSize DIRSIZ BSIZE at *
      omega
    obtain ⟨h01, hfilled⟩ := writei_chunk (by rw [hn32]; decide) hfit
      (not_or.mpr ⟨by omega, not_or.mpr ⟨hwrap, by rw [hadd]; omega⟩⟩) hw
    rw [hn32] at h01 hfilled
    have hsize : ip'.size = max ip.size (off + t) := by rw [hip', hoff32]
    refine ⟨t, ip', d', hw, ho', hh', by rw [hip'], by rw [hip'], ?_⟩
    simp only [Mem.source, Bool.false_eq_true, if_false, hoff32, Nat.add_zero] at hc
    rcases h01 with ht | ht
    · -- nothing written: the block was missing, so this was the end
      obtain rfl : t = 0 := by exact_mod_cast ht
      refine Or.inr ⟨by decide, ?_, ?_⟩
      · by_contra hne
        have hb : blockOf ip d ((UInt32.ofNat off).toNat / BSIZE) ≠ 0 :=
          hh _ (by rw [hoff32]; exact Nat.lt_of_le_of_lt (Nat.div_mul_le_self off BSIZE) (by omega))
        exact absurd (hfilled hb) (by decide)
      · rw [hc, hsize, Nat.add_zero, List.take_zero, List.append_nil, List.take_append_drop,
          Nat.max_eq_left hoff, List.take_of_length_le (by omega)]
    · obtain rfl : t = direntSize := by exact_mod_cast ht
      refine Or.inl ⟨rfl, hsize, ?_⟩
      rw [hc, content, Store.slice_shift mem.kmem de, hsize]
      exact Store.take_splice _ _ hoff (Nat.le_refl _) (Nat.le_refl _)

end Write

/-! ### Entries after a write -/

section Splice

/-- The entries of the first `L` values of a memory, each read from its own offset. -/
theorem entries_slice (f : ℕ → UInt8) (L : ℕ) :
    entries (Store.slice f 0 L) =
      (List.range (L / direntSize)).map fun j => Dirent.ofBytes (Store.slice f (direntSize * j) direntSize) := by
  unfold entries
  rw [Store.length_slice]
  refine List.map_congr_left fun j hj => ?_
  have hj' := List.mem_range.mp hj
  rw [Store.slice_drop_take f (by unfold direntSize DIRSIZ at *; omega)]

/-- An entry read from memory with one entry written over it at `direntSize * i`: the written one
at `i`, the old one elsewhere. -/
theorem slice_write (h g : ℕ → UInt8) (i j : ℕ) :
    Store.slice (fun k => if direntSize * i ≤ k ∧ k < direntSize * i + direntSize then
        g (k - direntSize * i) else h k) (direntSize * j) direntSize =
      if j = i then Store.slice g 0 direntSize else Store.slice h (direntSize * j) direntSize := by
  split_ifs with hji
  · subst hji
    rw [Store.slice_shift _ (direntSize * j), Store.slice_shift g 0]
    refine Store.slice_congr fun k hk => ?_
    simp only [Nat.zero_add]
    rw [if_pos ⟨by omega, by omega⟩, Nat.add_sub_cancel_left]
  · refine Store.slice_congr fun k hk => ?_
    rw [if_neg]
    rcases Nat.lt_or_gt_of_ne hji with hlt | hgt
    · have : direntSize * j + direntSize ≤ direntSize * i := by
        rw [← Nat.mul_succ]; exact Nat.mul_le_mul_left _ hlt
      omega
    · have : direntSize * i + direntSize ≤ direntSize * j := by
        rw [← Nat.mul_succ]; exact Nat.mul_le_mul_left _ hgt
      omega

/-- **An entry written at offset `direntSize * i`**, within the content or at its end: the
entries with the `i`-th set, or with the new one appended. -/
theorem entries_write (h g : ℕ → UInt8) {S i : ℕ} (hS : S % direntSize = 0) (hi : direntSize * i ≤ S) :
    entries (Store.slice (fun k => if direntSize * i ≤ k ∧ k < direntSize * i + direntSize then
        g (k - direntSize * i) else h k) 0 (max S (direntSize * i + direntSize))) =
      if direntSize * i < S then
        (entries (Store.slice h 0 S)).set i (Dirent.ofBytes (Store.slice g 0 direntSize))
      else entries (Store.slice h 0 S) ++ [Dirent.ofBytes (Store.slice g 0 direntSize)] := by
  rw [entries_slice, entries_slice]
  simp only [slice_write]
  split_ifs with hlt
  · -- within: the same number of entries, the `i`-th replaced
    have hmax : max S (direntSize * i + direntSize) = S := by
      unfold direntSize DIRSIZ at *; omega
    rw [hmax]
    apply List.ext_getElem (by simp)
    intro j h₁ h₂
    simp only [List.getElem_map, List.getElem_range, List.getElem_set]
    by_cases hji : j = i
    · simp [hji]
    · simp [hji, Ne.symm hji]
  · -- at the end: one entry more
    have hS' : direntSize * i = S := by omega
    have hmax : max S (direntSize * i + direntSize) / direntSize = S / direntSize + 1 := by
      unfold direntSize DIRSIZ at *; omega
    have hi' : i = S / direntSize := by unfold direntSize DIRSIZ at *; omega
    rw [hmax, List.range_succ, List.map_append]
    congr 1
    · refine List.map_congr_left fun j hj => ?_
      rw [if_neg (by have := List.mem_range.mp hj; omega)]
    · simp [hi']

end Splice

/-! ### Lookups after a write -/

section Lookup

variable {name : List UInt8} {e : Dirent}

/-- Setting an entry that neither matches `name` nor replaces one that did leaves its lookup. -/
theorem lookupFrom_set (name : List UInt8) :
    ∀ (es : List Dirent) (i off : ℕ) (e : Dirent), (∀ h : i < es.length, ¬ es[i].Matches name) →
      ¬ e.Matches name → lookupFrom name (es.set i e) off = lookupFrom name es off
  | [], _, _, _, _, _ => rfl
  | a :: es, 0, off, e, hold, hnew => by
    have ha : ¬ a.Matches name := hold (Nat.zero_lt_succ _)
    simp only [List.set_cons_zero, lookupFrom, if_neg hnew, if_neg ha]
  | a :: es, i + 1, off, e, hold, hnew => by
    simp only [List.set_cons_succ, lookupFrom]
    rw [lookupFrom_set name es i _ e (fun h => hold (Nat.succ_lt_succ h)) hnew]

/-- Setting an entry of a list that has none for `name` to one that matches finds it. -/
theorem lookupFrom_set_of_none (name : List UInt8) :
    ∀ (es : List Dirent) (i off : ℕ) (e : Dirent), lookupFrom name es off = none →
      i < es.length → e.Matches name →
      lookupFrom name (es.set i e) off = some (e.inum, off + direntSize * i)
  | [], _, _, _, _, hi, _ => absurd hi (Nat.not_lt_zero _)
  | a :: es, 0, off, e, _, _, hnew => by
    simp [lookupFrom, if_pos hnew]
  | a :: es, i + 1, off, e, hnone, hi, hnew => by
    rw [lookupFrom] at hnone
    split_ifs at hnone with ha
    simp only [List.set_cons_succ, lookupFrom, if_neg ha]
    rw [lookupFrom_set_of_none name es i _ e hnone (by simpa using hi) hnew, Nat.mul_succ]
    congr 2
    omega

/-- What `lookupFrom` finds is the number of an entry of the list that matches. -/
theorem lookupFrom_mem (name : List UInt8) : ∀ (es : List Dirent) (off inum off' : ℕ),
    lookupFrom name es off = some (inum, off') → ∃ e ∈ es, e.inum = inum ∧ e.Matches name
  | [], _, _, _, h => by cases h
  | e :: es, off, inum, off', h => by
    unfold lookupFrom at h
    by_cases hm : e.Matches name
    · rw [if_pos hm] at h
      simp only [Option.some.injEq, Prod.mk.injEq] at h
      exact ⟨e, List.mem_cons_self, h.1, hm⟩
    · rw [if_neg hm] at h
      obtain ⟨e', he', hi, hm'⟩ := lookupFrom_mem name es _ inum off' h
      exact ⟨e', List.mem_cons_of_mem _ he', hi, hm'⟩

/-- An entry appended after them: found only if no entry before matches. -/
theorem lookupFrom_append (name : List UInt8) :
    ∀ (es : List Dirent) (off : ℕ) (e : Dirent), lookupFrom name (es ++ [e]) off =
      (lookupFrom name es off).or (if e.Matches name then some (e.inum, off + direntSize * es.length) else none)
  | [], off, e => by simp [lookupFrom]
  | a :: es, off, e => by
    simp only [List.cons_append, lookupFrom]
    by_cases ha : a.Matches name
    · rw [if_pos ha, if_pos ha]
      rfl
    · have hoff : off + direntSize + direntSize * es.length =
          off + direntSize * (a :: es).length := by
        rw [List.length_cons, Nat.mul_succ]
        omega
      rw [if_neg ha, if_neg ha, lookupFrom_append name es _ e, hoff]

end Lookup

/-! ### `dirlink` -/

/-- The entry `dirlink(dp, name, inum)` writes: `inum` as the `ushort` holds it, and the name
as `strncpy` leaves it. -/
def newEntry (name : List UInt8) (inum : ℕ) : Dirent := ⟨inum % 2 ^ 16, strncpy name DIRSIZ⟩

/-- What `dirlink` does to the entries: the new one in the first free slot, or after the
last. -/
def linked (es : List Dirent) (e : Dirent) : List Dirent :=
  if firstFree es < es.length then es.set (firstFree es) e else es ++ [e]

section Link

variable {sb : Superblock} {dp : Inode} {d : Blocks}

theorem ofBytes_newEntry (name : List UInt8) (inum : ℕ) :
    Dirent.ofBytes (newEntry name inum).toBytes = newEntry name inum :=
  Dirent.ofBytes_toBytes (Nat.mod_lt _ (by decide)) (length_strncpy _ _)

theorem length_toBytes_newEntry (name : List UInt8) (inum : ℕ) :
    (newEntry name inum).toBytes.length = direntSize := by
  rw [Dirent.length_toBytes, newEntry, length_strncpy]
  rfl

/-- `dirlookup` after a scan that found nothing keeps the table. -/
theorem dirlookup_of_scan_none {t : Itable} {dev : UInt32} {mem mem' : Mem} {dp' : Inode}
    {d' : Blocks} {name : List UInt8} {de : ℕ}
    (h : dirlookupScan sb dp d mem name de = some (none, dp', d', mem')) :
    dirlookup sb t dev dp d mem name de = some (none, t, dp', d', mem') := by
  rw [dirlookup, h]

/-- `dirlookup` after a scan that found `inum` is the `iget` of it. -/
theorem dirlookup_of_scan_some {t t' : Itable} {dev : UInt32} {mem mem' : Mem} {dp' : Inode}
    {d' : Blocks} {name : List UInt8} {de inum off j : ℕ}
    (h : dirlookupScan sb dp d mem name de = some (some (inum, off), dp', d', mem'))
    (hg : t.iget dev inum = some (t', j)) :
    dirlookup sb t dev dp d mem name de = some (some (j, off), t', dp', d', mem') := by
  rw [dirlookup, h]
  simp only [hg]

/-- What `dirlookup` does to the table: nothing when it finds nothing, and the `iget` of the
inode number found otherwise. -/
theorem dirlookup_some {t t' : Itable} {dev : UInt32} {mem mem' : Mem} {dp' : Inode}
    {d' : Blocks} {name : List UInt8} {de : ℕ} {b : Option (ℕ × ℕ)}
    (h : dirlookup sb t dev dp d mem name de = some (b, t', dp', d', mem')) :
    (b = none → t' = t) ∧
      ∀ j off, b = some (j, off) → ∃ inum, t.iget dev inum = some (t', j) := by
  cases hs : dirlookupScan sb dp d mem name de with
  | none => rw [dirlookup, hs] at h; cases h
  | some q =>
    obtain ⟨c, dp₁, d₁, mem₁⟩ := q
    cases c with
    | none =>
      rw [dirlookup_of_scan_none hs] at h
      simp only [Option.some.injEq, Prod.mk.injEq] at h
      obtain ⟨rfl, rfl, -⟩ := h
      exact ⟨fun _ => rfl, fun j off hb => by cases hb⟩
    | some p =>
      obtain ⟨inum, off⟩ := p
      cases hg : t.iget dev inum with
      | none => rw [dirlookup, hs] at h; simp [hg] at h
      | some q =>
        obtain ⟨t₂, j₂⟩ := q
        rw [dirlookup_of_scan_some hs hg] at h
        simp only [Option.some.injEq, Prod.mk.injEq] at h
        obtain ⟨rfl, rfl, -⟩ := h
        refine ⟨fun hb => (by cases hb), fun j o hb => ⟨inum, ?_⟩⟩
        cases hb
        exact hg

/-- What `dirlink` does to the table: nothing, or, for a name that is there, the `iget` of
`dirlookup` and the `iput` after it. -/
theorem dirlink_table {t t' : Itable} {dev : UInt32} {mem mem' : Mem} {dp' : Inode} {d' : Blocks}
    {name : List UInt8} {inum de : ℕ} {r : ℤ}
    (h : dirlink sb t dev dp d mem name inum de = some (r, t', dp', d', mem')) :
    t' = t ∨ ∃ inum₁ j t₁ d₁, t.iget dev inum₁ = some (t₁, j) ∧
      Itable.iput sb t₁ d₁ j = some (t', d') := by
  unfold dirlink at h
  cases hl : dirlookup sb t dev dp d mem name de with
  | none => rw [hl] at h; cases h
  | some q =>
    obtain ⟨b, t₁, dp₁, d₁, mem₁⟩ := q
    rw [hl] at h
    obtain ⟨hnone, hsome⟩ := dirlookup_some hl
    cases b with
    | some p =>
      obtain ⟨j, off⟩ := p
      obtain ⟨inum₁, hg⟩ := hsome j off rfl
      obtain ⟨⟨t₂, d₂⟩, hput, heq⟩ := Option.map_eq_some_iff.mp h
      simp only [Prod.mk.injEq] at heq
      obtain ⟨-, rfl, -, rfl, -⟩ := heq
      exact .inr ⟨inum₁, j, t₁, d₁, hg, hput⟩
    | none =>
      -- every exit of the write keeps the table
      left
      rw [← hnone rfl]
      dsimp only at h
      split at h
      · cases h
      · split at h
        · cases h
        · split_ifs at h <;>
          · simp only [Option.some.injEq, Prod.mk.injEq] at h
            exact h.2.1.symm

/-- **`dirlink`.** On a directory that owns its blocks, has no hole and holds a whole number of
entries, with a free slot in the inode table for `dirlookup`'s `iget`: a name that is there gives
`-1` and changes nothing but the table, whose `iget` and `iput` leave every slot with its
references and lock. Otherwise the table is kept, and `dirlink` either returns `0` with the
entries `linked`, or returns `-1` when the slot was the end, with the entries as they were.
Either way the directory keeps its number, its type and a whole number of entries, and owns its
blocks with no hole. -/
theorem dirlink_spec (hl : sb.Layout) (ho : Owned sb dp d) (hh : NoHoles dp d dp.size)
    (hinum : dp.inum < sb.ninodes) (hdir : dp.type = T_DIR) (hsz : dp.size % direntSize = 0)
    (t : Itable) (dev : UInt32) (hroom : ∃ k < NINODE, t.Empty k)
    (mem : Mem) (name : List UInt8) (inum de : ℕ) :
    ∃ r t' dp' d' mem', dirlink sb t dev dp d mem name inum de = some (r, t', dp', d', mem') ∧
      (∀ k, (t'.slot k).ref = (t.slot k).ref ∧ (t'.slot k).locked = (t.slot k).locked) ∧
      Owned sb dp' d' ∧ NoHoles dp' d' dp'.size ∧ dp'.inum = dp.inum ∧ dp'.type = T_DIR ∧
      dp'.size % direntSize = 0 ∧
      (lookup (entries (content dp d)) name ≠ none → r = -1 ∧ dp' = dp ∧ d' = d) ∧
      (lookup (entries (content dp d)) name = none → t' = t ∧
        ((r = 0 ∧ entries (content dp' d') = linked (entries (content dp d)) (newEntry name inum)) ∨
        (r = -1 ∧ firstFree (entries (content dp d)) = (entries (content dp d)).length ∧
          entries (content dp' d') = entries (content dp d)))) := by
  obtain ⟨m₁, hlook⟩ := dirlookupScan_eq sb hdir hh hsz mem name de
  set es := entries (content dp d) with hes
  have hlen : es.length = dp.size / direntSize := by rw [hes, length_entries, length_content]
  cases hfound : lookup es name with
  | some x =>
    -- the name is there: `iget` by `dirlookup`, then `iput`
    obtain ⟨inum₁, off₁⟩ := x
    rw [hfound] at hlook
    obtain ⟨⟨t₁, j⟩, hg⟩ := Option.isSome_iff_exists.mp (Itable.iget_isSome t dev inum₁ hroom)
    obtain ⟨t₂, hput, hkeep⟩ := Itable.iput_of_iget hg sb d
    refine ⟨-1, t₂, dp, d, m₁, ?_, hkeep, ho, hh, rfl, hdir, hsz, fun _ => ⟨rfl, rfl, rfl⟩,
      fun h => absurd h (by simp)⟩
    rw [dirlink, dirlookup_of_scan_some hlook hg]
    simp only [hput, Option.map_some]
  | none =>
    rw [hfound] at hlook
    obtain ⟨m₂, hfree⟩ := freeLoop_eq sb hh hsz de (dp.size / direntSize + 1) 0 m₁
      (Nat.zero_le _) (Nat.lt_succ_of_le (Nat.sub_le _ _))
    rw [Nat.mul_zero, Nat.zero_add, List.drop_zero, ← hes] at hfree
    have hle : firstFree es ≤ es.length := List.findIdx_le_length
    have hoff : direntSize * firstFree es ≤ dp.size := by
      rw [hlen] at hle
      unfold direntSize DIRSIZ at *
      omega
    set m₃ := m₂.store false de (newEntry name inum).toBytes with hm₃
    obtain ⟨r, dp', d', hw, ho', hh', hinum', htype, hres⟩ :=
      writei_entry hl ho hh hinum hsz m₃ de hoff (Nat.mul_mod_right _ _)
    have hrun : dirlink sb t dev dp d mem name inum de =
        some (if r ≠ direntSize then -1 else 0, t, dp', d', m₃) := by
      rw [dirlink, dirlookup_of_scan_none hlook]
      simp only
      rw [hfree]
      simp only [newEntry] at hm₃ hw ⊢
      rw [← hm₃, hw]
      simp only
      split_ifs <;> rfl
    -- the bytes at `de` are the new entry's
    have hde : Store.slice (fun k => m₃.kmem (de + k)) 0 direntSize = (newEntry name inum).toBytes := by
      rw [← Store.slice_shift, hm₃, ← length_toBytes_newEntry name inum]
      exact Store.slice_store _ _ _
    rcases hres with ⟨hr, hsize, hc⟩ | ⟨hr, hend, hc⟩
    · -- written: the entries `linked`
      refine ⟨_, t, dp', d', m₃, hrun, fun _ => ⟨rfl, rfl⟩, ho', hh', hinum', htype.trans hdir, ?_,
        fun h => absurd rfl h, fun _ => ⟨rfl, Or.inl ⟨by rw [if_neg (not_not.mpr hr)], ?_⟩⟩⟩
      · rw [hsize]
        unfold direntSize DIRSIZ at *
        omega
      · have hw' := entries_write (byteAt dp d) (fun k => m₃.kmem (de + k)) hsz hoff
        rw [hc, hsize, hw', hde, ofBytes_newEntry, ← content, ← hes, linked]
        have hlt : direntSize * firstFree es < dp.size ↔ firstFree es < es.length := by
          rw [hlen]
          unfold direntSize DIRSIZ at *
          omega
        simp only [hlt]
    · -- the append failed: nothing changed
      have hsize : dp'.size = dp.size := by
        rw [← length_content dp' d', hc, length_content]
      refine ⟨_, t, dp', d', m₃, hrun, fun _ => ⟨rfl, rfl⟩, ho', hh', hinum', htype.trans hdir,
        hsize ▸ hsz, fun h => absurd rfl h, fun _ => ⟨rfl, Or.inr ⟨by rw [if_pos hr], ?_, by rw [hc]⟩⟩⟩
      rw [hlen]
      unfold direntSize DIRSIZ at *
      omega

end Link

/-! ### Lookups after `dirlink` -/

section After

/-- Names `namecmp` finds equal are matched by the same entries. -/
theorem matches_congr {n₁ n₂ : List UInt8} (h : namecmp n₁ n₂ = 0) (e : Dirent) :
    e.Matches n₁ ↔ e.Matches n₂ := by
  unfold Dirent.Matches namecmp at *
  rw [strncmp_eq_zero_iff] at h
  rw [strncmp_eq_zero_iff, strncmp_eq_zero_iff, h]

theorem lookupFrom_congr {n₁ n₂ : List UInt8} (h : ∀ e : Dirent, e.Matches n₁ ↔ e.Matches n₂) :
    ∀ (es : List Dirent) (off : ℕ), lookupFrom n₁ es off = lookupFrom n₂ es off
  | [], _ => rfl
  | e :: es, off => by
    simp only [lookupFrom, h e, lookupFrom_congr h es]

theorem matches_newEntry (n name : List UInt8) (inum : ℕ) :
    (newEntry name inum).Matches n ↔ inum % 2 ^ 16 ≠ 0 ∧ namecmp n name = 0 := by
  unfold Dirent.Matches newEntry
  rw [namecmp_strncpy]

/-- **Lookups after `dirlink`.** Linking a name with no entry: the names `namecmp` finds equal
to it find the new entry, unless its number is `0` as a `ushort`, and every other lookup is as
before. -/
theorem lookup_linked {es : List Dirent} {name : List UInt8} (hnone : lookup es name = none)
    (inum : ℕ) (n : List UInt8) :
    lookup (linked es (newEntry name inum)) n =
      if inum % 2 ^ 16 ≠ 0 ∧ namecmp n name = 0 then
        some (inum % 2 ^ 16, direntSize * firstFree es)
      else lookup es n := by
  unfold linked lookup
  by_cases hc : inum % 2 ^ 16 ≠ 0 ∧ namecmp n name = 0
  · -- `n` looks up as `name` did: nothing before the new entry
    have hm := (matches_newEntry n name inum).mpr hc
    have hnone' : lookupFrom n es 0 = none := by
      rw [lookupFrom_congr (matches_congr hc.2)]
      exact hnone
    rw [if_pos hc]
    split_ifs with hfree
    · rw [lookupFrom_set_of_none n es _ 0 _ hnone' hfree hm, Nat.zero_add]
      rfl
    · have hend : firstFree es = es.length :=
        Nat.le_antisymm List.findIdx_le_length (Nat.le_of_not_lt hfree)
      rw [lookupFrom_append, hnone', if_pos hm, Nat.zero_add, hend]
      rfl
  · have hm := mt (matches_newEntry n name inum).mp hc
    rw [if_neg hc]
    split_ifs with hfree
    · -- the slot was free, so it matched nothing before either
      refine lookupFrom_set n es _ 0 _ (fun h hold => ?_) hm
      have hz := List.findIdx_getElem (w := hfree)
      exact hold.1 (of_decide_eq_true hz)
    · rw [lookupFrom_append, if_neg hm, Option.or_none]

end After

/-! ### A directory as a finite map -/

section Map

variable {sb : Superblock} {dp : Inode} {d : Blocks}

/-- `dirlookup` in the directory `dp` of device `dev` finds, for every name, what `f` gives: for
`f n = none` it returns `0` and keeps the table; for `f n = some (inum, off)` it returns the
offset and the slot that `iget` hands out, which then holds the inode `inum` of `dev`. -/
def LooksUp (sb : Superblock) (t : Itable) (dev : UInt32) (dp : Inode) (d : Blocks) (de : ℕ)
    (f : List UInt8 → Option (ℕ × ℕ)) : Prop :=
  ∀ (n : List UInt8) (mem : Mem), ∃ mem',
    (f n = none → dirlookup sb t dev dp d mem n de = some (none, t, dp, d, mem')) ∧
    ∀ inum off, f n = some (inum, off) → ∃ t' j,
      dirlookup sb t dev dp d mem n de = some (some (j, off), t', dp, d, mem') ∧
        (t'.slot j).ip.inum = inum ∧ (t'.slot j).dev = dev

/-- `LooksUp` for two descriptions of the same lookups. -/
theorem LooksUp.congr {t : Itable} {dev : UInt32} {de : ℕ} {f g : List UInt8 → Option (ℕ × ℕ)}
    (h : LooksUp sb t dev dp d de f) (hfg : ∀ n, f n = g n) : LooksUp sb t dev dp d de g := by
  intro n mem
  rw [← hfg n]
  exact h n mem

/-- On a directory with no hole and a whole number of entries, and a free slot in the inode
table, `dirlookup` finds what `lookup` of the entries finds. -/
theorem looksUp_lookup {t : Itable} {dev : UInt32} (hroom : ∃ k < NINODE, t.Empty k)
    (hdir : dp.type = T_DIR) (hh : NoHoles dp d dp.size) (hsz : dp.size % direntSize = 0)
    (de : ℕ) : LooksUp sb t dev dp d de (lookup (entries (content dp d))) := by
  intro n mem
  obtain ⟨mem', hlook⟩ := dirlookupScan_eq sb hdir hh hsz mem n de
  refine ⟨mem', fun hn => ?_, fun inum off hn => ?_⟩
  · rw [hn] at hlook
    exact dirlookup_of_scan_none hlook
  · rw [hn] at hlook
    obtain ⟨⟨t', j⟩, hg⟩ := Option.isSome_iff_exists.mp (Itable.iget_isSome t dev inum hroom)
    obtain ⟨-, -, -, hinum, hdev, -⟩ := Itable.iget_some hg
    exact ⟨t', j, dirlookup_of_scan_some hlook hg, hinum, hdev⟩

/-- **A directory is a finite map from names, to `DIRSIZ` bytes, to inodes.** On a directory that
owns its blocks, has no hole and holds a whole number of entries, with a free slot in the inode
table, and for an inode number `0 < inum < 2^16`: `dirlookup` returns the inode of the first
live entry with the name, by `iget(dp->dev, inum)`. `dirlink` of a name that is there returns
`-1` and changes nothing but the table, whose references and locks its `iget` and `iput` leave as
they were. Otherwise it keeps the table, and returns `-1` only when the append at the end could
not be written, with the entries as they were, or `0` with the entry in the first free slot or
appended; after that `dirlookup` of the name returns the inode `inum` at that offset, and every
name `namecmp` tells apart from it looks up as before. -/
theorem dirlookup_dirlink (hl : sb.Layout) (ho : Owned sb dp d) (hh : NoHoles dp d dp.size)
    (hinum : dp.inum < sb.ninodes) (hdir : dp.type = T_DIR) (hsz : dp.size % direntSize = 0)
    (t : Itable) (dev : UInt32) (hroom : ∃ k < NINODE, t.Empty k)
    (mem : Mem) (name : List UInt8) (inum de : ℕ) (hi₀ : 0 < inum) (hi : inum < 2 ^ 16) :
    LooksUp sb t dev dp d de (lookup (entries (content dp d))) ∧
    ∃ r t' dp' d' mem', dirlink sb t dev dp d mem name inum de = some (r, t', dp', d', mem') ∧
      (∀ k, (t'.slot k).ref = (t.slot k).ref ∧ (t'.slot k).locked = (t.slot k).locked) ∧
      (lookup (entries (content dp d)) name ≠ none → r = -1 ∧ dp' = dp ∧ d' = d) ∧
      (lookup (entries (content dp d)) name = none → t' = t ∧
        ((r = -1 ∧ firstFree (entries (content dp d)) = (entries (content dp d)).length ∧
          entries (content dp' d') = entries (content dp d)) ∨
        (r = 0 ∧ entries (content dp' d') =
            linked (entries (content dp d)) ⟨inum, strncpy name DIRSIZ⟩ ∧
          LooksUp sb t dev dp' d' de fun n =>
            if namecmp n name = 0 then some (inum, direntSize * firstFree (entries (content dp d)))
            else lookup (entries (content dp d)) n))) := by
  have hmod : inum % 2 ^ 16 = inum := Nat.mod_eq_of_lt hi
  have hentry : newEntry name inum = ⟨inum, strncpy name DIRSIZ⟩ := by rw [newEntry, hmod]
  obtain ⟨r, t', dp', d', mem', hrun, hkeep, -, hh', -, hdir', hsz', hthere, hnew⟩ :=
    dirlink_spec hl ho hh hinum hdir hsz t dev hroom mem name inum de
  refine ⟨looksUp_lookup hroom hdir hh hsz de, r, t', dp', d', mem', hrun, hkeep, hthere,
    fun hnone => ?_⟩
  obtain ⟨rfl, hres⟩ := hnew hnone
  refine ⟨rfl, ?_⟩
  rcases hres with ⟨hr, hes⟩ | hfail
  · -- the lookups of the new directory are those of the entries `linked`
    have hafter : ∀ n, lookup (entries (content dp' d')) n =
        if namecmp n name = 0 then some (inum, direntSize * firstFree (entries (content dp d)))
        else lookup (entries (content dp d)) n := by
      intro n
      rw [hes, lookup_linked hnone inum n, hmod]
      simp only [ne_eq, Nat.pos_iff_ne_zero.mp hi₀, not_false_eq_true, true_and]
    exact Or.inr ⟨hr, hentry ▸ hes, (looksUp_lookup hroom hdir' hh' hsz' de).congr hafter⟩
  · exact Or.inl hfail

/-- Kernel memory of zeros and an empty user space. -/
def memZero : Mem := ⟨⟨fun _ => false, fun _ => false, fun _ => 0⟩, fun _ => 0⟩

/-- An inode table with no slot in use. -/
def emptyItable : Itable := ⟨fun _ => ⟨ROOTDEV, 0, false, false, Inode.zeroed 0 0⟩⟩

/-- A directory of one free slot on the one-file disk: `dirlink` of `"a"` to inode `2` runs
to its end. -/
theorem dirlookup_dirlink_free_slot :
    ∃ r t' dp' d' mem', dirlink Superblock.mkfs emptyItable ROOTDEV (inodeOne T_DIR direntSize)
      diskOne memZero [97] 2 0 = some (r, t', dp', d', mem') := by
  obtain ⟨-, r, t', dp', d', mem', h, -⟩ := dirlookup_dirlink Superblock.mkfs_layout.1
    (inodeOne_owned T_DIR direntSize) (@inodeOne_noHoles T_DIR direntSize (by decide)) (by decide)
    rfl (by decide) emptyItable ROOTDEV ⟨0, by decide, rfl⟩ memZero [97] 2 0 (by decide) (by decide)
  exact ⟨r, t', dp', d', mem', h⟩

/-- The one free slot of that directory. -/
theorem entries_inodeOne :
    entries (content (inodeOne T_DIR direntSize) diskOne) = [⟨0, List.replicate DIRSIZ 0⟩] := by
  decide

/-- **An inode number the `ushort` cannot hold.** In that directory `dirlink` of `"a"` to inode
`2^16` returns `0`, but the entry it wrote has number `0`, a free slot: afterwards `dirlookup`
of `"a"` finds nothing, not the inode `2^16`. -/
theorem dirlink_inum_wraps :
    ∃ dp' d' mem', dirlink Superblock.mkfs emptyItable ROOTDEV (inodeOne T_DIR direntSize) diskOne
        memZero [97] 65536 0 = some (0, emptyItable, dp', d', mem') ∧
      ∃ mem'', dirlookup Superblock.mkfs emptyItable ROOTDEV dp' d' mem' [97] 0 =
        some (none, emptyItable, dp', d', mem'') := by
  have hsz : (inodeOne T_DIR direntSize).size % direntSize = 0 := by decide
  obtain ⟨r, t', dp', d', mem', hrun, -, -, hh', -, hdir', hsz', -, hnew⟩ :=
    dirlink_spec Superblock.mkfs_layout.1 (inodeOne_owned T_DIR direntSize)
      (@inodeOne_noHoles T_DIR direntSize (by decide)) (by decide) rfl hsz emptyItable ROOTDEV
      ⟨0, by decide, rfl⟩ memZero [97] 65536 0
  have hnone : lookup (entries (content (inodeOne T_DIR direntSize) diskOne)) [97] = none := by
    rw [entries_inodeOne]
    decide
  obtain ⟨rfl, hres⟩ := hnew hnone
  rcases hres with ⟨hr, hes⟩ | ⟨-, hend, -⟩
  · subst hr
    refine ⟨dp', d', mem', hrun, ?_⟩
    obtain ⟨mem'', hlook⟩ := dirlookupScan_eq Superblock.mkfs hdir' hh' hsz' mem' [97] 0
    refine ⟨mem'', dirlookup_of_scan_none ?_⟩
    rw [hlook, hes, lookup_linked hnone 65536 [97], if_neg (by decide), hnone]
  · -- the slot is free, so this was not the append
    rw [entries_inodeOne] at hend
    exact absurd hend (by decide)

end Map

end Xv6
