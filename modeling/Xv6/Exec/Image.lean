import Xv6.Exec.Atomic

/-!
# The image `exec` installs

What `main(argc, argv)` finds after a successful `exec(path, argv)` (`UserImage`): the size is the
end of the `LOAD` segments rounded up to a page, plus the guard page and the stack page; each
segment holds the file's bytes from its offset and then zeros; `sp` points to the `argc + 1`
words of `argv`; `epc` is the entry point; and `p->name` is the last element of the path.

The file is read here as the ELF format lays it out (`elfHeader`, `progHeader`), with every
offset a natural number. `exec` reads it through `uint` and `int` variables: the offset of a
segment goes to `loadseg` as a `uint`, and the offset of a program header is an `int`. Where
the offsets lie below `2 ^ 32`, the two readings agree and the image is the one the format
describes (`exec_user_image`). A segment whose offset is `2 ^ 32` or more is read from its
offset modulo `2 ^ 32` (`exec_loads_truncated_offset`).

* The header loop keeps `SegsUpTo`: for `LOAD` segments in increasing order of `vaddr`, each
  one's pages come fresh from `uvmalloc`, zeroed, above everything loaded before, and `loadseg`
  writes only its file part (`segs_step`).
* The stack stage changes nothing below `PGROUNDUP(sz)` (`StackBuilt.mem_below`).
* `lastStart` finds where the base name starts (`drop_lastStart`), and `safestrcpy` copies at
  most 15 bytes of it and a NUL (`slice_safestrcpy`).
-/

namespace Xv6.Exec

open Uvm
open PageTable (PTE_U PTE_V)
open Grow (pgroundup_aligned pgroundup_of_aligned le_pgroundup)

/-! ### The file as the ELF format lays it out -/

/-- The ELF header: the first `sizeof(struct elfhdr)` bytes. -/
def elfHeader (f : List UInt8) : Elfhdr := Elfhdr.ofBytes (f.take sizeofElfhdr)

/-- Program header `i`, at `phoff + i * sizeof(struct proghdr)`. -/
def progHeader (f : List UInt8) (i : ℕ) : Proghdr :=
  Proghdr.ofBytes ((f.drop ((elfHeader f).phoff.toNat + sizeofProghdr * i)).take sizeofProghdr)

/-- The end of the `LOAD` segments among the first `k` program headers: the largest
`vaddr + memsz`. -/
def loadEnd (f : List UInt8) : ℕ → ℕ
  | 0 => 0
  | k + 1 =>
    if (progHeader f k).type = ELF_PROG_LOAD then
      max (loadEnd f k) ((progHeader f k).vaddr.toNat + (progHeader f k).memsz.toNat)
    else loadEnd f k

/-- The end of all the `LOAD` segments. -/
def imageEnd (f : List UInt8) : ℕ := loadEnd f (elfHeader f).phnum.toNat

/-- Segment `ph` in memory `m`, as the ELF format has it: `filesz ≤ memsz`, the `filesz` bytes of
the file from `off` at `vaddr`, and zeros up to `memsz`. -/
structure Loaded (f : List UInt8) (ph : Proghdr) (m : ℕ → UInt8) : Prop where
  le : ph.filesz.toNat ≤ ph.memsz.toNat
  file : ∀ j < ph.filesz.toNat, f[ph.off.toNat + j]? = some (m (ph.vaddr.toNat + j))
  zero : ∀ j, ph.filesz.toNat ≤ j → j < ph.memsz.toNat → m (ph.vaddr.toNat + j) = 0

/-- The part of a path after its last `/`. -/
def baseName : List UInt8 → List UInt8
  | [] => []
  | c :: cs => if 47 ∈ cs then baseName cs else if c = 47 then cs else c :: cs

/-- **The image `main(argc, argv)` expects** after `exec(path, argv)` of the file `f`. -/
structure UserImage (f : List UInt8) (path : CStr) (argv : List CStr) (r : Result) : Prop where
  argc : r.ret = argv.length
  sz : r.proc.sz = PGROUNDUP (imageEnd f) + 2 * PGSIZE
  guard_valid : r.proc.pagetable.pte ((r.proc.sz - 2 * PGSIZE) / PGSIZE) &&& PTE_V ≠ 0
  guard_user : r.proc.pagetable.pte ((r.proc.sz - 2 * PGSIZE) / PGSIZE) &&& PTE_U = 0
  segment : ∀ i < (elfHeader f).phnum.toNat, (progHeader f i).type = ELF_PROG_LOAD →
    Loaded f (progHeader f i) r.proc.pagetable.mem
  sp_eq : r.proc.trapframe.a1 = r.proc.trapframe.sp
  sp_align : r.proc.trapframe.sp % 16 = 0
  sp_ge : r.proc.sz - PGSIZE ≤ r.proc.trapframe.sp
  sp_lt : r.proc.trapframe.sp < r.proc.sz
  arg : ∀ (i : ℕ) (s : CStr), argv[i]? = some s → ∃ u,
    le (Store.slice r.proc.pagetable.mem (r.proc.trapframe.sp + 8 * i) 8) = u ∧
      r.proc.trapframe.sp ≤ u ∧ u + s.bytes.length < r.proc.sz ∧
      Store.slice r.proc.pagetable.mem u (s.bytes.length + 1) = s.bytes ++ [0]
  null : le (Store.slice r.proc.pagetable.mem (r.proc.trapframe.sp + 8 * argv.length) 8) = 0
  entry : r.proc.trapframe.epc = (elfHeader f).entry.toNat
  name : Store.slice r.proc.name 0 (((baseName path.bytes).take 15).length + 1) =
    (baseName path.bytes).take 15 ++ [0]

/-! ### The program name -/

theorem baseName_suffix : ∀ l : List UInt8, baseName l <:+ l
  | [] => List.suffix_refl _
  | c :: cs => by
    unfold baseName
    split_ifs
    · exact (baseName_suffix cs).trans (List.suffix_cons c cs)
    · exact List.suffix_cons c cs
    · exact List.suffix_refl _

theorem baseName_of_not_mem : ∀ {l : List UInt8}, 47 ∉ l → baseName l = l
  | [], _ => rfl
  | c :: cs, h => by
    rw [List.mem_cons, not_or] at h
    rw [baseName, if_neg h.2, if_neg (Ne.symm h.1)]

/-- `lastStart` from offset `s`: past the last `/`, or `last` where there is none. -/
theorem lastStart_eq : ∀ (l : List UInt8) (s last : ℕ),
    lastStart l s last = if 47 ∈ l then s + (l.length - (baseName l).length) else last
  | [], _, _ => rfl
  | c :: cs, s, last => by
    have hle := (baseName_suffix cs).length_le
    rw [lastStart, lastStart_eq cs]
    by_cases hcs : (47 : UInt8) ∈ cs
    · rw [if_pos hcs, if_pos (List.mem_cons_of_mem c hcs), baseName, if_pos hcs, List.length_cons]
      omega
    · by_cases hc : c = 47
      · rw [if_neg hcs, if_pos hc, if_pos (List.mem_cons.mpr (.inl hc.symm)), baseName, if_neg hcs,
          if_pos hc, List.length_cons]
        omega
      · rw [if_neg hcs, if_neg hc, if_neg (by rw [List.mem_cons, not_or]; exact ⟨Ne.symm hc, hcs⟩)]

/-- The name `exec` copies is the base name of the path. -/
theorem drop_lastStart (l : List UInt8) : l.drop (lastStart l 0 0) = baseName l := by
  rw [lastStart_eq]
  split_ifs with h
  · rw [Nat.zero_add, ← List.suffix_iff_eq_drop.mp (baseName_suffix l)]
  · rw [baseName_of_not_mem h, List.drop_zero]

/-- **The loop of `safestrcpy`** from offset `i` of a string without NUL, with `n + 1` before the
decrement: it copies the bytes up to `i + n` or the string's end, and a NUL after them, and
leaves the bytes before `i`. -/
theorem safestrcpyLoop_spec {t : List UInt8} (ht : 0 ∉ t) :
    ∀ (n i : ℕ) (s : ℕ → UInt8), i ≤ t.length →
      (∀ j, i ≤ j → j < min t.length (i + n) → safestrcpyLoop t (n + 1) i s j = t.getD j 0) ∧
      safestrcpyLoop t (n + 1) i s (min t.length (i + n)) = 0 ∧
      ∀ j < i, safestrcpyLoop t (n + 1) i s j = s j := by
  intro n
  induction n with
  | zero =>
    intro i s hi
    rw [safestrcpyLoop, if_pos rfl, Nat.add_zero, min_eq_right hi]
    exact ⟨fun j h₁ h₂ => absurd h₂ (by omega), Function.update_self .., fun j hj =>
      Function.update_of_ne (by omega) _ _⟩
  | succ n ih =>
    intro i s hi
    rw [safestrcpyLoop, if_neg (Nat.succ_ne_zero n)]
    by_cases hlt : i < t.length
    · -- a byte of the string copied, then the rest from `i + 1`
      have hc : t.getD i 0 ≠ 0 := by
        rw [List.getD_eq_getElem _ _ hlt]
        exact fun h => ht (h ▸ List.getElem_mem hlt)
      rw [if_neg hc]
      obtain ⟨h₁, h₂, h₃⟩ := ih (i + 1) (Function.update s i (t.getD i 0)) hlt
      refine ⟨fun j hj₁ hj₂ => ?_, by rwa [show i + 1 + n = i + (n + 1) by omega] at h₂,
        fun j hj => ?_⟩
      · by_cases hji : j = i
        · rw [hji, h₃ i (by omega), Function.update_self]
        · exact h₁ j (by omega) (by omega)
      · rw [h₃ j (by omega), Function.update_of_ne (by omega)]
    · -- the NUL copied at the end of the string
      have hc : t.getD i 0 = 0 := List.getD_eq_default _ _ (by omega)
      rw [if_pos hc, show min t.length (i + (n + 1)) = i by omega]
      refine ⟨fun j h₁ h₂ => absurd h₂ (by omega), ?_, fun j hj => ?_⟩
      · rw [Function.update_of_ne (by omega), Function.update_self, hc]
      · rw [Function.update_of_ne (by omega), Function.update_of_ne (by omega)]

/-- **`safestrcpy(p->name, last, sizeof(p->name))`** leaves the first 15 bytes of the string and a
NUL. -/
theorem slice_safestrcpy (s : ℕ → UInt8) {t : List UInt8} (ht : 0 ∉ t) :
    Store.slice (safestrcpy s t 16) 0 ((t.take 15).length + 1) = t.take 15 ++ [0] := by
  obtain ⟨h₁, h₂, -⟩ := safestrcpyLoop_spec ht 15 0 s (Nat.zero_le _)
  have hm : (t.take 15).length = min t.length (0 + 15) := by rw [List.length_take]; omega
  have h16 : safestrcpy s t 16 = safestrcpyLoop t (15 + 1) 0 s := by
    rw [safestrcpy, if_neg (by decide)]
  rw [h16]
  apply List.ext_getElem (by simp)
  intro j hj _
  rw [Store.getElem_slice, Nat.zero_add]
  simp only [Store.length_slice] at hj
  by_cases hjm : j < (t.take 15).length
  · rw [List.getElem_append_left hjm, List.getElem_take, h₁ j (Nat.zero_le _) (by omega),
      List.getD_eq_getElem]
  · obtain rfl : j = (t.take 15).length := by omega
    rw [List.getElem_append_right (Nat.le_refl _)]
    simp only [Nat.sub_self, List.getElem_singleton]
    rw [hm]
    exact h₂

/-! ### The segments -/

theorem Loaded.congr {f : List UInt8} {ph : Proghdr} {m m' : ℕ → UInt8} (h : Loaded f ph m)
    (hm : ∀ j < ph.memsz.toNat, m' (ph.vaddr.toNat + j) = m (ph.vaddr.toNat + j)) :
    Loaded f ph m' where
  le := h.le
  file j hj := by
    rw [hm j (by have := h.le; omega)]
    exact h.file j hj
  zero j h₁ h₂ := by
    rw [hm j h₂]
    exact h.zero j h₁ h₂

section LoadEnd

variable {f : List UInt8}

theorem le_loadEnd {i : ℕ} (hl : (progHeader f i).type = ELF_PROG_LOAD) :
    ∀ {k}, i < k → (progHeader f i).vaddr.toNat + (progHeader f i).memsz.toNat ≤ loadEnd f k
  | k + 1, hi => by
    rw [loadEnd]
    by_cases hik : i = k
    · subst hik
      rw [if_pos hl]
      exact le_max_right _ _
    · have := le_loadEnd hl (show i < k by omega)
      split_ifs
      · exact le_max_of_le_left this
      · exact this

theorem loadEnd_le {v : ℕ} (k : ℕ) (h : ∀ i < k, (progHeader f i).type = ELF_PROG_LOAD →
    (progHeader f i).vaddr.toNat + (progHeader f i).memsz.toNat ≤ v) : loadEnd f k ≤ v := by
  induction k with
  | zero => exact Nat.zero_le _
  | succ k ih =>
    have ih' := ih fun i hi => h i (by omega)
    rw [loadEnd]
    split_ifs with hl
    · exact max_le ih' (h k (by omega) hl)
    · exact ih'

end LoadEnd

/-- The first `k` program headers loaded: the size is the end of their `LOAD` segments, and each
of these is in memory. -/
def SegsUpTo (f : List UInt8) (k : ℕ) (img : Image) : Prop :=
  img.sz = loadEnd f k ∧
    ∀ i < k, (progHeader f i).type = ELF_PROG_LOAD → Loaded f (progHeader f i) img.pt.mem

theorem pgroundup_le_of_aligned {a b : ℕ} (hab : a ≤ b) (hb : b % PGSIZE = 0) : PGROUNDUP a ≤ b := by
  unfold PGROUNDUP
  simp only [PGSIZE] at *
  omega

section Segments

variable {f : List UInt8}
  (hph : (elfHeader f).phoff.toNat + sizeofProghdr * (elfHeader f).phnum.toNat ≤ 2 ^ 32)
  (hoff : ∀ i < (elfHeader f).phnum.toNat, (progHeader f i).type = ELF_PROG_LOAD →
    (progHeader f i).off.toNat + (progHeader f i).filesz.toNat ≤ 2 ^ 32)
  (horder : ∀ j < (elfHeader f).phnum.toNat, ∀ i < j, (progHeader f i).type = ELF_PROG_LOAD →
    (progHeader f j).type = ELF_PROG_LOAD →
    (progHeader f i).vaddr.toNat + (progHeader f i).memsz.toNat ≤ (progHeader f j).vaddr.toNat)

include hph in
/-- Below `2 ^ 32`, the `int` offset of program header `k` is its offset. -/
theorem phOff_toNat {k : ℕ} (hk : k < (elfHeader f).phnum.toNat) :
    (phOff (elfHeader f) k).toNat = (elfHeader f).phoff.toNat + sizeofProghdr * k := by
  rw [phOff, UInt32.toNat_ofNat', Nat.mod_eq_of_lt]
  simp only [sizeofProghdr] at *
  omega

include hph in
/-- A whole header read at that offset is the program header. -/
theorem progHeader_of_read {k : ℕ} (hk : k < (elfHeader f).phnum.toNat)
    (hb : (readi f (phOff (elfHeader f) k) (UInt32.ofNat sizeofProghdr)).length = sizeofProghdr) :
    Proghdr.ofBytes (readi f (phOff (elfHeader f) k) (UInt32.ofNat sizeofProghdr)) = progHeader f k := by
  rw [(readi_of_length (by decide) hb).2, phOff_toNat hph hk]
  rfl

include hph hoff horder in
/-- **One program header loaded.** For `LOAD` segments in increasing order of `vaddr` and below
`2 ^ 32` in the file, an iteration that goes on loads header `k` and keeps the earlier segments:
they lie below the new one, and its pages are new. -/
theorem segs_step {F k : ℕ} (hF : F ≤ (PHYSTOP - KERNBASE) / PGSIZE)
    (hk : k < (elfHeader f).phnum.toNat) {img img' : Image} (hs : SegsUpTo f k img)
    (h' : Inv F img') (hl : PhLoaded f (phOff (elfHeader f) k) img img') :
    SegsUpTo f (k + 1) img' := by
  obtain ⟨hb, hl⟩ := hl
  dsimp only at hl
  rw [progHeader_of_read hph hk hb] at hl
  obtain ⟨hsz, hold⟩ := hs
  rcases hl with ⟨ht, rfl⟩ | ⟨ht, hfm, hend, hal, hsz', ptg, hg, hseg⟩
  · -- not a `LOAD` header: nothing changes
    refine ⟨by rw [hsz, loadEnd, if_neg ht], fun i hi hi' => hold i ?_ hi'⟩
    by_contra hik
    exact ht (show i = k by omega ▸ hi')
  · -- the bounds of the new segment
    have hbound : PGROUNDUP img'.sz ≤ 2 ^ 27 := h'.pgroundup_le hF
    have hle' := le_pgroundup img'.sz
    have hfs : (progHeader f k).filesz.toUInt32.toNat = (progHeader f k).filesz.toNat := by
      rw [UInt64.toNat_toUInt32, Nat.mod_eq_of_lt (by omega)]
    have hoffk := hoff k hk ht
    have hoff32 : (progHeader f k).off.toUInt32.toNat = (progHeader f k).off.toNat % 2 ^ 32 :=
      UInt64.toNat_toUInt32 _
    have hmem := loadsegLoop_mem (progHeader f k).vaddr.toNat f (progHeader f k).off.toUInt32
      (progHeader f k).filesz.toUInt32 hal (by omega)
      (by rw [hoff32, hfs]; have := Nat.mod_le (progHeader f k).off.toNat (2 ^ 32); omega)
      (by rw [hfs]; simp only [PGSIZE]; omega) _ 0 ptg img'.pt (by simp) hseg
    rw [hfs] at hmem
    simp only [UInt32.toNat_zero, Nat.add_zero] at hmem
    -- the new segment starts above the old image, at a page boundary
    have hv : PGROUNDUP img.sz ≤ (progHeader f k).vaddr.toNat :=
      pgroundup_le_of_aligned (hsz ▸ loadEnd_le k fun i hi hl => horder k hk i hi hl ht) hal
    refine ⟨by rw [hsz', loadEnd, if_pos ht, hsz], fun i hi hi' => ?_⟩
    by_cases hik : i < k
    · -- an earlier segment: below the new one, and below the old size
      refine (hold i hik hi').congr fun j hj => ?_
      have h₁ := le_loadEnd hi' hik
      have h₂ := horder k hk i hik hi' ht
      rw [(hmem _).2 (.inl (by omega))]
      exact hg.mem_old _ (.inl (by have := le_pgroundup img.sz; omega))
    · -- the segment just loaded: its file part from `loadseg`, the rest zero from `uvmalloc`
      obtain rfl : i = k := by omega
      refine ⟨hfm, fun j hj => ?_, fun j h₁ h₂ => ?_⟩
      · have hj' := (hmem ((progHeader f i).vaddr.toNat + j)).1 (by omega) (by omega)
        rwa [hoff32, Nat.mod_eq_of_lt (by omega), Nat.add_sub_cancel_left] at hj'
      · rw [(hmem _).2 (.inr (by omega))]
        exact hg.mem_new _ (by omega) (by omega)

include hph hoff horder in
/-- **The loop over the program headers** loads every `LOAD` segment. -/
theorem loadSegs_segs {F : ℕ} (hF : F ≤ (PHYSTOP - KERNBASE) / PGSIZE) {img : Image}
    (h : Inv F img) (hU : UserBelow img.pt img.sz) (hs : SegsUpTo f 0 img) :
    Ends (loadSegs f (elfHeader f) img) (fun img' => Inv F img' ∧ UserBelow img'.pt img'.sz ∧
      SegsUpTo f (elfHeader f).phnum.toNat img') (Inv F) := by
  have hloop := Ends.foldlM (fun img i => loadPh f (phOff (elfHeader f) i) img)
    (List.range (elfHeader f).phnum.toNat)
    (fun k img => Inv F img ∧ UserBelow img.pt img.sz ∧ SegsUpTo f k img)
    (fun k hk img hI => by
      rw [List.length_range] at hk
      rw [List.getElem_range]
      exact (loadPh_ends hF f _ hI.1 hI.2.1).mono
        (fun img' h' => ⟨h'.1, h'.2.1, segs_step hph hoff horder hF hk hI.2.2 h'.1 h'.2.2⟩)
        fun _ => id)
    img ⟨h, hU, hs⟩
  rwa [List.length_range] at hloop

end Segments

/-! ### `exec` -/

/-- What a successful `exec` did: the header read, the table from `proc_pagetable`, both stages
returned, and the commit. -/
theorem exec_ok {p : Proc} {free : ℕ} {f : List UInt8} {path : CStr} {argv : List CStr}
    {r : Result} (hr : exec p free (some f) path argv = some r) (hok : r.ret ≠ -1) :
    ∃ pt F img sp argc, (readi f 0 (UInt32.ofNat sizeofElfhdr)).length = sizeofElfhdr ∧
      proc_pagetable free = some (some pt, F) ∧
      (loadSegs f (Elfhdr.ofBytes (readi f 0 (UInt32.ofNat sizeofElfhdr))) ⟨pt, F, 0⟩ >>= fun img =>
        stack img argv).run = some (.ok (img, sp, argc)) ∧
      r.ret = argc ∧
      r.proc = ⟨img.pt, img.sz,
        ⟨(Elfhdr.ofBytes (readi f 0 (UInt32.ofNat sizeofElfhdr))).entry.toNat, sp, sp⟩,
        safestrcpy p.name (path.bytes.drop (lastStart path.bytes 0 0)) 16⟩ := by
  unfold exec at hr
  dsimp only at hr
  split_ifs at hr with hh hm
  · obtain rfl := Option.some.inj hr
    exact absurd rfl hok
  · obtain rfl := Option.some.inj hr
    exact absurd rfl hok
  cases hpt : proc_pagetable free with
  | none => simp [hpt] at hr
  | some res =>
    obtain ⟨opt, F⟩ := res
    rw [hpt] at hr
    cases opt with
    | none =>
      obtain rfl := Option.some.inj hr
      exact absurd rfl hok
    | some pt =>
      dsimp only at hr
      cases hrun : (loadSegs f (Elfhdr.ofBytes (readi f 0 (UInt32.ofNat sizeofElfhdr))) ⟨pt, F, 0⟩ >>=
          fun img => stack img argv).run with
      | none => simp [hrun] at hr
      | some e =>
        rw [hrun] at hr
        cases e with
        | error img =>
          obtain ⟨_, -, rfl⟩ := Option.map_eq_some_iff.mp hr
          exact absurd rfl hok
        | ok res =>
          obtain ⟨img, sp, argc⟩ := res
          obtain ⟨_, -, rfl⟩ := Option.map_eq_some_iff.mp hr
          exact ⟨pt, F, img, sp, argc, not_not.mp hh, rfl, hrun, rfl, rfl⟩

/-- **The image `exec` installs.** For a pool no larger than the pages from `KERNBASE` to
`PHYSTOP` and a file whose program headers and `LOAD`
segments lie below offset `2 ^ 32`, with the segments in increasing, non-overlapping order of
`vaddr`: a successful `exec(path, argv)` leaves the image `main(argc, argv)` expects. -/
theorem exec_user_image (p : Proc) {free : ℕ}
    (hfree : free ≤ (PHYSTOP - KERNBASE) / PGSIZE) (f : List UInt8) (path : CStr)
    (argv : List CStr)
    (hph : (elfHeader f).phoff.toNat + sizeofProghdr * (elfHeader f).phnum.toNat ≤ 2 ^ 32)
    (hoff : ∀ i < (elfHeader f).phnum.toNat, (progHeader f i).type = ELF_PROG_LOAD →
      (progHeader f i).off.toNat + (progHeader f i).filesz.toNat ≤ 2 ^ 32)
    (horder : ∀ j < (elfHeader f).phnum.toNat, ∀ i < j, (progHeader f i).type = ELF_PROG_LOAD →
      (progHeader f j).type = ELF_PROG_LOAD →
      (progHeader f i).vaddr.toNat + (progHeader f i).memsz.toNat ≤ (progHeader f j).vaddr.toNat)
    {r : Result} (hr : exec p free (some f) path argv = some r) (hok : r.ret ≠ -1) :
    UserImage f path argv r := by
  obtain ⟨pt, F, img', sp, argc, hh, hpt, hrun, hret, hproc⟩ := exec_ok hr hok
  have helf : Elfhdr.ofBytes (readi f 0 (UInt32.ofNat sizeofElfhdr)) = elfHeader f := by
    rw [(readi_of_length (by decide) hh).2]
    rfl
  rw [helf] at hrun hproc
  -- the table `proc_pagetable` returned has the layout of size `0`
  obtain ⟨hl, hacc⟩ : Layout pt 0 ∧ F + owned pt 0 = free := by
    rcases proc_pagetable_spec free with h0 | ⟨pt', F', hpt', hl, hacc⟩
    · rw [hpt] at h0
      simp at h0
    · rw [hpt] at hpt'
      simp only [Option.some.injEq, Prod.mk.injEq] at hpt'
      obtain ⟨rfl, rfl⟩ := hpt'
      exact ⟨hl, hacc⟩
  have hinv : Inv free ⟨pt, F, 0⟩ := ⟨hl, hacc⟩
  have hU : UserBelow pt 0 := fun pg hpg => absurd hpg (by simp [show PGROUNDUP 0 = 0 from rfl])
  have hs0 : SegsUpTo f 0 ⟨pt, F, 0⟩ := ⟨rfl, fun i hi => absurd hi (Nat.not_lt_zero i)⟩
  -- the segments, then the stack
  have hends := (loadSegs_segs hph hoff horder hfree hinv hU hs0).bind
    (f := fun img => stack img argv)
    (Q := fun r => Inv free r.1 ∧ ∃ img, SegsUpTo f (elfHeader f).phnum.toNat img ∧
      StackBuilt img argv r)
    fun img h => (stack_ends hfree h.1 h.2.1 argv).mono (fun r h' => ⟨h'.1, img, h.2.2, h'.2⟩)
      fun _ => id
  obtain ⟨hinv', img, ⟨hsz, hsegs⟩, hb⟩ := hends.of_run_ok hrun
  obtain ⟨ret, proc, free', calls⟩ := r
  dsimp only at hret hproc hinv'
  subst hret hproc
  -- the bounds of the new image
  have hszb : img'.sz = PGROUNDUP img.sz + 2 * PGSIZE := hb.sz
  have htop := hinv'.layout.le_trapframe
  have hT64 : TRAPFRAME < 2 ^ 64 := by decide
  have hal := pgroundup_aligned img.sz
  have hal' : img'.sz % PGSIZE = 0 := by rw [hszb]; simp only [PGSIZE] at *; omega
  rw [pgroundup_of_aligned hal'] at htop
  have hguard : (img'.sz - 2 * PGSIZE) / PGSIZE = PGROUNDUP img.sz / PGSIZE := by
    rw [hszb, Nat.add_sub_cancel]
  have hspb : sp + 8 * (argv.length + 1) ≤ img'.sz := hb.sp_le
  have hspg : PGROUNDUP img.sz + PGSIZE ≤ sp := hb.sp_ge
  refine ⟨congrArg Nat.cast hb.argc, by rw [hszb, hsz]; rfl, ?_, ?_, fun i hi hl => ?_, rfl,
    hb.sp_align, ?_, ?_, fun i s hs => ?_, ?_, rfl, ?_⟩
  · -- the guard page is a leaf of the layout
    show img'.pt.pte _ &&& PTE_V ≠ 0
    rw [hguard]
    refine (hinv'.layout.leaf _ (.inl ?_)).valid
    rw [pgroundup_of_aligned hal', hszb]
    simp only [PGSIZE] at *
    omega
  · show img'.pt.pte _ &&& PTE_U = 0
    rw [hguard]
    exact hb.guard
  · -- a segment lies below the old size, which the stack stage leaves alone
    refine (hsegs i hi hl).congr fun j hj => hb.mem_below _ ?_
    have := le_loadEnd hl hi
    have := le_pgroundup img.sz
    omega
  · show img'.sz - PGSIZE ≤ sp
    omega
  · show sp < img'.sz
    omega
  · obtain ⟨u, hw, hu₁, hu₂, hu₃⟩ : ∃ u, Store.slice img'.pt.mem (sp + 8 * i) 8 = leBytes 8 u ∧
        sp + 8 * (argv.length + 1) ≤ u ∧ u + (s.bytes.length + 1) ≤ img'.sz ∧
        Store.slice img'.pt.mem u (s.bytes.length + 1) = s.bytes ++ [0] := hb.arg i s hs
    refine ⟨u, ?_, show sp ≤ u by omega, show u + s.bytes.length < img'.sz by omega, hu₃⟩
    show le (Store.slice img'.pt.mem (sp + 8 * i) 8) = u
    rw [hw, le_leBytes, Nat.mod_eq_of_lt (by omega)]
  · show le (Store.slice img'.pt.mem (sp + 8 * argv.length) 8) = 0
    rw [show sp = (img', sp, argc).2.1 from rfl, hb.null, le_leBytes, Nat.zero_mod]
  · show Store.slice (safestrcpy p.name (path.bytes.drop (lastStart path.bytes 0 0)) 16) 0 _ = _
    rw [drop_lastStart]
    exact slice_safestrcpy _ fun h => path.no_nul ((baseName_suffix _).subset h)

/-- An ELF file with one `LOAD` segment of one byte at `vaddr` `0`, its bytes at offset `off`,
and after the headers the byte `0x13`. -/
def oneByteElf (off : ℕ) : List UInt8 :=
  [0x7F, 0x45, 0x4C, 0x46] ++ List.replicate 20 0 ++ leBytes 8 0 ++ leBytes 8 64 ++
    List.replicate 16 0 ++ leBytes 2 1 ++ List.replicate 6 0 ++
  leBytes 4 1 ++ leBytes 4 0 ++ leBytes 8 off ++ leBytes 8 0 ++ leBytes 8 0 ++ leBytes 8 1 ++
    leBytes 8 1 ++ leBytes 8 0 ++ [0x13]

/-- `exec` of the file whose segment is its last byte, with one argument. -/
theorem exec_user_image_one_byte :
    12 ≤ (PHYSTOP - KERNBASE) / PGSIZE ∧
    (elfHeader (oneByteElf 120)).phoff.toNat +
      sizeofProghdr * (elfHeader (oneByteElf 120)).phnum.toNat ≤ 2 ^ 32 ∧
    (∀ i < (elfHeader (oneByteElf 120)).phnum.toNat,
      (progHeader (oneByteElf 120) i).type = ELF_PROG_LOAD →
      (progHeader (oneByteElf 120) i).off.toNat + (progHeader (oneByteElf 120) i).filesz.toNat ≤
        2 ^ 32) ∧
    (∀ j < (elfHeader (oneByteElf 120)).phnum.toNat, ∀ i < j,
      (progHeader (oneByteElf 120) i).type = ELF_PROG_LOAD →
      (progHeader (oneByteElf 120) j).type = ELF_PROG_LOAD →
      (progHeader (oneByteElf 120) i).vaddr.toNat + (progHeader (oneByteElf 120) i).memsz.toNat ≤
        (progHeader (oneByteElf 120) j).vaddr.toNat) ∧
    ∃ r, exec ⟨trampolineTable, 0, ⟨0, 0, 0⟩, fun _ => 0⟩ 12 (some (oneByteElf 120))
        ⟨[47, 98], by decide⟩ [⟨[97], by decide⟩] = some r ∧ r.ret ≠ -1 ∧
      UserImage (oneByteElf 120) ⟨[47, 98], by decide⟩ [⟨[97], by decide⟩] r := by
  have hs : (exec ⟨trampolineTable, 0, ⟨0, 0, 0⟩, fun _ => 0⟩ 12 (some (oneByteElf 120))
      ⟨[47, 98], by decide⟩ [⟨[97], by decide⟩]).isSome = true := by set_option maxRecDepth 20000 in decide
  obtain ⟨r, hr⟩ := Option.isSome_iff_exists.mp hs
  have hret : (exec ⟨trampolineTable, 0, ⟨0, 0, 0⟩, fun _ => 0⟩ 12 (some (oneByteElf 120))
      ⟨[47, 98], by decide⟩ [⟨[97], by decide⟩]).map Result.ret = some 1 := by set_option maxRecDepth 20000 in decide
  rw [hr, Option.map_some, Option.some.injEq] at hret
  have hok : r.ret ≠ -1 := by rw [hret]; decide
  exact ⟨by decide, by decide, by decide, by decide, r, hr, hok,
    exec_user_image _ (by decide) _ _ _ (by decide) (by decide) (by decide) hr hok⟩

/-- **`loadseg` cuts the segment's offset to a `uint`.** A file of 121 bytes whose `LOAD`
segment has its byte at offset `2 ^ 32`, past the end of the file, is accepted: `exec` returns
`0` and loads the byte at offset `0`, the first byte of the ELF magic, so the image is not the
one the format describes. -/
theorem exec_loads_truncated_offset :
    ∃ r, exec ⟨trampolineTable, 0, ⟨0, 0, 0⟩, fun _ => 0⟩ 12 (some (oneByteElf (2 ^ 32)))
        ⟨[47, 97], by decide⟩ [] = some r ∧
      r.ret = 0 ∧ ¬ UserImage (oneByteElf (2 ^ 32)) ⟨[47, 97], by decide⟩ [] r ∧
      (progHeader (oneByteElf (2 ^ 32)) 0).off.toNat = 2 ^ 32 ∧
      (oneByteElf (2 ^ 32)).length < 2 ^ 32 ∧
      r.proc.pagetable.mem (progHeader (oneByteElf (2 ^ 32)) 0).vaddr.toNat =
        (oneByteElf (2 ^ 32))[0]! := by
  have hs : (exec ⟨trampolineTable, 0, ⟨0, 0, 0⟩, fun _ => 0⟩ 12 (some (oneByteElf (2 ^ 32)))
      ⟨[47, 97], by decide⟩ []).isSome = true := by set_option maxRecDepth 20000 in decide
  obtain ⟨r, hr⟩ := Option.isSome_iff_exists.mp hs
  have hrun : (exec ⟨trampolineTable, 0, ⟨0, 0, 0⟩, fun _ => 0⟩ 12 (some (oneByteElf (2 ^ 32)))
      ⟨[47, 97], by decide⟩ []).map (fun r => (r.ret, r.proc.pagetable.mem 0)) = some (0, 0x7F) := by
    set_option maxRecDepth 20000 in decide
  rw [hr, Option.map_some, Option.some.injEq, Prod.mk.injEq] at hrun
  refine ⟨r, hr, hrun.1, fun himg => ?_, by decide, by decide, ?_⟩
  · -- the segment's byte is not in the file, whatever memory holds
    have hseg := (himg.segment 0 (by decide) (by decide)).file 0 (by decide)
    rw [List.getElem?_eq_none (by decide)] at hseg
    exact Option.some_ne_none _ hseg.symm
  · rw [show (progHeader (oneByteElf (2 ^ 32)) 0).vaddr.toNat = 0 by decide, hrun.2]
    decide

end Xv6.Exec
