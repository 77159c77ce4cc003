import Xv6.Exec.Model

/-!
# Loading the segments

What `exec` keeps of the image it builds (`Inv`): the table has the layout of its size
(`Uvm.Layout`), and with the pool it holds the pages there were once `proc_pagetable` returned.
Every `goto bad` leaves an image with it, so `proc_freepagetable` frees it all; while the
segments are loaded, the pages below the size are also user pages (`UserBelow`), which is what
`loadseg`'s `walkaddr` needs.

* `loadsegLoop_total`: `loadseg` does not panic where each page of the segment is a user page,
  and it only writes memory; `loadsegLoop_mem`: when it returns `0`, the bytes it wrote are those
  of the file from the segment's offset.
* `uvmalloc_inv`: `uvmalloc` from an image with the invariant keeps it, either way it returns.
* `loadPh_ends`: one iteration of the loop over the program headers keeps the invariant on every
  exit, and what a successful one did (`PhLoaded`); `loadSegs_ends`: so does the whole loop.

The pool is at most the pages from `KERNBASE` to `PHYSTOP`. That bounds an image by `2 ^ 27`
bytes (`Inv.pgroundup_le`), so the `uint` counters of `loadseg` never wrap.
-/

namespace Xv6.Exec

open Uvm
open PageTable (PTE_R PTE_U PTE_V)
open Grow (pgroundup_aligned pgroundup_of_aligned le_pgroundup pgroundup_mono)

/-! ### `loadseg` -/

/-- The count `n` of one `readi` of `loadseg`: the rest of the segment, at most a page. -/
def pageChunk (sz i : UInt32) : UInt32 :=
  if sz - i < UInt32.ofNat PGSIZE then sz - i else UInt32.ofNat PGSIZE

@[simp] theorem walkaddr_mem (pt : Pagetable) (m : ℕ → UInt8) (a : ℕ) :
    walkaddr { pt with mem := m } a = walkaddr pt a := rfl

theorem pgsize_toUInt32 : (UInt32.ofNat PGSIZE).toNat = PGSIZE := rfl

theorem pageChunk_toNat {sz i : UInt32} (hi : i < sz) :
    (pageChunk sz i).toNat = min (sz.toNat - i.toNat) PGSIZE := by
  have hle : i ≤ sz := UInt32.le_of_lt hi
  unfold pageChunk
  split_ifs with h
  · rw [UInt32.lt_iff_toNat_lt, UInt32.toNat_sub_of_le _ _ hle, pgsize_toUInt32] at h
    rw [UInt32.toNat_sub_of_le _ _ hle]
    omega
  · rw [UInt32.lt_iff_toNat_lt, UInt32.toNat_sub_of_le _ _ hle, pgsize_toUInt32] at h
    rw [pgsize_toUInt32]
    omega

section Loadseg

variable (va : ℕ) (f : List UInt8) (offset sz : UInt32)

/-- One page of `loadseg` where `walkaddr` finds it. -/
theorem loadsegLoop_succ {fuel : ℕ} {i : UInt32} {pt : Pagetable} (hi : i < sz)
    (hw : walkaddr pt ((va + i.toNat) % 2 ^ 64) = true) :
    loadsegLoop va f offset sz (fuel + 1) i pt =
      let pt' := { pt with
        mem := Store.store id pt.mem (PGROUNDDOWN ((va + i.toNat) % 2 ^ 64))
          (readi f (offset + i) (pageChunk sz i)) }
      if (readi f (offset + i) (pageChunk sz i)).length ≠ (pageChunk sz i).toNat then
        some (pt', false)
      else loadsegLoop va f offset sz fuel (i + UInt32.ofNat PGSIZE) pt' := by
  rw [loadsegLoop, if_pos hi]
  simp only [hw, Bool.not_true, Bool.false_eq_true, if_false]
  rfl

theorem loadsegLoop_of_le {fuel : ℕ} {i : UInt32} {pt : Pagetable} (hi : ¬ i < sz) :
    loadsegLoop va f offset sz fuel i pt = some (pt, true) := by
  cases fuel with
  | zero => rw [loadsegLoop, if_neg hi]
  | succ fuel => rw [loadsegLoop, if_neg hi]

/-- The step of `i` does not wrap below `sz`. -/
theorem next_toNat {sz i : UInt32} (hi : i < sz) (hsz : sz.toNat + PGSIZE < 2 ^ 32) :
    (i + UInt32.ofNat PGSIZE).toNat = i.toNat + PGSIZE := by
  rw [UInt32.lt_iff_toNat_lt] at hi
  rw [UInt32.toNat_add, pgsize_toUInt32, Nat.mod_eq_of_lt (by omega)]

/-- **`loadseg` does not panic** where each page of the segment from `i` on is a user page,
with fuel for the pages left; it only writes memory. -/
theorem loadsegLoop_total (hsz : sz.toNat + PGSIZE < 2 ^ 32) :
    ∀ fuel (i : UInt32) (pt : Pagetable), sz.toNat ≤ i.toNat + fuel * PGSIZE →
      (∀ j, i.toNat ≤ j → j < sz.toNat → walkaddr pt ((va + j) % 2 ^ 64) = true) →
      ∃ m ok, loadsegLoop va f offset sz fuel i pt = some ({ pt with mem := m }, ok) := by
  intro fuel
  induction fuel with
  | zero =>
    intro i pt hfuel _
    rw [loadsegLoop_of_le va f offset sz (by rw [UInt32.lt_iff_toNat_lt]; omega)]
    exact ⟨pt.mem, true, rfl⟩
  | succ fuel ih =>
    intro i pt hfuel hwalk
    by_cases hi : i < sz
    · have hi' := UInt32.lt_iff_toNat_lt.mp hi
      rw [loadsegLoop_succ va f offset sz hi (hwalk i.toNat le_rfl hi')]
      dsimp only
      split_ifs
      · exact ⟨_, false, rfl⟩
      · -- the rest of the segment from the next page on
        have hnext := next_toNat hi hsz
        exact ih _ _ (by rw [hnext]; simp only [PGSIZE] at *; omega)
          fun j h₁ h₂ => by rw [walkaddr_mem]; exact hwalk j (by omega) h₂
    · rw [loadsegLoop_of_le va f offset sz hi]
      exact ⟨pt.mem, true, rfl⟩

/-- A full `readi` reads the file from its offset. -/
theorem getElem?_readi {o n : UInt32} (hn : 0 < n.toNat) (h : (readi f o n).length = n.toNat)
    {k : ℕ} (hk : k < n.toNat) : (readi f o n)[k]? = f[o.toNat + k]? := by
  rw [(readi_of_length hn h).2, List.getElem?_take, if_pos hk, List.getElem?_drop]

/-- **What `loadseg` reads.** Where it returns `0`, each byte of the segment from `i` on is the
file's byte at `offset` plus its place in the segment, with `offset + sz` below `2 ^ 32`; every
other byte is unchanged. -/
theorem loadsegLoop_mem (hva : va % PGSIZE = 0) (hend : va + sz.toNat < 2 ^ 64)
    (hoff : offset.toNat + sz.toNat ≤ 2 ^ 32) (hsz : sz.toNat + PGSIZE < 2 ^ 32) :
    ∀ fuel (i : UInt32) (pt pt' : Pagetable), i.toNat % PGSIZE = 0 →
      loadsegLoop va f offset sz fuel i pt = some (pt', true) → ∀ x,
        (va + i.toNat ≤ x → x < va + sz.toNat → f[offset.toNat + (x - va)]? = some (pt'.mem x)) ∧
        (x < va + i.toNat ∨ va + sz.toNat ≤ x → pt'.mem x = pt.mem x) := by
  intro fuel
  induction fuel with
  | zero =>
    intro i pt pt' _ h x
    rw [loadsegLoop] at h
    split_ifs at h with hi
    cases h
    rw [UInt32.lt_iff_toNat_lt] at hi
    exact ⟨fun h₁ h₂ => absurd h₂ (by omega), fun _ => rfl⟩
  | succ fuel ih =>
    intro i pt pt' hal h x
    by_cases hi : i < sz
    · have hi' := UInt32.lt_iff_toNat_lt.mp hi
      cases hw : walkaddr pt ((va + i.toNat) % 2 ^ 64) with
      | false =>
        rw [loadsegLoop, if_pos hi] at h
        dsimp only at h
        rw [hw] at h
        simp at h
      | true =>
        rw [loadsegLoop_succ va f offset sz hi hw] at h
        dsimp only at h
        split_ifs at h with hshort
        · simp at h
        -- the page read in full; the rest of the segment from the next page on
        have hn := pageChunk_toNat hi
        have hlen : (readi f (offset + i) (pageChunk sz i)).length = min (sz.toNat - i.toNat) PGSIZE := by
          rw [not_not.mp hshort, hn]
        have ho : (offset + i).toNat = offset.toNat + i.toNat := by
          rw [UInt32.toNat_add, Nat.mod_eq_of_lt (by omega)]
        have ha : (va + i.toNat) % 2 ^ 64 = va + i.toNat := Nat.mod_eq_of_lt (by omega)
        have hdown : PGROUNDDOWN (va + i.toNat) = va + i.toNat := by
          unfold PGROUNDDOWN
          simp only [PGSIZE] at *
          omega
        have hnext := next_toNat hi hsz
        obtain ⟨ih₁, ih₂⟩ := ih _ _ _ (by rw [hnext]; simp only [PGSIZE] at *; omega) h x
        rw [hnext] at ih₁ ih₂
        rw [ha, hdown] at ih₂
        dsimp only at ih₂
        refine ⟨fun h₁ h₂ => ?_, fun hx => ?_⟩
        · by_cases hx : va + i.toNat + PGSIZE ≤ x
          · exact ih₁ (by omega) h₂
          · have hk : x - (va + i.toNat) < min (sz.toNat - i.toNat) PGSIZE := by omega
            rw [ih₂ (.inl (by omega)), Store.store_of_mem (by exact h₁) (by simp only [id]; omega),
              ← List.getElem?_eq_getElem, getElem?_readi f (by rw [hn]; simp only [PGSIZE]; omega)
                (by rw [hlen, hn]) (by rw [hn]; exact hk), ho,
              show offset.toNat + i.toNat + (id x - (va + i.toNat)) = offset.toNat + (x - va) by
                simp only [id]; omega]
        · rw [ih₂ (by omega)]
          rcases hx with hx | hx
          · exact Store.store_of_lt (by simp only [id]; omega)
          · exact Store.store_of_le (by rw [hlen]; simp only [id]; omega)
    · rw [loadsegLoop_of_le va f offset sz hi] at h
      cases h
      rw [UInt32.lt_iff_toNat_lt] at hi
      exact ⟨fun h₁ h₂ => absurd h₂ (by omega), fun _ => rfl⟩

end Loadseg

/-! ### The image under construction -/

/-- **What `exec` keeps of the image it builds**: the table has the layout of its size, and with
the pool it holds the `F` pages there were once `proc_pagetable` returned. -/
structure Inv (F : ℕ) (img : Image) : Prop where
  layout : Layout img.pt img.sz
  acct : img.free + owned img.pt img.sz = F

/-- The pages below `PGROUNDUP(sz)` are user pages. -/
def UserBelow (pt : Pagetable) (sz : ℕ) : Prop :=
  ∀ pg < PGROUNDUP sz / PGSIZE, pt.pte pg &&& PTE_U ≠ 0

section Image

variable {F : ℕ} {img : Image}

/-- Bytes written, or tables kept, keep the invariant. -/
theorem Inv.of_tables (h : Inv F img) {pt : Pagetable} (hpte : pt.pte = img.pt.pte)
    (h1 : pt.l1 = img.pt.l1) (h0 : pt.l0 = img.pt.l0) : Inv F { img with pt } where
  layout := h.layout.tables hpte h1.ge h0.ge
  acct := by rw [← h.acct]; simp only [owned, h1, h0]

theorem Inv.mem (h : Inv F img) (m : ℕ → UInt8) : Inv F { img with pt := { img.pt with mem := m } } :=
  h.of_tables rfl rfl rfl

theorem UserBelow.mem {pt : Pagetable} {sz : ℕ} (h : UserBelow pt sz) (m : ℕ → UInt8) :
    UserBelow { pt with mem := m } sz := h

/-- The pages from `KERNBASE` to `PHYSTOP`. -/
theorem pool_eq : (PHYSTOP - KERNBASE) / PGSIZE = 2 ^ 15 := by decide

theorem pool_le_trapframe : (PHYSTOP - KERNBASE) / PGSIZE ≤ TRAPFRAME / PGSIZE := by decide

/-- **The pool bounds the image**: its user pages are among the `F` pages. -/
theorem Inv.pgroundup_le (h : Inv F img) (hF : F ≤ (PHYSTOP - KERNBASE) / PGSIZE) :
    PGROUNDUP img.sz ≤ 2 ^ 27 := by
  have hacc := h.acct
  have hal := pgroundup_aligned img.sz
  unfold owned at hacc
  rw [pool_eq] at hF
  simp only [PGSIZE] at *
  omega

/-- The user pages of the layout below `sz` have `walkaddr`. -/
theorem UserBelow.walkaddr {pt : Pagetable} {sz : ℕ} (hl : Layout pt sz) (hU : UserBelow pt sz)
    {a : ℕ} (ha : a < sz) : Uvm.walkaddr pt a = true := by
  have hkept : a / PGSIZE < PGROUNDUP sz / PGSIZE := by
    have := le_pgroundup sz
    have := pgroundup_aligned sz
    simp only [PGSIZE] at *
    omega
  have hva : a < MAXVA := by
    have := hl.le_trapframe
    have := le_pgroundup sz
    have : TRAPFRAME < MAXVA := by decide
    omega
  exact walkaddr_of_leaf hva (hl.leaf _ (.inl hkept)) (hU _ hkept)

/-- Pages grown with `PTE_U` keep the pages below the size user pages. -/
theorem UserBelow.grow {pt pt' : Pagetable} {sz sz' : ℕ} {xperm : UInt64} (hU : UserBelow pt sz)
    (hg : Uvm.Grown pt pt' (PGROUNDUP sz) (PGROUNDUP sz') (PTE_R ||| PTE_U ||| xperm)) :
    UserBelow pt' sz' := by
  intro pg hpg
  by_cases hlo : pg < PGROUNDUP sz / PGSIZE
  · rw [hg.pte_old pg (.inl hlo)]
    exact hU pg hlo
  · rw [hg.pte_new pg (by omega) hpg]
    exact (user_leaf_flags xperm).2.2

/-- **`uvmalloc` keeps the invariant**, whether it fails (`0`, and the image at its old size) or
grows the image to the larger of its size and `newsz`. -/
theorem uvmalloc_inv (h : Inv F img) (hU : UserBelow img.pt img.sz) (hF : F ≤ TRAPFRAME / PGSIZE)
    (newsz : ℕ) (xperm : UInt64) :
    ∃ pt free sz1, uvmalloc img.pt img.free img.sz newsz xperm = some (pt, free, sz1) ∧
      (sz1 = 0 → Inv F ⟨pt, free, img.sz⟩) ∧
      (sz1 ≠ 0 → sz1 = max img.sz newsz ∧ Inv F ⟨pt, free, sz1⟩ ∧ UserBelow pt sz1 ∧
        Uvm.Grown img.pt pt (PGROUNDUP img.sz) (PGROUNDUP sz1) (PTE_R ||| PTE_U ||| xperm)) := by
  by_cases hlt : newsz < img.sz
  · -- nothing to grow: `uvmalloc` returns `oldsz`
    refine ⟨img.pt, img.free, img.sz, by rw [uvmalloc, if_pos hlt], fun _ => h, fun _ => ?_⟩
    exact ⟨(max_eq_left hlt.le).symm, h, hU, Grown.refl _ _ _⟩
  · obtain ⟨pt, free, sz1, heq, hr⟩ :=
      uvmalloc_spec h.layout (by rw [h.acct]; exact hF) (Nat.not_lt.mp hlt) xperm
    refine ⟨pt, free, sz1, heq, ?_⟩
    rcases hr with ⟨rfl, hl, hacc, hg⟩ | ⟨rfl, hl, hacc⟩
    · have hmax : max img.sz sz1 = sz1 := max_eq_right (Nat.not_lt.mp hlt)
      refine ⟨fun h0 => ?_, fun _ => ⟨hmax.symm, ⟨hl, by rw [hacc, h.acct]⟩, hU.grow hg, hg⟩⟩
      -- growing to size `0` is growing from size `0`
      have hs : img.sz = sz1 := by omega
      exact ⟨hs ▸ hl, by rw [hs, hacc, h.acct]⟩
    · exact ⟨fun _ => ⟨hl, by rw [hacc, h.acct]⟩, fun h0 => absurd rfl h0⟩

end Image

/-! ### The loop over the program headers -/

/-- What one iteration of the loop over the program headers did where it went on: it read a
whole header, and skipped it, or loaded a segment that passed the checks, with the pages up to
its end allocated with its permissions and its bytes read by `loadseg`. -/
def PhLoaded (f : List UInt8) (off : UInt32) (img img' : Image) : Prop :=
  (readi f off (UInt32.ofNat sizeofProghdr)).length = sizeofProghdr ∧
  let ph := Proghdr.ofBytes (readi f off (UInt32.ofNat sizeofProghdr))
  (ph.type ≠ ELF_PROG_LOAD ∧ img' = img) ∨
  (ph.type = ELF_PROG_LOAD ∧ ph.filesz.toNat ≤ ph.memsz.toNat ∧
    ph.vaddr.toNat + ph.memsz.toNat < 2 ^ 64 ∧ ph.vaddr.toNat % PGSIZE = 0 ∧
    img'.sz = max img.sz (ph.vaddr.toNat + ph.memsz.toNat) ∧
    ∃ pt, Uvm.Grown img.pt pt (PGROUNDUP img.sz) (PGROUNDUP img'.sz)
        (PTE_R ||| PTE_U ||| flags2perm ph.flags) ∧
      loadseg pt ph.vaddr.toNat f ph.off.toUInt32 ph.filesz.toUInt32 = some (img'.pt, true))

section Loop

variable {F : ℕ} (hF : F ≤ (PHYSTOP - KERNBASE) / PGSIZE)
include hF

/-- **One program header.** From an image with the invariant and user pages below its size,
every `goto bad` of the iteration leaves the invariant, and going on leaves both and
`PhLoaded`. -/
theorem loadPh_ends (f : List UInt8) (off : UInt32) {img : Image} (h : Inv F img)
    (hU : UserBelow img.pt img.sz) :
    Ends (loadPh f off img) (fun img' => Inv F img' ∧ UserBelow img'.pt img'.sz ∧
      PhLoaded f off img img') (Inv F) := by
  unfold loadPh
  dsimp only
  refine Ends.ite (fun _ => Ends.of_throw h) fun hb => ?_
  refine Ends.ite (fun ht => Ends.of_pure ⟨h, hU, not_not.mp hb, .inl ⟨ht, rfl⟩⟩) fun ht => ?_
  refine Ends.ite (fun _ => Ends.of_throw h) fun hfm => ?_
  refine Ends.ite (fun _ => Ends.of_throw h) fun hwrap => ?_
  refine Ends.ite (fun _ => Ends.of_throw h) fun halign => ?_
  set ph := Proghdr.ofBytes (readi f off (UInt32.ofNat sizeofProghdr))
  -- the checks in the numbers of the segment
  rw [UInt64.lt_iff_toNat_lt, Nat.not_lt] at hfm
  rw [UInt64.lt_iff_toNat_lt, UInt64.toNat_add, Nat.not_lt] at hwrap
  have hend : ph.vaddr.toNat + ph.memsz.toNat < 2 ^ 64 := by
    have := UInt64.toNat_lt ph.vaddr
    have := UInt64.toNat_lt ph.memsz
    by_contra hc
    rw [Nat.mod_eq_sub_mod (by omega), Nat.mod_eq_of_lt (by omega)] at hwrap
    omega
  have hsum : (ph.vaddr + ph.memsz).toNat = ph.vaddr.toNat + ph.memsz.toNat := by
    rw [UInt64.toNat_add, Nat.mod_eq_of_lt hend]
  have hal : ph.vaddr.toNat % PGSIZE = 0 := by
    have := congrArg UInt64.toNat (not_not.mp halign)
    rwa [UInt64.toNat_mod] at this
  obtain ⟨pt, free, sz1, hu, hfail, hok⟩ :=
    uvmalloc_inv h hU (hF.trans pool_le_trapframe) (ph.vaddr + ph.memsz).toNat (flags2perm ph.flags)
  refine Ends.bind (R := (· = (pt, free, sz1))) (Ends.lift hu rfl) ?_
  rintro _ rfl
  dsimp only
  refine Ends.ite (fun h0 => Ends.of_throw (hfail h0)) fun h0 => ?_
  obtain ⟨hsz1, hinv, hU1, hg⟩ := hok h0
  rw [hsum] at hsz1
  -- the segment lies below `sz1`, which the pool bounds
  have hbound : PGROUNDUP sz1 ≤ 2 ^ 27 := hinv.pgroundup_le hF
  have hle := le_pgroundup sz1
  have hfile : ph.filesz.toUInt32.toNat ≤ ph.filesz.toNat := by
    rw [UInt64.toNat_toUInt32]
    exact Nat.mod_le _ _
  obtain ⟨m, ok, hl⟩ := loadsegLoop_total ph.vaddr.toNat f ph.off.toUInt32 ph.filesz.toUInt32
    (by simp only [PGSIZE] at *; omega) (ph.filesz.toUInt32.toNat / PGSIZE + 1) 0 pt
    (by rw [UInt32.toNat_zero]; simp only [PGSIZE]; omega)
    fun j _ hj => by
      rw [Nat.mod_eq_of_lt (by omega)]
      exact hU1.walkaddr hinv.layout (by dsimp only; omega)
  refine Ends.bind (R := (· = ({ pt with mem := m }, ok))) (Ends.lift hl rfl) ?_
  rintro _ rfl
  dsimp only
  refine Ends.ite (fun _ => Ends.of_throw (hinv.mem m)) fun hok' => ?_
  have hok' : ok = true := by simpa using hok'
  subst hok'
  exact Ends.of_pure ⟨hinv.mem m, hU1.mem m, not_not.mp hb,
    .inr ⟨not_not.mp ht, hfm, hend, hal, hsz1, pt, hg, hl⟩⟩

/-- **The loop over the program headers** keeps the invariant and the user pages on every exit. -/
theorem loadSegs_ends (f : List UInt8) (elf : Elfhdr) {img : Image} (h : Inv F img)
    (hU : UserBelow img.pt img.sz) :
    Ends (loadSegs f elf img) (fun img' => Inv F img' ∧ UserBelow img'.pt img'.sz) (Inv F) :=
  Ends.foldlM _ _ (fun _ img => Inv F img ∧ UserBelow img.pt img.sz)
    (fun _ _ _ hs => (loadPh_ends hF f _ hs.1 hs.2).mono (fun _ h' => ⟨h'.1, h'.2.1⟩) fun _ => id)
    img ⟨h, hU⟩

end Loop

end Xv6.Exec
