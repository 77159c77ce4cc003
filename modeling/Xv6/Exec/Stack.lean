import Xv6.Exec.Load

/-!
# The user stack

After the segments, `exec` allocates two pages at `PGROUNDUP(sz)`, clears `PTE_U` in the first
(the guard page), and builds the stack in the second: the argument strings, each with its NUL and
at a 16-byte boundary, from the top down, and below them the array of pointers to them ended by
`0`. Every step can fail and jump to `bad`; none panics.

* `pushArg_ends`: one string pushed keeps `Pushed`, which says where the strings so far are;
* `stack_ends`: the stage keeps the invariant on every exit, and on success leaves the layout
  `StackBuilt` states: the guard page, `sp`, the pointers and the strings, and everything below
  `PGROUNDUP(sz)` as it was.

`sp -= n` is `uint64` arithmetic; a `copyout` that succeeds wrote below `MAXVA`
(`copyout_ok_le`), so on success no subtraction wrapped (`sub64_of_round`).
-/

namespace Xv6.Exec

open Uvm
open PageTable (PTE_R PTE_U PTE_V PTE_W)
open Grow (pgroundup_aligned pgroundup_of_aligned le_pgroundup)

/-! ### `sp` and `copyout` -/

/-- `sp -= n` did not wrap where the `n` bytes then written from `sp` rounded down to 16 lie
below `MAXVA`. -/
theorem sub64_of_round {sp n : ℕ} (hsp : sp < 2 ^ 64)
    (h : sub64 sp n - sub64 sp n % 16 + n ≤ MAXVA) : n ≤ sp ∧ sub64 sp n = sp - n := by
  unfold sub64 at *
  have hM : MAXVA = 2 ^ 38 := rfl
  rw [hM] at h
  simp only [Nat.reducePow] at *
  omega

/-- A `copyout` that returns `0` wrote below `MAXVA`. -/
theorem copyout_ok_le {pt : Pagetable} {dst : ℕ} {src : List UInt8}
    (h : (Uvm.copyout pt dst src).2 = true) (hne : src ≠ []) : dst + src.length ≤ MAXVA := by
  obtain ⟨j, -, heq, hw, -⟩ := Xv6.copyout_spec (space pt) src.length dst src le_rfl
  have h' : (Xv6.copyout (space pt) src.length dst src).2 = true := h
  rw [heq] at h'
  have hj : j = src.length := of_decide_eq_true h'
  have hpos : 0 < src.length := List.length_pos_iff.mpr hne
  -- the page of the last byte is below `MAXVA`
  have hlast := hw (src.length - 1) (by omega)
  unfold Space.Writable Space.canWrite at hlast
  simp only [Bool.and_eq_true, decide_eq_true_eq] at hlast
  have hlt := hlast.1.1
  have hM : MAXVA = 2 ^ 38 := rfl
  unfold PGROUNDDOWN at hlt
  simp only [hM, PGSIZE] at *
  omega

/-- A table that only had bytes written keeps the invariant. -/
theorem Inv.congr {F : ℕ} {img img' : Image} (h : Inv F img) (hpte : img'.pt.pte = img.pt.pte)
    (h1 : img'.pt.l1 = img.pt.l1) (h0 : img'.pt.l0 = img.pt.l0) (hfree : img'.free = img.free)
    (hsz : img'.sz = img.sz) : Inv F img' where
  layout := hsz ▸ h.layout.tables hpte h1.ge h0.ge
  acct := by rw [← h.acct, hfree, hsz]; simp only [owned, h1, h0]

/-! ### Pushing the strings -/

section Push

variable (base : Pagetable) (free stackbase sz1 : ℕ) (argv : List CStr)

/-- The stack with `k` strings of `argv` pushed: the image is the one with the stack pages, with
only bytes from `stackbase` on written, and `ustack` holds `k` pointers, each to its string and
its NUL, between `sp` and the top `sz1`. -/
structure Pushed (k : ℕ) (st : Image × ℕ × List ℕ) : Prop where
  pte : st.1.pt.pte = base.pte
  l1 : st.1.pt.l1 = base.l1
  l0 : st.1.pt.l0 = base.l0
  free : st.1.free = free
  sz : st.1.sz = sz1
  below : ∀ x < stackbase, st.1.pt.mem x = base.mem x
  length : st.2.2.length = k
  sp_ge : stackbase ≤ st.2.1
  sp_le : st.2.1 ≤ sz1
  str : ∀ (i : ℕ) (s : CStr) (u : ℕ), argv[i]? = some s → st.2.2[i]? = some u →
    st.2.1 ≤ u ∧ u + (s.bytes.length + 1) ≤ sz1 ∧
      Store.slice st.1.pt.mem u (s.bytes.length + 1) = s.bytes ++ [0]

variable {base free stackbase sz1 argv}

theorem Pushed.init (h : stackbase ≤ sz1) :
    Pushed base free stackbase sz1 argv 0 (⟨base, free, sz1⟩, sz1, []) where
  pte := rfl
  l1 := rfl
  l0 := rfl
  free := rfl
  sz := rfl
  below _ _ := rfl
  length := rfl
  sp_ge := h
  sp_le := le_rfl
  str _ _ _ _ hu := by simp at hu

theorem Pushed.inv {F k : ℕ} {st : Image × ℕ × List ℕ} (h : Pushed base free stackbase sz1 argv k st)
    (hb : Inv F ⟨base, free, sz1⟩) : Inv F st.1 :=
  hb.congr h.pte h.l1 h.l0 h.free h.sz

/-- **One string pushed.** `argv[k]` goes below `sp`, rounded down to 16, and above `stackbase`;
every exit keeps the invariant. -/
theorem pushArg_ends {F : ℕ} (hb : Inv F ⟨base, free, sz1⟩) (hsz1 : sz1 < 2 ^ 64) {k : ℕ}
    (hk : k < argv.length) {st : Image × ℕ × List ℕ} (h : Pushed base free stackbase sz1 argv k st) :
    Ends (pushArg stackbase st argv[k]) (Pushed base free stackbase sz1 argv (k + 1)) (Inv F) := by
  obtain ⟨img, sp, ustack⟩ := st
  have hinv : Inv F img := h.inv hb
  have hsp : sp ≤ sz1 := h.sp_le
  have hlen0 : ustack.length = k := h.length
  rw [pushArg]
  dsimp only
  refine Ends.ite (fun _ => Ends.of_throw hinv) fun _ => ?_
  set sp' := sub64 sp (argv[k].bytes.length + 1) - sub64 sp (argv[k].bytes.length + 1) % 16
    with hsp'
  refine Ends.ite (fun _ => Ends.of_throw hinv) fun hbase => ?_
  -- `copyout` writes bytes only, whether it fails or not
  have hinv' : Inv F { img with pt := (Uvm.copyout img.pt sp' (argv[k].bytes ++ [0])).1 } :=
    hinv.congr rfl rfl rfl rfl rfl
  refine Ends.ite (fun _ => Ends.of_throw hinv') fun hok => ?_
  have hok : (Uvm.copyout img.pt sp' (argv[k].bytes ++ [0])).2 = true := by simpa using hok
  have hlen : (argv[k].bytes ++ [0]).length = argv[k].bytes.length + 1 := by simp
  -- the string went below `sp`: the subtraction did not wrap
  have hfit := copyout_ok_le hok (by simp)
  rw [hlen] at hfit
  obtain ⟨hle, hsub⟩ := sub64_of_round (by omega) hfit
  have hsp'le : sp' + (argv[k].bytes.length + 1) ≤ sp := by rw [hsp', hsub]; omega
  have hmem := copyout_mem hok
  refine Ends.of_pure ⟨h.pte, h.l1, h.l0, h.free, h.sz, fun x hx => ?_, ?_, Nat.not_lt.mp hbase,
    show sp' ≤ sz1 by omega, fun i s u hs hu => ?_⟩
  · show (Uvm.copyout img.pt sp' _).1.mem x = base.mem x
    rw [hmem, Store.store_of_lt (by simp only [id]; omega)]
    exact h.below x hx
  · show (ustack ++ [sp']).length = k + 1
    rw [List.length_append, hlen0, List.length_singleton]
  · show sp' ≤ u ∧ u + (s.bytes.length + 1) ≤ sz1 ∧
      Store.slice (Uvm.copyout img.pt sp' _).1.mem u (s.bytes.length + 1) = s.bytes ++ [0]
    rw [hmem]
    have hi : i < k + 1 := by
      have := (List.getElem?_eq_some_iff.mp hu).1
      rwa [List.length_append, hlen0, List.length_singleton] at this
    by_cases hik : i < k
    · -- an earlier string, above `sp` and so above what was written
      rw [List.getElem?_append_left (by rw [hlen0]; exact hik)] at hu
      obtain ⟨hu₁, hu₂, hu₃⟩ : sp ≤ u ∧ u + (s.bytes.length + 1) ≤ sz1 ∧
          Store.slice img.pt.mem u (s.bytes.length + 1) = s.bytes ++ [0] := h.str i s u hs hu
      refine ⟨by omega, hu₂, ?_⟩
      rw [Store.slice_store_of_disjoint _ (.inl (by rw [hlen]; omega))]
      exact hu₃
    · -- the string just pushed
      have hik : i = k := by omega
      subst hik
      rw [List.getElem?_append_right (by rw [hlen0]), hlen0, Nat.sub_self] at hu
      have hs' : s = argv[i] := ((List.getElem?_eq_some_iff.mp hs).2).symm
      obtain rfl : u = sp' := by simpa using hu.symm
      subst hs'
      refine ⟨le_rfl, by omega, ?_⟩
      rw [← hlen, Store.slice_store]

end Push

/-! ### The stage -/

/-- The array of pointers, read back word by word. -/
theorem slice_words (m : ℕ → UInt8) (sp : ℕ) (ws : List ℕ) {i : ℕ} (hi : i < ws.length) :
    Store.slice (Store.store id m sp (ws.flatMap (leBytes 8))) (sp + 8 * i) 8 = leBytes 8 ws[i] := by
  have hw : ∀ w, (leBytes 8 w).length = 8 := fun w => length_leBytes 8 w
  rw [Store.slice_store_inside _ _ _ (by rw [Store.length_flatMap_of_width _ hw]; omega),
    Store.take_drop_flatMap _ hw _ hi]

/-- **What the stack stage builds.** The image grows by the guard page at `PGROUNDUP(sz)`, now
without `PTE_U`, and the stack page; `sp` is 16-aligned in the stack page with the `argc + 1`
words of `ustack` above it: a pointer to each argument string, whose bytes and NUL lie between
the words and the top, and `0`. Below `PGROUNDUP(sz)` nothing changed. -/
structure StackBuilt (img : Image) (argv : List CStr) (r : Image × ℕ × ℕ) : Prop where
  argc : r.2.2 = argv.length
  sz : r.1.sz = PGROUNDUP img.sz + 2 * PGSIZE
  guard : r.1.pt.pte (PGROUNDUP img.sz / PGSIZE) &&& PTE_U = 0
  pte_below : ∀ pg < PGROUNDUP img.sz / PGSIZE, r.1.pt.pte pg = img.pt.pte pg
  mem_below : ∀ x < PGROUNDUP img.sz, r.1.pt.mem x = img.pt.mem x
  sp_align : r.2.1 % 16 = 0
  sp_ge : PGROUNDUP img.sz + PGSIZE ≤ r.2.1
  sp_le : r.2.1 + 8 * (argv.length + 1) ≤ r.1.sz
  arg : ∀ (i : ℕ) (s : CStr), argv[i]? = some s → ∃ u,
    Store.slice r.1.pt.mem (r.2.1 + 8 * i) 8 = leBytes 8 u ∧ r.2.1 + 8 * (argv.length + 1) ≤ u ∧
      u + (s.bytes.length + 1) ≤ r.1.sz ∧
      Store.slice r.1.pt.mem u (s.bytes.length + 1) = s.bytes ++ [0]
  null : Store.slice r.1.pt.mem (r.2.1 + 8 * argv.length) 8 = leBytes 8 0

/-- **The stack stage.** From an image with the invariant, every `goto bad` keeps the invariant,
and success keeps it and builds `StackBuilt`. -/
theorem stack_ends {F : ℕ} (hF : F ≤ (PHYSTOP - KERNBASE) / PGSIZE) {img : Image} (h : Inv F img)
    (hU : UserBelow img.pt img.sz) (argv : List CStr) :
    Ends (stack img argv) (fun r => Inv F r.1 ∧ StackBuilt img argv r) (Inv F) := by
  have hal : PGROUNDUP img.sz % PGSIZE = 0 := pgroundup_aligned _
  have hs0 : PGROUNDUP (PGROUNDUP img.sz) = PGROUNDUP img.sz := pgroundup_of_aligned hal
  -- the image at `sz = PGROUNDUP(sz)`
  have h0 : Inv F ⟨img.pt, img.free, PGROUNDUP img.sz⟩ :=
    ⟨h.layout.of_pgroundup hs0.symm, by rw [← h.acct]; exact congrArg _ (owned_of_pgroundup hs0)⟩
  have hU0 : UserBelow img.pt (PGROUNDUP img.sz) := by
    unfold UserBelow
    rw [hs0]
    exact hU
  obtain ⟨ptA, freeA, sz1, hu, hfail, hok⟩ := uvmalloc_inv h0 hU0 (hF.trans pool_le_trapframe)
    (PGROUNDUP img.sz + 2 * PGSIZE) PTE_W
  unfold stack
  refine Ends.bind (R := (· = (ptA, freeA, sz1))) (Ends.lift hu rfl) ?_
  rintro _ rfl
  dsimp only
  refine Ends.ite (fun hz => Ends.of_throw (hfail hz)) fun hz => ?_
  obtain ⟨hmax, hinvA, -, hg⟩ := hok hz
  have hsz1 : sz1 = PGROUNDUP img.sz + 2 * PGSIZE := by dsimp only at hmax; omega
  have hq : sz1 - 2 * PGSIZE = PGROUNDUP img.sz := by omega
  have hal1 : sz1 % PGSIZE = 0 := by rw [hsz1]; simp only [PGSIZE] at *; omega
  have htop : sz1 ≤ TRAPFRAME := by
    have := hinvA.layout.le_trapframe
    rwa [pgroundup_of_aligned hal1] at this
  have hT : TRAPFRAME < MAXVA := by decide
  have hT64 : TRAPFRAME < 2 ^ 64 := by decide
  -- the guard page: a leaf of the new layout, whose `PTE_U` `uvmclear` clears
  have hleaf : Leaf ptA (PGROUNDUP img.sz / PGSIZE) := by
    refine hinvA.layout.leaf _ (.inl ?_)
    rw [pgroundup_of_aligned hal1, hsz1]
    simp only [PGSIZE] at *
    omega
  have hleaf' : Leaf ptA ((sz1 - 2 * PGSIZE) / PGSIZE) := by rw [hq]; exact hleaf
  have hclear := uvmclear_eq (by omega) hleaf'
  rw [hq] at hclear ⊢
  set ptB : Pagetable := { ptA with
    pte := (Function.update ptA.pte (PGROUNDUP img.sz / PGSIZE)
      (ptA.pte (PGROUNDUP img.sz / PGSIZE) &&& ~~~PTE_U)) } with hptB
  refine Ends.bind (R := (· = ptB)) (Ends.lift hclear rfl) ?_
  rintro _ rfl
  have hB : Inv F ⟨ptB, freeA, sz1⟩ := ⟨hinvA.layout.clearU _, hinvA.acct⟩
  -- the loop over `argv`
  refine Ends.bind (Ends.foldlM _ argv (Pushed ptB freeA (sz1 - PGSIZE) sz1 argv)
    (fun k hk st hst => pushArg_ends hB (by omega) hk hst) _ (Pushed.init (by omega))) ?_
  rintro ⟨imgK, spK, ustack⟩ hP
  have hinvK : Inv F imgK := hP.inv hB
  have hspK : sz1 - PGSIZE ≤ spK ∧ spK ≤ sz1 := ⟨hP.sp_ge, hP.sp_le⟩
  have hk : ustack.length = argv.length := hP.length
  have hszK : imgK.sz = sz1 := hP.sz
  have hpteK : imgK.pt.pte = ptB.pte := hP.pte
  dsimp only
  refine Ends.ite (fun _ => Ends.of_throw hinvK) fun hbase => ?_
  set sp := sub64 spK ((ustack.length + 1) * 8) - sub64 spK ((ustack.length + 1) * 8) % 16 with hsp
  set ws := (ustack ++ [0]).flatMap (leBytes 8) with hws
  have hinv' : Inv F { imgK with pt := (Uvm.copyout imgK.pt sp ws).1 } :=
    hinvK.congr rfl rfl rfl rfl rfl
  refine Ends.ite (fun _ => Ends.of_throw hinv') fun hok => ?_
  have hok : (Uvm.copyout imgK.pt sp ws).2 = true := by simpa using hok
  have hwlen : ws.length = (ustack.length + 1) * 8 := by
    rw [hws, Store.length_flatMap_of_width _ fun w => length_leBytes 8 w, List.length_append,
      List.length_singleton, Nat.mul_comm]
  -- the words went below `spK`: the subtraction did not wrap
  have hfit := copyout_ok_le hok (by rw [← List.length_pos_iff, hwlen]; omega)
  rw [hwlen] at hfit
  obtain ⟨hle, hsub⟩ := sub64_of_round (by omega) hfit
  have hsple : sp + (ustack.length + 1) * 8 ≤ spK := by rw [hsp, hsub]; omega
  have hmem := copyout_mem hok
  refine Ends.of_pure ⟨hinv', hk, hszK.trans hsz1, ?_, fun pg hpg => ?_, fun x hx => ?_,
    show sp % 16 = 0 by omega, show PGROUNDUP img.sz + PGSIZE ≤ sp by omega,
    show sp + 8 * (argv.length + 1) ≤ imgK.sz by omega, fun i s hs => ?_, ?_⟩
  · show imgK.pt.pte _ &&& PTE_U = 0
    rw [hpteK, hptB]
    dsimp only
    rw [Function.update_self]
    exact Bits.and_not_and_self _ _
  · show imgK.pt.pte pg = img.pt.pte pg
    rw [hpteK, hptB]
    dsimp only
    rw [Function.update_of_ne (by omega)]
    exact hg.pte_old pg (.inl (by rw [hs0]; exact hpg))
  · show (Uvm.copyout imgK.pt sp ws).1.mem x = img.pt.mem x
    rw [hmem, Store.store_of_lt (by simp only [id]; omega), hP.below x (by omega)]
    exact hg.mem_old x (.inl (by rw [hs0]; exact hx))
  · show ∃ u, Store.slice (Uvm.copyout imgK.pt sp ws).1.mem (sp + 8 * i) 8 = leBytes 8 u ∧ _
    have hi : i < ustack.length := by rw [hk]; exact (List.getElem?_eq_some_iff.mp hs).1
    obtain ⟨hu₁, hu₂, hu₃⟩ : spK ≤ ustack[i] ∧ ustack[i] + (s.bytes.length + 1) ≤ sz1 ∧
        Store.slice imgK.pt.mem ustack[i] (s.bytes.length + 1) = s.bytes ++ [0] :=
      hP.str i s ustack[i] hs (List.getElem?_eq_getElem hi)
    refine ⟨ustack[i], ?_, show sp + 8 * (argv.length + 1) ≤ ustack[i] by omega,
      by rw [hszK]; exact hu₂, ?_⟩
    · rw [hmem, hws, slice_words _ _ _ (by simp; omega), List.getElem_append_left hi]
    · rw [hmem, Store.slice_store_of_disjoint _ (.inl (by rw [hwlen]; omega))]
      exact hu₃
  · show Store.slice (Uvm.copyout imgK.pt sp ws).1.mem (sp + 8 * argv.length) 8 = leBytes 8 0
    rw [hmem, hws, ← hk, slice_words _ _ _ (by simp), List.getElem_append_right (by omega)]
    simp

end Xv6.Exec
