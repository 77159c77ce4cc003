import Xv6.Fs.Inode

/-!
# Freeing blocks (`bfree`, `itrunc`, `iput` in `fs.c`)

`bfree` clears a block's bit, and panics with `freeing free block` when it is already clear.
`itrunc` frees every block of an inode: the direct blocks one by one, zeroing each address, then
the entries of the indirect block and the indirect block itself; then it zeroes the size and
writes the inode back. `iput` does that for the last reference to an inode with no links, and
gives the inode type `0`.

`Freed sb d d' S` says what such a run of `bfree`s leaves: the bits of the blocks `S` cleared,
the others kept, and every block outside the bitmap as it was. `itrunc_spec` is the whole of it:
on an inode that owns its blocks, `itrunc` does not panic and frees exactly the inode's blocks.
-/

namespace Xv6

open Header

/-- `bp->data[bi/8] &= ~m`. -/
def clearBit (sb : Superblock) (d : Blocks) (b : ℕ) : Blocks :=
  setByte d (BBLOCK b sb) (bitByte b) (d (BBLOCK b sb) (bitByte b) &&& ~~~(bitMask b))

/-- `bfree(dev, b)`: block `b`'s bit cleared, `none` for the panic `freeing free block`. -/
def bfree (sb : Superblock) (d : Blocks) (b : ℕ) : Option Blocks :=
  if bitIsSet sb d b = false then none else some (clearBit sb d b)

/-- The first loop of `itrunc` over the direct blocks `is`: each nonzero `ip->addrs[i]` freed
and zeroed. `none` is a panic of `bfree`. -/
def truncDirect (sb : Superblock) : List (Fin NDIRECT) → Inode → Blocks → Option (Inode × Blocks)
  | [], ip, d => some (ip, d)
  | i :: is, ip, d =>
    if ip.addrs i.castSucc ≠ 0 then
      match bfree sb d (ip.addrs i.castSucc) with
      | none => none
      | some d => truncDirect sb is (ip.setAddr i.castSucc 0) d
    else truncDirect sb is ip d

/-- The loop of `itrunc` over the entries `js` of the indirect block `ind`, held in the buffer
`a`: each nonzero `a[j]` freed. -/
def truncIndirect (sb : Superblock) (ind : ℕ) : List ℕ → Blocks → Option Blocks
  | [], d => some d
  | j :: js, d =>
    let a := getWord (d ind) j
    if a ≠ 0 then
      match bfree sb d a with
      | none => none
      | some d => truncIndirect sb ind js d
    else truncIndirect sb ind js d

/-- `itrunc(ip)`: the direct blocks freed, then the entries of the indirect block and the
indirect block itself, then the size zeroed and the inode written back. -/
def itrunc (sb : Superblock) (ip : Inode) (d : Blocks) : Option (Inode × Blocks) :=
  match truncDirect sb (List.finRange NDIRECT) ip d with
  | none => none
  | some (ip, d) =>
    let r : Option (Inode × Blocks) :=
      if ip.indirect ≠ 0 then
        match truncIndirect sb ip.indirect (List.range NINDIRECT) d with
        | none => none
        | some d => (bfree sb d ip.indirect).map fun d => (ip.setAddr (Fin.last NDIRECT) 0, d)
      else some (ip, d)
    r.map fun (ip, d) => ({ ip with size := 0 }, iupdate sb { ip with size := 0 } d)

/-- The freeing branch of `iput(ip)`: when this was the last reference to the inode, read in
(`ip->ref == 1 && ip->valid`), and the inode has no links, it is truncated and written back with
type `0`. Otherwise nothing on the disk changes. -/
def iput (sb : Superblock) (ip : Inode) (d : Blocks) (last : Bool) : Option Blocks :=
  if last = true ∧ ip.nlink = 0 then
    (itrunc sb ip d).map fun r => iupdate sb { r.1 with type := 0 } r.2
  else some d

variable {sb : Superblock} {ip : Inode} {d d' : Blocks}

/-! ### Clearing bits -/

/-- **Clearing a block's bit.** It is clear and no other bit changes. -/
theorem bitIsSet_clearBit (b x : ℕ) :
    bitIsSet sb (clearBit sb d b) x = (bitIsSet sb d x && !decide (x = b)) := by
  rw [bitIsSet_eq_testBit, bitIsSet_eq_testBit]
  unfold clearBit setByte
  by_cases hblk : BBLOCK x sb = BBLOCK b sb
  · rw [hblk, Function.update_self]
    by_cases hbyte : bitByte x = bitByte b
    · rw [hbyte, Function.update_self, bitMask, Bits.testBit_and_not_mask _ (by omega) (by omega)]
      -- the same byte of the same bitmap block: the bits agree iff the blocks do
      have hiff : decide (b % BPB % 8 = x % BPB % 8) = decide (x = b) :=
        decide_eq_decide.mpr ⟨eq_of_bit_eq hblk hbyte, fun h => by rw [h]⟩
      rw [hiff]
    · have hne : x ≠ b := fun h => hbyte (h ▸ rfl)
      rw [Function.update_of_ne hbyte]
      simp [hne]
  · have hne : x ≠ b := fun h => hblk (h ▸ rfl)
    rw [Function.update_of_ne hblk]
    simp [hne]

/-- What a run of `bfree`s leaves: the bits of `S` below `sb.size` cleared, the others kept,
and the blocks before the bitmap and after it as they were. -/
structure Freed (sb : Superblock) (d d' : Blocks) (S : ℕ → Prop) : Prop where
  bits : ∀ x < sb.size, bitIsSet sb d' x = true ↔ bitIsSet sb d x = true ∧ ¬ S x
  frame : ∀ x, x < sb.bmapstart ∨ sb.datastart ≤ x → d' x = d x

theorem Freed.refl : Freed sb d d fun _ => False :=
  ⟨fun _ _ => by simp, fun _ _ => rfl⟩

theorem Freed.trans {d₂ : Blocks} {S T : ℕ → Prop} (h₁ : Freed sb d d' S)
    (h₂ : Freed sb d' d₂ T) : Freed sb d d₂ fun x => S x ∨ T x := by
  refine ⟨fun x hx => ?_, fun x hx => (h₂.frame x hx).trans (h₁.frame x hx)⟩
  rw [h₂.bits x hx, h₁.bits x hx, not_or, and_assoc]

theorem Freed.congr {S T : ℕ → Prop} (h : Freed sb d d' S) (hST : ∀ x < sb.size, S x ↔ T x) :
    Freed sb d d' T :=
  ⟨fun x hx => by rw [h.bits x hx, hST x hx], h.frame⟩

/-- One `bfree` of a block below `sb.size`. -/
theorem Freed.clearBit (hl : sb.Layout) {b : ℕ} (hb : b < sb.size) :
    Freed sb d (clearBit sb d b) (· = b) := by
  refine ⟨fun x _ => by simp [bitIsSet_clearBit], fun x hx => ?_⟩
  -- the only block written is `b`'s bitmap block, between the two
  have h1 := hl.bblock_lt hb
  have h2 : sb.bmapstart ≤ BBLOCK b sb := Nat.le_add_left _ _
  unfold Xv6.clearBit setByte
  exact Function.update_of_ne (by omega) _ _

theorem bfree_of_set {b : ℕ} (h : bitIsSet sb d b = true) :
    bfree sb d b = some (clearBit sb d b) := by
  rw [bfree, if_neg (by rw [h]; decide)]

/-! ### The loops of `itrunc` -/

/-- **The direct-block loop.** Over distinct indices whose nonzero blocks are distinct, below
`sb.size` and in use, the loop does not panic: it zeroes those addresses and frees exactly
those blocks. -/
theorem truncDirect_spec (hl : sb.Layout) :
    ∀ (is : List (Fin NDIRECT)) (ip : Inode) (d : Blocks), is.Nodup →
      (∀ i ∈ is, ip.addrs i.castSucc ≠ 0 →
        ip.addrs i.castSucc < sb.size ∧ bitIsSet sb d (ip.addrs i.castSucc) = true) →
      (∀ i ∈ is, ∀ i' ∈ is, ip.addrs i.castSucc ≠ 0 →
        ip.addrs i.castSucc = ip.addrs i'.castSucc → i = i') →
      ∃ ip' d', truncDirect sb is ip d = some (ip', d') ∧ ip' = { ip with addrs := ip'.addrs } ∧
        (∀ i ∈ is, ip'.addrs i.castSucc = 0) ∧
        (∀ k, (∀ i ∈ is, i.castSucc ≠ k) → ip'.addrs k = ip.addrs k) ∧
        Freed sb d d' fun x => x ≠ 0 ∧ ∃ i ∈ is, ip.addrs i.castSucc = x
  | [], ip, d, _, _, _ => ⟨ip, d, rfl, rfl, by simp, fun _ _ => rfl, Freed.refl.congr (by simp)⟩
  | i :: is, ip, d, hnd, hset, hinj => by
    obtain ⟨hi, hnd'⟩ := List.nodup_cons.mp hnd
    have hne : ∀ i' ∈ is, i' ≠ i := fun i' h e => hi (e ▸ h)
    by_cases h0 : ip.addrs i.castSucc = 0
    · -- nothing to free at `i`
      have hstep : truncDirect sb (i :: is) ip d = truncDirect sb is ip d := by
        rw [truncDirect, if_neg (not_not.mpr h0)]
      obtain ⟨ip', d', hrun, hfields, hzero, hkeep, hf⟩ := truncDirect_spec hl is ip d hnd'
        (fun i' h => hset i' (List.mem_cons_of_mem _ h))
        (fun i₁ h₁ i₂ h₂ => hinj i₁ (List.mem_cons_of_mem _ h₁) i₂ (List.mem_cons_of_mem _ h₂))
      refine ⟨ip', d', hstep.trans hrun, hfields, ?_, ?_, hf.congr fun x _ => ?_⟩
      · intro i' h'
        rcases List.mem_cons.mp h' with rfl | h'
        · rw [hkeep _ fun i₁ h₁ e => hne i₁ h₁ (Fin.castSucc_inj.mp e), h0]
        · exact hzero i' h'
      · exact fun k hk => hkeep k fun i' h' => hk i' (List.mem_cons_of_mem _ h')
      · simp only [List.mem_cons, exists_eq_or_imp]
        constructor
        · exact fun ⟨hx, h⟩ => ⟨hx, .inr h⟩
        · rintro ⟨hx, h | h⟩
          · exact absurd (h0 ▸ h).symm hx
          · exact ⟨hx, h⟩
    -- free block `a` at `i`, then the rest from the zeroed address
    set a := ip.addrs i.castSucc with ha
    obtain ⟨ha_lt, ha_set⟩ := hset i List.mem_cons_self h0
    set ip₁ := ip.setAddr i.castSucc 0 with hip₁
    have haddr₁ : ∀ i' ∈ is, ip₁.addrs i'.castSucc = ip.addrs i'.castSucc := fun i' h' =>
      Function.update_of_ne (fun e => hne i' h' (Fin.castSucc_inj.mp e)) _ _
    have hstep : truncDirect sb (i :: is) ip d = truncDirect sb is ip₁ (Xv6.clearBit sb d a) := by
      rw [truncDirect, if_pos h0, bfree_of_set ha_set]
    -- the other blocks are not `a`, so they are still in use
    have hother : ∀ i' ∈ is, ip.addrs i'.castSucc ≠ 0 → ip.addrs i'.castSucc ≠ a :=
      fun i' h' h0' e => hne i' h' (hinj i' (List.mem_cons_of_mem _ h') i List.mem_cons_self h0' e)
    obtain ⟨ip', d', hrun, hfields, hzero, hkeep, hf⟩ := truncDirect_spec hl is ip₁
      (Xv6.clearBit sb d a) hnd'
      (fun i' h' h0' => by
        rw [haddr₁ i' h'] at h0' ⊢
        obtain ⟨hlt, hs⟩ := hset i' (List.mem_cons_of_mem _ h') h0'
        refine ⟨hlt, ?_⟩
        rw [bitIsSet_clearBit, hs, Bool.true_and, Bool.not_eq_true', decide_eq_false_iff_not]
        exact hother i' h' h0')
      (fun i₁ h₁ i₂ h₂ => by
        rw [haddr₁ i₁ h₁, haddr₁ i₂ h₂]
        exact hinj i₁ (List.mem_cons_of_mem _ h₁) i₂ (List.mem_cons_of_mem _ h₂))
    refine ⟨ip', d', hstep.trans hrun, by rw [hfields, hip₁]; rfl, ?_, ?_, ?_⟩
    · intro i' h'
      by_cases e : i' = i
      · rw [e, hkeep _ fun i₁ h₁ e' => hne i₁ h₁ (Fin.castSucc_inj.mp e')]
        simp [hip₁, Inode.setAddr]
      · exact hzero i' ((List.mem_cons.mp h').resolve_left e)
    · intro k hk
      rw [hkeep k fun i' h' => hk i' (List.mem_cons_of_mem _ h')]
      exact Function.update_of_ne (fun e => hk i List.mem_cons_self e.symm) _ _
    · refine ((Freed.clearBit hl ha_lt).trans hf).congr fun x _ => ?_
      simp only [List.mem_cons, exists_eq_or_imp]
      constructor
      · rintro (rfl | ⟨hx, i', h', rfl⟩)
        · exact ⟨h0, .inl rfl⟩
        · exact ⟨hx, .inr ⟨i', h', (haddr₁ i' h').symm⟩⟩
      · rintro ⟨hx, h | ⟨i', h', rfl⟩⟩
        · exact .inl h.symm
        · exact .inr ⟨hx, i', h', haddr₁ i' h'⟩

/-- **The indirect-block loop.** Over distinct entries whose nonzero blocks are distinct, below
`sb.size` and in use, the loop does not panic and frees exactly those blocks. -/
theorem truncIndirect_spec (hl : sb.Layout) {ind : ℕ} (hind : sb.datastart ≤ ind) :
    ∀ (js : List ℕ) (d : Blocks), js.Nodup →
      (∀ j ∈ js, getWord (d ind) j ≠ 0 →
        getWord (d ind) j < sb.size ∧ bitIsSet sb d (getWord (d ind) j) = true) →
      (∀ j ∈ js, ∀ j' ∈ js, getWord (d ind) j ≠ 0 → getWord (d ind) j = getWord (d ind) j' →
        j = j') →
      ∃ d', truncIndirect sb ind js d = some d' ∧
        Freed sb d d' fun x => x ≠ 0 ∧ ∃ j ∈ js, getWord (d ind) j = x
  | [], d, _, _, _ => ⟨d, rfl, Freed.refl.congr (by simp)⟩
  | j :: js, d, hnd, hset, hinj => by
    obtain ⟨hj, hnd'⟩ := List.nodup_cons.mp hnd
    have hne : ∀ j' ∈ js, j' ≠ j := fun j' h e => hj (e ▸ h)
    by_cases h0 : getWord (d ind) j = 0
    · have hstep : truncIndirect sb ind (j :: js) d = truncIndirect sb ind js d := by
        simp only [truncIndirect, h0, ne_eq, not_true_eq_false, if_false]
      obtain ⟨d', hrun, hf⟩ := truncIndirect_spec hl hind js d hnd'
        (fun j' h => hset j' (List.mem_cons_of_mem _ h))
        (fun j₁ h₁ j₂ h₂ => hinj j₁ (List.mem_cons_of_mem _ h₁) j₂ (List.mem_cons_of_mem _ h₂))
      refine ⟨d', hstep.trans hrun, hf.congr fun x _ => ?_⟩
      simp only [List.mem_cons, exists_eq_or_imp]
      constructor
      · exact fun ⟨hx, h⟩ => ⟨hx, .inr h⟩
      · rintro ⟨hx, h | h⟩
        · exact absurd (h0 ▸ h).symm hx
        · exact ⟨hx, h⟩
    set a := getWord (d ind) j with ha
    obtain ⟨ha_lt, ha_set⟩ := hset j List.mem_cons_self h0
    rw [← ha] at ha_lt ha_set
    -- the indirect block is a data block: freeing `a` leaves it as it was
    have hd₁ : Xv6.clearBit sb d a ind = d ind := (Freed.clearBit hl ha_lt).frame ind (.inr hind)
    have hstep :
        truncIndirect sb ind (j :: js) d = truncIndirect sb ind js (Xv6.clearBit sb d a) := by
      simp only [truncIndirect, ← ha, ne_eq, h0, not_false_eq_true, if_true]
      rw [bfree_of_set ha_set]
    have hother : ∀ j' ∈ js, getWord (d ind) j' ≠ 0 → getWord (d ind) j' ≠ a :=
      fun j' h' h0' e => hne j' h' (hinj j' (List.mem_cons_of_mem _ h') j List.mem_cons_self h0' e)
    obtain ⟨d', hrun, hf⟩ := truncIndirect_spec hl hind js (Xv6.clearBit sb d a) hnd'
      (fun j' h' h0' => by
        rw [hd₁] at h0' ⊢
        obtain ⟨hlt, hs⟩ := hset j' (List.mem_cons_of_mem _ h') h0'
        refine ⟨hlt, ?_⟩
        rw [bitIsSet_clearBit, hs, Bool.true_and, Bool.not_eq_true', decide_eq_false_iff_not]
        exact hother j' h' h0')
      (fun j₁ h₁ j₂ h₂ => by
        rw [hd₁]
        exact hinj j₁ (List.mem_cons_of_mem _ h₁) j₂ (List.mem_cons_of_mem _ h₂))
    refine ⟨d', hstep.trans hrun, ((Freed.clearBit hl ha_lt).trans hf).congr fun x _ => ?_⟩
    rw [hd₁]
    simp only [List.mem_cons, exists_eq_or_imp]
    constructor
    · rintro (rfl | ⟨hx, h⟩)
      · exact ⟨h0, .inl rfl⟩
      · exact ⟨hx, .inr h⟩
    · rintro ⟨hx, h | h⟩
      · exact .inl h.symm
      · exact .inr ⟨hx, h⟩


/-! ### `itrunc` and `iput` -/

/-- The blocks of an inode: its nonzero direct addresses, the nonzero entries of its indirect
block, and the indirect block. -/
theorem isRef_iff (x : ℕ) :
    IsRef ip d x ↔ x ≠ 0 ∧ ((∃ i : Fin NDIRECT, ip.addrs i.castSucc = x) ∨
      (ip.indirect ≠ 0 ∧ ∃ j < NINDIRECT, getWord (d ip.indirect) j = x) ∨ x = ip.indirect) := by
  constructor
  · rintro ⟨hx0, ⟨bn, hbn⟩ | hx⟩
    · refine ⟨hx0, ?_⟩
      have hmax := blockOf_lt_maxfile (hbn ▸ hx0)
      unfold blockOf at hbn
      split_ifs at hbn with hdir hind
      · exact .inl ⟨⟨bn, hdir⟩, hbn⟩
      · exact absurd hbn.symm hx0
      · exact .inr (.inl ⟨hind, bn - NDIRECT, by unfold MAXFILE at hmax; omega, hbn⟩)
    · exact ⟨hx0, .inr (.inr hx)⟩
  · rintro ⟨hx0, ⟨i, hi⟩ | ⟨hind, j, hj, hjx⟩ | hx⟩
    · exact ⟨hx0, .inl ⟨i, by simp only [blockOf, dif_pos i.isLt]; exact hi⟩⟩
    · exact ⟨hx0, .inl ⟨NDIRECT + j, by simp [blockOf, hind, hjx]⟩⟩
    · exact ⟨hx0, .inr hx⟩

/-- An inode whose addresses are all `0` has no blocks. -/
theorem not_isRef_of_addrs {ip : Inode} (h : ∀ k, ip.addrs k = 0) (x : ℕ) : ¬ IsRef ip d x := by
  rw [isRef_iff]
  rintro ⟨hx0, ⟨i, hi⟩ | ⟨hind, -⟩ | hx⟩
  · exact hx0 (hi ▸ h _)
  · exact hind (h _)
  · exact hx0 (hx.trans (h _))

/-- **`itrunc`'s spec.** On an inode that owns its blocks, `itrunc` does not panic: it frees
exactly the inode's blocks, and writes the inode back with every address and the size `0`. -/
theorem itrunc_spec (hl : sb.Layout) (ho : Owned sb ip d) :
    ∃ d₁, itrunc sb ip d = some ({ ip with size := 0, addrs := fun _ => 0 },
      iupdate sb { ip with size := 0, addrs := fun _ => 0 } d₁) ∧ Freed sb d d₁ (IsRef ip d) := by
  have hdirect : ∀ i : Fin NDIRECT, blockOf ip d i = ip.addrs i.castSucc := fun i => by
    simp only [blockOf, dif_pos i.isLt]
    rfl
  obtain ⟨ip₁, d₁, hrun, hfields, hzero, hkeep, hf₁⟩ := truncDirect_spec hl (List.finRange NDIRECT)
    ip d (List.nodup_finRange _)
    (fun i _ h0 => by
      have hb : blockOf ip d i ≠ 0 := by rw [hdirect]; exact h0
      have := ho.ref_blockOf hb
      rw [hdirect] at this
      exact this.2)
    (fun i _ i' _ h0 e => Fin.ext (ho.inj i i' (by rw [hdirect]; exact h0) (by rw [hdirect, hdirect]; exact e)))
  have hind₁ : ip₁.indirect = ip.indirect := hkeep _ fun i _ => Fin.ne_of_lt (Fin.castSucc_lt_last i)
  -- the inode written back, from the loop's once its last address is `0` too
  have hfinal : ∀ ip₂ : Inode, ip₂ = { ip with addrs := ip₂.addrs } → (∀ k, ip₂.addrs k = 0) →
      { ip₂ with size := 0 } = { ip with size := 0, addrs := fun _ => 0 } := by
    intro ip₂ h₂ hz
    have : ip₂.addrs = fun _ => 0 := funext hz
    rw [h₂, this]
  have hzero₁ : ∀ k, k ≠ Fin.last NDIRECT → ip₁.addrs k = 0 := fun k hk => by
    obtain ⟨i, rfl⟩ := Fin.exists_castSucc_eq.mpr hk
    exact hzero i (List.mem_finRange i)
  by_cases hind : ip.indirect = 0
  · -- no indirect block: the direct blocks were all
    refine ⟨d₁, ?_, hf₁.congr fun x _ => ?_⟩
    · rw [itrunc, hrun]
      dsimp only
      rw [if_neg (by rw [hind₁, hind]; exact not_not.mpr rfl), Option.map_some]
      rw [hfinal ip₁ hfields fun k => if hk : k = Fin.last NDIRECT then
        (by rw [hk]; exact hind₁.trans hind) else hzero₁ k hk]
    · rw [isRef_iff]
      simp only [List.mem_finRange, true_and, hind, ne_eq, not_true_eq_false, false_and,
        false_or]
      constructor
      · exact fun h => ⟨h.1, .inl h.2⟩
      · rintro ⟨hx0, h | h⟩
        · exact ⟨hx0, h⟩
        · exact absurd h hx0
  -- the indirect block: its entries, then the block itself
  obtain ⟨-, hlt_ind, hset_ind⟩ := ho.ref_indirect hind
  have hdata_ind := (ho.ref_indirect hind).1
  have hd₁ : d₁ ip.indirect = d ip.indirect := hf₁.frame _ (.inr hdata_ind)
  have hentry : ∀ j < NINDIRECT, blockOf ip d (NDIRECT + j) = getWord (d ip.indirect) j :=
    fun j _ => by simp [blockOf, hind]
  obtain ⟨d₂, hrun₂, hf₂⟩ := truncIndirect_spec hl hdata_ind (List.range NINDIRECT) d₁
    List.nodup_range
    (fun j hj h0 => by
      rw [hd₁] at h0 ⊢
      have hj' := List.mem_range.mp hj
      have hb : blockOf ip d (NDIRECT + j) ≠ 0 := by rw [hentry j hj']; exact h0
      obtain ⟨-, hlt, hset⟩ := ho.ref_blockOf hb
      rw [hentry j hj'] at hlt hset
      refine ⟨hlt, (hf₁.bits _ hlt).mpr ⟨hset, ?_⟩⟩
      -- an entry is no direct block: the inode's blocks are distinct
      rintro ⟨-, i, -, e⟩
      have := ho.inj i (NDIRECT + j) (by rw [hdirect, e]; exact h0) (by rw [hdirect, hentry j hj', e])
      have := i.isLt
      omega)
    (fun j hj j' hj' h0 e => by
      rw [hd₁] at h0 e
      have := ho.inj (NDIRECT + j) (NDIRECT + j') (by rw [hentry j (List.mem_range.mp hj)]; exact h0)
        (by rw [hentry j (List.mem_range.mp hj), hentry j' (List.mem_range.mp hj'), e])
      omega)
  -- the indirect block is neither a direct block nor an entry, so it is still in use
  have hset₂ : bitIsSet sb d₂ ip.indirect = true := by
    rw [hf₂.bits _ hlt_ind, hf₁.bits _ hlt_ind]
    refine ⟨⟨hset_ind, ?_⟩, ?_⟩
    · rintro ⟨-, i, -, e⟩
      exact ho.ne_indirect i (by rw [hdirect, e]; exact hind) (by rw [hdirect, e])
    · rintro ⟨-, j, hj, e⟩
      rw [hd₁] at e
      have hj' := List.mem_range.mp hj
      exact ho.ne_indirect (NDIRECT + j) (by rw [hentry j hj', e]; exact hind) (by rw [hentry j hj', e])
  refine ⟨clearBit sb d₂ ip.indirect, ?_,
    ((hf₁.trans hf₂).trans (Freed.clearBit hl hlt_ind)).congr fun x _ => ?_⟩
  · rw [itrunc, hrun]
    dsimp only
    rw [if_pos (by rw [hind₁]; exact hind), hind₁, hrun₂]
    dsimp only
    rw [bfree_of_set hset₂, Option.map_some, Option.map_some]
    rw [hfinal (ip₁.setAddr (Fin.last NDIRECT) 0) (by rw [Inode.setAddr, hfields]) fun k => ?_]
    by_cases hk : k = Fin.last NDIRECT
    · simp [Inode.setAddr, hk]
    · simp only [Inode.setAddr]
      rw [Function.update_of_ne hk]
      exact hzero₁ k hk
  · rw [isRef_iff, hd₁]
    simp only [List.mem_finRange, List.mem_range, true_and]
    constructor
    · rintro ((h | h) | rfl)
      · exact ⟨h.1, .inl h.2⟩
      · exact ⟨h.1, .inr (.inl ⟨hind, h.2⟩)⟩
      · exact ⟨hind, .inr (.inr rfl)⟩
    · rintro ⟨hx0, h | ⟨-, h⟩ | h⟩
      · exact .inl (.inl ⟨hx0, h⟩)
      · exact .inl (.inr ⟨hx0, h⟩)
      · exact .inr h

/-- **`iput`'s spec.** On an inode that owns its blocks, `iput` does not panic: unless this is the
last reference to an inode with no links, nothing changes; otherwise the inode's blocks are freed,
and it is written back with every address and the size `0`, then with type `0`. -/
theorem iput_spec (hl : sb.Layout) (ho : Owned sb ip d) (last : Bool) :
    (¬ (last = true ∧ ip.nlink = 0) ∧ iput sb ip d last = some d) ∨
    (last = true ∧ ip.nlink = 0 ∧ ∃ d₁, Freed sb d d₁ (IsRef ip d) ∧
      iput sb ip d last = some (iupdate sb { ip with size := 0, addrs := fun _ => 0, type := 0 }
        (iupdate sb { ip with size := 0, addrs := fun _ => 0 } d₁))) := by
  by_cases h : last = true ∧ ip.nlink = 0
  · obtain ⟨d₁, htr, hf⟩ := itrunc_spec hl ho
    refine .inr ⟨h.1, h.2, d₁, hf, ?_⟩
    rw [iput, if_pos h, htr, Option.map_some]
  · exact .inl ⟨h, by rw [iput, if_neg h]⟩

/-- **Freeing stays within the inode.** An operation that frees exactly the inode's blocks and
leaves it with none stays within its blocks. -/
theorem Confined.of_freed {ip' : Inode} (ho : Owned sb ip d) (hf : Freed sb d d' (IsRef ip d))
    (hnone : ∀ x, ¬ IsRef ip' d' x) : Confined sb ip d ip' d' where
  low x hx := hf.frame x (.inl hx)
  other x hdata hx hset href := ⟨hf.frame x (.inr hdata), (hf.bits x hx).mpr ⟨hset, href⟩⟩
  marked x hx hset := .inl ((hf.bits x hx).mp hset).1
  fresh x hx := absurd hx (hnone x)
  kept x hx hset := absurd hx ((hf.bits x (ho.ref x hx).2.1).mp hset).2

end Xv6
