import Xv6.Vm.Copy
import Mathlib.Data.Nat.Bitwise

/-!
# The page table and its walk (`walk`, `walkaddr` in `vm.c`)

An Sv39 page table is a tree of page-table pages in three levels of 512 entries each. `walk`
indexes the root by `PX(2, va)` and the next table by `PX(1, va)`, following valid entries, and
returns the address of the level-0 entry for `va`; `walkaddr` also requires that entry to have
`PTE_V` and `PTE_U` and returns the physical page it maps.

Physical memory is modelled in two parts: the entries of the page-table pages and the bytes of
all other pages. The copy routines write only bytes, and no user leaf maps a page-table page.

The abstract view of a page table is the map from each virtual page number to the leaf that maps
it (`leafOf`): follow the base-512 digits of the page number from the root through valid entries
without permissions, and take the valid entry with permissions found at level 0. On a well-formed
table (`WellFormed`: leaves only at level 0, as `mappages` builds them) `walk` finds exactly that
leaf (`leafOf_walk`), because `PX(level, va)` is digit `level` of the page number of `va`
(`PX_eq_digit`).
-/

namespace Xv6.PageTable

/-- Bits of offset within a page. -/
def PGSHIFT : ℕ := 12

/-- Nine bits of index into a page-table page. -/
def PXMASK : ℕ := 0x1FF

def PTE_V : UInt64 := (1 : UInt64) <<< 0
def PTE_R : UInt64 := (1 : UInt64) <<< 1
def PTE_W : UInt64 := (1 : UInt64) <<< 2
def PTE_X : UInt64 := (1 : UInt64) <<< 3
def PTE_U : UInt64 := (1 : UInt64) <<< 4

/-- `PX(level, va)`: the index of `va` into a page-table page of level `level`. -/
def PX (level va : ℕ) : ℕ := (va >>> (PGSHIFT + 9 * level)) &&& PXMASK

/-- `PTE2PA(pte)`: the physical address of the page an entry points to. -/
def PTE2PA (pte : UInt64) : ℕ := ((pte >>> 10) <<< 12).toNat

/-- `PA2PTE(pa)`. -/
def PA2PTE (pa : ℕ) : UInt64 := (UInt64.ofNat pa >>> 12) <<< 10

/-- Physical memory: the entry at the address of each 8-byte entry of a page-table page, and the
byte at each address of every other page. -/
structure Phys where
  pte : ℕ → UInt64
  byte : ℕ → UInt8

/-- The loop of `walk(pagetable, va, 0)` from level `level` down to 1, at the table `pagetable`,
then the address of the level-0 entry; `none` where it returns `0` at an invalid entry. -/
def walkLoop (m : Phys) (va : ℕ) : (level pagetable : ℕ) → Option ℕ
  | 0, pagetable => some (pagetable + 8 * PX 0 va)
  | level + 1, pagetable =>
    let pte := m.pte (pagetable + 8 * PX (level + 1) va)
    if pte &&& PTE_V ≠ 0 then walkLoop m va level (PTE2PA pte) else none

/-- `walk(pagetable, va, 0)`. It panics when `va ≥ MAXVA`; every caller tests `va` first, which
the argument `va < MAXVA` records. -/
def walk (m : Phys) (pagetable va : ℕ) (_ : va < MAXVA) : Option ℕ := walkLoop m va 2 pagetable

/-- `walkaddr(pagetable, va)`: the physical page of a valid user leaf for `va`, or `0`. -/
def walkaddr (m : Phys) (pagetable va : ℕ) : ℕ :=
  if h : va ≥ MAXVA then 0 else
  match walk m pagetable va (Nat.lt_of_not_le h) with
  | none => 0
  | some pte =>
    if m.pte pte &&& PTE_V = 0 then 0
    else if m.pte pte &&& PTE_U = 0 then 0
    else PTE2PA (m.pte pte)

/-! ### The abstract map from pages to leaves -/

/-- A valid entry. -/
def Valid (pte : UInt64) : Prop := pte &&& PTE_V ≠ 0

/-- A leaf: an entry with a permission. A valid entry without one points to the next table, as
`freewalk` tests it. -/
def IsLeaf (pte : UInt64) : Prop := pte &&& (PTE_R ||| PTE_W ||| PTE_X) ≠ 0

instance : DecidablePred Valid := fun _ => inferInstanceAs (Decidable (_ ≠ _))

instance : DecidablePred IsLeaf := fun _ => inferInstanceAs (Decidable (_ ≠ _))

/-- Digit `level` of the page number `vpn` in base 512. -/
def digit (level vpn : ℕ) : ℕ := vpn / 512 ^ level % 512

/-- The leaf for page `vpn` below the table at `a` of level `level`. -/
def leafLoop (m : Phys) (vpn : ℕ) : (level a : ℕ) → Option UInt64
  | 0, a =>
    let pte := m.pte (a + 8 * digit 0 vpn)
    if Valid pte ∧ IsLeaf pte then some pte else none
  | level + 1, a =>
    let pte := m.pte (a + 8 * digit (level + 1) vpn)
    if Valid pte ∧ ¬ IsLeaf pte then leafLoop m vpn level (PTE2PA pte) else none

/-- The leaf that maps page `vpn` in the page table with root `pt`. -/
def leafOf (m : Phys) (pt vpn : ℕ) : Option UInt64 := leafLoop m vpn 2 pt

/-- The table at `a` of level `level` is well formed: at level 0 every valid entry is a leaf;
above it every valid entry points to a well-formed table of the level below. -/
def TableOk (m : Phys) : (level a : ℕ) → Prop
  | 0, a => ∀ i < 512, Valid (m.pte (a + 8 * i)) → IsLeaf (m.pte (a + 8 * i))
  | level + 1, a => ∀ i < 512, Valid (m.pte (a + 8 * i)) →
      ¬ IsLeaf (m.pte (a + 8 * i)) ∧ TableOk m level (PTE2PA (m.pte (a + 8 * i)))

instance decTableOk (m : Phys) : ∀ level a, Decidable (TableOk m level a)
  | 0, a =>
    (inferInstance : Decidable (∀ i < 512, Valid (m.pte (a + 8 * i)) → IsLeaf (m.pte (a + 8 * i))))
  | level + 1, a =>
    have := decTableOk m level
    (inferInstance : Decidable (∀ i < 512, Valid (m.pte (a + 8 * i)) →
      ¬ IsLeaf (m.pte (a + 8 * i)) ∧ TableOk m level (PTE2PA (m.pte (a + 8 * i)))))

/-- A well-formed three-level page table with root `pt`. -/
def WellFormed (m : Phys) (pt : ℕ) : Prop := TableOk m 2 pt

instance (m : Phys) (pt : ℕ) : Decidable (WellFormed m pt) := decTableOk m 2 pt

/-! ### `walk` finds the leaf -/

theorem digit_lt (level vpn : ℕ) : digit level vpn < 512 := Nat.mod_lt _ (by decide)

/-- `PX(level, va)` is digit `level` of the page number of `va`. -/
theorem PX_eq_digit (level va : ℕ) : PX level va = digit level (va / PGSIZE) := by
  have hpow : 2 ^ (PGSHIFT + 9 * level) = PGSIZE * 512 ^ level := by
    rw [pow_add, pow_mul]
    rfl
  unfold PX digit
  rw [Nat.shiftRight_eq_div_pow, show PXMASK = 2 ^ 9 - 1 from rfl, Nat.and_two_pow_sub_one_eq_mod,
    hpow, Nat.div_div_eq_div_mul]

theorem leafLoop_walkLoop (m : Phys) (va : ℕ) :
    ∀ {level a : ℕ}, TableOk m level a →
      leafLoop m (va / PGSIZE) level a =
        (walkLoop m va level a).bind fun p => if Valid (m.pte p) then some (m.pte p) else none
  | 0, a, hok => by
    have hleaf := hok _ (digit_lt 0 (va / PGSIZE))
    simp only [leafLoop, walkLoop, PX_eq_digit, Option.bind_some]
    by_cases hv : Valid (m.pte (a + 8 * digit 0 (va / PGSIZE)))
    · rw [if_pos ⟨hv, hleaf hv⟩, if_pos hv]
    · rw [if_neg fun h => hv h.1, if_neg hv]
  | level + 1, a, hok => by
    have hnext := hok _ (digit_lt (level + 1) (va / PGSIZE))
    simp only [leafLoop, walkLoop, PX_eq_digit]
    by_cases hv : Valid (m.pte (a + 8 * digit (level + 1) (va / PGSIZE)))
    · -- a valid entry above level 0 is a pointer on both sides
      obtain ⟨hnl, hok'⟩ := hnext hv
      have hv' : m.pte (a + 8 * digit (level + 1) (va / PGSIZE)) &&& PTE_V ≠ 0 := hv
      rw [if_pos ⟨hv, hnl⟩, if_pos hv']
      exact leafLoop_walkLoop m va hok'
    · have hv' : ¬ m.pte (a + 8 * digit (level + 1) (va / PGSIZE)) &&& PTE_V ≠ 0 := hv
      rw [if_neg fun h => hv h.1, if_neg hv', Option.bind_none]

/-- **`walk` finds the leaf.** On a well-formed table, the leaf of the page of `va` is the valid
entry at the address `walk` returns. -/
theorem leafOf_walk {m : Phys} {pt va : ℕ} (hwf : WellFormed m pt) (hva : va < MAXVA) :
    leafOf m pt (va / PGSIZE) =
      (walk m pt va hva).bind fun p => if Valid (m.pte p) then some (m.pte p) else none :=
  leafLoop_walkLoop m va hwf

/-! ### Page addresses -/

/-- Physical pages are aligned. -/
theorem PTE2PA_mod (pte : UInt64) : PTE2PA pte % PGSIZE = 0 := by
  unfold PTE2PA PGSIZE
  rw [UInt64.toNat_shiftLeft, Nat.shiftLeft_eq, Nat.mod_mod_of_dvd _ (by decide : 4096 ∣ 2 ^ 64)]
  exact Nat.mul_mod_left _ _

end Xv6.PageTable
