import Xv6.Param
import Mathlib.Logic.Basic

/-!
# Blocks and the on-disk log header (`struct logheader`)

A block is `BSIZE` bytes, the `uchar data[BSIZE]` of `struct buf`. The header
`struct logheader { int n; int block[LOGSIZE]; }` fills the first words of the log's first
block, each `int` stored little-endian (RISC-V) in four bytes: `n` is word `0` and `block[i]`
is word `i + 1`.

`writeHeader` is the loop of `write_head` over the cached header block and `readHeader` the loop
of `read_head`. `readHeader_writeHeader` is the round trip on which the log rests: what
`write_head` stores, `read_head` reads back as the same block numbers.
-/

namespace Xv6

/-- The contents of one disk block. -/
abbrev Block := Fin BSIZE → UInt8

namespace Header

/-- Byte `k` of a block, as a number. -/
def getByte (b : Block) (k : ℕ) : ℕ := if h : k < BSIZE then (b ⟨k, h⟩).toNat else 0

/-- The 32-bit word `i` of a block, little-endian. -/
def getWord (b : Block) (i : ℕ) : ℕ :=
  getByte b (4 * i) + 2 ^ 8 * getByte b (4 * i + 1) + 2 ^ 16 * getByte b (4 * i + 2) +
    2 ^ 24 * getByte b (4 * i + 3)

/-- Store `w` as the 32-bit word `i` of a block. -/
def setWord (b : Block) (i w : ℕ) : Block :=
  fun k => if k.val / 4 = i then UInt8.ofNat (w / 2 ^ (8 * (k.val % 4))) else b k

/-- The iterations of `for(i = 0; i < n; i++)` for an `int n` read from disk: none when it is
negative. -/
def loopCount (w : ℕ) : ℕ := if w < 2 ^ 31 then w else 0

/-- `lh->block[i..i+n)`. -/
def readBlocks (b : Block) : ℕ → ℕ → List ℕ
  | _, 0 => []
  | i, n + 1 => getWord b (i + 1) :: readBlocks b (i + 1) n

/-- `read_head`: the block numbers of the header block `b`. -/
def readHeader (b : Block) : List ℕ := readBlocks b 0 (loopCount (getWord b 0))

/-- `hb->block[i] = log.lh.block[i]` from index `i` on. -/
def writeBlocks : Block → ℕ → List ℕ → Block
  | b, _, [] => b
  | b, i, k :: ks => writeBlocks (setWord b (i + 1) k) (i + 1) ks

/-- `write_head`: the cached header block `b` with `hb->n = log.lh.n` and the block numbers of
`lh` stored. -/
def writeHeader (b : Block) (lh : List ℕ) : Block := writeBlocks (setWord b 0 lh.length) 0 lh

/-! ### Words -/

theorem getByte_setWord (b : Block) (i w k : ℕ) :
    getByte (setWord b i w) k =
      if k / 4 = i ∧ k < BSIZE then w / 2 ^ (8 * (k % 4)) % 256 else getByte b k := by
  unfold getByte setWord
  by_cases hk : k < BSIZE
  · by_cases hi : k / 4 = i <;> simp [hk, hi]
  · simp [hk]

/-- **Round trip of a word.** -/
theorem getWord_setWord_self (b : Block) {i : ℕ} (w : ℕ) (h : 4 * i + 3 < BSIZE) :
    getWord (setWord b i w) i = w % 2 ^ 32 := by
  unfold getWord
  simp only [getByte_setWord]
  -- the four bytes of word `i` are bytes `0` to `3` of `w`
  have h0 : 4 * i / 4 = i ∧ 4 * i < BSIZE := ⟨by omega, by omega⟩
  have h1 : (4 * i + 1) / 4 = i ∧ 4 * i + 1 < BSIZE := ⟨by omega, by omega⟩
  have h2 : (4 * i + 2) / 4 = i ∧ 4 * i + 2 < BSIZE := ⟨by omega, by omega⟩
  have h3 : (4 * i + 3) / 4 = i ∧ 4 * i + 3 < BSIZE := ⟨by omega, by omega⟩
  have m0 : 4 * i % 4 = 0 := by omega
  have m1 : (4 * i + 1) % 4 = 1 := by omega
  have m2 : (4 * i + 2) % 4 = 2 := by omega
  have m3 : (4 * i + 3) % 4 = 3 := by omega
  simp only [h0, h1, h2, h3, and_self, if_true, m0, m1, m2, m3]
  omega

/-- Storing one word leaves the others alone. -/
theorem getWord_setWord_of_ne (b : Block) {i j : ℕ} (w : ℕ) (h : j ≠ i) :
    getWord (setWord b i w) j = getWord b j := by
  unfold getWord
  simp only [getByte_setWord]
  have h0 : 4 * j / 4 ≠ i := by omega
  have h1 : (4 * j + 1) / 4 ≠ i := by omega
  have h2 : (4 * j + 2) / 4 ≠ i := by omega
  have h3 : (4 * j + 3) / 4 ≠ i := by omega
  simp only [h0, h1, h2, h3, false_and, if_false]

/-- A word past the end of the block reads as `0`. -/
theorem getWord_of_le (b : Block) {i : ℕ} (h : BSIZE ≤ 4 * i) : getWord b i = 0 := by
  unfold getWord getByte
  simp only [show ¬ 4 * i < BSIZE by omega, show ¬ 4 * i + 1 < BSIZE by omega,
    show ¬ 4 * i + 2 < BSIZE by omega, show ¬ 4 * i + 3 < BSIZE by omega, dite_false,
    Nat.mul_zero, Nat.add_zero]

/-- Every word of a zeroed block is `0`. -/
@[simp] theorem getWord_zero (i : ℕ) : getWord (fun _ => 0) i = 0 := by
  simp [getWord, getByte]

/-! ### The header -/

/-- `writeBlocks` from index `i` on leaves words `0` to `i` alone. -/
theorem getWord_writeBlocks_of_le {j : ℕ} :
    ∀ (b : Block) (i : ℕ) (ks : List ℕ), j ≤ i → getWord (writeBlocks b i ks) j = getWord b j
  | _, _, [], _ => rfl
  | b, i, k :: ks, h => by
    rw [writeBlocks, getWord_writeBlocks_of_le _ _ ks (by omega),
      getWord_setWord_of_ne _ _ (by omega)]

theorem readBlocks_writeBlocks :
    ∀ (b : Block) (i : ℕ) (ks : List ℕ), 4 * (i + ks.length) + 3 < BSIZE →
      (∀ k ∈ ks, k < 2 ^ 32) → readBlocks (writeBlocks b i ks) i ks.length = ks
  | _, _, [], _, _ => rfl
  | b, i, k :: ks, hlen, hks => by
    simp only [List.length_cons] at hlen
    have hk : k < 2 ^ 32 := hks k List.mem_cons_self
    rw [writeBlocks, List.length_cons, readBlocks,
      readBlocks_writeBlocks _ _ ks (by omega) fun k' hk' => hks k' (List.mem_cons_of_mem _ hk'),
      getWord_writeBlocks_of_le _ _ ks (Nat.le_refl _), getWord_setWord_self _ _ (by omega),
      Nat.mod_eq_of_lt hk]

/-- `hb->n` is the length of the log header stored. -/
theorem getWord_writeHeader_zero (b : Block) (lh : List ℕ) (hlen : lh.length ≤ LOGSIZE) :
    getWord (writeHeader b lh) 0 = lh.length := by
  rw [writeHeader, getWord_writeBlocks_of_le _ _ _ (Nat.le_refl 0),
    getWord_setWord_self _ _ (by decide), Nat.mod_eq_of_lt (by unfold LOGSIZE MAXOPBLOCKS at hlen; omega)]

/-- **The header round trip.** `read_head` reads back the block numbers `write_head`
stored. -/
theorem readHeader_writeHeader (b : Block) {lh : List ℕ} (hlen : lh.length ≤ LOGSIZE)
    (hlh : ∀ k ∈ lh, k < 2 ^ 32) : readHeader (writeHeader b lh) = lh := by
  have hsmall : lh.length < 2 ^ 31 := by unfold LOGSIZE MAXOPBLOCKS at hlen; omega
  rw [readHeader, getWord_writeHeader_zero b lh hlen, loopCount, if_pos hsmall, writeHeader,
    readBlocks_writeBlocks _ _ _ (by unfold LOGSIZE MAXOPBLOCKS BSIZE at *; omega) hlh]

/-- A header whose `n` is `0` names no block. -/
theorem readHeader_eq_nil {b : Block} (h : getWord b 0 = 0) : readHeader b = [] := by
  rw [readHeader, h]
  rfl

/-- The empty header `commit()` and `recover_from_log()` store last. -/
theorem getWord_writeHeader_nil (b : Block) : getWord (writeHeader b []) 0 = 0 :=
  getWord_writeHeader_zero b [] (Nat.zero_le _)

end Header

end Xv6
