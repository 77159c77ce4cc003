import Xv6.Fs.ReadWrite
import Xv6.Lib.Reach

/-!
# A file shared between processes (`fileread` and `filewrite` in `file.c`)

Processes that share one `struct file` on an inode, through `fork` or `dup`, share its offset
`f->off`. `filewrite` splits a write into chunks of at most `maxChunk` bytes, each its own
transaction:

    begin_op(); ilock(f->ip);
    if ((r = writei(f->ip, 1, addr + i, f->off, n1)) > 0) f->off += r;
    iunlock(f->ip); end_op();

The offset is read and advanced only while the inode's sleep-lock is held, so a step of the model
is one such locked section: one chunk of a `filewrite`, a whole `fileread` (`readi` under the
lock), or a `writei` on the inode through another open file. Any step of another process may
come between two chunks of one `filewrite`.

A ghost list records every chunk that wrote bytes through `f`: the offset when the lock was taken
and the bytes it wrote. From a state whose inode owns its blocks and has no hole:

* `Inv.step`: the chunks are in file order, each at or after the end of every earlier one, all
  below `f->off`; only a call of more than `maxChunk` bytes has a chunk past its first.
* `filewriteStep_lands`: a chunk writes at `f->off` and advances it by exactly its bytes.
* `Landed.step`: while the inode is written only through `f`, every chunk's bytes stay in the
  file.
* `Chained.step`: while only `filewrite` uses `f`, the chunks follow one another from the first
  offset on and `f->off` is where the last one ends.
-/

namespace Xv6

namespace Share

/-- `((MAXOPBLOCKS-1-1-2) / 2) * BSIZE`: the most bytes `filewrite` hands one `writei`, so that
the inode, the indirect block, the bitmap blocks and two partial blocks fit in a transaction. -/
def maxChunk : ℕ := (MAXOPBLOCKS - 1 - 1 - 2) / 2 * BSIZE

/-- The fields of an `FD_INODE` `struct file` besides its inode. -/
structure File where
  readable : Bool
  writable : Bool
  off : UInt32

/-- Where a process is in the file code. -/
inductive Pc where
  /-- Outside `fileread` and `filewrite`. -/
  | idle
  /-- At the `while(i < n)` test of `filewrite(f, addr, n)`, with `i` bytes written. -/
  | write (addr : ℕ) (n : ℤ) (i : ℕ)
  /-- Returned `ret`. -/
  | done (ret : ℤ)
  deriving DecidableEq

/-- Not inside a `filewrite`, so free to make a call. -/
def Pc.outside : Pc → Bool
  | .write .. => false
  | _ => true

/-- Ghost: a `writei` of `filewrite` by `proc` that wrote `data` at offset `start`. They are the
bytes from `part` on of a call for `total` bytes. -/
structure Chunk (P : Type) where
  proc : P
  start : ℕ
  data : List UInt8
  part : ℕ
  total : ℤ

/-- The offset just past a chunk. -/
def Chunk.stop {P : Type} (c : Chunk P) : ℕ := c.start + c.data.length

/-- The shared file, its inode and the processes that use it. -/
structure World (P : Type) where
  file : File
  ip : Inode
  d : Blocks
  mem : P → Mem
  pc : P → Pc
  /-- Ghost: the chunks written through `f`, in order. -/
  chunks : List (Chunk P)

/-- What can happen next. -/
inductive Act (P : Type) where
  /-- `p` calls `filewrite(f, addr, n)`. -/
  | filewrite (p : P) (addr : ℕ) (n : ℤ)
  /-- `p` calls `fileread(f, addr, n)`. -/
  | fileread (p : P) (addr : ℕ) (n : ℤ)
  /-- `p` takes the next iteration of its `filewrite` loop. -/
  | run (p : P)
  /-- `q` writes the inode through another open file: `writei(ip, 1, src, off, n)`. -/
  | other (q : P) (src : ℕ) (off n : UInt32)

/-- The inode is used only through `f`. -/
def Act.throughF {P : Type} : Act P → Prop
  | .other .. => False
  | _ => True

/-- Only `filewrite` uses `f`. -/
def Act.writeOnly {P : Type} : Act P → Prop
  | .filewrite .. | .run _ => True
  | _ => False

variable {P : Type} [DecidableEq P]

namespace World

/-- `p` moves to program point `c`. -/
def goto (w : World P) (p : P) (c : Pc) : World P := { w with pc := Function.update w.pc p c }

/-- `f->off += r` after `writei` wrote `r > 0` bytes of `p`'s memory from `src`, with the ghost
chunk. -/
def advance (w : World P) (p : P) (src i : ℕ) (n : ℤ) (r : ℕ) : World P :=
  { w with file := { w.file with off := w.file.off + UInt32.ofNat r },
           chunks := w.chunks ++
             [⟨p, w.file.off.toNat, Store.slice ((w.mem p).source true) src r, i, n⟩] }

end World

/-- `filewrite(f, addr, n)` up to its loop: `-1` if `f` is not writable. -/
def filewrite (w : World P) (p : P) (addr : ℕ) (n : ℤ) : World P :=
  if w.file.writable = false then w.goto p (.done (-1)) else w.goto p (.write addr n 0)

/-- One iteration of `filewrite`'s loop at byte `i`: the chunk `n1 = min(n - i, max)` in its own
transaction, or the exit `ret = (i == n ? n : -1)`. `none` is a panic in `writei`. -/
def filewriteStep (sb : Superblock) (w : World P) (p : P) (addr : ℕ) (n : ℤ) (i : ℕ) :
    Option (World P) :=
  if (i : ℤ) < n then
    let n1 := min (n - i) maxChunk
    match writei sb w.ip w.d (w.mem p) true (addr + i) w.file.off (UInt32.ofNat n1.toNat) with
    | none => none
    | some (r, ip, d) =>
      let w' : World P := { w with ip := ip, d := d }
      let w' := if 0 < r then w'.advance p (addr + i) i n r.toNat else w'
      -- `if(r != n1) break;` leaves the loop with `i < n`
      some (w'.goto p (if r ≠ n1 then .done (-1) else .write addr n (i + r.toNat)))
  else some (w.goto p (.done (if (i : ℤ) = n then n else -1)))

/-- `fileread(f, addr, n)`: `readi` at `f->off` under the inode's lock, then `f->off += r`. The
`int n` reaches `readi` as a `uint`. -/
def fileread (sb : Superblock) (w : World P) (p : P) (addr : ℕ) (n : ℤ) : Option (World P) :=
  if w.file.readable = false then some (w.goto p (.done (-1)))
  else
    match readi sb w.ip w.d (w.mem p) true addr w.file.off (UInt32.ofInt n) with
    | none => none
    | some (r, ip, d, m) =>
      let file := if 0 < r then { w.file with off := w.file.off + UInt32.ofNat r.toNat } else w.file
      some ({ w with file := file, ip := ip, d := d, mem := Function.update w.mem p m }.goto p
        (.done r))

/-- A `writei` on the inode through another open file. -/
def other (sb : Superblock) (w : World P) (q : P) (src : ℕ) (off n : UInt32) : Option (World P) :=
  match writei sb w.ip w.d (w.mem q) true src off n with
  | none => none
  | some (_, ip, d) => some { w with ip := ip, d := d }

/-- One step: a call, the next chunk of a `filewrite`, or a write through another file. -/
def step (sb : Superblock) (w : World P) : Act P → Option (World P)
  | .filewrite p addr n => if (w.pc p).outside then some (filewrite w p addr n) else none
  | .fileread p addr n => if (w.pc p).outside then fileread sb w p addr n else none
  | .run p =>
    match w.pc p with
    | .write addr n i => filewriteStep sb w p addr n i
    | _ => none
  | .other q src off n => other sb w q src off n

/-- The states the model starts from: the inode owns its blocks and has no hole, no process is
in a call and no chunk is written yet. -/
structure Init (sb : Superblock) (w : World P) : Prop where
  owned : Owned sb w.ip w.d
  noHoles : NoHoles w.ip w.d w.ip.size
  inum : w.ip.inum < sb.ninodes
  idle : ∀ p, w.pc p = .idle
  chunks : w.chunks = []

/-! ### What one `writei` or `readi` does -/

/-- `f->off += r` does not wrap while the sum fits. -/
theorem toNat_add_ofNat {off : UInt32} {r : ℕ} (h : off.toNat + r < 2 ^ 32) :
    (off + UInt32.ofNat r).toNat = off.toNat + r := by
  rw [UInt32.toNat_add, UInt32.toNat_ofNat', Nat.mod_eq_of_lt (by omega : r < 2 ^ 32),
    Nat.mod_eq_of_lt h]

theorem maxfile_lt : MAXFILE * BSIZE < 2 ^ 32 := by decide

section Effect

variable {sb : Superblock} {ip ip' : Inode} {d d' : Blocks}

/-- What a `writei(ip, user, a, off, n)` that returned `r` leaves: the inode still owns its
blocks with no hole, the file keeps its bytes before `off` and holds the first `r` bytes of the
source from `off` on. -/
structure Written (sb : Superblock) (ip : Inode) (d : Blocks) (src : ℕ → UInt8) (a : ℕ)
    (off : UInt32) (r : ℤ) (ip' : Inode) (d' : Blocks) : Prop where
  owned : Owned sb ip' d'
  noHoles : NoHoles ip' d' ip'.size
  inum : ip'.inum = ip.inum
  fits : 0 < r → off.toNat + r.toNat ≤ MAXFILE * BSIZE
  before : ∀ k < off.toNat, (content ip' d')[k]? = (content ip d)[k]?
  bytes : ∀ i < r.toNat, (content ip' d')[off.toNat + i]? = some (src (a + i))

theorem writei_written (hl : sb.Layout) (ho : Owned sb ip d) (hh : NoHoles ip d ip.size)
    (hinum : ip.inum < sb.ninodes) {mem : Mem} {user : Bool} {a : ℕ} {off n : UInt32} {r : ℤ}
    (h : writei sb ip d mem user a off n = some (r, ip', d')) :
    Written sb ip d (mem.source user) a off r ip' d' := by
  by_cases hg : ip.size < off.toNat ∨ off + n < off ∨ MAXFILE * BSIZE < (off + n).toNat
  · -- off the end, wrapping around or too long: `-1`, and nothing changes
    rw [writei_guard hg, Option.some.injEq, Prod.mk.injEq, Prod.mk.injEq] at h
    obtain ⟨rfl, rfl, rfl⟩ := h
    exact ⟨ho, hh, rfl, fun h => absurd h (by decide), fun _ _ => rfl,
      fun i hi => absurd hi (by simp)⟩
  · obtain ⟨hsize, hwrap, hmax⟩ : ¬ ip.size < off.toNat ∧ ¬ off + n < off ∧
        ¬ MAXFILE * BSIZE < (off + n).toNat := by tauto
    have hok : ¬ (ip.size < off.toNat ∨ off + n < off) := not_or.mpr ⟨hsize, hwrap⟩
    obtain ⟨t, j, ip₁, d₁, hw, htj, -, hip₁, ho₁, hh₁, hc, -⟩ :=
      writei_spec hl ho hh hinum mem user a off n hok (Nat.le_of_not_lt hmax)
    rw [hw, Option.some.injEq, Prod.mk.injEq, Prod.mk.injEq] at h
    obtain ⟨rfl, rfl, rfl⟩ := h
    have hadd := toNat_add_of_not_lt hwrap
    have hsize₁ : ip₁.size = max ip.size (off.toNat + t) := congrArg Inode.size hip₁
    have hlen : (content ip d).length = ip.size := Store.length_slice _ _ _
    refine ⟨ho₁, hh₁, by rw [hip₁], fun _ => ?_, fun k hk => ?_, fun i hi => ?_⟩
    · rw [Int.toNat_natCast]
      omega
    · rw [hc, Store.getElem?_splice_left _ _ _ hk (by omega) (by omega)]
    · rw [Int.toNat_natCast] at hi
      rw [hc, Store.getElem?_splice_mid _ _ _ (by omega) (by rw [Store.length_slice]; omega)
        (by omega) (by omega), Store.getElem?_slice _ _ (by omega)]

/-- `readi` leaves the inode and its blocks alone, and what it returns fits in the file. -/
theorem readi_read (hh : NoHoles ip d ip.size) {mem m' : Mem} {user : Bool} {a : ℕ}
    {off n : UInt32} {r : ℤ} (h : readi sb ip d mem user a off n = some (r, ip', d', m')) :
    ip' = ip ∧ d' = d ∧ (0 < r → off.toNat + r.toNat ≤ ip.size ∧ off.toNat + r.toNat < 2 ^ 32) := by
  obtain ⟨hg, hm⟩ := readi_spec sb hh mem user a off n
  by_cases hgd : ip.size < off.toNat ∨ off + n < off
  · rw [hg hgd, Option.some.injEq, Prod.mk.injEq, Prod.mk.injEq, Prod.mk.injEq] at h
    obtain ⟨rfl, rfl, rfl, -⟩ := h
    exact ⟨rfl, rfl, fun h => absurd h (lt_irrefl 0)⟩
  · obtain ⟨j, hj, hr, -, -⟩ := hm hgd
    rw [hr, Option.some.injEq, Prod.mk.injEq, Prod.mk.injEq, Prod.mk.injEq] at h
    obtain ⟨hr', rfl, rfl, -⟩ := h
    have hadd := toNat_add_of_not_lt (not_or.mp hgd).2
    have hlt := UInt32.toNat_lt (off + n)
    refine ⟨rfl, rfl, fun hpos => ?_⟩
    -- a positive return is the whole `min(n, size - off)`
    split_ifs at hr' with hjl
    · rw [← hr', Int.toNat_natCast]
      omega
    · omega

end Effect

/-! ### Inversion of the steps -/

section Steps

variable {sb : Superblock} {w w' : World P} {p : P}

theorem step_filewrite {addr : ℕ} {n : ℤ} (h : step sb w (.filewrite p addr n) = some w') :
    w' = filewrite w p addr n := by
  simp only [step] at h
  split_ifs at h
  exact (Option.some.inj h).symm

theorem step_fileread {addr : ℕ} {n : ℤ} (h : step sb w (.fileread p addr n) = some w') :
    fileread sb w p addr n = some w' := by
  simp only [step] at h
  split_ifs at h
  exact h

theorem step_run (h : step sb w (.run p) = some w') :
    ∃ addr n i, w.pc p = .write addr n i ∧ filewriteStep sb w p addr n i = some w' := by
  simp only [step] at h
  split at h
  · exact ⟨_, _, _, ‹_›, h⟩
  · exact absurd h (by simp)

/-- The cases of `filewriteStep`: the loop exit, or the chunk `writei` wrote. -/
theorem filewriteStep_cases {addr : ℕ} {n : ℤ} {i : ℕ}
    (h : filewriteStep sb w p addr n i = some w') :
    (¬ (i : ℤ) < n ∧ w' = w.goto p (.done (if (i : ℤ) = n then n else -1))) ∨
    ∃ r ip d, (i : ℤ) < n ∧
      writei sb w.ip w.d (w.mem p) true (addr + i) w.file.off
        (UInt32.ofNat (min (n - i) maxChunk).toNat) = some (r, ip, d) ∧
      w' = (if 0 < r then ({ w with ip := ip, d := d } : World P).advance p (addr + i) i n r.toNat
        else { w with ip := ip, d := d }).goto p
          (if r ≠ min (n - i) maxChunk then .done (-1) else .write addr n (i + r.toNat)) := by
  unfold filewriteStep at h
  by_cases hin : (i : ℤ) < n
  · rw [if_pos hin] at h
    dsimp only at h
    split at h
    · exact absurd h (by simp)
    · exact .inr ⟨_, _, _, hin, ‹_›, (Option.some.inj h).symm⟩
  · rw [if_neg hin] at h
    exact .inl ⟨hin, (Option.some.inj h).symm⟩

end Steps

/-! ### The invariant -/

section Invariant

variable {sb : Superblock}

/-- What every reachable state satisfies. -/
structure Inv (sb : Superblock) (w : World P) : Prop where
  owned : Owned sb w.ip w.d
  noHoles : NoHoles w.ip w.d w.ip.size
  inum : w.ip.inum < sb.ninodes
  /-- Each chunk starts at or after the end of every earlier one. -/
  ordered : w.chunks.Pairwise fun c c' => c.stop ≤ c'.start
  below : ∀ c ∈ w.chunks, c.stop ≤ w.file.off.toNat
  /-- Only a call of more than `maxChunk` bytes has a chunk past its first. -/
  parts : ∀ c ∈ w.chunks, 0 < c.part → (maxChunk : ℤ) < c.total
  calls : ∀ p addr n i, w.pc p = .write addr n i → 0 < i → (i : ℤ) < n → (maxChunk : ℤ) < n

omit [DecidableEq P] in
theorem inv_init {w : World P} (h : Init sb w) : Inv sb w := by
  refine ⟨h.owned, h.noHoles, h.inum, ?_, ?_, ?_, fun p addr n i hp => ?_⟩
  · rw [h.chunks]
    exact List.Pairwise.nil
  · simp [h.chunks]
  · simp [h.chunks]
  · rw [h.idle p] at hp
    cases hp

theorem Inv.goto {w : World P} (hi : Inv sb w) {p : P} {c : Pc}
    (hc : ∀ addr n i, c = .write addr n i → 0 < i → (i : ℤ) < n → (maxChunk : ℤ) < n) :
    Inv sb (w.goto p c) := by
  refine ⟨hi.owned, hi.noHoles, hi.inum, hi.ordered, hi.below, hi.parts, fun q addr n i hq => ?_⟩
  by_cases hqp : q = p
  · subst hqp
    simp only [World.goto, Function.update_self] at hq
    exact hc addr n i hq
  · simp only [World.goto, Function.update_of_ne hqp] at hq
    exact hi.calls q addr n i hq

/-- Leaving a call keeps the invariant. -/
theorem Inv.goto_done {w : World P} (hi : Inv sb w) (p : P) (r : ℤ) : Inv sb (w.goto p (.done r)) :=
  hi.goto fun _ _ _ hc => by cases hc

omit [DecidableEq P] in
theorem Inv.inode {w : World P} (hi : Inv sb w) {ip : Inode} {d : Blocks} (ho : Owned sb ip d)
    (hh : NoHoles ip d ip.size) (hinum : ip.inum < sb.ninodes) : Inv sb { w with ip := ip, d := d } :=
  ⟨ho, hh, hinum, hi.ordered, hi.below, hi.parts, hi.calls⟩

omit [DecidableEq P] in
/-- The new chunk starts at `f->off`, past every earlier one, and `f->off` moves to its end. -/
theorem Inv.advance {w : World P} (hi : Inv sb w) {p : P} {src i r : ℕ} {n : ℤ}
    (hfit : w.file.off.toNat + r < 2 ^ 32) (hpart : 0 < i → (maxChunk : ℤ) < n) :
    Inv sb (w.advance p src i n r) := by
  have hoff : (w.file.off + UInt32.ofNat r).toNat = w.file.off.toNat + r := toNat_add_ofNat hfit
  refine ⟨hi.owned, hi.noHoles, hi.inum, ?_, fun c hc => ?_, fun c hc => ?_, hi.calls⟩
  · show (w.chunks ++ _).Pairwise _
    rw [List.pairwise_append]
    refine ⟨hi.ordered, List.pairwise_singleton _ _, fun c hc c' hc' => ?_⟩
    rw [List.mem_singleton.mp hc']
    exact hi.below c hc
  · show c.stop ≤ (w.file.off + UInt32.ofNat r).toNat
    rw [hoff]
    rcases List.mem_append.mp hc with hc | hc
    · have := hi.below c hc
      omega
    · rw [List.mem_singleton.mp hc]
      simp [Chunk.stop]
  · rcases List.mem_append.mp hc with hc | hc
    · exact hi.parts c hc
    · rw [List.mem_singleton.mp hc]
      exact hpart

theorem Inv.filewrite {w : World P} (hi : Inv sb w) (p : P) (addr : ℕ) (n : ℤ) :
    Inv sb (filewrite w p addr n) := by
  unfold Share.filewrite
  split_ifs
  · exact hi.goto_done p _
  · -- a fresh call has written nothing
    exact hi.goto fun _ _ _ hc h0 _ => by cases hc; exact absurd h0 (lt_irrefl 0)

theorem Inv.fileread {w w' : World P} (hi : Inv sb w) {p : P} {addr : ℕ} {n : ℤ}
    (h : fileread sb w p addr n = some w') : Inv sb w' := by
  unfold Share.fileread at h
  split_ifs at h
  · exact Option.some.inj h ▸ hi.goto_done p _
  · split at h
    · exact absurd h (by simp)
    · rename_i r ip d m hread
      obtain ⟨rfl, rfl, hfit⟩ := readi_read hi.noHoles hread
      rw [← Option.some.inj h]
      have hread : Inv sb { w with mem := Function.update w.mem p m, file := if 0 < r then
          { w.file with off := w.file.off + UInt32.ofNat r.toNat } else w.file } := by
        refine ⟨hi.owned, hi.noHoles, hi.inum, hi.ordered, fun c hc => ?_, hi.parts, hi.calls⟩
        -- the offset only grows
        have := hi.below c hc
        dsimp only
        split_ifs with hpos
        · rw [toNat_add_ofNat (hfit hpos).2]
          omega
        · exact this
      exact hread.goto_done p r

omit [DecidableEq P] in
theorem Inv.other (hl : sb.Layout) {w w' : World P} (hi : Inv sb w) {q : P} {src : ℕ}
    {off n : UInt32} (h : other sb w q src off n = some w') : Inv sb w' := by
  unfold Share.other at h
  split at h
  · exact absurd h (by simp)
  · rename_i r ip d hw
    have hwr := writei_written hl hi.owned hi.noHoles hi.inum hw
    rw [← Option.some.inj h]
    exact hi.inode hwr.owned hwr.noHoles (hwr.inum ▸ hi.inum)

theorem Inv.filewriteStep (hl : sb.Layout) {w w' : World P} (hi : Inv sb w) {p : P} {addr : ℕ}
    {n : ℤ} {i : ℕ} (hpc : w.pc p = .write addr n i) (h : filewriteStep sb w p addr n i = some w') :
    Inv sb w' := by
  rcases filewriteStep_cases h with ⟨-, rfl⟩ | ⟨r, ip, d, hin, hw, rfl⟩
  · exact hi.goto_done p _
  · have hwr := writei_written hl hi.owned hi.noHoles hi.inum hw
    have h₁ : Inv sb { w with ip := ip, d := d } :=
      hi.inode hwr.owned hwr.noHoles (hwr.inum ▸ hi.inum)
    have h₂ : Inv sb (if 0 < r then ({ w with ip := ip, d := d } : World P).advance p (addr + i) i
        n r.toNat else { w with ip := ip, d := d }) := by
      split_ifs with hr
      · have := hwr.fits hr
        exact h₁.advance (by have := maxfile_lt; dsimp only; omega)
          fun h0 => hi.calls p addr n i hpc h0 hin
      · exact h₁
    apply h₂.goto
    -- the loop goes on after a full chunk, and a second one is left only past `maxChunk` bytes
    intro addr' n' i' hc hi' hlt
    split_ifs at hc with hne
    rw [Pc.write.injEq] at hc
    obtain ⟨rfl, rfl, rfl⟩ := hc
    omega

/-- **One step keeps the invariant.** -/
theorem Inv.step (hl : sb.Layout) {w w' : World P} (hi : Inv sb w) {a : Act P}
    (h : step sb w a = some w') : Inv sb w' := by
  cases a with
  | filewrite p addr n =>
    rw [step_filewrite h]
    exact hi.filewrite p addr n
  | fileread p addr n => exact hi.fileread (step_fileread h)
  | run p =>
    obtain ⟨addr, n, i, hpc, h'⟩ := step_run h
    exact hi.filewriteStep hl hpc h'
  | other q src off n => exact hi.other hl h

theorem inv_of_reachable (hl : sb.Layout) {init : World P → Prop} (h0 : ∀ w, init w → Init sb w)
    {allowed : Act P → Prop} {w : World P} (hw : Reach.Reachable init (step sb) allowed w) :
    Inv sb w :=
  hw.invariant (fun w h => inv_init (h0 w h)) fun _ _ _ hi _ hs => hi.step hl hs

end Invariant

/-! ### Where the chunks land -/

section Land

variable {sb : Superblock}

/-- **A chunk lands at `f->off`.** An iteration of `filewrite`'s loop leaves the bytes before
`f->off` alone, and either writes no chunk and keeps `f->off`, or writes one chunk at `f->off`
that is in the file afterwards, and moves `f->off` to its end. -/
theorem filewriteStep_lands (hl : sb.Layout) {w w' : World P} (hi : Inv sb w) {p : P} {addr : ℕ}
    {n : ℤ} {i : ℕ} (h : filewriteStep sb w p addr n i = some w') :
    (∀ k < w.file.off.toNat, (content w'.ip w'.d)[k]? = (content w.ip w.d)[k]?) ∧
    ((w'.chunks = w.chunks ∧ w'.file.off = w.file.off) ∨
      ∃ c, w'.chunks = w.chunks ++ [c] ∧ c.start = w.file.off.toNat ∧ w'.file.off.toNat = c.stop ∧
        ∀ k < c.data.length, (content w'.ip w'.d)[c.start + k]? = c.data[k]?) := by
  rcases filewriteStep_cases h with ⟨-, rfl⟩ | ⟨r, ip, d, -, hw, rfl⟩
  · exact ⟨fun _ _ => rfl, .inl ⟨rfl, rfl⟩⟩
  · have hwr := writei_written hl hi.owned hi.noHoles hi.inum hw
    by_cases hr : 0 < r
    · rw [if_pos hr]
      refine ⟨hwr.before, .inr ⟨_, rfl, rfl, ?_, fun k hk => ?_⟩⟩
      · show (w.file.off + UInt32.ofNat r.toNat).toNat = w.file.off.toNat + (Store.slice _ _ _).length
        have := hwr.fits hr
        rw [Store.length_slice, toNat_add_ofNat (by have := maxfile_lt; omega)]
      · -- the chunk's bytes are the source's, which `writei` put at `f->off`
        rw [Store.length_slice] at hk
        exact (hwr.bytes k hk).trans (Store.getElem?_slice _ _ hk).symm
    · rw [if_neg hr]
      exact ⟨hwr.before, .inl ⟨rfl, rfl⟩⟩

/-- Every chunk's bytes are where it wrote them. -/
def Landed (w : World P) : Prop :=
  ∀ c ∈ w.chunks, ∀ k < c.data.length, (content w.ip w.d)[c.start + k]? = c.data[k]?

omit [DecidableEq P] in
theorem landed_init {w : World P} (h : Init sb w) : Landed w := by
  intro c hc
  rw [h.chunks] at hc
  cases hc

theorem Landed.filewriteStep (hl : sb.Layout) {w w' : World P} (hi : Inv sb w) (hL : Landed w)
    {p : P} {addr : ℕ} {n : ℤ} {i : ℕ} (h : filewriteStep sb w p addr n i = some w') :
    Landed w' := by
  obtain ⟨hbefore, hstep⟩ := filewriteStep_lands hl hi h
  -- the earlier chunks lie below `f->off`, which the chunk does not touch
  have hold : ∀ c ∈ w.chunks, ∀ k < c.data.length, (content w'.ip w'.d)[c.start + k]? = c.data[k]? := by
    intro c hc k hk
    have := hi.below c hc
    rw [hbefore _ (by unfold Chunk.stop at this; omega)]
    exact hL c hc k hk
  rcases hstep with ⟨hch, -⟩ | ⟨c, hch, -, -, hc⟩
  · intro c' hc'
    rw [hch] at hc'
    exact hold c' hc'
  · intro c' hc'
    rw [hch] at hc'
    rcases List.mem_append.mp hc' with hc' | hc'
    · exact hold c' hc'
    · rw [List.mem_singleton.mp hc']
      exact hc

/-- **While the inode is used only through `f`, one step keeps every chunk's bytes.** -/
theorem Landed.step (hl : sb.Layout) {w w' : World P} (hi : Inv sb w) (hL : Landed w)
    {a : Act P} (ha : a.throughF) (h : step sb w a = some w') : Landed w' := by
  cases a with
  | filewrite p addr n =>
    rw [step_filewrite h]
    unfold Share.filewrite
    split_ifs <;> exact hL
  | fileread p addr n =>
    have h' := step_fileread h
    unfold Share.fileread at h'
    split_ifs at h'
    · rw [← Option.some.inj h']
      exact hL
    · split at h'
      · exact absurd h' (by simp)
      · -- `readi` changes neither the inode nor its blocks
        rename_i r ip d m hread
        obtain ⟨rfl, rfl, -⟩ := readi_read hi.noHoles hread
        rw [← Option.some.inj h']
        exact hL
  | run p =>
    obtain ⟨addr, n, i, -, h'⟩ := step_run h
    exact hL.filewriteStep hl hi h'
  | other q src off n => exact ha.elim

theorem landed_of_reachable (hl : sb.Layout) {init : World P → Prop} (h0 : ∀ w, init w → Init sb w)
    {allowed : Act P → Prop} (ha : ∀ a, allowed a → a.throughF) {w : World P}
    (hw : Reach.Reachable init (step sb) allowed w) : Landed w :=
  hw.invariant_of (J := Inv sb) (fun _ hw => inv_of_reachable hl h0 hw)
    (fun w h => landed_init (h0 w h)) fun _ a _ _ hi hL ha' hs => hL.step hl hi (ha a ha') hs

/-- The chunks lie one after another from offset `o` on, and the last one ends at `e`. -/
def Chained : ℕ → List (Chunk P) → ℕ → Prop
  | o, [], e => o = e
  | o, c :: cs, e => c.start = o ∧ Chained c.stop cs e

omit [DecidableEq P] in
theorem Chained.append {c : Chunk P} {cs : List (Chunk P)} :
    ∀ {o e : ℕ}, Chained o cs e → c.start = e → Chained o (cs ++ [c]) c.stop := by
  induction cs with
  | nil =>
    intro o e h hc
    exact ⟨hc.trans h.symm, rfl⟩
  | cons c' cs ih =>
    intro o e h hc
    exact ⟨h.1, ih h.2 hc⟩

omit [DecidableEq P] in
/-- Chained chunks end their total length past where they start. -/
theorem Chained.eq_add_sum {cs : List (Chunk P)} :
    ∀ {o e : ℕ}, Chained o cs e → e = o + (cs.map fun c => c.data.length).sum := by
  induction cs with
  | nil =>
    intro o e h
    simp only [List.map_nil, List.sum_nil, Nat.add_zero]
    exact h.symm
  | cons c cs ih =>
    intro o e h
    have hrest := ih h.2
    rw [List.map_cons, List.sum_cons]
    unfold Chunk.stop at hrest
    rw [h.1] at hrest
    omega

/-- **While only `filewrite` uses `f`, one step keeps the chunks chained up to `f->off`.** -/
theorem Chained.step (hl : sb.Layout) {w w' : World P} (hi : Inv sb w) {o : ℕ}
    (hc : Chained o w.chunks w.file.off.toNat) {a : Act P} (ha : a.writeOnly)
    (h : step sb w a = some w') : Chained o w'.chunks w'.file.off.toNat := by
  cases a with
  | filewrite p addr n =>
    rw [step_filewrite h]
    unfold Share.filewrite
    split_ifs <;> exact hc
  | run p =>
    obtain ⟨addr, n, i, -, h'⟩ := step_run h
    rcases (filewriteStep_lands hl hi h').2 with ⟨hch, hoff⟩ | ⟨c, hch, hstart, hoff, -⟩
    · rw [hch, hoff]
      exact hc
    · rw [hch, hoff]
      exact hc.append hstart
  | fileread p addr n => exact ha.elim
  | other q src off n => exact ha.elim

theorem chained_of_reachable (hl : sb.Layout) {o : ℕ} {w : World P}
    (hw : Reach.Reachable (fun w => Init sb w ∧ w.file.off.toNat = o) (step sb) Act.writeOnly w) :
    Chained o w.chunks w.file.off.toNat :=
  hw.invariant_of (I := fun w => Chained o w.chunks w.file.off.toNat) (J := Inv sb)
    (fun _ hw => inv_of_reachable hl (fun _ h => h.1) hw)
    (fun w h => by rw [h.1.chunks]; exact h.2.symm) fun _ _ _ _ hi hc ha hs => hc.step hl hi ha hs

end Land

/-! ### No lost update through a shared offset -/

section Main

variable {sb : Superblock}

/-- **No lost update on a shared offset.** Let processes share `f` and call `fileread` and
`filewrite` on it in any interleaving, each chunk under the inode's lock, with other open files
writing the inode too. Then:
* the chunks written through `f` are in file order, each at or after the end of every earlier
  one and below `f->off`, and a call of at most `maxChunk` bytes writes only its first chunk;
* each iteration of `filewrite`'s loop leaves the bytes before `f->off` alone and either writes
  no chunk and keeps `f->off`, or writes one chunk at `f->off`, which then holds its bytes, and
  moves `f->off` to its end;
* while nothing else writes the inode, the file holds the bytes of every chunk;
* while only `filewrite` uses `f`, from offset `o` on, the chunks are consecutive from `o`, and
  `f->off` is `o` plus their total length. -/
theorem shared_file_offset (hl : sb.Layout) :
    (∀ w : World P, Reach.Reachable (Init sb) (step sb) (fun _ => True) w →
      w.chunks.Pairwise (fun c c' => c.stop ≤ c'.start) ∧
      (∀ c ∈ w.chunks, c.stop ≤ w.file.off.toNat) ∧
      ∀ c ∈ w.chunks, c.total ≤ maxChunk → c.part = 0) ∧
    (∀ (w w' : World P) (p : P), Reach.Reachable (Init sb) (step sb) (fun _ => True) w →
      step sb w (.run p) = some w' →
      (∀ k < w.file.off.toNat, (content w'.ip w'.d)[k]? = (content w.ip w.d)[k]?) ∧
      ((w'.chunks = w.chunks ∧ w'.file.off = w.file.off) ∨
        ∃ c, w'.chunks = w.chunks ++ [c] ∧ c.start = w.file.off.toNat ∧
          w'.file.off.toNat = c.stop ∧
          ∀ k < c.data.length, (content w'.ip w'.d)[c.start + k]? = c.data[k]?)) ∧
    (∀ w : World P, Reach.Reachable (Init sb) (step sb) Act.throughF w → Landed w) ∧
    (∀ (o : ℕ) (w : World P),
      Reach.Reachable (fun w => Init sb w ∧ w.file.off.toNat = o) (step sb) Act.writeOnly w →
      Chained o w.chunks w.file.off.toNat ∧
      w.file.off.toNat = o + (w.chunks.map fun c => c.data.length).sum ∧ Landed w) := by
  refine ⟨fun w hw => ?_, fun w w' p hw h => ?_, fun w hw => ?_, fun o w hw => ?_⟩
  · have hi := inv_of_reachable hl (fun _ h => h) hw
    refine ⟨hi.ordered, hi.below, fun c hc ht => ?_⟩
    -- a chunk past the first belongs to a call of more than `maxChunk` bytes
    by_contra h0
    have := hi.parts c hc (Nat.pos_of_ne_zero h0)
    omega
  · obtain ⟨addr, n, i, -, h'⟩ := step_run h
    exact filewriteStep_lands hl (inv_of_reachable hl (fun _ h => h) hw) h'
  · exact landed_of_reachable hl (fun _ h => h) (fun _ h => h) hw
  · have hch := chained_of_reachable hl hw
    have hthrough : ∀ a : Act P, a.writeOnly → a.throughF := by
      intro a ha
      cases a <;> simp only [Act.writeOnly, Act.throughF] at ha ⊢
    exact ⟨hch, hch.eq_add_sum, landed_of_reachable hl (fun _ h => h.1) hthrough hw⟩

end Main

end Share

end Xv6
