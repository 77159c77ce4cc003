import Xv6.Log.Header
import Xv6.Lib.Disk
import Xv6.Lib.Reach

/-!
# Crash atomicity of the log (`commit`, `recover_from_log`)

`commit()` writes a transaction in four phases, each a sequence of atomic block writes
(`Disk.Op`): `write_log` copies the cached blocks to the log's slots, `write_head` stores the
header (the commit point), `install_trans(0)` copies the slots home, and a second `write_head`
stores an empty header. `recover_from_log()` reads the header, installs what it names and
stores an empty header.

A crash stops a program after any prefix of its writes. `Crashed` is every disk a crash during
`commit()`, followed by crashes during any number of recoveries, can leave, and
`commit_crash_atomic` says what a recovery that completes makes of it: every home block of the
transaction holds its old contents or every one its new contents, the header is empty, and
every block outside the transaction and the log is untouched.

The proof is one invariant of the crashed disks (`Consistent`): either the header is empty and
the homes are all old or all new, or the header is the committed one, every slot holds its new
contents and each home is old or new. A recovery prefix keeps it (`Consistent.recover`), and
so does a commit prefix (`consistent_commit`), whose last two phases are a recovery.
-/

namespace Xv6

namespace Log

open Disk Header

section Programs

variable (start : ℕ)

/-- `write_log`: copy each logged block from the cache to its slot `log.start + tail + 1`. -/
def writeLog (cache : ℕ → Block) : ℕ → List ℕ → List (Op ℕ Block)
  | _, [] => []
  | tail, k :: ks => .write (start + tail + 1) (cache k) :: writeLog cache (tail + 1) ks

/-- `install_trans`: copy each logged block from its slot to its home. -/
def installTrans : ℕ → List ℕ → List (Op ℕ Block)
  | _, [] => []
  | tail, k :: ks => .copy (start + tail + 1) k :: installTrans (tail + 1) ks

/-- `write_head`: store the in-memory header `lh` in the log's first block. -/
def writeHead (lh : List ℕ) : Op ℕ Block := .modify start fun b => writeHeader b lh

/-- `commit()` of the in-memory header `lh`, where `cache` gives the contents of the cached
buffers. -/
def commitOps (cache : ℕ → Block) (lh : List ℕ) : List (Op ℕ Block) :=
  if 0 < lh.length then
    writeLog start cache 0 lh ++ [writeHead start lh] ++ installTrans start 0 lh ++
      [writeHead start []]
  else []

/-- `recover_from_log()` on the disk `d`: `read_head`, `install_trans(1)`, and an empty
header. -/
def recoverOps (d : ℕ → Block) : List (Op ℕ Block) :=
  installTrans start 0 (readHeader (d start)) ++ [writeHead start []]

/-- The disks a crash can leave: during `commit()` from the disk `d0`, then during any number
of runs of `recover_from_log()`, each crash after any number of block writes. -/
def Crashed (cache : ℕ → Block) (lh : List ℕ) (d0 : ℕ → Block) : (ℕ → Block) → Prop :=
  Reach.Reachable (fun d => ∃ k, d = exec d0 ((commitOps start cache lh).take k))
    (fun d k => some (exec d ((recoverOps start d).take k))) (fun _ => True)

end Programs

/-! ### What the phases write -/

section Phases

variable {start : ℕ} {cache : ℕ → Block}

theorem length_writeLog : ∀ (tail : ℕ) (ks : List ℕ),
    (writeLog start cache tail ks).length = ks.length
  | _, [] => rfl
  | tail, _ :: ks => by rw [writeLog, List.length_cons, length_writeLog (tail + 1) ks,
      List.length_cons]

/-- `write_log` only writes the slots. -/
theorem target_writeLog : ∀ {tail : ℕ} {ks : List ℕ} {o : Op ℕ Block},
    o ∈ writeLog start cache tail ks → ∃ i < ks.length, o.target = start + tail + i + 1
  | _, [], _, h => absurd h List.not_mem_nil
  | tail, k :: ks, o, h => by
    rcases List.mem_cons.mp h with rfl | h
    · exact ⟨0, by simp, rfl⟩
    · obtain ⟨i, hi, ho⟩ := target_writeLog h
      exact ⟨i + 1, by simpa using hi, by rw [ho]; omega⟩

/-- After `write_log`, slot `i` holds the cached contents of block `i` of the header. -/
theorem exec_writeLog_slot : ∀ (d : ℕ → Block) (tail : ℕ) (ks : List ℕ) (i : ℕ)
    (h : i < ks.length), exec d (writeLog start cache tail ks) (start + tail + i + 1) = cache ks[i]
  | _, _, [], _, h => absurd h (by simp)
  | d, tail, k :: ks, 0, _ => by
    -- the later writes go to later slots
    rw [writeLog, exec_cons, exec_of_forall_ne]
    · exact Function.update_self ..
    · intro o ho
      obtain ⟨i, -, hi⟩ := target_writeLog ho
      omega
  | d, tail, k :: ks, i + 1, h => by
    have e : start + tail + (i + 1) + 1 = start + (tail + 1) + i + 1 := by omega
    rw [writeLog, exec_cons, e, exec_writeLog_slot _ (tail + 1) ks i (by simpa using h)]
    rfl

/-- `install_trans` only writes the homes. -/
theorem length_installTrans : ∀ (tail : ℕ) (ks : List ℕ),
    (installTrans start tail ks).length = ks.length
  | _, [] => rfl
  | tail, _ :: ks => by rw [installTrans, List.length_cons, length_installTrans (tail + 1) ks,
      List.length_cons]

theorem target_installTrans : ∀ {tail : ℕ} {ks : List ℕ} {o : Op ℕ Block},
    o ∈ installTrans start tail ks → o.target ∈ ks
  | _, [], _, h => absurd h List.not_mem_nil
  | tail, k :: ks, o, h => by
    rcases List.mem_cons.mp h with rfl | h
    · exact List.mem_cons_self
    · exact List.mem_cons_of_mem _ (target_installTrans h)

/-- **`install_trans` interrupted.** If every slot holds the new contents of its home, after
any prefix every home holds what it held or its new contents, and after all of it every home
holds its new contents. -/
theorem exec_installTrans : ∀ (d : ℕ → Block) (tail : ℕ) (ks : List ℕ) (j : ℕ), ks.Nodup →
    (∀ k ∈ ks, ∀ i < ks.length, k ≠ start + tail + i + 1) →
    (∀ i (h : i < ks.length), d (start + tail + i + 1) = cache ks[i]) →
    (∀ k ∈ ks, exec d ((installTrans start tail ks).take j) k = d k ∨
      exec d ((installTrans start tail ks).take j) k = cache k) ∧
    (ks.length ≤ j → ∀ k ∈ ks, exec d ((installTrans start tail ks).take j) k = cache k)
  | _, _, [], _, _, _, _ =>
    ⟨fun _ h => absurd h List.not_mem_nil, fun _ _ h => absurd h List.not_mem_nil⟩
  | d, _, _ :: _, 0, _, _, _ => ⟨fun _ _ => .inl rfl, fun h => absurd h (by simp)⟩
  | d, tail, k :: ks, j + 1, hnd, hhome, hslot => by
    obtain ⟨hk, hnd'⟩ := List.nodup_cons.mp hnd
    -- the first copy brings `k` home; the rest sees the same slots
    have hd' : Function.update d k (d (start + tail + 1)) = Function.update d k (cache k) := by
      rw [show start + tail + 1 = start + tail + 0 + 1 from rfl, hslot 0 (by simp)]
      rfl
    have hslot' : ∀ i (h : i < ks.length),
        Function.update d k (cache k) (start + (tail + 1) + i + 1) = cache ks[i] := by
      intro i h
      have e : start + (tail + 1) + i + 1 = start + tail + (i + 1) + 1 := by omega
      rw [e, Function.update_of_ne (hhome k List.mem_cons_self (i + 1) (by simpa using h)).symm,
        hslot (i + 1) (by simpa using h)]
      rfl
    have hhome' : ∀ k' ∈ ks, ∀ i < ks.length, k' ≠ start + (tail + 1) + i + 1 := by
      intro k' hk' i hi
      have := hhome k' (List.mem_cons_of_mem _ hk') (i + 1) (by simpa using hi)
      omega
    obtain ⟨ih₁, ih₂⟩ := exec_installTrans (Function.update d k (cache k)) (tail + 1) ks j hnd'
      hhome' hslot'
    simp only [installTrans, List.take_succ_cons, exec_cons, Op.exec, hd']
    -- `k` is not written again
    have hk_rest :
        exec (Function.update d k (cache k)) ((installTrans start (tail + 1) ks).take j) k =
          cache k := by
      rw [exec_of_forall_ne]
      · exact Function.update_self ..
      · intro o ho e
        exact hk (e ▸ target_installTrans (List.mem_of_mem_take ho))
    refine ⟨fun k' hk' => ?_, fun hlen k' hk' => ?_⟩
    · rcases List.mem_cons.mp hk' with rfl | hk'
      · exact .inr hk_rest
      · rw [← Function.update_of_ne (fun e : k' = k => hk (e ▸ hk')) (cache k) d]
        exact ih₁ k' hk'
    · rcases List.mem_cons.mp hk' with rfl | hk'
      · exact hk_rest
      · exact ih₂ (by simpa using hlen) k' hk'

end Phases

/-! ### The invariant of crashed disks -/

/-- A transaction `commit()` can write: distinct home blocks (log absorption) outside the log
area `[start, start + size)`, no more than the header holds and the log's slots take, each a
`uint` block number. -/
structure Group (start size : ℕ) (lh : List ℕ) : Prop where
  nodup : lh.Nodup
  length_le : lh.length ≤ LOGSIZE
  fits : lh.length < size
  home : ∀ k ∈ lh, k < start ∨ start + size ≤ k
  word : ∀ k ∈ lh, k < 2 ^ 32

/-- What a crash can leave of the disk `d0` and the cached contents `cache` of the transaction
`lh`. Outside the log and the transaction nothing has changed; either the header is empty and
the homes are all old or all new, or the header is the committed one, each slot holds the new
contents of its home, and each home is old or new. -/
def Consistent (start size : ℕ) (d0 cache : ℕ → Block) (lh : List ℕ) (d : ℕ → Block) : Prop :=
  (∀ x, x ∉ lh → (x < start ∨ start + size ≤ x) → d x = d0 x) ∧
  ((getWord (d start) 0 = 0 ∧ ((∀ k ∈ lh, d k = d0 k) ∨ (∀ k ∈ lh, d k = cache k))) ∨
   (readHeader (d start) = lh ∧ (∀ i (h : i < lh.length), d (start + i + 1) = cache lh[i]) ∧
     ∀ k ∈ lh, d k = d0 k ∨ d k = cache k))

section Invariant

variable {start size : ℕ} {d0 cache : ℕ → Block} {lh : List ℕ}

/-- The header block and the slots are not homes. -/
theorem Group.ne_log (hg : Group start size lh) {k : ℕ} (hk : k ∈ lh) (i : ℕ) (hi : i < size) :
    k ≠ start + i := by
  have := hg.home k hk
  omega

/-- After a complete recovery the header is empty. -/
theorem getWord_recover (d : ℕ → Block) : getWord (exec d (recoverOps start d) start) 0 = 0 := by
  rw [recoverOps, exec_append, exec_cons, exec_nil, writeHead, Op.exec, Function.update_self]
  exact getWord_writeHeader_nil _

/-- A consistent disk with an empty header has its homes all old or all new. -/
theorem Consistent.atomic_of_clean {d : ℕ → Block} (h : Consistent start size d0 cache lh d)
    (hc : getWord (d start) 0 = 0) : (∀ k ∈ lh, d k = d0 k) ∨ (∀ k ∈ lh, d k = cache k) := by
  rcases h.2 with ⟨-, hhome⟩ | ⟨hhdr, -, -⟩
  · exact hhome
  · -- a committed header that is empty commits nothing
    rw [readHeader_eq_nil hc] at hhdr
    subst hhdr
    exact .inl fun _ h => absurd h List.not_mem_nil

/-- **A recovery prefix keeps the invariant.** From an empty header a recovery only stores an
empty header again; from the committed header it installs, and stores an empty header once
every home is new. -/
theorem Consistent.recover (hg : Group start size lh) {d : ℕ → Block}
    (h : Consistent start size d0 cache lh d) (k : ℕ) :
    Consistent start size d0 cache lh (exec d ((recoverOps start d).take k)) := by
  have hstart : ∀ k ∈ lh, k ≠ start := fun k hk => by
    simpa using hg.ne_log hk 0 (by have := hg.fits; omega)
  obtain ⟨hout, ⟨hc, hhome⟩ | ⟨hhdr, hslot, hhome⟩⟩ := h
  · -- the header is empty: nothing to install
    rw [recoverOps, readHeader_eq_nil hc]
    cases k with
    | zero => exact ⟨hout, .inl ⟨hc, hhome⟩⟩
    | succ k =>
      simp only [installTrans, List.nil_append, List.take_succ_cons, List.take_nil, exec_cons,
        exec_nil, writeHead, Op.exec]
      refine ⟨fun x hx hx' => ?_, .inl ⟨?_, ?_⟩⟩
      · rw [Function.update_of_ne (by have := hg.fits; omega)]
        exact hout x hx hx'
      · rw [Function.update_self]
        exact getWord_writeHeader_nil _
      · rcases hhome with hh | hh
        · exact .inl fun k hk => (Function.update_of_ne (hstart k hk) _ _).trans (hh k hk)
        · exact .inr fun k hk => (Function.update_of_ne (hstart k hk) _ _).trans (hh k hk)
  · -- the header commits `lh`: install, then empty the header
    rw [recoverOps, hhdr, exec_take_append, length_installTrans]
    have hslot' : ∀ i (h : i < lh.length), d (start + 0 + i + 1) = cache lh[i] := by
      simpa using hslot
    have hhome' : ∀ k ∈ lh, ∀ i < lh.length, k ≠ start + 0 + i + 1 := by
      intro k hk i hi
      have := hg.home k hk
      have := hg.fits
      omega
    obtain ⟨hpart, hfull⟩ := exec_installTrans d 0 lh k hg.nodup hhome' hslot'
    -- installing writes only homes
    have hkeep : ∀ x, x ∉ lh → exec d ((installTrans start 0 lh).take k) x = d x :=
      fun x hx => exec_of_forall_ne _ fun o ho e =>
        hx (e ▸ target_installTrans (List.mem_of_mem_take ho))
    have hslot_ne : ∀ i, i < lh.length → start + i + 1 ∉ lh := by
      intro i hi hm
      have := hg.fits
      exact hg.ne_log hm (i + 1) (by omega) rfl
    by_cases hk : k ≤ lh.length
    · -- interrupted: the header still commits `lh`
      rw [Nat.sub_eq_zero_of_le hk, List.take_zero, exec_nil]
      refine ⟨fun x hx hx' => (hkeep x hx).trans (hout x hx hx'), .inr ⟨?_, ?_, ?_⟩⟩
      · rw [hkeep start fun hm => hstart start hm rfl]
        exact hhdr
      · intro i hi
        rw [hkeep _ (hslot_ne i hi)]
        exact hslot i hi
      · intro k hk
        rcases hpart k hk with e | e
        · rw [e]
          exact hhome k hk
        · exact .inr e
    · -- complete: every home is new, then the header is emptied
      obtain ⟨j, hj⟩ : ∃ j, k - lh.length = j + 1 := ⟨k - lh.length - 1, by omega⟩
      rw [hj, List.take_succ_cons, List.take_nil, exec_cons, exec_nil, writeHead, Op.exec]
      refine ⟨fun x hx hx' => ?_, .inl ⟨?_, .inr fun k hk => ?_⟩⟩
      · rw [Function.update_of_ne (by have := hg.fits; omega), hkeep x hx]
        exact hout x hx hx'
      · rw [Function.update_self]
        exact getWord_writeHeader_nil _
      · rw [Function.update_of_ne (hstart k hk)]
        exact hfull (by omega) k hk

/-- **A commit prefix is consistent.** During `write_log` only slots change; once the header
is written the disk commits `lh`, and the rest of `commit()` is what a recovery of that disk
does. -/
theorem consistent_commit (hg : Group start size lh) (hclean : getWord (d0 start) 0 = 0)
    (k : ℕ) : Consistent start size d0 cache lh (exec d0 ((commitOps start cache lh).take k)) := by
  unfold commitOps
  split_ifs with hpos
  swap
  · simp only [List.take_nil, exec_nil]
    exact ⟨fun _ _ _ => rfl, .inl ⟨hclean, .inl fun _ _ => rfl⟩⟩
  rw [List.append_assoc, List.append_assoc, exec_take_append, length_writeLog]
  -- `write_log` writes only the slots `start + 1 .. start + lh.length`
  have hwl : ∀ j x, (x < start + 1 ∨ start + 1 + lh.length ≤ x) →
      exec d0 ((writeLog start cache 0 lh).take j) x = d0 x := by
    intro j x hx
    apply exec_of_forall_ne
    intro o ho e
    obtain ⟨i, hi, hio⟩ := target_writeLog (List.mem_of_mem_take ho)
    omega
  have hwl_all : ∀ x, (x < start + 1 ∨ start + 1 + lh.length ≤ x) →
      exec d0 (writeLog start cache 0 lh) x = d0 x := by
    intro x hx
    have := hwl lh.length x hx
    rwa [List.take_of_length_le (by rw [length_writeLog])] at this
  by_cases hk : k ≤ lh.length
  · -- crash during `write_log`: the header is still empty
    rw [Nat.sub_eq_zero_of_le hk, List.take_zero, exec_nil]
    refine ⟨fun x _ hx => hwl k x (by have := hg.fits; omega), .inl ⟨?_, .inl fun k hk => ?_⟩⟩
    · rw [hwl k start (by omega)]
      exact hclean
    · exact hwl _ k (by have := hg.home k hk; have := hg.fits; omega)
  -- `write_log` complete, then `write_head`: the commit point
  rw [List.take_of_length_le (by rw [length_writeLog]; omega)]
  obtain ⟨j, hj⟩ : ∃ j, k - lh.length = j + 1 := ⟨k - lh.length - 1, by omega⟩
  rw [hj, List.singleton_append, List.take_succ_cons, exec_cons]
  have hstart : ∀ k ∈ lh, k ≠ start := fun k hk => by
    simpa using hg.ne_log hk 0 (by have := hg.fits; omega)
  have hhdr : readHeader ((writeHead start lh).exec (exec d0 (writeLog start cache 0 lh)) start) =
      lh := by
    rw [writeHead, Op.exec, Function.update_self]
    exact readHeader_writeHeader _ hg.length_le hg.word
  have hcommitted : Consistent start size d0 cache lh
      ((writeHead start lh).exec (exec d0 (writeLog start cache 0 lh))) := by
    simp only [writeHead, Op.exec] at hhdr ⊢
    refine ⟨fun x hx hx' => ?_, .inr ⟨hhdr, fun i hi => ?_, fun k hk => .inl ?_⟩⟩
    · rw [Function.update_of_ne (by have := hg.fits; omega)]
      exact hwl_all x (by have := hg.fits; omega)
    · rw [Function.update_of_ne (by omega)]
      simpa using exec_writeLog_slot d0 0 lh i hi
    · rw [Function.update_of_ne (hstart k hk)]
      exact hwl_all k (by have := hg.home k hk; have := hg.fits; omega)
  have hrec : installTrans start 0 lh ++ [writeHead start []] =
      recoverOps start ((writeHead start lh).exec (exec d0 (writeLog start cache 0 lh))) := by
    rw [recoverOps, hhdr]
  rw [hrec]
  exact hcommitted.recover hg j

end Invariant

/-! ### Crash atomicity -/

section Atomicity

variable {start size : ℕ} {d0 cache : ℕ → Block} {lh : List ℕ}

/-- **Crash atomicity of a commit.** Start from a disk whose header is empty, crash during
`commit()` and then during any number of recoveries: a recovery that completes leaves every
home block of the transaction old, or every one new, an empty header, and every block outside
the transaction and the log as it was. -/
theorem commit_crash_atomic (hg : Group start size lh) (hclean : getWord (d0 start) 0 = 0)
    {d : ℕ → Block} (hd : Crashed start cache lh d0 d) :
    ((∀ k ∈ lh, exec d (recoverOps start d) k = d0 k) ∨
      (∀ k ∈ lh, exec d (recoverOps start d) k = cache k)) ∧
    getWord (exec d (recoverOps start d) start) 0 = 0 ∧
    ∀ x, x ∉ lh → (x < start ∨ start + size ≤ x) → exec d (recoverOps start d) x = d0 x := by
  have hc : Consistent start size d0 cache lh d := by
    refine hd.invariant (fun d ⟨k, hk⟩ => hk ▸ consistent_commit hg hclean k) ?_
    intro d k t hc _ h
    obtain rfl := Option.some.inj h
    exact hc.recover hg k
  have hfin := hc.recover hg (recoverOps start d).length
  rw [List.take_length] at hfin
  exact ⟨hfin.atomic_of_clean (getWord_recover d), getWord_recover d, hfin.1⟩

end Atomicity

end Log

end Xv6
