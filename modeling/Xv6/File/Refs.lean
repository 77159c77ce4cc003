import Xv6.File.Table
import Xv6.Lib.Ends
import Mathlib.Algebra.Ring.Int.Defs
import Mathlib.Algebra.Ring.Nat

/-!
# Reference counts of the file table

Two invariants hold in every state the calls reach from boot (`reachable_inv`).

* `Held s 0`: each file's `ref` is the number of descriptors, over all processes, that name it.
  During a call the count is off by what the call holds: a file `filealloc` took and not yet
  installed, a descriptor cleared before its `fileclose`. `Held s R` keeps that account in
  `R`, and each call is proved to end with `R = 0`.
* `Wf s`: a file not in use has type `FD_NONE`; a pipe end is marked open exactly when one
  file in use is that end, and a pipe with both ends closed is freed; the inode references the
  files hold are one per file in use on the inode.

From them no call panics (`step_isSome`): every `filedup` and `fileclose` is of a file in use,
and every `pipeclose` of a pipe not yet freed.
-/

namespace Xv6.Ftable

/-! ### The state updates -/

section Updates

variable (s : Sys)

@[simp] theorem setFile_file_self (k : Fin NFILE) (f : File) : (s.setFile k f).file k = f :=
  Function.update_self _ _ _

@[simp] theorem setFile_file_of_ne {j k : Fin NFILE} (h : j ≠ k) (f : File) :
    (s.setFile k f).file j = s.file j :=
  Function.update_of_ne h _ _

@[simp] theorem setFile_ofile (k : Fin NFILE) (f : File) : (s.setFile k f).ofile = s.ofile := rfl

@[simp] theorem setFile_pipe (k : Fin NFILE) (f : File) : (s.setFile k f).pipe = s.pipe := rfl

@[simp] theorem setFile_npipe (k : Fin NFILE) (f : File) : (s.setFile k f).npipe = s.npipe := rfl

@[simp] theorem setFile_iref (k : Fin NFILE) (f : File) : (s.setFile k f).iref = s.iref := rfl

@[simp] theorem setOfile_file (p : Fin NPROC) (fd : Fin NOFILE) (v : Option (Fin NFILE)) :
    (s.setOfile p fd v).file = s.file := rfl

@[simp] theorem setOfile_pipe (p : Fin NPROC) (fd : Fin NOFILE) (v : Option (Fin NFILE)) :
    (s.setOfile p fd v).pipe = s.pipe := rfl

@[simp] theorem setOfile_npipe (p : Fin NPROC) (fd : Fin NOFILE) (v : Option (Fin NFILE)) :
    (s.setOfile p fd v).npipe = s.npipe := rfl

@[simp] theorem setOfile_iref (p : Fin NPROC) (fd : Fin NOFILE) (v : Option (Fin NFILE)) :
    (s.setOfile p fd v).iref = s.iref := rfl

theorem setOfile_ofile (p q : Fin NPROC) (fd i : Fin NOFILE) (v : Option (Fin NFILE)) :
    (s.setOfile p fd v).ofile q i = if q = p ∧ i = fd then v else s.ofile q i := by
  unfold Sys.setOfile
  by_cases hq : q = p
  · subst hq
    by_cases hi : i = fd
    · subst hi
      simp
    · simp [hi]
  · simp [hq]

end Updates

/-! ### The account of references -/

/-- The descriptors, over all processes, that name file `k`. -/
def nfd (s : Sys) (k : Fin NFILE) : ℕ :=
  Count.count (fun q : Fin NPROC × Fin NOFILE => s.ofile q.1 q.2) (· = some k)

/-- **The ledger of references**: each file's `ref` is the descriptors that name it and the
`R k` references a call in progress holds; `R k` is negative while a descriptor is installed
before its `filedup`. -/
def Held (s : Sys) (R : Fin NFILE → ℤ) : Prop :=
  ∀ k, ((s.file k).ref : ℤ) = nfd s k + R k

/-- `R` with `d` more at `k`. -/
def bump (R : Fin NFILE → ℤ) (k : Fin NFILE) (d : ℤ) : Fin NFILE → ℤ :=
  fun j => R j + if j = k then d else 0

section Ledger

variable {s : Sys} {R : Fin NFILE → ℤ}

@[simp] theorem bump_self (R : Fin NFILE → ℤ) (k : Fin NFILE) (d : ℤ) : bump R k d k = R k + d := by
  simp [bump]

@[simp] theorem bump_of_ne (R : Fin NFILE → ℤ) {j k : Fin NFILE} (h : j ≠ k) (d : ℤ) :
    bump R k d j = R j := by
  simp [bump, h]

@[simp] theorem nfd_setFile (k : Fin NFILE) (f : File) : nfd (s.setFile k f) = nfd s := rfl

/-- Setting one descriptor moves one count from its old file to its new one. -/
theorem nfd_setOfile (p : Fin NPROC) (fd : Fin NOFILE) (v : Option (Fin NFILE)) (k : Fin NFILE) :
    (nfd (s.setOfile p fd v) k : ℤ) =
      nfd s k - (if s.ofile p fd = some k then 1 else 0) + (if v = some k then 1 else 0) := by
  -- the descriptors of all processes, as one population of pairs
  have hfun : (fun q : Fin NPROC × Fin NOFILE => (s.setOfile p fd v).ofile q.1 q.2) =
      Function.update (fun q : Fin NPROC × Fin NOFILE => s.ofile q.1 q.2) (p, fd) v := by
    funext q
    rw [setOfile_ofile, Function.update_apply]
    exact if_congr (by rw [Prod.ext_iff]) rfl rfl
  have h := Count.count_update (Q := (· = some k))
    (fun q : Fin NPROC × Fin NOFILE => s.ofile q.1 q.2) (p, fd) v
  rw [← hfun] at h
  unfold nfd
  split_ifs at h ⊢ <;> omega

theorem Held.congr (h : Held s R) {R' : Fin NFILE → ℤ} (hR : ∀ k, R k = R' k) : Held s R' :=
  fun k => (h k).trans (by rw [hR])

/-- A change that keeps every `ref` and every descriptor keeps the ledger. -/
theorem Held.of_eq (h : Held s R) {s' : Sys} (hf : ∀ k, (s'.file k).ref = (s.file k).ref)
    (ho : s'.ofile = s.ofile) : Held s' R := by
  intro k
  have hn : nfd s' k = nfd s k := by unfold nfd; rw [ho]
  rw [hf, hn]
  exact h k

/-- Setting a descriptor from `old` to `v`: the call now holds the reference `old` held, and
`v`'s reference is the descriptor's. -/
theorem Held.setOfile (h : Held s R) (p : Fin NPROC) (fd : Fin NOFILE) (v : Option (Fin NFILE)) :
    Held (s.setOfile p fd v) fun k =>
      R k + (if s.ofile p fd = some k then 1 else 0) - (if v = some k then 1 else 0) := by
  intro k
  rw [setOfile_file, h k, nfd_setOfile]
  dsimp only
  split_ifs <;> omega

/-- Installing file `k` in a free descriptor hands one reference of the call to it. -/
theorem Held.install (h : Held s R) {p : Fin NPROC} {fd : Fin NOFILE} (hfree : s.ofile p fd = none)
    (k : Fin NFILE) : Held (s.setOfile p fd (some k)) (bump R k (-1)) := by
  refine (h.setOfile p fd (some k)).congr fun j => ?_
  simp only [hfree, reduceCtorEq, if_false, Option.some.injEq, bump]
  by_cases hj : j = k
  · simp only [hj, if_true]
    omega
  · simp [hj, Ne.symm hj]

/-- Clearing a descriptor of file `k` gives its reference to the call. -/
theorem Held.uninstall (h : Held s R) {p : Fin NPROC} {fd : Fin NOFILE} {k : Fin NFILE}
    (hk : s.ofile p fd = some k) : Held (s.setOfile p fd none) (bump R k 1) := by
  refine (h.setOfile p fd none).congr fun j => ?_
  simp only [hk, Option.some.injEq, reduceCtorEq, if_false, bump]
  by_cases hj : j = k
  · simp [hj]
  · simp [hj, Ne.symm hj]

/-- Changing one file's `ref` by `d` is a change of `d` in what the call holds. -/
theorem Held.setRef (h : Held s R) (k : Fin NFILE) (f : File) :
    Held (s.setFile k f) (bump R k ((f.ref : ℤ) - (s.file k).ref)) := by
  intro j
  by_cases hj : j = k
  · subst hj
    rw [setFile_file_self, nfd_setFile, bump, if_pos rfl, ← add_assoc, ← h j]
    omega
  · rw [setFile_file_of_ne _ hj, nfd_setFile, bump, if_neg hj, add_zero]
    exact h j

/-- With no call in progress, `ref` is the count of descriptors. -/
theorem Held.zero (h : Held s 0) (k : Fin NFILE) : (s.file k).ref = nfd s k := by
  have := h k
  simp only [Pi.zero_apply, add_zero] at this
  omega

/-- A descriptor that names file `k` is counted. -/
theorem nfd_pos {p : Fin NPROC} {fd : Fin NOFILE} {k : Fin NFILE} (hk : s.ofile p fd = some k) :
    0 < nfd s k :=
  Count.count_pos (f := fun q : Fin NPROC × Fin NOFILE => s.ofile q.1 q.2) (p := (p, fd)) hk

end Ledger

/-! ### The well-formed table -/

/-- File `f` is in use as end `w` of pipe `pi`: its write end for `w = true`. -/
def File.IsEnd (f : File) (pi : ℕ) (w : Bool) : Prop :=
  0 < f.ref ∧ f.type = .pipe ∧ f.pipe = pi ∧ f.writable = w

/-- File `f` is in use on inode `ip`. -/
def File.OnInode (f : File) (ip : ℕ) : Prop :=
  0 < f.ref ∧ (f.type = .inode ∨ f.type = .device) ∧ f.ip = ip

instance (f : File) (ip : ℕ) : Decidable (f.OnInode ip) :=
  inferInstanceAs (Decidable (_ ∧ _ ∧ _))

/-- End `w` of pipe `pp` is open: `writeopen` for the write end, `readopen` for the read end. -/
def isOpen (pp : Pipe) (w : Bool) : Bool := if w then pp.writeopen else pp.readopen

/-- The files in use on inode `ip`. -/
def nopen (s : Sys) (ip : ℕ) : ℕ := Count.count s.file (File.OnInode · ip)

/-- **The file table is well formed.** -/
structure Wf (s : Sys) : Prop where
  /-- `fileclose` leaves a file it frees `FD_NONE`. -/
  free : ∀ k, (s.file k).ref = 0 → (s.file k).type = .none
  /-- A pipe end is open exactly when a file in use is that end. -/
  ends : ∀ pi w, (∃ k, (s.file k).IsEnd pi w) ↔ ∃ pp, s.pipe pi = some pp ∧ isOpen pp w = true
  /-- One file at most is a given end of a pipe. -/
  unique : ∀ k k' pi w, (s.file k).IsEnd pi w → (s.file k').IsEnd pi w → k = k'
  /-- A pipe with both ends closed has been freed. -/
  freed : ∀ pi pp, s.pipe pi = some pp → pp.readopen = true ∨ pp.writeopen = true
  /-- No pipe has a number not yet given out. -/
  fresh : ∀ pi, s.npipe ≤ pi → s.pipe pi = none
  /-- The files hold one reference on the inode of each file in use. -/
  iref : ∀ ip, s.iref ip = nopen s ip

section Table

variable {s : Sys}

theorem isEnd_of_ref {f : File} {n : ℕ} (hn : 0 < n) (hf : 0 < f.ref) (pi : ℕ) (w : Bool) :
    ({ f with ref := n } : File).IsEnd pi w ↔ f.IsEnd pi w := by
  simp [File.IsEnd, hn, hf]

theorem onInode_of_ref {f : File} {n : ℕ} (hn : 0 < n) (hf : 0 < f.ref) (ip : ℕ) :
    ({ f with ref := n } : File).OnInode ip ↔ f.OnInode ip := by
  simp [File.OnInode, hn, hf]

theorem not_isEnd_of_none {f : File} (h : f.type = .none) (pi : ℕ) (w : Bool) : ¬ f.IsEnd pi w :=
  fun he => by rw [he.2.1] at h; cases h

theorem not_onInode_of_none {f : File} (h : f.type = .none) (ip : ℕ) : ¬ f.OnInode ip := by
  rintro ⟨-, ht | ht, -⟩ <;> rw [ht] at h <;> cases h

/-- Setting one file's inode count: `nopen` loses its old answer and gains its new one. -/
theorem nopen_setFile (k : Fin NFILE) (f : File) (ip : ℕ) :
    nopen (s.setFile k f) ip + (if (s.file k).OnInode ip then 1 else 0) =
      nopen s ip + (if f.OnInode ip then 1 else 0) :=
  Count.count_update s.file k f

/-- **Setting a file that is no pipe end before or after.** With the inode count `I` it leaves,
the table stays well formed. -/
theorem Wf.setFile (hw : Wf s) (k : Fin NFILE) (f : File) (hfree : f.ref = 0 → f.type = .none)
    (hend : ∀ pi w, f.IsEnd pi w ↔ (s.file k).IsEnd pi w) {I : ℕ → ℕ}
    (hI : ∀ ip, I ip = nopen (s.setFile k f) ip) : Wf { s.setFile k f with iref := I } := by
  -- every file is the same pipe end as before
  have hE : ∀ j pi w, ((s.setFile k f).file j).IsEnd pi w ↔ (s.file j).IsEnd pi w := by
    intro j pi w
    by_cases hj : j = k
    · subst hj
      rw [setFile_file_self]
      exact hend pi w
    · rw [setFile_file_of_ne _ hj]
  refine ⟨fun j hj => ?_, fun pi w => ?_, fun j j' pi w h h' => ?_, hw.freed, hw.fresh, hI⟩
  · by_cases hjk : j = k
    · subst hjk
      simp only [setFile_file_self] at hj ⊢
      exact hfree hj
    · simp only [setFile_file_of_ne _ hjk] at hj ⊢
      exact hw.free j hj
  · simp only [hE, setFile_pipe]
    exact hw.ends pi w
  · exact hw.unique j j' pi w ((hE j pi w).mp h) ((hE j' pi w).mp h')

/-- Setting a file that is the same pipe end and on the same inode as before. -/
theorem Wf.setFile_same (hw : Wf s) (k : Fin NFILE) (f : File) (hfree : f.ref = 0 → f.type = .none)
    (hend : ∀ pi w, f.IsEnd pi w ↔ (s.file k).IsEnd pi w)
    (hon : ∀ ip, f.OnInode ip ↔ (s.file k).OnInode ip) : Wf (s.setFile k f) :=
  hw.setFile k f hfree hend fun ip => by
    have h := nopen_setFile (s := s) k f ip
    rw [hw.iref ip]
    simp only [hon] at h
    omega

/-- The table does not read the descriptors. -/
theorem Wf.setOfile (hw : Wf s) (p : Fin NPROC) (fd : Fin NOFILE) (v : Option (Fin NFILE)) :
    Wf (s.setOfile p fd v) :=
  ⟨hw.free, hw.ends, hw.unique, hw.freed, hw.fresh, hw.iref⟩

/-- A file in use whose `ref` changes and stays positive. -/
theorem Wf.setRef (hw : Wf s) {k : Fin NFILE} (hk : 0 < (s.file k).ref) {n : ℕ} (hn : 0 < n) :
    Wf (s.setFile k { s.file k with ref := n }) :=
  hw.setFile_same k _ (fun h => absurd h (Nat.pos_iff_ne_zero.mp hn)) (isEnd_of_ref hn hk)
    (onInode_of_ref hn hk)

end Table

/-! ### `filealloc`, `filedup`, `fdalloc` and `argfd` -/

section Calls

variable {s s' : Sys} {R : Fin NFILE → ℤ}

theorem filealloc_eq_some {k : Fin NFILE} (h : filealloc s = some (k, s')) :
    (s.file k).ref = 0 ∧ s' = s.setFile k { s.file k with ref := 1 } := by
  unfold filealloc at h
  cases hf : (List.finRange NFILE).find? fun k => (s.file k).ref == 0 with
  | none =>
    rw [hf] at h
    cases h
  | some j =>
    rw [hf, Option.some.injEq, Prod.mk.injEq] at h
    obtain ⟨rfl, rfl⟩ := h
    exact ⟨by simpa using List.find?_some hf, rfl⟩

/-- **`filealloc`** takes a free file, still `FD_NONE`, and one reference of it for the call. -/
theorem filealloc_spec (hw : Wf s) (hh : Held s R) {k : Fin NFILE} (h : filealloc s = some (k, s')) :
    Wf s' ∧ Held s' (bump R k 1) ∧ s'.ofile = s.ofile ∧ (s'.file k).ref = 1 ∧
      (s'.file k).type = .none := by
  obtain ⟨h0, rfl⟩ := filealloc_eq_some h
  have hnone := hw.free k h0
  refine ⟨hw.setFile_same k _ (fun h1 => absurd h1 one_ne_zero) (fun pi w => ?_) (fun ip => ?_),
    (hh.setRef k _).congr fun j => by simp [bump, h0], rfl, by simp, by simpa using hnone⟩
  · exact iff_of_false (not_isEnd_of_none (f := { s.file k with ref := 1 }) hnone pi w)
      fun he => he.1.ne' h0
  · exact iff_of_false (not_onInode_of_none (f := { s.file k with ref := 1 }) hnone ip)
      fun ho => ho.1.ne' h0

/-- **`filedup`** of a file in use takes one more reference of it for the call. -/
theorem filedup_spec (hw : Wf s) (hh : Held s R) {k : Fin NFILE} (hk : 0 < (s.file k).ref) :
    ∃ s', filedup s k = some s' ∧ Wf s' ∧ Held s' (bump R k 1) ∧ s'.ofile = s.ofile := by
  refine ⟨_, if_neg (Nat.not_lt.mpr hk), hw.setRef hk (Nat.succ_pos _),
    (hh.setRef k _).congr fun j => ?_, rfl⟩
  simp only [bump]
  split_ifs <;> omega

theorem fdalloc_eq_some {p : Fin NPROC} {k : Fin NFILE} {fd : Fin NOFILE}
    (h : fdalloc s p k = some (fd, s')) : s.ofile p fd = none ∧ s' = s.setOfile p fd (some k) := by
  unfold fdalloc at h
  cases hf : (List.finRange NOFILE).find? fun fd => (s.ofile p fd).isNone with
  | none =>
    rw [hf] at h
    cases h
  | some j =>
    rw [hf, Option.some.injEq, Prod.mk.injEq] at h
    obtain ⟨rfl, rfl⟩ := h
    exact ⟨by simpa using List.find?_some hf, rfl⟩

/-- **`fdalloc`** hands the call's reference of `k` to a descriptor that was free. -/
theorem fdalloc_spec (hw : Wf s) (hh : Held s R) {p : Fin NPROC} {k : Fin NFILE} {fd : Fin NOFILE}
    (h : fdalloc s p k = some (fd, s')) :
    Wf s' ∧ Held s' (bump R k (-1)) ∧ s.ofile p fd = none ∧ s'.ofile p fd = some k ∧
      s'.file = s.file := by
  obtain ⟨hfree, rfl⟩ := fdalloc_eq_some h
  exact ⟨hw.setOfile p fd _, hh.install hfree k, hfree, by simp [setOfile_ofile], rfl⟩

theorem argfd_eq_some {p : Fin NPROC} {fd : ℤ} {i : Fin NOFILE} {k : Fin NFILE}
    (h : argfd s p fd = some (i, k)) : s.ofile p i = some k := by
  unfold argfd at h
  split_ifs at h with hb
  obtain ⟨k', hk', hik⟩ := Option.map_eq_some_iff.mp h
  rw [Prod.mk.injEq] at hik
  obtain ⟨rfl, rfl⟩ := hik
  exact hk'

end Calls

/-! ### `fileclose` -/

section Close

variable {s : Sys} {R : Fin NFILE → ℤ}

/-- The file `fileclose` leaves after the last reference: free, and `FD_NONE`. -/
def cleared (f : File) : File := { f with ref := 0, type := .none }

/-- Clearing the only file that is end `(pi₀, w₀)`: every other end stays. -/
theorem isEnd_clear (hw : Wf s) {k : Fin NFILE} (hend : (s.file k).IsEnd (s.file k).pipe
    (s.file k).writable) (j : Fin NFILE) (pi : ℕ) (w : Bool) :
    ((s.setFile k (cleared (s.file k))).file j).IsEnd pi w ↔
      (s.file j).IsEnd pi w ∧ ¬ (pi = (s.file k).pipe ∧ w = (s.file k).writable) := by
  by_cases hj : j = k
  · subst hj
    rw [setFile_file_self]
    refine iff_of_false (not_isEnd_of_none rfl pi w) ?_
    rintro ⟨⟨-, -, hpi, hw'⟩, hne⟩
    exact hne ⟨hpi.symm, hw'.symm⟩
  · rw [setFile_file_of_ne _ hj]
    refine ⟨fun he => ⟨he, ?_⟩, And.left⟩
    rintro ⟨rfl, rfl⟩
    exact hj (hw.unique j k _ _ he hend)

/-- What `pipeclose` leaves of pipe `pp` once end `w₀` is closed: `none` where it frees it. -/
def closeEnd (pp : Pipe) (w₀ : Bool) : Option Pipe :=
  let pp := if w₀ then { pp with writeopen := false } else { pp with readopen := false }
  if pp.readopen = false ∧ pp.writeopen = false then none else some pp

theorem pipeclose_eq {pi : ℕ} {pp : Pipe} (hpp : s.pipe pi = some pp) (w₀ : Bool) :
    pipeclose s pi w₀ = some { s with pipe := Function.update s.pipe pi (closeEnd pp w₀) } := by
  unfold pipeclose closeEnd
  rw [hpp]
  dsimp only
  split_ifs <;> rfl

/-- After `pipeclose`, end `w₀` is closed and the other as it was. -/
theorem isOpen_closeEnd (pp : Pipe) (hpp : pp.readopen = true ∨ pp.writeopen = true) (w₀ w : Bool) :
    (∃ pp', closeEnd pp w₀ = some pp' ∧ isOpen pp' w = true) ↔ (isOpen pp w && w != w₀) = true := by
  obtain ⟨data, nr, nw, ro, wo⟩ := pp
  cases ro <;> cases wo <;> cases w₀ <;> cases w <;> simp_all [closeEnd, isOpen]

/-- `pipeclose` keeps a pipe only with an end open. -/
theorem closeEnd_freed {pp pp' : Pipe} {w₀ : Bool} (h : closeEnd pp w₀ = some pp') :
    pp'.readopen = true ∨ pp'.writeopen = true := by
  obtain ⟨data, nr, nw, ro, wo⟩ := pp
  cases ro <;> cases wo <;> cases w₀ <;> simp [closeEnd] at h <;> subst h <;> simp

/-- **The last reference to a pipe end.** `pipeclose` finds the pipe, closes that end, and frees
the pipe if the other end is closed too; the table stays well formed. -/
theorem pipeclose_spec (hw : Wf s) {k : Fin NFILE} (hk : (s.file k).ref = 1)
    (ht : (s.file k).type = .pipe) :
    ∃ s', pipeclose (s.setFile k (cleared (s.file k))) (s.file k).pipe (s.file k).writable =
        some s' ∧ Wf s' ∧ s'.file = (s.setFile k (cleared (s.file k))).file ∧ s'.ofile = s.ofile := by
  set f := s.file k with hf
  have hend : f.IsEnd f.pipe f.writable := ⟨by omega, ht, rfl, rfl⟩
  obtain ⟨pp, hpp, hopen⟩ := (hw.ends f.pipe f.writable).mp ⟨k, hend⟩
  have hE : ∀ j pi w, ((s.setFile k (cleared f)).file j).IsEnd pi w ↔
      (s.file j).IsEnd pi w ∧ ¬ (pi = f.pipe ∧ w = f.writable) :=
    isEnd_clear hw hend
  have hlt : f.pipe < s.npipe := Nat.lt_of_not_le fun h => by rw [hw.fresh _ h] at hpp; cases hpp
  -- the cleared file is on no inode, before or after
  have hnopen : ∀ ip, s.iref ip = nopen (s.setFile k (cleared f)) ip := by
    intro ip
    have h := nopen_setFile (s := s) k (cleared f) ip
    have hold : ¬ f.OnInode ip := by rintro ⟨-, h' | h', -⟩ <;> rw [h'] at ht <;> cases ht
    rw [if_neg (not_onInode_of_none (f := cleared f) rfl ip), ← hf, if_neg hold] at h
    rw [hw.iref ip]
    omega
  refine ⟨_, pipeclose_eq (s := s.setFile k (cleared f)) hpp f.writable, ⟨fun j hj => ?_, fun pi w => ?_,
    fun j j' pi w h h' => ?_, fun pi pp' h => ?_, fun pi h => ?_, hnopen⟩, rfl, rfl⟩
  · by_cases hjk : j = k
    · subst hjk
      simp [cleared]
    · simp only [setFile_file_of_ne _ hjk] at hj ⊢
      exact hw.free j hj
  · -- the ends of `f`'s pipe are what `pipeclose` left; every other pipe is as it was
    simp only [hE]
    by_cases hpi : pi = f.pipe
    · subst hpi
      rw [Function.update_self, isOpen_closeEnd pp (hw.freed _ _ hpp)]
      by_cases hw' : w = f.writable
      · subst hw'
        simp
      · simp only [hw', and_false, not_false_eq_true, and_true]
        rw [hw.ends, hpp]
        simp [hw']
    · simp only [hpi, false_and, not_false_eq_true, and_true, Function.update_of_ne hpi]
      exact hw.ends pi w
  · exact hw.unique j j' pi w ((hE j pi w).mp h).1 ((hE j' pi w).mp h').1
  · dsimp only at h
    by_cases hpi : pi = f.pipe
    · subst hpi
      rw [Function.update_self] at h
      exact closeEnd_freed h
    · rw [Function.update_of_ne hpi] at h
      exact hw.freed pi pp' h
  · simp only [setFile_npipe] at h
    dsimp only
    rw [Function.update_of_ne (by omega)]
    exact hw.fresh pi h

/-- A file that is no pipe end stays none once cleared. -/
theorem isEnd_cleared {f : File} (ht : f.type ≠ .pipe) (pi : ℕ) (w : Bool) :
    (cleared f).IsEnd pi w ↔ f.IsEnd pi w :=
  iff_of_false (not_isEnd_of_none rfl pi w) fun he => ht he.2.1

/-- **The last reference to an inode's file**: `iput` gives back the reference it held. -/
theorem iput_spec (hw : Wf s) {k : Fin NFILE} (hk : (s.file k).ref = 1)
    (ht : (s.file k).type = .inode ∨ (s.file k).type = .device) :
    Wf { s.setFile k (cleared (s.file k)) with
      iref := Function.update s.iref (s.file k).ip (s.iref (s.file k).ip - 1) } := by
  have hne : (s.file k).type ≠ .pipe := by rcases ht with h | h <;> rw [h] <;> nofun
  refine hw.setFile k _ (fun _ => rfl) (isEnd_cleared hne) fun ip => ?_
  have h := nopen_setFile (s := s) k (cleared (s.file k)) ip
  rw [if_neg (not_onInode_of_none (f := cleared (s.file k)) rfl ip), ← hw.iref ip] at h
  by_cases hip : ip = (s.file k).ip
  · subst hip
    rw [if_pos ⟨by omega, ht, rfl⟩] at h
    rw [Function.update_self]
    omega
  · rw [if_neg fun ho => hip ho.2.2.symm] at h
    rw [Function.update_of_ne hip]
    omega

/-- **`fileclose`** of a file in use gives back one reference the call holds. The last one
closes the pipe end or gives back the inode; the table stays well formed. -/
theorem fileclose_spec (hw : Wf s) (hh : Held s R) {k : Fin NFILE} (hk : 0 < (s.file k).ref) :
    ∃ s', fileclose s k = some s' ∧ Wf s' ∧ Held s' (bump R k (-1)) ∧ s'.ofile = s.ofile := by
  by_cases hlast : 0 < (s.file k).ref - 1
  · -- other references remain
    refine ⟨_, ?_, hw.setRef hk hlast, (hh.setRef k _).congr fun j => ?_, rfl⟩
    · rw [fileclose]
      dsimp only
      rw [if_neg (by omega), if_pos hlast]
    · simp only [bump]
      split_ifs <;> omega
  have h1 : (s.file k).ref = 1 := by omega
  -- the file cleared, before `pipeclose` or `iput`
  have hh₁ : Held (s.setFile k (cleared (s.file k))) (bump R k (-1)) :=
    (hh.setRef k _).congr fun j => by
      simp only [bump, cleared]
      split_ifs <;> omega
  rw [fileclose]
  dsimp only
  rw [if_neg (by omega), if_neg hlast]
  -- the last reference: what is given back depends on the old type
  cases ht : (s.file k).type with
  | none =>
    refine ⟨_, rfl, hw.setFile_same k _ (fun _ => rfl) (isEnd_cleared (by rw [ht]; nofun))
      (fun ip => ?_), hh₁, rfl⟩
    exact iff_of_false (not_onInode_of_none (f := cleared (s.file k)) rfl ip)
      (not_onInode_of_none ht ip)
  | pipe =>
    obtain ⟨s', hs', hw', hf, ho⟩ := pipeclose_spec hw h1 ht
    exact ⟨s', hs', hw', hh₁.of_eq (fun j => by rw [hf]) ho, ho⟩
  | inode => exact ⟨_, rfl, iput_spec hw h1 (.inl ht), hh₁.of_eq (fun _ => rfl) rfl, rfl⟩
  | device => exact ⟨_, rfl, iput_spec hw h1 (.inr ht), hh₁.of_eq (fun _ => rfl) rfl, rfl⟩

end Close

/-! ### `sys_open` and `pipealloc`: files given a type -/

section Typed

variable {s : Sys} {R : Fin NFILE → ℤ}

/-- The ledger gives a file the call holds a reference of a positive `ref`. -/
theorem Held.ref_pos (hh : Held s R) {k : Fin NFILE} (hR : 0 < R k) : 0 < (s.file k).ref := by
  have := hh k
  omega

/-- **`sys_open`'s file**: a file in use, still `FD_NONE`, set on inode `ip`, which hands it
the reference the open took. -/
theorem Wf.setInode (hw : Wf s) {k : Fin NFILE} (hk : 0 < (s.file k).ref)
    (hnone : (s.file k).type = .none) {t : FdType} (ht : t = .inode ∨ t = .device) (ip : ℕ)
    (r w : Bool) :
    Wf { s.setFile k { s.file k with type := t, ip := ip, readable := r, writable := w } with
      iref := Function.update s.iref ip (s.iref ip + 1) } := by
  have hne : t ≠ .pipe := by rcases ht with h | h <;> rw [h] <;> nofun
  refine hw.setFile k { s.file k with type := t, ip := ip, readable := r, writable := w }
    (fun h0 => absurd h0 hk.ne') (fun pi w' => ?_) fun ip' => ?_
  · exact iff_of_false (fun he => hne he.2.1) (not_isEnd_of_none hnone pi w')
  · have h := nopen_setFile (s := s) k
      { s.file k with type := t, ip := ip, readable := r, writable := w } ip'
    rw [if_neg (not_onInode_of_none hnone ip'), ← hw.iref ip'] at h
    by_cases hip : ip' = ip
    · subst hip
      rw [if_pos ⟨hk, ht, rfl⟩] at h
      rw [Function.update_self]
      omega
    · rw [if_neg fun ho => hip ho.2.2.symm] at h
      rw [Function.update_of_ne hip]
      omega

/-- The state `pipealloc` builds from two files it took: a new pipe with both ends open, file
`f0` its read end and `f1` its write end. -/
def mkpipe (s : Sys) (f0 f1 : Fin NFILE) : Sys :=
  let pi := s.npipe
  let s := { s with pipe := Function.update s.pipe pi (some freshPipe), npipe := pi + 1 }
  let s := s.setFile f0
    { s.file f0 with type := .pipe, readable := true, writable := false, pipe := pi }
  s.setFile f1 { s.file f1 with type := .pipe, readable := false, writable := true, pipe := pi }

theorem mkpipe_file (f0 f1 j : Fin NFILE) (hne : f0 ≠ f1) : (mkpipe s f0 f1).file j =
    if j = f1 then
      { s.file f1 with type := .pipe, readable := false, writable := true, pipe := s.npipe }
    else if j = f0 then
      { s.file f0 with type := .pipe, readable := true, writable := false, pipe := s.npipe }
    else s.file j := by
  unfold mkpipe
  by_cases h1 : j = f1
  · subst h1
    simp [Ne.symm hne]
  · by_cases h0 : j = f0
    · subst h0
      simp [h1]
    · simp [h1, h0]

/-- **`pipealloc`'s pipe.** Two files in use and still `FD_NONE` become the ends of a new pipe,
which is open at both; the table stays well formed. -/
theorem Wf.newPipe (hw : Wf s) {f0 f1 : Fin NFILE} (hne : f0 ≠ f1) (h0 : 0 < (s.file f0).ref)
    (h1 : 0 < (s.file f1).ref) (t0 : (s.file f0).type = .none) (t1 : (s.file f1).type = .none) :
    Wf (mkpipe s f0 f1) := by
  -- the ends of the new state: `f0` and `f1` for the new pipe, the old ones elsewhere
  have hE : ∀ j pi w, ((mkpipe s f0 f1).file j).IsEnd pi w ↔
      (j = f1 ∧ pi = s.npipe ∧ w = true) ∨ (j = f0 ∧ pi = s.npipe ∧ w = false) ∨
        (j ≠ f0 ∧ j ≠ f1 ∧ (s.file j).IsEnd pi w) := by
    intro j pi w
    rw [mkpipe_file f0 f1 j hne]
    by_cases hj1 : j = f1
    · subst hj1
      simp [File.IsEnd, h1, eq_comm, hne]
    · by_cases hj0 : j = f0
      · subst hj0
        simp [File.IsEnd, h0, eq_comm, Ne.symm hj1]
      · simp [hj0, hj1]
  -- no file was an end of the new pipe before
  have hnew : ∀ j w, ¬ (s.file j).IsEnd s.npipe w := fun j w he => by
    obtain ⟨pp, hpp, -⟩ := (hw.ends s.npipe w).mp ⟨j, he⟩
    rw [hw.fresh _ le_rfl] at hpp
    cases hpp
  have hold : ∀ j pi w, (s.file j).IsEnd pi w → j ≠ f0 ∧ j ≠ f1 := fun j pi w he =>
    ⟨fun h => by subst h; exact not_isEnd_of_none t0 pi w he,
      fun h => by subst h; exact not_isEnd_of_none t1 pi w he⟩
  refine ⟨fun j hj => ?_, fun pi w => ?_, fun j j' pi w h h' => ?_, fun pi pp h => ?_,
    fun pi h => ?_, fun ip => ?_⟩
  · rw [mkpipe_file f0 f1 j hne] at hj ⊢
    by_cases hj1 : j = f1
    · subst hj1
      rw [if_pos rfl] at hj
      exact absurd hj h1.ne'
    · by_cases hj0 : j = f0
      · subst hj0
        rw [if_neg hj1, if_pos rfl] at hj
        exact absurd hj h0.ne'
      · rw [if_neg hj1, if_neg hj0] at hj ⊢
        exact hw.free j hj
  · simp only [hE]
    show _ ↔ ∃ pp, Function.update s.pipe s.npipe (some freshPipe) pi = some pp ∧ _
    by_cases hpi : pi = s.npipe
    · subst hpi
      simp only [Function.update_self, Option.some.injEq, exists_eq_left']
      cases w <;> simp [isOpen, freshPipe]
    · rw [Function.update_of_ne hpi, ← hw.ends pi w]
      constructor
      · rintro ⟨j, ⟨-, h, -⟩ | ⟨-, h, -⟩ | ⟨-, -, he⟩⟩
        · exact absurd h hpi
        · exact absurd h hpi
        · exact ⟨j, he⟩
      · rintro ⟨j, he⟩
        exact ⟨j, .inr (.inr ⟨(hold j pi w he).1, (hold j pi w he).2, he⟩)⟩
  · rw [hE] at h h'
    rcases h with ⟨rfl, hpi, hw1⟩ | ⟨rfl, hpi, hw1⟩ | ⟨-, -, he⟩
    · rcases h' with ⟨rfl, -, -⟩ | ⟨rfl, -, hw2⟩ | ⟨-, -, he'⟩
      · rfl
      · rw [hw1] at hw2
        cases hw2
      · rw [hpi] at he'
        exact absurd he' (hnew _ _)
    · rcases h' with ⟨rfl, -, hw2⟩ | ⟨rfl, -, -⟩ | ⟨-, -, he'⟩
      · rw [hw1] at hw2
        cases hw2
      · rfl
      · rw [hpi] at he'
        exact absurd he' (hnew _ _)
    · rcases h' with ⟨rfl, hpi, -⟩ | ⟨rfl, hpi, -⟩ | ⟨-, -, he'⟩
      · rw [hpi] at he
        exact absurd he (hnew _ _)
      · rw [hpi] at he
        exact absurd he (hnew _ _)
      · exact hw.unique _ _ _ _ he he'
  · show pp.readopen = true ∨ pp.writeopen = true
    change Function.update s.pipe s.npipe (some freshPipe) pi = some pp at h
    by_cases hpi : pi = s.npipe
    · subst hpi
      rw [Function.update_self, Option.some.injEq] at h
      exact .inl (h ▸ rfl)
    · rw [Function.update_of_ne hpi] at h
      exact hw.freed pi pp h
  · change s.npipe + 1 ≤ pi at h
    change Function.update s.pipe s.npipe (some freshPipe) pi = none
    rw [Function.update_of_ne (by omega)]
    exact hw.fresh pi (by omega)
  · -- neither file is on an inode, before or after
    show s.iref ip = Count.count (mkpipe s f0 f1).file (File.OnInode · ip)
    rw [hw.iref ip]
    unfold nopen Count.count
    congr 1
    ext j
    simp only [Finset.mem_filter, Finset.mem_univ, true_and, mkpipe_file f0 f1 j hne]
    split_ifs with hj1 hj0
    · subst hj1
      exact iff_of_false (not_onInode_of_none t1 ip) (by rintro ⟨-, h | h, -⟩ <;> cases h)
    · subst hj0
      exact iff_of_false (not_onInode_of_none t0 ip) (by rintro ⟨-, h | h, -⟩ <;> cases h)
    · rfl

end Typed

end Xv6.Ftable
