import Xv6.Lib.Reach
import Xv6.Lib.Ring
import Mathlib.Data.Fintype.Basic

/-!
# The virtio disk driver (`kernel/virtio_disk.c`)

`virtio_disk_rw(b, write)` takes three of the `NUM` DMA descriptors (`alloc3_desc`), links them
by `VRING_DESC_F_NEXT`, records `b` in `disk.info[idx[0]]`, publishes the chain's head in the
avail ring and sleeps until `virtio_disk_intr()` has found the head in the used ring and cleared
`b->disk`; it then frees the chain (`free_chain`). Both functions run under `disk.vdisk_lock`,
which `sleep` releases, so the driver is a transition system whose steps are the stretches
between sleeps:

* `call p b write`: `virtio_disk_rw` up to its first sleep, on `&disk.free[0]` when there were
  not three free descriptors and on `b` otherwise;
* `retry p`: another pass of the allocation loop, after a wakeup on `&disk.free[0]`;
* `wake p`: the wait loop, after a wakeup on `b`, finds `b->disk == 0` and frees the chain;
* `intr`: `virtio_disk_intr()`, its whole loop over the used ring;
* `fetch` and `complete h`: the device takes the next head from the avail ring, and puts a head
  it took into the used ring after writing the request's status. That is what the driver assumes
  of the device: every published head comes back once.

A sleeper may be woken at any time: `wakeup` is not modelled, and a process whose wait condition
still holds takes no step. The device sees the driver's writes whole, since the driver advances
`avail->idx` only after the chain and the ring entry are written, between
`__sync_synchronize()` barriers; a used entry the device adds while `virtio_disk_intr()` runs is
handled as one added before it, as the loop's earlier passes do not read it. The descriptors'
`addr` and `len`, the request headers `disk.ops` and the MMIO registers are read by the device
only and are left out.

Every function has its spec lemma here: `alloc3_desc_spec` (three free descriptors taken, or the
table unchanged), `free_chain_spec` (a linked chain of three is freed exactly), and the step
lemmas `step_call` to `step_complete`.
-/

namespace Xv6

namespace Virtio

/-- `NUM`: the number of virtio descriptors, a power of two. -/
def NUM : ℕ := 8

instance : NeZero NUM := ⟨by decide⟩

/-- `VRING_DESC_F_NEXT`: the descriptor is chained with another. -/
def VRING_DESC_F_NEXT : UInt16 := 1

/-- `VRING_DESC_F_WRITE`: the device writes the buffer (vs reads it). -/
def VRING_DESC_F_WRITE : UInt16 := 2

/-- `struct virtq_desc`: its `flags` and `next`. -/
structure VirtqDesc where
  flags : UInt16
  next : UInt16
  deriving DecidableEq

/-- `struct virtq_avail`: the driver writes `ring[idx % NUM]`, then advances `idx`. -/
structure VirtqAvail where
  idx : UInt16
  ring : Fin NUM → UInt16

/-- `struct virtq_used`, with the `id` of each of its `ring` entries. -/
structure VirtqUsed where
  idx : UInt16
  ring : Fin NUM → UInt32

/-- An entry of `disk.info`: the buffer of the chain with this head (`none` for `0`) and the
status byte the device writes, `0` on success. -/
structure Info (B : Type) where
  b : Option B
  status : UInt8

/-- Where a process is in `virtio_disk_rw`. -/
inductive Phase (B : Type) where
  | idle
  /-- Asleep on `&disk.free[0]`, waiting for three free descriptors. -/
  | waitDesc (b : B) (write : Bool)
  /-- Asleep on `b` until the device is done, holding the chain `idx[0..3)`. -/
  | waitDone (b : B) (i0 i1 i2 : Fin NUM)
  deriving DecidableEq

/-- `struct disk`, the buffers' `b->disk` flags, the device's own progress and the processes. -/
structure Disk (P B : Type) where
  desc : Fin NUM → VirtqDesc
  avail : VirtqAvail
  used : VirtqUsed
  free : Fin NUM → Bool
  /-- `disk.used_idx`: how far the driver has looked in the used ring. -/
  usedIdx : UInt16
  info : Fin NUM → Info B
  /-- `b->disk` of every buffer. -/
  bdisk : B → Bool
  /-- The device's index of the next avail ring entry it takes. -/
  lastAvail : UInt16
  /-- The heads the device took from the avail ring and has not yet put in the used ring. -/
  inDev : List UInt16
  phase : P → Phase B

/-- The steps of the driver's processes, its interrupt handler and the device. -/
inductive Act (P B : Type) where
  | call (p : P) (b : B) (write : Bool)
  | retry (p : P)
  | wake (p : P)
  | intr
  | fetch
  | complete (h : UInt16)

namespace Phase

variable {B : Type}

/-- The buffer a process is transferring. -/
def buf : Phase B → Option B
  | idle => none
  | waitDesc b _ => some b
  | waitDone b _ _ _ => some b

/-- The descriptors a process holds. -/
def chain : Phase B → List (Fin NUM)
  | waitDone _ i0 i1 i2 => [i0, i1, i2]
  | _ => []

end Phase

namespace Disk

variable {P B : Type}

/-! ### The descriptor table -/

/-- `alloc_desc()`: the first free descriptor, marked non-free; `none` is the return `-1`. -/
def alloc_desc (s : Disk P B) : Option (Fin NUM) × Disk P B :=
  match (List.finRange NUM).find? (fun i => s.free i) with
  | some i => (some i, { s with free := Function.update s.free i false })
  | none => (none, s)

/-- `free_desc(i)`; `none` is the panic `"free_desc 1"` for `i >= NUM` and `"free_desc 2"` for a
descriptor that is free already. -/
def free_desc (s : Disk P B) (i : ℕ) : Option (Disk P B) :=
  if h : i < NUM then
    if s.free ⟨i, h⟩ then none
    else some { s with desc := Function.update s.desc ⟨i, h⟩ ⟨0, 0⟩,
                       free := Function.update s.free ⟨i, h⟩ true }
  else none

/-- The `while(1)` loop of `free_chain(i)`. It reads `flags` and `next` before `free_desc(i)`
clears them. Every pass frees a descriptor that was not free or panics, so `NUM + 1` passes
are never used up; `none` is also the out-of-bounds read of `disk.desc[i]`. -/
def freeChainLoop : ℕ → ℕ → Disk P B → Option (Disk P B)
  | 0, _, _ => none
  | fuel + 1, i, s =>
    if h : i < NUM then
      let flag := (s.desc ⟨i, h⟩).flags
      let nxt := (s.desc ⟨i, h⟩).next
      (s.free_desc i).bind fun t =>
        if flag &&& VRING_DESC_F_NEXT ≠ 0 then freeChainLoop fuel nxt.toNat t else some t
    else none

/-- `free_chain(i)`. -/
def free_chain (s : Disk P B) (i : ℕ) : Option (Disk P B) :=
  freeChainLoop (NUM + 1) i s

/-- The rollback of `alloc3_desc`: `for(int j = 0; j < i; j++) free_desc(idx[j]);`. -/
def freeAll (s : Disk P B) (idx : List (Fin NUM)) : Option (Disk P B) :=
  idx.foldlM (fun t j => t.free_desc j.val) s

/-- The loop of `alloc3_desc(idx)` with `idx[0..i)` taken and `n` descriptors still to take:
`some idx` is the return `0`, `none` the return `-1` after the rollback. -/
def alloc3Loop : ℕ → List (Fin NUM) → Disk P B → Option (Option (List (Fin NUM)) × Disk P B)
  | 0, idx, s => some (some idx, s)
  | n + 1, idx, s =>
    match s.alloc_desc with
    | (some i, t) => alloc3Loop n (idx ++ [i]) t
    | (none, t) => (t.freeAll idx).map fun u => (none, u)

/-- `alloc3_desc(idx)`. -/
def alloc3_desc (s : Disk P B) : Option (Option (List (Fin NUM)) × Disk P B) :=
  alloc3Loop 3 [] s

/-! ### What the table functions do -/

/-- The free map with the descriptors `c` taken. -/
def taken (free : Fin NUM → Bool) (c : List (Fin NUM)) : Fin NUM → Bool :=
  fun j => if j ∈ c then false else free j

/-- The table after `free_desc` on each descriptor of `c`: cleared and free. -/
def release (s : Disk P B) (c : List (Fin NUM)) : Disk P B :=
  { s with desc := fun j => if j ∈ c then ⟨0, 0⟩ else s.desc j,
           free := fun j => if j ∈ c then true else s.free j }

@[simp] theorem taken_nil (free : Fin NUM → Bool) : taken free [] = free := by
  funext j
  simp [taken]

theorem taken_append_singleton (free : Fin NUM → Bool) (c : List (Fin NUM)) (i : Fin NUM) :
    Function.update (taken free c) i false = taken free (c ++ [i]) := by
  funext j
  by_cases hj : j = i
  · subst hj
    simp [taken]
  · simp [taken, hj]

section Release

variable (s : Disk P B) (c : List (Fin NUM))

@[simp] theorem release_phase : (s.release c).phase = s.phase := rfl
@[simp] theorem release_info : (s.release c).info = s.info := rfl
@[simp] theorem release_bdisk : (s.release c).bdisk = s.bdisk := rfl
@[simp] theorem release_avail : (s.release c).avail = s.avail := rfl
@[simp] theorem release_used : (s.release c).used = s.used := rfl
@[simp] theorem release_usedIdx : (s.release c).usedIdx = s.usedIdx := rfl
@[simp] theorem release_lastAvail : (s.release c).lastAvail = s.lastAvail := rfl
@[simp] theorem release_inDev : (s.release c).inDev = s.inDev := rfl

theorem release_desc (j : Fin NUM) :
    (s.release c).desc j = if j ∈ c then ⟨0, 0⟩ else s.desc j := rfl

theorem release_free (j : Fin NUM) : (s.release c).free j = if j ∈ c then true else s.free j :=
  rfl

theorem release_release (d : List (Fin NUM)) : (s.release c).release d = s.release (c ++ d) := by
  simp only [release]
  congr 1 <;> funext j <;> by_cases hd : j ∈ d <;> by_cases hc : j ∈ c <;> simp [hd, hc]

end Release

/-- `alloc_desc` takes a free descriptor, or finds none and changes nothing. -/
theorem alloc_desc_cases (s : Disk P B) :
    (∃ i, s.free i = true ∧
      s.alloc_desc = (some i, { s with free := Function.update s.free i false })) ∨
    ((∀ i, s.free i = false) ∧ s.alloc_desc = (none, s)) := by
  unfold alloc_desc
  cases h : (List.finRange NUM).find? (fun i => s.free i) with
  | some i => exact .inl ⟨i, by simpa using List.find?_some h, rfl⟩
  | none =>
    refine .inr ⟨fun i => ?_, rfl⟩
    simpa using List.find?_eq_none.mp h i (List.mem_finRange i)

/-- `free_desc` on a descriptor in use clears it and marks it free. -/
theorem free_desc_eq (s : Disk P B) {i : Fin NUM} (h : s.free i = false) :
    s.free_desc i = some (s.release [i]) := by
  simp only [free_desc, i.isLt, dif_pos, Fin.eta, h, Bool.false_eq_true, if_false, release,
    List.mem_singleton, Option.some.injEq]
  congr 1 <;> funext j <;> by_cases hj : j = i <;> simp [hj]

/-- **Rollback.** Freeing the descriptors `alloc3_desc` took restores the table, as free
descriptors are cleared. -/
theorem freeAll_taken (s : Disk P B) : ∀ idx : List (Fin NUM), idx.Nodup →
    (∀ i ∈ idx, s.free i = true ∧ s.desc i = ⟨0, 0⟩) →
    freeAll { s with free := taken s.free idx } idx = some s
  | [], _, _ => by simp [freeAll]
  | j :: rest, hnd, hj => by
    obtain ⟨hjr, hnd'⟩ := List.nodup_cons.mp hnd
    have hfree : ({ s with free := taken s.free (j :: rest) } : Disk P B).free j = false := by
      simp [taken]
    -- freeing `j` gives back the table with only `rest` taken
    have hrel : release { s with free := taken s.free (j :: rest) } [j] =
        { s with free := taken s.free rest } := by
      simp only [release]
      congr 1 <;> funext k <;> by_cases hk : k = j
      · simp [hk, (hj j (by simp)).2]
      · simp [hk]
      · simp [hk, taken, hjr, (hj j (by simp)).1]
      · simp [hk, taken]
    simp only [freeAll, List.foldlM_cons, free_desc_eq _ hfree, Option.bind_eq_bind,
      Option.bind_some, hrel]
    exact freeAll_taken s rest hnd' fun i hi => hj i (List.mem_cons_of_mem j hi)

/-- The loop of `alloc3_desc` from `idx` taken: it takes `n` more free descriptors, or gives back
all it took. -/
theorem alloc3Loop_spec (s : Disk P B) (hclear : ∀ i, s.free i = true → s.desc i = ⟨0, 0⟩) :
    ∀ (n : ℕ) (idx : List (Fin NUM)), idx.Nodup → (∀ i ∈ idx, s.free i = true) →
      (∃ new : List (Fin NUM), new.length = n ∧ (idx ++ new).Nodup ∧
        (∀ i ∈ new, s.free i = true) ∧
        alloc3Loop n idx { s with free := taken s.free idx } =
          some (some (idx ++ new), { s with free := taken s.free (idx ++ new) })) ∨
      alloc3Loop n idx { s with free := taken s.free idx } = some (none, s)
  | 0, idx, hnd, _ => .inl ⟨[], rfl, by simpa using hnd, by simp, by simp [alloc3Loop]⟩
  | n + 1, idx, hnd, hidx => by
    rcases alloc_desc_cases { s with free := taken s.free idx } with ⟨i, hi, ha⟩ | ⟨hnone, ha⟩
    · -- `i` is free in `s` and not taken yet
      have hi' : i ∉ idx ∧ s.free i = true := by
        by_cases hmem : i ∈ idx
        · simp [taken, hmem] at hi
        · simpa [taken, hmem] using hi
      have hstep : alloc3Loop (n + 1) idx { s with free := taken s.free idx } =
          alloc3Loop n (idx ++ [i]) { s with free := taken s.free (idx ++ [i]) } := by
        simp only [alloc3Loop, ha, taken_append_singleton]
      have hnd' : (idx ++ [i]).Nodup := List.nodup_append.mpr ⟨hnd, List.nodup_singleton i,
        fun a ha b hb => by rw [List.mem_singleton.mp hb]; exact fun e => hi'.1 (e ▸ ha)⟩
      have hidx' : ∀ j ∈ idx ++ [i], s.free j = true := fun j hj => by
        rcases List.mem_append.mp hj with hj | hj
        · exact hidx j hj
        · rw [List.mem_singleton.mp hj]
          exact hi'.2
      rcases alloc3Loop_spec s hclear n (idx ++ [i]) hnd' hidx' with ⟨new, hlen, hnd'', hnew, h⟩ | h
      · refine .inl ⟨i :: new, by simp [hlen], by simpa using hnd'', ?_, by simpa [hstep] using h⟩
        intro j hj
        rcases List.mem_cons.mp hj with rfl | hj
        · exact hi'.2
        · exact hnew j hj
      · exact .inr (hstep.trans h)
    · -- no descriptor is left: the rollback gives back the table
      right
      simp only [alloc3Loop, ha]
      rw [freeAll_taken s idx hnd fun i hi => ⟨hidx i hi, hclear i (hidx i hi)⟩]
      rfl

/-- **`alloc3_desc`** takes three distinct free descriptors, or returns `-1` with the table as it
was, provided free descriptors are cleared. -/
theorem alloc3_desc_spec (s : Disk P B) (hclear : ∀ i, s.free i = true → s.desc i = ⟨0, 0⟩) :
    (∃ i0 i1 i2 : Fin NUM, [i0, i1, i2].Nodup ∧ (∀ i ∈ [i0, i1, i2], s.free i = true) ∧
      s.alloc3_desc = some (some [i0, i1, i2], { s with free := taken s.free [i0, i1, i2] })) ∨
    s.alloc3_desc = some (none, s) := by
  have h := alloc3Loop_spec s hclear 3 [] List.nodup_nil (by simp)
  have e : ({ s with free := taken s.free [] } : Disk P B) = s := by rw [taken_nil]
  rw [e] at h
  rcases h with ⟨new, hlen, hnd, hfree, h⟩ | h
  · obtain ⟨i0, i1, i2, rfl⟩ := List.length_eq_three.mp hlen
    exact .inl ⟨i0, i1, i2, hnd, hfree, h⟩
  · exact .inr h

theorem toNat_ofNat_fin (i : Fin NUM) : (UInt16.ofNat i).toNat = i := by
  have := i.isLt
  unfold NUM at this
  rw [UInt16.toNat_ofNat']
  omega

/-- A pass of `free_chain` on a descriptor chained on: it is freed, and the loop goes on at the
`next` read before. -/
theorem freeChainLoop_next (s : Disk P B) (fuel : ℕ) {i : Fin NUM} (hf : s.free i = false)
    (hn : (s.desc i).flags &&& VRING_DESC_F_NEXT ≠ 0) :
    freeChainLoop (fuel + 1) i s = freeChainLoop fuel (s.desc i).next.toNat (s.release [i]) := by
  rw [freeChainLoop, dif_pos i.isLt]
  dsimp only [Fin.eta]
  rw [free_desc_eq s hf, Option.bind_some, if_pos hn]

/-- A pass of `free_chain` on the last descriptor: it is freed and the loop stops. -/
theorem freeChainLoop_last (s : Disk P B) (fuel : ℕ) {i : Fin NUM} (hf : s.free i = false)
    (hn : (s.desc i).flags &&& VRING_DESC_F_NEXT = 0) :
    freeChainLoop (fuel + 1) i s = some (s.release [i]) := by
  rw [freeChainLoop, dif_pos i.isLt]
  dsimp only [Fin.eta]
  rw [free_desc_eq s hf, Option.bind_some, if_neg (not_not.mpr hn)]

/-- **`free_chain`** on a chain of three linked descriptors frees exactly those three. It reads
`flags` and `next` before `free_desc` clears them; read after, it would stop at the head. -/
theorem free_chain_spec (s : Disk P B) {i0 i1 i2 : Fin NUM} (hnd : [i0, i1, i2].Nodup)
    (hf : ∀ i ∈ [i0, i1, i2], s.free i = false)
    (h0 : s.desc i0 = ⟨VRING_DESC_F_NEXT, UInt16.ofNat i1⟩)
    (h1 : (s.desc i1).flags &&& VRING_DESC_F_NEXT ≠ 0) (h1' : (s.desc i1).next = UInt16.ofNat i2)
    (h2 : s.desc i2 = ⟨VRING_DESC_F_WRITE, 0⟩) :
    s.free_chain i0 = some (s.release [i0, i1, i2]) := by
  have hne : (i0 ≠ i1 ∧ i0 ≠ i2) ∧ i1 ≠ i2 := by simpa using hnd
  have h1n : i1 ∉ [i0] := by simpa using hne.1.1.symm
  have h2n : i2 ∉ [i0] ++ [i1] := by simpa using ⟨hne.1.2.symm, hne.2.symm⟩
  unfold free_chain
  -- the head, then `idx[1]`, then the status descriptor, which ends the chain
  rw [show NUM + 1 = 8 + 1 from rfl,
    freeChainLoop_next s 8 (hf i0 (by simp)) (by rw [h0]; exact (by decide : (1 : UInt16) &&& 1 ≠ 0)),
    h0, toNat_ofNat_fin]
  rw [freeChainLoop_next _ 7 (by rw [release_free, if_neg h1n]; exact hf i1 (by simp))
    (by rw [release_desc, if_neg h1n]; exact h1),
    release_desc, if_neg h1n, h1', toNat_ofNat_fin, release_release]
  rw [freeChainLoop_last _ 6 (by rw [release_free, if_neg h2n]; exact hf i2 (by simp))
    (by rw [release_desc, if_neg h2n, h2]; decide),
    release_release]
  rfl

/-! ### `virtio_disk_rw` and `virtio_disk_intr` -/

variable [DecidableEq P] [DecidableEq B]

/-- The rest of `virtio_disk_rw` up to `sleep(b, ...)`: format the chain
`idx[0] → idx[1] → idx[2]`, record `b` and publish the head. -/
def submit (s : Disk P B) (p : P) (b : B) (write : Bool) (i0 i1 i2 : Fin NUM) : Disk P B :=
  { s with
    desc := Function.update (Function.update (Function.update s.desc
      i0 ⟨VRING_DESC_F_NEXT, UInt16.ofNat i1⟩)
      i1 ⟨(if write then 0 else VRING_DESC_F_WRITE) ||| VRING_DESC_F_NEXT, UInt16.ofNat i2⟩)
      i2 ⟨VRING_DESC_F_WRITE, 0⟩
    info := Function.update s.info i0 ⟨some b, 0xff⟩
    bdisk := Function.update s.bdisk b true
    avail := ⟨s.avail.idx + 1,
      Function.update s.avail.ring (Ring.slot NUM s.avail.idx.toNat) (UInt16.ofNat i0)⟩
    phase := Function.update s.phase p (.waitDone b i0 i1 i2) }

section Submit

variable (s : Disk P B) (p : P) (b : B) (write : Bool) (i0 i1 i2 : Fin NUM)

@[simp] theorem submit_free : (s.submit p b write i0 i1 i2).free = s.free := rfl
@[simp] theorem submit_used : (s.submit p b write i0 i1 i2).used = s.used := rfl
@[simp] theorem submit_usedIdx : (s.submit p b write i0 i1 i2).usedIdx = s.usedIdx := rfl
@[simp] theorem submit_lastAvail : (s.submit p b write i0 i1 i2).lastAvail = s.lastAvail := rfl
@[simp] theorem submit_inDev : (s.submit p b write i0 i1 i2).inDev = s.inDev := rfl
@[simp] theorem submit_info :
    (s.submit p b write i0 i1 i2).info = Function.update s.info i0 ⟨some b, 0xff⟩ := rfl
@[simp] theorem submit_bdisk :
    (s.submit p b write i0 i1 i2).bdisk = Function.update s.bdisk b true := rfl
@[simp] theorem submit_phase :
    (s.submit p b write i0 i1 i2).phase = Function.update s.phase p (.waitDone b i0 i1 i2) := rfl
@[simp] theorem submit_avail_idx : (s.submit p b write i0 i1 i2).avail.idx = s.avail.idx + 1 := rfl
@[simp] theorem submit_avail_ring : (s.submit p b write i0 i1 i2).avail.ring =
    Function.update s.avail.ring (Ring.slot NUM s.avail.idx.toNat) (UInt16.ofNat i0) := rfl

theorem submit_desc : (s.submit p b write i0 i1 i2).desc =
    Function.update (Function.update (Function.update s.desc
      i0 ⟨VRING_DESC_F_NEXT, UInt16.ofNat i1⟩)
      i1 ⟨(if write then 0 else VRING_DESC_F_WRITE) ||| VRING_DESC_F_NEXT, UInt16.ofNat i2⟩)
      i2 ⟨VRING_DESC_F_WRITE, 0⟩ := rfl

end Submit

/-- One pass of the allocation loop of `virtio_disk_rw(b, write)`: submit the request, or sleep
on `&disk.free[0]`. `none` is a panic of the rollback. -/
def rwAlloc (s : Disk P B) (p : P) (b : B) (write : Bool) : Option (Disk P B) :=
  match s.alloc3_desc with
  | some (some [i0, i1, i2], t) => some (t.submit p b write i0 i1 i2)
  | some (none, t) => some { t with phase := Function.update t.phase p (.waitDesc b write) }
  | _ => none

/-- The end of `virtio_disk_rw` once `b->disk == 0`:
`disk.info[idx[0]].b = 0; free_chain(idx[0]);`. -/
def rwDone (s : Disk P B) (p : P) (i0 : Fin NUM) : Option (Disk P B) :=
  (free_chain { s with info := Function.update s.info i0 { s.info i0 with b := none } } i0).map
    fun t => { t with phase := Function.update t.phase p .idle }

/-- One pass of the loop of `virtio_disk_intr()`, on the head in `used->ring[used_idx % NUM]`.
`none` is the panic on a nonzero status, or an `info[id]` out of bounds or without a buffer. -/
def intrOne (s : Disk P B) : Option (Disk P B) :=
  if h : (s.used.ring (Ring.slot NUM s.usedIdx.toNat)).toNat < NUM then
    let i : Fin NUM := ⟨_, h⟩
    if (s.info i).status ≠ 0 then none
    else
      match (s.info i).b with
      | some b => some { s with bdisk := Function.update s.bdisk b false, usedIdx := s.usedIdx + 1 }
      | none => none
  else none

/-- `while(disk.used_idx != disk.used->idx)`. -/
def intrLoop : ℕ → Disk P B → Option (Disk P B)
  | 0, s => some s
  | fuel + 1, s => if s.usedIdx = s.used.idx then some s else s.intrOne.bind (intrLoop fuel)

/-- `virtio_disk_intr()`: `used_idx` goes up by one a pass, so it meets `used->idx` within
`2 ^ 16` passes. -/
def virtio_disk_intr (s : Disk P B) : Option (Disk P B) :=
  intrLoop (2 ^ 16) s

/-- One pass of the allocation loop submits the request on three free descriptors, or sleeps
with the table unchanged; it never panics. -/
theorem rwAlloc_eq (s : Disk P B) (p : P) (b : B) (write : Bool)
    (hclear : ∀ i, s.free i = true → s.desc i = ⟨0, 0⟩) :
    (∃ i0 i1 i2 : Fin NUM, [i0, i1, i2].Nodup ∧ (∀ i ∈ [i0, i1, i2], s.free i = true) ∧
      s.rwAlloc p b write =
        some (submit { s with free := taken s.free [i0, i1, i2] } p b write i0 i1 i2)) ∨
    s.rwAlloc p b write = some { s with phase := Function.update s.phase p (.waitDesc b write) } := by
  rcases alloc3_desc_spec s hclear with ⟨i0, i1, i2, hnd, hfree, h⟩ | h
  · exact .inl ⟨i0, i1, i2, hnd, hfree, by rw [rwAlloc, h]⟩
  · exact .inr (by rw [rwAlloc, h])

omit [DecidableEq B] in
/-- The end of `virtio_disk_rw` on a linked chain frees it, clears `info[idx[0]].b` and leaves the
process idle. -/
theorem rwDone_eq (s : Disk P B) (p : P) {i0 i1 i2 : Fin NUM} (hnd : [i0, i1, i2].Nodup)
    (hf : ∀ i ∈ [i0, i1, i2], s.free i = false)
    (h0 : s.desc i0 = ⟨VRING_DESC_F_NEXT, UInt16.ofNat i1⟩)
    (h1 : (s.desc i1).flags &&& VRING_DESC_F_NEXT ≠ 0) (h1' : (s.desc i1).next = UInt16.ofNat i2)
    (h2 : s.desc i2 = ⟨VRING_DESC_F_WRITE, 0⟩) :
    s.rwDone p i0 = some { s.release [i0, i1, i2] with
      info := Function.update s.info i0 { s.info i0 with b := none },
      phase := Function.update s.phase p .idle } := by
  have hc := free_chain_spec { s with info := Function.update s.info i0 { s.info i0 with b := none } }
    hnd hf h0 h1 h1' h2
  unfold rwDone
  rw [hc]
  rfl

/-! ### The device -/

/-- The device takes the head in `avail->ring[last % NUM]`. -/
def fetch (s : Disk P B) : Disk P B :=
  { s with lastAvail := s.lastAvail + 1,
           inDev := s.inDev ++ [s.avail.ring (Ring.slot NUM s.lastAvail.toNat)] }

/-- The device finishes the request with head `h`: it writes status `0` to
`disk.info[h].status` and `h` to `used->ring[used->idx % NUM]`, and advances `used->idx`. -/
def complete (s : Disk P B) (h : UInt16) : Disk P B :=
  { s with
    inDev := s.inDev.erase h
    info := if hh : h.toNat < NUM then
        Function.update s.info ⟨h.toNat, hh⟩ { s.info ⟨h.toNat, hh⟩ with status := 0 }
      else s.info
    used := ⟨s.used.idx + 1,
      Function.update s.used.ring (Ring.slot NUM s.used.idx.toNat) h.toUInt32⟩ }

section Device

omit [DecidableEq P] [DecidableEq B]

variable (s : Disk P B) (h : UInt16)

@[simp] theorem fetch_desc : s.fetch.desc = s.desc := rfl
@[simp] theorem fetch_free : s.fetch.free = s.free := rfl
@[simp] theorem fetch_info : s.fetch.info = s.info := rfl
@[simp] theorem fetch_bdisk : s.fetch.bdisk = s.bdisk := rfl
@[simp] theorem fetch_phase : s.fetch.phase = s.phase := rfl
@[simp] theorem fetch_avail : s.fetch.avail = s.avail := rfl
@[simp] theorem fetch_used : s.fetch.used = s.used := rfl
@[simp] theorem fetch_usedIdx : s.fetch.usedIdx = s.usedIdx := rfl
@[simp] theorem fetch_lastAvail : s.fetch.lastAvail = s.lastAvail + 1 := rfl
@[simp] theorem fetch_inDev :
    s.fetch.inDev = s.inDev ++ [s.avail.ring (Ring.slot NUM s.lastAvail.toNat)] := rfl

@[simp] theorem complete_desc : (s.complete h).desc = s.desc := rfl
@[simp] theorem complete_free : (s.complete h).free = s.free := rfl
@[simp] theorem complete_bdisk : (s.complete h).bdisk = s.bdisk := rfl
@[simp] theorem complete_phase : (s.complete h).phase = s.phase := rfl
@[simp] theorem complete_avail : (s.complete h).avail = s.avail := rfl
@[simp] theorem complete_usedIdx : (s.complete h).usedIdx = s.usedIdx := rfl
@[simp] theorem complete_lastAvail : (s.complete h).lastAvail = s.lastAvail := rfl
@[simp] theorem complete_inDev : (s.complete h).inDev = s.inDev.erase h := rfl
@[simp] theorem complete_used_idx : (s.complete h).used.idx = s.used.idx + 1 := rfl
@[simp] theorem complete_used_ring : (s.complete h).used.ring =
    Function.update s.used.ring (Ring.slot NUM s.used.idx.toNat) h.toUInt32 := rfl

/-- The device writes only the status of the request it completes. -/
theorem complete_info (i : Fin NUM) :
    (s.complete h).info i = if i.val = h.toNat then { s.info i with status := 0 } else s.info i := by
  simp only [complete]
  split_ifs with hh hi hi
  · rw [show i = ⟨h.toNat, hh⟩ from Fin.ext hi, Function.update_self]
  · rw [Function.update_of_ne (fun e => hi (by rw [e]))]
  · exact absurd (hi ▸ i.isLt) hh
  · rfl

end Device

/-! ### The system -/

/-- After `virtio_disk_init()`: every descriptor free and cleared, both rings empty. -/
def init : Disk P B where
  desc := fun _ => ⟨0, 0⟩
  avail := ⟨0, fun _ => 0⟩
  used := ⟨0, fun _ => 0⟩
  free := fun _ => true
  usedIdx := 0
  info := fun _ => ⟨none, 0⟩
  bdisk := fun _ => false
  lastAvail := 0
  inDev := []
  phase := fun _ => .idle

variable [Fintype P]

/-- The steps. A call needs an idle process and, as `bread` and `bwrite` hold `b`'s sleeplock
around `virtio_disk_rw`, a buffer no other request is on. -/
def step (s : Disk P B) : Act P B → Option (Disk P B)
  | .call p b write =>
    if s.phase p = .idle ∧ ∀ q, (s.phase q).buf ≠ some b then s.rwAlloc p b write else none
  | .retry p =>
    match s.phase p with
    | .waitDesc b write => s.rwAlloc p b write
    | _ => none
  | .wake p =>
    match s.phase p with
    | .waitDone b i0 _ _ => if s.bdisk b = false then s.rwDone p i0 else none
    | _ => none
  | .intr => s.virtio_disk_intr
  | .fetch => if s.lastAvail ≠ s.avail.idx then some s.fetch else none
  | .complete h => if h ∈ s.inDev then some (s.complete h) else none

/-- The states the driver reaches from `virtio_disk_init()`. -/
def Reachable (s : Disk P B) : Prop :=
  Reach.Reachable (· = init) step (fun _ => True) s

/-! ### What each step does -/

section Steps

variable {s t : Disk P B} {p : P}

theorem step_call {b : B} {write : Bool} :
    s.step (.call p b write) = some t ↔
      (s.phase p = .idle ∧ ∀ q, (s.phase q).buf ≠ some b) ∧ s.rwAlloc p b write = some t := by
  simp only [step]
  split_ifs with h
  · exact ⟨fun e => ⟨h, e⟩, fun e => e.2⟩
  · simp [h]

theorem step_retry :
    s.step (.retry p) = some t ↔
      ∃ b write, s.phase p = .waitDesc b write ∧ s.rwAlloc p b write = some t := by
  simp only [step]
  constructor
  · intro h
    split at h
    · exact ⟨_, _, ‹_›, h⟩
    · cases h
  · rintro ⟨b, write, hp, h⟩
    rw [hp]
    exact h

theorem step_wake :
    s.step (.wake p) = some t ↔
      ∃ b i0 i1 i2, s.phase p = .waitDone b i0 i1 i2 ∧ s.bdisk b = false ∧ s.rwDone p i0 = some t := by
  simp only [step]
  constructor
  · intro h
    split at h
    · rename_i b i0 i1 i2 hp
      split_ifs at h with hb
      exact ⟨b, i0, i1, i2, hp, hb, h⟩
    · cases h
  · rintro ⟨b, i0, i1, i2, hp, hb, h⟩
    rw [hp]
    dsimp only
    rw [if_pos hb]
    exact h

theorem step_intr : s.step .intr = s.virtio_disk_intr := rfl

theorem step_fetch : s.step .fetch = some t ↔ s.lastAvail ≠ s.avail.idx ∧ t = s.fetch := by
  simp only [step]
  split_ifs with h <;> simp [h, eq_comm]

theorem step_complete {h : UInt16} :
    s.step (.complete h) = some t ↔ h ∈ s.inDev ∧ t = s.complete h := by
  simp only [step]
  split_ifs with hh <;> simp [hh, eq_comm]

end Steps

end Disk

end Virtio

end Xv6
