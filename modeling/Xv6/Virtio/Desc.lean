import Xv6.Virtio.Model
import Xv6.Lib.Own
import Mathlib.Data.List.Perm.Subperm

/-!
# Descriptor bookkeeping of the virtio driver

`DiskInv` holds in every reachable state (`diskInv_of_reachable`):

* `exclusive`: a descriptor is marked in use iff it is in the chain `idx[0..3)` of a process
  asleep in `virtio_disk_rw`, and then of one process only (`Own.Exclusive`);
* `clear`: a free descriptor has `flags` and `next` zero, as `free_desc` leaves it, which is why
  the rollback of `alloc3_desc` gives the table back exactly;
* `chain`: such a chain is three distinct descriptors linked by `VRING_DESC_F_NEXT`, with the
  buffer in `disk.info[idx[0]].b`;
* `buf_unique`: no two requests are on one buffer;
* `rings`: for some window lengths `na` and `nu`, `avail->idx` is `na` past the device's index and
  `used->idx` is `nu` past `used_idx` in `uint16` arithmetic, and the avail window, the heads the
  device holds and the used window list the head of each waiting request once (`Rings`). As
  `NUM ∣ 2 ^ 16`, the `% NUM` of a wrapped index is the slot the window needs.

Each kind of step keeps it: a pass of the allocation loop that sleeps (`DiskInv.waitDesc`) or
submits (`DiskInv.submit`), the end of a request (`DiskInv.done`), a pass of the interrupt loop
(`DiskInv.intrOne`) and the device's `fetch` and `complete`. `virtio_descriptors` collects what
the invariant gives, with no panic of `free_desc` or `virtio_disk_intr`.
-/

namespace Xv6

namespace Virtio

namespace Disk

variable {P B : Type}

/-! ### The invariant -/

/-- The chain `idx[0] → idx[1] → idx[2]` of a request on `b`, as `virtio_disk_rw` formats it. -/
structure ChainOk (s : Disk P B) (b : B) (i0 i1 i2 : Fin NUM) : Prop where
  nodup : [i0, i1, i2].Nodup
  head : s.desc i0 = ⟨VRING_DESC_F_NEXT, UInt16.ofNat i1⟩
  mid_flags : (s.desc i1).flags &&& VRING_DESC_F_NEXT ≠ 0
  mid_next : (s.desc i1).next = UInt16.ofNat i2
  last : s.desc i2 = ⟨VRING_DESC_F_WRITE, 0⟩
  info : (s.info i0).b = some b

/-- The request with head `n` waits for the device: its process sleeps on `b`, `b->disk` set. -/
def Waiting (s : Disk P B) (n : ℕ) : Prop :=
  ∃ p b i0 i1 i2, s.phase p = .waitDone b i0 i1 i2 ∧ i0.val = n ∧ s.bdisk b = true

/-- The heads in the avail window of length `na`, those the device holds, and those in the used
window of length `nu`, oldest first. -/
def queued (s : Disk P B) (na nu : ℕ) : List ℕ :=
  (Ring.view s.avail.ring s.lastAvail.toNat na).map UInt16.toNat ++ s.inDev.map UInt16.toNat ++
    (Ring.view s.used.ring s.usedIdx.toNat nu).map UInt32.toNat

/-- The two rings, with windows of length `na` and `nu`. -/
structure Rings (s : Disk P B) (na nu : ℕ) : Prop where
  avail_idx : s.avail.idx = s.lastAvail + UInt16.ofNat na
  used_idx : s.used.idx = s.usedIdx + UInt16.ofNat nu
  nodup : (s.queued na nu).Nodup
  mem : ∀ n, n ∈ s.queued na nu ↔ s.Waiting n
  /-- The device wrote status `0` for each request in the used window. -/
  status : ∀ id ∈ Ring.view s.used.ring s.usedIdx.toNat nu,
    ∃ h : id.toNat < NUM, (s.info ⟨id.toNat, h⟩).status = 0

/-- The driver's invariant. -/
structure DiskInv (s : Disk P B) : Prop where
  exclusive : Own.Exclusive (fun i => s.free i = false) (fun p i => i ∈ (s.phase p).chain)
  clear : ∀ i, s.free i = true → s.desc i = ⟨0, 0⟩
  chain : ∀ p b i0 i1 i2, s.phase p = .waitDone b i0 i1 i2 → s.ChainOk b i0 i1 i2
  buf_unique : ∀ p q b, (s.phase p).buf = some b → (s.phase q).buf = some b → p = q
  rings : ∃ na nu, s.Rings na nu

/-! ### Lemmas on the pieces -/

theorem num_dvd : NUM ∣ 2 ^ 16 := ⟨2 ^ 13, by decide⟩

/-- A list of distinct numbers below `N` has at most `N` entries. -/
theorem length_le_of_nodup {l : List ℕ} (hnd : l.Nodup) {N : ℕ} (h : ∀ n ∈ l, n < N) :
    l.length ≤ N := by
  have := (hnd.subperm fun n hn => List.mem_range.mpr (h n hn)).length_le
  rwa [List.length_range] at this

/-- Removing `x` from the middle of a list without repetition removes exactly `x`. -/
theorem mem_of_nodup_middle {l₁ l₂ : List ℕ} {x : ℕ} (hnd : (l₁ ++ x :: l₂).Nodup) (y : ℕ) :
    y ∈ l₁ ++ l₂ ↔ y ∈ l₁ ++ x :: l₂ ∧ y ≠ x := by
  have hx : x ∉ l₁ ++ l₂ := (List.nodup_cons.mp (List.nodup_middle.mp hnd)).1
  constructor
  · intro hy
    refine ⟨?_, fun e => hx (e ▸ hy)⟩
    rcases List.mem_append.mp hy with hy | hy
    · exact List.mem_append_left _ hy
    · exact List.mem_append_right _ (List.mem_cons_of_mem x hy)
  · rintro ⟨hy, hne⟩
    rcases List.mem_append.mp hy with hy | hy
    · exact List.mem_append_left _ hy
    · exact List.mem_append_right _ ((List.mem_cons.mp hy).resolve_left hne)

@[simp] theorem chain_waitDone (b : B) (i0 i1 i2 : Fin NUM) :
    (Phase.waitDone b i0 i1 i2).chain = [i0, i1, i2] := rfl

theorem chain_eq_nil_iff {ph : Phase B} : ph.chain = [] ↔ ∀ b i0 i1 i2, ph ≠ .waitDone b i0 i1 i2 := by
  cases ph <;> simp [Phase.chain]

theorem Waiting.lt {s : Disk P B} {n : ℕ} (h : s.Waiting n) : n < NUM := by
  obtain ⟨p, b, i0, i1, i2, -, rfl, -⟩ := h
  exact i0.isLt

@[simp] theorem length_queued (s : Disk P B) (na nu : ℕ) :
    (s.queued na nu).length = na + s.inDev.length + nu := by
  simp [queued, Nat.add_assoc]

/-- A chain stays formatted while its descriptors and its `info[idx[0]].b` stay. -/
theorem ChainOk.frame {s t : Disk P B} {b : B} {i0 i1 i2 : Fin NUM} (h : s.ChainOk b i0 i1 i2)
    (hd : ∀ i ∈ [i0, i1, i2], t.desc i = s.desc i) (hinfo : (t.info i0).b = (s.info i0).b) :
    t.ChainOk b i0 i1 i2 where
  nodup := h.nodup
  head := (hd i0 (by simp)).trans h.head
  mid_flags := by rw [hd i1 (by simp)]; exact h.mid_flags
  mid_next := by rw [hd i1 (by simp)]; exact h.mid_next
  last := (hd i2 (by simp)).trans h.last
  info := hinfo.trans h.info

section Inv

variable {s : Disk P B}

/-- A descriptor some process holds is in use. -/
theorem DiskInv.not_free (hi : s.DiskInv) {p : P} {i : Fin NUM} (h : i ∈ (s.phase p).chain) :
    s.free i = false :=
  hi.exclusive.marked_of_holds p i h

/-- The head of a waiting request is in use. -/
theorem DiskInv.not_free_of_waiting (hi : s.DiskInv) {n : ℕ} (h : s.Waiting n) :
    ∃ i : Fin NUM, i.val = n ∧ s.free i = false := by
  obtain ⟨p, b, i0, i1, i2, hp, rfl, -⟩ := h
  exact ⟨i0, rfl, hi.not_free (by rw [hp]; simp)⟩

theorem Rings.length_le {na nu : ℕ} (hr : s.Rings na nu) : na + s.inDev.length + nu ≤ NUM := by
  rw [← length_queued]
  exact length_le_of_nodup hr.nodup fun n hn => ((hr.mem n).mp hn).lt

/-- The rings are unchanged by a step that leaves the ring fields, the waiting requests and the
statuses alone. -/
theorem Rings.frame {t : Disk P B} {na nu : ℕ} (hr : s.Rings na nu) (ha : t.avail = s.avail)
    (hu : t.used = s.used) (hui : t.usedIdx = s.usedIdx) (hl : t.lastAvail = s.lastAvail)
    (hd : t.inDev = s.inDev) (hw : ∀ n, t.Waiting n ↔ s.Waiting n)
    (hst : ∀ i, (t.info i).status = (s.info i).status) : t.Rings na nu := by
  have hq : t.queued na nu = s.queued na nu := by simp only [queued, ha, hu, hui, hl, hd]
  refine ⟨by rw [ha, hl]; exact hr.avail_idx, by rw [hu, hui]; exact hr.used_idx,
    hq ▸ hr.nodup, fun n => by rw [hq, hw]; exact hr.mem n, fun id hid => ?_⟩
  rw [hu, hui] at hid
  obtain ⟨hlt, h0⟩ := hr.status id hid
  exact ⟨hlt, (hst _).trans h0⟩

end Inv

/-! ### The initial state -/

theorem diskInv_init : (init : Disk P B).DiskInv where
  exclusive := ⟨fun _ _ h => by simp [init, Phase.chain] at h, fun _ h => by simp [init] at h,
    fun _ _ _ h => by simp [init, Phase.chain] at h⟩
  clear _ _ := rfl
  chain _ _ _ _ _ h := by simp [init] at h
  buf_unique _ _ _ h := by simp [init, Phase.buf] at h
  rings := ⟨0, 0, rfl, rfl, by simp [queued, init], fun n => by simp [queued, init, Waiting],
    fun _ h => by simp at h⟩

/-! ### Steps of a process -/

section Process

variable [DecidableEq P] [DecidableEq B] {s : Disk P B}

omit [DecidableEq B] in
/-- Changing one process's phase to one whose buffer no other process is on keeps buffers
unique. -/
theorem bufUnique_update {ph : P → Phase B}
    (h : ∀ p q b, (ph p).buf = some b → (ph q).buf = some b → p = q) (p : P) {x : Phase B}
    (hx : ∀ b, x.buf = some b → ∀ q, q ≠ p → (ph q).buf ≠ some b) :
    ∀ q q' b, (Function.update ph p x q).buf = some b → (Function.update ph p x q').buf = some b →
      q = q' := by
  intro q q' b hq hq'
  by_cases hqp : q = p <;> by_cases hq'p : q' = p
  · rw [hqp, hq'p]
  · rw [hqp, Function.update_self] at hq
    rw [Function.update_of_ne hq'p] at hq'
    exact absurd hq' (hx b hq q' hq'p)
  · rw [hq'p, Function.update_self] at hq'
    rw [Function.update_of_ne hqp] at hq
    exact absurd hq (hx b hq' q hqp)
  · rw [Function.update_of_ne hqp] at hq
    rw [Function.update_of_ne hq'p] at hq'
    exact h q q' b hq hq'

omit [DecidableEq P] [DecidableEq B] in
/-- A step of process `p` alone, waiting neither before nor after, changes no waiting request. -/
theorem waiting_update {t : Disk P B} {p : P} (hph : ∀ q, q ≠ p → t.phase q = s.phase q)
    (hbd : t.bdisk = s.bdisk)
    (hs : ∀ b i0 i1 i2, s.phase p = .waitDone b i0 i1 i2 → s.bdisk b = false)
    (ht : ∀ b i0 i1 i2, t.phase p = .waitDone b i0 i1 i2 → t.bdisk b = false) (n : ℕ) :
    t.Waiting n ↔ s.Waiting n := by
  constructor
  · rintro ⟨q, b, i0, i1, i2, hq, hn, hb⟩
    have hqp : q ≠ p := by
      rintro rfl
      rw [ht b i0 i1 i2 hq] at hb
      cases hb
    exact ⟨q, b, i0, i1, i2, (hph q hqp).symm.trans hq, hn, hbd ▸ hb⟩
  · rintro ⟨q, b, i0, i1, i2, hq, hn, hb⟩
    have hqp : q ≠ p := by
      rintro rfl
      rw [hs b i0 i1 i2 hq] at hb
      cases hb
    exact ⟨q, b, i0, i1, i2, (hph q hqp).trans hq, hn, hbd ▸ hb⟩

omit [DecidableEq B] in
/-- **Sleep on `&disk.free[0]`.** A pass of the allocation loop that finds fewer than three free
descriptors leaves `p` asleep on `b` holding nothing. -/
theorem DiskInv.waitDesc (hi : s.DiskInv) {p : P} {b : B} (write : Bool)
    (hp : (s.phase p).chain = []) (hb : ∀ q, q ≠ p → (s.phase q).buf ≠ some b) :
    DiskInv { s with phase := Function.update s.phase p (.waitDesc b write) } := by
  have hnot := chain_eq_nil_iff.mp hp
  -- `p` holds nothing before or after, and no other process changes
  have hch : ∀ q, (Function.update s.phase p (.waitDesc b write) q).chain = (s.phase q).chain := by
    intro q
    by_cases hq : q = p
    · rw [hq, Function.update_self, hp]
      rfl
    · rw [Function.update_of_ne hq]
  have hwait : ∀ q b' i0 i1 i2, Function.update s.phase p (.waitDesc b write) q =
      .waitDone b' i0 i1 i2 → s.phase q = .waitDone b' i0 i1 i2 := by
    intro q b' i0 i1 i2 hq
    by_cases hqp : q = p
    · rw [hqp, Function.update_self] at hq
      cases hq
    · rwa [Function.update_of_ne hqp] at hq
  refine ⟨hi.exclusive.congr (fun _ => Iff.rfl) fun q x => by dsimp only; rw [hch],
    hi.clear, fun q b' i0 i1 i2 hq =>
      (hi.chain q b' i0 i1 i2 (hwait q b' i0 i1 i2 hq)).frame (fun _ _ => rfl) rfl,
    bufUnique_update hi.buf_unique p fun b' hb' q hq => ?_, ?_⟩
  · cases hb'
    exact hb q hq
  · obtain ⟨na, nu, hr⟩ := hi.rings
    refine ⟨na, nu, hr.frame rfl rfl rfl rfl rfl (waiting_update (fun q hq => ?_) rfl
      (fun b' i0 i1 i2 h => absurd h (hnot b' i0 i1 i2)) (fun b' i0 i1 i2 h => ?_)) fun _ => rfl⟩
    · exact Function.update_of_ne hq _ _
    · simp only [Function.update_self] at h
      cases h

section Submit

variable {p : P} {b : B} {write : Bool} {i0 i1 i2 : Fin NUM}

omit [DecidableEq P] [DecidableEq B] in
/-- The submitted chain's descriptors are none of those the processes hold. -/
theorem DiskInv.not_mem_of_free (hi : s.DiskInv) (hfree : ∀ i ∈ [i0, i1, i2], s.free i = true)
    {q : P} {j : Fin NUM} (hj : j ∈ (s.phase q).chain) : j ∉ [i0, i1, i2] := fun hc => by
  have := hfree j hc
  rw [hi.not_free hj] at this
  cases this

theorem submit_desc_of_not_mem {j : Fin NUM} (hj : j ∉ [i0, i1, i2]) (t : Disk P B) :
    (submit t p b write i0 i1 i2).desc j = t.desc j := by
  simp only [List.mem_cons, List.not_mem_nil, or_false, not_or] at hj
  rw [submit_desc, Function.update_of_ne hj.2.2, Function.update_of_ne hj.2.1,
    Function.update_of_ne hj.1]

/-- The chain as `virtio_disk_rw` formats it. -/
theorem chainOk_submit (hnd : [i0, i1, i2].Nodup) (t : Disk P B) :
    (submit t p b write i0 i1 i2).ChainOk b i0 i1 i2 := by
  have hne : (i0 ≠ i1 ∧ i0 ≠ i2) ∧ i1 ≠ i2 := by simpa using hnd
  refine ⟨hnd, ?_, ?_, ?_, ?_, ?_⟩
  · rw [submit_desc, Function.update_of_ne hne.1.2, Function.update_of_ne hne.1.1,
      Function.update_self]
  · rw [submit_desc, Function.update_of_ne hne.2, Function.update_self]
    show ((if write then 0 else VRING_DESC_F_WRITE) ||| VRING_DESC_F_NEXT) &&& VRING_DESC_F_NEXT ≠ 0
    cases write <;> decide
  · rw [submit_desc, Function.update_of_ne hne.2, Function.update_self]
  · rw [submit_desc, Function.update_self]
  · rw [submit_info, Function.update_self]

/-- After a submission the waiting requests are the new one and the old ones. -/
theorem waiting_submit (hp : (s.phase p).chain = []) (hb : ∀ q, q ≠ p → (s.phase q).buf ≠ some b)
    (n : ℕ) :
    (Disk.submit { s with free := taken s.free [i0, i1, i2] } p b write i0 i1 i2).Waiting n ↔
      n = i0.val ∨ s.Waiting n := by
  have hnot := chain_eq_nil_iff.mp hp
  constructor
  · rintro ⟨q, b', j0, j1, j2, hq, hn, hbd⟩
    by_cases hqp : q = p
    · rw [hqp, submit_phase, Function.update_self] at hq
      cases hq
      exact .inl hn.symm
    · rw [submit_phase, Function.update_of_ne hqp] at hq
      have hb' : b' ≠ b := fun e => hb q hqp (by rw [hq, ← e]; rfl)
      rw [submit_bdisk, Function.update_of_ne hb'] at hbd
      exact .inr ⟨q, b', j0, j1, j2, hq, hn, hbd⟩
  · rintro (rfl | ⟨q, b', j0, j1, j2, hq, hn, hbd⟩)
    · exact ⟨p, b, i0, i1, i2, by rw [submit_phase, Function.update_self], rfl,
        by rw [submit_bdisk, Function.update_self]⟩
    · have hqp : q ≠ p := fun e => hnot b' j0 j1 j2 (e ▸ hq)
      have hb' : b' ≠ b := fun e => hb q hqp (by rw [hq, ← e]; rfl)
      exact ⟨q, b', j0, j1, j2, by rw [submit_phase, Function.update_of_ne hqp, hq], hn,
        by rw [submit_bdisk, Function.update_of_ne hb', hbd]⟩

/-- **Publish.** The head goes into the avail ring just past the window, which is shorter than
`NUM` as the head was free. -/
theorem DiskInv.rings_submit (hi : s.DiskInv) {na nu : ℕ} (hr : s.Rings na nu)
    (hfree : ∀ i ∈ [i0, i1, i2], s.free i = true) (hp : (s.phase p).chain = [])
    (hb : ∀ q, q ≠ p → (s.phase q).buf ≠ some b) :
    (Disk.submit { s with free := taken s.free [i0, i1, i2] } p b write i0 i1 i2).Rings (na + 1) nu := by
  -- the free head is not in the queue
  have hfresh : ∀ n, s.Waiting n → n ≠ i0.val := by
    rintro n hn rfl
    obtain ⟨j, hj, hjf⟩ := hi.not_free_of_waiting hn
    rw [Fin.ext hj, hfree i0 (by simp)] at hjf
    cases hjf
  have hi0 : i0.val ∉ s.queued na nu := fun h => hfresh _ ((hr.mem _).mp h) rfl
  have hlt : na < NUM := by
    have := length_le_of_nodup (List.nodup_cons.mpr ⟨hi0, hr.nodup⟩) fun n hn => by
      rcases List.mem_cons.mp hn with rfl | hn
      · exact i0.isLt
      · exact ((hr.mem n).mp hn).lt
    simp only [List.length_cons, length_queued] at this
    omega
  have hA : Ring.view (Function.update s.avail.ring (Ring.slot NUM s.avail.idx.toNat)
      (UInt16.ofNat i0)) s.lastAvail.toNat (na + 1) =
      Ring.view s.avail.ring s.lastAvail.toNat na ++ [UInt16.ofNat i0] := by
    rw [hr.avail_idx, Ring.slot_add_ofNat16 num_dvd]
    exact Ring.view_push _ _ _ _ hlt
  have hq : (Disk.submit { s with free := taken s.free [i0, i1, i2] } p b write i0 i1 i2).queued
      (na + 1) nu = (Ring.view s.avail.ring s.lastAvail.toNat na).map UInt16.toNat ++
        i0.val :: (s.inDev.map UInt16.toNat ++
          (Ring.view s.used.ring s.usedIdx.toNat nu).map UInt32.toNat) := by
    simp only [queued, submit_avail_ring, submit_lastAvail, submit_inDev, submit_used,
      submit_usedIdx, hA, List.map_append, List.map_cons, List.map_nil, toNat_ofNat_fin,
      List.append_assoc, List.cons_append, List.nil_append]
  refine ⟨?_, hr.used_idx, ?_, fun n => ?_, fun id hid => ?_⟩
  · show s.avail.idx + 1 = s.lastAvail + UInt16.ofNat (na + 1)
    rw [hr.avail_idx, Ring.add_ofNat_add_one16]
  · rw [hq, List.perm_middle.nodup_iff, ← List.append_assoc]
    exact List.nodup_cons.mpr ⟨hi0, hr.nodup⟩
  · rw [hq, List.perm_middle.mem_iff, List.mem_cons, ← List.append_assoc, waiting_submit hp hb]
    exact or_congr Iff.rfl (hr.mem n)
  · -- a request in the used window waits, so its head is not the new one
    obtain ⟨hlt', h0⟩ := hr.status id hid
    have hne : (⟨id.toNat, hlt'⟩ : Fin NUM) ≠ i0 := fun e => hfresh _ ((hr.mem _).mp (by
      simp only [queued, List.mem_append, List.mem_map]
      exact .inr ⟨id, hid, rfl⟩)) (congrArg Fin.val e)
    exact ⟨hlt', by rw [submit_info, Function.update_of_ne hne]; exact h0⟩

/-- **Submit.** Taking three free descriptors, formatting them and publishing the head keeps the
invariant. -/
theorem DiskInv.submit (hi : s.DiskInv) (hnd : [i0, i1, i2].Nodup)
    (hfree : ∀ i ∈ [i0, i1, i2], s.free i = true) (hp : (s.phase p).chain = [])
    (hb : ∀ q, q ≠ p → (s.phase q).buf ≠ some b) :
    (Disk.submit { s with free := taken s.free [i0, i1, i2] } p b write i0 i1 i2).DiskInv := by
  have hother : ∀ q, q ≠ p → (Disk.submit { s with free := taken s.free [i0, i1, i2] } p b write
      i0 i1 i2).phase q = s.phase q := fun q hq => by rw [submit_phase, Function.update_of_ne hq]
  refine ⟨?_, ?_, ?_, ?_, ?_⟩
  · -- `p` takes the three free descriptors, marked in use now
    refine hi.exclusive.update p (fun q hq x => by rw [hother q hq]) ?_ ?_ ?_ ?_ ?_
    · intro x hx
      refine .inr fun hm => ?_
      have hx' : x ∈ [i0, i1, i2] := by simpa [submit_phase] using hx
      rw [hfree x hx'] at hm
      cases hm
    · intro x hx
      by_cases hc : x ∈ [i0, i1, i2]
      · exact .inr (by simpa [submit_phase] using hc)
      · exact .inl (by simpa [taken, hc] using hx)
    · intro x hx
      rw [hp] at hx
      cases hx
    · intro x hx _
      simp [taken, hx]
    · intro x hx
      have hx' : x ∈ [i0, i1, i2] := by simpa [submit_phase] using hx
      simp [taken, hx']
  · intro j hj
    have hj' : j ∉ [i0, i1, i2] ∧ s.free j = true := by
      by_cases hc : j ∈ [i0, i1, i2]
      · simp [taken, hc] at hj
      · exact ⟨hc, by simpa [taken, hc] using hj⟩
    rw [submit_desc_of_not_mem hj'.1]
    exact hi.clear j hj'.2
  · intro q b' j0 j1 j2 hq
    by_cases hqp : q = p
    · rw [hqp, submit_phase, Function.update_self] at hq
      cases hq
      exact chainOk_submit hnd _
    · -- another chain: its descriptors and its head's buffer are not touched
      rw [hother q hqp] at hq
      have hnot : ∀ j, j ∈ [j0, j1, j2] → j ∉ [i0, i1, i2] := fun j hj =>
        hi.not_mem_of_free hfree (q := q) (by rw [hq]; exact hj)
      refine (hi.chain q b' j0 j1 j2 hq).frame (fun j hj => submit_desc_of_not_mem (hnot j hj) _) ?_
      have h0 : j0 ≠ i0 := fun e => hnot j0 (by simp) (by simp [e])
      rw [submit_info, Function.update_of_ne h0]
  · exact bufUnique_update hi.buf_unique p fun b' hb' q hq => by
      cases hb'
      exact hb q hq
  · obtain ⟨na, nu, hr⟩ := hi.rings
    exact ⟨na + 1, nu, hi.rings_submit hr hfree hp hb⟩

end Submit

omit [DecidableEq B] in
/-- **Done.** Once the device is done, freeing the chain and clearing `info[idx[0]].b` keeps the
invariant. -/
theorem DiskInv.done (hi : s.DiskInv) {p : P} {b : B} {i0 i1 i2 : Fin NUM}
    (hp : s.phase p = .waitDone b i0 i1 i2) (hbd : s.bdisk b = false) :
    DiskInv { s.release [i0, i1, i2] with
      info := Function.update s.info i0 { s.info i0 with b := none },
      phase := Function.update s.phase p .idle } := by
  -- a descriptor of the chain is held by `p` only
  have hown : ∀ q j, j ∈ (s.phase q).chain → j ∈ [i0, i1, i2] → q = p := fun q j hq hj =>
    hi.exclusive.unique q p j hq (by rw [hp]; exact hj)
  refine ⟨?_, ?_, ?_, ?_, ?_⟩
  · refine hi.exclusive.update p (fun q hq x => by dsimp only; rw [Function.update_of_ne hq])
      ?_ ?_ ?_ ?_ ?_
    · intro x hx
      simp [Phase.chain] at hx
    · intro x hx
      by_cases hc : x ∈ [i0, i1, i2]
      · simp [release_free, hc] at hx
      · exact .inl (by simpa [release_free, hc] using hx)
    · intro x hx hm
      have hc : x ∈ [i0, i1, i2] := by rw [hp] at hx; exact hx
      simp [release_free, hc] at hm
    · intro x hx hnp
      have hc : x ∉ [i0, i1, i2] := fun hc => hnp (by rw [hp]; exact hc)
      simpa [release_free, hc] using hx
    · intro x hx
      simp [Phase.chain] at hx
  · intro j hj
    by_cases hc : j ∈ [i0, i1, i2]
    · simp [release_desc, hc]
    · have hj' : s.free j = true := by simpa [release_free, hc] using hj
      simpa [release_desc, hc] using hi.clear j hj'
  · intro q b' j0 j1 j2 hq
    have hqp : q ≠ p := by
      rintro rfl
      simp at hq
    replace hq : s.phase q = .waitDone b' j0 j1 j2 := by simpa [Function.update_of_ne hqp] using hq
    have hnot : ∀ j, j ∈ [j0, j1, j2] → j ∉ [i0, i1, i2] := fun j hj hc =>
      hqp (hown q j (by rw [hq]; exact hj) hc)
    refine (hi.chain q b' j0 j1 j2 hq).frame (fun j hj => by simp [release_desc, hnot j hj]) ?_
    have h0 : j0 ≠ i0 := fun e => hnot j0 (by simp) (by simp [e])
    simp [Function.update_of_ne h0]
  · exact bufUnique_update hi.buf_unique p fun b' hb' => by simp [Phase.buf] at hb'
  · obtain ⟨na, nu, hr⟩ := hi.rings
    refine ⟨na, nu, hr.frame rfl rfl rfl rfl rfl
      (waiting_update (fun q hq => Function.update_of_ne hq _ _) rfl ?_ ?_) fun i => ?_⟩
    · intro b' j0 j1 j2 h
      rw [hp] at h
      cases h
      exact hbd
    · intro b' j0 j1 j2 h
      simp at h
    · by_cases hi0 : i = i0
      · subst hi0
        simp
      · simp [Function.update_of_ne hi0]

/-- A pass of the allocation loop, by a process holding nothing on a buffer no other process is
on, keeps the invariant. -/
theorem DiskInv.rwAlloc (hi : s.DiskInv) {p : P} {b : B} {write : Bool} {t : Disk P B}
    (hp : (s.phase p).chain = []) (hb : ∀ q, q ≠ p → (s.phase q).buf ≠ some b)
    (h : s.rwAlloc p b write = some t) : t.DiskInv := by
  rcases rwAlloc_eq s p b write hi.clear with ⟨i0, i1, i2, hnd, hfree, he⟩ | he
  · rw [he] at h
    cases h
    exact hi.submit hnd hfree hp hb
  · rw [he] at h
    cases h
    exact hi.waitDesc write hp hb

end Process

/-! ### The interrupt handler and the device -/

/-- The device takes the head from the avail window: the queue only turns. -/
theorem perm_of_fetch (A D U : List ℕ) (x : ℕ) :
    List.Perm (A ++ (D ++ x :: U)) (x :: (A ++ (D ++ U))) := by
  rw [← List.append_assoc, ← List.append_assoc]
  exact List.perm_middle

/-- The device moves a head it holds to the used window: the queue only turns. -/
theorem perm_of_complete {E U D : List ℕ} {x : ℕ} (hD : List.Perm D (x :: E)) :
    List.Perm (E ++ (U ++ [x])) (D ++ U) := by
  rw [← List.append_assoc]
  exact (List.perm_append_singleton x (E ++ U)).trans (hD.append_right U).symm

section Handler

variable [DecidableEq B] {s : Disk P B}

/-- Once `b->disk = 0` for the request with head `i0`, the other requests still wait. -/
theorem waiting_intr (hi : s.DiskInv) {p : P} {b : B} {i0 i1 i2 : Fin NUM}
    (hp : s.phase p = .waitDone b i0 i1 i2) (n : ℕ) :
    Waiting { s with bdisk := Function.update s.bdisk b false, usedIdx := s.usedIdx + 1 } n ↔
      s.Waiting n ∧ n ≠ i0.val := by
  constructor
  · rintro ⟨q, b', j0, j1, j2, hq, hn, hbd⟩
    have hb' : b' ≠ b := by
      rintro rfl
      simp at hbd
    replace hbd : s.bdisk b' = true := by simpa [Function.update_of_ne hb'] using hbd
    refine ⟨⟨q, b', j0, j1, j2, hq, hn, hbd⟩, ?_⟩
    rintro rfl
    -- `q` holds the head of `p`'s chain, so it is `p`
    have hqp : q = p := hi.exclusive.unique q p j0 (by rw [hq]; simp)
      (by rw [hp, Fin.ext hn]; simp)
    rw [hqp, hp] at hq
    cases hq
    exact hb' rfl
  · rintro ⟨⟨q, b', j0, j1, j2, hq, hn, hbd⟩, hne⟩
    have hb' : b' ≠ b := by
      rintro rfl
      have hqp : q = p := hi.buf_unique q p b' (by rw [hq]; rfl) (by rw [hp]; rfl)
      rw [hqp, hp] at hq
      cases hq
      exact hne hn.symm
    exact ⟨q, b', j0, j1, j2, hq, hn, by simp [Function.update_of_ne hb', hbd]⟩

/-- **A pass of the interrupt loop** finds a waiting request at the head of the used window,
with status `0` and a buffer, and clears its `b->disk`. -/
theorem DiskInv.intrOne (hi : s.DiskInv) {na k : ℕ} (hr : s.Rings na (k + 1)) :
    ∃ t, s.intrOne = some t ∧ t.DiskInv ∧ t.Rings na k := by
  have hU := Ring.view_pop s.used.ring s.usedIdx.toNat k
  set id := s.used.ring (Ring.slot NUM s.usedIdx.toNat) with hid
  have hmem : id ∈ Ring.view s.used.ring s.usedIdx.toNat (k + 1) := by
    rw [hU]
    exact List.mem_cons_self
  obtain ⟨hlt, hst⟩ := hr.status id hmem
  obtain ⟨p, b, i0, i1, i2, hp, hn, -⟩ := (hr.mem id.toNat).mp (by
    simp only [queued, List.mem_append, List.mem_map]
    exact .inr ⟨id, hmem, rfl⟩)
  have hb : (s.info ⟨id.toNat, hlt⟩).b = some b := by
    rw [show (⟨id.toNat, hlt⟩ : Fin NUM) = i0 from Fin.ext hn.symm]
    exact (hi.chain p b i0 i1 i2 hp).info
  have hstep : s.intrOne =
      some { s with bdisk := Function.update s.bdisk b false, usedIdx := s.usedIdx + 1 } := by
    unfold Disk.intrOne
    rw [← hid, dif_pos hlt]
    dsimp only
    rw [if_neg (not_not.mpr hst), hb]
  refine ⟨_, hstep, ⟨hi.exclusive, hi.clear,
    fun q b' j0 j1 j2 hq => (hi.chain q b' j0 j1 j2 hq).frame (fun _ _ => rfl) rfl,
    hi.buf_unique, na, k, ?_⟩, ?_⟩ <;>
  -- the used window loses its head
  · have hold : s.queued na (k + 1) =
        ((Ring.view s.avail.ring s.lastAvail.toNat na).map UInt16.toNat ++
          s.inDev.map UInt16.toNat) ++
        id.toNat :: (Ring.view s.used.ring (s.usedIdx.toNat + 1) k).map UInt32.toNat := by
      simp only [queued, hU, List.map_cons]
    have hnew : Disk.queued
        { s with bdisk := Function.update s.bdisk b false, usedIdx := s.usedIdx + 1 } na k =
        ((Ring.view s.avail.ring s.lastAvail.toNat na).map UInt16.toNat ++
          s.inDev.map UInt16.toNat) ++
        (Ring.view s.used.ring (s.usedIdx.toNat + 1) k).map UInt32.toNat := by
      simp only [queued, Ring.view_toNat_succ16 num_dvd]
    have hnd := hold ▸ hr.nodup
    refine ⟨hr.avail_idx, ?_, ?_, fun n => ?_, fun id' hid' => ?_⟩
    · show s.used.idx = s.usedIdx + 1 + UInt16.ofNat k
      rw [hr.used_idx, Ring.add_ofNat_succ16]
    · rw [hnew]
      exact (List.nodup_cons.mp (List.nodup_middle.mp hnd)).2
    · rw [hnew, mem_of_nodup_middle hnd, ← hold, hr.mem, waiting_intr hi hp, hn]
    · have hid'' : id' ∈ Ring.view s.used.ring s.usedIdx.toNat (k + 1) := by
        rw [hU]
        refine List.mem_cons_of_mem _ ?_
        have h' : id' ∈ Ring.view s.used.ring (s.usedIdx + 1).toNat k := hid'
        rwa [Ring.view_toNat_succ16 num_dvd] at h'
      exact hr.status id' hid''

/-- **`virtio_disk_intr`.** The loop runs once per entry of the used window, `nu` times, and ends
with the window empty. -/
theorem DiskInv.exists_intrLoop : ∀ (nu fuel : ℕ) {s : Disk P B} {na : ℕ}, nu ≤ fuel →
    nu < 2 ^ 16 → s.DiskInv → s.Rings na nu → ∃ t, intrLoop fuel s = some t ∧ t.DiskInv
  | 0, fuel, s, na, _, _, hi, hr => by
    have he : s.usedIdx = s.used.idx := by
      rw [hr.used_idx]
      exact (UInt16.add_zero _).symm
    refine ⟨s, ?_, hi⟩
    cases fuel with
    | zero => rfl
    | succ f => rw [intrLoop, if_pos he]
  | k + 1, 0, _, _, hle, _, _, _ => absurd hle (by omega)
  | k + 1, fuel + 1, s, na, hle, hlt, hi, hr => by
    obtain ⟨t, ht, hi', hr'⟩ := hi.intrOne hr
    obtain ⟨u, hu, hiu⟩ := DiskInv.exists_intrLoop k fuel (by omega) (by omega) hi' hr'
    -- the window is not empty, so the loop test fails
    have hne : s.usedIdx ≠ s.used.idx := fun e => by
      rw [hr.used_idx] at e
      have := (Ring.add_ofNat_eq_self16 s.usedIdx hlt).mp e.symm
      omega
    exact ⟨u, by rw [intrLoop, if_neg hne, ht, Option.bind_some]; exact hu, hiu⟩

/-- The handler never panics, and keeps the invariant. -/
theorem DiskInv.intr (hi : s.DiskInv) : ∃ t, s.virtio_disk_intr = some t ∧ t.DiskInv := by
  obtain ⟨na, nu, hr⟩ := hi.rings
  have hle := hr.length_le
  unfold NUM at hle
  exact DiskInv.exists_intrLoop nu (2 ^ 16) (by omega) (by omega) hi hr

omit [DecidableEq B] in
/-- **Fetch.** The device takes the oldest head of the avail window. -/
theorem DiskInv.fetch (hi : s.DiskInv) (h : s.lastAvail ≠ s.avail.idx) : s.fetch.DiskInv := by
  obtain ⟨na, nu, hr⟩ := hi.rings
  obtain ⟨k, rfl⟩ : ∃ k, na = k + 1 := by
    cases na with
    | zero => exact absurd (by rw [hr.avail_idx]; exact (UInt16.add_zero _).symm) h
    | succ k => exact ⟨k, rfl⟩
  refine ⟨hi.exclusive, hi.clear,
    fun q b j0 j1 j2 hq => (hi.chain q b j0 j1 j2 hq).frame (fun _ _ => rfl) rfl, hi.buf_unique,
    k, nu, ?_⟩
  have hperm : List.Perm (s.fetch.queued k nu) (s.queued (k + 1) nu) := by
    simp only [queued, fetch_avail, fetch_lastAvail, fetch_inDev, fetch_used, fetch_usedIdx,
      Ring.view_toNat_succ16 num_dvd, Ring.view_pop, List.map_cons, List.map_append,
      List.map_nil, List.append_assoc, List.cons_append]
    exact perm_of_fetch _ _ _ _
  refine ⟨?_, hr.used_idx, hperm.nodup_iff.mpr hr.nodup,
    fun n => hperm.mem_iff.trans (hr.mem n), hr.status⟩
  show s.avail.idx = s.lastAvail + 1 + UInt16.ofNat k
  rw [hr.avail_idx, Ring.add_ofNat_succ16]

omit [DecidableEq B] in
/-- **Complete.** The device puts a head it holds just past the used window, with status `0`. -/
theorem DiskInv.complete (hi : s.DiskInv) {h : UInt16} (hh : h ∈ s.inDev) :
    (s.complete h).DiskInv := by
  obtain ⟨na, nu, hr⟩ := hi.rings
  have hhq : h.toNat ∈ s.queued na nu := by
    simp only [queued, List.mem_append, List.mem_map]
    exact .inl (.inr ⟨h, hh, rfl⟩)
  have hlt : h.toNat < NUM := ((hr.mem _).mp hhq).lt
  -- the device holds `h`, so the used window is shorter than `NUM`
  have hnu : nu < NUM := by
    have hlen := hr.length_le
    have := List.length_pos_of_mem hh
    omega
  have hinfo : ∀ i, ((s.complete h).info i).b = (s.info i).b := fun i => by
    rw [complete_info]
    split_ifs <;> rfl
  refine ⟨hi.exclusive, hi.clear,
    fun q b j0 j1 j2 hq => (hi.chain q b j0 j1 j2 hq).frame (fun _ _ => rfl) (hinfo j0),
    hi.buf_unique, na, nu + 1, ?_⟩
  have hU : Ring.view (s.complete h).used.ring (s.complete h).usedIdx.toNat (nu + 1) =
      Ring.view s.used.ring s.usedIdx.toNat nu ++ [h.toUInt32] := by
    rw [complete_used_ring, complete_usedIdx, hr.used_idx, Ring.slot_add_ofNat16 num_dvd]
    exact Ring.view_push _ _ _ _ hnu
  have hD : List.Perm (s.inDev.map UInt16.toNat) (h.toNat :: (s.inDev.erase h).map UInt16.toNat) := by
    simpa using (List.perm_cons_erase hh).map UInt16.toNat
  have hperm : List.Perm ((s.complete h).queued na (nu + 1)) (s.queued na nu) := by
    simp only [queued, complete_avail, complete_lastAvail, complete_inDev, hU, List.map_append,
      List.map_cons, List.map_nil, UInt16.toNat_toUInt32, List.append_assoc]
    exact (perm_of_complete hD).append_left _
  refine ⟨hr.avail_idx, ?_, hperm.nodup_iff.mpr hr.nodup,
    fun n => hperm.mem_iff.trans (hr.mem n), fun id hid => ?_⟩
  · show s.used.idx + 1 = s.usedIdx + UInt16.ofNat (nu + 1)
    rw [hr.used_idx, Ring.add_ofNat_add_one16]
  · rw [hU] at hid
    rcases List.mem_append.mp hid with hid | hid
    · obtain ⟨hlt', h0⟩ := hr.status id hid
      refine ⟨hlt', ?_⟩
      rw [complete_info]
      split_ifs
      · rfl
      · exact h0
    · rw [List.mem_singleton.mp hid, UInt16.toNat_toUInt32]
      exact ⟨hlt, by rw [complete_info, if_pos rfl]⟩

end Handler

/-! ### Every reachable state -/

section Run

variable [DecidableEq P] [DecidableEq B] [Fintype P] {s : Disk P B}

/-- **Step lemma.** Every step keeps the invariant. -/
theorem DiskInv.step (hi : s.DiskInv) {a : Act P B} {t : Disk P B} (h : s.step a = some t) :
    t.DiskInv := by
  cases a with
  | call p b write =>
    obtain ⟨⟨hp, hb⟩, h⟩ := step_call.mp h
    exact hi.rwAlloc (by rw [hp]; rfl) (fun q _ => hb q) h
  | retry p =>
    obtain ⟨b, write, hp, h⟩ := step_retry.mp h
    exact hi.rwAlloc (by rw [hp]; rfl)
      (fun q hq hqb => hq (hi.buf_unique q p b hqb (by rw [hp]; rfl))) h
  | wake p =>
    obtain ⟨b, i0, i1, i2, hp, hbd, h⟩ := step_wake.mp h
    have hc := hi.chain p b i0 i1 i2 hp
    rw [rwDone_eq s p hc.nodup (fun i h => hi.not_free (by rw [hp]; exact h)) hc.head
      hc.mid_flags hc.mid_next hc.last] at h
    cases h
    exact hi.done hp hbd
  | intr =>
    obtain ⟨u, hu, hiu⟩ := hi.intr
    rw [step_intr, hu] at h
    cases h
    exact hiu
  | fetch =>
    obtain ⟨hne, rfl⟩ := step_fetch.mp h
    exact hi.fetch hne
  | complete x =>
    obtain ⟨hx, rfl⟩ := step_complete.mp h
    exact hi.complete hx

/-- **Run lemma.** The invariant holds in every reachable state. -/
theorem diskInv_of_reachable (hs : s.Reachable) : s.DiskInv :=
  Reach.Reachable.invariant (fun _ h => h ▸ diskInv_init) (fun _ _ _ hi _ h => hi.step h) hs

end Run

/-! ### Descriptor bookkeeping -/

section Main

variable [DecidableEq P] [DecidableEq B] [Fintype P] {s : Disk P B}

/-- **Descriptor bookkeeping of the virtio driver.** In every state the driver reaches, under any
interleaving of `virtio_disk_rw` calls, interrupts and device steps:

* each descriptor is free and held by no request, or in use and in the chain of exactly one
  request (so no descriptor serves two requests at once);
* each request's chain is three distinct descriptors linked by `VRING_DESC_F_NEXT` from a head
  whose `info[head].b` is the request's buffer;
* `alloc3_desc` takes three free descriptors, or returns `-1` with the table as it was;
* `free_chain` on a request's head frees exactly its three descriptors;
* no step of a process or of `virtio_disk_intr` panics: none of `free_desc`'s panics, the
  status panic or a missing buffer is reached;
* `avail->idx` and `used_idx` address their rings through windows that list every waiting
  request's head once. -/
theorem virtio_descriptors (hs : s.Reachable) :
    (∀ i, (s.free i = true ∧ ∀ p, i ∉ (s.phase p).chain) ∨
      (s.free i = false ∧ ∃! p, i ∈ (s.phase p).chain)) ∧
    (∀ p b i0 i1 i2, s.phase p = .waitDone b i0 i1 i2 → s.ChainOk b i0 i1 i2) ∧
    ((∃ i0 i1 i2 : Fin NUM, [i0, i1, i2].Nodup ∧ (∀ i ∈ [i0, i1, i2], s.free i = true) ∧
        s.alloc3_desc = some (some [i0, i1, i2], { s with free := taken s.free [i0, i1, i2] })) ∨
      s.alloc3_desc = some (none, s)) ∧
    (∀ p b i0 i1 i2, s.phase p = .waitDone b i0 i1 i2 →
      s.free_chain i0 = some (s.release [i0, i1, i2])) ∧
    (∀ p b write, s.phase p = .idle → (∀ q, (s.phase q).buf ≠ some b) →
      (s.step (.call p b write)).isSome) ∧
    (∀ p b write, s.phase p = .waitDesc b write → (s.step (.retry p)).isSome) ∧
    (∀ p b i0 i1 i2, s.phase p = .waitDone b i0 i1 i2 → s.bdisk b = false →
      (s.step (.wake p)).isSome) ∧
    (s.step .intr).isSome ∧
    ∃ na nu, s.Rings na nu := by
  have hi := diskInv_of_reachable hs
  have hheld : ∀ p b i0 i1 i2, s.phase p = .waitDone b i0 i1 i2 →
      ∀ i ∈ [i0, i1, i2], s.free i = false := fun p b i0 i1 i2 hp i h =>
    hi.not_free (by rw [hp]; exact h)
  -- one pass of the allocation loop never panics
  have halloc : ∀ p b write, (s.rwAlloc p b write).isSome := fun p b write => by
    rcases rwAlloc_eq s p b write hi.clear with ⟨_, _, _, _, _, he⟩ | he <;> rw [he] <;> rfl
  refine ⟨fun i => ?_, hi.chain, alloc3_desc_spec s hi.clear, fun p b i0 i1 i2 hp => ?_,
    fun p b write hp hb => ?_, fun p b write hp => ?_, fun p b i0 i1 i2 hp hbd => ?_, ?_, hi.rings⟩
  · cases hf : s.free i
    · exact .inr ⟨rfl, hi.exclusive.existsUnique hf⟩
    · exact .inl ⟨rfl, hi.exclusive.not_holds (by simp [hf])⟩
  · have hc := hi.chain p b i0 i1 i2 hp
    exact free_chain_spec s hc.nodup (hheld p b i0 i1 i2 hp) hc.head hc.mid_flags hc.mid_next
      hc.last
  · rw [show s.step (.call p b write) = s.rwAlloc p b write from if_pos ⟨hp, hb⟩]
    exact halloc p b write
  · rw [show s.step (.retry p) = s.rwAlloc p b write by simp only [step, hp]]
    exact halloc p b write
  · have hc := hi.chain p b i0 i1 i2 hp
    rw [show s.step (.wake p) = s.rwDone p i0 by simp only [step, hp, hbd, if_true],
      rwDone_eq s p hc.nodup (hheld p b i0 i1 i2 hp) hc.head hc.mid_flags hc.mid_next hc.last]
    rfl
  · obtain ⟨t, ht, -⟩ := hi.intr
    rw [step_intr, ht]
    rfl

set_option maxRecDepth 20000 in
/-- One request by one process on one buffer: its chain is `0 → 1 → 2`, and `free_chain` frees
exactly those three. -/
theorem virtio_descriptors_one_request :
    ∃ s : Disk (Fin 1) (Fin 1), (init : Disk (Fin 1) (Fin 1)).step (.call 0 0 false) = some s ∧
      s.free_chain 0 = some (s.release [0, 1, 2]) := by
  obtain ⟨s, hs⟩ : ∃ s, (init : Disk (Fin 1) (Fin 1)).step (.call 0 0 false) = some s :=
    Option.isSome_iff_exists.mp (by decide)
  have hp : s.phase 0 = .waitDone 0 0 1 2 := by
    have h : ((init : Disk (Fin 1) (Fin 1)).step (.call 0 0 false)).map (fun t => t.phase 0) =
        some (.waitDone 0 0 1 2) := by decide
    rw [hs] at h
    exact Option.some.inj h
  exact ⟨s, hs, (virtio_descriptors (.step (.init rfl) trivial hs)).2.2.2.1 0 0 0 1 2 hp⟩

end Main

end Disk

end Virtio

end Xv6
