import Xv6.Bio.Model
import Xv6.Lib.Count

/-!
# The buffer-cache invariant

Every reachable state of the cache (`Bcache.step` from `binit`) satisfies `Bcache.Inv`:

* the links thread all `NBUF` buffers, once each, into one cycle through `bcache.head`;
* no two buffers carry the same block of a device other than `0`;
* `b->refcnt` is the number of processes holding `b`, plus those waiting for its lock after
  `bget`, plus one while the log pins it (`holders`, `waiters`, `pins`);
* the block numbers of `log.lh` that `install_trans(0)` has not unpinned are distinct and each
  is carried by a buffer, which is `valid`.

`bget`'s two scans cover the whole list, which is what keeps identities unique; its victim has
`refcnt == 0`, so it is neither held, nor waited for, nor pinned. `bcache_invariant` states the
consequences for the code: `bget` never retargets a referenced buffer, and a pinned block keeps
its buffer and that buffer's data until a holder writes it.

The data of a pinned buffer need not be what was last passed to `log_write` for its block: a
holder changes `b->data` before it calls `log_write`, and `writei` releases a buffer whose
`either_copyin` failed part way without calling it at all (`bcache_logged_data_stale`).
-/

namespace Xv6

namespace Bcache

variable {P β : Type}

/-- The nodes of the buffers, in the order of `bcache.buf`. -/
def allBufs : List BNode := (List.finRange NBUF).map some

theorem mem_allBufs (b : Fin NBUF) : some b ∈ allBufs := by
  simp [allBufs]

theorem nodup_allBufs : allBufs.Nodup :=
  (List.nodup_finRange NBUF).map (Option.some_injective _)

/-- The log pins `b`: it carries a block of the log's device that is in `log.lh` and that
`install_trans(0)` has not unpinned yet. -/
def Pinned (s : Bcache P β) (b : Fin NBUF) : Prop :=
  s.dev b = ROOTDEV ∧ s.blockno b ∈ s.lh.drop s.tail

instance (s : Bcache P β) (b : Fin NBUF) : Decidable (s.Pinned b) :=
  inferInstanceAs (Decidable (_ ∧ _))

/-- The reference the log holds on `b` through `bpin`. -/
def pins (s : Bcache P β) (b : Fin NBUF) : ℕ := if s.Pinned b then 1 else 0

/-- A log pin that holds on the same buffers in two states counts the same in both. -/
theorem pins_eq_of_iff {s t : Bcache P β} {b : Fin NBUF} (h : t.Pinned b ↔ s.Pinned b) :
    t.pins b = s.pins b := by
  unfold pins
  by_cases hs : s.Pinned b
  · rw [if_pos hs, if_pos (h.mpr hs)]
  · rw [if_neg hs, if_neg (mt h.mp hs)]

/-! ### The two scans of `bget` -/

/-- The victim is unreferenced. -/
theorem victim_refcnt {s : Bcache P β} {b : Fin NBUF} (h : s.victim = some b) :
    s.refcnt b = 0 := by
  have := CircList.walk_test (Option.join_eq_some_iff.mp h)
  simpa [unused] using this

/-- A scan over a cycle of all the buffers that returns no buffer found none that passes its
test. -/
theorem scan_eq_none {next prev : BNode → BNode} {order : List BNode}
    (hc : CircList.IsCycle none next prev order) (hperm : order.Perm allBufs)
    {test : BNode → Bool} (htest : test none = false)
    (h : (CircList.walk next none test (NBUF + 1) (next none)).join = none) (b : Fin NBUF) :
    test (some b) = false := by
  rw [hc.walk_next test (by rw [hperm.length_eq]; simp [allBufs])] at h
  rcases Option.join_eq_none_iff.mp h with h | h
  · exact Bool.eq_false_iff.mpr (List.find?_eq_none.mp h _ (hperm.mem_iff.mpr (mem_allBufs b)))
  · exact absurd (List.find?_some h) (by simp [htest])

/-! ### What a step does to identities and contents -/

section Frame

variable [DecidableEq P] {s t : Bcache P β} {a : BAct P β}

/-- Only a `bget` miss changes which block a buffer carries, and only the victim's. -/
theorem step_ident (h : s.step a = some t) :
    (t.dev = s.dev ∧ t.blockno = s.blockno) ∨
      ∃ p dev blockno v, a = .bget p dev blockno ∧ s.victim = some v ∧
        t.dev = Function.update s.dev v dev ∧ t.blockno = Function.update s.blockno v blockno := by
  cases a with
  | bget p dev blockno =>
    rcases bget_eq_some (step_bget.mp h).2 with ⟨b, -, rfl⟩ | ⟨-, v, hv, rfl⟩
    · exact .inl ⟨rfl, rfl⟩
    · exact .inr ⟨p, dev, blockno, v, rfl, hv, rfl, rfl⟩
  | acquire p =>
    obtain ⟨b, -, -, rfl⟩ := step_acquire.mp h
    exact .inl (by simp [acquire_eq])
  | write p b d => obtain ⟨-, rfl⟩ := step_write.mp h; exact .inl ⟨rfl, rfl⟩
  | bwrite p b => obtain ⟨-, rfl⟩ := step_bwrite.mp h; exact .inl ⟨rfl, rfl⟩
  | brelse p b => obtain ⟨-, rfl⟩ := step_brelse.mp h; exact .inl (by simp [brelse_eq])
  | logWrite p b => obtain ⟨-, rfl⟩ := step_logWrite.mp h; exact .inl (by simp [logWrite_eq])
  | commit => obtain ⟨-, rfl⟩ := step_commit.mp h; exact .inl ⟨rfl, rfl⟩
  | bunpin p b => obtain ⟨-, rfl⟩ := step_bunpin.mp h; exact .inl ⟨rfl, rfl⟩
  | clear => obtain ⟨-, rfl⟩ := step_clear.mp h; exact .inl ⟨rfl, rfl⟩

/-- **`bget` never retargets a referenced buffer.** -/
theorem refcnt_eq_zero_of_retarget {b : Fin NBUF} (h : s.step a = some t)
    (hb : t.dev b ≠ s.dev b ∨ t.blockno b ≠ s.blockno b) : s.refcnt b = 0 := by
  rcases step_ident h with ⟨hd, hn⟩ | ⟨p, dev, blockno, v, -, hv, hd, hn⟩
  · rw [hd, hn] at hb
    exact absurd hb (by simp)
  · -- only the victim changes
    have e : b = v := by
      by_contra e
      rw [hd, hn, Function.update_of_ne e, Function.update_of_ne e] at hb
      exact absurd hb (by simp)
    exact e ▸ victim_refcnt hv

/-- Only a holder's write and `bread`'s fill of a buffer that is not `valid` change the contents
of a buffer. -/
theorem step_data (h : s.step a = some t) :
    t.data = s.data ∨ (∃ p b d, a = .write p b d ∧ t.data = Function.update s.data b d) ∨
      ∃ p b, a = .acquire p ∧ s.valid b = false ∧
        t.data = Function.update s.data b (s.disk (s.dev b) (s.blockno b)) := by
  cases a with
  | bget p dev blockno =>
    rcases bget_eq_some (step_bget.mp h).2 with ⟨b, -, rfl⟩ | ⟨-, v, hv, rfl⟩ <;> exact .inl rfl
  | acquire p =>
    obtain ⟨b, -, -, rfl⟩ := step_acquire.mp h
    by_cases hv : s.valid b = true
    · exact .inl (by simp [acquire_eq, hv])
    · exact .inr (.inr ⟨p, b, rfl, by simpa using hv, by simp [acquire_eq, hv]⟩)
  | write p b d => obtain ⟨-, rfl⟩ := step_write.mp h; exact .inr (.inl ⟨p, b, d, rfl, rfl⟩)
  | bwrite p b => obtain ⟨-, rfl⟩ := step_bwrite.mp h; exact .inl rfl
  | brelse p b => obtain ⟨-, rfl⟩ := step_brelse.mp h; exact .inl (by simp [brelse_eq])
  | logWrite p b => obtain ⟨-, rfl⟩ := step_logWrite.mp h; exact .inl (by simp [logWrite_eq])
  | commit => obtain ⟨-, rfl⟩ := step_commit.mp h; exact .inl rfl
  | bunpin p b => obtain ⟨-, rfl⟩ := step_bunpin.mp h; exact .inl rfl
  | clear => obtain ⟨-, rfl⟩ := step_clear.mp h; exact .inl rfl

end Frame

section Invariant

variable [Fintype P]

/-- The number of processes holding `b` locked. -/
def holders (held : P → List (Fin NBUF)) (b : Fin NBUF) : ℕ := Count.count held (b ∈ ·)

/-- The number of processes waiting for `b`'s sleep-lock after `bget`. -/
def waiters (phase : P → BPhase) (b : Fin NBUF) : ℕ := Count.count phase (· = .acquiring b)

/-- The invariant of the buffer cache. -/
structure Inv (s : Bcache P β) : Prop where
  cycle : ∃ order, CircList.IsCycle none s.next s.prev order ∧ order.Perm allBufs
  unique : ∀ b₁ b₂, s.dev b₁ ≠ 0 → s.dev b₁ = s.dev b₂ → s.blockno b₁ = s.blockno b₂ → b₁ = b₂
  refcnt : ∀ b, s.refcnt b = holders s.held b + waiters s.phase b + s.pins b
  owner : ∀ p b, b ∈ s.held p ↔ s.owner b = some p
  held_nodup : ∀ p, (s.held p).Nodup
  held_valid : ∀ p b, b ∈ s.held p → s.valid b = true
  pinned_valid : ∀ b, s.Pinned b → s.valid b = true
  logged_cached : ∀ k ∈ s.lh.drop s.tail, ∃ b, s.dev b = ROOTDEV ∧ s.blockno b = k
  lh_nodup : s.lh.Nodup
  tail_le : s.tail ≤ s.lh.length
  idle_tail : s.committing = false → s.tail = 0

variable {s : Bcache P β}

/-- Pushing the buffers one by one after the sentinel builds the cycle, `bcache.buf[0]` last. -/
theorem isCycle_binitLinks : CircList.IsCycle none binitLinks.1 binitLinks.2 (allBufs.reverse ++ []) := by
  apply (CircList.isCycle_nil rfl rfl).of_pushAll nodup_allBufs
  intro x hx
  obtain ⟨b, -, rfl⟩ := List.mem_map.mp hx
  simp

/-- **`binit`.** The links form the cycle; nothing is held or logged. -/
theorem inv_binit (d0 : β) (disk : UInt32 → UInt32 → β) : (binit d0 disk : Bcache P β).Inv where
  cycle := ⟨allBufs.reverse ++ [], isCycle_binitLinks, by simp⟩
  unique _ _ h := absurd rfl h
  refcnt b := by
    have hh : holders (fun _ : P => ([] : List (Fin NBUF))) b = 0 :=
      Count.count_eq_zero.mpr fun _ => List.not_mem_nil
    have hw : waiters (fun _ : P => BPhase.ready) b = 0 :=
      Count.count_eq_zero.mpr fun _ => by simp
    simp [binit, hh, hw, pins, Pinned]
  owner _ _ := by simp [binit]
  held_nodup _ := List.nodup_nil
  held_valid _ _ h := absurd h List.not_mem_nil
  pinned_valid _ h := absurd h.2 (by simp [binit])
  logged_cached _ h := absurd h (by simp [binit])
  lh_nodup := List.nodup_nil
  tail_le := Nat.le_refl 0
  idle_tail _ := rfl

/-! ### What the invariant says about one buffer -/

theorem Inv.refcnt_pos_of_held (hi : s.Inv) {p : P} {b : Fin NBUF} (h : b ∈ s.held p) :
    0 < s.refcnt b := by
  have := Count.count_pos (Q := (b ∈ ·)) h
  rw [hi.refcnt b]
  unfold holders
  omega

theorem Inv.refcnt_pos_of_pinned (hi : s.Inv) {b : Fin NBUF} (h : s.Pinned b) :
    0 < s.refcnt b := by
  rw [hi.refcnt b, pins, if_pos h]
  omega

/-- **An unreferenced buffer is free.** Nobody holds it or waits for it, and the log does not
pin it. -/
theorem Inv.free_of_refcnt_eq_zero (hi : s.Inv) {b : Fin NBUF} (h : s.refcnt b = 0) :
    (∀ p, b ∉ s.held p) ∧ (∀ p, s.phase p ≠ .acquiring b) ∧ ¬ s.Pinned b := by
  refine ⟨fun p hp => ?_, fun p hp => ?_, fun hp => ?_⟩
  · exact absurd h (Nat.pos_iff_ne_zero.mp (hi.refcnt_pos_of_held hp))
  · have := Count.count_pos (Q := (· = BPhase.acquiring b)) hp
    rw [hi.refcnt b] at h
    unfold waiters at h
    omega
  · exact absurd h (Nat.pos_iff_ne_zero.mp (hi.refcnt_pos_of_pinned hp))

/-- Two buffers pinned for the same block are the same buffer. -/
theorem Inv.eq_of_rootdev (hi : s.Inv) {b₁ b₂ : Fin NBUF} (h₁ : s.dev b₁ = ROOTDEV)
    (h₂ : s.dev b₂ = ROOTDEV) (h : s.blockno b₁ = s.blockno b₂) : b₁ = b₂ :=
  hi.unique b₁ b₂ (by rw [h₁]; decide) (h₁.trans h₂.symm) h

/-- **The hit scan covers every buffer.** On a miss no buffer carries the block. -/
theorem Inv.lookup_eq_none (hi : s.Inv) {dev blockno : UInt32} (h : s.lookup dev blockno = none)
    (b : Fin NBUF) : ¬ (s.dev b = dev ∧ s.blockno b = blockno) := by
  obtain ⟨order, hc, hperm⟩ := hi.cycle
  have := scan_eq_none hc hperm rfl h b
  simpa [holds] using this

/-- The invariant does not read the contents of the buffers or of the disk, nor the ghost
record of logged contents. -/
theorem Inv.of_contents (hi : s.Inv) (data : Fin NBUF → β) (disk : UInt32 → UInt32 → β)
    (logged : UInt32 → Option β) : Inv { s with data := data, disk := disk, logged := logged } :=
  { hi with }

/-! ### One request keeps the invariant -/

variable {p : P} {b : Fin NBUF}

/-- `log_write`: a block already in the log is absorbed; a new one is appended and its buffer
pinned. -/
theorem Inv.logWrite (hi : s.Inv) (h : s.Holding p b) (hc : s.committing = false)
    (hd : s.dev b = ROOTDEV) {t : Bcache P β} (ht : t = s.logWrite b) : t.Inv := by
  have htail : s.tail = 0 := hi.idle_tail hc
  rw [logWrite_eq] at ht
  by_cases hk : s.blockno b ∈ s.lh
  · -- absorption changes only the ghost record
    simp only [hk, if_true] at ht
    subst ht
    exact hi.of_contents s.data s.disk _
  simp only [hk, if_false] at ht
  -- the pins: those of before, and `b`
  have hpins : ∀ b', t.Pinned b' ↔ s.Pinned b' ∨ b' = b := by
    intro b'
    subst ht
    simp only [Pinned, htail, List.drop_zero, List.mem_append, List.mem_singleton]
    constructor
    · rintro ⟨hd', hk' | hk'⟩
      · exact .inl ⟨hd', hk'⟩
      · exact .inr (hi.eq_of_rootdev hd' hd hk')
    · rintro (⟨hd', hk'⟩ | rfl)
      · exact ⟨hd', .inl hk'⟩
      · exact ⟨hd, .inr rfl⟩
  have hnotpin : ¬ s.Pinned b := fun hp => hk (List.mem_of_mem_drop hp.2)
  subst ht
  refine { cycle := hi.cycle, unique := hi.unique, refcnt := ?refcnt, owner := hi.owner,
           held_nodup := hi.held_nodup, held_valid := hi.held_valid,
           pinned_valid := ?pinned_valid, logged_cached := ?logged_cached,
           lh_nodup := ?lh_nodup, tail_le := ?tail_le, idle_tail := hi.idle_tail }
  case refcnt =>
    intro b'
    have hr := hi.refcnt b'
    dsimp only
    by_cases e : b' = b
    · subst e
      have hp1 : pins _ b' = 1 := if_pos ((hpins b').mpr (.inr rfl))
      rw [hp1, Function.update_self, hr, pins, if_neg hnotpin]
    · rw [pins_eq_of_iff ((hpins b').trans (or_iff_left e)), Function.update_of_ne e, hr]
  case pinned_valid =>
    intro b' hb'
    rcases (hpins b').mp hb' with hb' | rfl
    · exact hi.pinned_valid b' hb'
    · exact hi.held_valid p b' h.2
  case logged_cached =>
    intro k hk'
    dsimp only at hk'
    rw [htail, List.drop_zero, List.mem_append, List.mem_singleton] at hk'
    rcases hk' with hk' | rfl
    · exact hi.logged_cached k (by rw [htail, List.drop_zero]; exact hk')
    · exact ⟨b, hd, rfl⟩
  case lh_nodup =>
    exact hi.lh_nodup.append (List.nodup_singleton _) (by simpa using hk)
  case tail_le =>
    dsimp only
    rw [htail]
    exact Nat.zero_le _

/-- `commit()` starts: no transaction is open, so `install_trans(0)` starts from the first logged
block. -/
theorem Inv.commit (hi : s.Inv) (hc : s.committing = false) :
    Inv { s with committing := true, tail := 0 } := by
  have htail : s.tail = 0 := hi.idle_tail hc
  have hpins : ∀ b, ({ s with committing := true, tail := 0 } : Bcache P β).Pinned b ↔ s.Pinned b := by
    intro b
    simp only [Pinned, htail]
  refine { cycle := hi.cycle, unique := hi.unique, refcnt := ?refcnt, owner := hi.owner,
           held_nodup := hi.held_nodup, held_valid := hi.held_valid,
           pinned_valid := fun b hb => hi.pinned_valid b ((hpins b).mp hb),
           logged_cached := fun k hk => hi.logged_cached k (by rw [htail]; exact hk),
           lh_nodup := hi.lh_nodup, tail_le := Nat.zero_le _, idle_tail := fun _ => rfl }
  case refcnt =>
    intro b
    rw [pins_eq_of_iff (hpins b)]
    exact hi.refcnt b

/-- The block `install_trans(0)` unpins next leaves the unpinned part of the log; the others
stay. -/
theorem mem_drop_succ_iff {l : List UInt32} {i : ℕ} {x y : UInt32} (hnd : l.Nodup)
    (hx : l[i]? = some x) : y ∈ l.drop (i + 1) ↔ y ∈ l.drop i ∧ y ≠ x := by
  obtain ⟨hi, rfl⟩ := List.getElem?_eq_some_iff.mp hx
  have hnd' : (l[i] :: l.drop (i + 1)).Nodup := by
    rw [← List.drop_eq_getElem_cons hi]
    exact hnd.sublist (List.drop_sublist _ _)
  rw [List.drop_eq_getElem_cons hi, List.mem_cons]
  constructor
  · intro hy
    exact ⟨.inr hy, fun e => (List.nodup_cons.mp hnd').1 (e ▸ hy)⟩
  · rintro ⟨hy | hy, hne⟩
    · exact absurd hy hne
    · exact hy

/-- `bunpin` in `install_trans(0)`: the log lets go of the buffer of `lh.block[tail]`. -/
theorem Inv.bunpin (hi : s.Inv) (hc : s.committing = true) (hd : s.dev b = ROOTDEV)
    (hk : s.lh[s.tail]? = some (s.blockno b)) {t : Bcache P β}
    (ht : t = { s with refcnt := Function.update s.refcnt b (s.refcnt b - 1),
                       tail := s.tail + 1 }) : t.Inv := by
  have hlen : s.tail < s.lh.length := (List.getElem?_eq_some_iff.mp hk).1
  have hdrop := fun y => mem_drop_succ_iff (y := y) hi.lh_nodup hk
  have hpin : s.Pinned b := ⟨hd, List.mem_drop_iff_getElem.mpr ⟨0, by simpa using hlen, by
    simpa using (List.getElem?_eq_some_iff.mp hk).2⟩⟩
  -- the pins: those of before but `b`
  have hpins : ∀ b', t.Pinned b' ↔ s.Pinned b' ∧ b' ≠ b := by
    intro b'
    subst ht
    simp only [Pinned, hdrop]
    constructor
    · rintro ⟨hd', hk', hne⟩
      exact ⟨⟨hd', hk'⟩, fun e => hne (e ▸ rfl)⟩
    · rintro ⟨⟨hd', hk'⟩, hne⟩
      exact ⟨hd', hk', fun e => hne (hi.eq_of_rootdev hd' hd e)⟩
  subst ht
  refine { cycle := hi.cycle, unique := hi.unique, refcnt := ?refcnt, owner := hi.owner,
           held_nodup := hi.held_nodup, held_valid := hi.held_valid,
           pinned_valid := fun b' hb' => hi.pinned_valid b' ((hpins b').mp hb').1,
           logged_cached := ?logged_cached, lh_nodup := hi.lh_nodup, tail_le := hlen,
           idle_tail := fun h => absurd (hc.symm.trans h) Bool.noConfusion }
  case refcnt =>
    intro b'
    have hr := hi.refcnt b'
    dsimp only
    by_cases e : b' = b
    · subst e
      have hp0 : pins _ b' = 0 := if_neg fun h => ((hpins b').mp h).2 rfl
      rw [hp0, Function.update_self, hr, pins, if_pos hpin]
      rfl
    · rw [pins_eq_of_iff ((hpins b').trans (and_iff_left e)), Function.update_of_ne e, hr]
  case logged_cached =>
    intro k hk'
    exact hi.logged_cached k ((hdrop k).mp hk').1

/-- The end of `commit()`: `log.lh.n = 0` once every logged block is unpinned. -/
theorem Inv.clear (hi : s.Inv) (hc : s.tail = s.lh.length) :
    Inv { s with lh := [], tail := 0, committing := false } := by
  have hnone : ∀ b, ¬ s.Pinned b := fun b hb => by simpa [hc] using hb.2
  have hnone' : ∀ b, ¬ ({ s with lh := [], tail := 0, committing := false } : Bcache P β).Pinned b :=
    fun b hb => by simpa [Pinned] using hb.2
  refine { cycle := hi.cycle, unique := hi.unique, refcnt := ?refcnt, owner := hi.owner,
           held_nodup := hi.held_nodup, held_valid := hi.held_valid,
           pinned_valid := fun b hb => absurd hb (hnone' b),
           logged_cached := fun k hk => by simp at hk, lh_nodup := List.nodup_nil,
           tail_le := Nat.le_refl 0, idle_tail := fun _ => rfl }
  case refcnt =>
    intro b
    rw [pins_eq_of_iff (iff_of_false (hnone' b) (hnone b))]
    exact hi.refcnt b

variable [DecidableEq P]

/-- A `bget` hit: the caller becomes a waiter of the cached buffer. -/
theorem Inv.bget_hit (hi : s.Inv) (hp : s.phase p = .ready) :
    Inv { s with refcnt := Function.update s.refcnt b (s.refcnt b + 1),
                 phase := Function.update s.phase p (.acquiring b) } where
  cycle := hi.cycle
  unique := hi.unique
  refcnt b' := by
    show _ = holders s.held b' + waiters (Function.update s.phase p (.acquiring b)) b' + s.pins b'
    -- `p` stops being ready and starts waiting for `b`
    have hw := Count.count_update (Q := (· = BPhase.acquiring b')) s.phase p (.acquiring b)
    have hr := hi.refcnt b'
    unfold waiters at hr ⊢
    rw [hp] at hw
    by_cases e : b' = b
    · subst e
      simp only [Function.update_self, reduceCtorEq, if_true, if_false] at hw ⊢
      omega
    · simp only [Function.update_of_ne e, reduceCtorEq, BPhase.acquiring.injEq, Ne.symm e,
        if_false] at hw ⊢
      omega
  owner := hi.owner
  held_nodup := hi.held_nodup
  held_valid := hi.held_valid
  pinned_valid := hi.pinned_valid
  logged_cached := hi.logged_cached
  lh_nodup := hi.lh_nodup
  tail_le := hi.tail_le
  idle_tail := hi.idle_tail

/-- A `bget` miss: the victim takes the block, and the caller waits for it. -/
theorem Inv.bget_miss (hi : s.Inv) (hp : s.phase p = .ready) {dev blockno : UInt32}
    {v : Fin NBUF} (hl : s.lookup dev blockno = none) (hv : s.victim = some v)
    {t : Bcache P β}
    (ht : t = { s with dev := Function.update s.dev v dev,
                       blockno := Function.update s.blockno v blockno,
                       valid := Function.update s.valid v false,
                       refcnt := Function.update s.refcnt v 1,
                       phase := Function.update s.phase p (.acquiring v) }) : t.Inv := by
  have h0 := victim_refcnt hv
  obtain ⟨hheld, -, hpin⟩ := hi.free_of_refcnt_eq_zero h0
  have hnew := hi.lookup_eq_none hl
  -- the block is not in the log either: a logged block is cached
  have hunlogged : ¬ (dev = ROOTDEV ∧ blockno ∈ s.lh.drop s.tail) := by
    rintro ⟨hd, hk⟩
    obtain ⟨b, hb, hbk⟩ := hi.logged_cached blockno hk
    exact hnew b ⟨hb.trans hd.symm, hbk⟩
  -- so no pin changes
  have hpins : ∀ b, t.Pinned b ↔ s.Pinned b := by
    intro b
    subst ht
    by_cases e : b = v
    · subst e
      simp only [Pinned, Function.update_self]
      exact iff_of_false hunlogged hpin
    · simp only [Pinned, Function.update_of_ne e]
  subst ht
  refine { cycle := hi.cycle, unique := ?unique, refcnt := ?refcnt, owner := hi.owner,
           held_nodup := hi.held_nodup, held_valid := ?held_valid, pinned_valid := ?pinned_valid,
           logged_cached := ?logged_cached, lh_nodup := hi.lh_nodup, tail_le := hi.tail_le,
           idle_tail := hi.idle_tail }
  case unique =>
    intro b₁ b₂ h₀ hd hn
    dsimp only at h₀ hd hn
    by_cases e₁ : b₁ = v <;> by_cases e₂ : b₂ = v
    · exact e₁.trans e₂.symm
    · -- `v` now carries the block, which no other buffer carried
      subst e₁
      rw [Function.update_self, Function.update_of_ne e₂] at hd hn
      exact absurd ⟨hd.symm, hn.symm⟩ (hnew b₂)
    · subst e₂
      rw [Function.update_self, Function.update_of_ne e₁] at hd hn
      exact absurd ⟨hd, hn⟩ (hnew b₁)
    · rw [Function.update_of_ne e₁, Function.update_of_ne e₂] at hd hn
      rw [Function.update_of_ne e₁] at h₀
      exact hi.unique b₁ b₂ h₀ hd hn
  case refcnt =>
    intro b
    rw [pins_eq_of_iff (hpins b)]
    dsimp only
    have hw := Count.count_update (Q := (· = BPhase.acquiring b)) s.phase p (.acquiring v)
    have hr := hi.refcnt b
    unfold waiters at hr ⊢
    rw [hp] at hw
    by_cases e : b = v
    · -- the victim had no holder, waiter or pin; now the caller waits for it
      subst e
      have hh : holders s.held b = 0 := Count.count_eq_zero.mpr hheld
      simp only [pins, if_neg hpin] at hr ⊢
      simp only [Function.update_self, reduceCtorEq, if_true, if_false] at hw ⊢
      omega
    · simp only [Function.update_of_ne e, reduceCtorEq, BPhase.acquiring.injEq, Ne.symm e,
        if_false] at hw ⊢
      omega
  case held_valid =>
    intro q b hb
    have e : b ≠ v := fun e => hheld q (e ▸ hb)
    dsimp only
    rw [Function.update_of_ne e]
    exact hi.held_valid q b hb
  case pinned_valid =>
    intro b hb
    have hb' := (hpins b).mp hb
    have e : b ≠ v := fun e => hpin (e ▸ hb')
    dsimp only
    rw [Function.update_of_ne e]
    exact hi.pinned_valid b hb'
  case logged_cached =>
    intro k hk
    obtain ⟨b, hb, hbk⟩ := hi.logged_cached k hk
    have e : b ≠ v := fun e => hpin (e ▸ ⟨hb, hbk ▸ hk⟩)
    dsimp only
    exact ⟨b, by rw [Function.update_of_ne e, hb], by rw [Function.update_of_ne e, hbk]⟩

/-- `acquiresleep` returns: the waiter becomes the holder, and `bread` fills the buffer if it is
not `valid`. -/
theorem Inv.acquire (hi : s.Inv) (hp : s.phase p = .acquiring b) (ho : s.owner b = none) :
    (s.acquire p b).Inv := by
  -- nobody held `b`
  have hfree : ∀ q, b ∉ s.held q := fun q h => by simpa [ho] using (hi.owner q b).mp h
  rw [acquire_eq]
  refine { cycle := hi.cycle, unique := hi.unique, refcnt := ?refcnt, owner := ?owner,
           held_nodup := ?held_nodup, held_valid := ?held_valid, pinned_valid := ?pinned_valid,
           logged_cached := hi.logged_cached, lh_nodup := hi.lh_nodup, tail_le := hi.tail_le,
           idle_tail := hi.idle_tail }
  case refcnt =>
    intro b'
    show s.refcnt b' = holders (Function.update s.held p (b :: s.held p)) b' +
      waiters (Function.update s.phase p .ready) b' + s.pins b'
    -- `p` moves from the waiters of `b` to its holders
    have hh := Count.count_update (Q := (b' ∈ ·)) s.held p (b :: s.held p)
    have hw := Count.count_update (Q := (· = BPhase.acquiring b')) s.phase p .ready
    have hr := hi.refcnt b'
    unfold holders waiters at hr ⊢
    rw [hp] at hw
    by_cases e : b' = b
    · subst e
      simp only [hfree p, List.mem_cons_self, reduceCtorEq, if_true, if_false] at hh hw
      omega
    · simp only [List.mem_cons, e, false_or, BPhase.acquiring.injEq, Ne.symm e, reduceCtorEq,
        if_false] at hh hw
      omega
  case owner =>
    intro q b'
    by_cases hq : q = p
    · subst hq
      by_cases e : b' = b
      · subst e
        simp
      · simp [e, hi.owner]
    · by_cases e : b' = b
      · subst e
        simp [Function.update_of_ne hq, hfree q, Ne.symm hq]
      · simp [Function.update_of_ne hq, Function.update_of_ne e, hi.owner]
  case held_nodup =>
    intro q
    by_cases hq : q = p
    · subst hq
      simpa using List.nodup_cons.mpr ⟨hfree q, hi.held_nodup q⟩
    · simpa [Function.update_of_ne hq] using hi.held_nodup q
  case held_valid =>
    intro q b' hb'
    dsimp only at hb' ⊢
    by_cases e : b' = b
    · subst e
      simp
    · rw [Function.update_of_ne e]
      by_cases hq : q = p
      · subst hq
        simp only [Function.update_self, List.mem_cons, e, false_or] at hb'
        exact hi.held_valid q b' hb'
      · rw [Function.update_of_ne hq] at hb'
        exact hi.held_valid q b' hb'
  case pinned_valid =>
    intro b' hb'
    dsimp only
    by_cases e : b' = b
    · subst e
      simp
    · rw [Function.update_of_ne e]
      exact hi.pinned_valid b' hb'

/-- `brelse`: the holder lets go; at the last reference the buffer moves to the front of the
list. -/
theorem Inv.brelse (hi : s.Inv) (h : s.Holding p b) : (s.brelse p b).Inv := by
  have hheld : b ∈ s.held p := h.2
  have hown : s.owner b = some p := (hi.owner p b).mp hheld
  have hpos := hi.refcnt_pos_of_held hheld
  rw [brelse_eq]
  refine { cycle := ?cycle, unique := hi.unique, refcnt := ?refcnt, owner := ?owner,
           held_nodup := ?held_nodup, held_valid := ?held_valid, pinned_valid := hi.pinned_valid,
           logged_cached := hi.logged_cached, lh_nodup := hi.lh_nodup, tail_le := hi.tail_le,
           idle_tail := hi.idle_tail }
  case cycle =>
    dsimp only
    split_ifs with h0
    · -- relinking: `b` leaves its place and goes to the front
      obtain ⟨order, hc, hperm⟩ := hi.cycle
      obtain ⟨l₁, l₂, rfl⟩ := List.append_of_mem (hperm.mem_iff.mpr (mem_allBufs b))
      exact ⟨_, hc.of_unlink_pushFront, List.perm_middle.symm.trans hperm⟩
    · exact hi.cycle
  case refcnt =>
    intro b'
    show Function.update s.refcnt b (s.refcnt b - 1) b' =
      holders (Function.update s.held p ((s.held p).erase b)) b' + waiters s.phase b' + s.pins b'
    have hh := Count.count_update (Q := (b' ∈ ·)) s.held p ((s.held p).erase b)
    have hr := hi.refcnt b'
    unfold holders at hr ⊢
    by_cases e : b' = b
    · subst e
      simp only [hheld, (hi.held_nodup p).not_mem_erase, if_true, if_false,
        Function.update_self] at hh ⊢
      omega
    · simp only [List.mem_erase_of_ne e, Function.update_of_ne e] at hh ⊢
      omega
  case owner =>
    intro q b'
    dsimp only
    by_cases hq : q = p
    · subst hq
      by_cases e : b' = b
      · subst e
        simp [(hi.held_nodup q).not_mem_erase]
      · simp [List.mem_erase_of_ne e, e, hi.owner]
    · by_cases e : b' = b
      · -- `b` was held by `p` alone
        subst e
        simp only [Function.update_of_ne hq, Function.update_self, reduceCtorEq, iff_false]
        rw [hi.owner, hown]
        exact fun e => hq (Option.some.inj e).symm
      · simp [Function.update_of_ne hq, Function.update_of_ne e, hi.owner]
  case held_nodup =>
    intro q
    by_cases hq : q = p
    · subst hq
      simpa using (hi.held_nodup q).erase b
    · simpa [Function.update_of_ne hq] using hi.held_nodup q
  case held_valid =>
    intro q b' hb'
    dsimp only at hb' ⊢
    by_cases hq : q = p
    · subst hq
      rw [Function.update_self] at hb'
      exact hi.held_valid q b' (List.mem_of_mem_erase hb')
    · rw [Function.update_of_ne hq] at hb'
      exact hi.held_valid q b' hb'

/-! ### Every reachable state -/

/-- **Every request keeps the invariant.** -/
theorem Inv.step (hi : s.Inv) {a : BAct P β} {t : Bcache P β} (h : s.step a = some t) :
    t.Inv := by
  cases a with
  | bget p dev blockno =>
    obtain ⟨hp, hb⟩ := step_bget.mp h
    rcases bget_eq_some hb with ⟨b, -, rfl⟩ | ⟨hl, v, hv, ht⟩
    · exact hi.bget_hit hp
    · exact hi.bget_miss hp hl hv ht
  | acquire p =>
    obtain ⟨b, hp, ho, rfl⟩ := step_acquire.mp h
    exact hi.acquire hp ho
  | write p b d =>
    obtain ⟨-, rfl⟩ := step_write.mp h
    exact hi.of_contents _ s.disk s.logged
  | bwrite p b =>
    obtain ⟨-, rfl⟩ := step_bwrite.mp h
    exact hi.of_contents s.data _ s.logged
  | brelse p b =>
    obtain ⟨hh, rfl⟩ := step_brelse.mp h
    exact hi.brelse hh
  | logWrite p b =>
    obtain ⟨⟨hh, hc, hd, -⟩, ht⟩ := step_logWrite.mp h
    exact hi.logWrite hh hc hd ht
  | commit =>
    obtain ⟨hc, rfl⟩ := step_commit.mp h
    exact hi.commit hc
  | bunpin p b =>
    obtain ⟨⟨-, hc, hd, hk⟩, ht⟩ := step_bunpin.mp h
    exact hi.bunpin hc hd hk ht
  | clear =>
    obtain ⟨⟨-, hc⟩, rfl⟩ := step_clear.mp h
    exact hi.clear hc

/-- **The invariant holds in every reachable state.** -/
theorem inv_of_reachable {allowed : BAct P β → Prop}
    (hs : Reach.Reachable Init step allowed s) : s.Inv :=
  hs.invariant (fun _ ⟨d0, disk, h⟩ => h ▸ inv_binit d0 disk) fun _ _ _ hi _ h => hi.step h

/-- **Pinning protects the contents.** A pinned buffer is `valid`, so `bread` never refills it,
and it is referenced, so `bget` never recycles it: only a holder's write changes its data. -/
theorem Inv.pinned_data (hi : s.Inv) (hp : s.Pinned b) {a : BAct P β} {t : Bcache P β}
    (h : s.step a = some t) (ha : ∀ p d, a ≠ .write p b d) : t.data b = s.data b := by
  rcases step_data h with hd | ⟨p, b', d, rfl, hd⟩ | ⟨p, b', -, hv, hd⟩
  · rw [hd]
  · have e : b ≠ b' := fun e => ha p d (e ▸ rfl)
    rw [hd, Function.update_of_ne e]
  · have e : b ≠ b' := by
      rintro rfl
      rw [hi.pinned_valid b hp] at hv
      cases hv
    rw [hd, Function.update_of_ne e]

/-- **The buffer cache.** In every reachable state the links form one cycle through
`bcache.head` holding each buffer once, identities on a device other than `0` are unique,
`refcnt` counts holders, waiters and the log's pin, `bget` never retargets a referenced buffer,
and every block the log has not unpinned is carried by a valid, referenced buffer whose data
only a holder's write changes. -/
theorem bcache_invariant (hs : Reach.Reachable Init step (fun _ => True) s) :
    (∃ order, CircList.IsCycle none s.next s.prev order ∧ order.Perm allBufs) ∧
    (∀ b₁ b₂, s.dev b₁ ≠ 0 → s.dev b₁ = s.dev b₂ → s.blockno b₁ = s.blockno b₂ → b₁ = b₂) ∧
    (∀ b, s.refcnt b = holders s.held b + waiters s.phase b + s.pins b) ∧
    (∀ a t b, s.step a = some t → (t.dev b ≠ s.dev b ∨ t.blockno b ≠ s.blockno b) →
      s.refcnt b = 0) ∧
    (∀ k ∈ s.lh.drop s.tail, ∃ b, s.dev b = ROOTDEV ∧ s.blockno b = k ∧ s.valid b = true ∧
      1 ≤ s.refcnt b ∧
      ∀ a t, s.step a = some t → (∀ p d, a ≠ .write p b d) → t.data b = s.data b) := by
  have hi := inv_of_reachable hs
  refine ⟨hi.cycle, hi.unique, hi.refcnt, fun a t b h hb => refcnt_eq_zero_of_retarget h hb, ?_⟩
  intro k hk
  obtain ⟨b, hd, hbk⟩ := hi.logged_cached k hk
  have hp : s.Pinned b := ⟨hd, hbk ▸ hk⟩
  exact ⟨b, hd, hbk, hi.pinned_valid b hp, hi.refcnt_pos_of_pinned hp,
    fun a t h ha => hi.pinned_data hp h ha⟩

set_option maxRecDepth 8000 in
/-- Process `0` reads block `5` of `ROOTDEV` into the least recently used buffer, writes it and
logs it. -/
theorem bcache_invariant_logged :
    ∃ w, Reach.run step (binit 0 (fun _ _ => 0) : Bcache (Fin 1) ℕ)
        [.bget 0 ROOTDEV 5, .acquire 0, .write 0 0 7, .logWrite 0 0] = some w ∧
      ((∃ order, CircList.IsCycle none w.next w.prev order ∧ order.Perm allBufs) ∧
      (∀ b₁ b₂, w.dev b₁ ≠ 0 → w.dev b₁ = w.dev b₂ → w.blockno b₁ = w.blockno b₂ → b₁ = b₂) ∧
      (∀ b, w.refcnt b = holders w.held b + waiters w.phase b + w.pins b) ∧
      (∀ a t b, w.step a = some t → (t.dev b ≠ w.dev b ∨ t.blockno b ≠ w.blockno b) →
        w.refcnt b = 0) ∧
      (∀ k ∈ w.lh.drop w.tail, ∃ b, w.dev b = ROOTDEV ∧ w.blockno b = k ∧ w.valid b = true ∧
        1 ≤ w.refcnt b ∧
        ∀ a t, w.step a = some t → (∀ p d, a ≠ .write p b d) → t.data b = w.data b)) := by
  refine ⟨_, rfl, bcache_invariant (@Reach.Reachable.of_run _ _ Init step (fun _ => True)
    (binit 0 (fun _ _ => 0)) _ [.bget 0 ROOTDEV 5, .acquire 0, .write 0 0 7, .logWrite 0 0]
    ⟨0, fun _ _ => 0, rfl⟩ (fun _ _ => trivial) rfl)⟩

end Invariant

set_option maxRecDepth 8000 in
/-- **The log's contents are not the buffer's.** Process `0` reads block `5` into buffer `0`,
writes `7` and logs it, then writes `8`, as a second `writei` into the block does before its own
`log_write`: block `5` is still pinned, and its buffer holds `8` while the contents last passed
to `log_write` for it were `7`. -/
theorem bcache_logged_data_stale :
    ¬ ∀ s : Bcache (Fin 1) ℕ, Reach.Reachable Init step (fun _ => True) s →
      ∀ k ∈ s.lh.drop s.tail, ∃ b, s.dev b = ROOTDEV ∧ s.blockno b = k ∧ 1 ≤ s.refcnt b ∧
        s.logged k = some (s.data b) := by
  intro h
  obtain ⟨w, hrun, hlh, htail, hdata, hlog, hdev⟩ :
      ∃ w, Reach.run step (binit 0 (fun _ _ => 0) : Bcache (Fin 1) ℕ)
          [.bget 0 ROOTDEV 5, .acquire 0, .write 0 0 7, .logWrite 0 0, .write 0 0 8] = some w ∧
        w.lh = [5] ∧ w.tail = 0 ∧ w.data 0 = 8 ∧ w.logged 5 = some 7 ∧
        ∀ b, w.dev b = ROOTDEV → b = 0 :=
    ⟨_, rfl, by decide⟩
  obtain ⟨b, hb, -, -, hk⟩ :=
    h w (Reach.Reachable.of_run ⟨0, fun _ _ => 0, rfl⟩ (fun _ _ => trivial) hrun) 5
      (by simp [hlh, htail])
  obtain rfl := hdev b hb
  rw [hlog, hdata] at hk
  exact absurd hk (by decide)

end Bcache

end Xv6
