import Xv6.Param
import Xv6.Lib.CircList
import Xv6.Lib.Reach
import Mathlib.Data.Fintype.Basic

/-!
# The buffer cache (`kernel/bio.c`) with the log's pins (`kernel/log.c`)

`bcache` holds `NBUF` buffers on a circular doubly-linked list through the sentinel
`bcache.head`, most recently released first. A list node is `some b` for `bcache.buf[b]` and
`none` for the sentinel; `next` and `prev` are the two pointer fields of every node. The
loops of `bget` are `CircList.walk` and the relinking of `brelse` is `CircList.unlink` followed
by `CircList.pushFront`, store for store as the code does them.

The system is the cache driven by any number of processes, as a transition system whose steps
are the bodies of `bget`, `brelse`, `bpin` and `bunpin`, each atomic under `bcache.lock`, and
the calls the file system and the log make on buffers they hold:

* `bget`: the scans under `bcache.lock`; the caller then waits in `acquiresleep(&b->lock)`;
* `acquire`: the sleep-lock is granted, and `bread` fills a buffer that is not `valid`;
* `write`, `bwrite`: the holder changes `b->data`, or writes it to disk;
* `brelse`: `releasesleep` and the body under `bcache.lock`, which the waiting processes
  cannot tell apart from one step: a waiter only runs once the lock is released;
* `logWrite`: `log_write(b)` by a holder: record `b->blockno` in `log.lh`, absorbing a block
  already there, and `bpin(b)` a new one;
* `commit`, `bunpin`, `clear`: `commit()` runs `install_trans(0)`, which unpins the logged
  blocks in order, each while holding its buffer, and then sets `log.lh.n = 0`.

Block contents are a type parameter `β`: the cache copies them and never looks inside.
-/

namespace Xv6

/-- A node of the buffer list: `some b` is `bcache.buf[b]`, `none` is `bcache.head`. -/
abbrev BNode := Option (Fin NBUF)

/-- Where a process is in a buffer-cache call. -/
inductive BPhase where
  /-- Running file-system code. -/
  | ready
  /-- `bget` returned `b` with `b->refcnt` counting the caller, which waits in
  `acquiresleep(&b->lock)`. -/
  | acquiring (b : Fin NBUF)
  deriving DecidableEq

/-- The buffer cache, the disk and the log header, with the processes using them. -/
structure Bcache (P β : Type) where
  valid : Fin NBUF → Bool
  dev : Fin NBUF → UInt32
  blockno : Fin NBUF → UInt32
  refcnt : Fin NBUF → ℕ
  data : Fin NBUF → β
  next : BNode → BNode
  prev : BNode → BNode
  /-- The holder of `b->lock`. -/
  owner : Fin NBUF → Option P
  phase : P → BPhase
  /-- The buffers a process holds locked, from `bread` to `brelse`. -/
  held : P → List (Fin NBUF)
  disk : UInt32 → UInt32 → β
  /-- `log.lh.block[0..log.lh.n)`. -/
  lh : List UInt32
  /-- `install_trans(0)` has unpinned `lh.block[0..tail)`. -/
  tail : ℕ
  /-- `commit()` is running. -/
  committing : Bool
  /-- Ghost: the contents of each block at its last `log_write`. -/
  logged : UInt32 → Option β

/-- Requests on the cache. -/
inductive BAct (P β : Type) where
  | bget (p : P) (dev blockno : UInt32)
  | acquire (p : P)
  | write (p : P) (b : Fin NBUF) (d : β)
  | bwrite (p : P) (b : Fin NBUF)
  | brelse (p : P) (b : Fin NBUF)
  | logWrite (p : P) (b : Fin NBUF)
  | commit
  | bunpin (p : P) (b : Fin NBUF)
  | clear

namespace Bcache

variable {P β : Type} [DecidableEq P]

/-- The list node of buffer `b` holds block `(dev, blockno)`: the hit test of `bget`. -/
def holds (s : Bcache P β) (dev blockno : UInt32) : BNode → Bool
  | some b => s.dev b == dev && s.blockno b == blockno
  | none => false

/-- The list node is a buffer nobody references: the recycling test of `bget`. -/
def unused (s : Bcache P β) : BNode → Bool
  | some b => s.refcnt b == 0
  | none => false

/-- `for(b = bcache.head.next; b != &bcache.head; b = b->next)`: the cached buffer for the
block, if any. -/
def lookup (s : Bcache P β) (dev blockno : UInt32) : BNode :=
  (CircList.walk s.next none (s.holds dev blockno) (NBUF + 1) (s.next none)).join

/-- `for(b = bcache.head.prev; b != &bcache.head; b = b->prev)`: the least recently released
unused buffer, if any. -/
def victim (s : Bcache P β) : BNode :=
  (CircList.walk s.prev none s.unused (NBUF + 1) (s.prev none)).join

/-- `bget(dev, blockno)` under `bcache.lock`: count the caller on a cached buffer, or recycle
the least recently released unused one; `panic("bget: no buffers")` if there is none. -/
def bget (s : Bcache P β) (p : P) (dev blockno : UInt32) : Option (Bcache P β) :=
  match s.lookup dev blockno with
  | some b =>
    some { s with refcnt := Function.update s.refcnt b (s.refcnt b + 1),
                  phase := Function.update s.phase p (.acquiring b) }
  | none =>
    match s.victim with
    | some b =>
      some { s with dev := Function.update s.dev b dev,
                    blockno := Function.update s.blockno b blockno,
                    valid := Function.update s.valid b false,
                    refcnt := Function.update s.refcnt b 1,
                    phase := Function.update s.phase p (.acquiring b) }
    | none => none

/-- `acquiresleep(&b->lock)` returns to `bread`, which reads the block from disk if the buffer
is not `valid`. -/
def acquire (s : Bcache P β) (p : P) (b : Fin NBUF) : Bcache P β :=
  let s₁ := { s with owner := Function.update s.owner b (some p),
                     held := Function.update s.held p (b :: s.held p),
                     phase := Function.update s.phase p .ready }
  if s.valid b then s₁
  else { s₁ with data := Function.update s.data b (s.disk (s.dev b) (s.blockno b)),
                 valid := Function.update s.valid b true }

/-- `acquire` as one record update: a buffer that was already `valid` keeps its data. -/
theorem acquire_eq (s : Bcache P β) (p : P) (b : Fin NBUF) :
    s.acquire p b =
      { s with owner := Function.update s.owner b (some p),
               held := Function.update s.held p (b :: s.held p),
               phase := Function.update s.phase p .ready,
               valid := Function.update s.valid b true,
               data := if s.valid b then s.data
                 else Function.update s.data b (s.disk (s.dev b) (s.blockno b)) } := by
  unfold acquire
  split_ifs with h
  · have hv : Function.update s.valid b true = s.valid := Function.update_eq_self_iff.mpr h.symm
    rw [hv]
  · rfl

/-- `brelse(b)`: release the sleep-lock; drop the reference and, at zero, move the buffer to
the front of the list. -/
def brelse (s : Bcache P β) (p : P) (b : Fin NBUF) : Bcache P β :=
  let s₁ := { s with owner := Function.update s.owner b none,
                     held := Function.update s.held p ((s.held p).erase b),
                     refcnt := Function.update s.refcnt b (s.refcnt b - 1) }
  if s.refcnt b - 1 = 0 then
    let links := CircList.unlink (some b) s.next s.prev
    let links := CircList.pushFront none (some b) links.1 links.2
    { s₁ with next := links.1, prev := links.2 }
  else s₁

/-- `brelse` as one record update. -/
theorem brelse_eq (s : Bcache P β) (p : P) (b : Fin NBUF) :
    s.brelse p b =
      { s with owner := Function.update s.owner b none,
               held := Function.update s.held p ((s.held p).erase b),
               refcnt := Function.update s.refcnt b (s.refcnt b - 1),
               next := if s.refcnt b - 1 = 0 then
                 (CircList.pushFront none (some b) (CircList.unlink (some b) s.next s.prev).1
                   (CircList.unlink (some b) s.next s.prev).2).1 else s.next,
               prev := if s.refcnt b - 1 = 0 then
                 (CircList.pushFront none (some b) (CircList.unlink (some b) s.next s.prev).1
                   (CircList.unlink (some b) s.next s.prev).2).2 else s.prev } := by
  unfold brelse
  split_ifs <;> rfl

/-- `log_write(b)`: absorb a block already in the log, else append it and `bpin(b)`. -/
def logWrite (s : Bcache P β) (b : Fin NBUF) : Bcache P β :=
  let s₁ := { s with logged := Function.update s.logged (s.blockno b) (some (s.data b)) }
  if s.blockno b ∈ s.lh then s₁
  else { s₁ with lh := s.lh ++ [s.blockno b],
                 refcnt := Function.update s.refcnt b (s.refcnt b + 1) }

omit [DecidableEq P] in
/-- `log_write` as one record update. -/
theorem logWrite_eq (s : Bcache P β) (b : Fin NBUF) :
    s.logWrite b =
      { s with logged := Function.update s.logged (s.blockno b) (some (s.data b)),
               lh := if s.blockno b ∈ s.lh then s.lh else s.lh ++ [s.blockno b],
               refcnt := if s.blockno b ∈ s.lh then s.refcnt
                 else Function.update s.refcnt b (s.refcnt b + 1) } := by
  unfold logWrite
  split_ifs <;> rfl

/-- `p` holds `b` and is not waiting: `holdingsleep(&b->lock)` in the caller. -/
def Holding (s : Bcache P β) (p : P) (b : Fin NBUF) : Prop :=
  s.phase p = .ready ∧ b ∈ s.held p

instance (s : Bcache P β) (p : P) (b : Fin NBUF) : Decidable (s.Holding p b) :=
  inferInstanceAs (Decidable (_ ∧ _))

/-- The transition system. `log_write` is only called inside a transaction, so never while
`commit()` runs, and only on blocks of the log's device `ROOTDEV`; `install_trans(0)` unpins
the buffer of `lh.block[tail]` while holding it. -/
def step (s : Bcache P β) : BAct P β → Option (Bcache P β)
  | .bget p dev blockno => if s.phase p = .ready then s.bget p dev blockno else none
  | .acquire p =>
    match s.phase p with
    | .acquiring b => if s.owner b = none then some (s.acquire p b) else none
    | .ready => none
  | .write p b d =>
    if s.Holding p b then some { s with data := Function.update s.data b d } else none
  | .bwrite p b =>
    if s.Holding p b then
      some { s with disk := Function.update s.disk (s.dev b)
                      (Function.update (s.disk (s.dev b)) (s.blockno b) (s.data b)) }
    else none
  | .brelse p b => if s.Holding p b then some (s.brelse p b) else none
  | .logWrite p b =>
    if s.Holding p b ∧ s.committing = false ∧ s.dev b = ROOTDEV ∧ s.lh.length < LOGSIZE then
      some (s.logWrite b)
    else none
  | .commit => if s.committing = false then some { s with committing := true, tail := 0 } else none
  | .bunpin p b =>
    if s.Holding p b ∧ s.committing = true ∧ s.dev b = ROOTDEV ∧ s.lh[s.tail]? = some (s.blockno b)
    then some { s with refcnt := Function.update s.refcnt b (s.refcnt b - 1), tail := s.tail + 1 }
    else none
  | .clear =>
    if s.committing = true ∧ s.tail = s.lh.length then
      some { s with lh := [], tail := 0, committing := false }
    else none

/-! ### What each request can do

One lemma per request, with its guard and its result; later proofs use these and never unfold
`step`. -/

variable {s t : Bcache P β} {p : P} {b : Fin NBUF}

theorem step_bget {dev blockno : UInt32} :
    s.step (.bget p dev blockno) = some t ↔ s.phase p = .ready ∧ s.bget p dev blockno = some t := by
  simp only [step]
  split_ifs with h <;> simp [h]

/-- `bget` either counts the caller on the cached buffer or recycles the victim. -/
theorem bget_eq_some {dev blockno : UInt32} (h : s.bget p dev blockno = some t) :
    (∃ b, s.lookup dev blockno = some b ∧
      t = { s with refcnt := Function.update s.refcnt b (s.refcnt b + 1),
                   phase := Function.update s.phase p (.acquiring b) }) ∨
    (s.lookup dev blockno = none ∧ ∃ v, s.victim = some v ∧
      t = { s with dev := Function.update s.dev v dev,
                   blockno := Function.update s.blockno v blockno,
                   valid := Function.update s.valid v false,
                   refcnt := Function.update s.refcnt v 1,
                   phase := Function.update s.phase p (.acquiring v) }) := by
  unfold bget at h
  split at h
  · next b hb => exact .inl ⟨b, hb, (Option.some.inj h).symm⟩
  · next hb =>
    split at h
    · next v hv => exact .inr ⟨hb, v, hv, (Option.some.inj h).symm⟩
    · cases h

theorem step_acquire :
    s.step (.acquire p) = some t ↔
      ∃ b, s.phase p = .acquiring b ∧ s.owner b = none ∧ t = s.acquire p b := by
  constructor
  · intro h
    simp only [step] at h
    split at h
    · next b hb =>
      split_ifs at h with ho
      exact ⟨b, hb, ho, (Option.some.inj h).symm⟩
    · cases h
  · rintro ⟨b, hb, ho, rfl⟩
    simp [step, hb, ho]

theorem step_write {d : β} :
    s.step (.write p b d) = some t ↔
      s.Holding p b ∧ t = { s with data := Function.update s.data b d } := by
  simp only [step]
  exact Option.ite_some_none_eq_some.trans (and_congr_right fun _ => eq_comm)

theorem step_bwrite :
    s.step (.bwrite p b) = some t ↔
      s.Holding p b ∧
        t = { s with disk := Function.update s.disk (s.dev b)
                        (Function.update (s.disk (s.dev b)) (s.blockno b) (s.data b)) } := by
  simp only [step]
  exact Option.ite_some_none_eq_some.trans (and_congr_right fun _ => eq_comm)

theorem step_brelse : s.step (.brelse p b) = some t ↔ s.Holding p b ∧ t = s.brelse p b := by
  simp only [step]
  exact Option.ite_some_none_eq_some.trans (and_congr_right fun _ => eq_comm)

theorem step_logWrite :
    s.step (.logWrite p b) = some t ↔
      (s.Holding p b ∧ s.committing = false ∧ s.dev b = ROOTDEV ∧ s.lh.length < LOGSIZE) ∧
        t = s.logWrite b := by
  simp only [step]
  exact Option.ite_some_none_eq_some.trans (and_congr_right fun _ => eq_comm)

theorem step_commit :
    s.step .commit = some t ↔ s.committing = false ∧ t = { s with committing := true, tail := 0 } := by
  simp only [step]
  exact Option.ite_some_none_eq_some.trans (and_congr_right fun _ => eq_comm)

theorem step_bunpin :
    s.step (.bunpin p b) = some t ↔
      (s.Holding p b ∧ s.committing = true ∧ s.dev b = ROOTDEV ∧
        s.lh[s.tail]? = some (s.blockno b)) ∧
      t = { s with refcnt := Function.update s.refcnt b (s.refcnt b - 1), tail := s.tail + 1 } := by
  simp only [step]
  exact Option.ite_some_none_eq_some.trans (and_congr_right fun _ => eq_comm)

theorem step_clear :
    s.step .clear = some t ↔
      (s.committing = true ∧ s.tail = s.lh.length) ∧
        t = { s with lh := [], tail := 0, committing := false } := by
  simp only [step]
  exact Option.ite_some_none_eq_some.trans (and_congr_right fun _ => eq_comm)

/-- The links `binit` builds: the sentinel linked to itself, then each buffer in turn pushed
after it. -/
def binitLinks : (BNode → BNode) × (BNode → BNode) :=
  CircList.pushAll none ((List.finRange NBUF).map some) (fun _ => none, fun _ => none)

/-- The cache after `binit`, over a disk: the buffers are zeroed (`d0` is a zero block), nobody
holds one, and the log header is empty, as `recover_from_log` leaves it. -/
def binit (d0 : β) (disk : UInt32 → UInt32 → β) : Bcache P β :=
  { valid := fun _ => false, dev := fun _ => 0, blockno := fun _ => 0, refcnt := fun _ => 0,
    data := fun _ => d0, next := binitLinks.1, prev := binitLinks.2, owner := fun _ => none,
    phase := fun _ => .ready, held := fun _ => [], disk := disk, lh := [], tail := 0,
    committing := false, logged := fun _ => none }

/-- The states `binit` can produce. -/
def Init (s : Bcache P β) : Prop := ∃ d0 disk, s = binit d0 disk

end Bcache

end Xv6
