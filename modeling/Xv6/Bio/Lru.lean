import Xv6.Bio.Cache

/-!
# `bget` recycles the least recently released buffer

The order of `bcache`'s list is the only record of recency: `brelse` moves a buffer whose
`refcnt` drops to zero to the front, and `bget`'s second scan walks from `bcache.head.prev`,
the back. Nothing else relinks: a hit, a miss, `bpin` (`log_write`) and `bunpin` only change
counts and identities.

Recency is a function of the run: `runStamped` numbers the requests of a
run from `0` and stamps a buffer with `NBUF + k` at the `k`-th request when that request is a
`brelse` that drops its `refcnt` to zero. A buffer never so released keeps its index, since
`binit` pushed `bcache.buf[0]` first, so it sits at the back.

* `LruInv`: along the list, front to back, the stamps strictly decrease;
* `LruInv.victim`: so the victim of the backward scan is, among the unreferenced buffers, the one
  with the smallest stamp;
* `bget_recycles_lru`: after every run, a `bget` that misses retargets that buffer, and every
  request other than a `brelse` to zero leaves the links as they are.
-/

namespace Xv6

namespace Bcache

variable {P β : Type} [DecidableEq P]

/-- The stamps after the `k`-th request `a`, made in state `s`: `brelse(b)` that drops
`b->refcnt` to zero, and so moves `b` to the front, stamps it `NBUF + k`. -/
def restamp (s : Bcache P β) (k : ℕ) (stamp : Fin NBUF → ℕ) : BAct P β → Fin NBUF → ℕ
  | .brelse _ b => if s.refcnt b - 1 = 0 then Function.update stamp b (NBUF + k) else stamp
  | _ => stamp

/-- Run the requests from number `k` on, stamping the releases; `none` if one is not enabled. -/
def runStamped : Bcache P β → List (BAct P β) → ℕ → (Fin NBUF → ℕ) →
    Option (Bcache P β × (Fin NBUF → ℕ))
  | s, [], _, stamp => some (s, stamp)
  | s, a :: as, k, stamp => (s.step a).bind fun t => runStamped t as (k + 1) (restamp s k stamp a)

/-- A stamped run is a run. -/
theorem run_of_runStamped : ∀ {s t : Bcache P β} {as : List (BAct P β)} {k : ℕ}
    {stamp stamp' : Fin NBUF → ℕ}, runStamped s as k stamp = some (t, stamp') →
      Reach.run step s as = some t
  | _, _, [], _, _, _, h => by
    simp only [runStamped, Option.some.injEq, Prod.mk.injEq] at h
    rw [← h.1]
    rfl
  | s, _, a :: as, _, _, _, h => by
    simp only [runStamped, Option.bind_eq_some_iff] at h
    obtain ⟨u, hu, hrun⟩ := h
    simp only [Reach.run_cons, hu, Option.bind_some]
    exact run_of_runStamped hrun

/-- The stamp of a list node; the sentinel is never compared. -/
def nodeStamp (stamp : Fin NBUF → ℕ) : BNode → ℕ
  | some b => stamp b
  | none => 0

theorem nodeStamp_update_of_ne {stamp : Fin NBUF → ℕ} {b : Fin NBUF} {x : BNode} (v : ℕ)
    (hx : x ≠ some b) : nodeStamp (Function.update stamp b v) x = nodeStamp stamp x := by
  cases x with
  | none => rfl
  | some c => exact Function.update_of_ne (fun e => hx (congrArg some e)) _ _

/-! ### What a request does to the links -/

variable {s t : Bcache P β} {a : BAct P β} {stamp : Fin NBUF → ℕ} {k : ℕ}

/-- The links after moving `b` to the front: `brelse`'s unlink and push. -/
def moved (s : Bcache P β) (b : Fin NBUF) : (BNode → BNode) × (BNode → BNode) :=
  CircList.pushFront none (some b) (CircList.unlink (some b) s.next s.prev).1
    (CircList.unlink (some b) s.next s.prev).2

/-- **Only a release to zero relinks.** Every other request keeps the links and the stamps; a
`brelse` that drops `refcnt` to zero moves its buffer to the front and stamps it. -/
theorem step_links (h : s.step a = some t) (k : ℕ) (stamp : Fin NBUF → ℕ) :
    (t.next = s.next ∧ t.prev = s.prev ∧ restamp s k stamp a = stamp) ∨
    ∃ p b, a = .brelse p b ∧ s.refcnt b - 1 = 0 ∧ t.next = (s.moved b).1 ∧
      t.prev = (s.moved b).2 ∧ restamp s k stamp a = Function.update stamp b (NBUF + k) := by
  cases a with
  | bget p dev blockno =>
    rcases bget_eq_some (step_bget.mp h).2 with ⟨b, -, rfl⟩ | ⟨-, v, -, rfl⟩ <;>
      exact .inl ⟨rfl, rfl, rfl⟩
  | acquire p =>
    obtain ⟨b, -, -, rfl⟩ := step_acquire.mp h
    exact .inl ⟨by simp [acquire_eq], by simp [acquire_eq], rfl⟩
  | write p b d => obtain ⟨-, rfl⟩ := step_write.mp h; exact .inl ⟨rfl, rfl, rfl⟩
  | bwrite p b => obtain ⟨-, rfl⟩ := step_bwrite.mp h; exact .inl ⟨rfl, rfl, rfl⟩
  | brelse p b =>
    obtain ⟨-, rfl⟩ := step_brelse.mp h
    by_cases hz : s.refcnt b - 1 = 0
    · exact .inr ⟨p, b, rfl, hz, by simp [brelse_eq, hz, moved], by simp [brelse_eq, hz, moved],
        by simp [restamp, hz]⟩
    · exact .inl ⟨by simp [brelse_eq, hz], by simp [brelse_eq, hz], by simp [restamp, hz]⟩
  | logWrite p b =>
    obtain ⟨-, rfl⟩ := step_logWrite.mp h
    exact .inl ⟨by simp [logWrite_eq], by simp [logWrite_eq], rfl⟩
  | commit => obtain ⟨-, rfl⟩ := step_commit.mp h; exact .inl ⟨rfl, rfl, rfl⟩
  | bunpin p b => obtain ⟨-, rfl⟩ := step_bunpin.mp h; exact .inl ⟨rfl, rfl, rfl⟩
  | clear => obtain ⟨-, rfl⟩ := step_clear.mp h; exact .inl ⟨rfl, rfl, rfl⟩

/-! ### Recency along the list -/

/-- The invariant after `k` requests: the list runs through all the buffers with their stamps
strictly decreasing from the front, and every stamp is earlier than the next request's. -/
def LruInv (s : Bcache P β) (stamp : Fin NBUF → ℕ) (k : ℕ) : Prop :=
  ∃ order, CircList.IsCycle none s.next s.prev order ∧ order.Perm allBufs ∧
    order.Pairwise (fun x y => nodeStamp stamp y < nodeStamp stamp x) ∧ ∀ b, stamp b < NBUF + k

omit [DecidableEq P] in
/-- After `binit` the list is `buf[NBUF-1], ..., buf[0]`, each stamped with its index. -/
theorem lruInv_binit (d0 : β) (disk : UInt32 → UInt32 → β) :
    LruInv (binit d0 disk : Bcache P β) (fun b => b.val) 0 := by
  refine ⟨allBufs.reverse ++ [], isCycle_binitLinks, by simp, ?_, fun b => by simp [b.isLt]⟩
  rw [List.append_nil, List.pairwise_reverse, allBufs, List.pairwise_map]
  exact List.pairwise_lt_finRange NBUF

omit [DecidableEq P] in
/-- Moving `b` to the front with a stamp later than all others keeps the stamps decreasing. -/
theorem LruInv.brelse_zero (hi : LruInv s stamp k) (b : Fin NBUF) :
    ∃ order, CircList.IsCycle none (s.moved b).1 (s.moved b).2 order ∧ order.Perm allBufs ∧
      order.Pairwise (fun x y => nodeStamp (Function.update stamp b (NBUF + k)) y <
        nodeStamp (Function.update stamp b (NBUF + k)) x) := by
  obtain ⟨order, hc, hperm, hpw, hlt⟩ := hi
  obtain ⟨l₁, l₂, rfl⟩ := List.append_of_mem (hperm.mem_iff.mpr (mem_allBufs b))
  -- the other nodes are buffers other than `b`
  have hnd := List.nodup_cons.mp hc.1
  have hb : some b ∉ l₁ ++ l₂ := (List.nodup_cons.mp (List.nodup_middle.mp hnd.2)).1
  have hne : ∀ x ∈ l₁ ++ l₂, x ≠ some b := fun x hx e => hb (e ▸ hx)
  refine ⟨some b :: (l₁ ++ l₂), hc.of_unlink_pushFront, List.perm_middle.symm.trans hperm, ?_⟩
  refine List.pairwise_cons.mpr ⟨fun x hx => ?_, ?_⟩
  · -- the front is stamped after every other buffer
    rw [nodeStamp_update_of_ne _ (hne x hx)]
    cases x with
    | none =>
      have hmid : none ∈ l₁ ++ some b :: l₂ :=
        List.mem_append.mpr ((List.mem_append.mp hx).imp id (List.mem_cons_of_mem _))
      exact absurd hmid hnd.1
    | some c => simpa [nodeStamp] using hlt c
  · -- the rest keep their order and their stamps
    have hsub : (l₁ ++ l₂).Pairwise (fun x y => nodeStamp stamp y < nodeStamp stamp x) :=
      hpw.sublist ((List.sublist_cons_self _ l₂).append_left l₁)
    refine hsub.imp_of_mem fun {x y} hx hy hxy => ?_
    rw [nodeStamp_update_of_ne _ (hne x hx), nodeStamp_update_of_ne _ (hne y hy)]
    exact hxy

/-- **Step lemma.** Every request keeps the invariant, one request later. -/
theorem LruInv.step (hi : LruInv s stamp k) (h : s.step a = some t) :
    LruInv t (restamp s k stamp a) (k + 1) := by
  have hlt : ∀ b, stamp b < NBUF + k := by
    obtain ⟨-, -, -, -, hlt⟩ := hi
    exact hlt
  rcases step_links h k stamp with ⟨hn, hp, hst⟩ | ⟨p, b, -, -, hn, hp, hst⟩
  · obtain ⟨order, hc, hperm, hpw, -⟩ := hi
    rw [hst]
    refine ⟨order, ?_, hperm, hpw, fun b => Nat.lt_succ_of_lt (hlt b)⟩
    rw [hn, hp]
    exact hc
  · obtain ⟨order, hc, hperm, hpw⟩ := hi.brelse_zero b
    rw [hst]
    refine ⟨order, ?_, hperm, hpw, fun c => ?_⟩
    · rw [hn, hp]
      exact hc
    · by_cases hcb : c = b
      · subst hcb; simp
      · rw [Function.update_of_ne hcb]
        exact Nat.lt_succ_of_lt (hlt c)

/-- **Run lemma.** -/
theorem LruInv.runStamped : ∀ {s t : Bcache P β} {as : List (BAct P β)} {k : ℕ}
    {stamp stamp' : Fin NBUF → ℕ}, LruInv s stamp k → runStamped s as k stamp = some (t, stamp') →
      LruInv t stamp' (k + as.length)
  | _, _, [], _, _, _, hi, h => by
    simp only [Bcache.runStamped, Option.some.injEq, Prod.mk.injEq] at h
    obtain ⟨rfl, rfl⟩ := h
    exact hi
  | _, _, a :: as, k, _, _, hi, h => by
    simp only [Bcache.runStamped, Option.bind_eq_some_iff] at h
    obtain ⟨u, hu, hrun⟩ := h
    have := LruInv.runStamped (hi.step hu) hrun
    rw [List.length_cons, show k + (as.length + 1) = k + 1 + as.length by omega]
    exact this

omit [DecidableEq P] in
/-- **The victim is the least recently released unreferenced buffer.** The backward scan finds
the last unreferenced node of the list, and every unreferenced buffer before it was released
later. -/
theorem LruInv.victim (hi : LruInv s stamp k) {v : Fin NBUF} (hv : s.victim = some v) :
    s.refcnt v = 0 ∧ ∀ b, s.refcnt b = 0 → b ≠ v → stamp v < stamp b := by
  obtain ⟨order, hc, hperm, hpw, -⟩ := hi
  have hw := hc.walk_prev s.unused (show order.length < NBUF + 1 by rw [hperm.length_eq]; simp [allBufs])
  unfold Bcache.victim at hv
  rw [hw, Option.join_eq_some_iff, List.find?_eq_some_iff_append] at hv
  obtain ⟨hu, l₁, l₂, hrev, hskip⟩ := hv
  refine ⟨by simpa [unused] using hu, fun b hb hbv => ?_⟩
  -- `b` is not among the nodes the scan passed, so it lies before `v` in the list
  have horder : order = l₂.reverse ++ some v :: l₁.reverse := by
    rw [← List.reverse_reverse order, hrev]
    simp
  have hbmem : some b ∈ order := hperm.mem_iff.mpr (mem_allBufs b)
  rw [horder, List.mem_append, List.mem_cons, List.mem_reverse, List.mem_reverse] at hbmem
  rcases hbmem with hb₂ | hbv' | hb₁
  · rw [horder, List.pairwise_append] at hpw
    exact hpw.2.2 _ (List.mem_reverse.mpr hb₂) _ List.mem_cons_self
  · exact absurd (Option.some.inj hbv') hbv
  · have := hskip _ hb₁
    simp [unused, hb] at this

/-- **`bget` recycles the least recently released buffer.** After any run of requests from
`binit`, stamped as `runStamped` does, a `bget` that finds no cached copy of its block retargets
the buffer with `refcnt = 0` whose last release to zero is the oldest, never-released buffers
counting as older than all others and `bcache.buf[0]` the oldest of them; and every request other
than a `brelse` that drops a `refcnt` to zero, a hit, a miss and a pin among them, leaves the list
order as it was. -/
theorem bget_recycles_lru {d0 : β} {disk : UInt32 → UInt32 → β} {as : List (BAct P β)}
    {s : Bcache P β} {stamp : Fin NBUF → ℕ}
    (h : runStamped (binit d0 disk) as 0 (fun b => b.val) = some (s, stamp)) :
    (∀ p dev blockno t, s.lookup dev blockno = none → s.bget p dev blockno = some t →
      ∃ v, s.refcnt v = 0 ∧ (∀ b, s.refcnt b = 0 → b ≠ v → stamp v < stamp b) ∧
        t.dev = Function.update s.dev v dev ∧ t.blockno = Function.update s.blockno v blockno) ∧
    (∀ a t, s.step a = some t → (∀ p b, a = .brelse p b → s.refcnt b - 1 ≠ 0) →
      t.next = s.next ∧ t.prev = s.prev) := by
  have hi := (lruInv_binit d0 disk).runStamped h
  refine ⟨fun p dev blockno t hl hb => ?_, fun a t ha hrel => ?_⟩
  · rcases bget_eq_some hb with ⟨b, hb', -⟩ | ⟨-, v, hv, rfl⟩
    · rw [hl] at hb'
      cases hb'
    · obtain ⟨hv0, hold⟩ := hi.victim hv
      exact ⟨v, hv0, hold, rfl, rfl⟩
  · rcases step_links ha 0 stamp with ⟨hn, hp, -⟩ | ⟨p, b, rfl, hz, -⟩
    · exact ⟨hn, hp⟩
    · exact absurd hz (hrel p b rfl)

set_option maxRecDepth 20000 in
/-- The first miss after `binit` recycles `bcache.buf[0]`. -/
theorem bget_recycles_lru_binit :
    ∃ t : Bcache (Fin 1) ℕ, (binit 0 (fun _ _ => 0) : Bcache (Fin 1) ℕ).bget 0 0 1 = some t ∧
      t.blockno 0 = 1 := by
  obtain ⟨t, hb⟩ : ∃ t, (binit 0 (fun _ _ => 0) : Bcache (Fin 1) ℕ).bget 0 0 1 = some t :=
    Option.isSome_iff_exists.mp (by decide)
  obtain ⟨v, -, hold, -, hblk⟩ :=
    (bget_recycles_lru (show runStamped (binit 0 (fun _ _ => 0) : Bcache (Fin 1) ℕ) [] 0
      (fun b => b.val) = some (binit 0 (fun _ _ => 0), fun b => b.val) from rfl)).1 0 0 1 t
      (by decide) hb
  -- every buffer of `binit` is unreferenced and stamped with its index
  have hv : v = 0 := by
    by_contra hv
    have := hold 0 rfl (Ne.symm hv)
    simp at this
  exact ⟨t, hb, by rw [hblk, hv, Function.update_self]⟩

end Bcache

end Xv6
