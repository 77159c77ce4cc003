import Mathlib.Data.List.Chain
import Mathlib.Data.List.Nodup
import Mathlib.Logic.Function.Basic

/-!
# Circular doubly-linked lists through a sentinel

The nodes of a list are the values of a type `ι`, linked by two pointer functions
`next prev : ι → ι`; a sentinel node `head` closes the cycle. `IsCycle head next prev order`
says that following `next` from `head` visits `order` and comes back, with `prev` the reverse
links, and that no node occurs twice.

The pointer operations are written as the sequences of stores a program makes, reading each
pointer at the moment the program does:

* `unlink b`: `b->next->prev = b->prev; b->prev->next = b->next;`
* `pushFront head b`: `b->next = head->next; b->prev = head; head->next->prev = b;
  head->next = b;`
* `walk link head test fuel x`: the loop `for(b = x; b != head; b = link(b)) if(test(b)) ...`.

`IsCycle.of_unlink` and `IsCycle.of_pushFront` say what the stores do to the order;
`IsCycle.walk_next` and `IsCycle.walk_prev` say that a loop from the sentinel's neighbour scans
the whole order, forwards or backwards, and finds its first match.
-/

namespace CircList

variable {ι : Type*}

/-- `x` links forward to `y`, and `y` back to `x`. -/
def Links (next prev : ι → ι) (x y : ι) : Prop := next x = y ∧ prev y = x

/-- `next` and `prev` thread `head`, then `order`, into one cycle back to `head`. -/
def IsCycle (head : ι) (next prev : ι → ι) (order : List ι) : Prop :=
  (head :: order).Nodup ∧ (head :: order ++ [head]).IsChain (Links next prev)

/-! ### Chains of links -/

/-- Links survive pointer stores that miss the nodes whose pointers they use. -/
theorem isChain_links_congr {next prev next' prev' : ι → ι} :
    ∀ {L : List ι}, L.IsChain (Links next prev) → (∀ x ∈ L.dropLast, next' x = next x) →
      (∀ y ∈ L.tail, prev' y = prev y) → L.IsChain (Links next' prev')
  | [], _, _, _ => .nil
  | [_], _, _, _ => .singleton _
  | x :: y :: L, h, hn, hp => by
    rw [List.isChain_cons_cons] at h ⊢
    obtain ⟨⟨hxy, hyx⟩, hrest⟩ := h
    refine ⟨⟨?_, ?_⟩, isChain_links_congr hrest ?_ ?_⟩
    · rw [hn x (by simp)]
      exact hxy
    · rw [hp y (by simp)]
      exact hyx
    · intro z hz
      exact hn z (by simp [hz])
    · intro z hz
      exact hp z (List.mem_of_mem_tail (by simpa using hz))

/-- Reversing a chain of links swaps the roles of `next` and `prev`. -/
theorem isChain_links_reverse {next prev : ι → ι} {L : List ι} :
    L.reverse.IsChain (Links prev next) ↔ L.IsChain (Links next prev) := by
  rw [List.isChain_reverse]
  exact List.IsChain.iff fun _ _ => And.comm

/-! ### The cycle -/

/-- The sentinel alone, linked to itself: the list `binit` starts from. -/
theorem isCycle_nil {head : ι} {next prev : ι → ι} (hn : next head = head)
    (hp : prev head = head) : IsCycle head next prev [] :=
  ⟨List.nodup_singleton _, by simpa [List.isChain_pair, Links] using ⟨hn, hp⟩⟩

/-- The order backwards is a cycle for the swapped pointers. -/
theorem IsCycle.reverse {head : ι} {next prev : ι → ι} {order : List ι}
    (h : IsCycle head next prev order) : IsCycle head prev next order.reverse := by
  obtain ⟨hnd, hc⟩ := h
  refine ⟨?_, ?_⟩
  · rw [List.nodup_cons] at hnd ⊢
    exact ⟨by simpa using hnd.1, List.nodup_reverse.mpr hnd.2⟩
  · have : head :: order.reverse ++ [head] = (head :: order ++ [head]).reverse := by simp
    rw [this, isChain_links_reverse]
    exact hc

/-- The node after the sentinel starts the order, or is the sentinel when the order is
empty. -/
theorem IsCycle.next_head {head : ι} {next prev : ι → ι} {order : List ι}
    (h : IsCycle head next prev order) :
    next head = (order ++ [head]).head (by simp) ∧ (order ++ [head]).IsChain (Links next prev) := by
  obtain ⟨-, hc⟩ := h
  obtain ⟨y, ys, hy⟩ : ∃ y ys, order ++ [head] = y :: ys := List.exists_cons_of_ne_nil (by simp)
  rw [List.cons_append, hy, List.isChain_cons_cons] at hc
  simp only [hy, List.head_cons]
  exact ⟨hc.1.1, hc.2⟩

variable [DecidableEq ι]

/-- Follow `link` from `x` until the sentinel, returning the first node that passes `test`. -/
def walk (link : ι → ι) (head : ι) (test : ι → Bool) : ℕ → ι → Option ι
  | 0, _ => none
  | fuel + 1, x =>
    if x = head then none else if test x then some x else walk link head test fuel (link x)

/-- `b->next->prev = b->prev; b->prev->next = b->next;` -/
def unlink (b : ι) (next prev : ι → ι) : (ι → ι) × (ι → ι) :=
  let prev₁ := Function.update prev (next b) (prev b)
  (Function.update next (prev₁ b) (next b), prev₁)

/-- `b->next = head->next; b->prev = head; head->next->prev = b; head->next = b;` -/
def pushFront (head b : ι) (next prev : ι → ι) : (ι → ι) × (ι → ι) :=
  let next₁ := Function.update next b (next head)
  let prev₁ := Function.update prev b head
  (Function.update next₁ head b, Function.update prev₁ (next₁ head) b)

/-- **Pushing to the front.** Storing a fresh node after the sentinel puts it first. -/
theorem IsCycle.of_pushFront {head b : ι} {next prev : ι → ι} {order : List ι}
    (h : IsCycle head next prev order) (hb : b ∉ head :: order) :
    IsCycle head (CircList.pushFront head b next prev).1 (CircList.pushFront head b next prev).2 (b :: order) := by
  obtain ⟨hnd, hc⟩ := h
  have hbh : b ≠ head := fun e => hb (by simp [e])
  have hho : head ∉ order := (List.nodup_cons.mp hnd).1
  have hbo : b ∉ order := fun h => hb (List.mem_cons_of_mem _ h)
  obtain ⟨f, r, hfr⟩ : ∃ f r, order ++ [head] = f :: r := List.exists_cons_of_ne_nil (by simp)
  have hfb : f ≠ b := by
    intro e
    have : b ∈ order ++ [head] := by rw [hfr, e]; exact List.mem_cons_self
    rcases List.mem_append.mp this with h | h
    · exact hbo h
    · exact hbh (List.mem_singleton.mp h)
  rw [List.cons_append, hfr, List.isChain_cons_cons] at hc
  obtain ⟨⟨hf, -⟩, hrest⟩ := hc
  -- what the four stores leave in the pointers
  have hn_head : (CircList.pushFront head b next prev).1 head = b := Function.update_self ..
  have hn_b : (CircList.pushFront head b next prev).1 b = f := by
    simp only [CircList.pushFront]
    rw [Function.update_of_ne hbh, Function.update_self, hf]
  have hn_other : ∀ x, x ≠ head → x ≠ b → (CircList.pushFront head b next prev).1 x = next x := by
    intro x hxh hxb
    simp only [CircList.pushFront]
    rw [Function.update_of_ne hxh, Function.update_of_ne hxb]
  have hnext₁ : (Function.update next b (next head)) head = f := by
    rw [Function.update_of_ne (Ne.symm hbh), hf]
  have hp_f : (CircList.pushFront head b next prev).2 f = b := by
    simp only [CircList.pushFront]
    rw [hnext₁, Function.update_self]
  have hp_b : (CircList.pushFront head b next prev).2 b = head := by
    simp only [CircList.pushFront]
    rw [hnext₁, Function.update_of_ne (Ne.symm hfb), Function.update_self]
  have hp_other : ∀ y, y ≠ f → y ≠ b → (CircList.pushFront head b next prev).2 y = prev y := by
    intro y hyf hyb
    simp only [CircList.pushFront]
    rw [hnext₁, Function.update_of_ne hyf, Function.update_of_ne hyb]
  refine ⟨List.nodup_cons.mpr ⟨?_, List.nodup_cons.mpr ⟨hbo, (List.nodup_cons.mp hnd).2⟩⟩, ?_⟩
  · simp only [List.mem_cons, not_or]
    exact ⟨Ne.symm hbh, hho⟩
  rw [List.cons_append, List.cons_append, hfr, List.isChain_cons_cons, List.isChain_cons_cons]
  refine ⟨⟨hn_head, hp_b⟩, ⟨hn_b, hp_f⟩, ?_⟩
  -- the rest of the cycle keeps its links: its nodes are neither the sentinel nor `b`
  have hnd' : (f :: r).Nodup := by
    rw [← hfr]
    exact (List.nodup_cons.mp hnd).2.append (List.nodup_singleton _) (by simpa using hho)
  apply isChain_links_congr hrest
  · intro x hx
    rw [← hfr, List.dropLast_concat] at hx
    exact hn_other x (fun e => hho (e ▸ hx)) (fun e => hbo (e ▸ hx))
  · intro y hy
    have hyf : y ≠ f := fun e => (List.nodup_cons.mp hnd').1 (e ▸ hy)
    have hyb : y ≠ b := by
      intro e
      have : b ∈ order ++ [head] := by rw [hfr, ← e]; exact List.mem_cons_of_mem _ hy
      rcases List.mem_append.mp this with h | h
      · exact hbo h
      · exact hbh (List.mem_singleton.mp h)
    exact hp_other y hyf hyb

/-- **Unlinking.** The two stores of an unlink take `b` out of the order and leave the rest
linked. -/
theorem IsCycle.of_unlink {head b : ι} {next prev : ι → ι} {l₁ l₂ : List ι}
    (h : IsCycle head next prev (l₁ ++ b :: l₂)) :
    IsCycle head (CircList.unlink b next prev).1 (CircList.unlink b next prev).2 (l₁ ++ l₂) := by
  obtain ⟨hnd, hc⟩ := h
  -- `b`'s neighbours: `a` ends `head :: l₁ = ys ++ [a]`, `c` starts `l₂ ++ [head] = c :: zs`
  obtain ⟨ys, a, hya⟩ : ∃ ys a, head :: l₁ = ys ++ [a] :=
    ⟨_, _, (List.dropLast_append_getLast (List.cons_ne_nil head l₁)).symm⟩
  obtain ⟨c, zs, hcz⟩ : ∃ c zs, l₂ ++ [head] = c :: zs := List.exists_cons_of_ne_nil (by simp)
  -- what no-duplicates gives about the pieces
  have hnd₁ : (head :: l₁ ++ b :: l₂).Nodup := by simpa using hnd
  have hAB : ∀ x ∈ head :: l₁, ∀ y ∈ b :: l₂, x ≠ y := (List.nodup_append.mp hnd₁).2.2
  have hh₁ : head ∉ l₁ := fun hm => (List.nodup_cons.mp hnd).1 (List.mem_append_left _ hm)
  have hh₂ : head ∉ l₂ := fun hm => hAB head (by simp) head (by simp [hm]) rfl
  have hb₂ : b ∉ l₂ := (List.nodup_cons.mp (List.nodup_append.mp hnd₁).2.1).1
  have hnd₂ : (c :: zs).Nodup := by
    rw [← hcz]
    exact (List.nodup_cons.mp (List.nodup_append.mp hnd₁).2.1).2.append (List.nodup_singleton _)
      (by simpa using hh₂)
  have hnda : (ys ++ [a]).Nodup := by
    rw [← hya]
    exact (List.nodup_append.mp hnd₁).1
  have hcA : ∀ x ∈ l₁, x ≠ c := by
    intro x hx e
    have hc' : c ∈ l₂ ++ [head] := by rw [hcz]; exact List.mem_cons_self
    rcases List.mem_append.mp hc' with hc' | hc'
    · exact hAB x (by simp [hx]) c (by simp [hc']) e
    · rw [List.mem_singleton.mp hc'] at e
      exact hh₁ (e ▸ hx)
  have hbc : b ≠ c := by
    intro e
    have hc' : c ∈ l₂ ++ [head] := by rw [hcz]; exact List.mem_cons_self
    rcases List.mem_append.mp hc' with hc' | hc'
    · exact hb₂ (e ▸ hc')
    · exact hAB head (by simp) b (by simp) (by rw [e, List.mem_singleton.mp hc'])
  -- the old cycle around `b`
  have hsplit : head :: (l₁ ++ b :: l₂) ++ [head] = ys ++ a :: b :: c :: zs := by
    rw [← List.cons_append, hya]
    simp only [List.append_assoc, List.cons_append, hcz, List.nil_append]
  rw [hsplit, List.isChain_append_cons_cons, List.isChain_cons_cons] at hc
  obtain ⟨hleft, ⟨hab, hba⟩, ⟨hbc', hcb⟩, hright⟩ := hc
  -- the two stores
  have hprev₁ : Function.update prev c a b = a := by
    rw [Function.update_of_ne hbc, hba]
  simp only [CircList.unlink, hbc', hba, hprev₁]
  refine ⟨List.Nodup.sublist (by simp) hnd, ?_⟩
  have hsplit' : head :: (l₁ ++ l₂) ++ [head] = ys ++ a :: c :: zs := by
    rw [← List.cons_append, List.append_assoc, hya]
    simp only [List.append_assoc, List.cons_append, hcz, List.nil_append]
  rw [hsplit', List.isChain_append_cons_cons]
  refine ⟨?_, ⟨Function.update_self .., Function.update_self ..⟩, ?_⟩
  · -- `head :: l₁` keeps its links: `a` is its last node and `c` lies outside it
    apply isChain_links_congr hleft
    · intro x hx
      rw [List.dropLast_concat] at hx
      exact Function.update_of_ne (fun e => (List.nodup_append.mp hnda).2.2 x hx a (by simp) e) _ _
    · intro y hy
      rw [← hya, List.tail_cons] at hy
      exact Function.update_of_ne (hcA y hy) _ _
  · -- so does `l₂ ++ [head]`: `c` is its first node and `a` lies outside it
    apply isChain_links_congr hright
    · intro x hx
      have hx₂ : x ∈ l₂ := by
        rw [← hcz, List.dropLast_concat] at hx
        exact hx
      have hxa : x ≠ a := fun e =>
        hAB a (by rw [hya]; simp) x (by simp [hx₂]) e.symm
      exact Function.update_of_ne hxa _ _
    · intro y hy
      have hyc : y ≠ c := by
        rintro rfl
        exact (List.nodup_cons.mp hnd₂).1 hy
      exact Function.update_of_ne hyc _ _

/-- Push each node of `l` in turn after the sentinel. -/
def pushAll (head : ι) (l : List ι) (links : (ι → ι) × (ι → ι)) : (ι → ι) × (ι → ι) :=
  l.foldl (fun links b => pushFront head b links.1 links.2) links

/-- **Building a list.** Pushing fresh nodes one after another puts them in front, last pushed
first. -/
theorem IsCycle.of_pushAll {head : ι} :
    ∀ {l : List ι} {next prev : ι → ι} {order : List ι}, IsCycle head next prev order →
      l.Nodup → (∀ x ∈ l, x ∉ head :: order) →
        IsCycle head (pushAll head l (next, prev)).1 (pushAll head l (next, prev)).2
          (l.reverse ++ order)
  | [], _, _, _, h, _, _ => h
  | b :: l, next, prev, order, h, hnd, hfresh => by
    obtain ⟨hbl, hl⟩ := List.nodup_cons.mp hnd
    -- after `b`, the rest is fresh for the longer order `b :: order`
    have ih := (h.of_pushFront (hfresh b List.mem_cons_self)).of_pushAll hl (by
      intro x hx
      simp only [List.mem_cons, not_or]
      have hx' := hfresh x (List.mem_cons_of_mem _ hx)
      simp only [List.mem_cons, not_or] at hx'
      exact ⟨hx'.1, fun e => hbl (e ▸ hx), hx'.2⟩)
    simpa [pushAll] using ih

/-- **Moving to the front.** Unlinking a node of the order and pushing it back after the
sentinel moves it to the front. -/
theorem IsCycle.of_unlink_pushFront {head b : ι} {next prev : ι → ι} {l₁ l₂ : List ι}
    (h : IsCycle head next prev (l₁ ++ b :: l₂)) :
    IsCycle head
      (pushFront head b (unlink b next prev).1 (unlink b next prev).2).1
      (pushFront head b (unlink b next prev).1 (unlink b next prev).2).2 (b :: (l₁ ++ l₂)) := by
  obtain ⟨hhead, hnd⟩ := List.nodup_cons.mp h.1
  apply h.of_unlink.of_pushFront
  simp only [List.mem_cons, not_or]
  refine ⟨fun e => hhead (e ▸ List.mem_append_right _ List.mem_cons_self), ?_⟩
  exact (List.nodup_cons.mp (List.nodup_middle.mp hnd)).1

/-! ### Scanning -/

/-- What the loop returns passes the test. -/
theorem walk_test {link : ι → ι} {head : ι} {test : ι → Bool} :
    ∀ {fuel : ℕ} {x y : ι}, walk link head test fuel x = some y → test y = true
  | 0, _, _, h => by simp [walk] at h
  | fuel + 1, x, y, h => by
    simp only [walk] at h
    split_ifs at h with hx ht
    · obtain rfl := Option.some.inj h
      exact ht
    · exact walk_test h

/-- Along a chain of links ending at the sentinel, the loop meets the nodes in turn. -/
theorem walk_chain (test : ι → Bool) {next prev : ι → ι} {head : ι} :
    ∀ {l : List ι} {fuel : ℕ}, l.length < fuel → head ∉ l →
      (l ++ [head]).IsChain (Links next prev) →
        walk next head test fuel ((l ++ [head]).head (by simp)) = l.find? test
  | [], fuel + 1, _, _, _ => by simp [walk]
  | x :: l, fuel + 1, hlen, hx, hc => by
    have hxh : x ≠ head := fun e => hx (by simp [e])
    obtain ⟨y, ys, hy⟩ : ∃ y ys, l ++ [head] = y :: ys := List.exists_cons_of_ne_nil (by simp)
    rw [List.cons_append, hy, List.isChain_cons_cons] at hc
    obtain ⟨⟨hxy, -⟩, hrest⟩ := hc
    simp only [List.cons_append, List.head_cons, walk, hxh, ↓reduceIte, List.find?_cons]
    by_cases ht : test x = true
    · simp [ht]
    · -- the loop moves on to `next x`, the first node of the rest
      have ih : walk next head test fuel ((l ++ [head]).head (by simp)) = l.find? test :=
        walk_chain test (by simp at hlen; omega) (fun h => hx (List.mem_cons_of_mem _ h))
          (hy ▸ hrest)
      simp only [hy, List.head_cons] at ih
      simp only [ht, Bool.false_eq_true, ↓reduceIte, hxy, ih]

/-- **Forward scan.** The loop `for(b = head->next; b != head; b = b->next)` finds the first
match of the order. -/
theorem IsCycle.walk_next {head : ι} {next prev : ι → ι} {order : List ι}
    (h : IsCycle head next prev order) (test : ι → Bool) {fuel : ℕ} (hf : order.length < fuel) :
    walk next head test fuel (next head) = order.find? test := by
  obtain ⟨hn, hc⟩ := h.next_head
  rw [hn]
  exact walk_chain test hf (List.nodup_cons.mp h.1).1 hc

/-- **Backward scan.** The loop `for(b = head->prev; b != head; b = b->prev)` finds the last
match of the order. -/
theorem IsCycle.walk_prev {head : ι} {next prev : ι → ι} {order : List ι}
    (h : IsCycle head next prev order) (test : ι → Bool) {fuel : ℕ} (hf : order.length < fuel) :
    walk prev head test fuel (prev head) = order.reverse.find? test :=
  h.reverse.walk_next test (by simpa using hf)

end CircList
