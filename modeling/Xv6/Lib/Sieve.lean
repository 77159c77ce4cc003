import Mathlib.Data.Nat.Prime.Basic

/-!
# The trial-division sieve of a list

`sieve (p :: r) = p :: sieve [n ∈ r | n % p ≠ 0]`: the head survives, and the tail is sieved
after the multiples of the head are struck out of it. A chain of filters computes it one head at
a time: round `k` starts from `stage xs k`, the argument of the `k`-th recursive call, and its
output is the head of that list.

* `sieve_eq_heads_append`: the first `m` outputs are the heads of the first `m` stages.
* `prefix_sieve_of_heads` and `eq_sieve_of_heads`: a list whose entries are those heads is a
  prefix of the sieve, and all of it once the next stage is empty.
* `sieve_eq_filter_prime`: on a strictly increasing list of numbers `≥ 2` that holds every
  divisor `≥ 2` of its members, the sieve keeps exactly the primes.
* `sieve_range`: the sieve of `[2, …, N]` is the list of primes `≤ N`.

`sieve` runs on fuel, `xs.length` rounds, so that it is structurally recursive and evaluates by
`decide`; `sieve_cons` is its equation.
-/

namespace Sieve

/-- One round: strike the multiples of the head out of the tail. -/
def strike : List ℕ → List ℕ
  | [] => []
  | p :: r => r.filter (· % p ≠ 0)

/-- The list that round `k` starts from. -/
def stage (xs : List ℕ) : ℕ → List ℕ
  | 0 => xs
  | k + 1 => strike (stage xs k)

/-- The sieve with at most `fuel` rounds. -/
def sieveAux : ℕ → List ℕ → List ℕ
  | 0, _ => []
  | _ + 1, [] => []
  | fuel + 1, p :: r => p :: sieveAux fuel (r.filter (· % p ≠ 0))

/-- The sieve: `xs.length` rounds are enough, as each round shortens the list. -/
def sieve (xs : List ℕ) : List ℕ := sieveAux xs.length xs

@[simp] theorem stage_zero (xs : List ℕ) : stage xs 0 = xs := rfl

theorem stage_succ (xs : List ℕ) (k : ℕ) : stage xs (k + 1) = strike (stage xs k) := rfl

/-- Any fuel at least the length gives the same list. -/
theorem sieveAux_congr : ∀ {f g : ℕ} (xs : List ℕ), xs.length ≤ f → xs.length ≤ g →
    sieveAux f xs = sieveAux g xs
  | 0, 0, _, _, _ => rfl
  | 0, _ + 1, [], _, _ => rfl
  | _ + 1, 0, [], _, _ => rfl
  | _ + 1, _ + 1, [], _, _ => rfl
  | 0, _, _ :: _, hf, _ => by simp at hf
  | _, 0, _ :: _, _, hg => by simp at hg
  | f + 1, g + 1, p :: r, hf, hg => by
    have hlen : (r.filter (· % p ≠ 0)).length ≤ r.length := List.length_filter_le _ _
    simp only [List.length_cons, Nat.add_le_add_iff_right] at hf hg
    simp only [sieveAux]
    rw [sieveAux_congr _ (hlen.trans hf) (hlen.trans hg)]

@[simp] theorem sieve_nil : sieve [] = [] := rfl

/-- The equation of the sieve. -/
theorem sieve_cons (p : ℕ) (r : List ℕ) :
    sieve (p :: r) = p :: sieve (r.filter (· % p ≠ 0)) := by
  show p :: sieveAux r.length _ = _
  rw [sieveAux_congr _ (List.length_filter_le _ _) le_rfl]
  rfl

/-- The sieve of a nonempty stage is its head followed by the sieve of the next stage. -/
theorem sieve_stage {xs : List ℕ} {k p : ℕ} {r : List ℕ} (h : stage xs k = p :: r) :
    sieve (stage xs k) = p :: sieve (stage xs (k + 1)) := by
  rw [stage_succ, h, sieve_cons]
  rfl

/-- The first `m` outputs of the sieve are the heads of the first `m` stages. -/
theorem sieve_eq_heads_append (xs : List ℕ) :
    ∀ m, (∀ k < m, stage xs k ≠ []) →
      sieve xs = (List.range m).map (fun k => (stage xs k).headD 0) ++ sieve (stage xs m)
  | 0, _ => rfl
  | m + 1, h => by
    obtain ⟨p, r, hpr⟩ := List.exists_cons_of_ne_nil (h m (Nat.lt_succ_self m))
    rw [sieve_eq_heads_append xs m (fun k hk => h k (Nat.lt_succ_of_lt hk)), sieve_stage hpr,
      List.range_succ, List.map_append, List.map_singleton, hpr, List.headD_cons,
      List.append_assoc, List.singleton_append]

/-- A list of numbers that are the heads of the successive stages. -/
def Heads (xs l : List ℕ) : Prop := ∀ k (hk : k < l.length), (stage xs k).head? = some l[k]

theorem Heads.eq_map {xs l : List ℕ} (h : Heads xs l) :
    l = (List.range l.length).map (fun k => (stage xs k).headD 0) := by
  apply List.ext_getElem (by simp)
  intro k hk _
  simp [List.headD_eq_head?_getD, h k hk]

theorem Heads.stage_ne_nil {xs l : List ℕ} (h : Heads xs l) {k : ℕ} (hk : k < l.length) :
    stage xs k ≠ [] := by
  intro he
  simpa [he] using h k hk

/-- The heads of the first stages are a prefix of the sieve. -/
theorem prefix_sieve_of_heads {xs l : List ℕ} (h : Heads xs l) : l <+: sieve xs := by
  rw [sieve_eq_heads_append xs l.length (fun k hk => h.stage_ne_nil hk), ← h.eq_map]
  exact List.prefix_append _ _

/-- Once the next stage is empty, the heads are the whole sieve. -/
theorem eq_sieve_of_heads {xs l : List ℕ} (h : Heads xs l) (hend : stage xs l.length = []) :
    l = sieve xs := by
  rw [sieve_eq_heads_append xs l.length (fun k hk => h.stage_ne_nil hk), hend, sieve_nil,
    List.append_nil, ← h.eq_map]

/-- Every stage is a sublist of the input. -/
theorem stage_sublist (xs : List ℕ) : ∀ k, (stage xs k).Sublist xs
  | 0 => List.Sublist.refl xs
  | k + 1 => by
    rw [stage_succ]
    refine List.Sublist.trans ?_ (stage_sublist xs k)
    cases stage xs k with
    | nil => exact List.Sublist.refl []
    | cons p r => exact (List.filter_sublist).cons p

/-- A list that holds every divisor `≥ 2` of its members. -/
def DvdClosed (xs : List ℕ) : Prop := ∀ x ∈ xs, ∀ d, 2 ≤ d → d ∣ x → d ∈ xs

section Primes

variable {p : ℕ} {r : List ℕ}

/-- The head of a strictly increasing, divisor-closed list of numbers `≥ 2` is prime. -/
theorem prime_head (hs : (p :: r).Pairwise (· < ·)) (h2 : ∀ x ∈ p :: r, 2 ≤ x)
    (hd : DvdClosed (p :: r)) : p.Prime := by
  refine Nat.prime_def.mpr ⟨h2 p List.mem_cons_self, fun m hm => ?_⟩
  have hp : 0 < p := by have := h2 p List.mem_cons_self; omega
  rcases Nat.lt_or_ge m 2 with hm2 | hm2
  · obtain rfl | rfl : m = 0 ∨ m = 1 := by omega
    · rw [Nat.zero_dvd] at hm
      omega
    · exact Or.inl rfl
  · right
    have hle : m ≤ p := Nat.le_of_dvd hp hm
    rcases List.mem_cons.mp (hd p List.mem_cons_self m hm2 hm) with he | hr
    · exact he
    · have := List.rel_of_pairwise_cons hs hr
      omega

/-- Striking the multiples of the head keeps the tail divisor-closed. -/
theorem dvdClosed_strike (hd : DvdClosed (p :: r)) :
    DvdClosed (r.filter (· % p ≠ 0)) := by
  intro x hx d hd2 hdx
  simp only [List.mem_filter, decide_eq_true_eq] at hx ⊢
  have hpd : ¬ p ∣ d := fun hpd => hx.2 (Nat.mod_eq_zero_of_dvd (hpd.trans hdx))
  refine ⟨?_, fun h0 => hpd (Nat.dvd_of_mod_eq_zero h0)⟩
  rcases List.mem_cons.mp (hd x (List.mem_cons_of_mem p hx.1) d hd2 hdx) with he | hr
  · exact absurd (he ▸ dvd_refl p) hpd
  · exact hr

/-- No prime of the tail is a multiple of the head, so striking does not touch the primes. -/
theorem filter_prime_strike (hs : (p :: r).Pairwise (· < ·)) (h2 : ∀ x ∈ p :: r, 2 ≤ x) :
    (r.filter (· % p ≠ 0)).filter Nat.Prime = r.filter Nat.Prime := by
  rw [List.filter_filter]
  apply List.filter_congr
  intro x hx
  by_cases hx' : x.Prime
  · have hpx : p < x := List.rel_of_pairwise_cons hs hx
    have hp2 := h2 p List.mem_cons_self
    have hmod : x % p ≠ 0 := by
      intro h0
      rcases (Nat.dvd_prime hx').mp (Nat.dvd_of_mod_eq_zero h0) with h1 | h1 <;> omega
    simp [hx', hmod]
  · simp [hx']

end Primes

/-- **The sieve keeps the primes** of a strictly increasing, divisor-closed list of numbers
`≥ 2`. -/
theorem sieve_eq_filter_prime : ∀ (n : ℕ) (xs : List ℕ), xs.length ≤ n →
    xs.Pairwise (· < ·) → (∀ x ∈ xs, 2 ≤ x) → DvdClosed xs → sieve xs = xs.filter Nat.Prime
  | _, [], _, _, _, _ => rfl
  | 0, _ :: _, hn, _, _, _ => by simp at hn
  | n + 1, p :: r, hn, hs, h2, hd => by
    have hlen : (r.filter (· % p ≠ 0)).length ≤ n :=
      (List.length_filter_le _ _).trans (by simpa using hn)
    have ih := sieve_eq_filter_prime n _ hlen (hs.of_cons.sublist List.filter_sublist)
      (fun x hx => h2 x (List.mem_cons_of_mem p (List.mem_filter.mp hx).1))
      (dvdClosed_strike hd)
    rw [sieve_cons, ih, filter_prime_strike hs h2,
      List.filter_cons_of_pos (by simpa using prime_head hs h2 hd)]

/-- The numbers `2, …, N` hold every divisor `≥ 2` of their members. -/
theorem dvdClosed_range (N : ℕ) : DvdClosed (List.range' 2 (N - 1)) := by
  intro x hx d hd2 hdx
  simp only [List.mem_range'_1] at hx ⊢
  have := Nat.le_of_dvd (by omega) hdx
  omega

/-- **The sieve of `[2, …, N]` is the list of primes `≤ N`.** -/
theorem sieve_range (N : ℕ) :
    sieve (List.range' 2 (N - 1)) = (List.range (N + 1)).filter Nat.Prime := by
  rw [sieve_eq_filter_prime _ _ le_rfl List.pairwise_lt_range'
    (fun x hx => (List.mem_range'_1.mp hx).1) (dvdClosed_range N)]
  rcases N with _ | N
  · rfl
  · have hsplit : List.range (N + 1 + 1) = [0, 1] ++ List.range' 2 (N + 1 - 1) := by
      rw [List.range_eq_range', show N + 1 + 1 = 2 + (N + 1 - 1) by omega, ← List.range'_append]
      rfl
    rw [hsplit, List.filter_append]
    simp [Nat.not_prime_zero, Nat.not_prime_one]

example : sieve (List.range' 2 34) = [2, 3, 5, 7, 11, 13, 17, 19, 23, 29, 31] := by decide

end Sieve
