import Xv6.User.Grep.Match
import Xv6.Memmove

/-!
# grep's line buffer (`grep` in `user/grep.c`)

`grep` reads into `char buf[1024]` after the `m` bytes it carries over, at most
`sizeof(buf) - m - 1` of them, puts a NUL after them, and hands every line that ends in the
buffer to `match`, with its `'\n'` turned into a NUL for the call; a matching line is written
with its `'\n'` put back. The bytes after the last `'\n'` are moved to the front with `memmove`
and carried into the next read. Memory is a map from addresses to bytes with `buf` at `0`.

`read` is the environment: its `k`-th call returns `min (chunk k) (min requested remaining)`
bytes of the input. With `1 ≤ chunk k` for every `k` these are exactly the results between `1`
and the requested count of the remaining bytes, then `0` at the end.

* `splitNl`: a byte string as its `'\n'`-terminated lines and the bytes after the last `'\n'`,
  which `splitNl_eq` shows unique and `splitNl_append` cuts at any point;
* `innerLoop_spec`: one pass of the `strchr` loop writes the matching lines among those that end
  in the buffer and stops after the last `'\n'`, leaving the bytes behind it alone;
* `grep_matching_lines`: whatever the chunks, `grep` writes exactly the matching lines of its
  input, each with its `'\n'`, in order, if every line with its `'\n'` fits in 1023 bytes.
-/

namespace Xv6.Grep

open Store

/-! ### Lines -/

/-- A byte other than `'\n'` in front of a split string: it starts the first line, or the tail
when there is no line. -/
def consByte (x : UInt8) : List (List UInt8) × List UInt8 → List (List UInt8) × List UInt8
  | ([], r) => ([], x :: r)
  | (l :: ls, r) => ((x :: l) :: ls, r)

/-- The `'\n'`-terminated lines of a byte string, without their `'\n'`, and the bytes after the
last `'\n'`. -/
def splitNl : List UInt8 → List (List UInt8) × List UInt8
  | [] => ([], [])
  | x :: s => if x = 10 then ([] :: (splitNl s).1, (splitNl s).2) else consByte x (splitNl s)

/-- Lines put back together, each with its `'\n'`. -/
def joinNl (ls : List (List UInt8)) : List UInt8 := ls.flatMap (· ++ [10])

@[simp] theorem joinNl_nil : joinNl [] = [] := rfl

@[simp] theorem joinNl_cons (l : List UInt8) (ls : List (List UInt8)) :
    joinNl (l :: ls) = l ++ 10 :: joinNl ls := by
  simp [joinNl]

theorem joinNl_append (ls ls' : List (List UInt8)) : joinNl (ls ++ ls') = joinNl ls ++ joinNl ls' := by
  simp [joinNl]

theorem consByte_join (x : UInt8) :
    ∀ p : List (List UInt8) × List UInt8, joinNl (consByte x p).1 ++ (consByte x p).2 =
      x :: (joinNl p.1 ++ p.2)
  | ([], _) => rfl
  | (l :: ls, r) => by simp [consByte]

theorem consByte_lines {x : UInt8} (hx : x ≠ 10) :
    ∀ {p : List (List UInt8) × List UInt8}, (∀ l ∈ p.1, 10 ∉ l) → ∀ l ∈ (consByte x p).1, 10 ∉ l
  | ([], _), _, _, hl => absurd hl List.not_mem_nil
  | (l :: ls, r), h, l', hl' => by
    rcases List.mem_cons.mp hl' with rfl | hl'
    · simpa [Ne.symm hx] using h l List.mem_cons_self
    · exact h l' (List.mem_cons_of_mem _ hl')

theorem consByte_tail {x : UInt8} (hx : x ≠ 10) :
    ∀ {p : List (List UInt8) × List UInt8}, 10 ∉ p.2 → 10 ∉ (consByte x p).2
  | ([], r), h => by simpa [consByte, Ne.symm hx] using h
  | (_ :: _, _), h => h

theorem splitNl_of_not_mem : ∀ {r : List UInt8}, 10 ∉ r → splitNl r = ([], r)
  | [], _ => rfl
  | x :: r, h => by
    have hx : x ≠ 10 := fun e => h (e ▸ List.mem_cons_self)
    simp only [splitNl, if_neg hx, splitNl_of_not_mem (fun h' => h (List.mem_cons_of_mem _ h'))]
    rfl

/-- A line and its `'\n'` come off the front. -/
theorem splitNl_line : ∀ {l : List UInt8} (t : List UInt8), 10 ∉ l →
    splitNl (l ++ 10 :: t) = (l :: (splitNl t).1, (splitNl t).2)
  | [], t, _ => by simp [splitNl]
  | x :: l, t, h => by
    have hx : x ≠ 10 := fun e => h (e ▸ List.mem_cons_self)
    simp only [List.cons_append, splitNl, if_neg hx,
      splitNl_line t (fun h' => h (List.mem_cons_of_mem _ h'))]
    rfl

/-- **The lines are unique.** A string of lines without `'\n'`, each with its `'\n'`, followed
by bytes without `'\n'`, splits back into them. -/
theorem splitNl_eq : ∀ {ls : List (List UInt8)} {r : List UInt8}, (∀ l ∈ ls, 10 ∉ l) → 10 ∉ r →
    splitNl (joinNl ls ++ r) = (ls, r)
  | [], _, _, hr => by simpa using splitNl_of_not_mem hr
  | l :: ls, r, hls, hr => by
    rw [joinNl_cons, List.append_assoc, List.cons_append,
      splitNl_line _ (hls l List.mem_cons_self),
      splitNl_eq (fun l' hl' => hls l' (List.mem_cons_of_mem _ hl')) hr]

/-- Every string is its lines and its tail, none with a `'\n'`. -/
theorem splitNl_spec : ∀ s : List UInt8,
    s = joinNl (splitNl s).1 ++ (splitNl s).2 ∧ (∀ l ∈ (splitNl s).1, 10 ∉ l) ∧ 10 ∉ (splitNl s).2
  | [] => by simp [splitNl]
  | x :: s => by
    obtain ⟨he, hls, hr⟩ := splitNl_spec s
    by_cases hx : x = 10
    · subst hx
      simp only [splitNl, if_true, joinNl_cons, List.nil_append, List.cons_append]
      refine ⟨by rw [← he], fun l hl => ?_, hr⟩
      rcases List.mem_cons.mp hl with rfl | hl
      · simp
      · exact hls l hl
    · simp only [splitNl, if_neg hx]
      exact ⟨by rw [consByte_join, ← he], consByte_lines hx hls, consByte_tail hx hr⟩

/-- **Cutting the input.** The lines of `a ++ b` are those of `a`, then those of the tail of `a`
followed by `b`. -/
theorem splitNl_append (a b : List UInt8) :
    splitNl (a ++ b) = ((splitNl a).1 ++ (splitNl ((splitNl a).2 ++ b)).1,
      (splitNl ((splitNl a).2 ++ b)).2) := by
  obtain ⟨ha, hla, -⟩ := splitNl_spec a
  obtain ⟨hb, hlb, hrb⟩ := splitNl_spec ((splitNl a).2 ++ b)
  have hab : a ++ b = joinNl ((splitNl a).1 ++ (splitNl ((splitNl a).2 ++ b)).1) ++
      (splitNl ((splitNl a).2 ++ b)).2 := by
    rw [joinNl_append, List.append_assoc, ← hb, ← List.append_assoc, ← ha]
  rw [hab, splitNl_eq _ hrb]
  intro l hl
  rcases List.mem_append.mp hl with hl | hl
  · exact hla l hl
  · exact hlb l hl

/-- The first `'\n'` of a string that has one. -/
theorem exists_first_nl : ∀ {s : List UInt8}, 10 ∈ s → ∃ l t, s = l ++ 10 :: t ∧ 10 ∉ l
  | x :: s, h => by
    by_cases hx : x = 10
    · exact ⟨[], s, by rw [hx]; rfl, List.not_mem_nil⟩
    · obtain ⟨l, t, rfl, hl⟩ := exists_first_nl ((List.mem_cons.mp h).resolve_left (Ne.symm hx))
      exact ⟨x :: l, t, rfl, by simp [Ne.symm hx, hl]⟩

/-! ### The loops of `grep` -/

/-- `strchr(s, c)` in `buf`, `fuel` bounding the scan: `for(; *s; s++) if(*s == c) return s;
return 0;`. -/
def strchr (mem : ℕ → UInt8) (c : UInt8) : (fuel s : ℕ) → Option ℕ
  | 0, _ => none
  | fuel + 1, s => if mem s = 0 then none else if mem s = c then some s else strchr mem c fuel (s + 1)

/-- The C string at `s` that `match` reads, up to its NUL. -/
def cstrAt (mem : ℕ → UInt8) : (fuel s : ℕ) → List UInt8
  | 0, _ => []
  | fuel + 1, s => if mem s = 0 then [] else mem s :: cstrAt mem fuel (s + 1)

/-- `while((q = strchr(p, '\n')) != 0) { *q = 0; if(match(pattern, p)) { *q = '\n';
write(1, p, q+1 - p); } p = q+1; }`: the buffer afterwards, the final `p` and the bytes written. -/
def innerLoop (pattern : List UInt8) : (fuel : ℕ) → (ℕ → UInt8) → ℕ → (ℕ → UInt8) × ℕ × List UInt8
  | 0, mem, p => (mem, p, [])
  | fuel + 1, mem, p =>
    match strchr mem 10 1024 p with
    | none => (mem, p, [])
    | some q =>
      let mem₁ := Function.update mem q 0
      if matchRe pattern (cstrAt mem₁ 1024 p) then
        let mem₂ := Function.update mem₁ q 10
        let r := innerLoop pattern fuel mem₂ (q + 1)
        (r.1, r.2.1, slice mem₂ p (q + 1 - p) ++ r.2.2)
      else innerLoop pattern fuel mem₁ (q + 1)

/-- The outer loop `while((n = read(fd, buf+m, sizeof(buf)-m-1)) > 0) { ... }` from its `k`-th
read with `m` bytes carried over: the bytes it writes, `none` if `fuel` runs out first. -/
def grepLoop (pattern : List UInt8) (chunk : ℕ → ℕ) :
    (fuel k : ℕ) → (ℕ → UInt8) → ℕ → List UInt8 → Option (List UInt8)
  | 0, _, _, _, _ => none
  | fuel + 1, k, mem, m, input =>
    let n := min (chunk k) (min (1024 - m - 1) input.length)
    if n = 0 then some []
    else
      -- `m += n; buf[m] = '\0';`
      let m₁ := m + n
      let mem₁ := Function.update (store id mem m (input.take n)) m₁ 0
      let r := innerLoop pattern 1024 mem₁ 0
      -- `if(m > 0){ m -= p - buf; memmove(buf, p, m); }`
      let mem₂ := if m₁ > 0 then Ulib.memmove r.1 0 r.2.1 (Int32.ofNat (m₁ - r.2.1)) else r.1
      let m₂ := if m₁ > 0 then m₁ - r.2.1 else m₁
      (grepLoop pattern chunk fuel (k + 1) mem₂ m₂ (input.drop n)).map (r.2.2 ++ ·)

/-- `grep(pattern, fd)` on an input stream, from `m = 0`; one read per byte is enough. -/
def grep (pattern : List UInt8) (chunk : ℕ → ℕ) (mem : ℕ → UInt8) (input : List UInt8) :
    Option (List UInt8) :=
  grepLoop pattern chunk (input.length + 1) 0 mem 0 input

/-! ### The scans -/

/-- `strchr` stops at the first byte equal to `c`, if it comes before the NUL. -/
theorem strchr_found {mem : ℕ → UInt8} {c : UInt8} (hc : c ≠ 0) :
    ∀ (i fuel s : ℕ), (∀ j < i, mem (s + j) ≠ 0 ∧ mem (s + j) ≠ c) → mem (s + i) = c → i < fuel →
      strchr mem c fuel s = some (s + i)
  | 0, fuel + 1, s, _, hi, _ => by
    rw [Nat.add_zero] at hi
    simp [strchr, hi, hc]
  | i + 1, fuel + 1, s, hj, hi, hf => by
    obtain ⟨h0, hc'⟩ := hj 0 (by omega)
    rw [Nat.add_zero] at h0 hc'
    rw [strchr, if_neg h0, if_neg hc', strchr_found hc i fuel (s + 1)
      (fun j hj' => by rw [Nat.add_right_comm]; exact hj (j + 1) (by omega))
      (by rw [Nat.add_right_comm]; exact hi) (by omega)]
    rw [Nat.add_right_comm, Nat.add_assoc]

/-- `strchr` returns `0` at a NUL before any byte equal to `c`. -/
theorem strchr_none {mem : ℕ → UInt8} {c : UInt8} :
    ∀ (i fuel s : ℕ), (∀ j < i, mem (s + j) ≠ 0 ∧ mem (s + j) ≠ c) → mem (s + i) = 0 → i < fuel →
      strchr mem c fuel s = none
  | 0, fuel + 1, s, _, hi, _ => by
    rw [Nat.add_zero] at hi
    simp [strchr, hi]
  | i + 1, fuel + 1, s, hj, hi, hf => by
    obtain ⟨h0, hc'⟩ := hj 0 (by omega)
    rw [Nat.add_zero] at h0 hc'
    rw [strchr, if_neg h0, if_neg hc']
    exact strchr_none i fuel (s + 1)
      (fun j hj' => by rw [Nat.add_right_comm]; exact hj (j + 1) (by omega))
      (by rw [Nat.add_right_comm]; exact hi) (by omega)

/-- `match` reads the bytes before the NUL. -/
theorem cstrAt_eq {mem : ℕ → UInt8} :
    ∀ (i fuel s : ℕ), (∀ j < i, mem (s + j) ≠ 0) → mem (s + i) = 0 → i < fuel →
      cstrAt mem fuel s = slice mem s i
  | 0, fuel + 1, s, _, hi, _ => by
    rw [Nat.add_zero] at hi
    simp [cstrAt, hi]
  | i + 1, fuel + 1, s, hj, hi, hf => by
    have h0 : mem s ≠ 0 := by simpa using hj 0 (by omega)
    rw [cstrAt, if_neg h0, cstrAt_eq i fuel (s + 1)
      (fun j hj' => by rw [Nat.add_right_comm]; exact hj (j + 1) (by omega))
      (by rw [Nat.add_right_comm]; exact hi) (by omega), Nat.add_comm i 1, slice_add]
    rfl

/-! ### The `strchr` loop -/

/-- A run of memory that holds `a ++ b` holds `a`, then `b`. -/
theorem slice_append_eq {mem : ℕ → UInt8} {p : ℕ} {a b : List UInt8}
    (h : slice mem p (a ++ b).length = a ++ b) :
    slice mem p a.length = a ∧ slice mem (p + a.length) b.length = b := by
  rw [List.length_append, slice_add] at h
  exact List.append_inj h (by simp)

/-- A cell of a run that holds `xs`. -/
theorem slice_getElem {mem : ℕ → UInt8} {p : ℕ} {xs : List UInt8} (h : slice mem p xs.length = xs)
    {j : ℕ} (hj : j < xs.length) : mem (p + j) = xs[j] := by
  have := getElem_slice mem p xs.length j (by simpa using hj)
  simp only [h] at this
  exact this.symm

/-- The bytes of a run that holds `xs` are bytes of `xs`. -/
theorem slice_mem {mem : ℕ → UInt8} {p : ℕ} {xs : List UInt8} (h : slice mem p xs.length = xs)
    {j : ℕ} (hj : j < xs.length) : mem (p + j) ∈ xs := by
  rw [slice_getElem h hj]
  exact List.getElem_mem hj

/-- **One pass of the `strchr` loop.** With a NUL-free string `B` at `p` and a NUL after it, the
loop writes each line of `B` that ends in `'\n'` and matches, with its `'\n'`, in order, and stops
at the bytes after the last `'\n'`, which it leaves as they were, with everything after them. -/
theorem innerLoop_spec (pattern : List UInt8) :
    ∀ (fuel : ℕ) (B : List UInt8) (mem : ℕ → UInt8) (p : ℕ),
      slice mem p B.length = B → mem (p + B.length) = 0 → 0 ∉ B → B.length < fuel →
      B.length < 1024 →
      ∃ mem', innerLoop pattern fuel mem p =
          (mem', p + (B.length - (splitNl B).2.length),
            joinNl ((splitNl B).1.filter (matchRe pattern))) ∧
        ∀ a, p + (B.length - (splitNl B).2.length) ≤ a → mem' a = mem a
  | 0, _, _, _, _, _, _, hf, _ => absurd hf (Nat.not_lt_zero _)
  | fuel + 1, B, mem, p, hB, hnul, h0, hf, hsz => by
    by_cases hnl : 10 ∈ B
    · -- the first line ends at `q = p + l.length`
      obtain ⟨l, t, rfl, hl⟩ := exists_first_nl hnl
      obtain ⟨hsl, hst'⟩ := slice_append_eq hB
      rw [List.length_cons, slice_succ_left] at hst'
      obtain ⟨hq, hst⟩ := List.cons.inj hst'
      have hlen : (l ++ 10 :: t).length = l.length + 1 + t.length := by simp; omega
      have hsplit := splitNl_line t hl
      rw [hlen] at hf hsz hnul
      rw [hsplit, hlen]
      dsimp only
      have hscan : ∀ j < l.length, mem (p + j) ≠ 0 ∧ mem (p + j) ≠ 10 := fun j hj =>
        ⟨fun e => h0 (e ▸ List.mem_append_left _ (slice_mem hsl hj)),
          fun e => hl (e ▸ slice_mem hsl hj)⟩
      have hstr : strchr mem 10 1024 p = some (p + l.length) :=
        strchr_found (by decide) _ _ _ hscan hq (by omega)
      -- `*q = 0` ends the string that `match` reads
      have hread : cstrAt (Function.update mem (p + l.length) 0) 1024 p = l := by
        rw [cstrAt_eq l.length 1024 p (fun j hj => ?_) (by simp) (by omega)]
        · rw [slice_congr fun j hj => Function.update_of_ne (by omega) _ _]
          exact hsl
        · rw [Function.update_of_ne (by omega)]
          exact (hscan j hj).1
      have hrt : (splitNl t).2.length ≤ t.length := by
        have := congrArg List.length (splitNl_spec t).1
        simp only [List.length_append] at this
        omega
      have ht0 : 0 ∉ t := fun h => h0 (List.mem_append_right _ (List.mem_cons_of_mem _ h))
      have hnul' : ∀ g : ℕ → UInt8, (∀ a, p + l.length < a → g a = mem a) →
          g (p + l.length + 1 + t.length) = 0 := fun g hg => by
        rw [hg _ (by omega), ← hnul]
        congr 1
        omega
      have hslice : ∀ g : ℕ → UInt8, (∀ a, p + l.length < a → g a = mem a) →
          slice g (p + l.length + 1) t.length = t := fun g hg => by
        rw [slice_congr fun j hj => hg _ (by omega)]
        exact hst
      by_cases hm : matchRe pattern l = true
      · -- a matching line: `*q = '\n'` restores the buffer, and the line is written
        have hmem₂ : Function.update (Function.update mem (p + l.length) 0) (p + l.length) 10 = mem := by
          rw [Function.update_idem]
          exact Function.update_eq_self_iff.mpr hq.symm
        obtain ⟨mem', hrun, hframe⟩ := innerLoop_spec pattern fuel t mem (p + l.length + 1)
          (hslice mem fun _ _ => rfl) (hnul' mem fun _ _ => rfl) ht0 (by omega) (by omega)
        refine ⟨mem', ?_, fun a ha => hframe a (by omega)⟩
        simp only [innerLoop, hstr, hread, hm, if_true, hmem₂, hrun, List.filter_cons_of_pos hm,
          joinNl_cons]
        have hwrite : slice mem p (p + l.length + 1 - p) = l ++ [10] := by
          rw [show p + l.length + 1 - p = l.length + 1 by omega, slice_add, hsl]
          simp [slice, hq]
        rw [hwrite]
        simp only [Prod.mk.injEq, List.append_assoc, List.cons_append, List.nil_append, true_and,
          and_true]
        omega
      · -- a line that does not match keeps its NUL and is skipped
        have hm' : matchRe pattern l = false := Bool.eq_false_iff.mpr hm
        have hfr : ∀ a, p + l.length < a → Function.update mem (p + l.length) 0 a = mem a :=
          fun a ha => Function.update_of_ne (by omega) _ _
        obtain ⟨mem', hrun, hframe⟩ := innerLoop_spec pattern fuel t _ (p + l.length + 1)
          (hslice _ hfr) (hnul' _ hfr) ht0 (by omega) (by omega)
        refine ⟨mem', ?_, fun a ha => ?_⟩
        · simp only [innerLoop, hstr, hread, hm', Bool.false_eq_true, if_false, hrun,
            List.filter_cons_of_neg (by simpa using hm')]
          simp only [Prod.mk.injEq, and_true, true_and]
          omega
        · rw [hframe a (by omega), hfr a (by omega)]
    · -- no line ends in the buffer: `strchr` finds the NUL
      have hscan : ∀ j < B.length, mem (p + j) ≠ 0 ∧ mem (p + j) ≠ 10 := fun j hj =>
        ⟨fun e => h0 (e ▸ slice_mem hB hj), fun e => hnl (e ▸ slice_mem hB hj)⟩
      have hstr : strchr mem 10 1024 p = none := strchr_none _ _ _ hscan hnul (by omega)
      refine ⟨mem, ?_, fun _ _ => rfl⟩
      simp [innerLoop, hstr, splitNl_of_not_mem hnl]

/-! ### The read loop -/

/-- The first line of a string that starts with bytes without `'\n'` starts with them. -/
theorem prefix_of_splitNl : ∀ {c : List UInt8} (X : List UInt8) {l : List UInt8}
    {L : List (List UInt8)}, 10 ∉ c → (splitNl (c ++ X)).1 = l :: L → c <+: l
  | [], _, _, _, _, _ => List.nil_prefix
  | x :: c, X, l, L, hc, h => by
    have hx : x ≠ 10 := fun e => hc (e ▸ List.mem_cons_self)
    simp only [List.cons_append, splitNl, if_neg hx] at h
    rcases hs : splitNl (c ++ X) with ⟨_ | ⟨l', L'⟩, r₀⟩
    · rw [hs] at h
      simp [consByte] at h
    · rw [hs] at h
      simp only [consByte, List.cons.injEq] at h
      rw [← h.1]
      exact List.cons_prefix_cons.mpr
        ⟨rfl, prefix_of_splitNl X (fun h' => hc (List.mem_cons_of_mem _ h')) (by rw [hs])⟩

/-- The bytes in the buffer after a read: those carried over, the new ones and a NUL. -/
theorem slice_read {mem : ℕ → UInt8} {cur xs : List UInt8} (hcur : slice mem 0 cur.length = cur) :
    slice (Function.update (store id mem cur.length xs) (cur.length + xs.length) 0) 0
      (cur ++ xs).length = cur ++ xs := by
  rw [slice_congr fun i hi => Function.update_of_ne (by simp at hi; omega) _ _,
    List.length_append, slice_add, Nat.zero_add, slice_store,
    slice_congr fun i hi => store_of_lt (by simp; omega), hcur]

/-- **The read loop.** With the `m` bytes carried over in `buf`, without `'\n'` or NUL, and a
NUL-free rest of the input whose lines, with those bytes in front, each fit with their `'\n'`,
the loop writes the matching lines of the bytes carried over followed by the input. -/
theorem grepLoop_spec (pattern : List UInt8) {chunk : ℕ → ℕ} (hchunk : ∀ k, 1 ≤ chunk k) :
    ∀ (fuel k : ℕ) (mem : ℕ → UInt8) (cur input : List UInt8), input.length < fuel →
      slice mem 0 cur.length = cur → cur.length ≤ 1023 → 10 ∉ cur → 0 ∉ cur → 0 ∉ input →
      (∀ l ∈ (splitNl (cur ++ input)).1, l.length + 1 ≤ 1023) →
      grepLoop pattern chunk fuel k mem cur.length input =
        some (joinNl ((splitNl (cur ++ input)).1.filter (matchRe pattern)))
  | 0, _, _, _, _, hf, _, _, _, _, _, _ => absurd hf (Nat.not_lt_zero _)
  | fuel + 1, k, mem, cur, input, hf, hcur, hsz, hnl, h0, hin, hfit => by
    have hck := hchunk k
    by_cases hn : min (chunk k) (min (1024 - cur.length - 1) input.length) = 0
    · -- `read` returns 0: at the end of the input, or with a full buffer and no line in it
      have hnone : (splitNl (cur ++ input)).1 = [] := by
        cases hL : (splitNl (cur ++ input)).1 with
        | nil => rfl
        | cons l L =>
          have hpre := (prefix_of_splitNl input hnl hL).length_le
          have hl := hfit l (by simp [hL])
          by_cases hi : input = []
          · subst hi
            rw [List.append_nil, splitNl_of_not_mem hnl] at hL
            cases hL
          · have : input.length ≠ 0 := fun h => hi (List.eq_nil_of_length_eq_zero h)
            omega
      simp only [grepLoop, hn, if_true, hnone, List.filter_nil, joinNl_nil]
    · -- `n` new bytes: the buffer holds `B = cur ++ input.take n` and a NUL
      set n := min (chunk k) (min (1024 - cur.length - 1) input.length) with hn_def
      have hnle : n ≤ input.length := by omega
      have hroom : cur.length + n ≤ 1023 := by omega
      have htake : (input.take n).length = n := by simp; omega
      have hB0 : 0 ∉ cur ++ input.take n := fun h => by
        rcases List.mem_append.mp h with h | h
        · exact h0 h
        · exact hin (List.mem_of_mem_take h)
      have hBlen : (cur ++ input.take n).length = cur.length + n := by simp [htake]
      have hslB := @slice_read _ _ (input.take n) hcur
      rw [htake] at hslB
      obtain ⟨mem', hrun, hframe⟩ := innerLoop_spec pattern 1024 (cur ++ input.take n) _ 0
        hslB (by rw [Nat.zero_add, hBlen]; exact Function.update_self _ _ _) hB0
        (by omega) (by omega)
      -- the bytes after the last `'\n'` and what is left to read
      obtain ⟨hBeq, -, hrnl⟩ := splitNl_spec (cur ++ input.take n)
      set r := (splitNl (cur ++ input.take n)).2 with hr_def
      set L := (splitNl (cur ++ input.take n)).1 with hL_def
      have hrl : r.length ≤ cur.length + n := by
        have := congrArg List.length hBeq
        simp only [List.length_append, hBlen] at this
        omega
      have hp : 0 + ((cur ++ input.take n).length - r.length) = (joinNl L).length := by
        have := congrArg List.length hBeq
        simp only [List.length_append] at this
        omega
      -- `memmove(buf, p, m)` carries `r` to the front
      have hslr : slice mem' (joinNl L).length r.length = r := by
        rw [slice_congr fun i _ => hframe _ (by rw [hp]; omega)]
        have := (slice_append_eq (hBeq ▸ hslB : slice _ 0 (joinNl L ++ r).length = joinNl L ++ r)).2
        rwa [Nat.zero_add] at this
      have hmove : Ulib.memmove mem' 0 (joinNl L).length (Int32.ofNat r.length) =
          store id mem' 0 (slice mem' (joinNl L).length r.length) := by
        rw [Ulib.memmove_eq, Int32.toInt_ofNat_of_lt (by omega), Int.toNat_natCast]
      have hcur' : slice (store id mem' 0 (slice mem' (joinNl L).length r.length)) 0 r.length = r := by
        rw [hslr]
        exact slice_store _ _ _
      have hm₂ : cur.length + n - (joinNl L).length = r.length := by
        have := congrArg List.length hBeq
        simp only [List.length_append, hBlen] at this
        omega
      -- the lines of the rest are lines of the whole input
      have hcut : splitNl (cur ++ input) = (L ++ (splitNl (r ++ input.drop n)).1,
          (splitNl (r ++ input.drop n)).2) := by
        rw [← splitNl_append, show cur ++ input = cur ++ input.take n ++ input.drop n by simp]
      have hih := grepLoop_spec pattern hchunk fuel (k + 1)
        (store id mem' 0 (slice mem' (joinNl L).length r.length)) r (input.drop n)
        (by simp; omega) hcur' (by omega) hrnl
        (fun h => hB0 (hBeq ▸ List.mem_append_right _ h)) (fun h => hin (List.mem_of_mem_drop h))
        (fun l hl => hfit l (by rw [hcut]; exact List.mem_append_right _ hl))
      simp only [grepLoop]
      rw [← hn_def, if_neg hn, hrun, hp]
      simp only [show cur.length + n > 0 by omega, if_true, hmove, hm₂, hih, Option.map_some, hcut,
        List.filter_append, joinNl_append]

/-- **grep writes the matching lines, however `read` splits the input.** For every pattern,
every NUL-free input of lines `ls`, each of at most 1022 bytes before its `'\n'`, followed by bytes
`tail` without `'\n'`, and every sequence of `read` results between `1` and the requested count
of the remaining bytes, `grep` returns after writing exactly the lines of `ls` that `match`
accepts, each with its `'\n'`, in order. Nothing of `tail` is written. -/
theorem grep_matching_lines (pattern : List UInt8) {chunk : ℕ → ℕ} (hchunk : ∀ k, 1 ≤ chunk k)
    (mem : ℕ → UInt8) {ls : List (List UInt8)} {tail : List UInt8}
    (hls : ∀ l ∈ ls, 10 ∉ l ∧ 0 ∉ l ∧ l.length + 1 ≤ 1023) (htail : 10 ∉ tail) (htail0 : 0 ∉ tail) :
    grep pattern chunk mem (joinNl ls ++ tail) = some (joinNl (ls.filter (matchRe pattern))) := by
  have hsplit : splitNl (joinNl ls ++ tail) = (ls, tail) :=
    splitNl_eq (fun l hl => (hls l hl).1) htail
  -- the input has no NUL: its bytes are the lines' bytes, their `'\n'`s and the tail's
  have hin : 0 ∉ joinNl ls ++ tail := fun h => by
    rcases List.mem_append.mp h with h | h
    · obtain ⟨l, hl, hx⟩ := List.mem_flatMap.mp h
      rcases List.mem_append.mp hx with hx | hx
      · exact (hls l hl).2.1 hx
      · simp at hx
    · exact htail0 h
  have := grepLoop_spec pattern hchunk ((joinNl ls ++ tail).length + 1) 0 mem [] (joinNl ls ++ tail)
    (Nat.lt_succ_self _) rfl (by simp) List.not_mem_nil List.not_mem_nil hin
    (fun l hl => (hls l (by simpa [hsplit] using hl)).2.2)
  rw [List.nil_append, hsplit] at this
  exact this

/-- Two lines read a byte at a time: `a` keeps the line `a` and drops `b`. -/
theorem grep_matching_lines_bytewise :
    grep [97] (fun _ => 1) (fun _ => 0) (joinNl [[97], [98]] ++ []) =
      some (joinNl ([[97], [98]].filter (matchRe [97]))) :=
  grep_matching_lines [97] (fun _ => Nat.le_refl 1) _ (by decide) (by decide) (by decide)

end Xv6.Grep
