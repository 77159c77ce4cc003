import Xv6.Lib.Scan

/-!
# The shell's tokenizer

A model of `gettoken` and `peek` of `user/sh.c` over the command line `buf`, a byte list;
positions are indices into it, `es` is `buf.length`, and `*s` at or past the end reads the
terminating NUL (`charAt`).

`lex buf ps` is the token list of `buf` from `ps`: what repeated `gettoken` calls return until
one returns 0.  The parser sees the buffer only through `gettoken` and `peek`, and the lemmas
here describe both in terms of `lex`: `gettoken` returns the head of `lex buf ps` and leaves
the rest (`gettoken_of_lex_cons`), `peek` tests the first byte of the head (`peek_fst`) and
moves to a position with the same tokens (`lex_skipWs`), and on a NUL-free line the end test
of `parsecmd` holds exactly when no token is left (`skipWs_eq_length_iff`).  The bytes of a
word token are word bytes and the byte after it is not (`word_mem_lex`), which is why
`nulterminate` overwrites no word.
-/

namespace Xv6.Sh

open Scan

/-- `char whitespace[] = " \t\r\n\v";` -/
def whitespace : List UInt8 := [32, 9, 13, 10, 11]

/-- `char symbols[] = "<|>&;()";` -/
def symbols : List UInt8 := [60, 124, 62, 38, 59, 40, 41]

/-- `strchr(s, c) != 0` (ulib.c) for a string literal `s`: the loop stops at the literal's NUL,
so `c` is found iff it is one of the literal's bytes, and 0 never is. -/
def strchr (s : List UInt8) (c : UInt8) : Bool := s.contains c

/-- `*s` at position `i`: the byte, or the terminating NUL at and past the end. -/
def charAt (buf : List UInt8) (i : ℕ) : UInt8 := buf.getD i 0

/-- `while(s < es && strchr(whitespace, *s)) s++;` -/
def skipWs (buf : List UInt8) (i : ℕ) : ℕ := scanWhile buf (strchr whitespace) i

/-- The condition of the word loop of `gettoken`: neither whitespace nor a symbol. -/
def wordByte (c : UInt8) : Bool := !strchr whitespace c && !strchr symbols c

/-- The `switch(*s)` of `gettoken` at `s`: the return code and where `eq` points. -/
def scanToken (buf : List UInt8) (s : ℕ) : UInt8 × ℕ :=
  let c := charAt buf s
  if c = 0 then (0, s)
  -- '|' '(' ')' ';' '&' '<'
  else if strchr [124, 40, 41, 59, 38, 60] c then (c, s + 1)
  -- '>', or '+' for ">>"
  else if c = 62 then if charAt buf (s + 1) = 62 then (43, s + 2) else (62, s + 1)
  -- 'a': a word runs to the next whitespace or symbol
  else (97, scanWhile buf wordByte s)

/-- `gettoken(ps, es, q, eq)`: the return code, `*q`, `*eq` and the new `*ps`. -/
def gettoken (buf : List UInt8) (ps : ℕ) : UInt8 × ℕ × ℕ × ℕ :=
  let s := skipWs buf ps
  let r := scanToken buf s
  (r.1, s, r.2, skipWs buf r.2)

/-- `peek(ps, es, toks)`: whether the next byte is one of `toks`, and the new `*ps`. -/
def peek (buf : List UInt8) (ps : ℕ) (toks : List UInt8) : Bool × ℕ :=
  let s := skipWs buf ps
  (charAt buf s != 0 && strchr toks (charAt buf s), s)

/-- The tokens `gettoken` tells apart; a word carries its `q` and `eq`. -/
inductive Tok where
  | pipe
  | lparen
  | rparen
  | semi
  | amp
  | lt
  | gt
  | gtgt
  | word (q eq : ℕ)
  deriving DecidableEq, Repr

namespace Tok

/-- The code `gettoken` returns for the token. -/
def ret : Tok → UInt8
  | pipe => 124
  | lparen => 40
  | rparen => 41
  | semi => 59
  | amp => 38
  | lt => 60
  | gt => 62
  | gtgt => 43
  | word _ _ => 97

/-- The token of a nonzero `gettoken` code, with the word's bounds `q` and `eq`. -/
def ofRet (r : UInt8) (q eq : ℕ) : Tok :=
  if r = 124 then pipe else if r = 40 then lparen else if r = 41 then rparen
  else if r = 59 then semi else if r = 38 then amp else if r = 60 then lt
  else if r = 62 then gt else if r = 43 then gtgt else word q eq

/-- The first byte of the token, the one `peek` tests; a word starts with no symbol. -/
def lead : Tok → Option UInt8
  | gtgt => some 62
  | word _ _ => none
  | t => some t.ret

/-- `peek` with `toks` sees this token next. -/
def isIn (t : Tok) (toks : List UInt8) : Bool := t.lead.any (strchr toks)

theorem ret_ne_zero (t : Tok) : t.ret ≠ 0 := by
  cases t <;> simp only [ret] <;> decide

/-- The codes `scanToken` returns. -/
def codes : List UInt8 := [0, 124, 40, 41, 59, 38, 60, 62, 43, 97]

theorem ret_ofRet {r : UInt8} (h : r ∈ codes) (hr : r ≠ 0) (q eq : ℕ) : (ofRet r q eq).ret = r := by
  simp only [codes, List.mem_cons, List.not_mem_nil, or_false] at h
  rcases h with rfl | rfl | rfl | rfl | rfl | rfl | rfl | rfl | rfl | rfl
  all_goals first | exact absurd rfl hr | rfl

theorem ofRet_eq_word {r : UInt8} {q eq q' eq' : ℕ} (h : ofRet r q eq = word q' eq') :
    q = q' ∧ eq = eq' := by
  unfold ofRet at h
  split_ifs at h
  simpa using h

end Tok

/-- `gettoken` repeated at most `n` times, until it returns 0. -/
def lexN (buf : List UInt8) : ℕ → ℕ → List Tok
  | 0, _ => []
  | n + 1, ps =>
    let r := gettoken buf ps
    if r.1 = 0 then [] else Tok.ofRet r.1 r.2.1 r.2.2.1 :: lexN buf n r.2.2.2

/-- The tokens of `buf` from `ps`.  Each nonzero `gettoken` moves past at least one byte, so
`buf.length + 1` calls reach the end (`lex_of_ret_ne_zero`). -/
def lex (buf : List UInt8) (ps : ℕ) : List Tok := lexN buf (buf.length + 1) ps

variable {buf : List UInt8} {i ps : ℕ}

/-! ### Bytes -/

theorem charAt_of_lt (h : i < buf.length) : charAt buf i = buf[i] := by
  simp [charAt, List.getD_eq_getElem?_getD, h]

theorem charAt_of_length_le (h : buf.length ≤ i) : charAt buf i = 0 := by
  simp [charAt, List.getD_eq_getElem?_getD, h]

theorem lt_of_charAt_ne_zero (h : charAt buf i ≠ 0) : i < buf.length := by
  by_contra hle
  exact h (charAt_of_length_le (by omega))

theorem charAt_ne_zero (h0 : 0 ∉ buf) (h : i < buf.length) : charAt buf i ≠ 0 := by
  rw [charAt_of_lt h]
  intro he
  exact h0 (he ▸ List.getElem_mem h)

@[simp] theorem skipWs_skipWs : skipWs buf (skipWs buf ps) = skipWs buf ps := scanWhile_scanWhile ps

theorem skipWs_le_length (h : ps ≤ buf.length) : skipWs buf ps ≤ buf.length :=
  scanWhile_le_length h

/-- Where the whitespace loop stops, `*s` is no whitespace. -/
theorem strchr_charAt_skipWs : strchr whitespace (charAt buf (skipWs buf ps)) = false := by
  by_cases h : skipWs buf ps < buf.length
  · rw [charAt_of_lt h]
    exact scanWhile_stop h
  · rw [charAt_of_length_le (by omega)]
    rfl

/-! ### One token -/

theorem strchr_iff {l : List UInt8} {c : UInt8} : strchr l c = true ↔ c ∈ l := by
  simp [strchr]

theorem strchr_eq_false {l : List UInt8} {c : UInt8} (h : c ∉ l) : strchr l c = false :=
  Bool.eq_false_iff.mpr fun hc => h (strchr_iff.mp hc)

/-- The cases of the `switch(*s)`, each with what it returns. -/
theorem scanToken_cases (buf : List UInt8) (s : ℕ) :
    (charAt buf s = 0 ∧ scanToken buf s = (0, s)) ∨
    (charAt buf s ∈ [124, 40, 41, 59, 38, 60] ∧ scanToken buf s = (charAt buf s, s + 1)) ∨
    (charAt buf s = 62 ∧ charAt buf (s + 1) = 62 ∧ scanToken buf s = (43, s + 2)) ∨
    (charAt buf s = 62 ∧ charAt buf (s + 1) ≠ 62 ∧ scanToken buf s = (62, s + 1)) ∨
    (charAt buf s ≠ 0 ∧ charAt buf s ∉ symbols ∧
      scanToken buf s = (97, scanWhile buf wordByte s)) := by
  by_cases h0 : charAt buf s = 0
  · exact .inl ⟨h0, by simp [scanToken, h0]⟩
  by_cases h1 : charAt buf s ∈ [124, 40, 41, 59, 38, 60]
  · exact .inr (.inl ⟨h1, by simp [scanToken, h0, strchr_iff.mpr h1]⟩)
  have h1' := strchr_eq_false h1
  by_cases h2 : charAt buf s = 62
  · by_cases h3 : charAt buf (s + 1) = 62
    · exact .inr (.inr (.inl ⟨h2, h3, by simp [scanToken, h0, h1', h3, if_pos h2]⟩))
    · exact .inr (.inr (.inr (.inl ⟨h2, h3, by simp [scanToken, h0, h1', h3, if_pos h2]⟩)))
  · refine .inr (.inr (.inr (.inr ⟨h0, ?_, by simp [scanToken, h0, h1', h2]⟩)))
    simp only [symbols, List.mem_cons, List.not_mem_nil, or_false] at h1 ⊢
    grind

theorem scanToken_fst_eq_zero {s : ℕ} : (scanToken buf s).1 = 0 ↔ charAt buf s = 0 := by
  rcases scanToken_cases buf s with ⟨h0, h⟩ | ⟨-, h⟩ | ⟨h2, -, h⟩ | ⟨h2, -, h⟩ | ⟨h0, -, h⟩
  · simp [h, h0]
  · simp [h]
  · simp [h, h2]
  · simp [h, h2]
  · simp [h, h0]

theorem scanToken_fst_mem (s : ℕ) : (scanToken buf s).1 ∈ Tok.codes := by
  rcases scanToken_cases buf s with ⟨-, h⟩ | ⟨h1, h⟩ | ⟨-, -, h⟩ | ⟨-, -, h⟩ | ⟨-, -, h⟩
  · simp [h, Tok.codes]
  · simp only [List.mem_cons, List.not_mem_nil, or_false] at h1
    simp only [h, Tok.codes, List.mem_cons, List.not_mem_nil, or_false]
    rcases h1 with h1 | h1 | h1 | h1 | h1 | h1 <;> simp [h1]
  all_goals simp [h, Tok.codes]

/-- Only the word case returns `'a'`, and its `eq` is where the word loop stops. -/
theorem scanToken_of_word {s : ℕ} (hr : (scanToken buf s).1 = 97) :
    (scanToken buf s).2 = scanWhile buf wordByte s := by
  rcases scanToken_cases buf s with ⟨-, h⟩ | ⟨h1, h⟩ | ⟨-, -, h⟩ | ⟨-, -, h⟩ | ⟨-, -, h⟩
  · simp [h] at hr
  · rw [h] at hr
    simp only at hr
    simp [hr] at h1
  · simp [h] at hr
  · simp [h] at hr
  · simp [h]

/-- The token `scanToken` reads starts with `*s` if that is a symbol, and is a word if not. -/
theorem lead_ofRet_scanToken {s : ℕ} (hr : (scanToken buf s).1 ≠ 0) (q eq : ℕ) :
    (Tok.ofRet (scanToken buf s).1 q eq).lead =
      if strchr symbols (charAt buf s) then some (charAt buf s) else none := by
  rcases scanToken_cases buf s with ⟨-, h⟩ | ⟨h1, h⟩ | ⟨h2, -, h⟩ | ⟨h2, -, h⟩ | ⟨-, h5, h⟩
  · simp [h] at hr
  · rw [h]
    generalize charAt buf s = c at h1 ⊢
    simp only [List.mem_cons, List.not_mem_nil, or_false] at h1
    rcases h1 with rfl | rfl | rfl | rfl | rfl | rfl <;> rfl
  · rw [h, h2]
    rfl
  · rw [h, h2]
    rfl
  · rw [h, strchr_eq_false h5]
    rfl

/-- A nonzero `gettoken` moves `*ps` forward and stays in the line. -/
theorem gettoken_progress (h : (gettoken buf ps).1 ≠ 0) :
    ps < (gettoken buf ps).2.2.2 ∧ (gettoken buf ps).2.2.2 ≤ buf.length := by
  set s := skipWs buf ps with hs
  have hc : charAt buf s ≠ 0 := fun hc => h (scanToken_fst_eq_zero.mpr hc)
  have hslt := lt_of_charAt_ne_zero hc
  -- where `eq` lands: past `s`, and inside the line
  have he : s < (scanToken buf s).2 ∧ (scanToken buf s).2 ≤ buf.length := by
    rcases scanToken_cases buf s with ⟨h0, -⟩ | ⟨-, he⟩ | ⟨-, h3, he⟩ | ⟨-, -, he⟩ | ⟨-, h5, he⟩
    · exact absurd h0 hc
    · rw [he]
      omega
    · have := lt_of_charAt_ne_zero (h3 ▸ (by decide : (62 : UInt8) ≠ 0))
      rw [he]
      omega
    · rw [he]
      omega
    · -- the word loop passes `*s`: it is no whitespace, as the whitespace loop stopped there
      have hws : strchr whitespace (charAt buf s) = false := strchr_charAt_skipWs
      have hw : wordByte buf[s] = true := by
        rw [← charAt_of_lt hslt]
        simp [wordByte, hws, strchr_eq_false h5]
      rw [he]
      exact ⟨lt_scanWhile hslt hw, scanWhile_le_length hslt.le⟩
  have hle : ps ≤ s := le_scanWhile ps
  have hr : (scanToken buf s).2 ≤ skipWs buf (scanToken buf s).2 := le_scanWhile _
  exact ⟨by simp only [gettoken, ← hs]; omega, scanWhile_le_length he.2⟩

@[simp] theorem gettoken_skipWs : gettoken buf (skipWs buf ps) = gettoken buf ps := by
  simp only [gettoken, skipWs_skipWs]

/-! ### The token list -/

theorem lexN_eq_lexN : ∀ (n m ps : ℕ), buf.length - ps < n → buf.length - ps < m →
    lexN buf n ps = lexN buf m ps
  | 0, _, _, hn, _ => absurd hn (Nat.not_lt_zero _)
  | _, 0, _, _, hm => absurd hm (Nat.not_lt_zero _)
  | n + 1, m + 1, ps, hn, hm => by
    simp only [lexN]
    split_ifs with h
    · rfl
    · obtain ⟨hlt, hle⟩ := gettoken_progress h
      rw [lexN_eq_lexN n m _ (by omega) (by omega)]

theorem lex_of_ret_eq_zero (h : (gettoken buf ps).1 = 0) : lex buf ps = [] := by
  simp [lex, lexN, h]

theorem lex_of_ret_ne_zero (h : (gettoken buf ps).1 ≠ 0) :
    lex buf ps = Tok.ofRet (gettoken buf ps).1 (gettoken buf ps).2.1 (gettoken buf ps).2.2.1 ::
      lex buf (gettoken buf ps).2.2.2 := by
  obtain ⟨hlt, hle⟩ := gettoken_progress h
  rw [lex, lexN, if_neg h, lex, lexN_eq_lexN buf.length (buf.length + 1) _ (by omega) (by omega)]

/-- `gettoken` returns the code of the next token, its bounds if it is a word, and leaves the
rest of the tokens. -/
theorem gettoken_of_lex_cons {t : Tok} {ts : List Tok} (h : lex buf ps = t :: ts) :
    (gettoken buf ps).1 = t.ret ∧ lex buf (gettoken buf ps).2.2.2 = ts ∧
      ∀ q eq, t = .word q eq → (gettoken buf ps).2.1 = q ∧ (gettoken buf ps).2.2.1 = eq := by
  have hr : (gettoken buf ps).1 ≠ 0 := fun hr => by simp [lex_of_ret_eq_zero hr] at h
  rw [lex_of_ret_ne_zero hr, List.cons.injEq] at h
  obtain ⟨ht, hts⟩ := h
  refine ⟨?_, hts, fun q eq hw => Tok.ofRet_eq_word (ht.trans hw)⟩
  rw [← ht]
  exact (Tok.ret_ofRet (scanToken_fst_mem (skipWs buf ps)) hr _ _).symm

theorem gettoken_of_lex_nil (h : lex buf ps = []) : (gettoken buf ps).1 = 0 := by
  by_contra hr
  simp [lex_of_ret_ne_zero hr] at h

@[simp] theorem peek_skipWs (toks : List UInt8) : peek buf (skipWs buf ps) toks = peek buf ps toks := by
  simp only [peek, skipWs_skipWs]

@[simp] theorem lex_skipWs : lex buf (skipWs buf ps) = lex buf ps := by
  by_cases h : (gettoken buf ps).1 = 0
  · rw [lex_of_ret_eq_zero h, lex_of_ret_eq_zero (by rwa [gettoken_skipWs])]
  · rw [lex_of_ret_ne_zero h, lex_of_ret_ne_zero (by rwa [gettoken_skipWs]), gettoken_skipWs]

/-- Each token takes at least one byte. -/
theorem length_lex_le : ∀ {ts : List Tok} {ps : ℕ}, lex buf ps = ts → ts.length ≤ buf.length - ps
  | [], _, _ => Nat.zero_le _
  | t :: ts, ps, h => by
    obtain ⟨hr, hts, -⟩ := gettoken_of_lex_cons h
    obtain ⟨hlt, hle⟩ := gettoken_progress (hr ▸ t.ret_ne_zero)
    have := length_lex_le hts
    simp only [List.length_cons]
    omega

/-! ### What `peek` sees -/

@[simp] theorem peek_snd (toks : List UInt8) : (peek buf ps toks).2 = skipWs buf ps := rfl

/-- `peek` with a set of symbols tests whether the next token starts with one of them. -/
theorem peek_fst (toks : List UInt8) (htoks : toks.all (strchr symbols) = true) :
    (peek buf ps toks).1 = (lex buf ps).head?.any (Tok.isIn · toks) := by
  by_cases h : (gettoken buf ps).1 = 0
  · have hc : charAt buf (skipWs buf ps) = 0 := scanToken_fst_eq_zero.mp h
    simp [peek, lex_of_ret_eq_zero h, hc]
  · have hc : charAt buf (skipWs buf ps) ≠ 0 := fun hc => h (scanToken_fst_eq_zero.mpr hc)
    rw [lex_of_ret_ne_zero h]
    simp only [List.head?_cons, Option.any_some, Tok.isIn, gettoken, lead_ofRet_scanToken h,
      peek]
    split_ifs with hs
    · simp [hc]
    · have hnot : strchr toks (charAt buf (skipWs buf ps)) = false :=
        strchr_eq_false fun hm => hs (List.all_eq_true.mp htoks _ hm)
      simp [hnot]

/-- `peek` for the byte of a one-byte token tests for that token. -/
theorem peek_one {t : Tok} (ht : t ∈ [.pipe, .lparen, .rparen, .semi, .amp]) :
    (peek buf ps [t.ret]).1 = true ↔ ∃ ts, lex buf ps = t :: ts := by
  have hsym : [t.ret].all (strchr symbols) = true := by
    simp only [List.mem_cons, List.not_mem_nil, or_false] at ht
    rcases ht with rfl | rfl | rfl | rfl | rfl <;> rfl
  rw [peek_fst _ hsym]
  rcases lex buf ps with _ | ⟨t', ts⟩
  · simp
  · simp only [List.head?_cons, Option.any_some, List.cons.injEq]
    simp only [List.mem_cons, List.not_mem_nil, or_false] at ht
    rcases ht with rfl | rfl | rfl | rfl | rfl <;>
      cases t' <;> simp [Tok.isIn, Tok.lead, Tok.ret, strchr]

/-- A `gettoken` that finds nothing leaves `*ps` where the whitespace loop stopped. -/
theorem gettoken_of_ret_eq_zero (h : (gettoken buf ps).1 = 0) :
    (gettoken buf ps).2.2.2 = skipWs buf ps := by
  have hc := scanToken_fst_eq_zero.mp h
  rcases scanToken_cases buf (skipWs buf ps) with ⟨-, he⟩ | ⟨h1, -⟩ | ⟨h2, -, -⟩ | ⟨h2, -, -⟩ |
      ⟨h0, -, -⟩
  · simp only [gettoken, he, skipWs_skipWs]
  · simp [hc] at h1
  · simp [hc] at h2
  · simp [hc] at h2
  · exact absurd hc h0

/-- On a NUL-free line the test `s != es` of `parsecmd` fails exactly when no token is left. -/
theorem skipWs_eq_length_iff (h0 : 0 ∉ buf) (hps : ps ≤ buf.length) :
    skipWs buf ps = buf.length ↔ lex buf ps = [] := by
  constructor
  · intro h
    apply lex_of_ret_eq_zero
    show (scanToken buf (skipWs buf ps)).1 = 0
    rw [scanToken_fst_eq_zero, h]
    exact charAt_of_length_le le_rfl
  · intro h
    have hc := scanToken_fst_eq_zero.mp (gettoken_of_lex_nil h)
    have hle : skipWs buf ps ≤ buf.length := scanWhile_le_length hps
    by_contra hne
    exact charAt_ne_zero h0 (by omega) hc

/-! ### Word tokens -/

/-- The bytes of a word token are nonzero word bytes, and the byte after it is not one. -/
theorem word_mem_lex (h0 : 0 ∉ buf) :
    ∀ {ts : List Tok} {ps q eq : ℕ}, lex buf ps = ts → Tok.word q eq ∈ ts →
      (∀ i, q ≤ i → i < eq → charAt buf i ≠ 0 ∧ wordByte (charAt buf i) = true) ∧
        (charAt buf eq = 0 ∨ wordByte (charAt buf eq) = false)
  | [], _, _, _, _, hw => absurd hw List.not_mem_nil
  | t :: ts, ps, q, eq, h, hw => by
    obtain ⟨hr, hts, hword⟩ := gettoken_of_lex_cons h
    rcases List.mem_cons.mp hw with rfl | hw
    · obtain ⟨hq, heq⟩ := hword q eq rfl
      -- the word case of `gettoken`: `q` is where the whitespace loop stopped and `eq`
      -- where the word loop did
      have he : eq = scanWhile buf wordByte q := by
        rw [← heq, ← hq]
        exact scanToken_of_word hr
      subst he
      refine ⟨fun i hi hie => ?_, ?_⟩
      · obtain ⟨hil, hp⟩ := scanWhile_pass hi hie
        exact ⟨charAt_ne_zero h0 hil, by rw [charAt_of_lt hil]; exact hp⟩
      · by_cases hlt : scanWhile buf wordByte q < buf.length
        · exact .inr (by rw [charAt_of_lt hlt]; exact scanWhile_stop hlt)
        · exact .inl (charAt_of_length_le (by omega))
    · exact word_mem_lex h0 hts hw

end Xv6.Sh
