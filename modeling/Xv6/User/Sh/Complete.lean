import Xv6.User.Sh.Sound

/-!
# The shell's parser accepts exactly its grammar

Completeness of the parser against `Xv6.Sh.Grammar`: on the tokens of a derivation followed by a
token of the nonterminal's FOLLOW set, with the fuel of `halts_parsers`, the parser returns the
derivation's tree and stops right after it (`Derives.complete`).  The FOLLOW sets are what the
one-token lookahead needs: each loop stops at a token that cannot continue it, and the grammar
puts only such tokens after a nonterminal.  As for soundness, each production has a step lemma,
and `Derives.complete` is the induction over the derivation.

With soundness and termination this settles `parsecmd` on a NUL-free line
(`parsecmd_accepts_grammar`): it returns or panics, it returns iff the line's tokens derive a
`line`, the tree is then the derivation's, and after `nulterminate` every word of the tree is a
NUL-terminated copy of its token (`nulterminate_words`).
-/

namespace Xv6.Sh

variable {buf : List UInt8}

theorem ok_bind {ε α β : Type} (a : α) (f : α → Except ε β) : (Except.ok a >>= f) = f a := rfl

/-! ### FOLLOW sets -/

/-- The FOLLOW set of each nonterminal: the tokens the grammar lets come after it. -/
def Sym.Follow : Sym → Option Tok → Prop
  | .line, t => t = none ∨ t = some .rparen
  | .pipe, t => t = none ∨ t = some .rparen ∨ t = some .amp ∨ t = some .semi
  | .exec, t => t = none ∨ t = some .rparen ∨ t = some .amp ∨ t = some .semi ∨ t = some .pipe

theorem Sym.Follow.pipe_of_line {t : Option Tok} (h : Sym.line.Follow t) : Sym.pipe.Follow t := by
  rcases h with h | h <;> simp [Sym.Follow, h]

theorem Sym.Follow.exec_of_pipe {t : Option Tok} (h : Sym.pipe.Follow t) : Sym.exec.Follow t := by
  rcases h with h | h | h | h <;> simp [Sym.Follow, h]

/-- No redirection token follows an `exec`, so `parseredirs` stops there. -/
theorem Sym.Follow.redir_eq_none {t : Option Tok} (h : Sym.exec.Follow t) :
    ∀ u, t = some u → u.redir = none := by
  rintro u rfl
  rcases h with h | h | h | h | h <;> cases h <;> rfl

/-- After `{'&'}` can come what follows a `pipe`. -/
theorem Backs.follow {ts ts' : List Tok} {c c' : Cmd} (hb : Backs ts c c' ts')
    (h : Sym.pipe.Follow ts'.head?) : Sym.pipe.Follow ts.head? := by
  induction hb with
  | nil => exact h
  | cons _ _ => simp [Sym.Follow]

/-- A simple command's first token is none of `<`, `>`, `>>` after its redirections. -/
theorem Words.redir_eq_none {ts ts' : List Tok} {ws : List (ℕ × ℕ)} {rs : List Redir}
    (hw : Words ts ws rs ts') (h : Sym.exec.Follow ts'.head?) :
    ∀ u, ts.head? = some u → u.redir = none := by
  cases hw with
  | nil => exact h.redir_eq_none
  | cons _ _ =>
    rintro u hu
    cases hu
    rfl

/-- A simple command does not start with `(`. -/
theorem simple_head {ts₀ ts₁ ts₂ : List Tok} {rs rs' : List Redir} {ws : List (ℕ × ℕ)}
    (hr : Redirs ts₀ rs ts₁) (hw : Words ts₁ ws rs' ts₂) (h : Sym.exec.Follow ts₂.head?) :
    ts₀.head? ≠ some .lparen := by
  cases hr with
  | cons hm _ => simp only [List.head?_cons, ne_eq, Option.some.injEq]; rintro rfl; simp [Tok.redir] at hm
  | nil =>
    cases hw with
    | cons _ _ => simp
    | nil => rcases h with h | h | h | h | h <;> simp [h]

/-- `peek` for a one-byte token is false when another token, or none, comes next. -/
theorem peek_one_false {t : Tok} {ps : ℕ} (ht : t ∈ [.pipe, .lparen, .rparen, .semi, .amp])
    (hne : (lex buf ps).head? ≠ some t) : (peek buf ps [t.ret]).1 = false := by
  apply Bool.eq_false_iff.mpr
  intro h
  obtain ⟨ts, hts⟩ := (peek_one ht).mp h
  simp [hts] at hne

/-! ### The loops -/

/-- `parseredirs` reads a whole `redirs` when no redirection token comes after it. -/
theorem Redirs.complete {ts ts' : List Tok} {rs : List Redir} (hr : Redirs ts rs ts')
    (hnext : ∀ u, ts'.head? = some u → u.redir = none) :
    ∀ {fuel : ℕ} {cmd : Cmd} {ps : ℕ}, lex buf ps = ts → ts.length < fuel →
      ∃ ps', parseredirs buf fuel cmd ps = .ok (cmd.wrap rs, ps') ∧ lex buf ps' = ts' := by
  induction hr with
  | nil =>
    intro fuel cmd ps hl hf
    obtain ⟨fuel, rfl⟩ : ∃ f, fuel = f + 1 := ⟨fuel - 1, by omega⟩
    have hin : (peek buf ps [60, 62]).1 = false := by
      rw [peek_fst [60, 62] rfl, hl]
      cases h : List.head? _ with
      | none => rfl
      | some u => simp [Tok.isIn_redir, hnext u h]
    exact ⟨skipWs buf ps, by simp [parseredirs, hin, Cmd.wrap], by rw [lex_skipWs, hl]⟩
  | cons hm _ ih =>
    intro fuel cmd ps hl hf
    obtain ⟨fuel, rfl⟩ : ∃ f, fuel = f + 1 := ⟨fuel - 1, by omega⟩
    -- the redirection token, then its file word
    obtain ⟨hr₀, hts₀, -⟩ := gettoken_of_lex_cons hl
    obtain ⟨hr₁, hts₁, hw₁⟩ := gettoken_of_lex_cons hts₀
    obtain ⟨hq, heq⟩ := hw₁ _ _ rfl
    have hin : (peek buf ps [60, 62]).1 = true := by
      rw [peek_fst [60, 62] rfl, hl]
      simp [Tok.isIn_redir, hm]
    obtain ⟨ps', h', hl'⟩ := ih hnext hts₁
      (show _ < fuel by simp only [List.length_cons] at hf; omega)
    refine ⟨ps', ?_, hl'⟩
    simp only [parseredirs, hin, if_true, peek_snd, gettoken_skipWs, hr₀, hr₁, hq, heq,
      redir_ret hm]
    simpa [Cmd.wrap, Tok.ret] using h'

/-- The word loop reads a whole `{WORD redirs}` when a token that ends an `exec` comes after it. -/
theorem Words.complete {ts ts' : List Tok} {ws : List (ℕ × ℕ)} {rs : List Redir}
    (hw : Words ts ws rs ts') (hnext : Sym.exec.Follow ts'.head?) :
    ∀ {fuel : ℕ} {argv : List (ℕ × ℕ)} {ret : Cmd} {ps : ℕ}, lex buf ps = ts →
      ts.length < fuel → argv.length + ws.length < MAXARGS →
      ∃ ps', execLoop buf fuel argv ret ps = .ok (argv ++ ws, ret.wrap rs, ps') ∧
        lex buf ps' = ts' := by
  induction hw with
  | nil =>
    intro fuel argv ret ps hl hf _
    obtain ⟨fuel, rfl⟩ : ∃ f, fuel = f + 1 := ⟨fuel - 1, by omega⟩
    refine ⟨skipWs buf ps, ?_, by rw [lex_skipWs, hl]⟩
    -- the loop stops at the next token, or finds none
    have hstop : (peek buf ps [124, 41, 38, 59]).1 = (lex buf ps).head?.isSome := by
      rw [peek_fst [124, 41, 38, 59] rfl, hl]
      rcases hnext with h | h | h | h | h <;> rw [h] <;> rfl
    cases hh : (lex buf ps).head? with
    | none =>
      have h0 := gettoken_of_lex_nil (List.head?_eq_none_iff.mp hh)
      simp [execLoop, hstop, hh, h0, gettoken_of_ret_eq_zero h0, Cmd.wrap]
    | some u => simp [execLoop, hstop, hh, Cmd.wrap]
  | @cons q eq _ _ _ _ _ _ hr hw ih =>
    intro fuel argv ret ps hl hf hlen
    obtain ⟨fuel, rfl⟩ : ∃ f, fuel = f + 1 := ⟨fuel - 1, by omega⟩
    obtain ⟨hr₀, hts₀, hw₀⟩ := gettoken_of_lex_cons hl
    obtain ⟨hq, heq⟩ := hw₀ _ _ rfl
    have hstop : (peek buf ps [124, 41, 38, 59]).1 = false := by
      rw [peek_fst [124, 41, 38, 59] rfl, hl]
      rfl
    -- the word's redirections, then the rest of the loop
    obtain ⟨ps₂, h₂, hl₂⟩ : ∃ ps₂, parseredirs buf (buf.length + 1) ret (gettoken buf ps).2.2.2 =
        .ok (ret.wrap _, ps₂) ∧ lex buf ps₂ = _ :=
      hr.complete (hw.redir_eq_none hnext) hts₀ (hts₀ ▸ length_lex_lt _)
    obtain ⟨ps', h', hl'⟩ := ih hnext hl₂
      (show _ < fuel by have := hr.suffix.length_le; simp only [List.length_cons] at hf; omega)
      (show (argv ++ [(q, eq)]).length + _ < MAXARGS by
        simp only [List.length_append, List.length_cons, List.length_nil] at hlen ⊢
        omega)
    refine ⟨ps', ?_, hl'⟩
    have hmax : ¬(argv.length + 1 ≥ MAXARGS) := by
      simp only [List.length_cons] at hlen
      omega
    simp only [execLoop, hstop, Bool.false_eq_true, if_false, peek_snd, gettoken_skipWs, hr₀, hq,
      heq, Tok.ret, hmax, h₂, ok_bind]
    simpa [Cmd.wrap_append] using h'

theorem Backs.complete {ts ts' : List Tok} {c c' : Cmd} (hb : Backs ts c c' ts')
    (hnext : ts'.head? ≠ some .amp) :
    ∀ {fuel ps : ℕ}, lex buf ps = ts → ts.length < fuel →
      ∃ ps', backLoop buf fuel c ps = .ok (c', ps') ∧ lex buf ps' = ts' := by
  induction hb with
  | nil =>
    intro fuel ps hl hf
    obtain ⟨fuel, rfl⟩ : ∃ f, fuel = f + 1 := ⟨fuel - 1, by omega⟩
    have hamp : (peek buf ps [38]).1 = false := peek_one_false (t := .amp) (by simp) (hl ▸ hnext)
    exact ⟨skipWs buf ps, by simp [backLoop, hamp], by rw [lex_skipWs, hl]⟩
  | cons _ ih =>
    intro fuel ps hl hf
    obtain ⟨fuel, rfl⟩ : ∃ f, fuel = f + 1 := ⟨fuel - 1, by omega⟩
    have hamp : (peek buf ps [38]).1 = true := (peek_one (t := .amp) (by simp)).mpr ⟨_, hl⟩
    obtain ⟨hts, -⟩ := gettoken_next hl
    obtain ⟨ps', h', hl'⟩ := ih hnext hts (show _ < fuel by simp only [List.length_cons] at hf; omega)
    exact ⟨ps', by simpa [backLoop, hamp, gettoken_skipWs] using h', hl'⟩

/-! ### The parsers -/

/-- The parser of each nonterminal. -/
def Sym.parse : Sym → List UInt8 → ℕ → ℕ → Except Fail (Cmd × ℕ)
  | .line => parseline
  | .pipe => parsepipe
  | .exec => parseexec

/-- The constant of each parser's fuel bound, as in `halts_parsers`. -/
def Sym.base : Sym → ℕ
  | .line => 4
  | .pipe => 3
  | .exec => 2

/-- On a derivation of `sym` followed by a token of its FOLLOW set, with `sym.base + 4 * n` fuel
for its `n` tokens, the parser returns the derivation's tree and stops after it. -/
def Complete (buf : List UInt8) (sym : Sym) (ts : List Tok) (c : Cmd) (ts' : List Tok) : Prop :=
  ∀ ⦃fuel ps : ℕ⦄, lex buf ps = ts → sym.Follow ts'.head? → sym.base + 4 * ts.length ≤ fuel →
    ∃ ps', sym.parse buf fuel ps = .ok (c, ps') ∧ lex buf ps' = ts'

variable {ts₀ ts₁ ts₂ ts₃ : List Tok} {c c' d : Cmd}

theorem complete_line (hp : Complete buf .pipe ts₀ c ts₁) (hb : Backs ts₁ c c' ts₂) :
    Complete buf .line ts₀ c' ts₂ := by
  intro fuel ps hl hfol hf
  simp only [Sym.base] at hf
  obtain ⟨fuel, rfl⟩ : ∃ f, fuel = f + 1 := ⟨fuel - 1, by omega⟩
  obtain ⟨ps₁, h₁, hl₁⟩ := hp hl (hb.follow hfol.pipe_of_line) (show _ ≤ fuel by simp only [Sym.base]; omega)
  obtain ⟨ps₂, h₂, hl₂⟩ : ∃ ps₂, backLoop buf (buf.length + 1) c ps₁ = .ok (c', ps₂) ∧
      lex buf ps₂ = ts₂ :=
    hb.complete (by rcases hfol with h | h <;> simp [h]) hl₁ (hl₁ ▸ length_lex_lt _)
  -- a `line` is followed by no `;`
  have hsemi : (peek buf ps₂ [59]).1 = false :=
    peek_one_false (t := .semi) (by simp) (by rw [hl₂]; rcases hfol with h | h <;> simp [h])
  refine ⟨skipWs buf ps₂, ?_, by rw [lex_skipWs, hl₂]⟩
  simp only [Sym.parse] at h₁ ⊢
  simp [parseline, h₁, h₂, ok_bind, hsemi, pure, Except.pure]

theorem complete_list (hp : Complete buf .pipe ts₀ c ts₁) (hd : Derives .pipe ts₀ c ts₁)
    (hb : Backs ts₁ c c' (.semi :: ts₂)) (hl : Complete buf .line ts₂ d ts₃) :
    Complete buf .line ts₀ (.list c' d) ts₃ := by
  intro fuel ps hl₀ hfol hf
  simp only [Sym.base] at hf
  obtain ⟨fuel, rfl⟩ : ∃ f, fuel = f + 1 := ⟨fuel - 1, by omega⟩
  obtain ⟨ps₁, h₁, hl₁⟩ := hp hl₀ (hb.follow (by simp [Sym.Follow])) (show _ ≤ fuel by simp only [Sym.base]; omega)
  obtain ⟨ps₂, h₂, hl₂⟩ : ∃ ps₂, backLoop buf (buf.length + 1) c ps₁ = .ok (c', ps₂) ∧
      lex buf ps₂ = .semi :: ts₂ :=
    hb.complete (by simp) hl₁ (hl₁ ▸ length_lex_lt _)
  have hsemi : (peek buf ps₂ [59]).1 = true := (peek_one (t := .semi) (by simp)).mpr ⟨_, hl₂⟩
  obtain ⟨hts₂, -⟩ := gettoken_next hl₂
  -- the rest of the line has fewer tokens: the `;` at least is gone
  have hlen : ts₂.length + 1 ≤ ts₀.length := by
    have h₁ := hd.length_le
    have h₂ := hb.suffix.length_le
    simp only [List.length_cons] at h₂
    omega
  obtain ⟨ps₃, h₃, hl₃⟩ := hl hts₂ hfol (show _ ≤ fuel by simp only [Sym.base]; omega)
  refine ⟨ps₃, ?_, hl₃⟩
  simp only [Sym.parse] at h₁ h₃ ⊢
  simp [parseline, h₁, h₂, ok_bind, hsemi, h₃, pure, Except.pure]

theorem complete_exec (he : Complete buf .exec ts₀ c ts₁) : Complete buf .pipe ts₀ c ts₁ := by
  intro fuel ps hl hfol hf
  simp only [Sym.base] at hf
  obtain ⟨fuel, rfl⟩ : ∃ f, fuel = f + 1 := ⟨fuel - 1, by omega⟩
  obtain ⟨ps₁, h₁, hl₁⟩ := he hl hfol.exec_of_pipe (show _ ≤ fuel by simp only [Sym.base]; omega)
  -- a `pipe` is followed by no `|`
  have hbar : (peek buf ps₁ [124]).1 = false :=
    peek_one_false (t := .pipe) (by simp) (by rw [hl₁]; rcases hfol with h | h | h | h <;> simp [h])
  refine ⟨skipWs buf ps₁, ?_, by rw [lex_skipWs, hl₁]⟩
  simp only [Sym.parse] at h₁ ⊢
  simp [parsepipe, h₁, ok_bind, hbar, pure, Except.pure]

theorem complete_pipe (he : Complete buf .exec ts₀ c (.pipe :: ts₁))
    (hd : Derives .exec ts₀ c (.pipe :: ts₁)) (hp : Complete buf .pipe ts₁ d ts₂) :
    Complete buf .pipe ts₀ (.pipe c d) ts₂ := by
  intro fuel ps hl hfol hf
  simp only [Sym.base] at hf
  obtain ⟨fuel, rfl⟩ : ∃ f, fuel = f + 1 := ⟨fuel - 1, by omega⟩
  obtain ⟨ps₁, h₁, hl₁⟩ := he hl (by simp [Sym.Follow]) (show _ ≤ fuel by simp only [Sym.base]; omega)
  have hbar : (peek buf ps₁ [124]).1 = true := (peek_one (t := .pipe) (by simp)).mpr ⟨_, hl₁⟩
  obtain ⟨hts₁, -⟩ := gettoken_next hl₁
  have hlen : ts₁.length + 1 ≤ ts₀.length := by simpa using hd.length_le
  obtain ⟨ps₂, h₂, hl₂⟩ := hp hts₁ hfol (show _ ≤ fuel by simp only [Sym.base]; omega)
  refine ⟨ps₂, ?_, hl₂⟩
  simp only [Sym.parse] at h₁ h₂ ⊢
  simp [parsepipe, h₁, ok_bind, hbar, h₂, pure, Except.pure]

theorem complete_block {rs : List Redir} (hl : Complete buf .line ts₀ c (.rparen :: ts₁))
    (hr : Redirs ts₁ rs ts₂) : Complete buf .exec (.lparen :: ts₀) (c.wrap rs) ts₂ := by
  intro fuel ps hl₀ hfol hf
  simp only [Sym.base, List.length_cons] at hf
  -- `parseexec` sees the `(` and calls `parseblock`, which calls `parseline`
  obtain ⟨fuel, rfl⟩ : ∃ f, fuel = f + 2 := ⟨fuel - 2, by omega⟩
  have hlp : (peek buf ps [40]).1 = true := (peek_one (t := .lparen) (by simp)).mpr ⟨_, hl₀⟩
  obtain ⟨hts₀, -⟩ := gettoken_next hl₀
  obtain ⟨ps₁, h₁, hl₁⟩ := hl hts₀ (by simp [Sym.Follow]) (show _ ≤ fuel by simp only [Sym.base]; omega)
  have hrp : (peek buf ps₁ [41]).1 = true := (peek_one (t := .rparen) (by simp)).mpr ⟨_, hl₁⟩
  obtain ⟨hts₁, -⟩ := gettoken_next hl₁
  obtain ⟨ps₂, h₂, hl₂⟩ : ∃ ps₂, parseredirs buf (buf.length + 1) c (gettoken buf ps₁).2.2.2 =
      .ok (c.wrap rs, ps₂) ∧ lex buf ps₂ = ts₂ :=
    hr.complete hfol.redir_eq_none hts₁ (hts₁ ▸ length_lex_lt _)
  refine ⟨ps₂, ?_, hl₂⟩
  simp only [Sym.parse] at h₁ ⊢
  simp [parseexec, parseblock, hlp, h₁, ok_bind, hrp, h₂]

theorem complete_simple {rs rs' : List Redir} {ws : List (ℕ × ℕ)} (hr : Redirs ts₀ rs ts₁)
    (hw : Words ts₁ ws rs' ts₂) (hlen : ws.length < MAXARGS) :
    Complete buf .exec ts₀ ((Cmd.exec ws).wrap (rs ++ rs')) ts₂ := by
  intro fuel ps hl hfol hf
  simp only [Sym.base] at hf
  obtain ⟨fuel, rfl⟩ : ∃ f, fuel = f + 1 := ⟨fuel - 1, by omega⟩
  have hlp : (peek buf ps [40]).1 = false :=
    peek_one_false (t := .lparen) (by simp) (hl ▸ simple_head hr hw hfol)
  -- the redirections before the first word, then the words with theirs
  obtain ⟨ps₁, h₁, hl₁⟩ : ∃ ps₁, parseredirs buf (buf.length + 1) (.exec []) (skipWs buf ps) =
      .ok ((Cmd.exec []).wrap rs, ps₁) ∧ lex buf ps₁ = ts₁ :=
    hr.complete (hw.redir_eq_none hfol) (by rw [lex_skipWs, hl])
      (by rw [← hl, ← lex_skipWs]; exact length_lex_lt _)
  obtain ⟨ps₂, h₂, hl₂⟩ : ∃ ps₂, execLoop buf (buf.length + 1) [] ((Cmd.exec []).wrap rs) ps₁ =
      .ok ([] ++ ws, ((Cmd.exec []).wrap rs).wrap rs', ps₂) ∧ lex buf ps₂ = ts₂ :=
    hw.complete hfol hl₁ (hl₁ ▸ length_lex_lt _) (by simpa using hlen)
  refine ⟨ps₂, ?_, hl₂⟩
  simp only [Sym.parse]
  simp [parseexec, hlp, h₁, ok_bind, h₂, pure, Except.pure, Cmd.setArgv_wrap, Cmd.wrap_append,
    Cmd.setArgv]

/-- Completeness: every derivation, followed by a token of its FOLLOW set, is parsed. -/
theorem Derives.complete {s : Sym} {ts ts' : List Tok} {c : Cmd} (hd : Derives s ts c ts') :
    Complete buf s ts c ts' := by
  induction hd with
  | line _ hb ihp => exact complete_line ihp hb
  | list hp hb _ ihp ihl => exact complete_list ihp hp hb ihl
  | exec _ ihe => exact complete_exec ihe
  | pipe he _ ihe ihp => exact complete_pipe ihe he ihp
  | block _ hr ihl => exact complete_block ihl hr
  | simple hr hw hlen => exact complete_simple hr hw hlen

/-! ### `nulterminate` -/

theorem foldl_update_apply (argv : List (ℕ × ℕ)) (mem : ℕ → UInt8) (i : ℕ) :
    argv.foldl (fun m w => Function.update m w.2 0) mem i =
      if i ∈ argv.map Prod.snd then 0 else mem i := by
  induction argv generalizing mem with
  | nil => simp
  | cons w argv ih =>
    rw [List.foldl_cons, ih]
    by_cases h : i ∈ argv.map Prod.snd <;> by_cases hw : i = w.2 <;> simp [h, hw]

/-- `nulterminate` writes a NUL at the end of every word of the tree, and nowhere else. -/
theorem nulterminate_apply (c : Cmd) (mem : ℕ → UInt8) (i : ℕ) :
    nulterminate c mem i = if i ∈ c.words.map Prod.snd then 0 else mem i := by
  induction c generalizing mem with
  | exec argv => exact foldl_update_apply argv mem i
  | redir c file efile mode fd ih =>
    rw [nulterminate, Function.update_apply, ih]
    by_cases h : i ∈ c.words.map Prod.snd <;> by_cases he : i = efile <;> simp [Cmd.words, h, he]
  | pipe l r ihl ihr =>
    rw [nulterminate, ihr, ihl]
    by_cases hl : i ∈ l.words.map Prod.snd <;> by_cases hr : i ∈ r.words.map Prod.snd <;>
      simp [Cmd.words, hl, hr]
  | list l r ihl ihr =>
    rw [nulterminate, ihr, ihl]
    by_cases hl : i ∈ l.words.map Prod.snd <;> by_cases hr : i ∈ r.words.map Prod.snd <;>
      simp [Cmd.words, hl, hr]
  | back c ih => rw [nulterminate, ih, Cmd.words]

/-- After `nulterminate`, a word of a tree whose words are word tokens of a NUL-free line reads
as the token's bytes, none of them NUL, then a NUL: the end of another word never falls inside a
word, as a word's bytes are word bytes and the byte after one is not. -/
theorem nulterminate_words (h0 : 0 ∉ buf) {c : Cmd}
    (hc : ∀ w ∈ c.words, Tok.word w.1 w.2 ∈ lex buf 0) :
    ∀ w ∈ c.words, nulterminate c (charAt buf) w.2 = 0 ∧
      ∀ i, w.1 ≤ i → i < w.2 →
        nulterminate c (charAt buf) i = charAt buf i ∧ charAt buf i ≠ 0 := by
  intro w hw
  refine ⟨by rw [nulterminate_apply, if_pos (List.mem_map_of_mem hw)], fun i hi hie => ?_⟩
  obtain ⟨hne, hword⟩ := (word_mem_lex h0 rfl (hc w hw)).1 i hi hie
  refine ⟨?_, hne⟩
  rw [nulterminate_apply, if_neg]
  rintro him
  obtain ⟨w', hw', rfl⟩ := List.mem_map.mp him
  rcases (word_mem_lex h0 rfl (hc w' hw')).2 with h | h
  · exact hne h
  · rw [h] at hword
    exact Bool.false_ne_true hword

/-! ### `parsecmd` -/

/-- `parsecmd` gives `parseline` fuel for every token of the line. -/
theorem fuel_parsecmd : Sym.line.base + 4 * (lex buf 0).length ≤ 4 * buf.length + 4 := by
  have := length_lex_le (rfl : lex buf 0 = lex buf 0)
  simp only [Sym.base]
  omega

theorem parsecmd_eq_ok {c : Cmd} {m : ℕ → UInt8} :
    parsecmd buf = .ok (c, m) ↔ ∃ ps, parseline buf (4 * buf.length + 4) 0 = .ok (c, ps) ∧
      skipWs buf ps = buf.length ∧ m = nulterminate c (charAt buf) := by
  simp only [parsecmd, bind_eq_ok]
  constructor
  · rintro ⟨⟨c', ps⟩, h, h'⟩
    dsimp only at h'
    split_ifs at h' with hps
    obtain ⟨rfl, rfl⟩ := Prod.mk.inj (pure_eq_ok.mp h')
    exact ⟨ps, h, by simpa using hps, rfl⟩
  · rintro ⟨ps, h, hps, rfl⟩
    exact ⟨(c, ps), h, by simp [hps, pure, Except.pure]⟩

/-- `parsecmd` never runs out of fuel: it returns a tree or panics. -/
theorem parsecmd_ne_outOfFuel : parsecmd buf ≠ .error .outOfFuel := by
  simp only [parsecmd]
  apply bind_ne_error ((halts_parsers _).1 (Nat.zero_le _) fuel_parsecmd)
  intro _ _
  split_ifs
  · simp
  · exact pure_ne_error

/-- What `parsecmd` returns is a derivation of the whole line. -/
theorem derives_of_parsecmd (h0 : 0 ∉ buf) {c : Cmd} {m : ℕ → UInt8}
    (h : parsecmd buf = .ok (c, m)) : Derives .line (lex buf 0) c [] := by
  obtain ⟨ps, hp, hend, -⟩ := parsecmd_eq_ok.mp h
  obtain ⟨hd, hps⟩ := (sound_parsers _).1 hp (Nat.zero_le _)
  rwa [(skipWs_eq_length_iff h0 hps).mp hend] at hd

/-- A derivation of the whole line is what `parsecmd` returns. -/
theorem parsecmd_of_derives (h0 : 0 ∉ buf) {c : Cmd} (hd : Derives .line (lex buf 0) c []) :
    parsecmd buf = .ok (c, nulterminate c (charAt buf)) := by
  obtain ⟨ps, hp, hl⟩ := hd.complete rfl (by simp [Sym.Follow]) fuel_parsecmd
  obtain ⟨-, hps⟩ := (sound_parsers _).1 hp (Nat.zero_le _)
  exact parsecmd_eq_ok.mpr ⟨ps, hp, (skipWs_eq_length_iff h0 hps).mpr hl, rfl⟩

/-- The shell parser accepts exactly its grammar.  On a NUL-free line `parsecmd` returns a tree
or panics; it returns iff the line's tokens derive a `line`; the tree is then that derivation's;
and after `nulterminate` each argv entry and redirection file of it is its word token's bytes
followed by a NUL. -/
theorem parsecmd_accepts_grammar (buf : List UInt8) (h0 : 0 ∉ buf) :
    ((∃ r, parsecmd buf = .ok r) ∨ ∃ msg, parsecmd buf = .error (.panic msg)) ∧
    ((∃ r, parsecmd buf = .ok r) ↔ ∃ c, Derives .line (lex buf 0) c []) ∧
    ∀ c, Derives .line (lex buf 0) c [] →
      ∃ m, parsecmd buf = .ok (c, m) ∧
        ∀ w ∈ c.words, Tok.word w.1 w.2 ∈ lex buf 0 ∧ m w.2 = 0 ∧
          ∀ i, w.1 ≤ i → i < w.2 → m i = charAt buf i ∧ charAt buf i ≠ 0 := by
  refine ⟨?_, ⟨fun ⟨⟨c, m⟩, h⟩ => ⟨c, derives_of_parsecmd h0 h⟩,
    fun ⟨c, hd⟩ => ⟨_, parsecmd_of_derives h0 hd⟩⟩, fun c hd => ?_⟩
  · -- it terminates: the result is a tree or a panic, never a lack of fuel
    rcases h : parsecmd buf with e | r
    · cases e with
      | panic msg => exact .inr ⟨msg, rfl⟩
      | outOfFuel => exact absurd h parsecmd_ne_outOfFuel
    · exact .inl ⟨r, rfl⟩
  · have hw := hd.word_mem
    refine ⟨_, parsecmd_of_derives h0 hd, fun w hmem => ?_⟩
    obtain ⟨hend, hbytes⟩ := nulterminate_words h0 hw w hmem
    exact ⟨hw w hmem, hend, hbytes⟩

/-- The line `a|b` parses to a PIPE of two EXECs, each word then ending in a NUL. -/
theorem parsecmd_accepts_pipe :
    ∃ m, parsecmd [97, 124, 98] = .ok (.pipe (.exec [(0, 1)]) (.exec [(2, 3)]), m) ∧
      m 1 = 0 ∧ m 3 = 0 := by
  have hlex : lex [97, 124, 98] 0 = [.word 0 1, .pipe, .word 2 3] := by decide
  have hd : Derives .line (lex [97, 124, 98] 0) (.pipe (.exec [(0, 1)]) (.exec [(2, 3)])) [] := by
    rw [hlex]
    exact .line (.pipe (.simple .nil (.cons .nil .nil) (by decide))
      (.exec (.simple .nil (.cons .nil .nil) (by decide)))) .nil
  obtain ⟨m, hm, hw⟩ := (parsecmd_accepts_grammar [97, 124, 98] (by decide)).2.2 _ hd
  exact ⟨m, hm, (hw (0, 1) (by simp [Cmd.words])).2.1, (hw (2, 3) (by simp [Cmd.words])).2.1⟩

example : (match parsecmd [97, 40] with | .ok _ => none | .error e => some e) =
    some (.panic "syntax") := by
  decide

end Xv6.Sh
