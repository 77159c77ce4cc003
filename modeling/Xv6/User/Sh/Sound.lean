import Xv6.User.Sh.Grammar

/-!
# What the shell's parser returns is a derivation

Soundness of the parser of `Xv6.Sh.Parse` against the grammar of `Xv6.Sh.Grammar`: a parser that
returns a tree has read a derivation of it, and stops inside the line (`sound_parsers`).  Each
loop has its own lemma (`parseredirs_sound`, `execLoop_sound`, `backLoop_sound`); each of the
four mutually recursive parsers has a step lemma that assumes the parsers it calls are sound at
the fuel it passes them, and `sound_parsers` puts the steps together by induction on the fuel.

With soundness, whatever a parser returns has read a prefix of the tokens, so each call the
parsers make is on fewer tokens, or on as many but one level down the grammar.  That bounds the
fuel: `parseline` with `4 * n + 4` for `n` tokens never runs out (`halts_parsers`).
-/

namespace Xv6.Sh

variable {buf : List UInt8}

theorem bind_eq_ok {ε α β : Type} {x : Except ε α} {f : α → Except ε β} {b : β} :
    x >>= f = .ok b ↔ ∃ a, x = .ok a ∧ f a = .ok b := by
  cases x <;> simp [bind, Except.bind]

theorem pure_eq_ok {ε α : Type} {a b : α} : (pure a : Except ε α) = .ok b ↔ a = b := by
  simp [pure, Except.pure]

theorem Tok.ret_eq_word {t : Tok} (h : t.ret = 97) : ∃ q eq, t = .word q eq := by
  cases t <;> simp_all [Tok.ret]

/-- `peek(ps, es, "<>")` sees exactly the redirection tokens. -/
theorem Tok.isIn_redir (t : Tok) : t.isIn [60, 62] = t.redir.isSome := by
  cases t <;> rfl

/-- The `switch(tok)` of `parseredirs` builds the REDIR node of the token's mode and fd. -/
theorem redir_ret {t : Tok} {mode fd q eq : ℕ} {cmd : Cmd} (h : t.redir = some (mode, fd)) :
    (if t.ret = 60 then Cmd.redir cmd q eq O_RDONLY 0
      else if t.ret = 62 then Cmd.redir cmd q eq (O_WRONLY ||| O_CREATE ||| O_TRUNC) 1
      else if t.ret = 43 then Cmd.redir cmd q eq (O_WRONLY ||| O_CREATE) 1
      else cmd) = Cmd.redir cmd q eq mode fd := by
  cases t <;> simp_all [Tok.redir, Tok.ret]

/-- `gettoken` past a token leaves the rest, inside the line. -/
theorem gettoken_next {t : Tok} {ts : List Tok} {ps : ℕ} (h : lex buf ps = t :: ts) :
    lex buf (gettoken buf ps).2.2.2 = ts ∧ (gettoken buf ps).2.2.2 ≤ buf.length := by
  obtain ⟨hr, hts, -⟩ := gettoken_of_lex_cons h
  exact ⟨hts, (gettoken_progress (hr ▸ t.ret_ne_zero)).2⟩

/-! ### The loops -/

theorem parseredirs_sound : ∀ {fuel : ℕ} {cmd c : Cmd} {ps ps' : ℕ},
    parseredirs buf fuel cmd ps = .ok (c, ps') → ps ≤ buf.length →
      ∃ rs, Redirs (lex buf ps) rs (lex buf ps') ∧ c = cmd.wrap rs ∧ ps' ≤ buf.length
  | 0, _, _, _, _, h, _ => by simp [parseredirs] at h
  | fuel + 1, cmd, c, ps, ps', h, hps => by
    simp only [parseredirs, peek_fst [60, 62] rfl, peek_snd, gettoken_skipWs] at h
    -- where the loop stops, it has read no redirection
    have stop : cmd = c → skipWs buf ps = ps' →
        ∃ rs, Redirs (lex buf ps) rs (lex buf ps') ∧ c = cmd.wrap rs ∧ ps' ≤ buf.length := by
      rintro rfl rfl
      exact ⟨[], by rw [lex_skipWs]; exact .nil, rfl, skipWs_le_length hps⟩
    rcases hl : lex buf ps with _ | ⟨t, ts⟩
    · simp only [hl, List.head?_nil, Option.any_none, Bool.false_eq_true, if_false,
        Except.ok.injEq, Prod.mk.injEq] at h
      exact hl ▸ stop h.1 h.2
    by_cases hin : t.isIn [60, 62] = true
    · obtain ⟨⟨mode, fd⟩, hm⟩ := Option.isSome_iff_exists.mp (t.isIn_redir ▸ hin)
      obtain ⟨hr, hts, -⟩ := gettoken_of_lex_cons hl
      simp only [hl, List.head?_cons, Option.any_some, hin, if_true, hr, redir_ret hm] at h
      -- the file word after the redirection token
      rcases hl₁ : ts with _ | ⟨t₁, ts₁⟩
      · have h0 := gettoken_of_lex_nil (hts.trans hl₁)
        simp [h0] at h
      obtain ⟨hr₁, hts₁, hw⟩ := gettoken_of_lex_cons (hts.trans hl₁)
      by_cases h97 : t₁.ret = 97
      · obtain ⟨q, eq, rfl⟩ := Tok.ret_eq_word h97
        obtain ⟨hq, heq⟩ := hw q eq rfl
        simp only [hr₁, h97, ne_eq, not_true_eq_false, if_false, hq, heq] at h
        obtain ⟨rs, hrs, rfl, hps'⟩ := parseredirs_sound h (gettoken_next (hts.trans hl₁)).2
        exact ⟨⟨q, eq, mode, fd⟩ :: rs, .cons hm (hts₁ ▸ hrs), rfl, hps'⟩
      · simp [hr₁, h97] at h
    · simp only [hl, List.head?_cons, Option.any_some, hin, Bool.false_eq_true, if_false,
        Except.ok.injEq, Prod.mk.injEq] at h
      exact hl ▸ stop h.1 h.2

theorem execLoop_sound : ∀ {fuel : ℕ} {argv argv' : List (ℕ × ℕ)} {ret ret' : Cmd} {ps ps' : ℕ},
    execLoop buf fuel argv ret ps = .ok (argv', ret', ps') → ps ≤ buf.length →
      argv.length < MAXARGS →
      ∃ ws rs, Words (lex buf ps) ws rs (lex buf ps') ∧ argv' = argv ++ ws ∧
        ret' = ret.wrap rs ∧ argv'.length < MAXARGS ∧ ps' ≤ buf.length
  | 0, _, _, _, _, _, _, h, _, _ => by simp [execLoop] at h
  | fuel + 1, argv, argv', ret, ret', ps, ps', h, hps, hargv => by
    simp only [execLoop, peek_fst [124, 41, 38, 59] rfl, peek_snd, gettoken_skipWs] at h
    -- where the loop stops, it has read no word
    have stop : argv = argv' → ret = ret' → skipWs buf ps = ps' →
        ∃ ws rs, Words (lex buf ps) ws rs (lex buf ps') ∧ argv' = argv ++ ws ∧
          ret' = ret.wrap rs ∧ argv'.length < MAXARGS ∧ ps' ≤ buf.length := by
      rintro rfl rfl rfl
      exact ⟨[], [], by rw [lex_skipWs]; exact .nil, by simp, rfl, hargv, skipWs_le_length hps⟩
    split_ifs at h with hstop h0 h97 hmax
    · simp only [Except.ok.injEq, Prod.mk.injEq] at h
      exact stop h.1 h.2.1 h.2.2
    · simp only [Except.ok.injEq, Prod.mk.injEq] at h
      exact stop h.1 h.2.1 (h.2.2 ▸ (gettoken_of_ret_eq_zero h0).symm)
    -- a word: its redirections, then the rest of the loop
    obtain ⟨⟨ret₁, ps₂⟩, h₁, h₂⟩ := bind_eq_ok.mp h
    rcases hl : lex buf ps with _ | ⟨t, ts⟩
    · exact absurd (gettoken_of_lex_nil hl) h0
    obtain ⟨hr, hts, hw⟩ := gettoken_of_lex_cons hl
    obtain ⟨q, eq, rfl⟩ := Tok.ret_eq_word (hr ▸ not_not.mp h97)
    obtain ⟨hq, heq⟩ := hw q eq rfl
    rw [hq, heq] at h₂
    obtain ⟨rs, hrs, rfl, hps₂⟩ := parseredirs_sound h₁ (gettoken_next hl).2
    obtain ⟨ws, rs', hws, rfl, rfl, hlen, hps'⟩ :=
      execLoop_sound h₂ hps₂ (by simp only [List.length_append, List.length_singleton]; omega)
    refine ⟨(q, eq) :: ws, rs ++ rs', .cons (hts ▸ hrs) hws, by simp, ?_, hlen, hps'⟩
    rw [Cmd.wrap_append]

theorem backLoop_sound : ∀ {fuel : ℕ} {cmd c : Cmd} {ps ps' : ℕ},
    backLoop buf fuel cmd ps = .ok (c, ps') → ps ≤ buf.length →
      Backs (lex buf ps) cmd c (lex buf ps') ∧ ps' ≤ buf.length
  | 0, _, _, _, _, h, _ => by simp [backLoop] at h
  | fuel + 1, cmd, c, ps, ps', h, hps => by
    simp only [backLoop, peek_snd, gettoken_skipWs] at h
    split_ifs at h with hamp
    · obtain ⟨ts, hts⟩ := (peek_one (t := .amp) (by simp)).mp hamp
      obtain ⟨hts', hps₁⟩ := gettoken_next hts
      obtain ⟨hb, hps'⟩ := backLoop_sound h hps₁
      exact ⟨hts ▸ .cons (hts' ▸ hb), hps'⟩
    · simp only [Except.ok.injEq, Prod.mk.injEq] at h
      obtain ⟨rfl, rfl⟩ := h
      exact ⟨by rw [lex_skipWs]; exact .nil, skipWs_le_length hps⟩

/-! ### The parsers -/

/-- A parser of `sym` that returns has read a derivation of `sym`, and stops inside the line. -/
def Sound (buf : List UInt8) (sym : Sym) (f : ℕ → Except Fail (Cmd × ℕ)) : Prop :=
  ∀ ⦃ps : ℕ⦄ ⦃c : Cmd⦄ ⦃ps' : ℕ⦄, f ps = .ok (c, ps') → ps ≤ buf.length →
    Derives sym (lex buf ps) c (lex buf ps') ∧ ps' ≤ buf.length

variable {fuel : ℕ}

theorem sound_parseline (hp : Sound buf .pipe (parsepipe buf fuel))
    (hl : Sound buf .line (parseline buf fuel)) : Sound buf .line (parseline buf (fuel + 1)) := by
  intro ps c ps' h hps
  simp only [parseline] at h
  obtain ⟨⟨c₁, ps₁⟩, h₁, h⟩ := bind_eq_ok.mp h
  obtain ⟨⟨c₂, ps₂⟩, h₂, h⟩ := bind_eq_ok.mp h
  dsimp only at h₂ h
  obtain ⟨hd₁, hps₁⟩ := hp h₁ hps
  obtain ⟨hb₂, hps₂⟩ := backLoop_sound h₂ hps₁
  simp only [peek_snd, gettoken_skipWs] at h
  split_ifs at h with hsemi
  · -- `;` and the rest of the line
    obtain ⟨ts, hts⟩ := (peek_one (t := .semi) (by simp)).mp hsemi
    obtain ⟨hts', hps₃⟩ := gettoken_next hts
    obtain ⟨⟨d, ps₄⟩, h₃, h⟩ := bind_eq_ok.mp h
    obtain ⟨rfl, rfl⟩ := Prod.mk.inj (pure_eq_ok.mp h)
    obtain ⟨hd₃, hps₄⟩ := hl h₃ hps₃
    exact ⟨.list hd₁ (hts ▸ hb₂) (hts' ▸ hd₃), hps₄⟩
  · obtain ⟨rfl, rfl⟩ := Prod.mk.inj (pure_eq_ok.mp h)
    rw [lex_skipWs]
    exact ⟨.line hd₁ hb₂, skipWs_le_length hps₂⟩

theorem sound_parsepipe (he : Sound buf .exec (parseexec buf fuel))
    (hp : Sound buf .pipe (parsepipe buf fuel)) : Sound buf .pipe (parsepipe buf (fuel + 1)) := by
  intro ps c ps' h hps
  simp only [parsepipe] at h
  obtain ⟨⟨c₁, ps₁⟩, h₁, h⟩ := bind_eq_ok.mp h
  dsimp only at h
  obtain ⟨hd₁, hps₁⟩ := he h₁ hps
  simp only [peek_snd, gettoken_skipWs] at h
  split_ifs at h with hbar
  · -- `|` and the rest of the pipeline
    obtain ⟨ts, hts⟩ := (peek_one (t := .pipe) (by simp)).mp hbar
    obtain ⟨hts', hps₂⟩ := gettoken_next hts
    obtain ⟨⟨d, ps₃⟩, h₂, h⟩ := bind_eq_ok.mp h
    obtain ⟨rfl, rfl⟩ := Prod.mk.inj (pure_eq_ok.mp h)
    obtain ⟨hd₂, hps₃⟩ := hp h₂ hps₂
    exact ⟨.pipe (hts ▸ hd₁) (hts' ▸ hd₂), hps₃⟩
  · obtain ⟨rfl, rfl⟩ := Prod.mk.inj (pure_eq_ok.mp h)
    rw [lex_skipWs]
    exact ⟨.exec hd₁, skipWs_le_length hps₁⟩

theorem sound_parseblock (hl : Sound buf .line (parseline buf fuel)) :
    Sound buf .exec (parseblock buf (fuel + 1)) := by
  intro ps c ps' h hps
  simp only [parseblock, peek_snd, gettoken_skipWs] at h
  split_ifs at h with hlp
  -- `(`, the line, `)`, and the redirections after the block
  obtain ⟨ts, hts⟩ := (peek_one (t := .lparen) (by simp)).mp
    (show (peek buf ps [40]).1 = true by simpa using hlp)
  obtain ⟨hts', hps₁⟩ := gettoken_next hts
  obtain ⟨⟨c₁, ps₂⟩, h₁, h⟩ := bind_eq_ok.mp h
  dsimp only at h
  obtain ⟨hd₁, hps₂⟩ := hl h₁ hps₁
  split_ifs at h with hrp
  obtain ⟨ts₂, hts₂⟩ := (peek_one (t := .rparen) (by simp)).mp
    (show (peek buf ps₂ [41]).1 = true by simpa using hrp)
  obtain ⟨hts₂', hps₃⟩ := gettoken_next hts₂
  obtain ⟨rs, hrs, rfl, hps'⟩ := parseredirs_sound h hps₃
  rw [hts]
  exact ⟨.block (hts' ▸ hts₂ ▸ hd₁) (hts₂' ▸ hrs), hps'⟩

theorem sound_parseexec (hb : Sound buf .exec (parseblock buf fuel)) :
    Sound buf .exec (parseexec buf (fuel + 1)) := by
  intro ps c ps' h hps
  simp only [parseexec, peek_snd] at h
  split_ifs at h with hlp
  · rw [← lex_skipWs]
    exact hb h (skipWs_le_length hps)
  -- a simple command: redirections, then the words with theirs
  obtain ⟨⟨r₁, ps₁⟩, h₁, h⟩ := bind_eq_ok.mp h
  obtain ⟨⟨argv, r₂, ps₂⟩, h₂, h⟩ := bind_eq_ok.mp h
  dsimp only at h₂ h
  obtain ⟨rfl, rfl⟩ := Prod.mk.inj (pure_eq_ok.mp h)
  obtain ⟨rs, hrs, rfl, hps₁⟩ := parseredirs_sound h₁ (skipWs_le_length hps)
  obtain ⟨ws, rs', hws, rfl, rfl, hlen, hps₂⟩ := execLoop_sound h₂ hps₁ (by decide)
  refine ⟨?_, hps₂⟩
  rw [Cmd.setArgv_wrap, Cmd.setArgv_wrap, ← Cmd.wrap_append, ← lex_skipWs]
  exact .simple hrs hws hlen

/-- Every parser is sound at every fuel. -/
theorem sound_parsers : ∀ fuel : ℕ,
    Sound buf .line (parseline buf fuel) ∧ Sound buf .pipe (parsepipe buf fuel) ∧
      Sound buf .exec (parseexec buf fuel) ∧ Sound buf .exec (parseblock buf fuel)
  | 0 => ⟨fun _ _ _ h => by simp [parseline] at h, fun _ _ _ h => by simp [parsepipe] at h,
      fun _ _ _ h => by simp [parseexec] at h, fun _ _ _ h => by simp [parseblock] at h⟩
  | fuel + 1 =>
    have ⟨hl, hp, he, hb⟩ := sound_parsers fuel
    ⟨sound_parseline hp hl, sound_parsepipe he hp, sound_parseexec hb, sound_parseblock hl⟩

/-! ### Enough fuel -/

theorem bind_ne_error {ε α β : Type} {x : Except ε α} {f : α → Except ε β} {e : ε}
    (hx : x ≠ .error e) (hf : ∀ a, x = .ok a → f a ≠ .error e) : x >>= f ≠ .error e := by
  cases x with
  | error e' => simpa [bind, Except.bind] using hx
  | ok a => simpa [bind, Except.bind] using hf a rfl

theorem pure_ne_error {ε α : Type} {a : α} {e : ε} : (pure a : Except ε α) ≠ .error e := by
  simp [pure, Except.pure]

theorem Derives.length_le {s : Sym} {ts ts' : List Tok} {c : Cmd} (h : Derives s ts c ts') :
    ts'.length ≤ ts.length :=
  h.suffix.length_le

/-- The loops' fuel, `buf.length + 1`, is more than the tokens left. -/
theorem length_lex_lt (ps : ℕ) : (lex buf ps).length < buf.length + 1 := by
  have := length_lex_le (rfl : lex buf ps = lex buf ps)
  omega

/-- Each round of `parseredirs` reads two tokens, or panics. -/
theorem parseredirs_halts : ∀ {fuel : ℕ} {cmd : Cmd} {ps : ℕ}, (lex buf ps).length < fuel →
    parseredirs buf fuel cmd ps ≠ .error .outOfFuel
  | 0, _, _, hf => absurd hf (Nat.not_lt_zero _)
  | fuel + 1, cmd, ps, hf => by
    simp only [parseredirs, peek_snd, gettoken_skipWs]
    by_cases hin : (peek buf ps [60, 62]).1 = true
    · rw [if_pos hin]
      by_cases h97 : (gettoken buf (gettoken buf ps).2.2.2).1 ≠ 97
      · rw [if_pos h97]
        simp
      rw [if_neg h97]
      -- the redirection token and its word: two tokens fewer
      rcases hl : lex buf ps with _ | ⟨t, ts⟩
      · simp [peek_fst [60, 62] rfl, hl] at hin
      obtain ⟨hts, -⟩ := gettoken_next hl
      rcases hl₁ : ts with _ | ⟨t₁, ts₁⟩
      · exact absurd (gettoken_of_lex_nil (hts.trans hl₁) ▸ not_not.mp h97) (by decide)
      obtain ⟨hts₁, -⟩ := gettoken_next (hts.trans hl₁)
      apply parseredirs_halts
      rw [hts₁]
      rw [hl, hl₁] at hf
      simp only [List.length_cons] at hf
      omega
    · rw [if_neg hin]
      simp

/-- Each round of the word loop reads a word, or stops, or panics. -/
theorem execLoop_halts : ∀ {fuel : ℕ} {argv : List (ℕ × ℕ)} {ret : Cmd} {ps : ℕ},
    ps ≤ buf.length → (lex buf ps).length < fuel →
    execLoop buf fuel argv ret ps ≠ .error .outOfFuel
  | 0, _, _, _, _, hf => absurd hf (Nat.not_lt_zero _)
  | fuel + 1, argv, ret, ps, hps, hf => by
    simp only [execLoop, peek_snd, gettoken_skipWs]
    split_ifs with hstop h0 h97 hmax
    all_goals try simp
    rcases hl : lex buf ps with _ | ⟨t, ts⟩
    · exact absurd (gettoken_of_lex_nil hl) h0
    obtain ⟨hts, hps₁⟩ := gettoken_next hl
    apply bind_ne_error (parseredirs_halts (length_lex_lt _))
    rintro ⟨ret₁, ps₂⟩ h₁
    obtain ⟨rs, hrs, -, hps₂⟩ := parseredirs_sound h₁ hps₁
    apply execLoop_halts hps₂
    have := hrs.suffix.length_le
    rw [hts] at this
    rw [hl] at hf
    simp only [List.length_cons] at hf
    omega

theorem backLoop_halts : ∀ {fuel : ℕ} {cmd : Cmd} {ps : ℕ}, (lex buf ps).length < fuel →
    backLoop buf fuel cmd ps ≠ .error .outOfFuel
  | 0, _, _, hf => absurd hf (Nat.not_lt_zero _)
  | fuel + 1, cmd, ps, hf => by
    simp only [backLoop, peek_snd, gettoken_skipWs]
    split_ifs with hamp
    · obtain ⟨ts, hts⟩ := (peek_one (t := .amp) (by simp)).mp hamp
      obtain ⟨hts', -⟩ := gettoken_next hts
      apply backLoop_halts
      rw [hts']
      rw [hts] at hf
      simp only [List.length_cons] at hf
      omega
    · simp

/-- With `k + 4 * n` fuel for the `n` tokens left, the parser does not run out. -/
def Halts (buf : List UInt8) (k : ℕ) (f : ℕ → ℕ → Except Fail (Cmd × ℕ)) (fuel : ℕ) : Prop :=
  ∀ ⦃ps : ℕ⦄, ps ≤ buf.length → k + 4 * (lex buf ps).length ≤ fuel → f fuel ps ≠ .error .outOfFuel

theorem halts_parseline (hp : Halts buf 3 (parsepipe buf) fuel)
    (hl : Halts buf 4 (parseline buf) fuel) : Halts buf 4 (parseline buf) (fuel + 1) := by
  intro ps hps hf
  simp only [parseline]
  apply bind_ne_error (hp hps (by omega))
  rintro ⟨c₁, ps₁⟩ h₁
  obtain ⟨hd₁, hps₁⟩ := (sound_parsers fuel).2.1 h₁ hps
  apply bind_ne_error (backLoop_halts (length_lex_lt _))
  rintro ⟨c₂, ps₂⟩ h₂
  obtain ⟨hb₂, -⟩ := backLoop_sound h₂ hps₁
  dsimp only
  simp only [peek_snd, gettoken_skipWs]
  split_ifs with hsemi
  · obtain ⟨ts, hts⟩ := (peek_one (t := .semi) (by simp)).mp hsemi
    obtain ⟨hts', hps₃⟩ := gettoken_next hts
    apply bind_ne_error (hl hps₃ ?_)
    · exact fun _ _ => pure_ne_error
    -- the rest of the line, after the `;`, has fewer tokens
    have hle₁ := hd₁.length_le
    have hle₂ := hb₂.suffix.length_le
    rw [hts] at hle₂
    rw [hts']
    simp only [List.length_cons] at hle₂
    omega
  · exact pure_ne_error

theorem halts_parsepipe (he : Halts buf 2 (parseexec buf) fuel)
    (hp : Halts buf 3 (parsepipe buf) fuel) : Halts buf 3 (parsepipe buf) (fuel + 1) := by
  intro ps hps hf
  simp only [parsepipe]
  apply bind_ne_error (he hps (by omega))
  rintro ⟨c₁, ps₁⟩ h₁
  obtain ⟨hd₁, -⟩ := (sound_parsers fuel).2.2.1 h₁ hps
  dsimp only
  simp only [peek_snd, gettoken_skipWs]
  split_ifs with hbar
  · obtain ⟨ts, hts⟩ := (peek_one (t := .pipe) (by simp)).mp hbar
    obtain ⟨hts', hps₂⟩ := gettoken_next hts
    apply bind_ne_error (hp hps₂ ?_)
    · exact fun _ _ => pure_ne_error
    -- the rest of the pipeline, after the `|`, has fewer tokens
    have hle := hd₁.length_le
    rw [hts] at hle
    rw [hts']
    simp only [List.length_cons] at hle
    omega
  · exact pure_ne_error

theorem halts_parseblock (hl : Halts buf 4 (parseline buf) fuel) :
    Halts buf 1 (parseblock buf) (fuel + 1) := by
  intro ps hps hf
  simp only [parseblock, peek_snd, gettoken_skipWs]
  split_ifs with hlp
  · simp
  obtain ⟨ts, hts⟩ := (peek_one (t := .lparen) (by simp)).mp
    (show (peek buf ps [40]).1 = true by simpa using hlp)
  obtain ⟨hts', hps₁⟩ := gettoken_next hts
  apply bind_ne_error (hl hps₁ ?_)
  · rintro ⟨c₁, ps₂⟩ -
    dsimp only
    split_ifs
    · simp
    · exact parseredirs_halts (length_lex_lt _)
  -- the line inside the block has one token fewer, the `(`
  rw [hts']
  rw [hts] at hf
  simp only [List.length_cons] at hf
  omega

theorem halts_parseexec (hb : Halts buf 1 (parseblock buf) fuel) :
    Halts buf 2 (parseexec buf) (fuel + 1) := by
  intro ps hps hf
  simp only [parseexec, peek_snd]
  split_ifs with hlp
  · exact hb (skipWs_le_length hps) (by rw [lex_skipWs]; omega)
  apply bind_ne_error (parseredirs_halts (length_lex_lt _))
  rintro ⟨r₁, ps₁⟩ h₁
  obtain ⟨-, -, -, hps₁⟩ := parseredirs_sound h₁ (skipWs_le_length hps)
  apply bind_ne_error (execLoop_halts hps₁ (length_lex_lt _))
  exact fun _ _ => pure_ne_error

/-- The parsers need at most four calls of fuel per token: each call either reads a token or
goes one level down the grammar, `line` to `pipe` to `exec` to `block`. -/
theorem halts_parsers : ∀ fuel : ℕ,
    Halts buf 4 (parseline buf) fuel ∧ Halts buf 3 (parsepipe buf) fuel ∧
      Halts buf 2 (parseexec buf) fuel ∧ Halts buf 1 (parseblock buf) fuel
  | 0 => ⟨fun _ _ h => by omega, fun _ _ h => by omega, fun _ _ h => by omega,
      fun _ _ h => by omega⟩
  | fuel + 1 =>
    have ⟨hl, hp, he, hb⟩ := halts_parsers fuel
    ⟨halts_parseline hp hl, halts_parsepipe he hp, halts_parseexec hb, halts_parseblock hl⟩

end Xv6.Sh
