import Xv6.User.Sh.Parse

/-!
# The grammar the shell parses

The grammar of the command language of `user/sh.c`, over the tokens of `Xv6.Sh.Lex`:

    line   ::= pipe {'&'} [';' line]
    pipe   ::= exec ['|' pipe]
    exec   ::= '(' line ')' redirs  |  redirs {WORD redirs}
    redirs ::= {('<' | '>' | '>>') WORD}

`Derives sym ts c ts'` says that the tokens `ts` start with a `sym` whose tree is `c`, and that
`ts'` is left after it: a difference list, so a derivation says how much input it takes.  The
tree is the one `parsecmd` builds: LIST and PIPE nested to the right, a BACK node
for each `&`, a REDIR node for each redirection in textual order with the first innermost
(`Cmd.wrap`), and no node for a block's parentheses.  A simple command has at most
`MAXARGS - 1` words.

The lemmas here are about the grammar alone: a derivation takes a prefix of its input
(`Derives.suffix`), and every word of its tree is a word token of that input
(`Derives.word_mem`).
-/

namespace Xv6.Sh

/-- A redirection: the bounds of the file word, and the `open` mode and fd. -/
structure Redir where
  file : ℕ
  efile : ℕ
  mode : ℕ
  fd : ℕ
  deriving DecidableEq, Repr

/-- `c` wrapped in a REDIR node for each of `rs`, the first innermost. -/
def Cmd.wrap : Cmd → List Redir → Cmd
  | c, [] => c
  | c, r :: rs => (Cmd.redir c r.file r.efile r.mode r.fd).wrap rs

/-- The words of a tree, argv entries and redirection files, as (start, end) positions. -/
def Cmd.words : Cmd → List (ℕ × ℕ)
  | .exec argv => argv
  | .redir c file efile _ _ => c.words ++ [(file, efile)]
  | .pipe l r => l.words ++ r.words
  | .list l r => l.words ++ r.words
  | .back c => c.words

/-- The mode and fd of a redirection token: `<` reads fd 0, `>` truncates and `>>` appends to
fd 1. -/
def Tok.redir : Tok → Option (ℕ × ℕ)
  | .lt => some (O_RDONLY, 0)
  | .gt => some (O_WRONLY ||| O_CREATE ||| O_TRUNC, 1)
  | .gtgt => some (O_WRONLY ||| O_CREATE, 1)
  | _ => none

/-- `redirs ::= {('<' | '>' | '>>') WORD}`, with the redirections in textual order. -/
inductive Redirs : List Tok → List Redir → List Tok → Prop
  | nil {ts : List Tok} : Redirs ts [] ts
  | cons {t : Tok} {q eq mode fd : ℕ} {ts ts' : List Tok} {rs : List Redir} :
      t.redir = some (mode, fd) → Redirs ts rs ts' →
      Redirs (t :: .word q eq :: ts) (⟨q, eq, mode, fd⟩ :: rs) ts'

/-- `{WORD redirs}`: the words of a simple command, and the redirections among them. -/
inductive Words : List Tok → List (ℕ × ℕ) → List Redir → List Tok → Prop
  | nil {ts : List Tok} : Words ts [] [] ts
  | cons {q eq : ℕ} {ts ts' ts'' : List Tok} {rs rs' : List Redir} {ws : List (ℕ × ℕ)} :
      Redirs ts rs ts' → Words ts' ws rs' ts'' →
      Words (.word q eq :: ts) ((q, eq) :: ws) (rs ++ rs') ts''

/-- `{'&'}`: each `&` wraps the command so far in a BACK node. -/
inductive Backs : List Tok → Cmd → Cmd → List Tok → Prop
  | nil {ts : List Tok} {c : Cmd} : Backs ts c c ts
  | cons {ts ts' : List Tok} {c c' : Cmd} : Backs ts (.back c) c' ts' → Backs (.amp :: ts) c c' ts'

/-- The nonterminals `line`, `pipe` and `exec`. -/
inductive Sym where
  | line
  | pipe
  | exec
  deriving DecidableEq

/-- The derivations of the grammar, with their trees. -/
inductive Derives : Sym → List Tok → Cmd → List Tok → Prop
  /-- `line ::= pipe {'&'}` -/
  | line {ts₀ ts₁ ts₂ : List Tok} {c c' : Cmd} :
      Derives .pipe ts₀ c ts₁ → Backs ts₁ c c' ts₂ → Derives .line ts₀ c' ts₂
  /-- `line ::= pipe {'&'} ';' line` -/
  | list {ts₀ ts₁ ts₂ ts₃ : List Tok} {c c' d : Cmd} :
      Derives .pipe ts₀ c ts₁ → Backs ts₁ c c' (.semi :: ts₂) → Derives .line ts₂ d ts₃ →
      Derives .line ts₀ (.list c' d) ts₃
  /-- `pipe ::= exec` -/
  | exec {ts₀ ts₁ : List Tok} {c : Cmd} : Derives .exec ts₀ c ts₁ → Derives .pipe ts₀ c ts₁
  /-- `pipe ::= exec '|' pipe` -/
  | pipe {ts₀ ts₁ ts₂ : List Tok} {c d : Cmd} :
      Derives .exec ts₀ c (.pipe :: ts₁) → Derives .pipe ts₁ d ts₂ →
      Derives .pipe ts₀ (.pipe c d) ts₂
  /-- `exec ::= '(' line ')' redirs` -/
  | block {ts₀ ts₁ ts₂ : List Tok} {c : Cmd} {rs : List Redir} :
      Derives .line ts₀ c (.rparen :: ts₁) → Redirs ts₁ rs ts₂ →
      Derives .exec (.lparen :: ts₀) (c.wrap rs) ts₂
  /-- `exec ::= redirs {WORD redirs}`, with at most `MAXARGS - 1` words -/
  | simple {ts₀ ts₁ ts₂ : List Tok} {rs rs' : List Redir} {ws : List (ℕ × ℕ)} :
      Redirs ts₀ rs ts₁ → Words ts₁ ws rs' ts₂ → ws.length < MAXARGS →
      Derives .exec ts₀ ((Cmd.exec ws).wrap (rs ++ rs')) ts₂

/-! ### Trees -/

namespace Cmd

theorem wrap_append (c : Cmd) (rs rs' : List Redir) : c.wrap (rs ++ rs') = (c.wrap rs).wrap rs' := by
  induction rs generalizing c with
  | nil => rfl
  | cons r rs ih => exact ih _

/-- Writing argv through the pointer to the bottom of a REDIR chain. -/
theorem setArgv_wrap (c : Cmd) (rs : List Redir) (argv : List (ℕ × ℕ)) :
    (c.wrap rs).setArgv argv = (c.setArgv argv).wrap rs := by
  induction rs generalizing c with
  | nil => rfl
  | cons r rs ih => exact ih _

theorem words_wrap (c : Cmd) (rs : List Redir) :
    (c.wrap rs).words = c.words ++ rs.map fun r => (r.file, r.efile) := by
  induction rs generalizing c with
  | nil => simp [wrap]
  | cons r rs ih => simp [wrap, ih, words]

end Cmd

/-! ### Derivations take a prefix of their input -/

theorem Redirs.suffix {ts ts' : List Tok} {rs : List Redir} (h : Redirs ts rs ts') :
    ts' <:+ ts := by
  induction h with
  | nil => exact List.suffix_refl _
  | cons _ _ ih => exact (ih.trans (List.suffix_cons _ _)).trans (List.suffix_cons _ _)

theorem Words.suffix {ts ts' : List Tok} {ws : List (ℕ × ℕ)} {rs : List Redir}
    (h : Words ts ws rs ts') : ts' <:+ ts := by
  induction h with
  | nil => exact List.suffix_refl _
  | cons hr _ ih => exact (ih.trans hr.suffix).trans (List.suffix_cons _ _)

theorem Backs.suffix {ts ts' : List Tok} {c c' : Cmd} (h : Backs ts c c' ts') : ts' <:+ ts := by
  induction h with
  | nil => exact List.suffix_refl _
  | cons _ ih => exact ih.trans (List.suffix_cons _ _)

theorem Derives.suffix {s : Sym} {ts ts' : List Tok} {c : Cmd} (h : Derives s ts c ts') :
    ts' <:+ ts := by
  induction h with
  | line _ hb ih => exact hb.suffix.trans ih
  | list _ hb _ ih₁ ih₂ => exact ih₂.trans ((List.suffix_cons _ _).trans (hb.suffix.trans ih₁))
  | exec _ ih => exact ih
  | pipe _ _ ih₁ ih₂ => exact ih₂.trans ((List.suffix_cons _ _).trans ih₁)
  | block _ hr ih => exact hr.suffix.trans ((List.suffix_cons _ _).trans (ih.trans (List.suffix_cons _ _)))
  | simple hr hw _ => exact hw.suffix.trans hr.suffix

/-! ### The words of a tree are word tokens of its input -/

theorem Redirs.word_mem {ts ts' : List Tok} {rs : List Redir} (h : Redirs ts rs ts') :
    ∀ r ∈ rs, Tok.word r.file r.efile ∈ ts := by
  induction h with
  | nil => simp
  | cons _ _ ih =>
    intro r hr
    rcases List.mem_cons.mp hr with rfl | hr
    · simp
    · exact List.mem_cons_of_mem _ (List.mem_cons_of_mem _ (ih r hr))

theorem Words.word_mem {ts ts' : List Tok} {ws : List (ℕ × ℕ)} {rs : List Redir}
    (h : Words ts ws rs ts') :
    (∀ w ∈ ws, Tok.word w.1 w.2 ∈ ts) ∧ ∀ r ∈ rs, Tok.word r.file r.efile ∈ ts := by
  induction h with
  | nil => simp
  | cons hr hw ih =>
    have hsub := hr.suffix.subset
    refine ⟨fun w hw' => ?_, fun r hr' => ?_⟩
    · rcases List.mem_cons.mp hw' with rfl | hw'
      · simp
      · exact List.mem_cons_of_mem _ (hsub (ih.1 w hw'))
    · rcases List.mem_append.mp hr' with hr' | hr'
      · exact List.mem_cons_of_mem _ (hr.word_mem r hr')
      · exact List.mem_cons_of_mem _ (hsub (ih.2 r hr'))

theorem Backs.words_eq {ts ts' : List Tok} {c c' : Cmd} (h : Backs ts c c' ts') :
    c'.words = c.words := by
  induction h with
  | nil => rfl
  | cons _ ih => exact ih

theorem Derives.word_mem {s : Sym} {ts ts' : List Tok} {c : Cmd} (h : Derives s ts c ts') :
    ∀ w ∈ c.words, Tok.word w.1 w.2 ∈ ts := by
  induction h with
  | line _ hb ih => rwa [hb.words_eq]
  | list hp hb hl ih₁ ih₂ =>
    intro w hw
    rcases List.mem_append.mp hw with hw | hw
    · exact ih₁ w (hb.words_eq ▸ hw)
    · exact (hb.suffix.trans hp.suffix).subset (List.mem_cons_of_mem _ (ih₂ w hw))
  | exec _ ih => exact ih
  | pipe he _ ih₁ ih₂ =>
    intro w hw
    rcases List.mem_append.mp hw with hw | hw
    · exact ih₁ w hw
    · exact he.suffix.subset (List.mem_cons_of_mem _ (ih₂ w hw))
  | block hl hr ih =>
    intro w hw
    rw [Cmd.words_wrap] at hw
    rcases List.mem_append.mp hw with hw | hw
    · exact List.mem_cons_of_mem _ (ih w hw)
    · obtain ⟨r, hr', rfl⟩ := List.mem_map.mp hw
      exact List.mem_cons_of_mem _ (hl.suffix.subset (List.mem_cons_of_mem _ (hr.word_mem r hr')))
  | simple hr hw _ =>
    intro w hw'
    rw [Cmd.words_wrap] at hw'
    rcases List.mem_append.mp hw' with hw' | hw'
    · exact hr.suffix.subset (hw.word_mem.1 w hw')
    · obtain ⟨r, hr', rfl⟩ := List.mem_map.mp hw'
      rcases List.mem_append.mp hr' with hr' | hr'
      · exact hr.word_mem r hr'
      · exact hr.suffix.subset (hw.word_mem.2 r hr')

end Xv6.Sh
