import Xv6.User.Sh.Lex

/-!
# The shell's parser

A model of the recursive-descent parser of `user/sh.c`: `parseredirs`, `parseexec`,
`parseblock`, `parsepipe`, `parseline`, `parsecmd` and `nulterminate`, over the tokenizer of
`Xv6.Sh.Lex`.

The tree is a `Cmd`, one constructor per `struct ...cmd`, with positions in the line for its
pointers.  A `panic(msg)` is `Fail.panic msg`.  The four mutually recursive parsers share a fuel
argument that every call decreases, and each `while` loop has its own; `parsecmd` gives them
enough that none runs out (`halts_parsers`).

`parseexec` writes `cmd->argv` after `parseredirs` has wrapped `cmd` in REDIR nodes: the model
builds the chain over `execcmd()` with no words and then writes them into the innermost node,
the one the pointer `cmd` still points to (`Cmd.setArgv`).
-/

namespace Xv6.Sh

/-- `MAXARGS`: the argv slots of an `execcmd`. -/
def MAXARGS : ℕ := 10

/-- The open modes of `kernel/fcntl.h` a redirection uses. -/
def O_RDONLY : ℕ := 0x000

def O_WRONLY : ℕ := 0x001

def O_CREATE : ℕ := 0x200

def O_TRUNC : ℕ := 0x400

/-- A parsed command: `struct execcmd`, `redircmd`, `pipecmd`, `listcmd` and `backcmd`.  An argv
entry is the pair (`argv[i]`, `eargv[i]`). -/
inductive Cmd where
  | exec (argv : List (ℕ × ℕ))
  | redir (cmd : Cmd) (file efile mode fd : ℕ)
  | pipe (left right : Cmd)
  | list (left right : Cmd)
  | back (cmd : Cmd)
  deriving DecidableEq, Repr

/-- How a parse ends without a tree: `panic(msg)`, or the model's fuel running out. -/
inductive Fail where
  | panic (msg : String)
  | outOfFuel
  deriving DecidableEq, Repr

/-- `cmd->argv[i] = q; cmd->eargv[i] = eq` through the pointer `cmd` to the `execcmd` at the
bottom of the REDIR chain `parseredirs` built over it. -/
def Cmd.setArgv : Cmd → List (ℕ × ℕ) → Cmd
  | .exec _, argv => .exec argv
  | .redir c file efile mode fd, argv => .redir (c.setArgv argv) file efile mode fd
  | c, _ => c

/-- `parseredirs(cmd, ps, es)`: while the next token is `<`, `>` or `>>`, read it and the file
word and wrap `cmd` in a REDIR node. -/
def parseredirs (buf : List UInt8) : ℕ → Cmd → ℕ → Except Fail (Cmd × ℕ)
  | 0, _, _ => .error .outOfFuel
  | fuel + 1, cmd, ps =>
    let (more, ps) := peek buf ps [60, 62]
    if more then
      let (tok, _, _, ps) := gettoken buf ps
      let (t, q, eq, ps) := gettoken buf ps
      if t ≠ 97 then .error (.panic "missing file for redirection")
      else
        let cmd :=
          if tok = 60 then Cmd.redir cmd q eq O_RDONLY 0
          else if tok = 62 then Cmd.redir cmd q eq (O_WRONLY ||| O_CREATE ||| O_TRUNC) 1
          else if tok = 43 then Cmd.redir cmd q eq (O_WRONLY ||| O_CREATE) 1
          else cmd
        parseredirs buf fuel cmd ps
    else .ok (cmd, ps)

/-- The loop `while(!peek(ps, es, "|)&;"))` of `parseexec`, with the words read so far and
`ret`. -/
def execLoop (buf : List UInt8) :
    ℕ → List (ℕ × ℕ) → Cmd → ℕ → Except Fail (List (ℕ × ℕ) × Cmd × ℕ)
  | 0, _, _, _ => .error .outOfFuel
  | fuel + 1, argv, ret, ps =>
    let (stop, ps) := peek buf ps [124, 41, 38, 59]
    if stop then .ok (argv, ret, ps)
    else
      let (tok, q, eq, ps) := gettoken buf ps
      if tok = 0 then .ok (argv, ret, ps)
      else if tok ≠ 97 then .error (.panic "syntax")
      else if argv.length + 1 ≥ MAXARGS then .error (.panic "too many args")
      else do
        let (ret, ps) ← parseredirs buf (buf.length + 1) ret ps
        execLoop buf fuel (argv ++ [(q, eq)]) ret ps

/-- The loop `while(peek(ps, es, "&"))` of `parseline`. -/
def backLoop (buf : List UInt8) : ℕ → Cmd → ℕ → Except Fail (Cmd × ℕ)
  | 0, _, _ => .error .outOfFuel
  | fuel + 1, cmd, ps =>
    let (more, ps) := peek buf ps [38]
    if more then backLoop buf fuel (.back cmd) (gettoken buf ps).2.2.2
    else .ok (cmd, ps)

mutual

/-- `parseline(ps, es)`: a pipeline, its `&`s, and after a `;` the rest of the line. -/
def parseline (buf : List UInt8) : ℕ → ℕ → Except Fail (Cmd × ℕ)
  | 0, _ => .error .outOfFuel
  | fuel + 1, ps => do
    let (cmd, ps) ← parsepipe buf fuel ps
    let (cmd, ps) ← backLoop buf (buf.length + 1) cmd ps
    let (semi, ps) := peek buf ps [59]
    if semi then
      let (right, ps) ← parseline buf fuel (gettoken buf ps).2.2.2
      pure (.list cmd right, ps)
    else pure (cmd, ps)
termination_by structural fuel => fuel

/-- `parsepipe(ps, es)`: a command, and after a `|` the rest of the pipeline. -/
def parsepipe (buf : List UInt8) : ℕ → ℕ → Except Fail (Cmd × ℕ)
  | 0, _ => .error .outOfFuel
  | fuel + 1, ps => do
    let (cmd, ps) ← parseexec buf fuel ps
    let (bar, ps) := peek buf ps [124]
    if bar then
      let (right, ps) ← parsepipe buf fuel (gettoken buf ps).2.2.2
      pure (.pipe cmd right, ps)
    else pure (cmd, ps)
termination_by structural fuel => fuel

/-- `parseblock(ps, es)`: `( line )` and the redirections after it. -/
def parseblock (buf : List UInt8) : ℕ → ℕ → Except Fail (Cmd × ℕ)
  | 0, _ => .error .outOfFuel
  | fuel + 1, ps =>
    let (lp, ps) := peek buf ps [40]
    if !lp then .error (.panic "parseblock")
    else do
      let (cmd, ps) ← parseline buf fuel (gettoken buf ps).2.2.2
      let (rp, ps) := peek buf ps [41]
      if !rp then .error (.panic "syntax - missing )")
      else parseredirs buf (buf.length + 1) cmd (gettoken buf ps).2.2.2
termination_by structural fuel => fuel

/-- `parseexec(ps, es)`: a block, or words with redirections among them. -/
def parseexec (buf : List UInt8) : ℕ → ℕ → Except Fail (Cmd × ℕ)
  | 0, _ => .error .outOfFuel
  | fuel + 1, ps =>
    let (lp, ps) := peek buf ps [40]
    if lp then parseblock buf fuel ps
    else do
      let (ret, ps) ← parseredirs buf (buf.length + 1) (.exec []) ps
      let (argv, ret, ps) ← execLoop buf (buf.length + 1) [] ret ps
      pure (ret.setArgv argv, ps)
termination_by structural fuel => fuel

end

/-- `nulterminate(cmd)` on the memory `mem` of the line: a NUL after every word. -/
def nulterminate : Cmd → (ℕ → UInt8) → ℕ → UInt8
  | .exec argv, mem => argv.foldl (fun m w => Function.update m w.2 0) mem
  | .redir c _ efile _ _, mem => Function.update (nulterminate c mem) efile 0
  | .pipe l r, mem => nulterminate r (nulterminate l mem)
  | .list l r, mem => nulterminate r (nulterminate l mem)
  | .back c, mem => nulterminate c mem

/-- `parsecmd(s)`: the tree of the whole line, and the line after `nulterminate`.  Leftover
tokens print `leftovers: %s` and panic. -/
def parsecmd (buf : List UInt8) : Except Fail (Cmd × (ℕ → UInt8)) := do
  let (cmd, ps) ← parseline buf (4 * buf.length + 4) 0
  let (_, ps) := peek buf ps []
  if ps ≠ buf.length then .error (.panic "syntax")
  else pure (cmd, nulterminate cmd (charAt buf))

end Xv6.Sh
