import Mathlib.Data.List.Basic

/-!
# xargs (`user/xargs.c`)

`main` forks a child that runs `run_command` and waits for it. `run_command` reads standard input
in chunks of up to 512 bytes into one buffer `buf` and scans each chunk: at every `'\n'` it writes
a NUL there and forks a child that appends the pointer `buf + start_idx` to its copy of the
argument vector and `exec`s the command; the parent waits and moves `start_idx` past the newline.
A new chunk is read into the same `buf` from offset 0, with `start_idx` back at 0.

The model follows one process after another, as the parent always waits: `loop` returns the
`exec` calls made, in order, by the process and by all the children it waits for. A child whose
`exec` fails does not exit: it goes on with the parent's loop, with the pushed argument still in
its vector, reads standard input to its end, and returns; the parent then resumes its own copy
of the loop and finds standard input at its end.

An argument vector entry is one of `main`'s arguments or a pointer into `buf`, read when `exec`
copies the arguments. The command that `exec` starts is taken not to read standard input.
-/

namespace Xv6

namespace Xargs

/-- The bytes one `read(STDIN, buf, 512)` returns before the end of the input: one to 512. -/
structure Chunk where
  bytes : List UInt8
  pos : 0 < bytes.length
  le : bytes.length ≤ 512

/-- An entry of the argument vector: one of `main`'s arguments, or a pointer into `buf`. -/
inductive Arg where
  | str (s : List UInt8)
  | ptr (off : ℕ)

/-- The C string at `buf + off`: the bytes up to the first NUL. -/
def cstr (buf : List UInt8) (off : ℕ) : List UInt8 := (buf.drop off).takeWhile (· ≠ 0)

/-- The string an entry points to, as `exec` copies it. -/
def Arg.resolve (buf : List UInt8) : Arg → List UInt8
  | .str s => s
  | .ptr off => cstr buf off

/-- `make_new_argv`: `argv[1..argc)`. -/
def makeNewArgv (argv : List (List UInt8)) : List Arg := (argv.drop 1).map .str

/-- `push_to_argv`: append an entry before the terminating null. -/
def pushToArgv (item : Arg) (argv : List Arg) : List Arg := argv ++ [item]

/-- `read(STDIN, buf, 512)` of a chunk: its bytes overwrite the front of `buf`. -/
def readInto (buf : List UInt8) (c : Chunk) : List UInt8 := c.bytes ++ buf.drop c.bytes.length

/-- The `for` loop of `run_command` over the bytes `i = n - k, ..., n - 1` of a chunk of `n` bytes
in `buf`, the current line starting at `start_idx = start`; `next argv buf` is what this process
does when the loop ends. `ok v` says whether `exec(command, v)` succeeds. The result is the
argument vectors of the `exec` calls, in order, made by this process and the children it waits
for. -/
def scan (ok : List (List UInt8) → Bool) (next : List Arg → List UInt8 → List (List (List UInt8)))
    (argv : List Arg) (buf : List UInt8) (n start : ℕ) : ℕ → List (List (List UInt8))
  | 0 => next argv buf
  | k + 1 =>
    if buf[n - (k + 1)]? = some '\n'.toUInt8 then
      let buf := buf.set (n - (k + 1)) 0
      let child := pushToArgv (.ptr start) argv
      let call := child.map (Arg.resolve buf)
      if ok call then call :: scan ok next argv buf n (n - k) k
      else
        -- the child goes on with the loop and reads the input to its end; the parent then
        -- resumes its own loop, and its next `read` finds the end of the input
        call :: (scan ok next child buf n (n - k) k ++ scan ok (fun _ _ => []) argv buf n (n - k) k)
    else scan ok next argv buf n start k

/-- The `while` loop of `run_command`: `read` the next chunk into `buf` and scan it; at the end of
the input `read` returns 0 and the loop ends. -/
def loop (ok : List (List UInt8) → Bool) (argv : List Arg) (buf : List UInt8) :
    List Chunk → List (List (List UInt8))
  | [] => []
  | c :: inp =>
    scan ok (fun argv buf => loop ok argv buf inp) argv (readInto buf c) c.bytes.length 0
      c.bytes.length

/-- `run_command(command, argv)`; `buf` holds what the stack held. -/
def runCommand (ok : List (List UInt8) → Bool) (argv : List Arg) (buf : List UInt8)
    (inp : List Chunk) : List (List (List UInt8)) :=
  loop ok argv buf inp

/-- `xargs` run as `argv`, with standard input read as the chunks `inp`: the `exec` calls made. -/
def xargs (ok : List (List UInt8) → Bool) (argv : List (List UInt8)) (buf : List UInt8)
    (inp : List Chunk) : List (List (List UInt8)) :=
  runCommand ok (makeNewArgv argv) buf inp

/-! ### Lines -/

/-- The newline-terminated lines of `s`, each without its newline, the first one continuing
`cur`; the bytes after the last newline make no line. -/
def linesFrom (cur : List UInt8) : List UInt8 → List (List UInt8)
  | [] => []
  | b :: s => if b = '\n'.toUInt8 then cur :: linesFrom [] s else linesFrom (cur ++ [b]) s

/-- The newline-terminated lines of a byte stream, without their newlines. -/
def lines (s : List UInt8) : List (List UInt8) := linesFrom [] s

/-- A newline ends the lines of what comes before it. -/
theorem linesFrom_append_nl (cur x s : List UInt8) :
    linesFrom cur (x ++ '\n'.toUInt8 :: s) = linesFrom cur (x ++ ['\n'.toUInt8]) ++ lines s := by
  induction x generalizing cur with
  | nil => simp [linesFrom, lines]
  | cons b x ih =>
    simp only [List.cons_append, linesFrom]
    split_ifs <;> simp [ih]

theorem lines_append_of_getLast (x s : List UInt8) (hx : x.getLast? = some '\n'.toUInt8) :
    lines (x ++ s) = lines x ++ lines s := by
  obtain ⟨x', rfl⟩ : ∃ x', x = x' ++ ['\n'.toUInt8] := by
    rw [List.getLast?_eq_some_iff] at hx
    exact hx
  rw [lines, lines, List.append_assoc, List.singleton_append, linesFrom_append_nl]

/-- **Cutting the input after newlines does not change its lines.** -/
theorem flatMap_lines (inp : List Chunk)
    (hnl : ∀ c ∈ inp, c.bytes.getLast? = some '\n'.toUInt8) :
    inp.flatMap (fun c => lines c.bytes) = lines (inp.flatMap (·.bytes)) := by
  induction inp with
  | nil => rfl
  | cons c inp ih =>
    rw [List.flatMap_cons, List.flatMap_cons, ih fun c' hc' => hnl c' (List.mem_cons_of_mem _ hc'),
      lines_append_of_getLast _ _ (hnl c List.mem_cons_self)]

/-! ### When every `exec` succeeds -/

section Exec

variable {ok : List (List UInt8) → Bool} (hok : ∀ v, ok v = true)
include hok

/-- The buffer with the current line's start at `A.length`: the bytes `cur` of the line so far,
then the `D` bytes of the chunk still to scan, then what lies beyond the chunk. -/
theorem scan_ok (base : List (List UInt8)) (next : List Arg → List UInt8 → List (List (List UInt8)))
    (A cur D E : List UInt8) (hcur0 : 0 ∉ cur) (hcurnl : '\n'.toUInt8 ∉ cur) (hD0 : 0 ∉ D)
    (n start : ℕ) (hn : n = A.length + cur.length + D.length) (hs : start = A.length) :
    ∃ buf', scan ok next (base.map .str) (A ++ cur ++ D ++ E) n start D.length =
      (linesFrom cur D).map (base ++ [·]) ++ next (base.map .str) buf' := by
  induction D generalizing A cur start with
  | nil => exact ⟨_, rfl⟩
  | cons d D ih =>
    have hi : n - (D.length + 1) = (A ++ cur).length := by
      simp only [hn, List.length_append, List.length_cons]
      omega
    have hget : (A ++ cur ++ d :: D ++ E)[n - (D.length + 1)]? = some d := by
      rw [hi, List.append_assoc (A ++ cur), List.cons_append]
      simp
    have hd0 : d ≠ 0 := fun h => hD0 (h ▸ List.mem_cons_self)
    simp only [List.length_cons, scan, hget, Option.some.injEq]
    by_cases hd : d = '\n'.toUInt8
    · -- a newline: the line `cur` is run, and the next one starts after the NUL written here
      have hset : (A ++ cur ++ d :: D ++ E).set (n - (D.length + 1)) 0 =
          (A ++ cur ++ [0]) ++ [] ++ D ++ E := by
        rw [hi, List.append_assoc (A ++ cur), List.cons_append, List.set_append_right _ _ (Nat.le_refl _)]
        simp
      have hcall : (pushToArgv (.ptr start) (base.map .str)).map
          (Arg.resolve ((A ++ cur ++ [0]) ++ [] ++ D ++ E)) = base ++ [cur] := by
        simp only [pushToArgv, List.map_append, List.map_map, List.map_cons, List.map_nil]
        refine congrArg₂ _ (by simp [Function.comp_def, Arg.resolve]) ?_
        simp only [Arg.resolve, cstr, hs, List.append_nil, List.append_assoc, List.drop_left,
          List.singleton_append]
        rw [List.takeWhile_append_of_pos]
        · simp
        · intro x hx
          have : x ≠ 0 := fun h0 => hcur0 (h0 ▸ hx)
          simpa using this
      obtain ⟨buf', h⟩ := ih (A ++ cur ++ [0]) [] (by simp) (by simp)
        (fun h => hD0 (List.mem_cons_of_mem _ h)) (n - D.length) (by simp [hn]; omega)
        (by simp [hn]; omega)
      refine ⟨buf', ?_⟩
      rw [if_pos hd, hset, hcall, if_pos (hok _), h]
      simp [linesFrom, hd]
    · -- another byte joins the line
      obtain ⟨buf', h⟩ := ih A (cur ++ [d]) (by simp [hcur0, Ne.symm hd0])
        (by simp [hcurnl, Ne.symm hd]) (fun h => hD0 (List.mem_cons_of_mem _ h)) start
        (by simp [hn]; omega) hs
      refine ⟨buf', ?_⟩
      rw [if_neg hd]
      simpa [linesFrom, hd] using h

/-- The `while` loop runs the command once for each line of each chunk, in order. -/
theorem loop_ok (base : List (List UInt8)) (inp : List Chunk) (h0 : ∀ c ∈ inp, 0 ∉ c.bytes)
    (buf : List UInt8) :
    loop ok (base.map .str) buf inp = (inp.flatMap fun c => lines c.bytes).map (base ++ [·]) := by
  induction inp generalizing buf with
  | nil => rfl
  | cons c inp ih =>
    obtain ⟨buf', h⟩ := scan_ok hok base (fun argv buf => loop ok argv buf inp) [] [] c.bytes
      (buf.drop c.bytes.length) (by simp) (by simp) (h0 c List.mem_cons_self) c.bytes.length 0
      (by simp) rfl
    simp only [List.nil_append] at h
    rw [loop, readInto, h, ih (fun c' hc' => h0 c' (List.mem_cons_of_mem _ hc')), List.flatMap_cons,
      List.map_append]
    rfl

/-- **With every `exec` succeeding and no NUL in the input, xargs runs the command once for each
line of each chunk**, in order, with `argv[1..argc)` and the line as its arguments. When every
chunk ends with a newline, these are exactly the lines of the input. -/
theorem xargs_runs_lines (argv : List (List UInt8)) (buf : List UInt8) (inp : List Chunk)
    (h0 : ∀ c ∈ inp, 0 ∉ c.bytes) :
    xargs ok argv buf inp = (inp.flatMap fun c => lines c.bytes).map (argv.drop 1 ++ [·]) ∧
      ((∀ c ∈ inp, c.bytes.getLast? = some '\n'.toUInt8) →
        xargs ok argv buf inp = (lines (inp.flatMap (·.bytes))).map (argv.drop 1 ++ [·])) := by
  have h := loop_ok hok (argv.drop 1) inp h0 buf
  refine ⟨h, fun hnl => ?_⟩
  rw [← flatMap_lines inp hnl]
  exact h

end Exec

/-- The bytes of ASCII characters. -/
def ascii (cs : List Char) : List UInt8 := cs.map Char.toUInt8

theorem xargs_runs_lines_two_lines :
    xargs (fun _ => true) [ascii ['x'], ascii ['e']] (List.replicate 512 0)
        [⟨ascii ['a', '\n', 'b', '\n'], by decide, by decide⟩] =
      (lines ([(⟨ascii ['a', '\n', 'b', '\n'], by decide, by decide⟩ : Chunk)].flatMap
        (·.bytes))).map ([ascii ['x'], ascii ['e']].drop 1 ++ [·]) :=
  (xargs_runs_lines (fun _ => rfl) _ _ _ (by decide)).2 (by decide)

/-- **A line split across two reads is cut, and a failed `exec` runs later lines again.** Run as
`xargs e` on a zeroed buffer. When the reads return `"ab"` and then `"c\n"`, as a pipe does when
its writer is slow, the one line `"abc"` is run as `e c`: the second `read` overwrites the first
chunk and `start_idx` starts again at 0. When `exec` fails and one read returns `"a\nb\n"`, the
child for `"a"` goes on with the loop and runs `"b"` with `"a"` still in its vector, and the
parent then runs `"b"` again. -/
theorem xargs_split_line_and_failed_exec :
    lines (ascii ['a', 'b', 'c', '\n']) = [ascii ['a', 'b', 'c']] ∧
    xargs (fun _ => true) [ascii ['x'], ascii ['e']] (List.replicate 512 0)
        [⟨ascii ['a', 'b'], by decide, by decide⟩, ⟨ascii ['c', '\n'], by decide, by decide⟩] =
      [[ascii ['e'], ascii ['c']]] ∧
    lines (ascii ['a', '\n', 'b', '\n']) = [ascii ['a'], ascii ['b']] ∧
    xargs (fun _ => false) [ascii ['x'], ascii ['e']] (List.replicate 512 0)
        [⟨ascii ['a', '\n', 'b', '\n'], by decide, by decide⟩] =
      [[ascii ['e'], ascii ['a']], [ascii ['e'], ascii ['a'], ascii ['b']],
        [ascii ['e'], ascii ['b']]] := by
  decide

end Xargs

end Xv6
