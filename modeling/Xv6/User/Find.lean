import Xv6.Param
import Mathlib.Data.List.TakeWhile

/-!
# find (`user/find.c`)

`find(path, file_to_find)` opens `path`, prints it if the part after its last `'/'` is the
target, and, for a directory, reads its entries one `struct dirent` at a time: it skips free
entries (`inum == 0`), `"."` and `".."`, appends `'/'` and the entry's name to the one shared
`path` buffer, recurses, and cuts `path` back at its last `'/'`.

The model runs `find` over the tree of files below the starting path: a directory lists its
entries in the order `read` returns them, each with the `DIRSIZ`-byte name field and the file it
names. `open` of a path built from those entries finds the entry's file (names are unique in a
directory and `"."`, `".."` are never followed), and fails when the path with its NUL does not
fit in `MAXPATH` bytes (`argstr` in `sys_open`) or `NOFILE` descriptors are already open.
`strlen(de.name)` reads the field up to its first NUL, and a field with none runs on into
`after`, the bytes that follow it in memory. Messages to standard error are left out.
-/

namespace Xv6

namespace Find

mutual
/-- A file below the starting path. -/
inductive Node where
  /-- Anything but a directory (`st.type != T_DIR`). -/
  | file
  | dir (ents : Ents)

/-- The entries of a directory as `read` returns them: `inum`, the name field and the file. -/
inductive Ents where
  | nil
  | cons (inum : ℕ) (name : List UInt8) (hname : name.length = DIRSIZ) (node : Node) (rest : Ents)
end

/-- The byte `'/'`. -/
def slash : UInt8 := '/'.toUInt8

/-- The name `strlen(de.name)` measures and `memmove` copies: the field up to its first NUL,
running on into `after` when the field holds none. -/
def entName (after name : List UInt8) : List UInt8 := (name ++ after).takeWhile (· ≠ 0)

/-- `should_skip_dir`: a free entry, `"."` or `".."`. -/
def shouldSkipDir (after : List UInt8) (inum : ℕ) (name : List UInt8) : Bool :=
  inum == 0 || entName after name == ['.'.toUInt8] || entName after name == ['.'.toUInt8, '.'.toUInt8]

/-- The part of `path` after its last `'/'`, all of it if there is none. -/
def lastPart (path : List UInt8) : List UInt8 := (path.reverse.takeWhile (· ≠ slash)).reverse

/-- `compare(path, file_to_find) == 0`. -/
def compare (path target : List UInt8) : Bool := lastPart path == target

/-- `remove_last_part_of_path`: zero `path` from its last `'/'` on. -/
def removeLastPartOfPath (path : List UInt8) : List UInt8 :=
  (path.reverse.dropWhile (· ≠ slash)).reverse.dropLast

/-- `open(path, O_RDONLY)` succeeds, with `nfd` descriptors open. -/
def opens (nfd : ℕ) (path : List UInt8) : Bool := path.length < MAXPATH && nfd < NOFILE

mutual
/-- `find(path, file_to_find)` at `node` with `nfd` descriptors open: the paths it prints, in
order, and the contents of `path` when it returns. -/
def findNode (target after : List UInt8) (nfd : ℕ) (path : List UInt8) :
    Node → List (List UInt8) × List UInt8
  | .file => (if opens nfd path && compare path target then [path] else [], path)
  | .dir ents =>
    if opens nfd path then
      let r := findEnts target after (nfd + 1) path ents
      ((if compare path target then [path] else []) ++ r.1, r.2)
    else ([], path)

/-- The `while` loop of `find` over the remaining entries, with the directory's descriptor
among the `nfd` open. -/
def findEnts (target after : List UInt8) (nfd : ℕ) (path : List UInt8) :
    Ents → List (List UInt8) × List UInt8
  | .nil => ([], path)
  | .cons inum name _ node rest =>
    if shouldSkipDir after inum name then findEnts target after nfd path rest
    else
      let r := findNode target after nfd (path ++ slash :: entName after name) node
      let r' := findEnts target after nfd (removeLastPartOfPath r.2) rest
      (r.1 ++ r'.1, r'.2)
end

/-- `main`: `find(argv[1], argv[2])`, with standard input, output and error open. -/
def main (start target after : List UInt8) (root : Node) : List (List UInt8) :=
  (findNode target after 3 start root).1

/-! ### The paths below the starting path -/

/-- The name as stored: the field up to its first NUL, all `DIRSIZ` bytes if it holds none. -/
def storedName (name : List UInt8) : List UInt8 := name.takeWhile (· ≠ 0)

/-- A live entry other than `"."` and `".."`. -/
def followed (inum : ℕ) (name : List UInt8) : Bool :=
  inum != 0 && storedName name != ['.'.toUInt8] && storedName name != ['.'.toUInt8, '.'.toUInt8]

mutual
/-- The paths at and below `path`, in depth-first entry order: `path`, then for a directory the
paths below each followed entry, named as stored. -/
def visitNode (path : List UInt8) : Node → List (List UInt8)
  | .file => [path]
  | .dir ents => path :: visitEnts path ents

/-- The paths below the remaining entries of the directory at `path`. -/
def visitEnts (path : List UInt8) : Ents → List (List UInt8)
  | .nil => []
  | .cons inum name _ node rest =>
    (if followed inum name then visitNode (path ++ slash :: storedName name) node else []) ++
      visitEnts path rest
end

mutual
/-- What the walk from `path` at `node` needs, with `nfd` descriptors open: each path it opens,
with its NUL, fits in `MAXPATH` bytes and finds a free descriptor, and each entry's name field
holds a NUL and the name no `'/'`. -/
def fitsNode (nfd : ℕ) (path : List UInt8) : Node → Bool
  | .file => opens nfd path
  | .dir ents => opens nfd path && fitsEnts (nfd + 1) path ents

/-- `fitsNode` for the remaining entries of a directory. -/
def fitsEnts (nfd : ℕ) (path : List UInt8) : Ents → Bool
  | .nil => true
  | .cons inum name _ node rest =>
    decide (0 ∈ name) && decide (slash ∉ storedName name) &&
      (!followed inum name || fitsNode nfd (path ++ slash :: storedName name) node) &&
      fitsEnts nfd path rest
end

/-- A field that holds a NUL is read the same whatever follows it. -/
theorem entName_of_mem {name : List UInt8} (h : 0 ∈ name) (after : List UInt8) :
    entName after name = storedName name := by
  unfold entName storedName
  rw [List.takeWhile_append, if_neg]
  intro hlen
  -- all of the field would pass the test, its NUL too
  have heq : name.takeWhile (· ≠ 0) = name := (List.takeWhile_prefix _).eq_of_length hlen
  have hmem : (0 : UInt8) ∈ name.takeWhile (· ≠ 0) := by
    rw [heq]
    exact h
  have h0 := List.mem_takeWhile_imp hmem
  simp at h0

theorem shouldSkipDir_of_mem {name : List UInt8} (h : 0 ∈ name) (after : List UInt8)
    (inum : ℕ) : shouldSkipDir after inum name = !followed inum name := by
  simp [shouldSkipDir, followed, entName_of_mem h, Bool.or_assoc, bne]

/-- **Cutting at the last `'/'` undoes appending `'/'` and a name without one.** -/
theorem removeLastPartOfPath_append {name : List UInt8} (h : slash ∉ name) (path : List UInt8) :
    removeLastPartOfPath (path ++ slash :: name) = path := by
  have hall : ∀ b ∈ name.reverse, decide (b ≠ slash) = true := by
    intro b hb
    have : b ≠ slash := fun e => h (e ▸ List.mem_reverse.mp hb)
    simpa using this
  unfold removeLastPartOfPath
  rw [List.reverse_append, List.reverse_cons, List.append_assoc, List.dropWhile_append_of_pos hall]
  simp

mutual
/-- `find` at a node prints the matching paths at and below it and leaves `path` as it found
it. -/
theorem findNode_eq (target after : List UInt8) : ∀ (nfd : ℕ) (path : List UInt8) (node : Node),
    fitsNode nfd path node = true →
      findNode target after nfd path node = ((visitNode path node).filter (compare · target), path)
  | nfd, path, .file, h => by
    simp only [fitsNode] at h
    simp [findNode, visitNode, h, List.filter_cons]
  | nfd, path, .dir ents, h => by
    simp only [fitsNode, Bool.and_eq_true] at h
    rw [findNode, if_pos h.1]
    simp only [findEnts_eq target after (nfd + 1) path ents h.2, visitNode, List.filter_cons]
    split_ifs <;> rfl

/-- The loop over the remaining entries prints the matching paths below them and leaves `path`
as it found it. -/
theorem findEnts_eq (target after : List UInt8) : ∀ (nfd : ℕ) (path : List UInt8) (ents : Ents),
    fitsEnts nfd path ents = true →
      findEnts target after nfd path ents = ((visitEnts path ents).filter (compare · target), path)
  | _, _, .nil, _ => rfl
  | nfd, path, .cons inum name _ node rest, h => by
    simp only [fitsEnts, Bool.and_eq_true, decide_eq_true_eq, Bool.or_eq_true,
      Bool.not_eq_true'] at h
    obtain ⟨⟨⟨h0, hsl⟩, hnode⟩, hrest⟩ := h
    have hr := findEnts_eq target after nfd path rest hrest
    rw [findEnts, shouldSkipDir_of_mem h0, entName_of_mem h0]
    cases hf : followed inum name
    · -- a skipped entry
      simp [hr, visitEnts, hf]
    · -- the walk below the entry comes back with `path` extended, which the cut restores
      have hn := findNode_eq target after nfd (path ++ slash :: storedName name) node
        (hnode.resolve_left (by simp [hf]))
      simp [hn, removeLastPartOfPath_append hsl, hr, visitEnts, hf, List.filter_append]
end

/-- **find prints exactly the matching paths**, for a walk whose every path fits in `MAXPATH` with
its NUL and whose nesting leaves a free descriptor, with every entry's name shorter than
`DIRSIZ` and free of `'/'`: whatever lies after the name fields, `find(start, target)` prints,
in depth-first entry order and each once, the paths at and below `start` whose part after the
last `'/'` is the target, and nothing else; and every call of `find` in the walk returns with
`path` as it was. -/
theorem find_prints_matches (start target after : List UInt8) (root : Node)
    (h : fitsNode 3 start root = true) :
    main start target after root = (visitNode start root).filter (compare · target) ∧
      ∀ nfd path node, fitsNode nfd path node = true →
        (findNode target after nfd path node).2 = path := by
  refine ⟨?_, fun nfd path node hn => ?_⟩
  · rw [main, findNode_eq target after 3 start root h]
  · rw [findNode_eq target after nfd path node hn]

/-- The name field of a directory `aaaaaaaaaaaaa`. -/
def aName : List UInt8 := List.replicate 13 'a'.toUInt8 ++ [0]

/-- The name field of a file `x`. -/
def xName : List UInt8 := 'x'.toUInt8 :: List.replicate 13 0

/-- `k + 1` nested directories, all but the top one named `aaaaaaaaaaaaa`, with a file `x` in
the deepest. -/
def chain : ℕ → Node
  | 0 => .dir (.cons 2 xName (by decide) .file .nil)
  | k + 1 => .dir (.cons 2 aName (by decide) (chain k) .nil)

/-- A directory holding one file whose name fills all `DIRSIZ` bytes of its field. -/
def fullName : Node := .dir (.cons 2 (List.replicate 14 'b'.toUInt8) (by decide) .file .nil)

theorem find_prints_matches_chain :
    fitsNode 3 ['d'.toUInt8] (chain 3) = true ∧
      main ['d'.toUInt8] ['x'.toUInt8] [] (chain 3) =
        (visitNode ['d'.toUInt8] (chain 3)).filter (compare · ['x'.toUInt8]) :=
  ⟨by decide, (find_prints_matches _ _ _ _ (by decide)).1⟩

/-- **A long path is not found, and a full name field is read past.** Below `d`, nine nested
directories named by thirteen `a`s hold a file `x`. Every path fits the 512-byte buffer and at
most 13 descriptors are open at once, but the path of `x` is 129 bytes: `open` takes at most
`MAXPATH = 128` bytes with the NUL, so it fails and `find d x` prints nothing. And when a
directory holds a file whose name fills its 14-byte field, `strlen(de.name)` runs past the field:
with a NUL after it `find` prints the file, with the byte 1 after it the path gets that byte and
the file, which has the target name, is not printed. -/
theorem find_long_path_and_full_name :
    (∀ p ∈ visitNode ['d'.toUInt8] (chain 9), p.length < 512) ∧
      ((visitNode ['d'.toUInt8] (chain 9)).filter (compare · ['x'.toUInt8])).map List.length =
        [129] ∧
      main ['d'.toUInt8] ['x'.toUInt8] [] (chain 9) = [] ∧
    (visitNode ['d'.toUInt8] fullName).filter (compare · (List.replicate 14 'b'.toUInt8)) =
        [['d'.toUInt8, slash] ++ List.replicate 14 'b'.toUInt8] ∧
      main ['d'.toUInt8] (List.replicate 14 'b'.toUInt8) [0] fullName =
        [['d'.toUInt8, slash] ++ List.replicate 14 'b'.toUInt8] ∧
      main ['d'.toUInt8] (List.replicate 14 'b'.toUInt8) [1, 0] fullName = [] := by
  set_option maxRecDepth 20000 in decide

end Find

end Xv6
