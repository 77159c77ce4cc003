import Xv6.Fs.Dir
import Xv6.Fs.Itable
import Xv6.Fs.Alloc
import Mathlib.Data.List.TakeWhile

/-!
# Path names (`skipelem`, `namex` in `fs.c`)

`skipelem` copies the next element of a path into a `DIRSIZ`-byte buffer and returns the rest of
the path; `namex` walks a path one element at a time from the root or the current directory,
locking each directory, looking the element up with `dirlookup`, and moving to the inode found.

What a path means is stated on its own terms:

* `components path`: the C string split at `/`, the empty pieces left out;
* `resolve sb d i cs`: the inode reached from inode `i` by looking each name up in the directory
  reached so far, and `resolveParent` the directory holding the last one.

`skipelem_components` says that iterating `skipelem` gives the components, each cut to `DIRSIZ`
bytes (`NameOf`). `namex_refs` says that whenever `namex` returns, every slot of the inode table
has the lock it had and the references it had, but for one more on the slot returned.
`namex_resolve` says that on a consistent file system (`FsOk`) and an inode table with two free
slots, `namex` does return, with the inode `resolve` or `resolveParent` gives.
-/

namespace Xv6

/-- `'/'`. -/
def SLASH : UInt8 := 47

/-- `skipelem(path, name)`: the path after the next element, and the buffer `name` with the
element copied in; `none` for `0`, when no element is left. -/
def skipelem (path name : List UInt8) : Option (List UInt8 × List UInt8) :=
  let path := path.dropWhile (· == SLASH)
  if path.headD 0 = 0 then none else
  let elem := path.takeWhile fun c => c != SLASH && c != 0
  let path := path.dropWhile fun c => c != SLASH && c != 0
  let name :=
    if DIRSIZ ≤ elem.length then elem.take DIRSIZ ++ name.drop DIRSIZ
    else elem ++ 0 :: name.drop (elem.length + 1)
  some (path.dropWhile (· == SLASH), name)

/-- The loop of `namex(path, nameiparent, name)` at the inode in slot `ip`, whose reference it
holds: the slot it returns (`none` for `0`), the buffer, and the inode table, disk and memory
after. `de` is where `dirlookup` reads each entry. The outer `none` is a panic. -/
def namexLoop (sb : Superblock) (nameiparent : Bool) (de : ℕ) :
    (fuel : ℕ) → (path name : List UInt8) → (ip : ℕ) → Itable → Blocks → Mem →
      Option (Option ℕ × List UInt8 × Itable × Blocks × Mem)
  | 0, _, _, _, _, _, _ => none
  | fuel + 1, path, name, ip, t, d, mem =>
    match skipelem path name with
    | none =>
      if nameiparent then (Itable.iput sb t d ip).map fun r => (none, name, r.1, r.2, mem)
      else some (some ip, name, t, d, mem)
    | some (path, name) =>
      match t.ilock sb d ip with
      | none => none
      | some t =>
        if (t.slot ip).ip.type ≠ T_DIR then
          (Itable.iunlockput sb t d ip).map fun r => (none, name, r.1, r.2, mem)
        else if nameiparent ∧ path.headD 0 = 0 then
          -- stop one level early
          (t.iunlock ip).map fun t => (some ip, name, t, d, mem)
        else
          match dirlookupScan sb (t.slot ip).ip d mem name de with
          | none => none
          | some (none, _, d, mem) =>
            (Itable.iunlockput sb t d ip).map fun r => (none, name, r.1, r.2, mem)
          | some (some (inum, _), _, d, mem) =>
            match t.iget (t.slot ip).dev inum with
            | none => none
            | some (t, next) =>
              match Itable.iunlockput sb t d ip with
              | none => none
              | some (t, d) => namexLoop sb nameiparent de fuel path name next t d mem

/-- `namex(path, nameiparent, name)` for a process whose current directory is slot `cwd`. -/
def namex (sb : Superblock) (d : Blocks) (mem : Mem) (t : Itable) (cwd : ℕ) (path : List UInt8)
    (nameiparent : Bool) (name : List UInt8) (de : ℕ) :
    Option (Option ℕ × List UInt8 × Itable × Blocks × Mem) :=
  let start := if path.headD 0 = SLASH then t.iget ROOTDEV ROOTINO else some (t.idup cwd, cwd)
  match start with
  | none => none
  | some (t, ip) => namexLoop sb nameiparent de (path.length + 1) path name ip t d mem

/-! ### What a path means -/

/-- The components of a path: its C string split at `/`, the empty pieces left out. -/
def components (path : List UInt8) : List (List UInt8) :=
  ((cstr path).splitOnP (· == SLASH)).filter fun c => !c.isEmpty

/-- The buffer `skipelem` leaves for the element `c`: the first `DIRSIZ` bytes of `c`, with no
NUL, if `c` is that long, and `c` with a NUL otherwise. -/
def NameOf (c name : List UInt8) : Prop :=
  if DIRSIZ ≤ c.length then name.take DIRSIZ = c.take DIRSIZ else name.take (c.length + 1) = c ++ [0]

/-- The buffers `skipelem` leaves, called on `path` until it returns `0`. -/
def elems : (fuel : ℕ) → (path name : List UInt8) → List (List UInt8)
  | 0, _, _ => []
  | fuel + 1, path, name =>
    match skipelem path name with
    | none => []
    | some (path, name) => name :: elems fuel path name

/-- The inode reached from inode `i` by the names `cs`, each looked up in the directory reached so
far: `none` when a name is missing or is looked up in an inode that is not a directory. -/
def resolve (sb : Superblock) (d : Blocks) : (i : ℕ) → List (List UInt8) → Option ℕ
  | i, [] => some i
  | i, c :: cs =>
    if (dinode sb d i).type ≠ T_DIR then none
    else (lookup (entries (content (dinode sb d i) d)) c).bind fun p => resolve sb d p.1 cs

/-- The directory holding the last of the names `cs`, reached from inode `i`. -/
def resolveParent (sb : Superblock) (d : Blocks) (i : ℕ) : List (List UInt8) → Option ℕ
  | [] => none
  | c :: cs => (resolve sb d i (c :: cs).dropLast).bind fun j =>
      if (dinode sb d j).type = T_DIR then some j else none

/-- Where `namex` starts: the root for a path that begins with `/`, the current directory
otherwise. -/
def startOf (t : Itable) (cwd : ℕ) (path : List UInt8) : ℕ :=
  if path.headD 0 = SLASH then ROOTINO else (t.slot cwd).ip.inum

/-! ### Components -/

section Components

theorem splitOnP_append_of_forall {p : UInt8 → Bool} {xs : List UInt8} (ys : List UInt8)
    (h : ∀ x ∈ xs, p x = false) :
    (xs ++ ys).splitOnP p = (ys.splitOnP p).modifyHead (xs ++ ·) := by
  induction xs with
  | nil =>
    simp only [List.nil_append]
    cases ys.splitOnP p <;> rfl
  | cons x xs ih =>
    rw [List.cons_append, List.splitOnP_cons_eq_if_modifyHead, if_neg (by simp [h x (by simp)]),
      ih fun y hy => h y (by simp [hy]), List.modifyHead_modifyHead]
    rfl

theorem cstr_append_of_forall {xs : List UInt8} (ys : List UInt8) (h : ∀ x ∈ xs, x ≠ 0) :
    cstr (xs ++ ys) = xs ++ cstr ys :=
  List.takeWhile_append_of_pos fun x hx => by simpa using h x hx

theorem components_slash (p : List UInt8) : components (SLASH :: p) = components p := by
  unfold components
  rw [cstr_eq, List.headD_cons, List.tail_cons, if_neg (by decide : SLASH ≠ 0),
    List.splitOnP_cons_eq_if_modifyHead, if_pos (beq_self_eq_true SLASH), List.filter_cons,
    if_neg (by simp)]

theorem components_dropWhile (p : List UInt8) :
    components (p.dropWhile (· == SLASH)) = components p := by
  induction p with
  | nil => rfl
  | cons x p ih =>
    by_cases hx : x = SLASH
    · subst hx
      rw [List.dropWhile_cons_of_pos (by simp), ih, components_slash]
    · rw [List.dropWhile_cons_of_neg (by simpa using hx)]

theorem components_of_headD_zero {p : List UInt8} (h : p.headD 0 = 0) : components p = [] := by
  have hc : cstr p = [] := by rw [cstr_eq, if_pos h]
  simp [components, hc]

/-- An element, then a separator or the end: the element is the first component. -/
theorem components_elem {elem rest : List UInt8} (hne : elem ≠ [])
    (helem : ∀ x ∈ elem, x ≠ SLASH ∧ x ≠ 0) (hrest : rest.headD 0 = SLASH ∨ rest.headD 0 = 0) :
    components (elem ++ rest) = elem :: components rest := by
  have hsplit : ∀ ys : List UInt8, (elem ++ ys).splitOnP (· == SLASH) =
      (ys.splitOnP (· == SLASH)).modifyHead (elem ++ ·) :=
    fun ys => splitOnP_append_of_forall ys fun x hx => by simpa using (helem x hx).1
  have hfirst : (!elem.isEmpty) = true := by simpa using hne
  unfold components
  rw [cstr_append_of_forall _ fun x hx => (helem x hx).2, hsplit]
  rcases hrest with hs | hz
  · -- a separator: the rest starts a new piece
    obtain ⟨r, rfl⟩ : ∃ r, rest = SLASH :: r := by
      cases rest with
      | nil => exact absurd hs (by decide)
      | cons x r => exact ⟨r, by simpa using hs⟩
    rw [cstr_eq, List.headD_cons, List.tail_cons, if_neg (by decide : SLASH ≠ 0),
      List.splitOnP_cons_eq_if_modifyHead, if_pos (beq_self_eq_true SLASH), List.modifyHead_cons,
      List.append_nil,
      List.filter_cons, if_pos hfirst, List.filter_cons, if_neg (by simp)]
  · have hc : cstr rest = [] := by rw [cstr_eq, if_pos hz]
    rw [hc, List.splitOnP_nil, List.modifyHead_cons, List.append_nil, List.filter_cons, if_pos hfirst]
    rfl

theorem headD_dropWhile_slash (p : List UInt8) : (p.dropWhile (· == SLASH)).headD 0 ≠ SLASH := by
  have h := List.head?_dropWhile_not (· == SLASH) p
  cases hd : (p.dropWhile (· == SLASH)) with
  | nil => exact (by decide : (0 : UInt8) ≠ SLASH)
  | cons x r =>
    rw [hd] at h
    simpa using h

theorem take_cstr : ∀ (b : List UInt8) (n : ℕ), (cstr b).take n = cstr (b.take n)
  | [], _ => by simp [cstr]
  | _ :: _, 0 => by simp [cstr]
  | x :: b, n + 1 => by
    rw [cstr_eq, List.take_succ_cons, cstr_eq (x :: b.take n), List.headD_cons, List.headD_cons,
      List.tail_cons, List.tail_cons]
    by_cases hx : x = 0
    · rw [if_pos hx, if_pos hx, List.take_nil]
    · rw [if_neg hx, if_neg hx, List.take_succ_cons, take_cstr b n]

theorem dropWhile_slash_of_headD {p : List UInt8} (h : p.headD 0 ≠ SLASH) :
    p.dropWhile (· == SLASH) = p := by
  cases p with
  | nil => rfl
  | cons x r => rw [List.dropWhile_cons_of_neg (by simpa using h)]

/-- **`skipelem`.** With no element left it returns `0`, and the path has no components.
Otherwise it copies the first component, whose bytes are neither `/` nor NUL, and returns a shorter
path, with no leading `/`, that has the other components. -/
theorem skipelem_spec (path name : List UInt8) :
    (skipelem path name = none ∧ components path = []) ∨
    ∃ c path' name', skipelem path name = some (path', name') ∧
      components path = c :: components path' ∧ NameOf c name' ∧ (∀ x ∈ c, x ≠ SLASH ∧ x ≠ 0) ∧
      path'.length < path.length ∧ path'.headD 0 ≠ SLASH := by
  obtain ⟨q, hq⟩ : ∃ q, path.dropWhile (· == SLASH) = q := ⟨_, rfl⟩
  have hcq : components path = components q := by rw [← hq, components_dropWhile]
  have hqs : q.headD 0 ≠ SLASH := by rw [← hq]; exact headD_dropWhile_slash path
  have hql : q.length ≤ path.length := by rw [← hq]; exact List.length_dropWhile_le _ _
  by_cases h0 : q.headD 0 = 0
  · left
    exact ⟨by simp only [skipelem, hq, if_pos h0], hcq.trans (components_of_headD_zero h0)⟩
  right
  obtain ⟨elem, he⟩ : ∃ e, q.takeWhile (fun c => c != SLASH && c != 0) = e := ⟨_, rfl⟩
  obtain ⟨rest, hr⟩ : ∃ r, q.dropWhile (fun c => c != SLASH && c != 0) = r := ⟨_, rfl⟩
  have hsplit : elem ++ rest = q := by rw [← he, ← hr, List.takeWhile_append_dropWhile]
  have helem : ∀ x ∈ elem, x ≠ SLASH ∧ x ≠ 0 := fun x hx => by
    rw [← he] at hx
    simpa using List.mem_takeWhile_imp hx
  -- the element is not empty: `q` starts with a byte that is neither `/` nor NUL
  have hne : elem ≠ [] := by
    cases hqc : q with
    | nil => rw [hqc] at h0; exact absurd rfl h0
    | cons x r =>
      rw [hqc, List.headD_cons] at h0 hqs
      rw [← he, hqc, List.takeWhile_cons_of_pos (by simp [h0, hqs])]
      exact List.cons_ne_nil _ _
  have hrest : rest.headD 0 = SLASH ∨ rest.headD 0 = 0 := by
    have h := List.head?_dropWhile_not (fun c => c != SLASH && c != 0) q
    cases hd : rest with
    | nil => exact .inr rfl
    | cons x r =>
      rw [hr, hd] at h
      by_cases hx : x = SLASH
      · exact .inl hx
      · exact .inr (by simpa [hx] using h)
  refine ⟨elem, rest.dropWhile (· == SLASH),
    if DIRSIZ ≤ elem.length then elem.take DIRSIZ ++ name.drop DIRSIZ
    else elem ++ 0 :: name.drop (elem.length + 1), ?_, ?_, ?_, helem, ?_, headD_dropWhile_slash rest⟩
  · simp only [skipelem, hq, if_neg h0, he, hr]
  · rw [hcq, ← hsplit, components_elem hne helem hrest, components_dropWhile]
  · -- the buffer: the element cut to `DIRSIZ`, or the element and a NUL
    unfold NameOf
    split_ifs with hd
    · rw [List.take_append_of_le_length (by rw [List.length_take]; omega),
        List.take_take, Nat.min_self]
    · rw [List.append_cons, List.take_append_of_le_length (by simp)]
      simp
  · have h₁ := List.length_dropWhile_le (· == SLASH) rest
    have h₂ : q.length = elem.length + rest.length := by rw [← hsplit, List.length_append]
    have h₃ : 0 < elem.length := List.length_pos_iff.mpr hne
    omega

/-- **Iterating `skipelem`** gives the components of the path, each cut to `DIRSIZ` bytes and
ended by a NUL iff it is shorter. -/
theorem skipelem_components :
    ∀ (fuel : ℕ) (path name : List UInt8), path.length < fuel →
      List.Forall₂ NameOf (components path) (elems fuel path name)
  | 0, _, _, h => absurd h (Nat.not_lt_zero _)
  | fuel + 1, path, name, h => by
    rcases skipelem_spec path name with ⟨hs, hc⟩ | ⟨c, path', name', hs, hc, hn, -, hl, -⟩
    · rw [hc, elems, hs]
      exact .nil
    · rw [hc, elems, hs]
      exact .cons hn (skipelem_components fuel path' name' (by omega))

/-- The buffer compares equal to the component under `namecmp`. -/
theorem namecmp_nameOf {c name : List UInt8} (hn : NameOf c name) (hc : ∀ x ∈ c, x ≠ 0) :
    namecmp name c = 0 := by
  have hcc : cstr c = c := List.takeWhile_eq_self_iff.mpr fun x hx => by simpa using hc x hx
  unfold namecmp
  rw [strncmp_eq_zero_iff, hcc]
  unfold NameOf at hn
  split_ifs at hn with hd
  · rw [take_cstr, hn, ← take_cstr, hcc]
  · -- a short component: the buffer holds it and a NUL
    have hname : cstr name = c := by
      rw [← List.take_append_drop (c.length + 1) name, hn, List.append_assoc, List.singleton_append,
        cstr_append_of_forall _ hc, cstr_eq, List.headD_cons, if_pos rfl, List.append_nil]
    rw [hname]

/-- An element of a path with no `/` before it has components iff it has bytes. -/
theorem components_eq_nil_iff {p : List UInt8} (h : p.headD 0 ≠ SLASH) :
    components p = [] ↔ p.headD 0 = 0 := by
  constructor
  · intro hc
    by_contra h0
    rcases skipelem_spec p [] with ⟨hs, -⟩ | ⟨c, p', n', -, hcs, -⟩
    · simp only [skipelem, dropWhile_slash_of_headD h, if_neg h0, reduceCtorEq] at hs
    · rw [hc] at hcs
      cases hcs
  · exact components_of_headD_zero

end Components

/-! ### Resolution -/

section Resolve

variable {sb : Superblock} {d : Blocks} {i : ℕ}

theorem resolve_of_not_dir (h : (dinode sb d i).type ≠ T_DIR) (c : List UInt8)
    (cs : List (List UInt8)) : resolve sb d i (c :: cs) = none := by
  rw [resolve, if_pos h]

theorem resolve_of_dir (h : (dinode sb d i).type = T_DIR) (c : List UInt8) (cs : List (List UInt8)) :
    resolve sb d i (c :: cs) =
      (lookup (entries (content (dinode sb d i) d)) c).bind fun p => resolve sb d p.1 cs := by
  rw [resolve, if_neg (not_not.mpr h)]

theorem resolveParent_of_not_dir (h : (dinode sb d i).type ≠ T_DIR) :
    ∀ cs, resolveParent sb d i cs = none
  | [] => rfl
  | [c] => by simp [resolveParent, resolve, h]
  | c :: c' :: cs => by
    rw [resolveParent, List.dropLast_cons_cons, resolve_of_not_dir h]
    rfl

theorem resolveParent_singleton (h : (dinode sb d i).type = T_DIR) (c : List UInt8) :
    resolveParent sb d i [c] = some i := by
  simp [resolveParent, resolve, h]

theorem resolveParent_of_dir (h : (dinode sb d i).type = T_DIR) (c : List UInt8)
    {cs : List (List UInt8)} (hcs : cs ≠ []) :
    resolveParent sb d i (c :: cs) =
      (lookup (entries (content (dinode sb d i) d)) c).bind fun p => resolveParent sb d p.1 cs := by
  obtain ⟨c', cs', rfl⟩ := List.exists_cons_of_ne_nil hcs
  rw [resolveParent, List.dropLast_cons_cons, resolve_of_dir h, Option.bind_assoc]
  rfl

end Resolve

/-! ### References and locks -/

section Moved

/-- The reference `a` holds on slot `k`: one if it is that slot, none if it is `none`. -/
def oneAt (a : Option ℕ) (k : ℕ) : ℕ := if a = some k then 1 else 0

@[simp] theorem oneAt_none (k : ℕ) : oneAt none k = 0 := rfl

@[simp] theorem oneAt_some (i k : ℕ) : oneAt (some i) k = if k = i then 1 else 0 := by
  by_cases h : k = i
  · simp [oneAt, h]
  · simp [oneAt, h, Ne.symm h]

/-- One reference of `t` has moved from slot `a` to slot `b` in `t'` (`none`: from or to outside
the table), and every lock is as it was. -/
def Moved (t t' : Itable) (a b : Option ℕ) : Prop :=
  ∀ k, (t'.slot k).ref + oneAt a k = (t.slot k).ref + oneAt b k ∧ (t'.slot k).locked = (t.slot k).locked

theorem Moved.refl (t : Itable) (a : Option ℕ) : Moved t t a a := fun _ => ⟨rfl, rfl⟩

theorem Moved.trans {t₁ t₂ t₃ : Itable} {a b c : Option ℕ} (h₁ : Moved t₁ t₂ a b)
    (h₂ : Moved t₂ t₃ b c) : Moved t₁ t₃ a c := fun k => by
  obtain ⟨hr₁, hl₁⟩ := h₁ k
  obtain ⟨hr₂, hl₂⟩ := h₂ k
  exact ⟨by omega, hl₂.trans hl₁⟩

/-- The slot a reference has moved to is referenced, if the one it came from was. -/
theorem Moved.one_le {t t' : Itable} {a : Option ℕ} {j : ℕ} (h : Moved t t' a (some j))
    (ha : ∀ i, a = some i → 1 ≤ (t.slot i).ref) : 1 ≤ (t'.slot j).ref := by
  have hj := (h j).1
  rw [oneAt_some, if_pos rfl] at hj
  cases a with
  | none => simp at hj; omega
  | some i =>
    have hi := ha i rfl
    by_cases hji : j = i
    · subst hji
      simp at hj
      omega
    · simp [hji] at hj
      omega

variable {sb : Superblock} {d d' d'' : Blocks} {t t₁ t₂ t₃ : Itable} {i : ℕ}

theorem moved_iget {dev : UInt32} {inum j : ℕ} (h : t.iget dev inum = some (t', j)) :
    Moved t t' none (some j) := fun k => by
  obtain ⟨hr, hl⟩ := Itable.iget_ref h k
  exact ⟨by simp [hr], hl⟩

theorem moved_idup (t : Itable) (i : ℕ) : Moved t (t.idup i) none (some i) := fun k => by
  obtain ⟨hr, hl⟩ := Itable.idup_ref t i k
  exact ⟨by simp [hr], hl⟩

theorem moved_iput (h : Itable.iput sb t d i = some (t', d')) (hr : 1 ≤ (t.slot i).ref) :
    Moved t t' (some i) none := fun k => by
  obtain ⟨hr', hl⟩ := Itable.iput_ref h hr k
  exact ⟨by simpa using hr', hl⟩

/-- `ilock` and then `iunlockput`: the reference is dropped and the lock is as it was. -/
theorem moved_ilock_iunlockput (hl : t.ilock sb d i = some t₁)
    (hp : Itable.iunlockput sb t₁ d' i = some (t₂, d'')) : Moved t t₂ (some i) none := fun k => by
  have hfree := (Itable.ilock_some hl).2.1
  obtain ⟨hr₁, hl₁⟩ := Itable.ilock_ref hl k
  obtain ⟨hr₂, hl₂⟩ := Itable.iunlockput_ref hp k
  refine ⟨by simpa [hr₁] using hr₂, ?_⟩
  rw [hl₂, hl₁]
  by_cases hk : k = i
  · subst hk
    simp [hfree]
  · simp [hk]

/-- `ilock` and then `iunlock`: the reference is kept and the lock is as it was. -/
theorem moved_ilock_iunlock (hl : t.ilock sb d i = some t₁) (hu : t₁.iunlock i = some t₂) :
    Moved t t₂ (some i) (some i) := fun k => by
  have hfree := (Itable.ilock_some hl).2.1
  obtain ⟨hr₁, hl₁⟩ := Itable.ilock_ref hl k
  obtain ⟨hr₂, hl₂⟩ := Itable.iunlock_ref hu k
  refine ⟨by rw [hr₂, hr₁], ?_⟩
  rw [hl₂, hl₁]
  by_cases hk : k = i
  · subst hk
    simp [hfree]
  · simp [hk]

/-- `ilock`, `iget` of the next inode and `iunlockput`: the reference has moved to the slot
`iget` handed out, and the lock is as it was. -/
theorem moved_ilock_iget_iunlockput {dev : UInt32} {inum next : ℕ} (hl : t.ilock sb d i = some t₁)
    (hg : t₁.iget dev inum = some (t₂, next)) (hp : Itable.iunlockput sb t₂ d' i = some (t₃, d'')) :
    Moved t t₃ (some i) (some next) := fun k => by
  have hfree := (Itable.ilock_some hl).2.1
  obtain ⟨hr₁, hl₁⟩ := Itable.ilock_ref hl k
  obtain ⟨hr₂, hl₂⟩ := Itable.iget_ref hg k
  obtain ⟨hr₃, hl₃⟩ := Itable.iunlockput_ref hp k
  refine ⟨by simp only [oneAt_some]; omega, ?_⟩
  rw [hl₃, hl₂, hl₁]
  by_cases hk : k = i
  · subst hk
    simp [hfree]
  · simp [hk]

end Moved

/-- **References and locks of the loop.** Whenever the loop at a referenced slot `ip` returns,
its reference has moved to the slot returned, or been dropped, and every lock is as it was. -/
theorem namexLoop_moved (sb : Superblock) (np : Bool) (de : ℕ) :
    ∀ (fuel : ℕ) (path name : List UInt8) (ip : ℕ) (t : Itable) (d : Blocks) (mem : Mem)
      {r : Option ℕ} {name' : List UInt8} {t' : Itable} {d' : Blocks} {mem' : Mem},
      1 ≤ (t.slot ip).ref → namexLoop sb np de fuel path name ip t d mem = some (r, name', t', d', mem') →
      Moved t t' (some ip) r
  | 0, _, _, _, _, _, _, _, _, _, _, _, _, h => by cases h
  | fuel + 1, path, name, ip, t, d, mem, r, name', t', d', mem', hr, h => by
    rw [namexLoop] at h
    cases hs : skipelem path name with
    | none =>
      rw [hs] at h
      dsimp only at h
      cases np
      · -- `namei` returns the slot with its reference
        simp only [Bool.false_eq_true, if_false, Option.some.injEq, Prod.mk.injEq] at h
        obtain ⟨rfl, -, rfl, -, -⟩ := h
        exact Moved.refl t _
      · rw [if_pos rfl] at h
        obtain ⟨⟨t₁, d₁⟩, hput, heq⟩ := Option.map_eq_some_iff.mp h
        simp only [Prod.mk.injEq] at heq
        obtain ⟨rfl, -, rfl, -, -⟩ := heq
        exact moved_iput hput hr
    | some p =>
      obtain ⟨path₁, name₁⟩ := p
      rw [hs] at h
      dsimp only at h
      cases hl : t.ilock sb d ip with
      | none => rw [hl] at h; cases h
      | some t₁ =>
        rw [hl] at h
        dsimp only at h
        split_ifs at h with hdir hstop
        · -- not a directory
          obtain ⟨⟨t₂, d₂⟩, hp, heq⟩ := Option.map_eq_some_iff.mp h
          simp only [Prod.mk.injEq] at heq
          obtain ⟨rfl, -, rfl, -, -⟩ := heq
          exact moved_ilock_iunlockput hl hp
        · -- `nameiparent` stops one level early
          obtain ⟨t₂, hu, heq⟩ := Option.map_eq_some_iff.mp h
          simp only [Prod.mk.injEq] at heq
          obtain ⟨rfl, -, rfl, -, -⟩ := heq
          exact moved_ilock_iunlock hl hu
        · cases hdl : dirlookupScan sb (t₁.slot ip).ip d mem name₁ de with
          | none => rw [hdl] at h; cases h
          | some q =>
            obtain ⟨found, dp, d₁, mem₁⟩ := q
            rw [hdl] at h
            cases found with
            | none =>
              -- no entry for the element
              dsimp only at h
              obtain ⟨⟨t₂, d₂⟩, hp, heq⟩ := Option.map_eq_some_iff.mp h
              simp only [Prod.mk.injEq] at heq
              obtain ⟨rfl, -, rfl, -, -⟩ := heq
              exact moved_ilock_iunlockput hl hp
            | some f =>
              -- the reference moves to the next inode, and the loop goes on from there
              obtain ⟨inum, off⟩ := f
              dsimp only at h
              cases hg : t₁.iget (t₁.slot ip).dev inum with
              | none => rw [hg] at h; cases h
              | some q₂ =>
                obtain ⟨t₂, next⟩ := q₂
                rw [hg] at h
                dsimp only at h
                cases hp : Itable.iunlockput sb t₂ d₁ ip with
                | none => rw [hp] at h; cases h
                | some q₃ =>
                  obtain ⟨t₃, d₃⟩ := q₃
                  rw [hp] at h
                  dsimp only at h
                  have hm := moved_ilock_iget_iunlockput hl hg hp
                  have hr₃ := hm.one_le fun i hi => by cases hi; exact hr
                  exact hm.trans (namexLoop_moved sb np de fuel path₁ name₁ next t₃ d₃ mem₁ hr₃ h)

/-- **References and locks of `namex`.** Whenever it returns, every slot has the references it
had, and one more on the slot returned, and every lock is as it was. -/
theorem namex_moved {sb : Superblock} {d d' : Blocks} {mem mem' : Mem} {t t' : Itable} {cwd : ℕ}
    {path name name' : List UInt8} {np : Bool} {de : ℕ} {r : Option ℕ}
    (h : namex sb d mem t cwd path np name de = some (r, name', t', d', mem')) : Moved t t' none r := by
  unfold namex at h
  dsimp only at h
  split_ifs at h with hs
  · -- from the root
    cases hg : t.iget ROOTDEV ROOTINO with
    | none => rw [hg] at h; cases h
    | some q =>
      obtain ⟨t₁, ip⟩ := q
      rw [hg] at h
      dsimp only at h
      have hm := moved_iget hg
      exact hm.trans (namexLoop_moved sb np de _ path name ip t₁ d mem (hm.one_le nofun) h)
  · -- from the current directory
    have hm := moved_idup t cwd
    exact hm.trans (namexLoop_moved sb np de _ path name cwd _ d mem (hm.one_le nofun) h)

/-! ### A consistent file system and inode table -/

section Invariants

variable {sb : Superblock} {d : Blocks}

/-- What `namex` needs of the disk: every directory has whole entries and no hole, each live
entry names an allocated inode with links, and the root is allocated with links. -/
structure FsOk (sb : Superblock) (d : Blocks) : Prop where
  dir : ∀ i, Allocated sb d i → (dinode sb d i).type = T_DIR →
    NoHoles (dinode sb d i) d (dinode sb d i).size ∧ (dinode sb d i).size % direntSize = 0
  entry : ∀ i, Allocated sb d i → (dinode sb d i).type = T_DIR →
    ∀ e ∈ entries (content (dinode sb d i) d), e.inum ≠ 0 →
      Allocated sb d e.inum ∧ (dinode sb d e.inum).nlink ≠ 0
  root : Allocated sb d ROOTINO ∧ (dinode sb d ROOTINO).nlink ≠ 0

/-- The copy of every referenced, read inode of the root device is the dinode on the disk. -/
def Coherent (sb : Superblock) (d : Blocks) (t : Itable) : Prop :=
  ∀ k, 0 < (t.slot k).ref → (t.slot k).dev = ROOTDEV → (t.slot k).valid = true →
    (t.slot k).ip = dinode sb d (t.slot k).ip.inum

/-- Two free slots below `NINODE`: one for `namex` to hold and one for `iget` to take. -/
def Room (t : Itable) : Prop :=
  ∃ k₁ < NINODE, ∃ k₂ < NINODE, k₁ ≠ k₂ ∧ t.Empty k₁ ∧ t.Empty k₂

/-- What `namex` needs of the inode table: no lock held, the copies as the disk has them, and
room. -/
structure ItableOk (sb : Superblock) (d : Blocks) (t : Itable) : Prop where
  unlocked : ∀ k, (t.slot k).locked = false
  coherent : Coherent sb d t
  room : Room t

/-- The current directory: a referenced slot of the root device that holds an allocated inode. -/
def CwdOk (sb : Superblock) (d : Blocks) (t : Itable) (cwd : ℕ) : Prop :=
  1 ≤ (t.slot cwd).ref ∧ (t.slot cwd).dev = ROOTDEV ∧ Allocated sb d (t.slot cwd).ip.inum

/-- The state at the top of the loop of `namex` at slot `ip`, against the table `t₀` of the call:
one reference more on `ip` and no lock, copies as the disk has them, and in `ip` an allocated
inode of the root device that the `iput` of this reference will not free. -/
structure LoopOk (sb : Superblock) (d : Blocks) (t₀ t : Itable) (ip : ℕ) : Prop where
  moved : Moved t₀ t none (some ip)
  unlocked : ∀ k, (t.slot k).locked = false
  coherent : Coherent sb d t
  dev : (t.slot ip).dev = ROOTDEV
  alloc : Allocated sb d (t.slot ip).ip.inum
  linked : 1 ≤ (t₀.slot ip).ref ∨ (dinode sb d (t.slot ip).ip.inum).nlink ≠ 0

/-- The table after `ilock` at `ip`: the slot locked, with the dinode as its copy. -/
def lockedAt (sb : Superblock) (d : Blocks) (t : Itable) (ip : ℕ) : Itable :=
  t.set ip { t.slot ip with locked := true, valid := true, ip := dinode sb d (t.slot ip).ip.inum }

theorem Coherent.set {t : Itable} (hc : Coherent sb d t) {i : ℕ} {s : Slot}
    (hs : 0 < s.ref → s.dev = ROOTDEV → s.valid = true → s.ip = dinode sb d s.ip.inum) :
    Coherent sb d (t.set i s) := fun k hr hd hv => by
  by_cases hk : k = i
  · subst hk
    simp only [Itable.set_slot_self] at hr hd hv ⊢
    exact hs hr hd hv
  · rw [Itable.set_slot_of_ne _ _ hk] at hr hd hv ⊢
    exact hc k hr hd hv

theorem Coherent.iget {t t' : Itable} (hc : Coherent sb d t) {dev : UInt32} {inum j : ℕ}
    (hg : t.iget dev inum = some (t', j)) : Coherent sb d t' := fun k hr hd hv => by
  obtain ⟨-, -, -, -, -, hvalid, hother⟩ := Itable.iget_some hg
  by_cases hk : k = j
  · subst hk
    obtain ⟨hpos, hslot⟩ := hvalid hv
    rw [hslot] at hd hv ⊢
    exact hc k hpos hd hv
  · rw [hother k hk] at hr hd hv ⊢
    exact hc k hr hd hv

variable {t₀ t : Itable} {ip : ℕ}

theorem LoopOk.ref (h : LoopOk sb d t₀ t ip) (k : ℕ) :
    (t.slot k).ref = (t₀.slot k).ref + if k = ip then 1 else 0 := by
  simpa using (h.moved k).1

theorem LoopOk.ref_ip (h : LoopOk sb d t₀ t ip) : 1 ≤ (t.slot ip).ref := by
  rw [h.ref ip, if_pos rfl]
  omega

/-- The last reference to an inode with no links is not the one `namex` holds. -/
theorem LoopOk.not_last (h : LoopOk sb d t₀ t ip) :
    ¬ ((t.slot ip).ref = 1 ∧ (dinode sb d (t.slot ip).ip.inum).nlink = 0) := by
  rintro ⟨h1, h0⟩
  rw [h.ref ip, if_pos rfl] at h1
  rcases h.linked with hr | hn
  · omega
  · exact hn h0

theorem LoopOk.ilock (h : LoopOk sb d t₀ t ip) : t.ilock sb d ip = some (lockedAt sb d t ip) := by
  rw [Itable.ilock_eq h.ref_ip (h.unlocked ip) (.inr h.alloc.2), lockedAt]
  by_cases hv : (t.slot ip).valid = true
  · -- a valid copy is the dinode already
    rw [if_pos hv, ← h.coherent ip (by have := h.ref_ip; omega) h.dev hv]
  · rw [if_neg hv]

theorem LoopOk.coherent_lockedAt (h : LoopOk sb d t₀ t ip) : Coherent sb d (lockedAt sb d t ip) :=
  h.coherent.set fun _ _ _ => by simp

theorem LoopOk.iput (h : LoopOk sb d t₀ t ip) : ∃ t', Itable.iput sb t d ip = some (t', d) := by
  refine ⟨_, Itable.iput_eq sb t d fun ⟨h1, hv, h0⟩ => h.not_last ⟨h1, ?_⟩⟩
  rwa [← h.coherent ip (by omega) h.dev hv]

theorem LoopOk.iunlockput (h : LoopOk sb d t₀ t ip) :
    ∃ t', Itable.iunlockput sb (lockedAt sb d t ip) d ip = some (t', d) := by
  refine ⟨_, Itable.iunlockput_eq sb _ d (by simp [lockedAt])
    (by simpa [lockedAt] using h.ref_ip) ?_⟩
  simpa [lockedAt] using h.not_last

theorem LoopOk.iunlock (h : LoopOk sb d t₀ t ip) :
    ∃ t', (lockedAt sb d t ip).iunlock ip = some t' ∧ (t'.slot ip).ip.inum = (t.slot ip).ip.inum :=
  ⟨_, Itable.iunlock_eq (by simp [lockedAt]) (by simpa [lockedAt] using h.ref_ip),
    by simp [lockedAt]⟩

/-- With two free slots in `t₀`, one of them is not `ip`, and `iget` takes it if it must. -/
theorem LoopOk.iget_isSome (h : LoopOk sb d t₀ t ip) (hroom : Room t₀) (dev : UInt32) (inum : ℕ) :
    ((lockedAt sb d t ip).iget dev inum).isSome := by
  obtain ⟨k₁, hk₁, k₂, hk₂, hne, he₁, he₂⟩ := hroom
  obtain ⟨k, hk, hki, hek⟩ : ∃ k < NINODE, k ≠ ip ∧ t₀.Empty k := by
    by_cases h₁ : k₁ = ip
    · exact ⟨k₂, hk₂, fun h₂ => hne (h₁.trans h₂.symm), he₂⟩
    · exact ⟨k₁, hk₁, h₁, he₁⟩
  refine Itable.iget_isSome _ dev inum ⟨k, hk, ?_⟩
  unfold Itable.Empty at hek ⊢
  rw [lockedAt, Itable.set_slot_of_ne _ _ hki, h.ref k, if_neg hki, hek]

/-- **One step of the loop.** From the locked directory at `ip`, `iget` of an allocated inode
with links and `iunlockput` of `ip` keep the disk and reach the state at the top of the loop at
the slot `iget` handed out. -/
theorem LoopOk.next (h : LoopOk sb d t₀ t ip) {inum next : ℕ} {t₂ : Itable}
    (hget : (lockedAt sb d t ip).iget ROOTDEV inum = some (t₂, next)) (ha : Allocated sb d inum)
    (hn : (dinode sb d inum).nlink ≠ 0) :
    ∃ t₃, Itable.iunlockput sb t₂ d ip = some (t₃, d) ∧ LoopOk sb d t₀ t₃ next ∧
      (t₃.slot next).ip.inum = inum := by
  obtain ⟨-, -, -, hinum, hdev, -, hother⟩ := Itable.iget_some hget
  have hl₁ : ((lockedAt sb d t ip).slot ip).locked = true := by simp [lockedAt]
  have hr₁ : ((lockedAt sb d t ip).slot ip).ref = (t.slot ip).ref := by simp [lockedAt]
  obtain ⟨hr₂, hl₂⟩ := Itable.iget_ref hget ip
  -- `ip` is not freed: it has another reference, or links
  have hkeep : ¬ ((t₂.slot ip).ref = 1 ∧ (t₂.slot ip).valid = true ∧ (t₂.slot ip).ip.nlink = 0) := by
    rintro ⟨h1, -, h0⟩
    by_cases hni : ip = next
    · rw [hr₂, if_pos hni, hr₁] at h1
      have := h.ref_ip
      omega
    · rw [hother ip hni] at h1 h0
      simp only [lockedAt, Itable.set_slot_self] at h1 h0
      exact h.not_last ⟨h1, h0⟩
  have hc₂ := h.coherent_lockedAt.iget hget
  obtain ⟨t₃, hp, hnext, hc₃⟩ : ∃ t₃, Itable.iunlockput sb t₂ d ip = some (t₃, d) ∧
      ((t₃.slot next).dev = ROOTDEV ∧ (t₃.slot next).ip.inum = inum) ∧ Coherent sb d t₃ := by
    refine ⟨_, Itable.iunlockput_eq sb t₂ d (by rw [hl₂, hl₁])
      (by rw [hr₂, hr₁]; have := h.ref_ip; omega) hkeep, ?_,
      hc₂.set fun hr hd hv => hc₂ ip (by simp only at hr; omega) hd hv⟩
    -- the slot `next` keeps what `iget` left there, also when it is `ip`
    by_cases hni : next = ip
    · subst hni
      simp only [Itable.set_slot_self]
      exact ⟨hdev, hinum⟩
    · rw [Itable.set_slot_of_ne _ _ hni]
      exact ⟨hdev, hinum⟩
  have hm := moved_ilock_iget_iunlockput h.ilock hget hp
  exact ⟨t₃, hp, ⟨h.moved.trans hm, fun k => (hm k).2.trans (h.unlocked k), hc₃, hnext.1,
    hnext.2 ▸ ha, .inr (hnext.2 ▸ hn)⟩, hnext.2⟩

theorem loopOk_root (hfs : FsOk sb d) (ht : ItableOk sb d t) {t₁ : Itable} {ip : ℕ}
    (hg : t.iget ROOTDEV ROOTINO = some (t₁, ip)) : LoopOk sb d t t₁ ip := by
  obtain ⟨-, -, -, hinum, hdev, -, -⟩ := Itable.iget_some hg
  have hm := moved_iget hg
  exact ⟨hm, fun k => (hm k).2.trans (ht.unlocked k), ht.coherent.iget hg, hdev,
    hinum ▸ hfs.root.1, .inr (hinum ▸ hfs.root.2)⟩

theorem loopOk_cwd (ht : ItableOk sb d t) {cwd : ℕ} (hc : CwdOk sb d t cwd) :
    LoopOk sb d t (t.idup cwd) cwd := by
  have hm := moved_idup t cwd
  refine ⟨hm, fun k => (hm k).2.trans (ht.unlocked k), ?_, by simpa using hc.2.1,
    by simpa using hc.2.2, .inl hc.1⟩
  exact ht.coherent.set fun _ hd hv => ht.coherent cwd hc.1 hd hv

end Invariants

/-! ### What `namex` finds -/

section Resolution

variable {sb : Superblock} {d : Blocks} {t₀ : Itable}

/-- **The loop resolves the path.** On a consistent disk, from the state at the top of the loop,
the loop returns with the disk as it was: `namei` the slot of the inode `resolve` reaches from the
inode of `ip`, `nameiparent` the slot of the directory `resolveParent` reaches, with the last
component in the buffer. It is induction on the fuel, with the path one element shorter each
round; the invariant `LoopOk` carries the references, the locks and the copies. -/
theorem namexLoop_resolve (hfs : FsOk sb d) (hroom : Room t₀) (np : Bool) (de : ℕ) :
    ∀ (fuel : ℕ) (path name : List UInt8) (ip : ℕ) (t : Itable) (mem : Mem),
      path.length < fuel → LoopOk sb d t₀ t ip →
      ∃ r name' t' mem', namexLoop sb np de fuel path name ip t d mem = some (r, name', t', d, mem') ∧
        r.map (fun k => (t'.slot k).ip.inum) =
          (if np then resolveParent sb d (t.slot ip).ip.inum (components path)
            else resolve sb d (t.slot ip).ip.inum (components path)) ∧
        (np = true → r.isSome → ∃ c, (components path).getLast? = some c ∧ NameOf c name')
  | 0, _, _, _, _, _, hlen, _ => absurd hlen (Nat.not_lt_zero _)
  | fuel + 1, path, name, ip, t, mem, hlen, h => by
    rcases skipelem_spec path name with ⟨hs, hc⟩ | ⟨c, path₁, name₁, hs, hc, hn, hcx, hl, hsl⟩
    · -- no element left: `namei` returns the slot, `nameiparent` puts it
      rw [namexLoop, hs, hc]
      dsimp only
      cases np
      · exact ⟨some ip, name, t, mem, rfl, rfl, fun h => absurd h (by decide)⟩
      · obtain ⟨t', hput⟩ := h.iput
        exact ⟨none, name, t', mem, by rw [if_pos rfl, hput]; rfl, rfl, fun _ h => absurd h (by decide)⟩
    -- the element `c`: lock the directory and test it
    have hdp : ((lockedAt sb d t ip).slot ip).ip = dinode sb d (t.slot ip).ip.inum := by
      simp [lockedAt]
    rw [namexLoop, hs, hc]
    dsimp only
    rw [h.ilock]
    dsimp only
    rw [hdp]
    by_cases hdir : (dinode sb d (t.slot ip).ip.inum).type ≠ T_DIR
    · rw [if_pos hdir]
      obtain ⟨t', hp⟩ := h.iunlockput
      refine ⟨none, name₁, t', mem, by rw [hp]; rfl, ?_, fun _ h => absurd h (by decide)⟩
      cases np
      · rw [if_neg (by decide), resolve_of_not_dir hdir]
        rfl
      · rw [if_pos rfl, resolveParent_of_not_dir hdir]
        rfl
    have hdir' : (dinode sb d (t.slot ip).ip.inum).type = T_DIR := not_not.mp hdir
    rw [if_neg hdir]
    by_cases hstop : np = true ∧ path₁.headD 0 = 0
    · -- `nameiparent` stops at the directory that holds the last element
      rw [if_pos hstop]
      obtain ⟨t', hu, hinum⟩ := h.iunlock
      have hnil := components_of_headD_zero hstop.2
      refine ⟨some ip, name₁, t', mem, by rw [hu]; rfl, ?_, fun _ _ => ⟨c, by rw [hnil]; rfl, hn⟩⟩
      rw [hnil, if_pos hstop.1, resolveParent_singleton hdir', Option.map_some, hinum]
    rw [if_neg hstop]
    -- for `nameiparent` another element follows
    have hmore : np = true → components path₁ ≠ [] := fun hnp hnil =>
      hstop ⟨hnp, (components_eq_nil_iff hsl).mp hnil⟩
    obtain ⟨hh, hsz⟩ := hfs.dir _ h.alloc hdir'
    obtain ⟨mem₁, hlook⟩ := dirlookupScan_eq sb hdir' hh hsz mem name₁ de
    -- the buffer finds what the element finds
    have hsame : lookup (entries (content (dinode sb d (t.slot ip).ip.inum) d)) name₁ =
        lookup (entries (content (dinode sb d (t.slot ip).ip.inum) d)) c :=
      lookupFrom_congr (matches_congr (namecmp_nameOf hn fun x hx => (hcx x hx).2)) _ 0
    rw [hlook, hsame]
    cases hfound : lookup (entries (content (dinode sb d (t.slot ip).ip.inum) d)) c with
    | none =>
      -- no entry for `c`
      dsimp only
      obtain ⟨t', hp⟩ := h.iunlockput
      refine ⟨none, name₁, t', mem₁, by rw [hp]; rfl, ?_, fun _ h => absurd h (by decide)⟩
      cases np
      · rw [if_neg (by decide), resolve_of_dir hdir', hfound]
        rfl
      · rw [if_pos rfl, resolveParent_of_dir hdir' c (hmore rfl), hfound]
        rfl
    | some p =>
      -- the entry of `c`: move to its inode and go on with the rest of the path
      obtain ⟨inum, off⟩ := p
      dsimp only
      obtain ⟨e, he, rfl, hm⟩ := lookupFrom_mem c _ 0 inum off hfound
      obtain ⟨ha, hlink⟩ := hfs.entry _ h.alloc hdir' e he hm.1
      have hdev : ((lockedAt sb d t ip).slot ip).dev = ROOTDEV := by simp [lockedAt, h.dev]
      rw [hdev]
      obtain ⟨⟨t₂, next⟩, hget⟩ := Option.isSome_iff_exists.mp (h.iget_isSome hroom ROOTDEV e.inum)
      rw [hget]
      dsimp only
      obtain ⟨t₃, hp, h₃, hinum⟩ := h.next hget ha hlink
      rw [hp]
      dsimp only
      obtain ⟨r, name', t', mem', hrun, hres, hname⟩ :=
        namexLoop_resolve hfs hroom np de fuel path₁ name₁ next t₃ mem₁ (by omega) h₃
      refine ⟨r, name', t', mem', hrun, ?_, fun hnp hr => ?_⟩
      · rw [hres, hinum]
        cases np
        · rw [if_neg (by decide), if_neg (by decide), resolve_of_dir hdir' c, hfound]
          rfl
        · rw [if_pos rfl, if_pos rfl, resolveParent_of_dir hdir' c (hmore rfl), hfound]
          rfl
      · obtain ⟨c', hc', hn'⟩ := hname hnp hr
        exact ⟨c', by rw [List.getLast?_cons, hc']; rfl, hn'⟩

variable {t : Itable} {cwd : ℕ} {path : List UInt8}

/-- **`namex` resolves the path** from the root or the current directory (`startOf`), on a
consistent disk and inode table, and keeps the disk. -/
theorem namex_resolve (hfs : FsOk sb d) (ht : ItableOk sb d t)
    (hcwd : path.headD 0 ≠ SLASH → CwdOk sb d t cwd) (mem : Mem) (np : Bool) (name : List UInt8)
    (de : ℕ) :
    ∃ r name' t' mem', namex sb d mem t cwd path np name de = some (r, name', t', d, mem') ∧
      r.map (fun k => (t'.slot k).ip.inum) =
        (if np then resolveParent sb d (startOf t cwd path) (components path)
          else resolve sb d (startOf t cwd path) (components path)) ∧
      (np = true → r.isSome → ∃ c, (components path).getLast? = some c ∧ NameOf c name') := by
  by_cases hs : path.headD 0 = SLASH
  · -- from the root: `iget` finds a slot, there is room
    obtain ⟨k, hk, -, -, -, he, -⟩ := ht.room
    obtain ⟨⟨t₁, ip⟩, hg⟩ :=
      Option.isSome_iff_exists.mp (Itable.iget_isSome t ROOTDEV ROOTINO ⟨k, hk, he⟩)
    obtain ⟨r, name', t', mem', hrun, hres, hname⟩ := namexLoop_resolve hfs ht.room np de
      _ path name ip t₁ mem (Nat.lt_succ_self _) (loopOk_root hfs ht hg)
    refine ⟨r, name', t', mem', ?_, ?_, hname⟩
    · rw [namex, if_pos hs, hg]
      exact hrun
    · rw [hres, startOf, if_pos hs, (Itable.iget_some hg).2.2.2.1]
  · -- from the current directory
    obtain ⟨r, name', t', mem', hrun, hres, hname⟩ := namexLoop_resolve hfs ht.room np de
      _ path name cwd (t.idup cwd) mem (Nat.lt_succ_self _) (loopOk_cwd ht (hcwd hs))
    refine ⟨r, name', t', mem', ?_, ?_, hname⟩
    · rw [namex, if_neg hs]
      exact hrun
    · rw [hres, startOf, if_neg hs, Itable.idup_slot_self]

end Resolution

/-- **Path resolution.** Iterating `skipelem` gives the components of the path, each cut to
`DIRSIZ` bytes and ended by a NUL iff it is shorter. Whenever `namex` returns, every slot of the
inode table has the lock it had and the references it had, and one more on the slot returned.
On a consistent disk and inode table with room, `namex` does return, with the disk as it was:
`namei` the inode that `resolve` reaches from the root or the current directory, `0` exactly
when a component is missing or looked up in a non-directory, and `nameiparent` the directory
`resolveParent` finds, with the last component in the buffer. -/
theorem namex_path_resolution (sb : Superblock) (d : Blocks) (mem : Mem) (t : Itable) (cwd : ℕ)
    (path name : List UInt8) (np : Bool) (de : ℕ) :
    List.Forall₂ NameOf (components path) (elems (path.length + 1) path name) ∧
    (∀ r name' t' d' mem', namex sb d mem t cwd path np name de = some (r, name', t', d', mem') →
      ∀ k, (t'.slot k).ref = (t.slot k).ref + (if r = some k then 1 else 0) ∧
        (t'.slot k).locked = (t.slot k).locked) ∧
    (FsOk sb d → ItableOk sb d t → (path.headD 0 ≠ SLASH → CwdOk sb d t cwd) →
      ∃ r name' t' mem', namex sb d mem t cwd path np name de = some (r, name', t', d, mem') ∧
        r.map (fun k => (t'.slot k).ip.inum) =
          (if np then resolveParent sb d (startOf t cwd path) (components path)
            else resolve sb d (startOf t cwd path) (components path)) ∧
        (np = true → r.isSome → ∃ c, (components path).getLast? = some c ∧ NameOf c name')) :=
  ⟨skipelem_components _ path name (Nat.lt_succ_self _),
    fun _ _ _ _ _ h k => by simpa [oneAt] using namex_moved h k,
    fun hfs ht hcwd => namex_resolve hfs ht hcwd mem np name de⟩

/-! ### A root directory -/

/-- The block of a root directory with the entries `.` and `..`, both naming inode `1`. -/
def rootBlock : Block := fun k =>
  (([1, 0, 46] : List UInt8) ++ List.replicate 13 0 ++ [1, 0, 46, 46] ++ List.replicate 12 0).getD k.val 0

/-- The `mkfs` disk with the root directory, inode `1`, in block `46`, and no other inode. -/
def rootDisk : Blocks :=
  iupdate Superblock.mkfs (inodeOne T_DIR (2 * direntSize)) (Function.update diskOne 46 rootBlock)

theorem allocated_rootDisk {i : ℕ} (h : Allocated Superblock.mkfs rootDisk i) : i = ROOTINO := by
  by_contra hi
  have hb : IBLOCK i Superblock.mkfs < 45 := by
    have hlt : i < 200 := h.1
    show i / (1024 / 64) + 32 < 45
    omega
  have hi' : i ≠ (inodeOne T_DIR (2 * direntSize)).inum := hi
  apply h.2
  -- every other inode is read from a block of zeros
  rw [rootDisk, dinode_iupdate_of_ne hi', dinode_congr (Function.update_of_ne (by omega) _ _)]
  unfold dinode getDinode diskOne
  rw [if_neg (by omega)]
  simp

theorem root_rootDisk :
    Allocated Superblock.mkfs rootDisk ROOTINO ∧ (dinode Superblock.mkfs rootDisk ROOTINO).nlink ≠ 0 := by
  decide

theorem entries_rootDisk :
    entries (content (dinode Superblock.mkfs rootDisk ROOTINO) rootDisk) =
      [⟨1, 46 :: List.replicate 13 0⟩, ⟨1, 46 :: 46 :: List.replicate 12 0⟩] := by
  decide

theorem fsOk_rootDisk : FsOk Superblock.mkfs rootDisk := by
  refine ⟨fun i hi _ => ?_, fun i hi _ e he _ => ?_, root_rootDisk⟩
  · rw [allocated_rootDisk hi]
    refine ⟨fun bn hbn => ?_, by decide⟩
    have hsz : (dinode Superblock.mkfs rootDisk ROOTINO).size = 32 := by decide
    obtain rfl : bn = 0 := by
      rw [hsz] at hbn
      unfold BSIZE at hbn
      omega
    decide
  · rw [allocated_rootDisk hi, entries_rootDisk] at he
    simp only [List.mem_cons, List.not_mem_nil, or_false] at he
    rcases he with rfl | rfl <;> exact root_rootDisk

theorem itableOk_empty (sb : Superblock) (d : Blocks) : ItableOk sb d emptyItable :=
  ⟨fun _ => rfl, fun _ h => absurd h (Nat.lt_irrefl 0),
    ⟨0, by decide, 1, by decide, by decide, rfl, rfl⟩⟩

/-- `/.` from an empty inode table on the disk with a root directory: `namei` returns the root. -/
theorem namex_path_resolution_dot :
    FsOk Superblock.mkfs rootDisk ∧ ItableOk Superblock.mkfs rootDisk emptyItable ∧
      ∃ r name' t' mem', namex Superblock.mkfs rootDisk memZero emptyItable 0 [SLASH, 46] false [] 0 =
        some (r, name', t', rootDisk, mem') ∧ r.map (fun k => (t'.slot k).ip.inum) = some ROOTINO := by
  obtain ⟨-, -, hres⟩ :=
    namex_path_resolution Superblock.mkfs rootDisk memZero emptyItable 0 [SLASH, 46] [] false 0
  obtain ⟨r, name', t', mem', hrun, hmap, -⟩ :=
    hres fsOk_rootDisk (itableOk_empty _ _) fun h => absurd rfl h
  refine ⟨fsOk_rootDisk, itableOk_empty _ _, r, name', t', mem', hrun, ?_⟩
  rw [hmap]
  decide

/-- An inode table whose every slot is in use, by inodes other than the root. -/
def fullItable : Itable := ⟨fun k => ⟨ROOTDEV, 1, false, false, Inode.zeroed (k + 2) 0⟩⟩

/-- **A full inode table.** On the disk with a root directory, with every slot of the inode
table in use by another inode, `namex("/", 0, name)` does not return the root: `iget` panics
with `"iget: no inodes"`. -/
theorem namex_full_itable_panics :
    FsOk Superblock.mkfs rootDisk ∧
      namex Superblock.mkfs rootDisk memZero fullItable 0 [SLASH] false [] 0 = none := by
  have hs : [SLASH].headD 0 = SLASH := rfl
  have hg : (fullItable.iget ROOTDEV ROOTINO).isNone = true := by
    set_option maxRecDepth 8000 in decide
  refine ⟨fsOk_rootDisk, ?_⟩
  rw [namex, if_pos hs, Option.isNone_iff_eq_none.mp hg]

end Xv6
