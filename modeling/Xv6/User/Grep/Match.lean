import Mathlib.Computability.Language

/-!
# grep's matcher (`match`, `matchhere`, `matchstar` in `user/grep.c`)

The Kernighan–Pike matcher on C strings, here lists of bytes without their NUL: `*text != '\0'`
is `text ≠ []`. `matchhere` recurses on the pattern and hands `matchstar` the rest of it as the
function `matchhere re`, which is how `matchstar(c, re, text)` calls `matchhere(re, text)`.

The reference reads the pattern, without a leading `^`, as a list of atoms (`parse`): `c*` is
zero or more bytes equal to `c` (any byte for `.`), a final `$` is the end of the text, `.` is
one byte and any other byte is itself. Each atom has a `Language` of Mathlib, and the atoms
accept a text when a prefix of it lies in the concatenation of their languages, all of it when
the last atom is `$` (`Accepts`).

* `matchstar_iff`: the star loop tries every run of bytes equal to `c`, shortest first;
* `matchhere_iff`: `matchhere(re, text)` is `Accepts (parse re) text`;
* `match_iff_spec`: `match(re, text)` is that for some suffix of the text, or for the text itself
  after `^`.
-/

namespace Xv6.Grep

/-! ### The matcher -/

/-- `matchstar(c, re, text)`, with `here` for `matchhere(re, ·)`: the loop
`do { if(matchhere(re, text)) return 1; } while(*text != '\0' && (*text++ == c || c == '.'));`. -/
def matchstar (here : List UInt8 → Bool) (c : UInt8) : List UInt8 → Bool
  | [] => here []
  | t :: ts => here (t :: ts) || ((t == c || c == 46) && matchstar here c ts)

/-- The last test of `matchhere`, with `here` for `matchhere(re+1, ·)`:
`if(*text!='\0' && (re[0]=='.' || re[0]==*text)) return matchhere(re+1, text+1); return 0;`. -/
def matchOne (c : UInt8) (here : List UInt8 → Bool) : List UInt8 → Bool
  | [] => false
  | t :: ts => (c == 46 || c == t) && here ts

/-- `matchhere(re, text)`. A one-byte pattern is `$`, the end of the text, or one byte followed by
`matchhere("", ·)`, which is `1`; a longer one starts with `c*` or with one byte. -/
def matchhere : List UInt8 → List UInt8 → Bool
  | [] => fun _ => true
  | [c] => fun text => if c = 36 then text.isEmpty else matchOne c (fun _ => true) text
  | c :: d :: re =>
    if d = 42 then matchstar (matchhere re) c else matchOne c (matchhere (d :: re))

/-- The loop of `match` without `^`: `do { if(matchhere(re, text)) return 1; }
while(*text++ != '\0');`, which tries every suffix down to the empty one. -/
def matchLoop (re : List UInt8) : List UInt8 → Bool
  | [] => matchhere re []
  | t :: ts => matchhere re (t :: ts) || matchLoop re ts

/-- `match(re, text)`. -/
def matchRe (re text : List UInt8) : Bool :=
  if re.head? = some 94 then matchhere re.tail text else matchLoop re text

/-! ### The reference -/

/-- An atom of a pattern. -/
inductive Atom where
  /-- `c*`: zero or more bytes equal to `c`, any bytes for `.*`. -/
  | star (c : UInt8)
  /-- `.`: one byte. -/
  | any
  /-- Any other byte, itself. -/
  | lit (c : UInt8)
  /-- A final `$`: the end of the text. -/
  | eol
  deriving DecidableEq, Repr

/-- The atom of one byte that is not followed by `*`, other than a final `$`. -/
def charAtom (c : UInt8) : Atom := if c = 46 then .any else .lit c

/-- The pattern as atoms, scanning from the left. -/
def parse : List UInt8 → List Atom
  | [] => []
  | [c] => [if c = 36 then .eol else charAtom c]
  | c :: d :: re => if d = 42 then .star c :: parse re else charAtom c :: parse (d :: re)

/-- The words of an atom; the end of the text is the empty word, the condition that nothing
follows it being `Accepts`'s. -/
def Atom.lang : Atom → Language UInt8
  | .star c => {w | ∀ x ∈ w, c = 46 ∨ x = c}
  | .any => {w | ∃ x, w = [x]}
  | .lit c => {[c]}
  | .eol => 1

/-- The concatenation of the atoms' languages. -/
def lang (atoms : List Atom) : Language UInt8 := (atoms.map Atom.lang).prod

/-- The pattern ends with the end-of-text atom. -/
def EndsEol (atoms : List Atom) : Prop := atoms.getLast? = some .eol

/-- The atoms accept the text: a prefix of it is in their language, the whole text if they end
with `$`. -/
def Accepts (atoms : List Atom) (text : List UInt8) : Prop :=
  ∃ u v, text = u ++ v ∧ u ∈ lang atoms ∧ (EndsEol atoms → v = [])

/-- What `match(re, text)` should return: without `^`, some suffix of the text is accepted by the
atoms; after `^`, the text itself is. -/
def MatchSpec (re text : List UInt8) : Prop :=
  if re.head? = some 94 then Accepts (parse re.tail) text
  else ∃ t, t <:+ text ∧ Accepts (parse re) t

/-! ### The atoms one by one -/

theorem endsEol_cons {a : Atom} (ha : a ≠ .eol) (as : List Atom) :
    EndsEol (a :: as) ↔ EndsEol as := by
  unfold EndsEol
  cases as with
  | nil => simp [ha]
  | cons b bs => rw [List.getLast?_cons_cons]

theorem accepts_nil (text : List UInt8) : Accepts [] text :=
  ⟨[], text, rfl, by simp [lang], fun h => absurd h (by simp [EndsEol])⟩

theorem accepts_eol (text : List UInt8) : Accepts [.eol] text ↔ text = [] := by
  constructor
  · rintro ⟨u, v, rfl, hu, hv⟩
    have hu' : u = [] := by simpa [lang, Atom.lang] using hu
    rw [hu', hv (by simp [EndsEol])]
    rfl
  · rintro rfl
    exact ⟨[], [], rfl, by simp [lang, Atom.lang], fun _ => rfl⟩

/-- **Peeling an atom.** An atom other than `$` followed by `as` accepts the text when some
prefix of it is a word of the atom and `as` accepts the rest. -/
theorem accepts_cons {a : Atom} (ha : a ≠ .eol) (as : List Atom) (text : List UInt8) :
    Accepts (a :: as) text ↔
      ∃ k ≤ text.length, text.take k ∈ a.lang ∧ Accepts as (text.drop k) := by
  constructor
  · rintro ⟨u, v, rfl, hu, hv⟩
    obtain ⟨u₁, hu₁, u₂, hu₂, rfl⟩ := Language.mem_mul.mp (by simpa [lang] using hu)
    refine ⟨u₁.length, by simp, by simpa using hu₁, u₂, v, by simp, hu₂, fun he => ?_⟩
    exact hv ((endsEol_cons ha as).mpr he)
  · rintro ⟨k, -, hk, u₂, v, hdrop, hu₂, hv⟩
    refine ⟨text.take k ++ u₂, v, ?_, ?_, fun he => hv ((endsEol_cons ha as).mp he)⟩
    · rw [List.append_assoc, ← hdrop, List.take_append_drop]
    · simpa [lang] using Language.mem_mul.mpr ⟨_, hk, _, hu₂, rfl⟩

theorem charAtom_ne_eol (c : UInt8) : charAtom c ≠ .eol := by
  unfold charAtom
  split <;> simp

theorem mem_charAtom_lang {c : UInt8} {w : List UInt8} :
    w ∈ (charAtom c).lang ↔ ∃ x, w = [x] ∧ (c = 46 ∨ c = x) := by
  unfold charAtom
  by_cases hc : c = 46
  · simp only [hc, if_true, Atom.lang]
    exact ⟨fun ⟨x, hx⟩ => ⟨x, hx, by simp⟩, fun ⟨x, hx, _⟩ => ⟨x, hx⟩⟩
  · simp only [hc, if_false, Atom.lang, false_or]
    constructor
    · rintro rfl
      exact ⟨c, rfl, rfl⟩
    · rintro ⟨x, rfl, rfl⟩
      rfl

/-- A one-byte atom takes the first byte. -/
theorem accepts_charAtom (c : UInt8) (as : List Atom) (text : List UInt8) :
    Accepts (charAtom c :: as) text ↔
      ∃ x xs, text = x :: xs ∧ (c = 46 ∨ c = x) ∧ Accepts as xs := by
  rw [accepts_cons (charAtom_ne_eol c)]
  constructor
  · rintro ⟨k, hk, hw, hacc⟩
    obtain ⟨x, hx, hok⟩ := mem_charAtom_lang.mp hw
    -- the prefix of one byte is the head
    cases text with
    | nil => simp at hx
    | cons y ys =>
      have hk1 : k = 1 := by
        have := congrArg List.length hx
        simp only [List.length_take, List.length_cons, List.length_nil] at this hk
        omega
      subst hk1
      simp only [List.take_succ_cons, List.take_zero, List.cons.injEq, and_true] at hx
      subst hx
      exact ⟨y, ys, rfl, hok, by simpa using hacc⟩
  · rintro ⟨x, xs, rfl, hok, hacc⟩
    exact ⟨1, by simp, mem_charAtom_lang.mpr ⟨x, by simp, hok⟩, by simpa using hacc⟩

/-! ### The matcher against the atoms -/

/-- **The star loop** tries `here` after every run of bytes equal to `c` at the front of the
text, from the empty run up. -/
theorem matchstar_iff (here : List UInt8 → Bool) (c : UInt8) :
    ∀ text, matchstar here c text = true ↔
      ∃ k ≤ text.length, (∀ x ∈ text.take k, c = 46 ∨ x = c) ∧ here (text.drop k) = true
  | [] => by simp [matchstar]
  | t :: ts => by
    rw [matchstar, Bool.or_eq_true, Bool.and_eq_true, matchstar_iff here c ts]
    constructor
    · rintro (h | ⟨hc, k, hk, hrun, hhere⟩)
      · exact ⟨0, by simp, by simp, h⟩
      · refine ⟨k + 1, by simp; omega, fun x hx => ?_, by simpa using hhere⟩
        simp only [List.take_succ_cons, List.mem_cons] at hx
        rcases hx with rfl | hx
        · simp only [Bool.or_eq_true, beq_iff_eq] at hc
          exact hc.elim Or.inr Or.inl
        · exact hrun x hx
    · rintro ⟨k, hk, hrun, hhere⟩
      cases k with
      | zero => exact .inl (by simpa using hhere)
      | succ k =>
        -- a run of at least one byte: the first byte is `c`, or `c` is `.`
        have ht := hrun t (by simp)
        refine .inr ⟨?_, k, by simp at hk; omega, fun x hx => hrun x (by simp [hx]), by
          simpa using hhere⟩
        simp only [Bool.or_eq_true, beq_iff_eq]
        exact ht.elim Or.inr Or.inl

theorem matchOne_iff (c : UInt8) (here : List UInt8 → Bool) (text : List UInt8) :
    matchOne c here text = true ↔ ∃ x xs, text = x :: xs ∧ (c = 46 ∨ c = x) ∧ here xs = true := by
  cases text with
  | nil => simp [matchOne]
  | cons t ts => simp [matchOne]

/-- **`matchhere` is the reference.** By recursion on the pattern, as `matchhere` recurses. -/
theorem matchhere_iff : ∀ (re text : List UInt8), matchhere re text = true ↔ Accepts (parse re) text
  | [], text => by simp [matchhere, parse, accepts_nil]
  | [c], text => by
    by_cases hc : c = 36
    · simp [matchhere, parse, hc, accepts_eol]
    · simp only [matchhere, parse, hc, if_false, matchOne_iff, accepts_charAtom, accepts_nil,
        and_true]
  | c :: d :: re, text => by
    by_cases hd : d = 42
    · -- `c*`: the star loop against the star atom
      simp only [matchhere, parse, hd, if_true]
      rw [matchstar_iff, accepts_cons (by simp)]
      simp only [Atom.lang, matchhere_iff re]
      exact Iff.rfl
    · simp only [matchhere, parse, hd, if_false]
      rw [matchOne_iff, accepts_charAtom]
      simp only [matchhere_iff (d :: re)]

/-- The unanchored loop tries `matchhere` on every suffix. -/
theorem matchLoop_iff (re : List UInt8) :
    ∀ text, matchLoop re text = true ↔ ∃ t, t <:+ text ∧ matchhere re t = true
  | [] => by simp [matchLoop]
  | x :: xs => by
    rw [matchLoop, Bool.or_eq_true, matchLoop_iff re xs]
    constructor
    · rintro (h | ⟨t, ht, hm⟩)
      · exact ⟨x :: xs, List.suffix_refl _, h⟩
      · exact ⟨t, ht.trans (List.suffix_cons x xs), hm⟩
    · rintro ⟨t, ht, hm⟩
      rcases List.suffix_cons_iff.mp ht with rfl | ht'
      · exact .inl hm
      · exact .inr ⟨t, ht', hm⟩

/-- **grep's matcher meets the reference.** For every pattern and text, `match(re, text)` is `1`
iff some suffix of the text, or the text itself when the pattern starts with `^`, has a prefix in
the concatenation of the atoms' languages, all of it when the last atom is `$`. -/
theorem match_iff_spec (re text : List UInt8) : matchRe re text = true ↔ MatchSpec re text := by
  unfold matchRe MatchSpec
  by_cases h : re.head? = some 94
  · rw [if_pos h, if_pos h, matchhere_iff]
  · rw [if_neg h, if_neg h, matchLoop_iff]
    simp only [matchhere_iff]

/-- `a.*b$` finds `accb` at the end of `xaccb`. -/
example : matchRe [97, 46, 42, 98, 36] [120, 97, 99, 99, 98] = true := by decide

end Xv6.Grep
