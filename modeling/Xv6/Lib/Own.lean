import Mathlib.Logic.ExistsUnique

/-!
# Exclusive ownership of marked resources

A free map marks some resources of type `X` as in use, and owners of type `I` hold resources.
`Exclusive marked holds` is the allocation invariant of such a store: a resource is marked iff
some owner holds it, and no two owners hold the same one. A resource that is not marked is
held by nobody, so an allocator that hands out only unmarked resources never hands out one
that is held.

The frame rule `Exclusive.update` is how the invariant survives a step in which one owner `i`
acts alone: the others hold what they held, `i` takes only what was free or its own, drops a
resource only by unmarking it, and leaves every marked resource it did not hold marked.
-/

namespace Own

variable {I X : Type*}

/-- The allocation invariant: marked iff held, and held by one owner at most. -/
structure Exclusive (marked : X → Prop) (holds : I → X → Prop) : Prop where
  marked_of_holds : ∀ i x, holds i x → marked x
  holds_of_marked : ∀ x, marked x → ∃ i, holds i x
  unique : ∀ i j x, holds i x → holds j x → i = j

variable {marked marked' : X → Prop} {holds holds' : I → X → Prop}

/-- A resource that is not marked is held by nobody. -/
theorem Exclusive.not_holds (h : Exclusive marked holds) {x : X} (hx : ¬ marked x) (i : I) :
    ¬ holds i x :=
  fun hi => hx (h.marked_of_holds i x hi)

/-- A marked resource has exactly one owner. -/
theorem Exclusive.existsUnique (h : Exclusive marked holds) {x : X} (hx : marked x) :
    ∃! i, holds i x := by
  obtain ⟨i, hi⟩ := h.holds_of_marked x hx
  exact ⟨i, hi, fun j hj => h.unique j i x hj hi⟩

/-- The invariant only looks at the marks and the holdings. -/
theorem Exclusive.congr (h : Exclusive marked holds) (hm : ∀ x, marked' x ↔ marked x)
    (hh : ∀ i x, holds' i x ↔ holds i x) : Exclusive marked' holds' where
  marked_of_holds i x hi := (hm x).mpr (h.marked_of_holds i x ((hh i x).mp hi))
  holds_of_marked x hx := by
    obtain ⟨i, hi⟩ := h.holds_of_marked x ((hm x).mp hx)
    exact ⟨i, (hh i x).mpr hi⟩
  unique i j x hi hj := h.unique i j x ((hh i x).mp hi) ((hh j x).mp hj)

/-- **Frame rule.** A step of owner `i` alone keeps the invariant when the other owners hold
what they held, `i` takes only resources that were its own or not marked, a resource marked
afterwards was marked before or is held by `i`, what `i` held and is still marked it still
holds, a marked resource `i` did not hold stays marked, and what `i` holds is marked. -/
theorem Exclusive.update (h : Exclusive marked holds) (i : I)
    (hother : ∀ j, j ≠ i → ∀ x, holds' j x ↔ holds j x)
    (htake : ∀ x, holds' i x → holds i x ∨ ¬ marked x)
    (hmark : ∀ x, marked' x → marked x ∨ holds' i x)
    (hdrop : ∀ x, holds i x → marked' x → holds' i x)
    (hkeep : ∀ x, marked x → ¬ holds i x → marked' x)
    (hheld : ∀ x, holds' i x → marked' x) : Exclusive marked' holds' := by
  refine ⟨?marked_of_holds, ?holds_of_marked, ?unique⟩
  case marked_of_holds =>
    intro j x hj
    by_cases hji : j = i
    · exact hheld x (hji ▸ hj)
    · -- another owner's resource was marked, and `i` did not hold it
      have hold : holds j x := (hother j hji x).mp hj
      exact hkeep x (h.marked_of_holds j x hold) fun hi => hji (h.unique j i x hold hi)
  case holds_of_marked =>
    intro x hx
    rcases hmark x hx with hm | hi
    · obtain ⟨j, hj⟩ := h.holds_of_marked x hm
      by_cases hji : j = i
      · exact ⟨i, hdrop x (hji ▸ hj) hx⟩
      · exact ⟨j, (hother j hji x).mpr hj⟩
    · exact ⟨i, hi⟩
  case unique =>
    -- two owners of one resource: if one is `i`, the other held it, so it was marked and `i`'s
    have key : ∀ j x, j ≠ i → holds' i x → holds' j x → False := by
      intro j x hji hi hj
      have hold : holds j x := (hother j hji x).mp hj
      rcases htake x hi with hi' | hm
      · exact hji (h.unique j i x hold hi')
      · exact hm (h.marked_of_holds j x hold)
    intro j k x hj hk
    by_cases hji : j = i <;> by_cases hki : k = i
    · rw [hji, hki]
    · exact (key k x hki (hji ▸ hj) hk).elim
    · exact (key j x hji (hki ▸ hk) hj).elim
    · exact h.unique j k x ((hother j hji x).mp hj) ((hother k hki x).mp hk)

end Own
