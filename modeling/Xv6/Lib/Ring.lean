import Mathlib.Data.List.Basic
import Mathlib.Algebra.Ring.Nat
import Mathlib.Logic.Function.Basic

/-!
# Ring buffers indexed by free-running counters

A ring buffer of capacity `cap` stores its cells in `data : Fin cap → α` and is read through
two counters that only ever grow: cell `k` of the live window starting at counter value
`start` sits in slot `(start + k) % cap`. Counters of a machine type wrap at some modulus
`M`; when `cap ∣ M` the wrap is invisible to the slots (`slot_mod_of_dvd`), which is what lets a
program compare and index with wrapping counters.

* `view data start count` is the live window as a list.
* `view_push`: writing the slot after a window shorter than `cap` appends to it.
* `view_pop`: the first cell of a window is its head and the rest is the window one further.
* `view_sub_append`: a window splits at any counter between its ends.

For 32-bit counters the window length is the wrapping difference `(b - a).toNat`; a section
gives its arithmetic. A 16-bit counter can also be read through a window length kept on the side,
the upper counter being the lower one plus that length; the last section covers that reading.
-/

namespace Ring

variable {α : Type*} {cap : ℕ} [NeZero cap]

/-- The slot that counter value `n` lands in. -/
def slot (cap : ℕ) [NeZero cap] (n : ℕ) : Fin cap :=
  ⟨n % cap, Nat.mod_lt _ (Nat.pos_of_ne_zero (NeZero.ne cap))⟩

@[simp] theorem val_slot (n : ℕ) : (slot cap n).val = n % cap := rfl

/-- Counter values that agree modulo a multiple of `cap` share their slot. -/
theorem slot_mod_of_dvd {M : ℕ} (h : cap ∣ M) (n : ℕ) : slot cap (n % M) = slot cap n := by
  ext
  simp [Nat.mod_mod_of_dvd n h]

/-- Two counter values less than `cap` apart land in different slots. -/
theorem slot_ne_of_lt {a b : ℕ} (hab : a < b) (hb : b < a + cap) : slot cap a ≠ slot cap b := by
  intro h
  have h' : b % cap = a % cap := (congrArg Fin.val h).symm
  have hd : cap ∣ b - a := Nat.dvd_of_mod_eq_zero (Nat.sub_mod_eq_zero_of_mod_eq h')
  have hpos : 0 < b - a := by omega
  have := Nat.le_of_dvd hpos hd
  omega

/-- The live window: `count` cells starting at counter value `start`. -/
def view (data : Fin cap → α) (start count : ℕ) : List α :=
  (List.range count).map fun k => data (slot cap (start + k))

@[simp] theorem length_view (data : Fin cap → α) (start count : ℕ) :
    (view data start count).length = count := by
  simp [view]

@[simp] theorem view_zero (data : Fin cap → α) (start : ℕ) : view data start 0 = [] := rfl

theorem view_succ (data : Fin cap → α) (start count : ℕ) :
    view data start (count + 1) = view data start count ++ [data (slot cap (start + count))] := by
  simp [view, List.range_succ]

/-- The window only depends on the slot of its start. -/
theorem view_mod_of_dvd {M : ℕ} (h : cap ∣ M) (data : Fin cap → α) (start count : ℕ) :
    view data (start % M) count = view data start count := by
  unfold view
  congr 1
  funext k
  rw [← slot_mod_of_dvd h (start % M + k), ← slot_mod_of_dvd h (start + k), Nat.add_mod,
    Nat.mod_mod, ← Nat.add_mod]

/-- A write to a slot outside the window leaves the window unchanged. -/
theorem view_update_of_forall_ne (data : Fin cap → α) (start count : ℕ) (i : Fin cap) (x : α)
    (hi : ∀ k < count, slot cap (start + k) ≠ i) :
    view (Function.update data i x) start count = view data start count := by
  unfold view
  apply List.map_congr_left
  intro k hk
  rw [Function.update_of_ne (hi k (List.mem_range.mp hk))]

/-- **Push.** Writing the slot just after a window shorter than `cap` appends the value. -/
theorem view_push (data : Fin cap → α) (start count : ℕ) (x : α) (hc : count < cap) :
    view (Function.update data (slot cap (start + count)) x) start (count + 1) =
      view data start count ++ [x] := by
  rw [view_succ, Function.update_self, view_update_of_forall_ne]
  intro k hk
  exact slot_ne_of_lt (by omega) (by omega)

/-- A window is its first `m` cells followed by the next `n`. -/
theorem view_add (data : Fin cap → α) (start m n : ℕ) :
    view data start (m + n) = view data start m ++ view data (start + m) n := by
  simp [view, List.range_add, Nat.add_assoc]

/-- **Pop.** A nonempty window is its head cell followed by the window one further on. -/
theorem view_pop (data : Fin cap → α) (start count : ℕ) :
    view data start (count + 1) = data (slot cap start) :: view data (start + 1) count := by
  simp only [view, List.range_succ_eq_map, List.map_cons, List.map_map, Nat.add_zero]
  congr 1
  apply List.map_congr_left
  intro k _
  simp [Nat.add_assoc, Nat.add_comm 1 k]

/-! ### Wrapping 32-bit counters -/

/-- Counting `(b - a).toNat` cells on from `a` ends at `b`, modulo `2 ^ 32`. -/
theorem toNat_add_toNat_sub (a b : UInt32) : (a.toNat + (b - a).toNat) % 2 ^ 32 = b.toNat := by
  rw [UInt32.toNat_sub]
  have ha := a.toNat_lt_size
  have hb := b.toNat_lt_size
  simp only [UInt32.size] at ha hb
  omega

/-- Advancing the upper counter lengthens the window by one, short of a full wrap. -/
theorem toNat_succ_sub (a b : UInt32) (h : (b - a).toNat + 1 < 2 ^ 32) :
    (b + 1 - a).toNat = (b - a).toNat + 1 := by
  rw [UInt32.toNat_sub, UInt32.toNat_sub, UInt32.toNat_add] at *
  have ha := a.toNat_lt_size
  have hb := b.toNat_lt_size
  simp only [UInt32.size, UInt32.reduceToNat] at ha hb ⊢
  omega

/-- Advancing the lower counter of a nonempty window shortens it by one. -/
theorem toNat_sub_succ (a b : UInt32) (h : 0 < (b - a).toNat) :
    (b - (a + 1)).toNat = (b - a).toNat - 1 := by
  rw [UInt32.toNat_sub, UInt32.toNat_sub, UInt32.toNat_add] at *
  have ha := a.toNat_lt_size
  have hb := b.toNat_lt_size
  simp only [UInt32.size, UInt32.reduceToNat] at ha hb ⊢
  omega

/-- Moving the upper counter back shortens a nonempty window by one. -/
theorem toNat_pred_sub (a b : UInt32) (h : 0 < (b - a).toNat) :
    (b - 1 - a).toNat = (b - a).toNat - 1 := by
  rw [UInt32.toNat_sub, UInt32.toNat_sub, UInt32.toNat_sub] at *
  have ha := a.toNat_lt_size
  have hb := b.toNat_lt_size
  simp only [UInt32.size, UInt32.reduceToNat] at ha hb ⊢
  omega

/-- For `b` between `a` and `c` in ring order, the distance from `b` to `c` is the difference of
the distances from `a`. -/
theorem toNat_sub_sub (a b c : UInt32) (h : (b - a).toNat ≤ (c - a).toNat) :
    (c - b).toNat = (c - a).toNat - (b - a).toNat := by
  rw [UInt32.toNat_sub, UInt32.toNat_sub, UInt32.toNat_sub] at *
  have ha := a.toNat_lt_size
  have hb := b.toNat_lt_size
  have hc := c.toNat_lt_size
  simp only [UInt32.size] at ha hb hc
  omega

/-- A wrapping comparison `b == a + c` tests the window length. -/
theorem eq_add_iff_toNat_sub (a b c : UInt32) : b = a + c ↔ (b - a).toNat = c.toNat := by
  rw [← UInt32.toNat_inj, UInt32.toNat_sub, UInt32.toNat_add]
  have ha := a.toNat_lt_size
  have hb := b.toNat_lt_size
  have hc := c.toNat_lt_size
  simp only [UInt32.size] at ha hb hc
  omega

/-- A window is empty iff its counters are equal. -/
theorem toNat_sub_eq_zero_iff (a b : UInt32) : (b - a).toNat = 0 ↔ b = a := by
  have h := eq_add_iff_toNat_sub a b 0
  rw [UInt32.add_zero] at h
  exact h.symm

/-- The upper counter's slot is the slot just past the window, when `cap ∣ 2 ^ 32`. -/
theorem slot_toNat_eq (h : cap ∣ 2 ^ 32) (a b : UInt32) :
    slot cap b.toNat = slot cap (a.toNat + (b - a).toNat) := by
  rw [← toNat_add_toNat_sub a b, slot_mod_of_dvd h]

/-- The window of a 32-bit lower counter advanced by one starts one cell further. -/
theorem view_toNat_succ (h : cap ∣ 2 ^ 32) (data : Fin cap → α) (a : UInt32) (count : ℕ) :
    view data (a + 1).toNat count = view data (a.toNat + 1) count := by
  have hs : (a + 1).toNat = (a.toNat + 1) % 2 ^ 32 := by simp [UInt32.toNat_add]
  rw [hs, view_mod_of_dvd h]

/-- **Split.** For `b` between `a` and `c` in ring order, the window from `a` to `c` is the one
from `a` to `b` followed by the one from `b` to `c`. -/
theorem view_sub_append (h : cap ∣ 2 ^ 32) (data : Fin cap → α) (a b c : UInt32)
    (hab : (b - a).toNat ≤ (c - a).toNat) :
    view data a.toNat (c - a).toNat =
      view data a.toNat (b - a).toNat ++ view data b.toNat (c - b).toNat := by
  obtain ⟨k, hk⟩ : ∃ k, (c - a).toNat = (b - a).toNat + k := ⟨_, (Nat.add_sub_cancel' hab).symm⟩
  rw [toNat_sub_sub a b c hab, hk, Nat.add_sub_cancel_left, view_add, ← toNat_add_toNat_sub a b,
    view_mod_of_dvd h]

/-! ### 16-bit counters a known count apart -/

theorem toNat_add_ofNat16 (a : UInt16) (n : ℕ) :
    (a + UInt16.ofNat n).toNat = (a.toNat + n) % 2 ^ 16 := by
  simp [UInt16.toNat_add]

/-- The counter `n` past `a` lands in the slot `n` cells on, when `cap ∣ 2 ^ 16`. -/
theorem slot_add_ofNat16 (h : cap ∣ 2 ^ 16) (a : UInt16) (n : ℕ) :
    slot cap (a + UInt16.ofNat n).toNat = slot cap (a.toNat + n) := by
  rw [toNat_add_ofNat16, slot_mod_of_dvd h]

/-- The window of a 16-bit lower counter advanced by one starts one cell further. -/
theorem view_toNat_succ16 (h : cap ∣ 2 ^ 16) (data : Fin cap → α) (a : UInt16) (count : ℕ) :
    view data (a + 1).toNat count = view data (a.toNat + 1) count := by
  rw [show (a + 1 : UInt16) = a + UInt16.ofNat 1 from rfl, toNat_add_ofNat16, view_mod_of_dvd h]

/-- A counter a nonzero count short of a full wrap past `a` differs from `a`. -/
theorem add_ofNat_eq_self16 (a : UInt16) {n : ℕ} (hn : n < 2 ^ 16) :
    a + UInt16.ofNat n = a ↔ n = 0 := by
  constructor
  · intro e
    have h := congrArg UInt16.toNat e
    rw [toNat_add_ofNat16] at h
    have ha := a.toNat_lt
    omega
  · rintro rfl
    exact UInt16.add_zero a

/-- Advancing the upper counter by one adds one to the count. -/
theorem add_ofNat_add_one16 (a : UInt16) (n : ℕ) :
    a + UInt16.ofNat n + 1 = a + UInt16.ofNat (n + 1) := by
  rw [UInt16.ofNat_add, UInt16.add_assoc]
  rfl

/-- Advancing the lower counter by one takes one off the count to the upper one. -/
theorem add_ofNat_succ16 (a : UInt16) (n : ℕ) :
    a + UInt16.ofNat (n + 1) = a + 1 + UInt16.ofNat n := by
  rw [UInt16.ofNat_add, UInt16.add_assoc, UInt16.add_comm (UInt16.ofNat n)]
  rfl

end Ring
