import Mathlib.Tactic.Common

/-!
The indices of a ring of slots: where items are added and where they are taken.

One slot stays free, so that a full ring differs from an empty one. The index where items are
taken may be the capacity for a while, before it goes back to zero.
-/

namespace LispMachine.Lib.Ring

/-- The slot of the item `j` of those from `tail` on. -/
def slot (cap tail j : ℕ) : ℕ := (tail + j) % cap

/-- `n` items lie between `tail` and `head`. -/
structure Window (cap head tail n : ℕ) : Prop where
  lt : n < cap
  tail_le : tail ≤ cap
  head_eq : head = slot cap tail n

lemma mod_of_lt_two {a c : ℕ} (h : a < 2 * c) : a % c = if a < c then a else a - c := by
  split_ifs with h1
  · exact Nat.mod_eq_of_lt h1
  · rw [Nat.mod_eq_sub_mod (by omega), Nat.mod_eq_of_lt (by omega)]

lemma slot_eq {cap tail j : ℕ} (ht : tail ≤ cap) (hj : j < cap) :
    slot cap tail j = if tail + j < cap then tail + j else tail + j - cap :=
  mod_of_lt_two (by omega)

lemma slot_lt {cap tail j : ℕ} (hj : j < cap) : slot cap tail j < cap :=
  Nat.mod_lt _ (by omega)

lemma slot_zero {cap tail : ℕ} (ht : tail < cap) : slot cap tail 0 = tail := by
  rw [slot_eq (by omega) (by omega)]
  simp [ht]

lemma slot_succ (cap tail j : ℕ) : slot cap (tail + 1) j = slot cap tail (j + 1) := by
  unfold slot
  congr 1
  omega

/-- The index goes back to zero. -/
lemma slot_wrap {cap tail j : ℕ} (ht : tail ≤ cap) :
    slot cap (if cap ≤ tail then 0 else tail) j = slot cap tail j := by
  split_ifs with h
  · obtain rfl : tail = cap := by omega
    simp [slot]
  · rfl

/-- Different items have different slots. -/
lemma slot_inj {cap tail i j : ℕ} (ht : tail ≤ cap) (hi : i < cap) (hj : j < cap)
    (h : slot cap tail i = slot cap tail j) : i = j := by
  rw [slot_eq ht hi, slot_eq ht hj] at h
  split_ifs at h <;> omega

namespace Window

variable {cap head tail n : ℕ}

lemma empty (hc : 0 < cap) : Window cap 0 0 0 := ⟨hc, by omega, by simp [slot]⟩

lemma head_lt (h : Window cap head tail n) : head < cap := h.head_eq ▸ slot_lt h.lt

/-- The ring is empty just when the indices are equal. -/
lemma eq_iff (h : Window cap head tail n) (ht : tail < cap) : head = tail ↔ n = 0 := by
  obtain ⟨h1, h2, rfl⟩ := h
  rw [slot_eq h2 h1]
  split_ifs <;> omega

/-- The ring is full just when the index of the head is the one before the tail's. -/
lemma full_iff (h : Window cap head tail n) : slot cap tail (cap - 1) = head ↔ n + 1 = cap := by
  obtain ⟨h1, h2, rfl⟩ := h
  constructor
  · intro h3
    have := slot_inj h2 (by omega) h1 h3
    omega
  · rintro rfl
    rfl

lemma add (h : Window cap head tail n) (hn : n + 1 < cap) :
    Window cap (if cap ≤ head + 1 then 0 else head + 1) tail (n + 1) := by
  obtain ⟨h1, h2, rfl⟩ := h
  refine ⟨hn, h2, ?_⟩
  rw [slot_eq h2 hn, slot_eq h2 h1]
  split_ifs <;> omega

lemma take (h : Window cap head tail (n + 1)) (ht : tail < cap) :
    Window cap head (tail + 1) n :=
  ⟨by have := h.lt; omega, ht, h.head_eq.trans (slot_succ ..).symm⟩

lemma wrap (h : Window cap head tail n) : Window cap head (if cap ≤ tail then 0 else tail) n := by
  refine ⟨h.lt, ?_, h.head_eq.trans (slot_wrap h.tail_le).symm⟩
  have := h.tail_le
  split_ifs <;> omega

end Window

end LispMachine.Lib.Ring
