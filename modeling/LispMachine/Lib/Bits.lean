import Mathlib.Data.Int.Bitwise
import Mathlib.Data.Nat.Digits.Lemmas
import Mathlib.Data.Nat.Bitwise

/-!
The bits of integers whose digits have `w` bits each.

An integer is its bits, infinitely many of them in two's complement. The bits of a numeral are those
of its digits, and what is taken away for the sign are the bits that stand behind the last digit.
-/

namespace LispMachine.Lib.Bits

variable {w k v : ℕ} {ds : List ℕ} {a b : ℤ}

/-- Integers with the same bits are equal. -/
lemma testBit_ext (h : ∀ i, a.testBit i = b.testBit i) : a = b := by
  -- far enough out there is only the sign
  have hfar : ∀ m n : ℕ, ∃ i, m.testBit i = false ∧ n.testBit i = false := fun m n =>
    ⟨max m n, Nat.testBit_lt_two_pow ((le_max_left m n).trans_lt Nat.lt_two_pow_self),
      Nat.testBit_lt_two_pow ((le_max_right m n).trans_lt Nat.lt_two_pow_self)⟩
  cases a with
  | ofNat m =>
    cases b with
    | ofNat n => exact congrArg Int.ofNat (Nat.eq_of_testBit_eq h)
    | negSucc n =>
      obtain ⟨i, h1, h2⟩ := hfar m n
      have := h i
      simp only [Int.testBit, h1, h2] at this
      exact absurd this (by decide)
  | negSucc m =>
    cases b with
    | ofNat n =>
      obtain ⟨i, h1, h2⟩ := hfar m n
      have := h i
      simp only [Int.testBit, h1, h2] at this
      exact absurd this (by decide)
    | negSucc n =>
      refine congrArg Int.negSucc (Nat.eq_of_testBit_eq fun i => ?_)
      have := h i
      simp only [Int.testBit] at this
      simpa using this

/-- A bit of a numeral is a bit of one digit. -/
lemma testBit_ofDigits (hw : 0 < w) (h : ∀ d ∈ ds, d < 2 ^ w) (i : ℕ) :
    (Nat.ofDigits (2 ^ w) ds).testBit i = (ds.getD (i / w) 0).testBit (i % w) := by
  induction ds generalizing i with
  | nil => simp
  | cons d ds ih =>
    obtain ⟨hd, hds⟩ := List.forall_mem_cons.mp h
    rw [Nat.ofDigits_cons, Nat.add_comm, Nat.testBit_two_pow_mul_add _ hd]
    split_ifs with hi
    · rw [Nat.div_eq_of_lt hi, Nat.mod_eq_of_lt hi, List.getD_cons_zero]
    · obtain ⟨j, rfl⟩ : ∃ j, i = j + w := ⟨i - w, by omega⟩
      rw [Nat.add_sub_cancel, ih hds, Nat.add_div_right _ hw, List.getD_cons_succ,
        Nat.add_mod_right]

/-- The bits of a negative number: those of its residue, and ones behind them. -/
lemma testBit_sub_two_pow (h : v < 2 ^ k) (i : ℕ) :
    Int.testBit ((v : ℤ) - 2 ^ k) i = (decide (k ≤ i) || v.testBit i) := by
  have hneg : (v : ℤ) - 2 ^ k = Int.negSucc (2 ^ k - (v + 1)) := by
    have hcast : ((2 ^ k - (v + 1) : ℕ) : ℤ) = 2 ^ k - (v + 1) := by
      rw [Nat.cast_sub h]
      push_cast
      ring
    rw [Int.negSucc_eq, hcast]
    ring
  rw [hneg, Int.testBit, Nat.testBit_two_pow_sub_succ h]
  by_cases hi : i < k
  · simp [hi]
  · simp [hi, not_lt.mp hi]

/-- Digits with the same bits are equal. -/
lemma digit_ext {x y : ℕ} (hx : x < 2 ^ w) (hy : y < 2 ^ w)
    (h : ∀ i < w, x.testBit i = y.testBit i) : x = y := by
  refine Nat.eq_of_testBit_eq fun i => ?_
  by_cases hi : i < w
  · exact h i hi
  · have hle := Nat.pow_le_pow_right Nat.two_pos (not_lt.mp hi)
    rw [Nat.testBit_lt_two_pow (hx.trans_le hle), Nat.testBit_lt_two_pow (hy.trans_le hle)]

end LispMachine.Lib.Bits
