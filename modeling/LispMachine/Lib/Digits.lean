import Mathlib.Data.Nat.Digits.Lemmas

/-!
Numerals written from the highest digit on.
-/

namespace LispMachine.Lib.Digits

variable {b : ℕ}

/-- The value of a numeral in the base `b`. -/
def numeral (b : ℕ) (ds : List ℕ) : ℕ := Nat.ofDigits b ds.reverse

@[simp] lemma numeral_nil : numeral b [] = 0 := rfl

@[simp] lemma numeral_singleton (d : ℕ) : numeral b [d] = d := by simp [numeral]

lemma numeral_append (xs ys : List ℕ) :
    numeral b (xs ++ ys) = numeral b xs * b ^ ys.length + numeral b ys := by
  rw [numeral, List.reverse_append, Nat.ofDigits_append, List.length_reverse, Nat.mul_comm,
    Nat.add_comm]
  rfl

lemma numeral_cons (d : ℕ) (ds : List ℕ) :
    numeral b (d :: ds) = d * b ^ ds.length + numeral b ds := by
  rw [show d :: ds = [d] ++ ds from rfl, numeral_append, numeral_singleton]

lemma numeral_zeroes (k : ℕ) : numeral b (List.replicate k 0) = 0 := by
  rw [numeral, List.reverse_replicate, Nat.ofDigits_replicate_zero]

lemma numeral_eq_zero {ds : List ℕ} (hb : b ≠ 0) : numeral b ds = 0 ↔ ∀ d ∈ ds, d = 0 := by
  induction ds with
  | nil => simp
  | cons d ds ih => rw [numeral_cons, Nat.add_eq_zero_iff, Nat.mul_eq_zero, ih]; simp [hb]

/-- The digits of a number are a numeral for it. -/
lemma numeral_digits (n : ℕ) : numeral b (b.digits n).reverse = n := by
  rw [numeral, List.reverse_reverse, Nat.ofDigits_digits]

end LispMachine.Lib.Digits
