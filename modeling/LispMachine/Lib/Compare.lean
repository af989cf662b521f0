import Mathlib.Data.Nat.Find
import Mathlib.Order.Lattice

/-!
Three-way comparison of sequences by the first place where they differ.

The result is `0` where the sequences agree, and else `1` or `-1` as the first of them is the
smaller or the larger one at that place.
-/

namespace LispMachine.Lib.Compare

variable {α : Type*} {f g : ℕ → α} {n i j : ℕ} {v w : ℤ}

/-- The first of the places below `n` where the sequences differ. -/
structure FirstDiff (f g : ℕ → α) (n i : ℕ) : Prop where
  lt : i < n
  ne : f i ≠ g i
  same : ∀ j < i, f j = g j

lemma FirstDiff.symm (h : FirstDiff f g n i) : FirstDiff g f n i :=
  ⟨h.lt, h.ne.symm, fun j hj => (h.same j hj).symm⟩

lemma FirstDiff.unique (h : FirstDiff f g n i) (h' : FirstDiff f g n j) : i = j := by
  rcases lt_trichotomy i j with hlt | heq | hgt
  · exact absurd (h'.same i hlt) h.ne
  · exact heq
  · exact absurd (h.same j hgt) h'.ne

/-- Sequences that do not agree differ somewhere for the first time. -/
lemma agree_or_firstDiff (f g : ℕ → α) (n : ℕ) :
    (∀ i < n, f i = g i) ∨ ∃ i, FirstDiff f g n i := by
  classical
  by_cases h : ∃ i, i < n ∧ f i ≠ g i
  · refine .inr ⟨Nat.find h, (Nat.find_spec h).1, (Nat.find_spec h).2, fun j hj => ?_⟩
    have hlt := lt_trans hj (Nat.find_spec h).1
    exact not_not.mp fun hne => Nat.find_min h hj ⟨hlt, hne⟩
  · exact .inl fun i hi => not_not.mp fun hne => h ⟨i, hi, hne⟩

variable [LinearOrder α]

/-- `v` tells how the first `n` values of the two sequences are ordered. -/
structure Orders (f g : ℕ → α) (n : ℕ) (v : ℤ) : Prop where
  same : v = 0 ↔ ∀ i < n, f i = g i
  diff : ∀ i, FirstDiff f g n i → v = if g i < f i then -1 else 1

lemma orders_of_agree (h : ∀ i < n, f i = g i) : Orders f g n v ↔ v = 0 :=
  ⟨fun hv => hv.same.mpr h, fun hv => ⟨iff_of_true hv h, fun i hi => absurd (h i hi.lt) hi.ne⟩⟩

lemma orders_of_firstDiff (h : FirstDiff f g n i) :
    Orders f g n v ↔ v = if g i < f i then -1 else 1 := by
  refine ⟨fun hv => hv.diff i h, fun hv => ⟨?_, fun j hj => (h.unique hj) ▸ hv⟩⟩
  have h0 : v ≠ 0 := by
    rw [hv]
    split_ifs <;> decide
  exact iff_of_false h0 fun hall => h.ne (hall i h.lt)

/-- There is one such value. -/
lemma Orders.unique (h : Orders f g n v) (h' : Orders f g n w) : v = w := by
  rcases agree_or_firstDiff f g n with ha | ⟨i, hi⟩
  · rw [(orders_of_agree ha).mp h, (orders_of_agree ha).mp h']
  · rw [(orders_of_firstDiff hi).mp h, (orders_of_firstDiff hi).mp h']

/-- **Swapping** the sequences flips the sign. -/
lemma Orders.swap (h : Orders f g n v) : Orders g f n (-v) := by
  rcases agree_or_firstDiff f g n with ha | ⟨i, hi⟩
  · rw [(orders_of_agree ha).mp h]
    exact (orders_of_agree fun i hi => (ha i hi).symm).mpr rfl
  · rw [(orders_of_firstDiff hi).mp h, orders_of_firstDiff hi.symm]
    rcases lt_or_gt_of_ne hi.ne with hlt | hgt
    · rw [if_pos hlt, if_neg (lt_asymm hlt)]
    · rw [if_neg (lt_asymm hgt), if_pos hgt, Int.neg_neg]

/-- Equal values in front do not count. -/
lemma Orders.cons (h0 : f 0 = g 0)
    (h : Orders (fun j => f (j + 1)) (fun j => g (j + 1)) n v) : Orders f g (n + 1) v := by
  refine ⟨h.same.trans ⟨fun ha i hi => ?_, fun ha i hi => ha (i + 1) (Nat.succ_lt_succ hi)⟩,
    fun i hi => ?_⟩
  · cases i with
    | zero => exact h0
    | succ i => exact ha i (Nat.lt_of_succ_lt_succ hi)
  · cases i with
    | zero => exact absurd h0 hi.ne
    | succ i =>
      exact h.diff i ⟨Nat.lt_of_succ_lt_succ hi.lt, hi.ne, fun j hj =>
        hi.same (j + 1) (Nat.succ_lt_succ hj)⟩

/-- **A loop** that goes on while the values are equal tells how the rest is ordered. -/
lemma orders_loop (loop : ℕ → ℕ → ℤ) (h0 : ∀ i, loop 0 i = 0)
    (hs : ∀ n i, loop (n + 1) i =
      if g i < f i then -1 else if f i < g i then 1 else loop n (i + 1)) (n i : ℕ) :
    Orders (fun j => f (i + j)) (fun j => g (i + j)) n (loop n i) := by
  induction n generalizing i with
  | zero =>
    rw [h0]
    exact (orders_of_agree fun j hj => absurd hj (Nat.not_lt_zero j)).mpr rfl
  | succ n ih =>
    rw [hs]
    by_cases hne : f i = g i
    · rw [if_neg hne.not_gt, if_neg hne.not_lt]
      have h1 := ih (i + 1)
      simp only [Nat.succ_add_eq_add_succ] at h1
      exact Orders.cons hne h1
    · have hfirst : FirstDiff (fun j => f (i + j)) (fun j => g (i + j)) (n + 1) 0 :=
        ⟨Nat.succ_pos n, hne, fun j hj => absurd hj (Nat.not_lt_zero j)⟩
      rw [orders_of_firstDiff hfirst]
      rcases lt_or_gt_of_ne hne with hlt | hgt
      · rw [if_neg (lt_asymm hlt), if_pos hlt]
        exact (if_neg (lt_asymm hlt)).symm
      · rw [if_pos hgt]
        exact (if_pos hgt).symm

end LispMachine.Lib.Compare
