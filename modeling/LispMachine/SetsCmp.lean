import LispMachine.AvlInsert
import LispMachine.Sets
import Mathlib.Data.List.Lex
import Mathlib.Data.Prod.Lex

/-!
The order of the pairs in a set: by the words of their keys, shorter keys first. All three
comparators agree with it.
-/

namespace LispMachine.SetsCmp

open LispMachine.Memory LispMachine.AvlCode LispMachine.AvlRepr LispMachine.AvlRotate
open LispMachine.AvlInsert LispMachine.Object LispMachine.Sets

/-- The sign by which the comparators tell how two values are ordered. -/
def threeWay {α : Type*} [LinearOrder α] (a b : α) : ℤ :=
  if a < b then 1 else if b < a then -1 else 0

section

variable {α : Type*} [LinearOrder α] {a b : α}

lemma threeWay_eq_zero : threeWay a b = 0 ↔ a = b := by
  unfold threeWay
  rcases lt_trichotomy a b with h | rfl | h
  · simp [h, h.ne]
  · simp
  · simp [h, h.not_gt, h.ne']

lemma threeWay_lt (h : threeWay a b = 1) : a < b := by
  rcases lt_trichotomy a b with h' | rfl | h'
  · exact h'
  · simp [threeWay] at h
  · simp [threeWay, h', h'.not_gt] at h

lemma threeWay_gt (h : threeWay a b = -1) : b < a := by
  rcases lt_trichotomy a b with h' | rfl | h'
  · simp [threeWay, h'] at h
  · simp [threeWay] at h
  · exact h'

/-- The comparisons of a value with increasing ones do not increase. -/
lemma falling_threeWay {f : Entry → α} {L : List Entry} (h : (L.map f).Pairwise (· < ·)) (x : α) :
    Falling (fun e => threeWay (f e) x) L := by
  refine ⟨(List.pairwise_map.mp h).imp fun {e e'} hlt => ?_, fun e _ => ?_⟩
  · change threeWay (f e') x ≤ threeWay (f e) x
    unfold threeWay
    by_cases h1 : f e < x
    · rw [if_pos h1]
      split_ifs <;> omega
    · have h2 : x < f e' := (not_lt.mp h1).trans_lt hlt
      rw [if_neg h1, if_neg h2.not_gt, if_pos h2]
      split_ifs <;> omega
  · change IsBal (threeWay (f e) x)
    unfold threeWay IsBal
    split_ifs <;> simp

lemma threeWay_congr {β : Type*} [LinearOrder β] {c d : β} (h₁ : a < b ↔ c < d)
    (h₂ : b < a ↔ d < c) : threeWay a b = threeWay c d := by
  unfold threeWay
  by_cases h : a < b
  · rw [if_pos h, if_pos (h₁.mp h)]
  · by_cases h' : b < a
    · rw [if_neg h, if_neg (mt h₁.mpr h), if_pos h', if_pos (h₂.mp h')]
    · rw [if_neg h, if_neg (mt h₁.mpr h), if_neg h', if_neg (mt h₂.mpr h')]

lemma threeWay_of_lt (h : a < b) : threeWay a b = 1 := if_pos h

lemma threeWay_of_gt (h : b < a) : threeWay a b = -1 := by
  rw [threeWay, if_neg h.not_gt, if_pos h]

end

/-- The contents of an object. -/
def text (m : Mem) (o : ℕ) : List ℕ := (List.range (m (size o))).map fun i => m (contents o i)

/-- The place of a key in the order. -/
def rank (l : List ℕ) : ℕ ×ₗ List ℕ := toLex (l.length, l)

lemma rank_inj {l l' : List ℕ} : rank l = rank l' ↔ l = l' := by
  constructor
  · intro h
    exact congrArg (fun p => (ofLex p).2) h
  · rintro rfl
    rfl

lemma objCmpLoop_eq (m : Mem) (p₁ p₂ n i : ℕ) : objCmpLoop m p₁ p₂ n i =
    threeWay ((List.range' i n).map fun j => m (contents p₁ j))
      ((List.range' i n).map fun j => m (contents p₂ j)) := by
  induction n generalizing i with
  | zero => rfl
  | succ n ih =>
    rw [objCmpLoop, ih, List.range'_succ, List.map_cons, List.map_cons]
    rcases lt_trichotomy (m (contents p₁ i)) (m (contents p₂ i)) with h | h | h
    · rw [if_pos h, threeWay_of_lt (List.cons_lt_cons_iff.mpr (.inl h))]
    · rw [if_neg h.not_lt, if_neg h.not_gt]
      exact threeWay_congr (by simp [h]) (by simp [h])
    · rw [if_neg h.not_gt, if_pos h, threeWay_of_gt (List.cons_lt_cons_iff.mpr (.inl h))]

/-- **The comparison** of two objects is the order of their words. -/
lemma objCmp_eq (m : Mem) (p₁ p₂ : ℕ) :
    objCmp m p₁ p₂ = threeWay (rank (text m p₁)) (rank (text m p₂)) := by
  have hlen (p : ℕ) : (text m p).length = m (size p) := by simp [text]
  have hlt (p q : ℕ) : rank (text m p) < rank (text m q) ↔ m (size p) < m (size q) ∨
      m (size p) = m (size q) ∧ text m p < text m q := by
    rw [rank, rank, Prod.Lex.toLex_lt_toLex, hlen, hlen]
  rw [objCmp]
  rcases lt_trichotomy (m (size p₁)) (m (size p₂)) with h | h | h
  · rw [if_pos h, threeWay_of_lt ((hlt p₁ p₂).mpr (.inl h))]
  · rw [if_neg h.not_lt, if_neg h.not_gt, objCmpLoop_eq, ← List.range_eq_range']
    have ht : ((List.range (m (size p₁))).map fun j => m (contents p₂ j)) = text m p₂ := by
      rw [text, h]
    rw [ht]
    change threeWay (text m p₁) (text m p₂) = _
    exact threeWay_congr (by simp [hlt, h]) (by simp [hlt, h])
  · rw [if_neg h.not_gt, if_pos h, threeWay_of_gt ((hlt p₂ p₁).mpr (.inl h))]

/-- Objects are equal for the comparators when their words are. -/
lemma objCmp_eq_zero {m : Mem} {p₁ p₂ : ℕ} : objCmp m p₁ p₂ = 0 ↔ text m p₁ = text m p₂ := by
  rw [objCmp_eq, threeWay_eq_zero, rank_inj]

end LispMachine.SetsCmp
