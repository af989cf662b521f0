import Mathlib.Order.Interval.Finset.Nat
import Mathlib.Data.List.Sort
import Mathlib.Algebra.BigOperators.Group.List.Basic
import Mathlib.Algebra.GroupWithZero.Nat

/-!
Partitions of an interval of natural numbers into segments, whatever their order.
-/

namespace LispMachine.Lib.Segments

/-- A segment is given by its start and its length. -/
abbrev Seg := ℕ × ℕ

/-- The number `x` lies in the segment. -/
def In (x : ℕ) (s : Seg) : Prop := s.1 ≤ x ∧ x < s.1 + s.2

/-- The segments do not overlap. -/
def Clear (s t : Seg) : Prop := s.1 + s.2 ≤ t.1 ∨ t.1 + t.2 ≤ s.1

lemma Clear.symm {s t : Seg} (h : Clear s t) : Clear t s := Or.symm h

instance : Std.Symm Clear := ⟨fun _ _ => Clear.symm⟩

/-- The segments make up the numbers from `a` up to `e` without gap or overlap. -/
structure Partition (a e : ℕ) (L : List Seg) : Prop where
  pos : ∀ s ∈ L, 0 < s.2
  apart : L.Pairwise Clear
  cover : ∀ x, a ≤ x ∧ x < e ↔ ∃ s ∈ L, In x s

namespace Partition

variable {a e : ℕ} {L L' : List Seg}

lemma perm (h : Partition a e L) (hp : L.Perm L') : Partition a e L' :=
  ⟨fun s hs => h.pos s (hp.symm.subset hs), (hp.pairwise_iff Clear.symm).mp h.apart,
    fun x => by simp only [h.cover, hp.mem_iff]⟩

lemma bounds (h : Partition a e L) {s : Seg} (hs : s ∈ L) : a ≤ s.1 ∧ s.1 + s.2 ≤ e := by
  have h0 := h.pos s hs
  have h1 := (h.cover s.1).mpr ⟨s, hs, le_rfl, by omega⟩
  have h2 := (h.cover (s.1 + s.2 - 1)).mpr ⟨s, hs, by omega, by omega⟩
  omega

/-- Every number of the interval is in one segment only. -/
lemma unique (h : Partition a e L) {s t : Seg} {x : ℕ} (hs : s ∈ L) (ht : t ∈ L)
    (hxs : In x s) (hxt : In x t) : s = t := by
  by_contra hne
  obtain ⟨h1, h2⟩ := hxs
  obtain ⟨h3, h4⟩ := hxt
  rcases h.apart.forall hs ht hne with h | h <;> omega

/-- The single segment. -/
lemma single (hae : a < e) : Partition a e [(a, e - a)] := by
  refine ⟨by simp only [List.mem_singleton, forall_eq]; omega, List.pairwise_singleton ..,
    fun x => ?_⟩
  simp only [List.mem_singleton, exists_eq_left, In]
  omega

/-- A segment is cut in two. -/
lemma split {p v k : ℕ} (h : Partition a e ((p, v) :: L)) (h0 : 0 < k) (hk : k < v) :
    Partition a e ((p, k) :: (p + k, v - k) :: L) := by
  obtain ⟨h0', h1, h2⟩ := h
  obtain ⟨h3, h4⟩ := List.pairwise_cons.mp h1
  refine ⟨?_, ?_, fun x => ?_⟩
  · simp only [List.forall_mem_cons] at h0' ⊢
    exact ⟨h0, by omega, h0'.2⟩
  · simp only [List.pairwise_cons, List.mem_cons]
    refine ⟨?_, fun t ht => ?_, h4⟩
    · rintro t (rfl | ht)
      · exact .inl le_rfl
      · have := h3 t ht
        simp only [Clear] at this ⊢
        omega
    · have := h3 t ht
      simp only [Clear] at this ⊢
      omega
  · rw [h2]
    simp only [List.mem_cons, exists_eq_or_imp, In]
    constructor
    · rintro (h | h)
      · by_cases hx : x < p + k
        · exact .inl ⟨h.1, hx⟩
        · right; left; omega
      · exact .inr (.inr h)
    · rintro (h | h | h)
      · left; omega
      · left; omega
      · exact .inr h

/-- Two segments that touch become one. -/
lemma join {p v w : ℕ} (h : Partition a e ((p, v) :: (p + v, w) :: L)) :
    Partition a e ((p, v + w) :: L) := by
  obtain ⟨h0, h1, h2⟩ := h
  simp only [List.forall_mem_cons] at h0
  simp only [List.pairwise_cons, List.mem_cons] at h1
  obtain ⟨h3, h4, h5⟩ := h1
  refine ⟨?_, List.pairwise_cons.mpr ⟨fun t ht => ?_, h5⟩, fun x => ?_⟩
  · simp only [List.forall_mem_cons]
    exact ⟨by omega, h0.2.2⟩
  · have h6 := h3 t (.inr ht)
    have := h0.2.2 t ht
    have h7 := h4 t ht
    simp only [Clear] at h6 h7 ⊢
    omega
  · rw [h2]
    simp only [List.mem_cons, exists_eq_or_imp, In]
    constructor
    · rintro (h | h | h)
      · left; omega
      · left; omega
      · exact .inr h
    · rintro (h | h)
      · by_cases hx : x < p + v
        · exact .inl ⟨h.1, hx⟩
        · right; left; omega
      · exact .inr (.inr h)

/-! ### The sum of the lengths -/

/-- The numbers in the segments. -/
def words : List Seg → Finset ℕ
  | [] => ∅
  | s :: L => Finset.Ico s.1 (s.1 + s.2) ∪ words L

lemma mem_words {x : ℕ} : x ∈ words L ↔ ∃ s ∈ L, In x s := by
  induction L with
  | nil => simp [words]
  | cons s L ih => simp [words, ih, In]

lemma card_words (h : L.Pairwise Clear) : (words L).card = (L.map Prod.snd).sum := by
  induction L with
  | nil => rfl
  | cons s L ih =>
    obtain ⟨h1, h2⟩ := List.pairwise_cons.mp h
    have hd : Disjoint (Finset.Ico s.1 (s.1 + s.2)) (words L) := by
      rw [Finset.disjoint_left]
      intro x hx hx'
      obtain ⟨t, ht, h3, h4⟩ := mem_words.mp hx'
      rw [Finset.mem_Ico] at hx
      rcases h1 t ht with h | h <;> omega
    rw [words, Finset.card_union_of_disjoint hd, ih h2]
    simp

/-- The lengths add up to that of the interval. -/
lemma sum_eq (h : Partition a e L) : (L.map Prod.snd).sum = e - a := by
  have : words L = Finset.Ico a e := by
    ext x
    rw [mem_words, ← h.cover, Finset.mem_Ico]
  rw [← card_words h.apart, this, Nat.card_Ico]

end Partition

end LispMachine.Lib.Segments
