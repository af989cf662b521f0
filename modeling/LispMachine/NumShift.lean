import LispMachine.NumVal

/-!
Shifts of numbers that are not negative.

The words are shifted as they should be. But then the sign word `0` is taken off when the word below
it is `-1`, as if it had been left there by a negative number: where the topmost word of the result
is full, its sign is lost.
-/

namespace LispMachine.NumShift

open LispMachine.Memory LispMachine.Bignum LispMachine.BignumWf LispMachine.NumStr
open LispMachine.NumVal

variable {n n₁ n₂ xs ys : List ℕ} {c f : ℕ → ℕ} {d i k size v x : ℕ}

/-! ### The words of an object -/

lemma length_object : (object c k).length = k := by simp [object]

lemma getD_object (h : i < k) : (object c k).getD i 0 = c i := by
  rw [object, List.getD_eq_getElem _ _ (by simpa using h)]
  simp

lemma words_object (hc : Bounded c) : Words (object c k) := by
  intro w hw
  obtain ⟨i, -, rfl⟩ := List.mem_map.mp hw
  exact hc i

lemma take_object (c : ℕ → ℕ) (hi : i ≤ k) : (object c k).take i = object c i := by
  rw [object, object, ← List.map_take, List.take_range, min_eq_left hi]

lemma object_succ : object c (k + 1) = object c k ++ [c k] := by
  rw [object, object, List.range_succ, List.map_append]
  rfl

lemma value_object_succ : value (object c (k + 1)) = value (object c k) + wordMod ^ k * c k := by
  rw [object_succ, value_concat, length_object]

lemma value_object_congr (h : ∀ i < k, c i = f i) : value (object c k) = value (object f k) := by
  rw [object, object, List.map_congr_left fun i hi => h i (List.mem_range.mp hi)]

lemma value_object_lt (hc : Bounded c) : value (object c k) < wordMod ^ k := by
  have := value_lt (words_object hc (k := k))
  rwa [length_object] at this

/-- Zeroes at the end do not count. -/
lemma value_object_zeroes (h : k ≤ size) (h0 : ∀ i, k ≤ i → i < size → c i = 0) :
    value (object c size) = value (object c k) := by
  induction size with
  | zero => rw [Nat.le_zero.mp h]
  | succ size ih =>
    rcases h.lt_or_eq with hlt | rfl
    · rw [value_object_succ, h0 size (by omega) (by omega), Nat.mul_zero, Nat.add_zero,
        ih (by omega) fun i hi hi' => h0 i hi (by omega)]
    · rfl

/-- The words of an object and those from the word `k` on. -/
lemma value_object_add (k : ℕ) {l : ℕ} : value (object c (k + l)) =
    value (object c k) + wordMod ^ k * value (object (fun i => c (k + i)) l) := by
  induction l with
  | zero => simp [object]
  | succ l ih =>
    rw [← Nat.add_assoc, value_object_succ, ih, value_object_succ, pow_add]
    ring

lemma value_object_div (hc : Bounded c) (h : i < k) :
    value (object c k) / wordMod ^ i % wordMod = c i := by
  have h1 := Nat.ofDigits_div_pow_eq_ofDigits_drop i (by decide : 0 < wordMod) (object c k)
    (words_object hc)
  rw [value, h1, List.drop_eq_getElem_cons (by rwa [length_object]), Nat.ofDigits_cons,
    Nat.add_mul_mod_self_left, ← List.getD_eq_getElem _ 0, getD_object h, Nat.mod_eq_of_lt (hc i)]

/-! ### The sign word that gets lost -/

/-- There is more than one word, and the topmost one is full. -/
def TopFull (v : ℕ) : Prop := ∃ m, 1 ≤ m ∧ ones * wordMod ^ m ≤ v ∧ v < wordMod ^ (m + 1)

lemma top_words {m : ℕ} (hf : Bounded f) (hlo : ones * wordMod ^ m ≤ value (object f size))
    (hhi : value (object f size) < wordMod ^ (m + 1)) :
    m < size ∧ f m = ones ∧ ∀ i, m < i → i < size → f i = 0 := by
  have hpos : 0 < wordMod ^ m := pow_pos (by decide) m
  have hlt : m < size := by
    by_contra hle
    have h1 := value_object_lt hf (k := size)
    have h2 := Nat.pow_le_pow_right (by decide : 0 < wordMod) (not_lt.mp hle)
    have h3 := Nat.mul_le_mul_right (wordMod ^ m) (by decide : 1 ≤ ones)
    omega
  refine ⟨hlt, ?_, fun i hi hi' => ?_⟩
  · have hdiv : value (object f size) / wordMod ^ m = ones := by
      refine Nat.div_eq_of_lt_le hlo ?_
      rw [pow_succ, Nat.mul_comm] at hhi
      exact hhi
    rw [← value_object_div hf hlt, hdiv]
    rfl
  · rw [← value_object_div hf hi', Nat.div_eq_of_lt, Nat.zero_mod]
    exact hhi.trans_le (Nat.pow_le_pow_right (by decide) hi)

lemma top_full {m : ℕ} (hf : Bounded f) (hm : 1 ≤ m) (hlt : m < size) (h : f m = ones)
    (h0 : ∀ i, m < i → i < size → f i = 0) : TopFull (value (object f size)) := by
  have hv := value_object_zeroes (c := f) (by omega : m + 1 ≤ size) fun i hi hi' => h0 i hi hi'
  rw [value_object_succ, h] at hv
  have hpos := value_object_lt hf (k := m)
  refine ⟨m, hm, ?_, ?_⟩
  · rw [hv, Nat.mul_comm]
    omega
  · rw [hv, pow_succ, show wordMod = ones + 1 by decide, Nat.mul_add, Nat.mul_one,
      show ones + 1 = wordMod by decide]
    omega

/-- What trimming leaves of a number that is not negative: the number, or one that has lost its
sign. The words below the word `d` are cleared afterwards. -/
lemma trimZeroes_cases (hc : Bounded c) (hs : 2 ≤ size) (h0 : c (size - 1) = 0)
    (hf : ∀ i, f i = if i < d then 0 else c i) :
    (denote (object f (trimZeroes c size)) = value (object f size) ∧
        ¬ TopFull (value (object f size))) ∨
      ∃ m, 1 ≤ m ∧ m < size ∧ ones * wordMod ^ m ≤ value (object f size) ∧
        value (object f size) < wordMod ^ (m + 1) ∧
        denote (object f (trimZeroes c size)) =
          value (object f size) - (wordMod : ℤ) ^ (m + 1) := by
  obtain ⟨h1, h2, h3⟩ := trimLoop_spec (· = 0) c (size - 1)
  obtain ⟨h4, h5⟩ := trimLoop_stops (· = 0) c (size - 1)
  have hfb : Bounded f := fun i => by
    rw [hf]
    split_ifs
    · decide
    · exact hc i
  have hzero : ∀ {i}, c i = 0 → f i = 0 := fun h => by
    rw [hf, h, ite_self]
  rw [trimZeroes]
  generalize trimLoop (· = 0) c (size - 1) = t at *
  have ht : c t = 0 := by
    rcases h3 with rfl | h3
    · exact h0
    · simpa using h3
  have habove : ∀ i, t ≤ i → i < size → c i = 0 := fun i hi hi' => by
    by_cases hlast : i = size - 1
    · rw [hlast]
      exact h0
    · simpa using h4 i hi (by omega)
  have hval : value (object f size) = value (object f t) :=
    value_object_zeroes (by omega) fun i hi hi' => hzero (habove i hi hi')
  rw [Nat.add_sub_cancel]
  by_cases hdrop : 2 < t + 1 ∧ c t = 0 ∧ c (t + 1 - 2) = ones
  · rw [if_pos hdrop]
    obtain ⟨u, rfl⟩ : ∃ u, t = u + 1 := ⟨t - 1, by omega⟩
    rw [show u + 1 + 1 - 2 = u by omega] at hdrop
    rw [object_succ]
    by_cases hu : u < d
    · -- the word that was full is cleared
      have hfu : f u = 0 := by rw [hf, if_pos hu]
      rw [hfu, denote_pos, hval, value_object_succ, hfu, Nat.mul_zero, Nat.add_zero]
      refine .inl ⟨rfl, ?_⟩
      rintro ⟨m, hm, hlo, hhi⟩
      obtain ⟨h6, h7, -⟩ := top_words hfb hlo hhi
      rw [hf, if_pos (by omega)] at h7
      exact absurd h7 (by decide)
    · have hfu : f u = ones := by rw [hf, if_neg hu, hdrop.2.2]
      have hlt := value_object_lt hfb (k := u)
      have hpos : 0 < wordMod ^ u := pow_pos (by decide) u
      rw [hfu, denote_neg, length_object, hval, value_object_succ, hfu]
      refine .inr ⟨u, by omega, by omega, ?_, ?_, ?_⟩
      · rw [Nat.mul_comm]
        omega
      · rw [pow_succ, show wordMod = ones + 1 by decide, Nat.mul_add, Nat.mul_one,
          show ones + 1 = wordMod by decide]
        omega
      · rw [pow_succ]
        push_cast
        rw [show ((ones : ℕ) : ℤ) = wordMod - 1 by decide]
        ring
  · rw [if_neg hdrop, object_succ, hzero ht, denote_pos, hval]
    refine .inl ⟨rfl, ?_⟩
    rintro ⟨m, hm, hlo, hhi⟩
    obtain ⟨h6, h7, h8⟩ := top_words hfb hlo hhi
    obtain ⟨u, rfl⟩ : ∃ u, t = u + 1 := ⟨t - 1, by omega⟩
    have hmd : ¬ m < d := fun h => by
      rw [hf, if_pos h] at h7
      exact absurd h7 (by decide)
    have hmu : m = u := by
      by_contra hne
      have h9 := h8 u (by omega) (by omega)
      rw [hf, if_neg (by omega)] at h9
      rcases h5 with h5 | h5
      · omega
      · rw [Nat.add_sub_cancel, h9] at h5
        simp at h5
    subst hmu
    rw [hf, if_neg hmd] at h7
    exact hdrop ⟨by omega, ht, h7⟩

lemma denote_trimZeroes (hc : Bounded c) (hs : 2 ≤ size) (h0 : c (size - 1) = 0)
    (hf : ∀ i, f i = if i < d then 0 else c i) :
    denote (object f (trimZeroes c size)) = value (object f size) ↔
      ¬ TopFull (value (object f size)) := by
  rcases trimZeroes_cases hc hs h0 hf with ⟨h1, h2⟩ | ⟨m, h1, -, h2, h3, h4⟩
  · exact iff_of_true h1 h2
  · have hpos : (0 : ℤ) < (wordMod : ℤ) ^ (m + 1) := pow_pos (by decide) _
    exact iff_of_false (by omega) (not_not.mpr ⟨m, h1, h2, h3⟩)

/-! ### To the left -/

lemma shiftLeftLoop_apply (div mod k j : ℕ) (c : ℕ → ℕ) : shiftLeftLoop div mod k c j =
    if div < j ∧ j ≤ k + div then c (j - div - 1) >>> (64 - mod) ||| wshl (c (j - div)) mod
    else c j := by
  induction k generalizing c with
  | zero => rw [if_neg (by omega), shiftLeftLoop]
  | succ k ih =>
    rw [shiftLeftLoop, ih]
    by_cases hj : div < j ∧ j ≤ k + div
    · rw [if_pos hj, if_pos (by omega), Function.update_of_ne (by omega),
        Function.update_of_ne (by omega)]
    · rw [if_neg hj]
      by_cases hk : j = k + 1 + div
      · subst hk
        rw [Function.update_self, if_pos (by omega), show k + 1 + div - div - 1 = k by omega,
          Nat.add_sub_cancel]
      · rw [Function.update_of_ne hk, if_neg (by omega)]

lemma moveUpLoop_apply (div k j : ℕ) (c : ℕ → ℕ) : moveUpLoop div k c j =
    if div ≤ j ∧ j < k + div then c (j - div) else c j := by
  induction k generalizing c with
  | zero => rw [if_neg (by omega), moveUpLoop]
  | succ k ih =>
    rw [moveUpLoop, ih]
    by_cases hj : div ≤ j ∧ j < k + div
    · rw [if_pos hj, if_pos (by omega), Function.update_of_ne (by omega)]
    · rw [if_neg hj]
      by_cases hk : j = k + div
      · subst hk
        rw [Function.update_self, if_pos (by omega), Nat.add_sub_cancel]
      · rw [Function.update_of_ne hk, if_neg (by omega)]

/-- The words shifted by less than a word, with the bits that go out of the last one. -/
lemma value_shifted {m : ℕ} {w : ℕ → ℕ} (hm : m ≤ 64) (h0 : w 0 = c 0 * 2 ^ m % wordMod)
    (hw : ∀ i < k, w (i + 1) = c i / 2 ^ (64 - m) + c (i + 1) * 2 ^ m % wordMod) :
    value (object w (k + 1)) + wordMod ^ (k + 1) * (c k / 2 ^ (64 - m)) =
      value (object c (k + 1)) * 2 ^ m := by
  induction k with
  | zero =>
    have h1 := shl_split (c 0) hm
    rw [value_object_succ, value_object_succ, h0]
    simp only [object, List.range_zero, List.map_nil, value_nil, pow_zero, pow_one, Nat.zero_add,
      Nat.one_mul]
    omega
  | succ k ih =>
    have h1 := shl_split (c (k + 1)) hm
    have h2 := ih fun i hi => hw i (by omega)
    rw [value_object_succ, value_object_succ (k := k + 1), hw k (by omega), Nat.add_mul, ← h2,
      pow_succ wordMod (k + 1)]
    generalize c (k + 1) * 2 ^ m % wordMod = r at h1
    generalize c (k + 1) / 2 ^ (64 - m) = q at h1 ⊢
    calc value (object w (k + 1)) + wordMod ^ (k + 1) * (c k / 2 ^ (64 - m) + r) +
          wordMod ^ (k + 1) * wordMod * q
        = value (object w (k + 1)) + wordMod ^ (k + 1) * (c k / 2 ^ (64 - m)) +
          wordMod ^ (k + 1) * (wordMod * q + r) := by ring
      _ = _ := by rw [h1]; ring

lemma pow_words (d mod : ℕ) : 2 ^ (64 * d + mod) = wordMod ^ d * 2 ^ mod := by
  rw [pow_add, pow_mul]
  rfl

/-- The words before they are trimmed: those of the number, shifted. -/
lemma value_shiftLeft {mod : ℕ} (hc : Bounded c) (hs : 1 ≤ size) (h0 : c (size - 1) = 0)
    (hmod : mod ≤ 64) (hlow : ∀ i < d, f i = 0) (hd : f d = wshl (c 0) mod)
    (hmid : ∀ i, i + 1 < size → f (d + (i + 1)) = c i >>> (64 - mod) ||| wshl (c (i + 1)) mod)
    (htop : f (d + size) = 0) :
    value (object f (d + (size + 1))) = value (object c size) * 2 ^ (64 * d + mod) := by
  obtain ⟨k, rfl⟩ : ∃ k, size = k + 1 := ⟨size - 1, by omega⟩
  have h1 := value_shifted (c := c) (w := fun i => f (d + i)) (k := k) hmod
    (by rw [Nat.add_zero, hd, wshl, Nat.shiftLeft_eq])
    (fun i hi => by rw [hmid i (by omega), lor_eq (hc i) hmod])
  rw [Nat.add_sub_cancel] at h0
  rw [h0, Nat.zero_div, Nat.mul_zero, Nat.add_zero] at h1
  rw [value_object_add, value_object_succ, htop, Nat.mul_zero, Nat.add_zero, h1, pow_words,
    value_object_zeroes (Nat.zero_le d) fun i _ hi => hlow i hi]
  simp only [object, List.range_zero, List.map_nil, value_nil]
  ring

/-- **To the left**: by words, or by bits with the sign put at risk. -/
lemma denote_numShiftLeft {shf : ℕ} (hc : Bounded c) (hs : 2 ≤ size) (h0 : c (size - 1) = 0) :
    denote (numShiftLeft c size shf) = value (object c size) * 2 ^ shf ↔
      shf % 64 = 0 ∨ ¬ TopFull (value (object c size) * 2 ^ shf) := by
  have hshf : 64 * (shf / 64) + shf % 64 = shf := Nat.div_add_mod shf 64
  rw [numShiftLeft]
  dsimp only
  by_cases hmod : shf % 64 ≠ 0
  · rw [if_pos hmod, if_neg (not_not.mpr h0)]
    dsimp only
    have hmod' : shf % 64 ≤ 64 := (Nat.mod_lt shf (by decide)).le
    generalize shf / 64 = d at hshf ⊢
    generalize shf % 64 = mod at hshf hmod hmod' ⊢
    set c₁ := Function.update (shiftLeftLoop d mod (size - 1) c) d
      (wshl (shiftLeftLoop d mod (size - 1) c 0) mod) with hc₁
    set c₂ := Function.update c₁ (size + d) (c (size - 1) >>> (64 - mod)) with hc₂
    have hb : Bounded c₂ := ((shiftLeftLoop_bounded hc).update _ (wshl_lt _ _)).update _
      (shiftRight_lt (hc _))
    have htop : c₂ (size + d) = 0 := by
      rw [hc₂, Function.update_self, h0, Nat.zero_shiftRight]
    have hv := value_shiftLeft (f := fun i => if i < d then 0 else c₂ i) hc (by omega) h0 hmod'
      (fun i hi => if_pos hi) (by
        rw [if_neg (lt_irrefl d), hc₂, Function.update_of_ne (by omega), hc₁, Function.update_self,
          shiftLeftLoop_apply, if_neg (by omega)])
      (fun i hi => by
        rw [if_neg (by omega), hc₂, Function.update_of_ne (by omega), hc₁,
          Function.update_of_ne (by omega), shiftLeftLoop_apply, if_pos (by omega),
          show d + (i + 1) - d - 1 = i by omega, show d + (i + 1) - d = i + 1 by omega])
      (by rw [if_neg (by omega), Nat.add_comm d, htop])
    rw [hshf, show d + (size + 1) = size + d + 1 by omega] at hv
    have htrim := denote_trimZeroes (f := fun i => if i < d then 0 else c₂ i) (d := d) hb
      (by omega : 2 ≤ size + d + 1) (by rwa [Nat.add_sub_cancel]) (fun i => rfl)
    rw [hv] at htrim
    push_cast at htrim
    rw [htrim]
    simp [hmod]
  · rw [if_neg hmod]
    dsimp only
    generalize shf / 64 = d at hshf ⊢
    refine iff_of_true ?_ (.inl (not_not.mp hmod))
    rw [not_not.mp hmod, Nat.add_zero] at hshf
    -- the words are moved as they are
    obtain ⟨k, rfl⟩ : ∃ k, size = k + 1 := ⟨size - 1, by omega⟩
    have hf : ∀ i < k + 1, (if d + i < d then 0 else moveUpLoop d (k + 1) c (d + i)) = c i :=
      fun i hi => by
        rw [if_neg (by omega), moveUpLoop_apply, if_pos (by omega), Nat.add_sub_cancel_left]
    have hv :
        value (object (fun i => if i < d then 0 else moveUpLoop d (k + 1) c i) (d + (k + 1))) =
        value (object c (k + 1)) * 2 ^ shf := by
      rw [value_object_add, value_object_zeroes (Nat.zero_le d) fun i _ hi => if_pos hi,
        value_object_congr hf, ← hshf, pow_mul]
      simp only [object, List.range_zero, List.map_nil, value_nil]
      rw [Nat.zero_add, Nat.mul_comm]
      rfl
    rw [show k + 1 + d = d + k + 1 by omega, object_succ, hf k (by omega)]
    rw [Nat.add_sub_cancel] at h0
    rw [← Nat.add_assoc, value_object_succ, hf k (by omega), h0, Nat.mul_zero, Nat.add_zero] at hv
    rw [h0, denote_pos, hv]
    push_cast
    rfl

/-! ### To the right -/

lemma shiftRightLoop_apply (div mod k i j : ℕ) (c : ℕ → ℕ) : shiftRightLoop div mod k i c j =
    if i ≤ j ∧ j < i + k then c (j + div) >>> mod ||| wshl (c (j + div + 1)) (64 - mod)
    else c j := by
  induction k generalizing c i with
  | zero => rw [if_neg (by omega), shiftRightLoop]
  | succ k ih =>
    rw [shiftRightLoop, ih]
    by_cases hj : i + 1 ≤ j ∧ j < i + 1 + k
    · rw [if_pos hj, if_pos (by omega), Function.update_of_ne (by omega),
        Function.update_of_ne (by omega)]
    · rw [if_neg hj]
      by_cases hk : j = i
      · subst hk
        rw [Function.update_self, if_pos (by omega)]
      · rw [Function.update_of_ne hk, if_neg (by omega)]

/-- The words shifted by less than a word, with the bits that come in from the next one. -/
lemma value_shiftRight {m : ℕ} {w : ℕ → ℕ} (hc : Bounded c) (hm : m ≤ 64)
    (hw : ∀ i < k, w i = c i >>> m ||| wshl (c (i + 1)) (64 - m)) :
    2 ^ m * value (object w k) + c 0 % 2 ^ m =
      value (object c k) + wordMod ^ k * (c k % 2 ^ m) := by
  induction k with
  | zero => simp [object]
  | succ k ih =>
    have h1 := ih fun i hi => hw i (by omega)
    have h2 := lor_eq (x := c (k + 1)) (hc k) (by omega : 64 - m ≤ 64)
    rw [Nat.sub_sub_self hm] at h2
    have hW : wordMod = 2 ^ m * 2 ^ (64 - m) := by
      rw [← pow_add, Nat.add_sub_cancel' hm]
      rfl
    have h3 : c (k + 1) * 2 ^ (64 - m) % wordMod = 2 ^ (64 - m) * (c (k + 1) % 2 ^ m) := by
      rw [hW, Nat.mul_comm (2 ^ m), Nat.mul_comm (c (k + 1)), Nat.mul_mod_mul_left]
    have h4 := Nat.div_add_mod (c k) (2 ^ m)
    rw [value_object_succ, value_object_succ, hw k (by omega), h2, h3, pow_succ]
    generalize c (k + 1) % 2 ^ m = r
    generalize c k % 2 ^ m = s at h1 h4
    generalize c k / 2 ^ m = q at h4 ⊢
    calc 2 ^ m * (value (object w k) + wordMod ^ k * (q + 2 ^ (64 - m) * r)) + c 0 % 2 ^ m
        = (2 ^ m * value (object w k) + c 0 % 2 ^ m) + wordMod ^ k * (2 ^ m * q) +
          wordMod ^ k * (2 ^ m * 2 ^ (64 - m)) * r := by ring
      _ = value (object c k) + wordMod ^ k * (2 ^ m * q + s) +
          wordMod ^ k * (2 ^ m * 2 ^ (64 - m)) * r := by rw [h1]; ring
      _ = _ := by rw [h4, ← hW]

/-- **To the right**: a shift by all the words but one leaves a single word. -/
lemma denote_numShiftRight {shf : ℕ} (hc : Bounded c) (hs : 2 ≤ size) (h0 : c (size - 1) = 0)
    (hshf0 : shf ≠ 0) (hall : shf ≠ 64 * (size - 1)) :
    denote (numShiftRight c size shf) = ((value (object c size) / 2 ^ shf : ℕ) : ℤ) ↔
      shf % 64 = 0 ∨ ¬ TopFull (value (object c size) / 2 ^ shf) := by
  have hshf : 64 * (shf / 64) + shf % 64 = shf := Nat.div_add_mod shf 64
  have hmod' : shf % 64 < 64 := Nat.mod_lt shf (by decide)
  obtain ⟨l, rfl⟩ : ∃ l, size = l + 1 := ⟨size - 1, by omega⟩
  rw [Nat.add_sub_cancel] at h0 hall
  have hval : value (object c (l + 1)) = value (object c l) := by
    rw [value_object_succ, h0, Nat.mul_zero, Nat.add_zero]
  have hlt := value_object_lt hc (k := l)
  rw [numShiftRight]
  dsimp only
  rw [Nat.add_sub_cancel]
  by_cases hbig : (l + 1) * 64 ≤ shf
  · -- nothing is left
    have hz : value (object c l) / 2 ^ shf = 0 := by
      refine Nat.div_eq_of_lt (hlt.trans_le ?_)
      rw [show wordMod = 2 ^ 64 from rfl, ← pow_mul]
      exact Nat.pow_le_pow_right (by decide) (by omega)
    rw [if_pos hbig, hval, hz]
    refine iff_of_true (by decide) (.inr ?_)
    rintro ⟨m, -, h1, -⟩
    have := Nat.mul_pos (by decide : 0 < ones) (pow_pos (by decide : 0 < wordMod) m)
    omega
  rw [if_neg hbig]
  -- the words that stay
  have hdrop : value (object c l) / 2 ^ shf =
      value (object (fun i => c (shf / 64 + i)) (l - shf / 64)) / 2 ^ (shf % 64) := by
    by_cases hle : shf / 64 ≤ l
    · have h1 := value_object_add (c := c) (shf / 64) (l := l - shf / 64)
      rw [Nat.add_sub_cancel' hle] at h1
      conv_lhs => rw [← hshf]
      rw [pow_words, h1, ← Nat.div_div_eq_div_mul, Nat.add_mul_div_left _ _
        (pow_pos (by decide : 0 < wordMod) _), Nat.div_eq_of_lt (value_object_lt hc), Nat.zero_add]
    · omega
  rw [hval, hdrop]
  have hle : shf / 64 ≤ l := by omega
  by_cases hmod : shf % 64 ≠ 0
  · rw [if_pos hmod, h0]
    generalize shf / 64 = d at hshf hle ⊢
    generalize shf % 64 = mod at hmod hmod' ⊢
    rw [show l + 1 - d - 1 = l - d by omega, show l + 1 - d = l - d + 1 by omega]
    set c₁ := Function.update (shiftRightLoop d mod (l - d) 0 c) (l - d) (0 >>> mod) with hc₁
    have hb : Bounded c₁ := (shiftRightLoop_bounded hc).update _ (by
      rw [Nat.zero_shiftRight]
      decide)
    have htop : c₁ (l - d) = 0 := by rw [hc₁, Function.update_self, Nat.zero_shiftRight]
    have hv : value (object c₁ (l - d + 1)) =
        value (object (fun i => c (d + i)) (l - d)) / 2 ^ mod := by
      have h1 := value_shiftRight (w := c₁) (c := fun i => c (d + i)) (k := l - d)
        (fun i => hc (d + i)) hmod'.le fun i hi => by
          rw [hc₁, Function.update_of_ne (by omega), shiftRightLoop_apply, if_pos (by omega),
            Nat.add_comm i, Nat.add_assoc]
      rw [Nat.add_sub_cancel' hle, h0, Nat.zero_mod, Nat.mul_zero, Nat.add_zero, Nat.add_zero] at h1
      rw [value_object_succ, htop, Nat.mul_zero, Nat.add_zero, ← h1,
        Nat.mul_add_div (by positivity),
        Nat.div_eq_of_lt (Nat.mod_lt _ (by positivity)), Nat.add_zero]
    by_cases hend : l ≤ d
    · -- a sign word is put behind the only word
      rw [if_pos (.inr hend)]
      dsimp only
      have hb₂ : Bounded (Function.update c₁ (l - d + 1) 0) := hb.update _ (by decide)
      have htrim := denote_trimZeroes (d := 0) hb₂ (by omega : 2 ≤ l - d + 1 + 1)
        (by rw [Nat.add_sub_cancel, Function.update_self])
        fun i => (if_neg (Nat.not_lt_zero i)).symm
      have hv₂ : value (object (Function.update c₁ (l - d + 1) 0) (l - d + 1 + 1)) =
          value (object (fun i => c (d + i)) (l - d)) / 2 ^ mod := by
        rw [value_object_succ, Function.update_self, Nat.mul_zero, Nat.add_zero, ← hv]
        exact value_object_congr fun i hi => Function.update_of_ne (by omega) _ _
      rw [hv₂] at htrim
      rw [htrim]
      simp [hmod]
    · rw [if_neg (by simpa using hend)]
      dsimp only
      have htrim := denote_trimZeroes (d := 0) hb (by omega : 2 ≤ l - d + 1)
        (by rwa [Nat.add_sub_cancel]) fun i => (if_neg (Nat.not_lt_zero i)).symm
      rw [hv] at htrim
      rw [htrim]
      simp [hmod]
  · rw [if_neg hmod, if_pos (by omega)]
    refine iff_of_true ?_ (.inl (not_not.mp hmod))
    rw [not_not.mp hmod, pow_zero, Nat.div_one]
    generalize shf / 64 = d at hshf hle ⊢
    obtain ⟨-, -, h3⟩ := moveDownLoop_spec d (k := l + 1 - d) (i := 0) hc
    have h4 : ∀ i < l - d + 1, moveDownLoop d (l + 1 - d) 0 c i = c (d + i) := fun i hi => by
      rw [h3 i (Nat.zero_le i) (by omega), Nat.add_comm]
    have h5 : c (d + (l - d)) = 0 := by rw [Nat.add_sub_cancel' hle, h0]
    conv_lhs => arg 1; arg 2; rw [show l + 1 - d = l - d + 1 by omega]
    rw [object_succ, h4 _ (by omega), h5, denote_pos,
      value_object_congr fun i hi => h4 i (by omega)]

/-! ### Shifts by a number -/

/-- The number `v` shifted by the count `k`: to the left where that is negative. -/
def shifted (v k : ℤ) : ℤ := if 0 ≤ k then v / 2 ^ k.toNat else v * 2 ^ (-k).toNat

/-- When a shift of a number by a count below a power of the base is right: there is nothing to
shift by, a count of two words leaves the sign word in place, or a longer one has nothing to
shift. -/
def Shifts (n₁ n₂ : List ℕ) : Prop :=
  denote n₂ = 0 ∨ (2 < n₂.length ∧ denote n₁ = 0) ∨
    n₂.length = 2 ∧ (0 < denote n₂ → denote n₂ ≠ 64 * (n₁.length - 1)) ∧
      (64 ∣ denote n₂ ∨ ¬ TopFull (shifted (denote n₁) (denote n₂)).toNat)

lemma object_words {junk : ℕ → ℕ} : object (words n junk) n.length = n := by
  apply List.ext_getElem
  · exact length_object
  · intro i h1 h2
    rw [← List.getD_eq_getElem _ 0, getD_object (by rwa [length_object] at h1), words, if_pos h2,
      List.getD_eq_getElem]

lemma words_top {junk : ℕ → ℕ} (h : WellFormed n) (hn : 0 ≤ denote n) :
    words n junk (n.length - 1) = 0 := by
  have hsz := h.size
  rw [words, if_pos (by omega)]
  exact (denote_sign h).2.mpr hn

lemma shifted_eq_self {v k : ℤ} (hv : 0 ≤ v) (hk : k ≠ 0) : shifted v k = v ↔ v = 0 := by
  rw [shifted]
  split_ifs with h
  · have h1 : (1 : ℤ) < 2 ^ k.toNat := one_lt_pow₀ (by decide) (by omega)
    refine ⟨fun heq => ?_, fun h0 => by rw [h0, Int.zero_ediv]⟩
    by_contra hne
    exact absurd heq (Int.ediv_lt_self_of_pos_of_ne_one (by omega) h1.ne').ne
  · have h1 : (1 : ℤ) < 2 ^ (-k).toNat := one_lt_pow₀ (by decide) (by omega)
    refine ⟨fun heq => ?_, fun h0 => by rw [h0, zero_mul]⟩
    by_contra hne
    nlinarith [lt_of_le_of_ne hv (Ne.symm hne)]

/-- **Shifts** of a number that is not negative by a count that fits in a word. -/
lemma numShift_right_iff {junk : ℕ → ℕ} (h₁ : WellFormed n₁) (hn : 0 ≤ denote n₁)
    (h₂ : WellFormed n₂) (hk : |denote n₂| < wordMod) (hj : Bounded junk) :
    (WellFormed (numShift false n₁ n₂ junk) ∧
      denote (numShift false n₁ n₂ junk) = shifted (denote n₁) (denote n₂)) ↔ Shifts n₁ n₂ := by
  have hsz₁ := h₁.size
  have hsz₂ := h₂.size
  have hwf : WellFormed (numShift false n₁ n₂ junk) ↔ n₂ ≠ [64 * (n₁.length - 1), 0] :=
    numShift_wellFormed h₁ h₂ hj (by simp)
  have hv : denote n₁ = value n₁ := by
    rw [denote, (denote_sign h₁).2.mpr hn, if_neg (by decide), sub_zero]
  rcases hsz₂.lt_or_eq with hlong | htwo
  · -- the count is too long
    have hret : numShift false n₁ n₂ junk = n₁ := by
      rw [numShift, if_neg (by omega), if_pos hlong]
    rw [hret, Shifts]
    by_cases h0 : denote n₂ = 0
    · simp [h0, h₁, shifted]
    · rw [eq_comm, shifted_eq_self hn h0]
      simp [h0, h₁, hlong]
      omega
  obtain ⟨x, s, rfl⟩ := List.length_eq_two.mp htwo.symm
  have hx : x < wordMod := h₂.words x (by simp)
  have hs : s = 0 ∨ s = ones := h₂.sign
  have hb := bounded_words h₁.words hj
  have htop : words n₁ junk (n₁.length - 1) = 0 := words_top h₁ hn
  rcases hs with rfl | rfl
  · have hden : denote [x, 0] = x := by
      rw [show [x, 0] = [x] ++ [0] from rfl, denote_pos]
      simp [value]
    by_cases h0 : x = 0
    · subst h0
      refine iff_of_true ⟨h₁, ?_⟩ (.inl hden)
      rw [hden]
      simp [numShift, shifted]
    have hret : numShift false n₁ [x, 0] junk = numShiftRight (words n₁ junk) n₁.length x := by
      simp [numShift, h0, last]
    rw [hret] at hwf ⊢
    rw [Shifts, hden, shifted, if_pos (by omega), Int.toNat_natCast, hv]
    have hne : (x : ℤ) ≠ 64 * (n₁.length - 1) ↔ x ≠ 64 * (n₁.length - 1) := by omega
    have hcast : (value n₁ : ℤ) / 2 ^ x = ((value n₁ / 2 ^ x : ℕ) : ℤ) := by push_cast; rfl
    have hdvd : (64 : ℤ) ∣ x ↔ x % 64 = 0 := by omega
    rw [hwf, hcast, Int.toNat_natCast, hdvd]
    by_cases hall : x = 64 * (n₁.length - 1)
    · simp [hall]
      omega
    · have h3 := denote_numShiftRight hb hsz₁ htop h0 hall
      rw [object_words] at h3
      rw [h3]
      simp [hall, h0, hne]
  · have hden : denote [x, ones] = x - wordMod := by
      rw [show [x, ones] = [x] ++ [ones] from rfl, denote_neg]
      simp [value]
    rw [hden, abs_lt] at hk
    have h0 : x ≠ 0 := by omega
    have hneg : (numNegate [x, ones]).getD 0 0 = wordMod - x := by
      rw [numNegate, negateLoop_cons le_rfl, List.getD_cons_zero, wnot]
      unfold wordMod at *
      omega
    have hret : numShift false n₁ [x, ones] junk =
        numShiftLeft (words n₁ junk) n₁.length (wordMod - x) := by
      have hlast : last [x, ones] ≠ 0 := by
        rw [show last [x, ones] = ones from rfl]
        decide
      rw [numShift, if_neg (by simp [h0]), if_neg (by simp), if_pos hlast]
      dsimp only
      rw [hneg]
      rfl
    rw [hret] at hwf ⊢
    have hcount : (-((x : ℤ) - wordMod)).toNat = wordMod - x := by omega
    rw [Shifts, hden, shifted, if_neg (by omega), hcount, hv]
    have hcast : (value n₁ : ℤ) * 2 ^ (wordMod - x) = ((value n₁ * 2 ^ (wordMod - x) : ℕ) : ℤ) := by
      push_cast
      rfl
    have hdvd : (64 : ℤ) ∣ x - wordMod ↔ (wordMod - x) % 64 = 0 := by omega
    have h3 := @denote_numShiftLeft _ _ (wordMod - x) hb hsz₁ htop
    rw [object_words] at h3
    rw [hwf, hcast, Int.toNat_natCast, hdvd]
    push_cast
    rw [h3]
    have h4 : ¬ (x : ℤ) - wordMod = 0 := by omega
    have h5 : ¬ 0 < (x : ℤ) - wordMod := by omega
    have hne : [x, ones] ≠ [64 * (n₁.length - 1), 0] := fun h => by
      simp only [List.cons.injEq, and_true] at h
      exact absurd h.2 (by decide)
    refine ⟨fun h => .inr (.inr ⟨rfl, fun h6 => absurd h6 h5, h.2⟩), fun h => ⟨hne, ?_⟩⟩
    rcases h with h | h | h
    · exact absurd h h4
    · exact absurd h.1 (lt_irrefl 2)
    · exact h.2.2

end LispMachine.NumShift
