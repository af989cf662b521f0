import LispMachine.NumStr
import Mathlib.Data.Int.ModEq

/-!
The integers that words denote, as residues.

The words of a number are its integer up to a multiple of the power of the base that lies past the
end, and the sign is that of the least absolute residue. So an operation is right as soon as the
integer it should have is the residue of the words and has room in them.
-/

namespace LispMachine.NumVal

open LispMachine.Memory LispMachine.Bignum LispMachine.BignumWf LispMachine.NumStr

variable {n n₁ n₂ xs ys : List ℕ} {s x : ℕ} {v : ℤ}

lemma value_append : value (xs ++ ys) = value xs + wordMod ^ xs.length * value ys :=
  Nat.ofDigits_append

/-- What a number denotes is the least absolute residue of its words. -/
lemma denote_eq_bmod (h : Words n) (h0 : n ≠ []) :
    denote n = Int.bmod (value n) (wordMod ^ n.length) := by
  obtain ⟨xs, hxs⟩ := exists_concat h0
  generalize last n = s at hxs
  subst hxs
  have hlt := value_lt h
  have hs : s < 2 ^ 64 := h s (by simp)
  have hv : value xs < wordMod ^ xs.length := value_lt fun w hw => h w (by simp [hw])
  have hlen : wordMod ^ (xs ++ [s]).length = wordMod ^ xs.length * 2 ^ 64 := by
    rw [List.length_append, List.length_singleton, pow_succ]
    rfl
  have hhalf : (wordMod ^ (xs ++ [s]).length + 1) / 2 = wordMod ^ xs.length * 2 ^ 63 := by
    rw [hlen]
    omega
  have hmod : (value (xs ++ [s]) : ℤ) % ((wordMod ^ (xs ++ [s]).length : ℕ) : ℤ) =
      value (xs ++ [s]) := Int.emod_eq_of_lt (by positivity) (by exact_mod_cast hlt)
  have hiff : 2 ^ 63 ≤ s ↔ wordMod ^ xs.length * 2 ^ 63 ≤ value xs + wordMod ^ xs.length * s := by
    refine ⟨fun h1 => le_trans (Nat.mul_le_mul_left _ h1) (Nat.le_add_left _ _), fun h1 => ?_⟩
    by_contra h2
    have h3 := Nat.mul_le_mul_left (wordMod ^ xs.length) (by omega : s + 1 ≤ 2 ^ 63)
    rw [Nat.mul_add, Nat.mul_one] at h3
    omega
  have hcond : ((value (xs ++ [s]) : ℕ) : ℤ) ≥ (((wordMod ^ (xs ++ [s]).length : ℕ) : ℤ) + 1) / 2 ↔
      2 ^ 63 ≤ s := by
    rw [hiff, ← hhalf, ← value_concat]
    norm_cast
  rw [Int.bmod_eq_emod, hmod, denote, last_concat]
  simp only [hcond]
  push_cast
  rfl

/-- The words of a number are what it denotes, up to the power past the end. -/
lemma value_modEq : (value n : ℤ) ≡ denote n [ZMOD (wordMod : ℤ) ^ n.length] := by
  rw [denote]
  split_ifs
  · exact Int.modEq_iff_dvd.mpr ⟨-1, by ring⟩
  · rw [sub_zero]

/-- An integer with room in the words of its residue is what they denote. -/
lemma denote_unique (h : Words n) (h0 : n ≠ [])
    (hv : (value n : ℤ) ≡ v [ZMOD (wordMod : ℤ) ^ n.length])
    (hlo : -(wordMod : ℤ) ^ n.length ≤ v * 2) (hhi : v * 2 < (wordMod : ℤ) ^ n.length) :
    denote n = v := by
  have hcast : ((wordMod ^ n.length : ℕ) : ℤ) = (wordMod : ℤ) ^ n.length := by push_cast; rfl
  rw [← hcast] at hv hlo hhi
  calc denote n = Int.bmod (value n) (wordMod ^ n.length) := denote_eq_bmod h h0
    _ = Int.bmod (value n % (wordMod ^ n.length : ℕ)) (wordMod ^ n.length) :=
      (Int.emod_bmod ..).symm
    _ = Int.bmod (v % (wordMod ^ n.length : ℕ)) (wordMod ^ n.length) := by rw [hv]
    _ = Int.bmod v (wordMod ^ n.length) := Int.emod_bmod ..
    _ = v := Int.bmod_eq_of_le_mul_two hlo hhi

/-! ### Well-formed numbers -/

lemma exists_sign (h : WellFormed n) : ∃ xs s, n = xs ++ [s] ∧ Words xs ∧ xs ≠ [] ∧
    (s = 0 ∨ s = ones) := by
  obtain ⟨xs, hxs⟩ := exists_concat (n := n) (by rintro rfl; simpa using h.size)
  rw [hxs] at h
  exact ⟨xs, last n, hxs, wellFormed_concat.mp h⟩

lemma denote_pos : denote (xs ++ [0]) = value xs := by
  rw [denote_concat, if_neg (by decide)]
  norm_num

lemma denote_neg : denote (xs ++ [ones]) = value xs - (wordMod : ℤ) ^ xs.length := by
  rw [denote_concat, if_pos (by decide), show ((ones : ℕ) : ℤ) - wordMod = -1 by decide]
  ring

/-- A well-formed number has less bits than the words before its sign. -/
lemma denote_bounds (h : WellFormed n) :
    -(wordMod : ℤ) ^ (n.length - 1) ≤ denote n ∧ denote n < (wordMod : ℤ) ^ (n.length - 1) := by
  obtain ⟨xs, s, rfl, hw, -, hs⟩ := exists_sign h
  have hlt : (value xs : ℤ) < (wordMod : ℤ) ^ xs.length := by exact_mod_cast value_lt hw
  rw [List.length_append, List.length_singleton, Nat.add_sub_cancel]
  rcases hs with rfl | rfl
  · rw [denote_pos]
    omega
  · rw [denote_neg]
    omega

/-- The sign word tells the sign. -/
lemma denote_sign (h : WellFormed n) :
    (last n = ones ↔ denote n < 0) ∧ (last n = 0 ↔ 0 ≤ denote n) := by
  obtain ⟨xs, s, rfl, hw, -, hs⟩ := exists_sign h
  have hlt : (value xs : ℤ) < (wordMod : ℤ) ^ xs.length := by exact_mod_cast value_lt hw
  have hne : ones ≠ 0 := by decide
  rw [last_concat]
  rcases hs with rfl | rfl
  · rw [denote_pos]
    exact ⟨iff_of_false hne.symm (by omega), iff_of_true rfl (by omega)⟩
  · rw [denote_neg]
    exact ⟨iff_of_true rfl (by omega), iff_of_false hne (by omega)⟩

/-- The top bit tells it for any words. -/
lemma denote_neg_iff (h : Words n) : denote n < 0 ↔ 2 ^ 63 ≤ last n := by
  have hlt : (value n : ℤ) < (wordMod : ℤ) ^ n.length := by exact_mod_cast value_lt h
  rw [denote]
  split_ifs with hs
  · exact iff_of_true (by omega) hs
  · exact iff_of_false (by omega) hs

/-- Below the power of the last word there is only a sign word. -/
lemma last_of_bounds (h : Words n) (h0 : n ≠ []) (hlo : -(wordMod : ℤ) ^ (n.length - 1) ≤ denote n)
    (hhi : denote n < (wordMod : ℤ) ^ (n.length - 1)) :
    last n = if denote n < 0 then ones else 0 := by
  simp only [denote_neg_iff h]
  obtain ⟨xs, hxs⟩ := exists_concat h0
  generalize last n = s at hxs
  subst hxs
  have hs : s < 2 ^ 64 := h s (by simp)
  have hlt : (value xs : ℤ) < (wordMod : ℤ) ^ xs.length := by
    exact_mod_cast value_lt fun w hw => h w (by simp [hw])
  rw [List.length_append, List.length_singleton, Nat.add_sub_cancel, denote_concat] at hlo hhi
  generalize (wordMod : ℤ) ^ xs.length = B at hlo hhi hlt
  split_ifs with hneg
  · rw [if_pos hneg] at hlo
    by_contra hne
    have h1 : (s : ℤ) - wordMod ≤ -2 := by
      unfold ones wordMod at *
      omega
    nlinarith
  · rw [if_neg hneg, sub_zero] at hhi
    by_contra hne
    have h1 : (1 : ℤ) ≤ s := by omega
    nlinarith

/-- The word that a number goes on with. -/
def signWord (n : List ℕ) : ℕ := if 2 ^ 63 ≤ last n then ones else 0

lemma signWord_eq (h : WellFormed n) : signWord n = last n := by
  rw [signWord]
  rcases h.sign with h | h <;> rw [h] <;> decide

/-- A further sign word changes nothing. -/
lemma denote_extend (h0 : n ≠ []) : denote (n ++ [signWord n]) = denote n := by
  obtain ⟨xs, hxs⟩ := exists_concat h0
  rw [signWord]
  split_ifs with h
  · rw [denote_neg, denote, if_pos h]
  · rw [denote_pos, denote, if_neg h, sub_zero]

lemma signWord_concat (s : ℕ) : signWord (xs ++ [s]) = if 2 ^ 63 ≤ s then ones else 0 := by
  rw [signWord, last_concat]

lemma signWord_idem : (if 2 ^ 63 ≤ signWord n then ones else 0) = signWord n := by
  rw [signWord]
  split_ifs <;> first | rfl | contradiction

/-- Nor do any more of them. -/
lemma denote_replicate (h0 : n ≠ []) (k : ℕ) :
    denote (n ++ List.replicate k (signWord n)) = denote n := by
  induction k with
  | zero => simp
  | succ k ih =>
    have hsign : signWord (n ++ List.replicate k (signWord n)) = signWord n := by
      cases k with
      | zero => simp
      | succ k =>
        rw [List.replicate_succ', ← List.append_assoc, signWord_concat, signWord_idem]
    have h1 := denote_extend (n := n ++ List.replicate k (signWord n)) (by simp [h0])
    rw [hsign, List.append_assoc, ← List.replicate_succ'] at h1
    rw [h1, ih]

/-! ### Negation -/

lemma words_ne_nil (h : WellFormed n) : n ≠ [] := by
  rintro rfl
  simpa using h.size

/-- The top bit of the negation counts as its sign even when the sign word is lost. -/
lemma denote_negate (h : WellFormed n) : denote (numNegate n) = -denote n := by
  have h0 := words_ne_nil h
  have h0' : numNegate n ≠ [] := by
    rw [← List.length_pos_iff, length_numNegate]
    exact List.length_pos_iff.mpr h0
  obtain ⟨h1, h2⟩ := denote_bounds h
  have hpow : (wordMod : ℤ) ^ n.length = (wordMod : ℤ) ^ (n.length - 1) * 2 ^ 64 := by
    rw [← Nat.sub_add_cancel (List.length_pos_iff.mpr h0), pow_succ, Nat.add_sub_cancel]
    rfl
  have hpos : (0 : ℤ) < (wordMod : ℤ) ^ (n.length - 1) := pow_pos (by decide) _
  refine denote_unique words_numNegate h0' ?_ ?_ ?_
  · rw [length_numNegate]
    have hsum : (value (numNegate n) : ℤ) + value n ≡ 0 [ZMOD (wordMod : ℤ) ^ n.length] := by
      by_cases hall : ∀ w ∈ n, w = 0
      · rw [value_numNegate_zero h.words hall, value_eq_zero.mpr hall]
        rfl
      · have := value_numNegate h.words hall
        zify at this
        rw [this]
        exact Int.modEq_zero_iff_dvd.mpr dvd_rfl
    calc (value (numNegate n) : ℤ) = value (numNegate n) + value n - value n := by ring
      _ ≡ 0 - denote n [ZMOD (wordMod : ℤ) ^ n.length] := hsum.sub value_modEq
      _ = -denote n := zero_sub _
  · rw [length_numNegate, hpow]
    linarith
  · rw [length_numNegate, hpow]
    linarith

/-! ### Words put together -/

/-- The low bits of a word come from another one. -/
lemma lor_eq {a m : ℕ} (ha : a < wordMod) (hm : m ≤ 64) :
    a >>> (64 - m) ||| wshl x m = a / 2 ^ (64 - m) + x * 2 ^ m % wordMod := by
  have hW : wordMod = 2 ^ m * 2 ^ (64 - m) := by
    rw [← pow_add, Nat.add_sub_cancel' hm]
    rfl
  have hlt : a / 2 ^ (64 - m) < 2 ^ m := by
    rw [Nat.div_lt_iff_lt_mul (by positivity)]
    rwa [hW] at ha
  obtain ⟨q, hq⟩ : ∃ q, x * 2 ^ m % wordMod = 2 ^ m * q := by
    refine ⟨x % 2 ^ (64 - m), ?_⟩
    rw [hW, Nat.mul_comm x, Nat.mul_mod_mul_left]
  rw [wshl, Nat.shiftLeft_eq, Nat.shiftRight_eq_div_pow, hq, Nat.lor_comm, Nat.add_comm,
    Nat.two_pow_add_eq_or_of_lt hlt]

/-- A word shifted to the left: the bits that go out, and those that stay. -/
lemma shl_split {m : ℕ} (x : ℕ) (hm : m ≤ 64) :
    wordMod * (x / 2 ^ (64 - m)) + x * 2 ^ m % wordMod = x * 2 ^ m := by
  have hW : wordMod = 2 ^ m * 2 ^ (64 - m) := by
    rw [← pow_add, Nat.add_sub_cancel' hm]
    rfl
  have h1 : x * 2 ^ m / wordMod = x / 2 ^ (64 - m) := by
    rw [hW, Nat.mul_comm x, Nat.mul_div_mul_left _ _ (by positivity)]
  rw [← h1, Nat.div_add_mod]

/-! ### Trimming -/

variable {p : ℕ → Bool} {c : ℕ → ℕ}

/-- What is taken off has the property, and what stays does not end with it. -/
lemma trimLoop_stops (p : ℕ → Bool) (c : ℕ → ℕ) (i : ℕ) :
    (∀ k, trimLoop p c i ≤ k → k < i → p (c k) = true) ∧
      (trimLoop p c i ≤ 1 ∨ p (c (trimLoop p c i - 1)) = false) := by
  induction i using Nat.strong_induction_on with
  | _ i ih =>
    match i with
    | 0 => exact ⟨fun k _ hk => by omega, .inl (by simp [trimLoop])⟩
    | 1 => exact ⟨fun k h hk => by simp [trimLoop] at h; omega, .inl le_rfl⟩
    | i + 2 =>
      rw [trimLoop]
      split_ifs with hp
      · obtain ⟨h1, h2⟩ := ih (i + 1) (by omega)
        refine ⟨fun k hk hlt => ?_, h2⟩
        rcases Nat.lt_succ_iff_lt_or_eq.mp hlt with hlt | rfl
        · exact h1 k hk hlt
        · exact hp
      · exact ⟨fun k hk hlt => by omega, .inr (by simpa using hp)⟩

/-- The word below the sign word differs from it, unless there are only two. -/
def Canonical (n : List ℕ) : Prop := n.length = 2 ∨ n.getD (n.length - 2) 0 ≠ last n

instance : DecidablePred Canonical := fun n =>
  inferInstanceAs (Decidable (n.length = 2 ∨ n.getD (n.length - 2) 0 ≠ last n))

/-- Trimming takes off copies of the sign word. -/
lemma trim_spec (hn : 2 ≤ n.length) (hs : last n = s) : ∃ k, 1 ≤ k ∧ k < n.length ∧
    trim (· = s) n = n.take (k + 1) ∧ n = n.take (k + 1) ++ List.replicate (n.length - 1 - k) s ∧
      last (n.take (k + 1)) = s ∧ (k = 1 ∨ n.getD (k - 1) 0 ≠ s) := by
  obtain ⟨h1, h2, h3⟩ := trimLoop_spec (· = s) (fun i => n.getD i 0) (n.length - 1)
  obtain ⟨h4, h5⟩ := trimLoop_stops (· = s) (fun i => n.getD i 0) (n.length - 1)
  rw [trim]
  generalize trimLoop (· = s) (fun i => n.getD i 0) (n.length - 1) = k at *
  have hlast : n.getD k 0 = s := by
    rcases h3 with rfl | h3
    · exact hs
    · simpa using h3
  refine ⟨k, h2 (by omega), by omega, rfl, ?_, by rw [last_take (by omega), hlast], ?_⟩
  · apply List.ext_getElem
    · rw [List.length_append, List.length_take, List.length_replicate]
      omega
    · intro i hi hi'
      rw [List.getElem_append]
      split_ifs with hlt
      · rw [List.getElem_take]
      · rw [List.length_take] at hlt
        rw [List.getElem_replicate, ← List.getD_eq_getElem _ 0 hi]
        by_cases hend : i = n.length - 1
        · rw [hend]
          exact hs
        · simpa using h4 i (by omega) (by omega)
  · rcases h5 with h5 | h5
    · exact .inl (by have := h2 (by omega); omega)
    · exact .inr (by simpa using h5)

lemma trim_denote (hn : 2 ≤ n.length) (hs : last n = s) (h : s = 0 ∨ s = ones) :
    denote (trim (· = s) n) = denote n := by
  obtain ⟨k, h1, h2, h3, h4, h5, -⟩ := trim_spec hn hs
  have hsign : signWord (n.take (k + 1)) = s := by
    rw [signWord, h5]
    rcases h with rfl | rfl <;> rfl
  have h0 : n.take (k + 1) ≠ [] := by
    rw [← List.length_pos_iff, List.length_take]
    omega
  rw [h3, ← denote_replicate h0 (n.length - 1 - k), hsign, ← h4]

lemma trim_canonical (hn : 2 ≤ n.length) (hs : last n = s) : Canonical (trim (· = s) n) := by
  obtain ⟨k, h1, h2, h3, -, h5, h6⟩ := trim_spec hn hs
  rw [h3, Canonical, h5, List.length_take, Nat.min_eq_left (by omega)]
  rcases h6 with rfl | h6
  · exact .inl rfl
  · right
    rwa [show k + 1 - 2 = k - 1 by omega, List.getD_eq_getElem?_getD,
      List.getElem?_take_of_lt (by omega), ← List.getD_eq_getElem?_getD]

lemma canonical_concat (h : x ≠ s) : Canonical (xs ++ [x] ++ [s]) := by
  right
  simp [last, h]

/-- Words below a power of the base need no more words. -/
lemma value_inj (h₁ : Words n₁) (h₂ : Words n₂) (hlen : n₁.length = n₂.length)
    (hv : value n₁ = value n₂) : n₁ = n₂ :=
  Nat.ofDigits_inj_of_len_eq (by decide) hlen h₁ h₂ hv

lemma canonical_length_le (h₁ : WellFormed n₁) (h₂ : WellFormed n₂) (hc : Canonical n₂)
    (hd : denote n₁ = denote n₂) : n₂.length ≤ n₁.length := by
  by_contra hlt
  have hsz := h₁.size
  obtain ⟨ys, s, rfl, hw, h0, hs⟩ := exists_sign h₂
  obtain ⟨xs, hxs⟩ := exists_concat h0
  generalize last ys = x at hxs
  subst hxs
  have hne : x ≠ s := by
    rcases hc with hc | hc
    · simp only [List.length_append, List.length_singleton] at hlt hc
      omega
    · simpa [last] using hc
  obtain ⟨h3, h4⟩ := denote_bounds h₁
  have hpow : (wordMod : ℤ) ^ (n₁.length - 1) ≤ (wordMod : ℤ) ^ xs.length := by
    refine pow_le_pow_right₀ (by decide) ?_
    simp only [List.length_append, List.length_singleton] at hlt
    omega
  have hx : x < wordMod := hw x (by simp)
  rw [hd] at h3 h4
  have hval : (value (xs ++ [x]) : ℤ) = value xs + (wordMod : ℤ) ^ xs.length * x := by
    rw [value_concat]
    push_cast
    rfl
  have hlow : (value xs : ℤ) < (wordMod : ℤ) ^ xs.length := by
    exact_mod_cast value_lt fun w hw' => hw w (by simp [hw'])
  rcases hs with rfl | rfl
  · rw [denote_pos, hval] at h4
    have : (1 : ℤ) ≤ x := by omega
    nlinarith
  · rw [denote_neg, hval, List.length_append, List.length_singleton, pow_succ] at h3
    have : (x : ℤ) + 2 ≤ wordMod := by
      unfold ones wordMod at *
      omega
    nlinarith

/-- There is only one number of a length for an integer. -/
lemma denote_inj (h₁ : Words n₁) (h₂ : Words n₂) (hlen : n₁.length = n₂.length)
    (hd : denote n₁ = denote n₂) : n₁ = n₂ := by
  refine value_inj h₁ h₂ hlen ?_
  have h3 := denote_neg_iff h₁
  have h4 := denote_neg_iff h₂
  rw [hd, h4] at h3
  rw [denote, denote, hlen] at hd
  simp only [h3] at hd
  exact_mod_cast (by linarith : (value n₁ : ℤ) = value n₂)

/-- There is only one canonical number for an integer. -/
lemma canonical_unique (h₁ : WellFormed n₁) (h₂ : WellFormed n₂) (hc₁ : Canonical n₁)
    (hc₂ : Canonical n₂) (hd : denote n₁ = denote n₂) : n₁ = n₂ :=
  denote_inj h₁.words h₂.words
    (le_antisymm (canonical_length_le h₂ h₁ hc₁ hd.symm) (canonical_length_le h₁ h₂ hc₂ hd)) hd

end LispMachine.NumVal
