import LispMachine.NumVal

/-!
The sum of two numbers.

The loops of `num_add` add the words of the longer number to those of the shorter one, which goes on
with its sign word. The sum of two well-formed numbers has room in the words of the longer one when
the top bit counts as the sign, so what is left to do is to put a sign word behind it or to take the
superfluous ones off. The lemmas ask only for this room: the negation of the lowest number of its
size is added in the same way.
-/

namespace LispMachine.NumAdd

open LispMachine.Memory LispMachine.Bignum LispMachine.BignumWf LispMachine.NumStr
open LispMachine.NumVal

variable {n n₁ n₂ xs ys : List ℕ} {carry pad s x : ℕ}

/-! ### The words -/

/-- The words of a sum are those of the operands and the carry, up to the carry out. -/
lemma value_addLoop (h₁ : Words n₁) (h₂ : Words n₂) (hpad : pad < wordMod) (hc : carry ≤ 1)
    (hlen : n₂.length ≤ n₁.length) : ∃ k, value (addLoop pad carry n₁ n₂) +
      wordMod ^ n₁.length * k =
        value n₁ + value (n₂ ++ List.replicate (n₁.length - n₂.length) pad) + carry := by
  induction n₁ generalizing n₂ carry with
  | nil =>
    obtain rfl : n₂ = [] := List.length_eq_zero_iff.mp (Nat.le_zero.mp hlen)
    exact ⟨carry, by simp [addLoop]⟩
  | cons x xs ih =>
    obtain ⟨hx, hxs⟩ := List.forall_mem_cons.mp h₁
    -- the first word of the other number, and the rest of it
    obtain ⟨y, ys, hy, hys, hle, hgo, hloop⟩ : ∃ y ys, y < wordMod ∧ Words ys ∧
        ys.length ≤ xs.length ∧
        n₂ ++ List.replicate ((x :: xs).length - n₂.length) pad =
          y :: (ys ++ List.replicate (xs.length - ys.length) pad) ∧
        addLoop pad carry (x :: xs) n₂ = (x + y + carry) % wordMod ::
          addLoop pad ((x + y + carry) / wordMod) xs ys := by
      cases n₂ with
      | nil =>
        refine ⟨pad, [], hpad, by simp [Words], Nat.zero_le _, ?_, ?_⟩
        · simp [List.replicate_succ]
        · rw [addLoop, addStep_eq hc hx hpad]
      | cons y ys =>
        obtain ⟨hy, hys⟩ := List.forall_mem_cons.mp h₂
        rw [List.length_cons, List.length_cons] at hlen
        refine ⟨y, ys, hy, hys, by omega, ?_, ?_⟩
        · rw [List.length_cons, List.length_cons, Nat.add_sub_add_right, List.cons_append]
        · rw [addLoop, addStep_eq hc hx hy]
    obtain ⟨k, hk⟩ := ih hxs hys (addStep_carry hc hx hy) hle
    refine ⟨k, ?_⟩
    rw [hloop, hgo, value_cons, value_cons, value_cons, List.length_cons, pow_succ]
    have hdiv := Nat.div_add_mod (x + y + carry) wordMod
    generalize (x + y + carry) / wordMod = q at hk hdiv
    generalize (x + y + carry) % wordMod = r at hdiv
    generalize value (addLoop pad q xs ys) = a at hk
    generalize value (ys ++ List.replicate (xs.length - ys.length) pad) = b at hk
    calc r + wordMod * a + wordMod ^ xs.length * wordMod * k
        = r + wordMod * (a + wordMod ^ xs.length * k) := by ring
      _ = (wordMod * q + r) + wordMod * value xs + wordMod * b := by rw [hk]; ring
      _ = x + wordMod * value xs + (y + wordMod * b) + carry := by rw [hdiv]; ring

/-- With room for it, the sum is what the words denote. -/
lemma denote_addLoop (h₁ : Words n₁) (h₂ : Words n₂) (h0 : n₂ ≠ []) (hlen : n₂.length ≤ n₁.length)
    (hlo : -(wordMod : ℤ) ^ n₁.length ≤ (denote n₁ + denote n₂) * 2)
    (hhi : (denote n₁ + denote n₂) * 2 < (wordMod : ℤ) ^ n₁.length) :
    denote (addLoop (signWord n₂) 0 n₁ n₂) = denote n₁ + denote n₂ := by
  have hpad : signWord n₂ < wordMod := by
    rw [signWord]
    split_ifs <;> decide
  have hne : n₁ ≠ [] := by
    rintro rfl
    exact h0 (List.length_eq_zero_iff.mp (Nat.le_zero.mp hlen))
  obtain ⟨k, hk⟩ := value_addLoop h₁ h₂ hpad (Nat.zero_le 1) hlen
  obtain ⟨hl, hw, -⟩ := addLoop_last hne hlen h₁ h₂ hpad (Nat.zero_le 1)
  have hne' : addLoop (signWord n₂) 0 n₁ n₂ ≠ [] := by
    rw [← List.length_pos_iff, hl]
    exact List.length_pos_iff.mpr hne
  have h3 := value_modEq (n := n₂ ++ List.replicate (n₁.length - n₂.length) (signWord n₂))
  rw [denote_replicate h0, List.length_append, List.length_replicate,
    show n₂.length + (n₁.length - n₂.length) = n₁.length by omega] at h3
  refine denote_unique hw hne' ?_ (by rwa [hl]) (by rwa [hl])
  rw [hl]
  have hk' : (value (addLoop (signWord n₂) 0 n₁ n₂) : ℤ) = value n₁ +
      value (n₂ ++ List.replicate (n₁.length - n₂.length) (signWord n₂)) -
        (wordMod : ℤ) ^ n₁.length * k := by
    zify at hk
    linarith
  calc (value (addLoop (signWord n₂) 0 n₁ n₂) : ℤ)
      ≡ value n₁ + value (n₂ ++ List.replicate (n₁.length - n₂.length) (signWord n₂))
        [ZMOD (wordMod : ℤ) ^ n₁.length] := by
        rw [hk']
        exact Int.modEq_iff_dvd.mpr ⟨k, by ring⟩
    _ ≡ denote n₁ + denote n₂ [ZMOD (wordMod : ℤ) ^ n₁.length] := value_modEq.add h3

/-! ### The sign -/

/-- Words that denote no more than the words before the last one can hold, or just one more: the
well-formed numbers and their negations. -/
structure Fits (n : List ℕ) : Prop where
  words : Words n
  size : 2 ≤ n.length
  low : -(wordMod : ℤ) ^ (n.length - 1) ≤ denote n
  high : denote n ≤ (wordMod : ℤ) ^ (n.length - 1)

lemma Fits.ne_nil (h : Fits n) : n ≠ [] := by
  rintro rfl
  simpa using h.size

lemma Fits.of_wellFormed (h : WellFormed n) : Fits n :=
  ⟨h.words, h.size, (denote_bounds h).1, (denote_bounds h).2.le⟩

lemma sign_neg (h : Fits n) : last n >>> 63 ≠ 0 ↔ denote n < 0 := by
  rw [denote_neg_iff h.words, Nat.shiftRight_eq_div_pow]
  omega

lemma sign_nonneg (h : Fits n) : last n >>> 63 = 0 ↔ 0 ≤ denote n := by
  rw [← not_iff_not, not_le]
  exact sign_neg h

lemma pad_eq (h : Fits n) : (if last n >>> 63 ≠ 0 then ones else 0) = signWord n := by
  rw [signWord]
  simp only [sign_neg h, denote_neg_iff h.words]

/-- **The sum** of two numbers, the longer one first. -/
lemma addOrdered_spec (h₁ : Fits n₁) (h₂ : Fits n₂) (hlen : n₂.length ≤ n₁.length) :
    WellFormed (addOrdered n₁ n₂) ∧ denote (addOrdered n₁ n₂) = denote n₁ + denote n₂ ∧
      Canonical (addOrdered n₁ n₂) := by
  obtain ⟨l, hl⟩ : ∃ l, n₁.length = l + 1 := ⟨n₁.length - 1, by have := h₁.size; omega⟩
  have hpos : (0 : ℤ) < (wordMod : ℤ) ^ l := pow_pos (by decide) l
  have hpow : (wordMod : ℤ) ^ n₁.length = (wordMod : ℤ) ^ l * 2 ^ 64 := by
    rw [hl, pow_succ]
    rfl
  have hpow₂ : (wordMod : ℤ) ^ (n₂.length - 1) ≤ (wordMod : ℤ) ^ l :=
    pow_le_pow_right₀ (by decide) (by omega)
  obtain ⟨hw₁, hsz₁, hlo₁, hhi₁⟩ := id h₁
  obtain ⟨hw₂, hsz₂, hlo₂, hhi₂⟩ := id h₂
  rw [hl, Nat.add_sub_cancel] at hlo₁ hhi₁
  have hsum := denote_addLoop hw₁ hw₂ h₂.ne_nil hlen (by rw [hpow]; linarith)
    (by rw [hpow]; linarith)
  have hpadlt : signWord n₂ < wordMod := by
    rw [signWord]
    split_ifs <;> decide
  obtain ⟨hlr, hwr, -⟩ := addLoop_last h₁.ne_nil hlen hw₁ hw₂ hpadlt (Nat.zero_le 1)
  rw [addOrdered, pad_eq h₂]
  simp only [sign_neg h₁, sign_neg h₂, sign_nonneg h₁, sign_nonneg h₂]
  generalize addLoop (signWord n₂) 0 n₁ n₂ = result at hlr hwr hsum
  have hne : result ≠ [] := by
    rw [← List.length_pos_iff, hlr]
    omega
  have hneg := denote_neg_iff hwr
  rw [← hsum]
  split_ifs with hnn hpp
  · -- two negative numbers, and no sign word left
    have hs : signWord result = ones := if_pos (hneg.mp (by omega))
    obtain ⟨xs, hxs⟩ := exists_concat hne
    refine ⟨wellFormed_concat.mpr ⟨hwr, hne, .inr rfl⟩, by rw [← hs, denote_extend hne], ?_⟩
    rw [hxs]
    exact canonical_concat hnn.2.2
  · have hs : signWord result = 0 := if_neg (mt hneg.mpr (by omega))
    obtain ⟨xs, hxs⟩ := exists_concat hne
    refine ⟨wellFormed_concat.mpr ⟨hwr, hne, .inl rfl⟩, by rw [← hs, denote_extend hne], ?_⟩
    rw [hxs]
    exact canonical_concat hpp.2.2
  · -- the last word is a sign word
    have hs : last result = 0 ∨ last result = ones := by
      by_cases h1 : denote n₁ < 0 <;> by_cases h2 : denote n₂ < 0
      · right
        by_contra h3
        exact hnn ⟨h1, h2, h3⟩
      · have h3 := last_of_bounds hwr hne (by rw [hsum, hlr, hl, Nat.add_sub_cancel]; omega)
          (by rw [hsum, hlr, hl, Nat.add_sub_cancel]; omega)
        split_ifs at h3
        · exact .inr h3
        · exact .inl h3
      · have h3 := last_of_bounds hwr hne (by rw [hsum, hlr, hl, Nat.add_sub_cancel]; omega)
          (by rw [hsum, hlr, hl, Nat.add_sub_cancel]; omega)
        split_ifs at h3
        · exact .inr h3
        · exact .inl h3
      · left
        by_contra h3
        exact hpp ⟨by omega, by omega, h3⟩
    exact ⟨trim_wellFormed hwr (by omega) hs hs, trim_denote (by omega) rfl hs,
      trim_canonical (by omega) rfl⟩

lemma numAdd_spec (h₁ : Fits n₁) (h₂ : Fits n₂) : WellFormed (numAdd n₁ n₂) ∧
    denote (numAdd n₁ n₂) = denote n₁ + denote n₂ ∧ Canonical (numAdd n₁ n₂) := by
  rw [numAdd]
  split_ifs with h
  · rw [add_comm]
    exact addOrdered_spec h₂ h₁ h.le
  · exact addOrdered_spec h₁ h₂ (not_lt.mp h)

lemma numAdd_comm (h₁ : Fits n₁) (h₂ : Fits n₂) : numAdd n₁ n₂ = numAdd n₂ n₁ := by
  obtain ⟨h3, h4, h5⟩ := numAdd_spec h₁ h₂
  obtain ⟨h6, h7, h8⟩ := numAdd_spec h₂ h₁
  exact canonical_unique h3 h6 h5 h8 (by rw [h4, h7, add_comm])

lemma Fits.negate (h : WellFormed n) : Fits (numNegate n) := by
  obtain ⟨h1, h2⟩ := denote_bounds h
  refine ⟨words_numNegate, by rw [length_numNegate]; exact h.size, ?_, ?_⟩
  · rw [length_numNegate, denote_negate h]
    linarith
  · rw [length_numNegate, denote_negate h]
    linarith

/-- The sign word of a difference tells the order. -/
lemma last_difference (h₁ : WellFormed n₁) (h₂ : WellFormed n₂) :
    last (numAdd n₁ (numNegate n₂)) ≠ 0 ↔ denote n₁ < denote n₂ := by
  obtain ⟨h3, h4, -⟩ := numAdd_spec (.of_wellFormed h₁) (.negate h₂)
  rw [Ne, (denote_sign h3).2, h4, denote_negate h₂]
  omega

end LispMachine.NumAdd
