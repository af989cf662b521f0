import LispMachine.NumAdd

/-!
The product of two numbers.

`num_mul` adds a row for each bit of the second number: the first number, shifted. A row covers as
many words as the first number has, and the carry out of it is lost. With the sign words gone there
is room for all the rows, so that the sum of them is the product.
-/

namespace LispMachine.NumMul

open LispMachine.Memory LispMachine.Bignum LispMachine.BignumWf LispMachine.NumStr
open LispMachine.NumVal LispMachine.NumAdd

variable {n n₁ n₂ xs ys res : List ℕ} {carry i k nsh s x : ℕ}

/-! ### One row -/

/-- The bits that come in from the word below and those of the shifted word. -/
lemma shifted_eq {prev : ℕ} (hp : prev < wordMod) (hsh : nsh < 64) :
    ((if nsh ≠ 0 then prev >>> (64 - nsh) else 0) ||| wshl x nsh) =
      prev / 2 ^ (64 - nsh) + x * 2 ^ nsh % wordMod := by
  by_cases h0 : nsh = 0
  · subst h0
    rw [if_neg (by simp), wshl, Nat.shiftLeft_eq, Nat.zero_or, Nat.div_eq_of_lt (by exact hp),
      Nat.zero_add]
  · rw [if_pos h0, lor_eq hp hsh.le]

lemma mulRow_append {prev : ℕ} {lo hi : List ℕ} (hlen : lo.length = n.length) :
    mulRow nsh carry prev n (lo ++ hi) = mulRow nsh carry prev n lo ++ hi := by
  induction n generalizing lo carry prev with
  | nil =>
    obtain rfl := List.length_eq_zero_iff.mp hlen
    cases hi <;> rfl
  | cons x xs ih =>
    cases lo with
    | nil => simp at hlen
    | cons r rs =>
      rw [List.cons_append, mulRow, mulRow]
      dsimp only
      rw [ih (by simpa using hlen), List.cons_append]

/-- A row of the words it covers, up to the carry out. -/
lemma value_mulRow {prev : ℕ} {lo : List ℕ} (hn : Words n) (hr : Words lo) (hp : prev < wordMod)
    (hc : carry ≤ 1) (hsh : nsh < 64) (hlen : lo.length = n.length) :
    ∃ q, value (mulRow nsh carry prev n lo) + wordMod ^ n.length * q =
      value lo + value n * 2 ^ nsh + prev / 2 ^ (64 - nsh) + carry := by
  induction n generalizing lo carry prev with
  | nil =>
    obtain rfl := List.length_eq_zero_iff.mp hlen
    exact ⟨prev / 2 ^ (64 - nsh) + carry, by simp [mulRow]⟩
  | cons x xs ih =>
    cases lo with
    | nil => simp at hlen
    | cons r rs =>
      obtain ⟨hx, hxs⟩ := List.forall_mem_cons.mp hn
      obtain ⟨hr, hrs⟩ := List.forall_mem_cons.mp hr
      have hy := shifted_eq (x := x) hp hsh
      have hy' : (if nsh ≠ 0 then prev >>> (64 - nsh) else 0) ||| wshl x nsh < wordMod := by
        refine or_lt ?_ (wshl_lt _ _)
        split_ifs
        · exact shiftRight_lt hp
        · decide
      rw [hy] at hy'
      rw [mulRow, hy, addStep_eq hc hr hy']
      dsimp only
      obtain ⟨q, hq⟩ := ih hxs hrs hx (addStep_carry hc hr hy') (by simpa using hlen)
      refine ⟨q, ?_⟩
      rw [value_cons, value_cons, value_cons, List.length_cons, pow_succ]
      -- the bits that go over to the next word
      have hout := shl_split x hsh.le
      have hdiv := Nat.div_add_mod (r + (prev / 2 ^ (64 - nsh) + x * 2 ^ nsh % wordMod) + carry)
        wordMod
      generalize (r + (prev / 2 ^ (64 - nsh) + x * 2 ^ nsh % wordMod) + carry) / wordMod = c
        at hq hdiv
      generalize (r + (prev / 2 ^ (64 - nsh) + x * 2 ^ nsh % wordMod) + carry) % wordMod = w
        at hdiv
      generalize value (mulRow nsh c x xs rs) = a at hq
      calc w + wordMod * a + wordMod ^ xs.length * wordMod * q
          = w + wordMod * (a + wordMod ^ xs.length * q) := by ring
        _ = w + wordMod * c + wordMod * (x / 2 ^ (64 - nsh)) + wordMod * value rs +
            wordMod * value xs * 2 ^ nsh := by rw [hq]; ring
        _ = r + wordMod * value rs + (x + wordMod * value xs) * 2 ^ nsh +
            prev / 2 ^ (64 - nsh) + carry := by
          linarith

/-! ### All the rows -/

lemma words_take (h : Words n) (k : ℕ) : Words (n.take k) := fun w hw =>
  h w (List.mem_of_mem_take hw)

lemma words_drop (h : Words n) (k : ℕ) : Words (n.drop k) := fun w hw =>
  h w (List.mem_of_mem_drop hw)

/-- A row that begins at the word `i`. -/
lemma value_row (hn : Words n) (hr : Words res) (hsh : nsh < 64)
    (hlen : i + n.length ≤ res.length) :
    ∃ q, value (res.take i ++ mulRow nsh 0 0 n (res.drop i)) + wordMod ^ (i + n.length) * q =
      value res + wordMod ^ i * (value n * 2 ^ nsh) := by
  have hlo : ((res.drop i).take n.length).length = n.length :=
    List.length_take_of_le (by rw [List.length_drop]; omega)
  have hi : (res.take i).length = i := List.length_take_of_le (by omega)
  have hzero : 0 < wordMod := by decide
  obtain ⟨q, hq⟩ := value_mulRow hn (words_take (words_drop hr i) n.length) hzero (Nat.zero_le 1)
    hsh hlo
  refine ⟨q, ?_⟩
  have hl : (mulRow nsh 0 0 n ((res.drop i).take n.length)).length = n.length := by
    rw [(mulRow_spec nsh hn (words_take (words_drop hr i) n.length) (by decide : 0 < wordMod)
      (Nat.zero_le 1)).1, hlo]
  have hsplit : value res = value (res.take i) + wordMod ^ i *
      (value ((res.drop i).take n.length) +
        wordMod ^ n.length * value ((res.drop i).drop n.length)) := by
    conv_lhs => rw [← List.take_append_drop i res, value_append, hi,
      ← List.take_append_drop n.length (res.drop i), value_append, hlo]
  rw [Nat.zero_div, Nat.add_zero] at hq
  rw [← List.take_append_drop n.length (res.drop i), mulRow_append hlo, value_append, hi,
    value_append, hl, hsplit, pow_add]
  generalize value (mulRow nsh 0 0 n ((res.drop i).take n.length)) = a at hq
  generalize value ((res.drop i).take n.length) = b at hq
  calc value (res.take i) + wordMod ^ i *
        (a + wordMod ^ n.length * value ((res.drop i).drop n.length)) +
        wordMod ^ i * wordMod ^ n.length * q
      = value (res.take i) + wordMod ^ i * ((a + wordMod ^ n.length * q) +
        wordMod ^ n.length * value ((res.drop i).drop n.length)) := by ring
    _ = _ := by rw [hq]; ring

/-- The rows for the bits of one word. -/
lemma value_mulBits (hn : Words n) (hr : Words res) (hlen : i + n.length ≤ res.length)
    (hk : nsh + k = 64) (hx : x < 2 ^ k) :
    ∃ q, value (mulBits n i k nsh x res) + wordMod ^ (i + n.length) * q =
      value res + wordMod ^ i * (value n * (2 ^ nsh * x)) := by
  induction k generalizing nsh x res with
  | zero =>
    obtain rfl : x = 0 := by omega
    exact ⟨0, by simp [mulBits]⟩
  | succ k ih =>
    rw [mulBits]
    by_cases h0 : x ≠ 0
    swap
    · rw [if_neg h0, not_not.mp h0]
      exact ⟨0, by simp⟩
    rw [if_pos h0]
    have hhalf : x >>> 1 < 2 ^ k := by
      rw [Nat.shiftRight_eq_div_pow]
      omega
    by_cases h1 : x &&& 1 ≠ 0
    · dsimp only
      rw [if_pos h1]
      have hodd : x = 1 + 2 * (x >>> 1) := by
        rw [Nat.and_one_is_mod] at h1
        rw [Nat.shiftRight_eq_div_pow]
        omega
      obtain ⟨q₁, hq₁⟩ := value_row hn hr (by omega : nsh < 64) hlen
      obtain ⟨hl, hw, -⟩ := mulRow_spec nsh hn (words_drop hr i) (by decide : 0 < wordMod)
        (Nat.zero_le 1)
      have hlen' : i + n.length ≤ (res.take i ++ mulRow nsh 0 0 n (res.drop i)).length := by
        rw [List.length_append, hl, List.length_take, List.length_drop]
        omega
      obtain ⟨q₂, hq₂⟩ := ih ((words_take hr i).append hw) hlen'
        (by omega : nsh + 1 + k = 64) hhalf
      refine ⟨q₁ + q₂, ?_⟩
      generalize value (mulBits n i k (nsh + 1) (x >>> 1)
        (res.take i ++ mulRow nsh 0 0 n (res.drop i))) = a at hq₂
      generalize value (res.take i ++ mulRow nsh 0 0 n (res.drop i)) = b at hq₁ hq₂
      rw [hodd]
      generalize x >>> 1 = y at hq₂
      calc a + wordMod ^ (i + n.length) * (q₁ + q₂)
          = (a + wordMod ^ (i + n.length) * q₂) + wordMod ^ (i + n.length) * q₁ := by ring
        _ = (b + wordMod ^ (i + n.length) * q₁) + wordMod ^ i * (value n * (2 ^ (nsh + 1) * y)) :=
          by rw [hq₂]; ring
        _ = value res + wordMod ^ i * (value n * (2 ^ nsh * (1 + 2 * y))) := by
          rw [hq₁, pow_succ]
          ring
    · dsimp only
      rw [if_neg h1]
      have heven : x = 2 * (x >>> 1) := by
        rw [Nat.and_one_is_mod] at h1
        rw [Nat.shiftRight_eq_div_pow]
        omega
      obtain ⟨q, hq⟩ := ih hr hlen (by omega : nsh + 1 + k = 64) hhalf
      refine ⟨q, ?_⟩
      rw [hq]
      conv_rhs => rw [heven]
      rw [pow_succ]
      ring

/-- The words of the second number from the word `i` on: no carry out is below the first row. -/
lemma value_mulWords (hn : Words n) (hr : Words res) (hx : Words xs)
    (hlen : i + xs.length + n.length ≤ res.length + 1) :
    ∃ q, value (mulWords n i xs res) + wordMod ^ (i + n.length) * q =
      value res + wordMod ^ i * (value n * value xs) := by
  induction xs generalizing i res with
  | nil => exact ⟨0, by simp [mulWords]⟩
  | cons x xs ih =>
    obtain ⟨hx, hxs⟩ := List.forall_mem_cons.mp hx
    rw [List.length_cons] at hlen
    obtain ⟨q₁, hq₁⟩ := value_mulBits (i := i) hn hr (by omega) (by omega : 0 + 64 = 64) hx
    have hkeeps := mulBits_keeps 0 (k := 64) (x := x) hn hr (le_refl (i + n.length)) (i := i)
      (by omega)
    obtain ⟨q₂, hq₂⟩ := ih (i := i + 1) hkeeps.words hxs (by rw [hkeeps.length]; omega)
    refine ⟨q₁ + wordMod * q₂, ?_⟩
    rw [mulWords, value_cons]
    rw [pow_zero, Nat.one_mul] at hq₁
    rw [show i + 1 + n.length = i + n.length + 1 by omega, pow_succ, pow_succ] at hq₂
    generalize value (mulWords n (i + 1) xs (mulBits n i 64 0 x res)) = a at hq₂
    generalize value (mulBits n i 64 0 x res) = b at hq₁ hq₂
    calc a + wordMod ^ (i + n.length) * (q₁ + wordMod * q₂)
        = (a + wordMod ^ (i + n.length) * wordMod * q₂) + wordMod ^ (i + n.length) * q₁ := by ring
      _ = (b + wordMod ^ (i + n.length) * q₁) + wordMod ^ i * wordMod * (value n * value xs) := by
        rw [hq₂]
        ring
      _ = value res + wordMod ^ i * (value n * (x + wordMod * value xs)) := by
        rw [hq₁]
        ring

/-- With no more than the power of its last word in the first number, no carry goes out at all. -/
lemma value_mulWords_exact {p : ℕ} (hn : Words n) (hr : Words res) (hx : Words xs) (h0 : n ≠ [])
    (hfit : value n ≤ wordMod ^ (n.length - 1)) (hlen : i + xs.length + n.length ≤ res.length + 1)
    (hp : p < wordMod ^ i) (hv : value res = value n * p) :
    value (mulWords n i xs res) = value n * (p + wordMod ^ i * value xs) := by
  induction xs generalizing i res p with
  | nil => simpa [mulWords] using hv
  | cons x xs ih =>
    obtain ⟨hx, hxs⟩ := List.forall_mem_cons.mp hx
    rw [List.length_cons] at hlen
    obtain ⟨q, hq⟩ := value_mulBits (i := i) hn hr (by omega) (by omega : 0 + 64 = 64) hx
    have hkeeps := mulBits_keeps 0 (k := 64) (x := x) hn hr (le_refl (i + n.length)) (i := i)
      (by omega)
    have hp' : p + wordMod ^ i * x < wordMod ^ (i + 1) := by
      have h1 := Nat.mul_le_mul_left (wordMod ^ i) (by exact hx : x + 1 ≤ wordMod)
      rw [pow_succ]
      rw [Nat.mul_add, Nat.mul_one] at h1
      omega
    have hsum : value res + wordMod ^ i * (value n * (2 ^ 0 * x)) =
        value n * (p + wordMod ^ i * x) := by
      rw [hv]
      ring
    have hlt : value n * (p + wordMod ^ i * x) < wordMod ^ (i + n.length) := by
      have hn0 := List.length_pos_iff.mpr h0
      calc value n * (p + wordMod ^ i * x)
          ≤ wordMod ^ (n.length - 1) * (p + wordMod ^ i * x) := Nat.mul_le_mul_right _ hfit
        _ < wordMod ^ (n.length - 1) * wordMod ^ (i + 1) :=
          Nat.mul_lt_mul_of_pos_left hp' (pow_pos (by decide) _)
        _ = wordMod ^ (i + n.length) := by
          rw [← pow_add]
          congr 1
          omega
    have hq0 : q = 0 := by
      by_contra hne
      have := Nat.le_mul_of_pos_right (wordMod ^ (i + n.length)) (Nat.pos_of_ne_zero hne)
      omega
    rw [hq0, Nat.mul_zero, Nat.add_zero, hsum] at hq
    rw [mulWords, ih (i := i + 1) hkeeps.words hxs (by rw [hkeeps.length]; omega) hp' hq,
      value_cons, pow_succ]
    ring

/-! ### The absolute values -/

/-- A number without its sign, as `num_mul` takes it. -/
def magnitude (n : List ℕ) : List ℕ := if last n ≠ 0 then numNegate n else n

lemma words_magnitude (h : Words n) : Words (magnitude n) := (negated_spec h _).1

lemma length_magnitude (h : Words n) : (magnitude n).length = n.length := (negated_spec h _).2

lemma value_magnitude (h : WellFormed n) : value (magnitude n) = (denote n).natAbs := by
  obtain ⟨xs, s, rfl, hw, -, hs⟩ := exists_sign h
  rw [magnitude, last_concat]
  rcases hs with rfl | rfl
  · rw [if_neg (by simp), denote_pos, Int.natAbs_natCast, value_concat, Nat.mul_zero, Nat.add_zero]
  · have hall : ¬ ∀ w ∈ xs ++ [ones], w = 0 := fun hall => absurd (hall ones (by simp)) (by decide)
    have hsum := value_numNegate h.words hall
    have hlt : (value (xs ++ [ones]) : ℤ) < (wordMod : ℤ) ^ (xs ++ [ones]).length := by
      exact_mod_cast value_lt h.words
    rw [if_pos (by decide), denote, last_concat, if_pos (by decide)]
    zify at hsum ⊢
    rw [abs_of_neg (by omega)]
    omega

lemma lowest_iff (h : WellFormed n) :
    Lowest n ↔ denote n = -(wordMod : ℤ) ^ (n.length - 1) := by
  obtain ⟨xs, s, rfl, hw, h0, hs⟩ := exists_sign h
  have hpos : (0 : ℤ) < (wordMod : ℤ) ^ xs.length := pow_pos (by decide) _
  rw [Lowest, last_concat, List.dropLast_concat, ← value_eq_zero, List.length_append,
    List.length_singleton, Nat.add_sub_cancel]
  rcases hs with rfl | rfl
  · rw [denote_pos]
    exact iff_of_false (fun h => absurd h.1 (by decide)) (by omega)
  · rw [denote_neg]
    omega

lemma value_take (h : Words n) (k : ℕ) : value (n.take k) = value n % wordMod ^ k :=
  (Nat.ofDigits_mod_pow_eq_ofDigits_take k (by decide) n h).symm

/-- The words below the last one of an absolute value: all of it, but for the lowest number. -/
lemma value_magnitude_take (h : WellFormed n) :
    value ((magnitude n).take (n.length - 1)) = if Lowest n then 0 else (denote n).natAbs := by
  obtain ⟨h1, h2⟩ := denote_bounds h
  have hcast : ((wordMod ^ (n.length - 1) : ℕ) : ℤ) = (wordMod : ℤ) ^ (n.length - 1) := by
    push_cast
    rfl
  rw [value_take (words_magnitude h.words), value_magnitude h]
  simp only [lowest_iff h]
  split_ifs with hl
  · rw [hl, Int.natAbs_neg, ← hcast, Int.natAbs_natCast, Nat.mod_self]
  · refine Nat.mod_eq_of_lt ?_
    zify
    exact abs_lt.mpr ⟨lt_of_le_of_ne h1 (Ne.symm hl), h2⟩

/-! ### The product -/

/-- The rows of the absolute values, before the sign is put back. -/
def product (m₁ m₂ : List ℕ) : List ℕ :=
  mulWords m₁ 0 (m₂.take (m₂.length - 1)) (List.replicate (m₁.length + m₂.length - 1) 0)

lemma words_zeroes (k : ℕ) : Words (List.replicate k 0) := fun w hw => by
  rw [List.eq_of_mem_replicate hw]
  decide

/-- The rows leave the last word alone. -/
lemma product_wellFormed (h₁ : Words n₁) (hl₁ : 2 ≤ n₁.length) (hl₂ : 2 ≤ n₂.length) :
    WellFormed (product n₁ n₂) ∧ last (product n₁ n₂) = 0 ∧
      (product n₁ n₂).length = n₁.length + n₂.length - 1 := by
  have hlen₂ : (n₂.take (n₂.length - 1)).length = n₂.length - 1 :=
    List.length_take_of_le (by omega)
  have hkeeps := mulWords_keeps (i := 0) (j := n₁.length + n₂.length - 2)
    (n₂.take (n₂.length - 1)) h₁ (words_zeroes (n₁.length + n₂.length - 1))
    (by rw [hlen₂]; omega) (by rw [hlen₂, List.length_replicate]; omega)
  rw [product]
  generalize mulWords n₁ 0 (n₂.take (n₂.length - 1)) _ = res at hkeeps
  have hlen := hkeeps.length
  rw [List.length_replicate] at hlen
  have hlast : last res = 0 := by
    rw [last, hlen, show n₁.length + n₂.length - 1 - 1 = n₁.length + n₂.length - 2 by omega,
      hkeeps.high _ le_rfl, List.getD_replicate _ (by omega)]
  exact ⟨⟨hkeeps.words, by omega, .inl hlast⟩, hlast, hlen⟩

lemma value_product (h₁ : WellFormed n₁) (h₂ : WellFormed n₂) :
    value (product (magnitude n₁) (magnitude n₂)) =
      (denote n₁).natAbs * if Lowest n₂ then 0 else (denote n₂).natAbs := by
  obtain ⟨h1, h2⟩ := denote_bounds h₁
  have hsz₁ := h₁.size
  have hsz₂ := h₂.size
  have hfit : value (magnitude n₁) ≤ wordMod ^ ((magnitude n₁).length - 1) := by
    rw [length_magnitude h₁.words, value_magnitude h₁]
    zify
    exact abs_le.mpr ⟨h1, h2.le⟩
  have h0 : magnitude n₁ ≠ [] := by
    rw [← List.length_pos_iff, length_magnitude h₁.words]
    omega
  rw [product, length_magnitude h₂.words, value_mulWords_exact (p := 0)
    (words_magnitude h₁.words) (words_zeroes _) (words_take (words_magnitude h₂.words) _) h0 hfit
    ?_ (by decide) ?_]
  · rw [value_magnitude h₁, value_magnitude_take h₂, pow_zero, Nat.one_mul, Nat.zero_add]
  · rw [List.length_take, List.length_replicate, length_magnitude h₁.words,
      length_magnitude h₂.words]
    omega
  · rw [Nat.mul_zero, value_eq_zero]
    exact fun w hw => List.eq_of_mem_replicate hw

/-- Where the word below the last one is no sign word, nothing is taken off. -/
lemma trim_self (hn : n ≠ []) (hp : n.getD (n.length - 2) 0 ≠ s) : trim (· = s) n = n := by
  rw [trim]
  obtain ⟨k, hk⟩ : ∃ k, n.length = k + 1 :=
    ⟨n.length - 1, by have := List.length_pos_iff.mpr hn; omega⟩
  have hloop : trimLoop (· = s) (fun i => n.getD i 0) k = k := by
    obtain _ | _ | k := k
    · rfl
    · rfl
    · rw [trimLoop, if_neg]
      rw [hk] at hp
      simpa using hp
  rw [hk, Nat.add_sub_cancel, hloop, ← hk, List.take_length]

lemma mulOrdered_eq (h₁ : Words n₁) (h₂ : Words n₂) : mulOrdered false n₁ n₂ =
    if n₁.length = 2 ∧ n₁.getD 0 0 = 0 then [0, 0]
    else trim (· = last n₁ ^^^ last n₂) (if last n₁ ^^^ last n₂ ≠ 0
      then numNegate (product (magnitude n₁) (magnitude n₂))
      else product (magnitude n₁) (magnitude n₂)) := by
  rw [mulOrdered, product, length_magnitude h₁, length_magnitude h₂]
  simp only [or_self, Bool.false_eq_true, if_false]
  rfl

/-- The sign is put back. -/
lemma denote_signed {t : ℕ} (h : WellFormed n) (hl : last n = 0) (hs : s = 0 ∨ s = ones)
    (ht : t = 0 ∨ t = ones) :
    denote (trim (· = s ^^^ t) (if s ^^^ t ≠ 0 then numNegate n else n)) =
      (if s ^^^ t ≠ 0 then -1 else 1) * value n := by
  have hsz := h.size
  have hpos : denote n = value n := by
    rw [denote, if_neg (by rw [hl]; decide), sub_zero]
  split_ifs with hx
  · have hneg : s ^^^ t = ones := (sign_xor hs ht).resolve_left hx
    rw [hneg]
    have hden := denote_negate h
    have hwf : WellFormed (numNegate n) := (numNegate_wellFormed h).mpr fun hlow => by
      rw [Lowest, hl] at hlow
      exact absurd hlow.1 (by decide)
    rw [neg_one_mul, ← hpos, ← hden]
    rcases hwf.sign with hlast | hlast
    · -- the product is zero
      have h0 : value n = 0 := by
        have h1 := (denote_sign hwf).2.mp hlast
        rw [hden, hpos] at h1
        omega
      have hall : value (numNegate n) = 0 :=
        value_numNegate_zero h.words (value_eq_zero.mp h0)
      rw [trim_self (words_ne_nil hwf)]
      rw [List.getD_eq_getElem _ _ (by rw [length_numNegate]; omega)]
      rw [value_eq_zero.mp hall _ (List.getElem_mem _)]
      decide
    · exact trim_denote hwf.size hlast (.inr rfl)
  · have hz : s ^^^ t = 0 := not_not.mp hx
    rw [hz, one_mul, ← hpos]
    exact trim_denote hsz hl (.inl rfl)

/-- **The product** of two objects, the shorter number first. -/
lemma denote_mulOrdered (h₁ : WellFormed n₁) (h₂ : WellFormed n₂) :
    denote (mulOrdered false n₁ n₂) =
      if n₁.length = 2 ∧ n₁.getD 0 0 = 0 then 0
      else denote n₁ * if Lowest n₂ then 0 else denote n₂ := by
  have hsz₁ := h₁.size
  have hsz₂ := h₂.size
  rw [mulOrdered_eq h₁.words h₂.words]
  by_cases h0 : n₁.length = 2 ∧ n₁.getD 0 0 = 0
  · rw [if_pos h0, if_pos h0]
    rfl
  rw [if_neg h0, if_neg h0]
  have hlen₁ : 2 ≤ (magnitude n₁).length := by
    rw [length_magnitude h₁.words]
    exact h₁.size
  have hlen₂ : 2 ≤ (magnitude n₂).length := by
    rw [length_magnitude h₂.words]
    exact h₂.size
  obtain ⟨hwf, hlast, -⟩ := product_wellFormed (words_magnitude h₁.words) hlen₁ hlen₂
  have hv := value_product h₁ h₂
  rw [denote_signed hwf hlast h₁.sign h₂.sign, hv]
  by_cases hlow : Lowest n₂
  · rw [if_pos hlow, if_pos hlow]
    simp
  rw [if_neg hlow, if_neg hlow]
  obtain ⟨h1, h2⟩ := denote_sign h₁
  obtain ⟨h3, h4⟩ := denote_sign h₂
  push_cast
  rcases h₁.sign with hs | hs <;> rcases h₂.sign with ht | ht <;> rw [hs, ht]
  · rw [if_neg (by decide), abs_of_nonneg (h2.mp hs), abs_of_nonneg (h4.mp ht)]
    ring
  · rw [if_pos (by decide), abs_of_nonneg (h2.mp hs), abs_of_neg (h3.mp ht)]
    ring
  · rw [if_pos (by decide), abs_of_neg (h1.mp hs), abs_of_nonneg (h4.mp ht)]
    ring
  · rw [if_neg (by decide), abs_of_neg (h1.mp hs), abs_of_neg (h3.mp ht)]
    ring

/-- Neither the zero test nor the lost sign word is in the way of the product. -/
def Multiplies (n₁ n₂ : List ℕ) : Prop :=
  denote n₁ = 0 ∨ denote n₂ = 0 ∨ n₁ ≠ [0, ones] ∧ ¬ Lowest n₂

lemma denote_eq_zero (h : WellFormed n) (h0 : n.length = 2 ∧ n.getD 0 0 = 0) :
    denote n = 0 ↔ n ≠ [0, ones] := by
  obtain ⟨x, s, rfl⟩ := List.length_eq_two.mp h0.1
  obtain rfl : x = 0 := h0.2
  rcases h.sign with hs | hs <;> obtain rfl : s = _ := hs <;> decide

lemma mulOrdered_right_iff (h₁ : WellFormed n₁) (h₂ : WellFormed n₂) :
    denote (mulOrdered false n₁ n₂) = denote n₁ * denote n₂ ↔ Multiplies n₁ n₂ := by
  rw [denote_mulOrdered h₁ h₂, Multiplies]
  split_ifs with h0 hlow
  · have := denote_eq_zero h₁ h0
    rw [eq_comm, Int.mul_eq_zero]
    by_cases hd : denote n₁ = 0
    · simp [hd]
    · have h3 : n₁ = [0, ones] := by
        by_contra h3
        exact hd (this.mpr h3)
      simp [h3]
  · rw [mul_zero, eq_comm, Int.mul_eq_zero]
    simp [hlow]
  · refine iff_of_true rfl (.inr (.inr ⟨?_, hlow⟩))
    rintro rfl
    exact h0 ⟨rfl, rfl⟩

/-! ### One object as both operands -/

/-- Negated twice, a negative number stays what it is. -/
lemma mulOrdered_same (h : Words n) : mulOrdered true n n =
    if n.length = 2 ∧ n.getD 0 0 = 0 then [0, 0] else trim (· = 0) (product n n) := by
  have hm : (if last n ≠ 0 then numNegate (if last n ≠ 0 then numNegate n else n)
      else if last n ≠ 0 then numNegate n else n) = n := by
    split_ifs
    · exact numNegate_numNegate h
    · rfl
  rw [mulOrdered, product]
  simp only [or_self, if_true, hm, Nat.xor_self, ne_eq, not_true_eq_false, if_false]

lemma mulOrdered_copy (h : Words n) : mulOrdered false n n =
    if n.length = 2 ∧ n.getD 0 0 = 0 then [0, 0]
    else trim (· = 0) (product (magnitude n) (magnitude n)) := by
  rw [mulOrdered_eq h h, Nat.xor_self, if_neg (not_not.mpr rfl)]

lemma mulWords_zeroes (xs res : List ℕ) (k i : ℕ) :
    mulWords n i (List.replicate k 0 ++ xs) res = mulWords n (i + k) xs res := by
  induction k generalizing i with
  | zero => rfl
  | succ k ih =>
    rw [List.replicate_succ, List.cons_append, mulWords,
      show mulBits n i 64 0 0 res = res by simp [mulBits], ih, Nat.add_right_comm, Nat.add_assoc]

/-- The first word that is not zero. -/
lemma exists_low (h : value xs ≠ 0) : ∃ k y ys, xs = List.replicate k 0 ++ y :: ys ∧ y ≠ 0 := by
  induction xs with
  | nil => exact absurd rfl h
  | cons x xs ih =>
    by_cases hx : x = 0
    · subst hx
      obtain ⟨k, y, ys, rfl, hy⟩ := ih (by
        intro h0
        rw [value_cons, h0] at h
        exact h rfl)
      exact ⟨k + 1, y, ys, rfl, hy⟩
    · exact ⟨0, x, xs, rfl, hx⟩

/-- The words of a negative number multiplied as they are: the carries that get lost do not make up
for the sign. -/
lemma product_neg (hw : Words xs) (h0 : value xs ≠ 0) :
    value (product (xs ++ [ones]) (xs ++ [ones])) ≠
      (denote (xs ++ [ones])).natAbs * (denote (xs ++ [ones])).natAbs := by
  obtain ⟨k, y, ys, hxs, hy⟩ := exists_low h0
  have hys : Words (y :: ys) := fun w h => hw w (by rw [hxs]; simp [h])
  have hylt : y < wordMod := hys y (by simp)
  have hlen : xs.length = k + (ys.length + 1) := by
    rw [hxs, List.length_append, List.length_replicate, List.length_cons]
  have hwn : Words (xs ++ [ones]) := hw.append (by decide)
  have hlen' : (xs ++ [ones]).length = xs.length + 1 := by simp
  have hval : value xs = wordMod ^ k * value (y :: ys) := by
    rw [hxs, value_append, List.length_replicate, value_eq_zero.mpr fun w h =>
      List.eq_of_mem_replicate h, Nat.zero_add]
  -- the rows begin at the first word that is not zero
  have htake : (xs ++ [ones]).take ((xs ++ [ones]).length - 1) =
      List.replicate k 0 ++ y :: ys := by
    rw [← hxs, hlen', Nat.add_sub_cancel, List.take_left]
  obtain ⟨q, hq⟩ := value_mulWords (i := k) hwn
    (words_zeroes ((xs ++ [ones]).length + (xs ++ [ones]).length - 1)) hys
    (by rw [List.length_replicate, List.length_cons]; omega)
  rw [product, htake, mulWords_zeroes, Nat.zero_add]
  intro heq
  rw [heq, value_eq_zero.mpr fun w h => List.eq_of_mem_replicate h, Nat.zero_add, value_concat,
    hval, hlen', hlen] at hq
  have hcast : (((denote (xs ++ [ones])).natAbs * (denote (xs ++ [ones])).natAbs : ℕ) : ℤ) =
      ((wordMod : ℤ) ^ k * (value (y :: ys) - (wordMod : ℤ) ^ (ys.length + 1))) ^ 2 := by
    rw [Int.natAbs_mul_self, denote_neg, hval, hlen]
    push_cast
    ring
  have hones : ((ones : ℕ) : ℤ) = wordMod - 1 := by decide
  zify at hq hcast
  rw [hcast, hones] at hq
  have ha : ((wordMod : ℤ) ^ k) ^ 2 * (wordMod : ℤ) ^ (ys.length + 1) ≠ 0 := by
    have : (wordMod : ℤ) ≠ 0 := by decide
    positivity
  -- so the base divides the first word
  have hdvd : (value (y :: ys) : ℤ) =
      wordMod * ((wordMod : ℤ) ^ ys.length + q - value (y :: ys)) := by
    apply mul_left_cancel₀ ha
    generalize (value (y :: ys) : ℤ) = t at hq
    simp only [pow_succ, pow_add] at hq ⊢
    linarith
  rw [value_cons] at hdvd
  push_cast at hdvd
  have hy' : (wordMod : ℤ) ∣ y := ⟨(wordMod : ℤ) ^ ys.length + q - (y + wordMod * value ys) -
    value ys, by linarith⟩
  have := Int.le_of_dvd (by omega) hy'
  omega

/-- The square of one object is that of two equal ones. -/
lemma mulOrdered_same_iff (h : WellFormed n) :
    mulOrdered true n n = mulOrdered false n n ↔ 0 ≤ denote n ∨ Lowest n := by
  rw [mulOrdered_same h.words, mulOrdered_copy h.words]
  have hsz := h.size
  obtain ⟨hwf, hlast, hl⟩ := product_wellFormed h.words hsz hsz
  have hwm := words_magnitude h.words
  have hlm := length_magnitude h.words
  obtain ⟨hwf', hlast', hl'⟩ := product_wellFormed hwm (hlm ▸ hsz) (hlm ▸ hsz)
  have hv := value_product h h
  by_cases hpos : 0 ≤ denote n
  · rw [magnitude, if_neg (not_not.mpr ((denote_sign h).2.mpr hpos))]
    exact iff_of_true rfl (.inl hpos)
  by_cases hlow : Lowest n
  · refine iff_of_true ?_ (.inr hlow)
    -- nothing but the last word is not zero
    have hzero : value (n.take (n.length - 1)) = 0 := by
      rw [← List.dropLast_eq_take, value_eq_zero]
      exact hlow.2
    obtain ⟨q, hq⟩ := value_mulWords (i := 0) h.words
      (words_zeroes (n.length + n.length - 1)) (words_take h.words (n.length - 1))
      (by rw [List.length_replicate, List.length_take]; omega)
    rw [hzero, value_eq_zero.mpr fun w h => List.eq_of_mem_replicate h] at hq
    rw [if_pos hlow] at hv
    have hprod : value (product n n) = 0 := by
      rw [product]
      simp only [Nat.mul_zero, Nat.add_zero] at hq
      exact (Nat.add_eq_zero_iff.mp hq).1
    rw [value_inj hwf.words hwf'.words (by rw [hl, hl', hlm]) (by rw [hprod, hv, Nat.mul_zero])]
  · refine iff_of_false (fun heq => ?_) (not_or.mpr ⟨hpos, hlow⟩)
    obtain ⟨xs, s, rfl, hw, h0, hs⟩ := exists_sign h
    have hneg : denote (xs ++ [s]) < 0 := by omega
    obtain rfl : s = ones := by
      rw [← (denote_sign h).1, last_concat] at hneg
      exact hneg
    have hx : value xs ≠ 0 := fun hx => hlow ⟨last_concat _ _, by
      rw [List.dropLast_concat]
      exact value_eq_zero.mp hx⟩
    rw [if_neg hlow] at hv
    by_cases h2 : (xs ++ [ones]).length = 2 ∧ (xs ++ [ones]).getD 0 0 = 0
    · obtain ⟨x, hx'⟩ := List.length_eq_one_iff.mp (by simpa using h2.1 : xs.length = 1)
      rw [hx'] at h2 hx
      obtain rfl : x = 0 := h2.2
      exact hx rfl
    rw [if_neg h2, if_neg h2] at heq
    have hd := congrArg denote heq
    rw [trim_denote hwf.size hlast (.inl rfl), trim_denote hwf'.size hlast' (.inl rfl), denote,
      denote, hlast, hlast', if_neg (by decide), sub_zero, if_neg (by decide), sub_zero, hv] at hd
    exact product_neg hw hx (by exact_mod_cast hd)

end LispMachine.NumMul
