import LispMachine.BignumWf
import LispMachine.Lib.Digits

/-!
Numbers as strings.

A number is printed as a sign and the hex digits of its words but the last one, and is read back
from the lowest word on. The lowest number of its size has no positive counterpart, so it is printed
as a negative zero.
-/

namespace LispMachine.NumStr

open LispMachine.Memory LispMachine.Bignum LispMachine.BignumWf LispMachine.Lib.Digits

variable {n ws ds : List ℕ} {s w x : ℕ}

/-! ### The integers -/

/-- The number that the words stand for without a sign. -/
def value (ws : List ℕ) : ℕ := Nat.ofDigits wordMod ws

/-- The integer that a number denotes, in two's complement. -/
def denote (n : List ℕ) : ℤ :=
  (value n : ℤ) - if 2 ^ 63 ≤ last n then (wordMod : ℤ) ^ n.length else 0

@[simp] lemma value_nil : value [] = 0 := rfl

lemma value_cons : value (x :: ws) = x + wordMod * value ws := Nat.ofDigits_cons ..

lemma value_concat : value (ws ++ [s]) = value ws + wordMod ^ ws.length * s := by
  rw [value, Nat.ofDigits_append, Nat.ofDigits_singleton]
  rfl

lemma value_lt (h : Words ws) : value ws < wordMod ^ ws.length :=
  Nat.ofDigits_lt_base_pow_length (by decide) h

lemma value_eq_zero : value ws = 0 ↔ ∀ w ∈ ws, w = 0 := by
  induction ws with
  | nil => simp
  | cons x ws ih =>
    have hpos : wordMod ≠ 0 := by decide
    rw [value_cons, List.forall_mem_cons, ← ih, Nat.add_eq_zero_iff, Nat.mul_eq_zero]
    simp [hpos]

lemma denote_concat : denote (ws ++ [s]) =
    value ws + (wordMod : ℤ) ^ ws.length * (s - if 2 ^ 63 ≤ s then (wordMod : ℤ) else 0) := by
  rw [denote, last_concat, value_concat, List.length_append, List.length_singleton]
  push_cast
  split_ifs <;> ring

/-! ### Negation -/

/-- A number and its negation add up to a power of the base, if there is no carry out. -/
lemma value_negateLoop {carry : ℕ} (h : Words ws) (hc : carry ≤ 1) :
    value (negateLoop carry ws) + value ws + 1 +
        wordMod ^ ws.length * (if ∀ w ∈ ws, w = 0 then carry else 0) =
      wordMod ^ ws.length + carry := by
  induction ws generalizing carry with
  | nil => simp [negateLoop]
  | cons x ws ih =>
    obtain ⟨hx, hws⟩ := List.forall_mem_cons.mp h
    have h1 := ih hws (carry_le x hc)
    have hdiv : (wnot x + carry) / wordMod = if x = 0 then carry else 0 := by
      unfold wnot wordMod at *
      split_ifs <;> omega
    have hsum : (wnot x + carry) % wordMod + x + 1 + wordMod * ((wnot x + carry) / wordMod) =
        wordMod + carry := by
      unfold wnot wordMod at *
      omega
    have hcarry : (if ∀ y ∈ x :: ws, y = 0 then carry else 0) =
        if ∀ y ∈ ws, y = 0 then (wnot x + carry) / wordMod else 0 := by
      simp only [List.forall_mem_cons, hdiv]
      by_cases h0 : x = 0 <;> by_cases hall : ∀ y ∈ ws, y = 0 <;> simp [h0, hall]
    rw [negateLoop_cons hc, value_cons, value_cons, List.length_cons, hcarry, pow_succ]
    generalize (if ∀ y ∈ ws, y = 0 then (wnot x + carry) / wordMod else 0) = out at h1
    generalize (wnot x + carry) / wordMod = q at h1 hsum
    generalize (wnot x + carry) % wordMod = r at hsum
    nlinarith

lemma value_numNegate (h : Words ws) (h0 : ¬ ∀ w ∈ ws, w = 0) :
    value (numNegate ws) + value ws = wordMod ^ ws.length := by
  have := value_negateLoop h le_rfl
  rw [if_neg h0] at this
  rw [numNegate]
  omega

lemma value_numNegate_zero (h : Words ws) (h0 : ∀ w ∈ ws, w = 0) : value (numNegate ws) = 0 := by
  have := value_negateLoop h le_rfl
  rw [if_pos h0, value_eq_zero.mpr h0] at this
  rw [numNegate]
  omega

/-- Negating twice changes nothing. -/
lemma negateLoop_negateLoop {carry : ℕ} (h : Words n) (hc : carry ≤ 1) :
    negateLoop carry (negateLoop carry n) = n := by
  induction n generalizing carry with
  | nil => rfl
  | cons x xs ih =>
    obtain ⟨hx, hxs⟩ := List.forall_mem_cons.mp h
    have h1 : (wnot ((wnot x + carry) % wordMod) + carry) % wordMod = x ∧
        (wnot ((wnot x + carry) % wordMod) + carry) / wordMod = (wnot x + carry) / wordMod := by
      unfold wnot wordMod at *
      omega
    rw [negateLoop_cons hc, negateLoop_cons hc, h1.1, h1.2, ih hxs (carry_le x hc)]

lemma numNegate_numNegate (h : Words n) : numNegate (numNegate n) = n :=
  negateLoop_negateLoop h le_rfl

/-- The negation of a number that is not negative. -/
lemma denote_numNegate (h : Words ws) :
    denote (numNegate (ws ++ [0])) = -(value ws : ℤ) := by
  rw [numNegate, negateLoop_concat h le_rfl, denote_concat, length_negateLoop]
  by_cases h0 : ∀ w ∈ ws, w = 0
  · rw [if_pos h0, show negateLoop 1 ws = numNegate ws from rfl, value_numNegate_zero h h0,
      value_eq_zero.mpr h0, show (wnot 0 + 1) % wordMod = 0 by decide]
    norm_num
  · have hv := value_numNegate h h0
    rw [if_neg h0, show negateLoop 1 ws = numNegate ws from rfl,
      show (wnot 0 + 0) % wordMod = wordMod - 1 by decide, if_pos (by decide)]
    have hB : ((wordMod - 1 : ℕ) : ℤ) - wordMod = -1 := by decide
    rw [hB]
    zify at hv
    linarith

/-! ### Printing -/

/-- The characters of a numeral. -/
def text (ds : List ℕ) : List ℕ := ds.map digitChar

lemma text_append (xs ys : List ℕ) : text (xs ++ ys) = text xs ++ text ys := List.map_append

/-- The hex digits of a word. -/
def wordDigits (w : ℕ) : List ℕ := if w = 0 then [0] else (Nat.digits 16 w).reverse

lemma uintnLoop_eq {k : ℕ} (h : w < 16 ^ k) :
    uintnLoop 16 k w = some ((Nat.digits 16 w).map digitChar) := by
  induction k generalizing w with
  | zero =>
    obtain rfl : w = 0 := by simpa using h
    rw [uintnLoop, if_pos rfl]
    rfl
  | succ k ih =>
    rw [uintnLoop]
    split_ifs with h0
    · rw [h0]
      rfl
    · rw [pow_succ] at h
      rw [ih (by omega), Nat.digits_def' (by decide) (Nat.pos_of_ne_zero h0)]
      rfl

lemma uintnToStr_eq (h : w < wordMod) : uintnToStr 17 w 16 = some (text (wordDigits w)) := by
  rw [uintnToStr, if_neg (by decide), wordDigits]
  split_ifs
  · rfl
  · rw [uintnLoop_eq (k := 17 - 1) h, Option.map_some, text, List.map_reverse]

/-- The digits of a word: there are at most 16, and they stand for it. -/
lemma wordDigits_spec (h : w < wordMod) : wordDigits w ≠ [] ∧ (wordDigits w).length ≤ 16 ∧
    (∀ d ∈ wordDigits w, d < 16) ∧ numeral 16 (wordDigits w) = w := by
  rw [wordDigits]
  split_ifs with h0
  · rw [h0]
    decide
  · refine ⟨by simpa [Nat.digits_eq_nil_iff_eq_zero] using h0, ?_, fun d hd => ?_, numeral_digits w⟩
    · rw [List.length_reverse, Nat.digits_length_le_iff (by decide)]
      exact h
    · exact Nat.digits_lt_base (by decide) (List.mem_reverse.mp hd)

/-- The padded words are a numeral for all of them. -/
lemma paddedLoop_spec {k : ℕ} (h : Words n) (hk : k ≤ n.length) : ∃ ds,
    paddedLoop n k = some (text ds) ∧ ds.length = 16 * k ∧ (∀ d ∈ ds, d < 16) ∧
      numeral 16 ds = value (n.take k) := by
  induction k with
  | zero => exact ⟨[], rfl, rfl, by simp, rfl⟩
  | succ k ih =>
    obtain ⟨ds, h1, h2, h3, h4⟩ := ih (by omega)
    have hw := h.getD k
    obtain ⟨-, h5, h6, h7⟩ := wordDigits_spec hw
    have hlen : (text (wordDigits (n.getD k 0))).length = (wordDigits (n.getD k 0)).length :=
      List.length_map _
    refine ⟨List.replicate (16 - (wordDigits (n.getD k 0)).length) 0 ++ wordDigits (n.getD k 0) ++
      ds, ?_, ?_, ?_, ?_⟩
    · rw [paddedLoop, uintnToStr_eq hw, Option.bind_some, h1, Option.map_some, text_append,
        text_append, hlen]
      congr 3
      rw [text, List.map_replicate]
      rfl
    · rw [List.length_append, List.length_append, List.length_replicate, h2]
      omega
    · simp only [List.mem_append, List.mem_replicate]
      rintro d ((⟨-, rfl⟩ | hd) | hd)
      · decide
      · exact h6 d hd
      · exact h3 d hd
    · have htake : n.take (k + 1) = n.take k ++ [n.getD k 0] := by
        rw [List.take_succ_eq_append_getElem (by omega), List.getD_eq_getElem _ _ (by omega)]
      rw [numeral_append, numeral_append, numeral_zeroes, h7, h4, h2, htake, value_concat,
        List.length_take_of_le (by omega), pow_mul]
      rw [show (16 : ℕ) ^ 16 = wordMod by decide]
      ring

/-- What is printed is a numeral for the words below the last one. -/
lemma print_spec (h : Words n) (hn : 2 ≤ n.length) : ∃ buf str ds,
    uintnToStr 17 (n.getD (n.length - 2) 0) 16 = some buf ∧
      paddedLoop n (n.length - 2) = some str ∧ buf ++ str = text ds ∧ ds ≠ [] ∧
        (∀ d ∈ ds, d < 16) ∧ numeral 16 ds = value n.dropLast := by
  have hw := h.getD (n.length - 2)
  obtain ⟨h1, -, h2, h3⟩ := wordDigits_spec hw
  obtain ⟨ds, h4, h5, h6, h7⟩ := paddedLoop_spec (k := n.length - 2) h (by omega)
  refine ⟨_, _, wordDigits (n.getD (n.length - 2) 0) ++ ds, uintnToStr_eq hw, h4,
    (text_append _ _).symm, List.append_ne_nil_of_left_ne_nil h1 _, List.forall_mem_append.mpr ⟨h2, h6⟩, ?_⟩
  have hsplit : n.dropLast = n.take (n.length - 2) ++ [n.getD (n.length - 2) 0] := by
    rw [List.dropLast_eq_take, List.getD_eq_getElem _ _ (by omega),
      show n.length - 1 = n.length - 2 + 1 by omega, List.take_succ_eq_append_getElem (by omega)]
  rw [numeral_append, h3, h5, h7, hsplit, value_concat, List.length_take_of_le (by omega), pow_mul]
  rw [show (16 : ℕ) ^ 16 = wordMod by decide]
  ring

/-! ### Reading -/

/-- The characters are hex digits with the values `ds`. -/
def Spells (cs ds : List ℕ) : Prop := cs.map digitOf = ds.map some

namespace Spells

variable {cs : List ℕ}

lemma length (h : Spells cs ds) : cs.length = ds.length := by
  simpa using congrArg List.length h

lemma take (h : Spells cs ds) (k : ℕ) : Spells (cs.take k) (ds.take k) := by
  rw [Spells, List.map_take, h, List.map_take]

lemma drop (h : Spells cs ds) (k : ℕ) : Spells (cs.drop k) (ds.drop k) := by
  rw [Spells, List.map_drop, h, List.map_drop]

end Spells

lemma digitOf_lt {c d : ℕ} (h : digitOf c = some d) : d < 16 := by
  unfold digitOf at h
  split_ifs at h <;> · obtain rfl := Option.some.inj h; omega

lemma digitOf_digitChar {d : ℕ} (h : d < 16) : digitOf (digitChar d) = some d := by
  have hall : ∀ d < 16, digitOf (digitChar d) = some d := by decide
  exact hall d h

lemma spells_text (hd : ∀ d ∈ ds, d < 16) : Spells (text ds) ds := by
  rw [Spells, text, List.map_map]
  exact List.map_congr_left fun d h => digitOf_digitChar (hd d h)

lemma wshl_four {d : ℕ} (hx : 16 * x < wordMod) (hd : d < 16) : wshl x 4 ||| d = 16 * x + d := by
  rw [wshl, Nat.shiftLeft_eq, show (2 : ℕ) ^ 4 = 16 from rfl, Nat.mul_comm x, Nat.mod_eq_of_lt hx]
  exact (Nat.two_pow_add_eq_or_of_lt (i := 4) hd x).symm

/-- The digits of one word are put together. -/
lemma digitsLoop_spells {cs : List ℕ} {k : ℕ} (h : Spells cs ds) (hx : x < 16 ^ k)
    (hk : k + ds.length ≤ 16) :
    digitsLoop x cs = some (x * 16 ^ ds.length + numeral 16 ds) := by
  induction ds generalizing x k cs with
  | nil =>
    obtain rfl : cs = [] := List.length_eq_zero_iff.mp h.length
    simp [digitsLoop]
  | cons d ds ih =>
    obtain ⟨c, cs, rfl⟩ := List.exists_cons_of_length_pos (by rw [h.length]; simp : 0 < cs.length)
    obtain ⟨hc, hcs⟩ := List.cons.inj h
    have h16 := digitOf_lt hc
    rw [List.length_cons] at hk ⊢
    have hpow : 16 ^ (k + 1) ≤ wordMod := Nat.pow_le_pow_right (by decide) (by omega : k + 1 ≤ 16)
    rw [pow_succ] at hpow
    rw [digitsLoop, hc, Option.bind_some, wshl_four (by omega) h16,
      ih (k := k + 1) hcs (by rw [pow_succ]; omega) (by omega), numeral_cons, pow_succ]
    congr 1
    ring

/-- The words are read from the last digits on. -/
lemma wordsLoop_spells {cs : List ℕ} (os : ℕ) {k : ℕ} (h : Spells cs ds)
    (hlen : k * 16 + os ≤ ds.length) : ∃ ws,
    wordsLoop cs os k = some ws ∧ ws.length = k ∧
      value ws = numeral 16 ((ds.take (k * 16 + os)).drop os) := by
  induction k with
  | zero => exact ⟨[], rfl, rfl, by simp⟩
  | succ k ih =>
    obtain ⟨ws, h1, h2, h3⟩ := ih (by omega)
    set group := (ds.drop (k * 16 + os)).take 16 with hgroup
    have hglen : group.length = 16 := by
      rw [hgroup, List.length_take, List.length_drop]
      omega
    have hread := digitsLoop_spells (x := 0) (k := 0) ((h.drop (k * 16 + os)).take 16)
      (by decide) (by rw [List.length_take]; omega)
    rw [Nat.zero_mul, Nat.zero_add] at hread
    refine ⟨numeral 16 group :: ws, ?_, by rw [List.length_cons, h2], ?_⟩
    · rw [wordsLoop, hread, Option.bind_some, h1, Option.map_some]
    · -- the digits of the words so far, and those of the new one
      have hsplit : (ds.take ((k + 1) * 16 + os)).drop os =
          (ds.take (k * 16 + os)).drop os ++ group := by
        rw [show (k + 1) * 16 + os = k * 16 + os + 16 by ring, List.take_add,
          List.drop_append_of_le_length (by rw [List.length_take_of_le (by omega)]; omega)]
      rw [hsplit, numeral_append, hglen, value_cons, h3, show (16 : ℕ) ^ 16 = wordMod by decide]
      ring

/-- A numeral is read as the words of its value. -/
lemma digitsToNum_spells {cs : List ℕ} (h : Spells cs ds) : ∃ ws,
    digitsToNum cs = some (ws ++ [0]) ∧ Words ws ∧ value ws = numeral 16 ds := by
  have hlen := h.length
  obtain ⟨ws, h1, h2, h3⟩ := wordsLoop_spells (ds.length % 16) (k := ds.length / 16) h (by omega)
  have hread := digitsLoop_spells (x := 0) (k := 0) (h.take (ds.length % 16)) (by decide)
    (by rw [List.length_take]; omega)
  rw [Nat.zero_mul, Nat.zero_add] at hread
  have hval : numeral 16 ds =
      numeral 16 (ds.take (ds.length % 16)) * wordMod ^ ws.length + value ws := by
    have hall : ds.take (ds.length / 16 * 16 + ds.length % 16) = ds :=
      List.take_of_length_le (by omega)
    conv_lhs => rw [← List.take_append_drop (ds.length % 16) ds]
    rw [numeral_append, h3, h2, List.length_drop, hall,
      show ds.length - ds.length % 16 = 16 * (ds.length / 16) by omega, pow_mul,
      show (16 : ℕ) ^ 16 = wordMod by decide]
  have hws := (wordsLoop_spec h1).1
  have hc := digitsLoop_lt (by decide : 0 < wordMod) hread
  refine ⟨_, by rw [digitsToNum, hlen, hread, Option.bind_some, h1, Option.map_some], ?_, ?_⟩
  · split_ifs
    · exact hws.append fun w hw => List.mem_singleton.mp hw ▸ hc
    · exact hws
  · split_ifs with h0
    · rw [value_concat, hval]
      ring
    · have h4 : numeral 16 (ds.take (ds.length % 16)) = 0 := by omega
      rw [hval, h4, Nat.zero_mul, Nat.zero_add]

lemma strToNum_spells {cs : List ℕ} (h : Spells cs ds) (h0 : ds ≠ []) :
    strToNum cs = digitsToNum cs := by
  obtain ⟨c, cs, rfl⟩ := List.exists_cons_of_length_pos
    (by rw [h.length]; exact List.length_pos_iff.mpr h0 : 0 < cs.length)
  obtain ⟨d, ds, rfl⟩ := List.exists_cons_of_ne_nil h0
  rw [strToNum, if_neg]
  rintro rfl
  exact absurd (List.cons.inj h).1 (by simp [digitOf])

lemma strToNum_neg {cs : List ℕ} (h0 : cs ≠ []) :
    strToNum (45 :: cs) = (digitsToNum cs).map numNegate := by
  rw [strToNum, if_pos rfl, if_neg]
  exact mt List.length_eq_zero_iff.mp h0

/-! ### The round trip -/

/-- Printing a number leaves it as it is, and reading what was printed gives the same integer. -/
def RoundTrips (n : List ℕ) : Prop :=
  ∃ str, numToStr n = some (str, n) ∧ ∃ m, strToNum str = some m ∧ denote m = denote n

/-- The numbers that are printed right: the sign word is `0`, or it is `-1` above a word that is not
zero. -/
def Printable (n : List ℕ) : Prop :=
  2 ≤ n.length ∧ (last n = 0 ∨ last n = ones ∧ ∃ w ∈ n.dropLast, w ≠ 0)

instance : DecidablePred Printable := fun n =>
  inferInstanceAs (Decidable (2 ≤ n.length ∧ (last n = 0 ∨ last n = ones ∧ ∃ w ∈ n.dropLast, w ≠ 0)))

/-- **Printing** and reading back gives the same integer if and only if the number has a word below
its sign word, which is `0`, or `-1` and the number is not the lowest one of its size. -/
theorem round_trips_iff (n : List ℕ) (h : ∀ w ∈ n, w < wordMod) :
    RoundTrips n ↔ Printable n := by
  by_cases hn : 2 ≤ n.length
  swap
  · refine iff_of_false ?_ fun h => hn h.1
    rintro ⟨str, h1, -⟩
    rw [numToStr, if_pos (by omega)] at h1
    cases h1
  obtain ⟨ws, hws⟩ := exists_concat (n := n) (by rintro rfl; simp at hn)
  generalize last n = s at hws
  subst hws
  obtain ⟨hw, hs⟩ := List.forall_mem_append.mp h
  have hs : s < wordMod := hs s (by simp)
  by_cases h0 : s = 0
  · -- the words are printed as they are
    subst h0
    refine iff_of_true ?_ ⟨hn, .inl (last_concat _ _)⟩
    obtain ⟨buf, str, ds, h1, h2, h3, h4, h5, h6⟩ := print_spec h hn
    obtain ⟨m, h7, h8, h9⟩ := digitsToNum_spells (spells_text h5)
    rw [List.dropLast_concat] at h6
    refine ⟨text ds, ?_, m ++ [0], ?_, ?_⟩
    · rw [numToStr, if_neg (by omega), last_concat]
      simp only [ne_eq, not_true_eq_false, if_false]
      rw [h1, Option.bind_some, h2, Option.map_some, List.nil_append, h3]
    · rw [strToNum_spells (spells_text h5) h4, h7]
    · rw [denote_concat, denote_concat, h9, h6]
      simp
  · -- the negation is printed after a sign
    have hneg : (numNegate (ws ++ [s])).length = (ws ++ [s]).length := length_numNegate
    obtain ⟨buf, str, ds, h1, h2, h3, h4, h5, h6⟩ := print_spec (n := numNegate (ws ++ [s]))
      words_numNegate (by omega)
    obtain ⟨m, h7, h8, h9⟩ := digitsToNum_spells (spells_text h5)
    have hprint : numToStr (ws ++ [s]) = some (45 :: text ds, ws ++ [s]) := by
      rw [numToStr, if_neg (by omega), last_concat]
      simp only [ne_eq, h0, not_false_eq_true, if_true]
      rw [h1, Option.bind_some, h2, Option.map_some, numNegate_numNegate h, List.append_assoc, h3]
      rfl
    have hread : strToNum (45 :: text ds) = some (numNegate (m ++ [0])) := by
      rw [strToNum_neg (mt List.map_eq_nil_iff.mp h4 : text ds ≠ []), h7]
      rfl
    have hdrop : (numNegate (ws ++ [s])).dropLast = numNegate ws := by
      rw [numNegate, negateLoop_concat hw le_rfl, List.dropLast_concat]
      rfl
    have hround : RoundTrips (ws ++ [s]) ↔ -(value (numNegate ws) : ℤ) = denote (ws ++ [s]) := by
      rw [← hdrop, ← h6, ← h9, ← denote_numNegate h8]
      refine ⟨?_, fun heq => ⟨_, hprint, _, hread, heq⟩⟩
      rintro ⟨str', g1, m', g2, g3⟩
      rw [hprint] at g1
      obtain ⟨rfl, -⟩ := Prod.mk.inj (Option.some.inj g1)
      rw [hread] at g2
      rwa [Option.some.inj g2]
    have hprintable : Printable (ws ++ [s]) ↔ s = ones ∧ ∃ w ∈ ws, w ≠ 0 := by
      rw [Printable, last_concat, List.dropLast_concat]
      simp only [hn, h0, true_and, false_or]
    have hpos : (0 : ℤ) < (wordMod : ℤ) ^ ws.length := pow_pos (by decide) _
    -- the sign word as a signed word
    have hsigned : (s : ℤ) - (if 2 ^ 63 ≤ s then (wordMod : ℤ) else 0) ≠ 0 ∧
        ((s : ℤ) - (if 2 ^ 63 ≤ s then (wordMod : ℤ) else 0) = -1 ↔ s = ones) := by
      unfold ones wordMod at *
      split_ifs <;> push_cast <;> omega
    rw [hround, hprintable, denote_concat]
    generalize (s : ℤ) - (if 2 ^ 63 ≤ s then (wordMod : ℤ) else 0) = v at hsigned
    by_cases hall : ∀ w ∈ ws, w = 0
    · rw [value_numNegate_zero hw hall, value_eq_zero.mpr hall]
      refine iff_of_false (fun heq => ?_) ?_
      · have := mul_ne_zero hpos.ne' hsigned.1
        push_cast at heq
        omega
      · rintro ⟨-, w, hmem, hne⟩
        exact hne (hall w hmem)
    · have hv := value_numNegate hw hall
      zify at hv
      have hex : ∃ w ∈ ws, w ≠ 0 := by
        by_contra hno
        exact hall fun w hmem => by_contra fun hne => hno ⟨w, hmem, hne⟩
      rw [iff_true_intro hex, and_true, ← hsigned.2]
      constructor
      · intro heq
        have hmul : (wordMod : ℤ) ^ ws.length * (v + 1) = 0 := by linarith
        have := (mul_eq_zero.mp hmul).resolve_left hpos.ne'
        omega
      · rintro rfl
        linarith

theorem round_trips_seven : RoundTrips [7, ones] ↔ Printable [7, ones] :=
  round_trips_iff _ (by decide)

/-- The number `-2^64`, as the sum of a string's number and zero, is printed as a negative zero. -/
theorem not_round_trips :
    ((strToNum (chars "-10000000000000000")).bind fun n₁ =>
      (strToNum (chars "0")).map (numAdd n₁)) = some [0, ones] ∧
        numToStr [0, ones] = some (chars "-0", [0, ones]) ∧ ¬ RoundTrips [0, ones] := by
  refine ⟨by decide, by decide +kernel, ?_⟩
  rintro ⟨str, h1, m, h2, h3⟩
  obtain ⟨rfl, -⟩ := Prod.mk.inj (Option.some.inj
    ((by decide +kernel : numToStr [0, ones] = some (chars "-0", [0, ones])).symm.trans h1))
  obtain rfl := Option.some.inj ((by decide : strToNum (chars "-0") = some [0, 0]).symm.trans h2)
  revert h3
  decide +kernel

end LispMachine.NumStr
