import LispMachine.NumShift
import LispMachine.Lib.Bits

/-!
Bitwise operations.

A number goes on with its sign word without an end, and the bitwise operations should work on all
these words. They stop at the end of one of the operands instead.
-/

namespace LispMachine.NumBits

open LispMachine.Memory LispMachine.Bignum LispMachine.BignumWf LispMachine.NumStr
open LispMachine.NumVal LispMachine.NumShift LispMachine.Lib.Bits

variable {n n₁ n₂ xs ys : List ℕ} {i j k s v x : ℕ}

/-! ### The words without an end -/

/-- The word `j` of a number, which goes on with its sign. -/
def wordAt (n : List ℕ) (j : ℕ) : ℕ := if j < n.length then n.getD j 0 else signWord n

lemma wordAt_lt (h : Words n) : wordAt n j < 2 ^ 64 := by
  rw [wordAt]
  split_ifs
  · exact h.getD j
  · rw [signWord]
    split_ifs <;> decide

lemma testBit_value (h : Words n) (i : ℕ) :
    (value n).testBit i = (n.getD (i / 64) 0).testBit (i % 64) :=
  testBit_ofDigits (by decide) h i

lemma testBit_ones (hi : i < 64) : ones.testBit i = true := by
  rw [show ones = 2 ^ 64 - 1 from rfl, Nat.testBit_two_pow_sub_one]
  simpa using hi

/-- The bits of what a number denotes are those of its words. -/
lemma testBit_denote (h : Words n) (i : ℕ) :
    (denote n).testBit i = (wordAt n (i / 64)).testBit (i % 64) := by
  have hlt := value_lt h
  have hpow : wordMod ^ n.length = 2 ^ (64 * n.length) := by
    rw [pow_mul]
    rfl
  have hmod : i % 64 < 64 := Nat.mod_lt i (by decide)
  rw [wordAt, denote, signWord]
  by_cases hs : 2 ^ 63 ≤ last n
  · have hcast : (wordMod : ℤ) ^ n.length = 2 ^ (64 * n.length) := by exact_mod_cast hpow
    rw [if_pos hs, if_pos hs, hcast, testBit_sub_two_pow (hpow ▸ hlt), testBit_value h]
    by_cases hi : i / 64 < n.length
    · rw [if_pos hi, decide_eq_false (by omega), Bool.false_or]
    · rw [if_neg hi, testBit_ones hmod, decide_eq_true (by omega), Bool.true_or]
  · rw [if_neg hs, if_neg hs, sub_zero]
    have hnat : Int.testBit (value n : ℤ) i = (value n).testBit i := rfl
    rw [hnat, testBit_value h]
    by_cases hi : i / 64 < n.length
    · rw [if_pos hi]
    · rw [if_neg hi, List.getD_eq_default _ _ (by omega)]

/-- An operation on integers is right when it is on the words. -/
lemma denote_bitwise_iff {f : ℕ → ℕ → ℕ} {op : Bool → Bool → Bool} (h : Words n) (h₁ : Words n₁)
    (h₂ : Words n₂) (hf : ∀ x y i, (f x y).testBit i = op (x.testBit i) (y.testBit i))
    (hop : op false false = false) :
    denote n = Int.bitwise op (denote n₁) (denote n₂) ↔
      ∀ j, wordAt n j = f (wordAt n₁ j) (wordAt n₂ j) := by
  have hlt : ∀ j, f (wordAt n₁ j) (wordAt n₂ j) < 2 ^ 64 := fun j => by
    refine Nat.lt_pow_two_of_testBit _ fun i hi => ?_
    have hbig : ∀ x < 2 ^ 64, x.testBit i = false := fun x hx =>
      Nat.testBit_lt_two_pow (hx.trans_le (Nat.pow_le_pow_right Nat.two_pos hi))
    rw [hf, hbig _ (wordAt_lt h₁), hbig _ (wordAt_lt h₂), hop]
  constructor
  · intro heq j
    refine digit_ext (wordAt_lt h) (hlt j) fun i hi => ?_
    have hbit := congrArg (fun z => Int.testBit z (64 * j + i)) heq
    simp only [Int.testBit_bitwise, testBit_denote h, testBit_denote h₁, testBit_denote h₂] at hbit
    rw [show (64 * j + i) / 64 = j by omega, show (64 * j + i) % 64 = i by omega] at hbit
    rw [hbit, hf]
  · intro heq
    refine testBit_ext fun i => ?_
    rw [Int.testBit_bitwise, testBit_denote h, testBit_denote h₁, testBit_denote h₂, heq, hf]

/-! ### Or, exclusive or -/

lemma wordAt_of_lt (h : j < n.length) : wordAt n j = n.getD j 0 := if_pos h

lemma wordAt_of_le (h : WellFormed n) (hj : n.length - 1 ≤ j) : wordAt n j = last n := by
  rw [wordAt]
  split_ifs with hlt
  · rw [last, show j = n.length - 1 by omega]
  · exact signWord_eq h

section Combine

variable {f : ℕ → ℕ → ℕ}

lemma length_combine (hle : n₂.length ≤ n₁.length) : (combine f n₁ n₂).length = n₁.length := by
  rw [combine, List.length_append, List.length_zipWith, List.length_drop]
  omega

lemma getD_combine (hle : n₂.length ≤ n₁.length) (hj : j < n₁.length) :
    (combine f n₁ n₂).getD j 0 =
      if j < n₂.length then f (n₁.getD j 0) (n₂.getD j 0) else n₁.getD j 0 := by
  rw [List.getD_eq_getElem _ _ (by rwa [length_combine hle])]
  simp only [combine]
  rw [List.getElem_append]
  split_ifs with h1 h2 h2
  · rw [List.getElem_zipWith, List.getD_eq_getElem _ _ hj, List.getD_eq_getElem _ _ h2]
  · rw [List.length_zipWith] at h1
    omega
  · rw [List.length_zipWith] at h1
    omega
  · rw [List.getElem_drop, ← List.getD_eq_getElem _ 0, List.length_zipWith]
    congr 1
    omega

/-- Where the longer number comes first, the words of the other one are used up too early. -/
lemma combine_right_iff (hf : ∀ x, f x 0 = x) (h₁ : WellFormed n₁) (h₂ : WellFormed n₂)
    (h : WellFormed (combine f n₁ n₂)) (hle : n₂.length ≤ n₁.length) :
    (∀ j, wordAt (combine f n₁ n₂) j = f (wordAt n₁ j) (wordAt n₂ j)) ↔
      last n₂ = 0 ∨ ∀ j, n₂.length ≤ j → j < n₁.length → f (n₁.getD j 0) ones = n₁.getD j 0 := by
  have hsz₁ := h₁.size
  have hsz₂ := h₂.size
  have hlen := length_combine (f := f) hle
  -- the words of the operands are those of the result, up to the end of the longer one
  have hin : ∀ j, j < n₁.length → (wordAt (combine f n₁ n₂) j = f (wordAt n₁ j) (wordAt n₂ j) ↔
      j < n₂.length ∨ f (n₁.getD j 0) (last n₂) = n₁.getD j 0) := by
    intro j hj
    rw [wordAt_of_lt (by rwa [hlen]), getD_combine hle hj, wordAt_of_lt hj]
    by_cases hj₂ : j < n₂.length
    · rw [if_pos hj₂, wordAt_of_lt hj₂]
      exact iff_of_true rfl (.inl hj₂)
    · rw [if_neg hj₂, wordAt_of_le h₂ (by omega), eq_comm]
      simp [hj₂]
  have hall : (∀ j, wordAt (combine f n₁ n₂) j = f (wordAt n₁ j) (wordAt n₂ j)) ↔
      ∀ j, j < n₁.length → wordAt (combine f n₁ n₂) j = f (wordAt n₁ j) (wordAt n₂ j) := by
    refine ⟨fun h j _ => h j, fun hlt j => ?_⟩
    by_cases hj : j < n₁.length
    · exact hlt j hj
    · have hend := hlt (n₁.length - 1) (by omega)
      rw [wordAt_of_le h (by omega), wordAt_of_le h₁ le_rfl,
        wordAt_of_le h₂ (by omega)] at hend
      rw [wordAt_of_le h (by omega), wordAt_of_le h₁ (by omega), wordAt_of_le h₂ (by omega), hend]
  rw [hall]
  rcases h₂.sign with hs | hs
  · refine iff_of_true (fun j hj => (hin j hj).mpr (.inr ?_)) (.inl hs)
    rw [hs, hf]
  · constructor
    · intro hw
      refine .inr fun j hle' hj => ?_
      have := ((hin j hj).mp (hw j hj)).resolve_left (by omega)
      rwa [hs] at this
    · rintro (h0 | hw) j hj
      · rw [hs] at h0
        exact absurd h0 (by decide)
      · refine (hin j hj).mpr ?_
        by_cases hj₂ : j < n₂.length
        · exact .inl hj₂
        · rw [hs]
          exact .inr (hw j (by omega) hj)

end Combine

lemma lor_ones (hx : x < wordMod) : x ||| ones = x ↔ x = ones := by
  have h1 : x ||| ones = ones := by
    refine digit_ext (w := 64) (or_lt hx (by decide)) (by decide) fun i hi => ?_
    rw [Nat.testBit_or, testBit_ones hi, Bool.or_true]
  rw [h1, eq_comm]

lemma xor_ones (x : ℕ) : x ^^^ ones ≠ x := by
  intro h
  have := congrArg (fun z => Nat.testBit z 0) h
  simp only [Nat.testBit_xor, testBit_ones (by decide : 0 < 64)] at this
  revert this
  cases x.testBit 0 <;> decide

/-- When `num_or` is right: a first number that is shorter has all the bits of the second one
already; otherwise the shorter number is not negative, or the words behind it are full. -/
def Ors (n₁ n₂ : List ℕ) : Prop :=
  if n₁.length < n₂.length then ∀ i, (denote n₂).testBit i → (denote n₁).testBit i
  else 0 ≤ denote n₂ ∨ ∀ j, n₂.length ≤ j → j < n₁.length → n₁.getD j 0 = ones

/-- When `num_xor` is right: a first number that is shorter is equal to the second one; otherwise
the shorter number is not negative, or there is no shorter one. -/
def Xors (n₁ n₂ : List ℕ) : Prop :=
  if n₁.length < n₂.length then denote n₁ = denote n₂
  else 0 ≤ denote n₂ ∨ n₁.length = n₂.length

lemma combine_self {f : ℕ → ℕ → ℕ} : combine f n n = n.map fun x => f x x := by
  rw [combine, List.drop_length, List.append_nil, List.zipWith_self]

lemma numOr_right_iff (h₁ : WellFormed n₁) (h₂ : WellFormed n₂) :
    denote (numOr n₁ n₂) = Int.lor (denote n₁) (denote n₂) ↔ Ors n₁ n₂ := by
  have hwf := numOr_wellFormed h₁ h₂
  rw [Ors]
  rw [numOr] at hwf ⊢
  split_ifs with hlt
  · rw [if_pos hlt] at hwf
    have hself : combine (· ||| ·) n₁ n₁ = n₁ := by
      rw [combine_self]
      simp
    rw [hself]
    constructor
    · intro heq i hi
      have hbit := congrArg (fun z => Int.testBit z i) heq
      simp only [Int.testBit_lor] at hbit
      rw [hbit, hi, Bool.or_true]
    · intro hsub
      refine testBit_ext fun i => ?_
      rw [Int.testBit_lor]
      have hi := hsub i
      revert hi
      cases (denote n₁).testBit i <;> cases (denote n₂).testBit i <;> simp
  · rw [if_neg hlt] at hwf
    rw [← Int.bitwise_or, denote_bitwise_iff hwf.words h₁.words h₂.words
      (fun x y i => Nat.testBit_or x y i) rfl,
      combine_right_iff Nat.or_zero h₁ h₂ hwf (not_lt.mp hlt), (denote_sign h₂).2]
    simp only [lor_ones (h₁.words.getD _)]

lemma numXor_right_iff (h₁ : WellFormed n₁) (h₂ : WellFormed n₂) :
    denote (numXor n₁ n₂) = Int.xor (denote n₁) (denote n₂) ↔ Xors n₁ n₂ := by
  have hwf := numXor_wellFormed h₁ h₂
  rw [Xors]
  rw [numXor] at hwf ⊢
  have hbit : ∀ x y i : ℕ, (x ^^^ y).testBit i = xor (x.testBit i) (y.testBit i) := Nat.testBit_xor
  split_ifs with hlt
  · -- the first number and itself
    have hself : denote (combine (· ^^^ ·) n₁ n₁) = 0 := by
      have hv : value (combine (· ^^^ ·) n₁ n₁) = 0 := by
        rw [combine_self, value_eq_zero]
        intro w hw
        obtain ⟨x, -, rfl⟩ := List.mem_map.mp hw
        exact Nat.xor_self x
      have hlast : last (combine (· ^^^ ·) n₁ n₁) = 0 := by
        have h0 := h₁.size
        rw [last, length_combine le_rfl, getD_combine le_rfl (by omega), if_pos (by omega),
          Nat.xor_self]
      rw [denote, hv, hlast, if_neg (by decide)]
      rfl
    rw [hself]
    constructor
    · intro heq
      refine testBit_ext fun i => ?_
      have := congrArg (fun z => Int.testBit z i) heq
      simp only [Int.testBit_lxor] at this
      rw [show Int.testBit 0 i = false from Nat.zero_testBit i] at this
      simpa using this.symm
    · intro heq
      refine testBit_ext fun i => ?_
      rw [heq, Int.testBit_lxor, Bool.xor_self]
      exact Nat.zero_testBit i
  · rw [if_neg hlt] at hwf
    rw [← Int.bitwise_xor, denote_bitwise_iff hwf.words h₁.words h₂.words hbit rfl,
      combine_right_iff Nat.xor_zero h₁ h₂ hwf (not_lt.mp hlt), (denote_sign h₂).2]
    refine or_congr_right ⟨fun hw => ?_, fun heq j h1 h2 => by omega⟩
    by_contra hne
    exact xor_ones _ (hw n₂.length le_rfl (by omega))

/-! ### And -/

/-- The words that both numbers have, and the word `0` that is put behind them. -/
def common (n₁ n₂ : List ℕ) (i : ℕ) : ℕ := (List.zipWith (· &&& ·) n₁ n₂ ++ [0]).getD i 0

lemma common_of_lt (hj : j < min n₁.length n₂.length) :
    common n₁ n₂ j = wordAt n₁ j &&& wordAt n₂ j := by
  have h1 : j < n₁.length := by omega
  have h2 : j < n₂.length := by omega
  rw [common, List.getD_append _ _ _ _ (by rwa [List.length_zipWith]),
    List.getD_eq_getElem _ _ (by rwa [List.length_zipWith]), List.getElem_zipWith,
    wordAt_of_lt h1, wordAt_of_lt h2, List.getD_eq_getElem _ _ h1, List.getD_eq_getElem _ _ h2]

lemma common_of_le (hj : min n₁.length n₂.length ≤ j) : common n₁ n₂ j = 0 := by
  rw [common, List.getD_append_right _ _ _ _ (by rwa [List.length_zipWith])]
  cases j - (List.zipWith (· &&& ·) n₁ n₂).length <;> simp

lemma and_lt (hx : x < wordMod) (y : ℕ) : x &&& y < wordMod :=
  lt_of_le_of_lt Nat.and_le_left hx

lemma common_bounded (h₁ : Words n₁) : Bounded (common n₁ n₂) := fun i => by
  by_cases hi : i < min n₁.length n₂.length
  · rw [common_of_lt hi]
    exact and_lt (wordAt_lt h₁) _
  · rw [common_of_le (not_lt.mp hi)]
    decide

lemma object_common : object (common n₁ n₂) (min n₁.length n₂.length + 1) =
    List.zipWith (· &&& ·) n₁ n₂ ++ [0] := by
  have hlen : (List.zipWith (· &&& ·) n₁ n₂ ++ [0]).length = min n₁.length n₂.length + 1 := by
    rw [List.length_append, List.length_zipWith, List.length_singleton]
  apply List.ext_getElem (by rw [length_object, hlen])
  intro i h1 h2
  rw [← List.getD_eq_getElem _ 0 h1, getD_object (by rwa [length_object] at h1), common,
    List.getD_eq_getElem]

lemma numAnd_eq (h₁ : WellFormed n₁) (h₂ : WellFormed n₂) : numAnd n₁ n₂ =
    object (common n₁ n₂) (trimZeroes (common n₁ n₂) (min n₁.length n₂.length + 1)) := by
  have hsz₁ := h₁.size
  have hsz₂ := h₂.size
  obtain ⟨-, hle, -⟩ := trimZeroes_spec (c := common n₁ n₂) (min n₁.length n₂.length + 1) (by omega)
    (common_of_le (by omega))
  rw [numAnd, ← object_common, length_object, ← take_object _ hle]
  congr 2
  funext i
  rw [object_common, common]

lemma and_eq_ones {y : ℕ} (hx : x < wordMod) (hy : y < wordMod) :
    x &&& y = ones ↔ x = ones ∧ y = ones := by
  constructor
  · intro h
    have hbit : ∀ i < 64, x.testBit i = true ∧ y.testBit i = true := fun i hi => by
      have := congrArg (fun z => Nat.testBit z i) h
      simp only [Nat.testBit_and, testBit_ones hi] at this
      simpa using this
    exact ⟨digit_ext (w := 64) hx (by decide) fun i hi => by rw [(hbit i hi).1, testBit_ones hi],
      digit_ext (w := 64) hy (by decide) fun i hi => by rw [(hbit i hi).2, testBit_ones hi]⟩
  · rintro ⟨rfl, rfl⟩
    exact Nat.and_self ones

/-- When `num_and` is right: both numbers are full from the last word of the shorter one on; or they
have nothing in common behind that word, and no full word above the lowest one that they have in
common is the topmost such word. -/
def Ands (n₁ n₂ : List ℕ) : Prop :=
  (∀ j, min n₁.length n₂.length - 1 ≤ j → wordAt n₁ j = ones ∧ wordAt n₂ j = ones) ∨
    (∀ j, min n₁.length n₂.length ≤ j → wordAt n₁ j &&& wordAt n₂ j = 0) ∧
      ¬ ∃ m, 1 ≤ m ∧ wordAt n₁ m = ones ∧ wordAt n₂ m = ones ∧
        ∀ j, m < j → wordAt n₁ j &&& wordAt n₂ j = 0

/-- The words of an object that ends with a sign word. -/
lemma wordAt_object {c : ℕ → ℕ} (hs : s = 0 ∨ s = ones) :
    wordAt (object c k ++ [s]) j = if j < k then c j else s := by
  rw [wordAt, List.length_append, length_object, List.length_singleton, signWord_concat]
  have hsign : (if 2 ^ 63 ≤ s then ones else 0) = s := by
    rcases hs with rfl | rfl <;> rfl
  rw [hsign]
  by_cases hj : j < k
  · rw [if_pos (by omega), if_pos hj, List.getD_append _ _ _ _ (by rwa [length_object]),
      getD_object hj]
  · rw [if_neg hj]
    split_ifs with h1
    · rw [List.getD_append_right _ _ _ _ (by rw [length_object]; omega), length_object,
        show j - k = 0 by omega, List.getD_cons_zero]
    · rfl

lemma numAnd_right_iff (h₁ : WellFormed n₁) (h₂ : WellFormed n₂) :
    denote (numAnd n₁ n₂) = Int.land (denote n₁) (denote n₂) ↔ Ands n₁ n₂ := by
  have hsz₁ := h₁.size
  have hsz₂ := h₂.size
  have hb : Bounded (common n₁ n₂) := common_bounded h₁.words
  obtain ⟨l, hl⟩ : ∃ l, min n₁.length n₂.length = l + 1 :=
    ⟨min n₁.length n₂.length - 1, by omega⟩
  have hlt : ∀ {j}, j < l + 1 → common n₁ n₂ j = wordAt n₁ j &&& wordAt n₂ j := fun h =>
    common_of_lt (by omega)
  have hge : ∀ {j}, l + 1 ≤ j → common n₁ n₂ j = 0 := fun h => common_of_le (by omega)
  have hfull : ∀ {j}, j < l + 1 → common n₁ n₂ j = ones →
      wordAt n₁ j = ones ∧ wordAt n₂ j = ones := fun hj h =>
    (and_eq_ones (wordAt_lt h₁.words) (wordAt_lt h₂.words)).mp (hlt hj ▸ h)
  rw [numAnd_eq h₁ h₂, Ands, hl, Nat.add_sub_cancel]
  rcases trimZeroes_cases (d := 0) hb (by omega : 2 ≤ l + 1 + 1) (hge (by omega))
    (fun i => (if_neg (Nat.not_lt_zero i)).symm) with ⟨hd, hfree⟩ | ⟨m, hm, hms, hlo, hhi, hd⟩
  · -- the common words are the result
    have hq : (value (object (common n₁ n₂) (l + 1 + 1)) : ℤ) =
        denote (object (common n₁ n₂) (l + 1) ++ [0]) := by
      rw [denote_pos, value_object_succ, hge le_rfl, Nat.mul_zero, Nat.add_zero]
    have hword : ∀ j, wordAt (object (common n₁ n₂) (l + 1) ++ [0]) j = common n₁ n₂ j := by
      intro j
      rw [wordAt_object (.inl rfl)]
      split_ifs with hj
      · rfl
      · rw [hge (not_lt.mp hj)]
    rw [hd, hq, ← Int.bitwise_and, denote_bitwise_iff ((words_object hb).append (by decide))
      h₁.words h₂.words (fun x y i => Nat.testBit_and x y i) rfl]
    simp only [hword]
    constructor
    · intro hall
      refine .inr ⟨fun j hj => by rw [← hall j, hge hj], ?_⟩
      rintro ⟨m, hm, hx, hy, hz⟩
      have hcm : common n₁ n₂ m = ones := by rw [hall m, hx, hy, Nat.and_self]
      have hml : m < l + 1 := by
        by_contra hml
        rw [hge (not_lt.mp hml)] at hcm
        exact absurd hcm (by decide)
      exact hfree (top_full hb hm (by omega) hcm fun i hi _ => by rw [hall i, hz i hi])
    · rintro (hones | ⟨hz, -⟩) j
      · have hcl : common n₁ n₂ l = ones := by
          rw [hlt (by omega), (hones l le_rfl).1, (hones l le_rfl).2, Nat.and_self]
        exact absurd (top_full hb (by omega) (by omega) hcl fun i hi _ => hge hi) hfree
      · by_cases hj : j < l + 1
        · exact hlt hj
        · rw [hge (not_lt.mp hj), hz j (not_lt.mp hj)]
  · -- the sign word was taken off
    obtain ⟨-, hcm, habove⟩ := top_words hb hlo hhi
    have hml : m < l + 1 := by
      by_contra hml
      rw [hge (not_lt.mp hml)] at hcm
      exact absurd hcm (by decide)
    have hzero : ∀ j, m < j → common n₁ n₂ j = 0 := fun j hj => by
      by_cases hjl : j < l + 1 + 1
      · exact habove j hj hjl
      · exact hge (by omega)
    have hq : (value (object (common n₁ n₂) (l + 1 + 1)) : ℤ) - (wordMod : ℤ) ^ (m + 1) =
        denote (object (common n₁ n₂) (m + 1) ++ [ones]) := by
      rw [denote_neg, length_object, value_object_zeroes (by omega : m + 1 ≤ l + 1 + 1)
        fun i hi _ => hzero i hi]
    rw [hd, hq, ← Int.bitwise_and, denote_bitwise_iff ((words_object hb).append (by decide))
      h₁.words h₂.words (fun x y i => Nat.testBit_and x y i) rfl]
    simp only [wordAt_object (.inr rfl : ones = 0 ∨ ones = ones)]
    obtain ⟨hx, hy⟩ := hfull hml hcm
    constructor
    · intro hall
      have hafter : ∀ j, m < j → wordAt n₁ j &&& wordAt n₂ j = ones := fun j hj => by
        rw [← hall j, if_neg (by omega)]
      have hmlast : m = l := by
        by_contra hne
        have h1 := hafter l (by omega)
        rw [← hlt (by omega), hzero l (by omega)] at h1
        exact absurd h1 (by decide)
      refine .inl fun j hj => ?_
      rcases hj.eq_or_lt with rfl | hj
      · exact hmlast ▸ ⟨hx, hy⟩
      · exact (and_eq_ones (wordAt_lt h₁.words) (wordAt_lt h₂.words)).mp (hafter j (by omega))
    · rintro (hones | ⟨hz, hno⟩) j
      · have hmlast : m = l := by
          by_contra hne
          have h1 := hzero l (by omega)
          rw [hlt (by omega), (hones l le_rfl).1, (hones l le_rfl).2, Nat.and_self] at h1
          exact absurd h1 (by decide)
        split_ifs with hj
        · exact hlt (by omega)
        · rw [(hones j (by omega)).1, (hones j (by omega)).2, Nat.and_self]
      · refine absurd ⟨m, hm, hx, hy, fun j hj => ?_⟩ hno
        by_cases hjl : j < l + 1
        · rw [← hlt hjl, hzero j hj]
        · exact hz j (not_lt.mp hjl)

end LispMachine.NumBits
