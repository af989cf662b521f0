import LispMachine.Bignum

/-!
The sign word of the numbers.

Every operation leaves `0` or `-1` as the last word of what it returns, with two exceptions: the
negation of the lowest number of its size, and a shift to the right by all the words but one.
-/

namespace LispMachine.BignumWf

open LispMachine.Memory LispMachine.Bignum

variable {n n₁ n₂ xs ys : List ℕ} {carry x y s : ℕ}

/-! ### Words -/

/-- What a number consists of. -/
def Words (n : List ℕ) : Prop := ∀ w ∈ n, w < wordMod

/-- A number has two words or more, and the last one is the sign. -/
structure WellFormed (n : List ℕ) : Prop where
  words : Words n
  size : 2 ≤ n.length
  sign : last n = 0 ∨ last n = ones

instance : DecidablePred Words := fun n => inferInstanceAs (Decidable (∀ w ∈ n, w < wordMod))

instance : DecidablePred WellFormed := fun n =>
  decidable_of_iff (Words n ∧ 2 ≤ n.length ∧ (last n = 0 ∨ last n = ones))
    ⟨fun ⟨h1, h2, h3⟩ => ⟨h1, h2, h3⟩, fun ⟨h1, h2, h3⟩ => ⟨h1, h2, h3⟩⟩

lemma Words.cons (hx : x < wordMod) (h : Words xs) : Words (x :: xs) :=
  List.forall_mem_cons.mpr ⟨hx, h⟩

lemma Words.append (h : Words xs) (h' : Words ys) : Words (xs ++ ys) :=
  List.forall_mem_append.mpr ⟨h, h'⟩

lemma Words.getD (h : Words n) (i : ℕ) : n.getD i 0 < wordMod := by
  rw [List.getD_eq_getElem?_getD]
  cases hi : n[i]? with
  | none => decide
  | some w => exact h w (List.mem_of_getElem? hi)

@[simp] lemma last_concat (xs : List ℕ) (s : ℕ) : last (xs ++ [s]) = s := by simp [last]

lemma last_cons (h : xs ≠ []) : last (x :: xs) = last xs := by
  obtain ⟨y, ys, rfl⟩ := List.exists_cons_of_ne_nil h
  rfl

lemma exists_concat (h : n ≠ []) : ∃ xs, n = xs ++ [last n] := by
  refine ⟨n.dropLast, ?_⟩
  have hlen := List.length_pos_iff.mpr h
  rw [last, List.getD_eq_getElem _ _ (by omega), ← List.getLast_eq_getElem h]
  exact (List.dropLast_concat_getLast h).symm

lemma wellFormed_concat : WellFormed (xs ++ [s]) ↔ Words xs ∧ xs ≠ [] ∧ (s = 0 ∨ s = ones) := by
  refine ⟨fun h => ⟨fun w hw => h.words w (by simp [hw]), ?_, by simpa using h.sign⟩, ?_⟩
  · rintro rfl
    simpa using h.size
  · rintro ⟨h1, h2, h3⟩
    refine ⟨h1.append ?_, ?_, by simpa using h3⟩
    · intro w hw
      obtain rfl := List.mem_singleton.mp hw
      rcases h3 with rfl | rfl <;> decide
    · have := List.length_pos_iff.mpr h2
      rw [List.length_append, List.length_singleton]
      omega

/-! ### Carries -/

lemma adc_eq (hx : x < wordMod) (hy : y < wordMod) :
    adc x y = ((x + y) / wordMod, (x + y) % wordMod) := by
  have h63 : ones >>> 1 = 2 ^ 63 - 1 := by decide
  have hmask : ∀ z, z &&& ones >>> 1 = z % 2 ^ 63 := fun z => by
    rw [h63, Nat.and_two_pow_sub_one_eq_mod]
  have hW : wordMod = 2 ^ 64 := rfl
  have hz : wadd (x % 2 ^ 63) (y % 2 ^ 63) = x % 2 ^ 63 + y % 2 ^ 63 := wadd_eq (by omega)
  rw [adc, hmask, hmask, hz, Nat.shiftRight_eq_div_pow, Nat.shiftRight_eq_div_pow,
    Nat.shiftRight_eq_div_pow, wadd]
  clear hmask hz h63
  rw [hW] at hx hy ⊢
  refine Prod.ext ?_ rfl
  dsimp only
  have h1 : x / 2 ^ 63 = 0 ∨ x / 2 ^ 63 = 1 := by omega
  have h2 : y / 2 ^ 63 = 0 ∨ y / 2 ^ 63 = 1 := by omega
  have h3 : (x % 2 ^ 63 + y % 2 ^ 63) / 2 ^ 63 = 0 ∨ (x % 2 ^ 63 + y % 2 ^ 63) / 2 ^ 63 = 1 := by
    omega
  rcases h1 with h1 | h1 <;> rcases h2 with h2 | h2 <;> rcases h3 with h3 | h3 <;>
    rw [h1, h2, h3] <;> simp <;> omega

/-- A carry and two words add up to a word and a carry. -/
lemma addStep_eq (hc : carry ≤ 1) (hx : x < wordMod) (hy : y < wordMod) :
    addStep carry x y = ((x + y + carry) / wordMod, (x + y + carry) % wordMod) := by
  have hc' : carry < wordMod := lt_of_le_of_lt hc (by decide)
  rw [addStep, adc_eq hx hc']
  dsimp only
  rw [adc_eq (Nat.mod_lt _ (by decide)) hy]
  dsimp only
  unfold wordMod at *
  rw [wadd, wordMod]
  refine Prod.ext ?_ ?_ <;> dsimp only <;> omega

lemma wnot_lt (x : ℕ) : wnot x < wordMod := by
  have : 0 < wordMod := by decide
  unfold wnot
  omega

/-! ### Negation -/

lemma negateLoop_cons (hc : carry ≤ 1) : negateLoop carry (x :: xs) =
    ((wnot x + carry) % wordMod) :: negateLoop ((wnot x + carry) / wordMod) xs := by
  have hW : wordMod = 2 ^ 64 := rfl
  rw [negateLoop, adc_eq (wnot_lt x) (by omega)]

lemma carry_le (x : ℕ) (hc : carry ≤ 1) : (wnot x + carry) / wordMod ≤ 1 := by
  have := wnot_lt x
  unfold wordMod at *
  omega

@[simp] lemma length_negateLoop : (negateLoop carry n).length = n.length := by
  induction n generalizing carry with
  | nil => rfl
  | cons x xs ih => simp [negateLoop, ih]

@[simp] lemma length_numNegate : (numNegate n).length = n.length := length_negateLoop

lemma words_negateLoop (hc : carry ≤ 1) : Words (negateLoop carry n) := by
  induction n generalizing carry with
  | nil => simp [negateLoop, Words]
  | cons x xs ih =>
    rw [negateLoop_cons hc]
    exact (ih (carry_le x hc)).cons (Nat.mod_lt _ (by decide))

lemma words_numNegate : Words (numNegate n) := words_negateLoop le_rfl

/-- The carry goes past the words that are zero. -/
lemma negateLoop_concat (hn : Words xs) (hc : carry ≤ 1) : negateLoop carry (xs ++ [s]) =
    negateLoop carry xs ++ [(wnot s + if ∀ w ∈ xs, w = 0 then carry else 0) % wordMod] := by
  induction xs generalizing carry with
  | nil => simp [negateLoop_cons hc, negateLoop]
  | cons x xs ih =>
    have hx := hn x (by simp)
    rw [List.cons_append, negateLoop_cons hc, negateLoop_cons hc,
      ih (fun w hw => hn w (by simp [hw])) (carry_le x hc), List.cons_append]
    have hdiv : (wnot x + carry) / wordMod = if x = 0 then carry else 0 := by
      unfold wnot wordMod at *
      split_ifs <;> omega
    simp only [List.forall_mem_cons, hdiv]
    by_cases h0 : x = 0 <;> by_cases hall : ∀ w ∈ xs, w = 0 <;> simp [h0, hall]

/-- The lowest number of its size. -/
def Lowest (n : List ℕ) : Prop := last n = ones ∧ ∀ w ∈ n.dropLast, w = 0

instance : DecidablePred Lowest := fun n =>
  inferInstanceAs (Decidable (last n = ones ∧ ∀ w ∈ n.dropLast, w = 0))

lemma numNegate_wellFormed (h : WellFormed n) : WellFormed (numNegate n) ↔ ¬ Lowest n := by
  obtain ⟨xs, hxs⟩ := exists_concat (n := n) (by rintro rfl; simpa using h.size)
  generalize last n = s at hxs
  subst hxs
  obtain ⟨h1, h2, h3⟩ := wellFormed_concat.mp h
  have hlen : negateLoop 1 xs ≠ [] := by
    rw [← List.length_pos_iff, length_negateLoop]
    exact List.length_pos_iff.mpr h2
  rw [numNegate, negateLoop_concat h1 le_rfl, wellFormed_concat, Lowest, last_concat,
    List.dropLast_concat, iff_true_intro (words_negateLoop le_rfl), iff_true_intro hlen,
    true_and, true_and]
  by_cases hall : ∀ w ∈ xs, w = 0
  · rw [if_pos hall, iff_true_intro hall, and_true]
    rcases h3 with rfl | rfl <;> decide
  · rw [if_neg hall, iff_false_intro hall, and_false]
    rcases h3 with rfl | rfl <;> decide

/-! ### Trimming -/

variable {p : ℕ → Bool} {c : ℕ → ℕ}

lemma trimLoop_spec (p : ℕ → Bool) (c : ℕ → ℕ) (i : ℕ) : trimLoop p c i ≤ i ∧
    (1 ≤ i → 1 ≤ trimLoop p c i) ∧ (trimLoop p c i = i ∨ p (c (trimLoop p c i)) = true) := by
  induction i using Nat.strong_induction_on with
  | _ i ih =>
    match i with
    | 0 => exact ⟨le_rfl, fun h => h, .inl rfl⟩
    | 1 => exact ⟨le_rfl, fun h => h, .inl rfl⟩
    | i + 2 =>
      rw [trimLoop]
      split_ifs with hp
      · obtain ⟨h1, h2, h3⟩ := ih (i + 1) (by omega)
        refine ⟨by omega, fun _ => h2 (by omega), .inr ?_⟩
        rcases h3 with h3 | h3
        · rwa [h3]
        · exact h3
      · exact ⟨le_rfl, fun h => h, .inl rfl⟩

lemma last_take {i : ℕ} (h : i < n.length) : last (n.take (i + 1)) = n.getD i 0 := by
  rw [last, List.length_take, Nat.min_eq_left h, Nat.succ_sub_one,
    List.getD_eq_getElem?_getD, List.getElem?_take_of_lt (Nat.lt_succ_self i),
    ← List.getD_eq_getElem?_getD]

/-- What trimming leaves ends with the sign word `s`, or with the last word. -/
lemma trim_wellFormed (hw : Words n) (hn : 2 ≤ n.length) (hs : s = 0 ∨ s = ones)
    (hl : last n = 0 ∨ last n = ones) : WellFormed (trim (· = s) n) := by
  obtain ⟨h1, h2, h3⟩ := trimLoop_spec (· = s) (fun i => n.getD i 0) (n.length - 1)
  rw [trim]
  generalize trimLoop (· = s) (fun i => n.getD i 0) (n.length - 1) = i at h1 h2 h3
  refine ⟨fun w hmem => hw w (List.mem_of_mem_take hmem), ?_, ?_⟩
  · rw [List.length_take]
    omega
  · rw [last_take (by omega)]
    rcases h3 with rfl | h3
    · exact hl
    · rw [decide_eq_true_eq] at h3
      rwa [h3]

/-! ### Addition -/

lemma addStep_carry (hc : carry ≤ 1) (hx : x < wordMod) (hy : y < wordMod) :
    (x + y + carry) / wordMod ≤ 1 := by
  unfold wordMod at *
  omega

/-- The last word of a sum is the sum of the last words and a carry. -/
lemma addLoop_last {pad : ℕ} (hn : n₁ ≠ []) (hlen : n₂.length ≤ n₁.length) (h₁ : Words n₁)
    (h₂ : Words n₂) (hpad : pad < wordMod) (hc : carry ≤ 1) :
    (addLoop pad carry n₁ n₂).length = n₁.length ∧ Words (addLoop pad carry n₁ n₂) ∧
      ∃ c ≤ 1, last (addLoop pad carry n₁ n₂) =
        (last n₁ + (if n₁.length = n₂.length then last n₂ else pad) + c) % wordMod := by
  induction n₁ generalizing n₂ carry with
  | nil => exact absurd rfl hn
  | cons x xs ih =>
    obtain ⟨hx, hxs⟩ := List.forall_mem_cons.mp h₁
    -- the first word of the other number, and the rest of it
    obtain ⟨y, ys, hy, hys, hle, hend, hgo, hloop⟩ : ∃ y ys, y < wordMod ∧ Words ys ∧
        ys.length ≤ xs.length ∧ (xs = [] → y = if 1 = n₂.length then last n₂ else pad) ∧
        (xs ≠ [] → (if xs.length = ys.length then last ys else pad) =
          if xs.length + 1 = n₂.length then last n₂ else pad) ∧
        addLoop pad carry (x :: xs) n₂ = (x + y + carry) % wordMod ::
          addLoop pad ((x + y + carry) / wordMod) xs ys := by
      cases n₂ with
      | nil =>
        refine ⟨pad, [], hpad, by simp [Words], Nat.zero_le _, fun _ => by simp, fun h => ?_, ?_⟩
        · have := List.length_pos_iff.mpr h
          rw [if_neg (by simpa using h), if_neg (by simp)]
        · rw [addLoop, addStep_eq hc hx hpad]
      | cons y ys =>
        obtain ⟨hy, hys⟩ := List.forall_mem_cons.mp h₂
        rw [List.length_cons, List.length_cons] at hlen
        refine ⟨y, ys, hy, hys, by omega, ?_, fun h => ?_, ?_⟩
        · rintro rfl
          obtain rfl : ys = [] := List.length_eq_zero_iff.mp (by simpa using hlen)
          simp [last]
        · rw [List.length_cons]
          by_cases heq : xs.length = ys.length
          · rw [if_pos heq, if_pos (by omega), last_cons]
            rw [← List.length_pos_iff] at h ⊢
            omega
          · rw [if_neg heq, if_neg (by omega)]
        · rw [addLoop, addStep_eq hc hx hy]
    rw [hloop]
    have hlt : (x + y + carry) % wordMod < wordMod := Nat.mod_lt _ (by decide)
    by_cases h0 : xs = []
    · subst h0
      refine ⟨rfl, Words.cons hlt (by simp [Words, addLoop]), carry, hc, ?_⟩
      rw [show addLoop pad ((x + y + carry) / wordMod) [] ys = [] from rfl, hend rfl]
      rfl
    · obtain ⟨h1, h2, c, h3, h4⟩ := ih h0 hle hxs hys (addStep_carry hc hx hy)
      have hne : addLoop pad ((x + y + carry) / wordMod) xs ys ≠ [] := by
        rw [← List.length_pos_iff, h1]
        exact List.length_pos_iff.mpr h0
      refine ⟨by rw [List.length_cons, h1, List.length_cons], h2.cons hlt, c, h3, ?_⟩
      rw [last_cons hne, h4, hgo h0, last_cons h0, List.length_cons]

lemma sign_shift (h : s = 0 ∨ s = ones) :
    (s >>> 63 ≠ 0 ↔ s = ones) ∧ (s >>> 63 = 0 ↔ s = 0) := by
  rcases h with rfl | rfl <;> decide

lemma addOrdered_wellFormed (h₁ : WellFormed n₁) (h₂ : WellFormed n₂)
    (hlen : n₂.length ≤ n₁.length) : WellFormed (addOrdered n₁ n₂) := by
  have hne : n₁ ≠ [] := by
    rintro rfl
    simpa using h₁.size
  have hpad : (if last n₂ >>> 63 ≠ 0 then ones else 0) = last n₂ := by
    rcases h₂.sign with h | h <;> rw [h] <;> rfl
  have hlt : last n₂ < wordMod := h₂.words.getD _
  obtain ⟨hl, hw, c, hc, hlast⟩ := addLoop_last hne hlen h₁.words h₂.words hlt
    (Nat.zero_le 1)
  rw [ite_id] at hlast
  rw [addOrdered, hpad]
  generalize addLoop (last n₂) 0 n₁ n₂ = result at hl hw hlast
  obtain ⟨xs, hxs⟩ := exists_concat (n := result) (by
    rintro rfl
    have := h₁.size
    simp at hl
    omega)
  have hsize := h₁.size
  simp only [(sign_shift h₁.sign).1, (sign_shift h₂.sign).1, (sign_shift h₁.sign).2,
    (sign_shift h₂.sign).2]
  split_ifs with hneg hpos
  · exact wellFormed_concat.mpr ⟨hw, by rw [hxs]; simp, .inr rfl⟩
  · exact wellFormed_concat.mpr ⟨hw, by rw [hxs]; simp, .inl rfl⟩
  · -- the sign words add up to a sign word
    have hsgn : last result = 0 ∨ last result = ones := by
      rcases h₁.sign with hs₁ | hs₁ <;> rcases h₂.sign with hs₂ | hs₂ <;>
        rw [hs₁, hs₂] at hlast hneg hpos
      · left
        by_contra h0
        exact hpos ⟨rfl, rfl, h0⟩
      · unfold ones wordMod at *
        omega
      · unfold ones wordMod at *
        omega
      · right
        by_contra h0
        exact hneg ⟨rfl, rfl, h0⟩
    exact trim_wellFormed hw (by omega) hsgn hsgn

lemma numAdd_wellFormed (h₁ : WellFormed n₁) (h₂ : WellFormed n₂) : WellFormed (numAdd n₁ n₂) := by
  rw [numAdd]
  split_ifs with h
  · exact addOrdered_wellFormed h₂ h₁ h.le
  · exact addOrdered_wellFormed h₁ h₂ (not_lt.mp h)

/-! ### Multiplication -/

lemma wshl_lt (x k : ℕ) : wshl x k < wordMod := Nat.mod_lt _ (by decide)

lemma or_lt (hx : x < wordMod) (hy : y < wordMod) : x ||| y < wordMod :=
  Nat.or_lt_two_pow hx hy

lemma shiftRight_lt {k : ℕ} (hx : x < wordMod) : x >>> k < wordMod :=
  lt_of_le_of_lt (Nat.shiftRight_le x k) hx

/-- A row is added to the words it covers, and leaves the others as they are. -/
lemma mulRow_spec (nsh : ℕ) {prev : ℕ} {res : List ℕ} (hn : Words n) (hr : Words res)
    (hp : prev < wordMod) (hc : carry ≤ 1) :
    (mulRow nsh carry prev n res).length = res.length ∧ Words (mulRow nsh carry prev n res) ∧
      ∀ i, n.length ≤ i → (mulRow nsh carry prev n res).getD i 0 = res.getD i 0 := by
  induction n generalizing carry prev res with
  | nil => cases res <;> exact ⟨rfl, hr, fun i _ => rfl⟩
  | cons x xs ih =>
    cases res with
    | nil => exact ⟨rfl, hr, fun i _ => rfl⟩
    | cons r rs =>
      obtain ⟨hx, hxs⟩ := List.forall_mem_cons.mp hn
      obtain ⟨hr, hrs⟩ := List.forall_mem_cons.mp hr
      have hy : (if nsh ≠ 0 then prev >>> (64 - nsh) else 0) ||| wshl x nsh < wordMod := by
        refine or_lt ?_ (wshl_lt _ _)
        split_ifs
        · exact shiftRight_lt hp
        · decide
      rw [mulRow, addStep_eq hc hr hy]
      obtain ⟨h1, h2, h3⟩ := ih hxs hrs hx (addStep_carry hc hr hy)
      refine ⟨congrArg Nat.succ h1, h2.cons (Nat.mod_lt _ (by decide)), fun i hi => ?_⟩
      cases i with
      | zero => simp at hi
      | succ i => exact h3 i (by simpa using hi)

/-- What the loops of `num_mul` keep: the length, and the words from the index `j` on. -/
structure Keeps (j : ℕ) (res res' : List ℕ) : Prop where
  length : res'.length = res.length
  words : Words res'
  high : ∀ i, j ≤ i → res'.getD i 0 = res.getD i 0

lemma Keeps.trans {j : ℕ} {a b c : List ℕ} (h : Keeps j a b) (h' : Keeps j b c) : Keeps j a c :=
  ⟨h'.length.trans h.length, h'.words, fun i hi => (h'.high i hi).trans (h.high i hi)⟩

lemma mulBits_keeps (nsh : ℕ) {i j k : ℕ} {res : List ℕ} (hn : Words n) (hr : Words res)
    (hj : i + n.length ≤ j) (hi : i ≤ res.length) : Keeps j res (mulBits n i k nsh x res) := by
  induction k generalizing nsh x res with
  | zero => exact ⟨rfl, hr, fun _ _ => rfl⟩
  | succ k ih =>
    rw [mulBits]
    split_ifs with h0 h1
    · obtain ⟨h2, h3, h4⟩ := mulRow_spec nsh hn
        (fun w hw => hr w (List.mem_of_mem_drop hw) : Words (res.drop i)) (by decide : 0 < wordMod)
        (Nat.zero_le 1)
      have hlen : (res.take i).length = i := List.length_take_of_le hi
      have hkeeps : Keeps j res (res.take i ++ mulRow nsh 0 0 n (res.drop i)) := by
        refine ⟨?_, .append (fun w hw => hr w (List.mem_of_mem_take hw)) h3, fun l hl => ?_⟩
        · rw [List.length_append, h2, hlen, List.length_drop]
          omega
        · rw [List.getD_append_right _ _ _ _ (by omega), h4 _ (by omega), hlen,
            List.getD_eq_getElem?_getD, List.getD_eq_getElem?_getD, List.getElem?_drop,
            Nat.add_sub_cancel' (by omega)]
      exact hkeeps.trans (ih _ hkeeps.words (by rw [hkeeps.length]; exact hi))
    · exact ih _ hr hi
    · exact ⟨rfl, hr, fun _ _ => rfl⟩

lemma mulWords_keeps {i j : ℕ} (xs : List ℕ) {res : List ℕ} (hn : Words n) (hr : Words res)
    (hj : i + xs.length + n.length ≤ j + 1) (hi : i + xs.length ≤ res.length) :
    Keeps j res (mulWords n i xs res) := by
  induction xs generalizing i res with
  | nil => exact ⟨rfl, hr, fun _ _ => rfl⟩
  | cons x xs ih =>
    rw [List.length_cons] at hj hi
    have h := mulBits_keeps 0 (k := 64) (x := x) hn hr (j := j) (by omega) (i := i)
      (by omega)
    rw [mulWords]
    exact h.trans (ih h.words (by omega) (by rw [h.length]; omega))

lemma sign_xor {t : ℕ} (hs : s = 0 ∨ s = ones) (ht : t = 0 ∨ t = ones) :
    s ^^^ t = 0 ∨ s ^^^ t = ones := by
  rcases hs with rfl | rfl <;> rcases ht with rfl | rfl <;> decide

lemma negated_spec (hn : Words n) (q : Prop) [Decidable q] :
    Words (if q then numNegate n else n) ∧ (if q then numNegate n else n).length = n.length := by
  split_ifs
  · exact ⟨words_numNegate, length_numNegate⟩
  · exact ⟨hn, rfl⟩

lemma mulOrdered_wellFormed {same : Bool} (h₁ : WellFormed n₁) (h₂ : WellFormed n₂)
    (hs : same = true → n₁ = n₂) : WellFormed (mulOrdered same n₁ n₂) := by
  have hsize₁ := h₁.size
  have hsize₂ := h₂.size
  rw [mulOrdered]
  dsimp only
  by_cases h0 : (n₁.length = 2 ∧ n₁.getD 0 0 = 0) ∨ (n₁.length = 2 ∧ n₁.getD 0 0 = 0)
  · rw [if_pos h0]
    decide
  rw [if_neg h0]
  -- the operands, negated once or twice
  set a := if last n₁ ≠ 0 then numNegate n₁ else n₁
  obtain ⟨hwa, hla⟩ := negated_spec h₁.words (last n₁ ≠ 0)
  set b := if same = true then a else n₂
  have hwb : Words b ∧ b.length = n₂.length := by
    cases same with
    | true =>
      rw [← hs rfl]
      exact ⟨hwa, hla⟩
    | false => exact ⟨h₂.words, rfl⟩
  obtain ⟨hwb', hlb⟩ := negated_spec hwb.1 (last n₂ ≠ 0)
  set m₂ := if last n₂ ≠ 0 then numNegate b else b
  set m₁ := if same = true then m₂ else a
  have hwm : Words m₁ ∧ m₁.length = n₁.length := by
    cases same with
    | true =>
      rw [hs rfl]
      exact ⟨hwb', hlb.trans hwb.2⟩
    | false => exact ⟨hwa, hla⟩
  have hlen₂ : (m₂.take (n₂.length - 1)).length = n₂.length - 1 :=
    List.length_take_of_le (by rw [hlb, hwb.2]; omega)
  have hzero : Words (List.replicate (n₁.length + n₂.length - 1) 0) := fun w hw => by
    rw [List.eq_of_mem_replicate hw]
    decide
  have hkeeps := mulWords_keeps (i := 0) (j := n₁.length + n₂.length - 2)
    (m₂.take (n₂.length - 1)) hwm.1 hzero
    (by rw [hlen₂, hwm.2]; omega) (by rw [hlen₂, List.length_replicate]; omega)
  generalize mulWords m₁ 0 (m₂.take (n₂.length - 1)) _ = res at hkeeps
  have hlen := hkeeps.length
  rw [List.length_replicate] at hlen
  -- no row covers the last word
  have hlast : last res = 0 := by
    rw [last, hlen, show n₁.length + n₂.length - 1 - 1 = n₁.length + n₂.length - 2 by omega,
      hkeeps.high _ le_rfl, List.getD_replicate _ (by omega)]
  have hwf : WellFormed res := ⟨hkeeps.words, by omega, .inl hlast⟩
  have hneg : last (numNegate res) = 0 ∨ last (numNegate res) = ones :=
    ((numNegate_wellFormed hwf).mpr fun h => by
      rw [Lowest, hlast] at h
      exact absurd h.1 (by decide)).sign
  split_ifs
  · exact trim_wellFormed words_numNegate (by rw [length_numNegate]; omega)
      (sign_xor h₁.sign h₂.sign) hneg
  · exact trim_wellFormed hkeeps.words (by omega) (sign_xor h₁.sign h₂.sign) (.inl hlast)

lemma numMul_wellFormed {same : Bool} (h₁ : WellFormed n₁) (h₂ : WellFormed n₂)
    (hs : same = true → n₁ = n₂) : WellFormed (numMul same n₁ n₂) := by
  rw [numMul]
  split_ifs with h
  · exact mulOrdered_wellFormed h₂ h₁ fun h => (hs h).symm
  · exact mulOrdered_wellFormed h₁ h₂ hs

/-! ### Shifts -/

/-- The words of an object and of the memory behind it. -/
def Bounded (c : ℕ → ℕ) : Prop := ∀ i, c i < wordMod

lemma Bounded.update (h : Bounded c) (i : ℕ) (hx : x < wordMod) :
    Bounded (Function.update c i x) := by
  intro j
  rw [Function.update_apply]
  split_ifs
  · exact hx
  · exact h j

lemma bounded_words {junk : ℕ → ℕ} (hn : Words n) (hj : Bounded junk) : Bounded (words n junk) := by
  intro i
  rw [words]
  split_ifs
  · exact hn.getD i
  · exact hj i

lemma object_wellFormed {size : ℕ} (hc : Bounded c) (hs : 2 ≤ size)
    (hl : c (size - 1) = 0 ∨ c (size - 1) = ones) : WellFormed (object c size) := by
  refine ⟨fun w hw => ?_, by simpa [object] using hs, ?_⟩
  · obtain ⟨i, -, rfl⟩ := List.mem_map.mp hw
    exact hc i
  · have hlast : last (object c size) = c (size - 1) := by
      rw [last, object, List.length_map, List.length_range, List.getD_eq_getElem _ _ (by simp; omega)]
      simp
    rwa [hlast]

/-- Above a word `0`, trimming ends with a sign word. -/
lemma trimZeroes_spec (size : ℕ) (hs : 2 ≤ size) (h0 : c (size - 1) = 0) :
    2 ≤ trimZeroes c size ∧ trimZeroes c size ≤ size ∧
      (c (trimZeroes c size - 1) = 0 ∨ c (trimZeroes c size - 1) = ones) := by
  obtain ⟨h1, h2, h3⟩ := trimLoop_spec (· = 0) c (size - 1)
  rw [trimZeroes]
  generalize trimLoop (· = 0) c (size - 1) = i at h1 h2 h3
  have hi : c i = 0 := by
    rcases h3 with rfl | h3
    · exact h0
    · exact of_decide_eq_true h3
  split_ifs with h
  · exact ⟨by omega, by omega, .inr h.2.2⟩
  · exact ⟨by omega, by omega, .inl hi⟩

lemma shiftLeftLoop_bounded {div mod k : ℕ} (hc : Bounded c) :
    Bounded (shiftLeftLoop div mod k c) := by
  induction k generalizing c with
  | zero => exact hc
  | succ k ih => exact ih (hc.update _ (or_lt (shiftRight_lt (hc k)) (wshl_lt _ _)))

lemma moveUpLoop_spec (div : ℕ) {k : ℕ} (hc : Bounded c) : Bounded (moveUpLoop div k c) ∧
    ∀ j, k + div ≤ j → moveUpLoop div k c j = c j := by
  induction k generalizing c with
  | zero => exact ⟨hc, fun _ _ => rfl⟩
  | succ k ih =>
    obtain ⟨h1, h2⟩ := ih (hc.update (k + div) (hc k))
    refine ⟨h1, fun j hj => ?_⟩
    rw [moveUpLoop, h2 j (by omega), Function.update_of_ne (by omega)]

lemma numShiftLeft_wellFormed {size shf : ℕ} (hc : Bounded c) (hs : 2 ≤ size)
    (hsgn : c (size - 1) = 0 ∨ c (size - 1) = ones) : WellFormed (numShiftLeft c size shf) := by
  rw [numShiftLeft]
  dsimp only
  -- the lowest words are cleared after the trimming
  have hclear : ∀ {c : ℕ → ℕ} {size : ℕ}, Bounded c → 2 ≤ size →
      (c (size - 1) = 0 ∨ c (size - 1) = ones) →
        WellFormed (object (fun i => if i < shf / 64 then 0 else c i) size) := by
    intro c size hc hs hl
    refine object_wellFormed (fun i => ?_) hs ?_
    · split_ifs
      · decide
      · exact hc i
    · split_ifs
      · exact .inl rfl
      · exact hl
  by_cases hmod : shf % 64 ≠ 0
  · rw [if_pos hmod]
    set c₁ := Function.update (shiftLeftLoop (shf / 64) (shf % 64) (size - 1) c) (shf / 64)
      (wshl (shiftLeftLoop (shf / 64) (shf % 64) (size - 1) c 0) (shf % 64))
    have hc₁ : Bounded c₁ := (shiftLeftLoop_bounded hc).update _ (wshl_lt _ _)
    set c₂ := Function.update c₁ (size + shf / 64) (c (size - 1) >>> (64 - shf % 64)) with hc₂
    have hb₂ : Bounded c₂ := hc₁.update _ (shiftRight_lt (hc _))
    by_cases h0 : c (size - 1) ≠ 0
    · rw [if_pos h0]
      dsimp only
      obtain ⟨h1, -, h2⟩ := trimZeroes_spec (size + shf / 64 + 2)
        (c := Function.update c₂ (size + shf / 64 + 1) 0) (by omega) (Function.update_self _ _ _)
      exact hclear (hb₂.update _ (by decide)) h1 h2
    · rw [if_neg h0]
      dsimp only
      obtain ⟨h1, -, h2⟩ := trimZeroes_spec (size + shf / 64 + 1) (c := c₂) (by omega) (by
        rw [Nat.add_sub_cancel, hc₂, Function.update_self, not_not.mp h0, Nat.zero_shiftRight])
      exact hclear hb₂ h1 h2
  · rw [if_neg hmod]
    dsimp only
    obtain ⟨k, rfl⟩ : ∃ k, size = k + 1 := ⟨size - 1, by omega⟩
    obtain ⟨h1, h2⟩ := moveUpLoop_spec (shf / 64) (k := k) (hc.update (k + shf / 64) (hc k))
    refine hclear h1 (by omega) ?_
    rw [show k + 1 + shf / 64 - 1 = k + shf / 64 by omega, moveUpLoop, h2 _ le_rfl,
      Function.update_self]
    exact hsgn

lemma shiftRightLoop_bounded {div mod k i : ℕ} (hc : Bounded c) :
    Bounded (shiftRightLoop div mod k i c) := by
  induction k generalizing i c with
  | zero => exact hc
  | succ k ih => exact ih (hc.update _ (or_lt (shiftRight_lt (hc _)) (wshl_lt _ _)))

lemma moveDownLoop_spec (div : ℕ) {k i : ℕ} (hc : Bounded c) : Bounded (moveDownLoop div k i c) ∧
    (∀ j < i, moveDownLoop div k i c j = c j) ∧
      ∀ j, i ≤ j → j < i + k → moveDownLoop div k i c j = c (j + div) := by
  induction k generalizing i c with
  | zero => exact ⟨hc, fun _ _ => rfl, fun j h1 h2 => by omega⟩
  | succ k ih =>
    obtain ⟨h1, h2, h3⟩ := ih (i := i + 1) (hc.update i (hc (i + div)))
    refine ⟨h1, fun j hj => ?_, fun j hj hj' => ?_⟩
    · rw [moveDownLoop, h2 j (by omega), Function.update_of_ne (by omega)]
    · rw [moveDownLoop]
      rcases hj.eq_or_lt with rfl | hlt
      · rw [h2 i (by omega), Function.update_self]
      · rw [h3 j hlt (by omega), Function.update_of_ne (by omega)]

/-- A shift to the right by all the words but one leaves only one. -/
lemma numShiftRight_wellFormed {size shf : ℕ} (hc : Bounded c) (hs : 2 ≤ size)
    (hsgn : c (size - 1) = 0 ∨ c (size - 1) = ones) (h0 : shf ≠ 0) :
    WellFormed (numShiftRight c size shf) ↔ shf ≠ 64 * (size - 1) := by
  rw [numShiftRight]
  dsimp only
  by_cases hbig : size * 64 ≤ shf
  · rw [if_pos hbig]
    exact iff_of_true (by decide) (by omega)
  rw [if_neg hbig]
  by_cases hmod : shf % 64 ≠ 0
  · rw [if_pos hmod]
    refine iff_of_true ?_ (by omega)
    set c₁ := Function.update (shiftRightLoop (shf / 64) (shf % 64) (size - shf / 64 - 1) 0 c)
      (size - shf / 64 - 1) (c (size - 1) >>> (shf % 64)) with hc₁
    have hb₁ : Bounded c₁ := (shiftRightLoop_bounded hc).update _ (shiftRight_lt (hc _))
    by_cases hsg : c (size - 1) ≠ 0 ∨ size - 1 ≤ shf / 64
    · rw [if_pos hsg]
      dsimp only
      have hb₂ : Bounded (Function.update c₁ (size - shf / 64) 0) := hb₁.update _ (by decide)
      obtain ⟨h1, -, h2⟩ := trimZeroes_spec (size - shf / 64 + 1)
        (c := Function.update c₁ (size - shf / 64) 0) (by omega) (Function.update_self _ _ _)
      exact object_wellFormed hb₂ h1 h2
    · rw [if_neg hsg]
      dsimp only
      rw [not_or, not_not] at hsg
      obtain ⟨h1, -, h2⟩ := trimZeroes_spec (size - shf / 64) (c := c₁) (by omega) (by
        rw [hc₁, Function.update_self, hsg.1, Nat.zero_shiftRight])
      exact object_wellFormed hb₁ h1 h2
  · rw [if_neg hmod, if_pos (by omega)]
    obtain ⟨h1, -, h2⟩ := moveDownLoop_spec (shf / 64) (k := size - shf / 64) (i := 0) hc
    by_cases heq : shf = 64 * (size - 1)
    · refine iff_of_false (fun h => ?_) (not_not.mpr heq)
      have := h.size
      rw [object, List.length_map, List.length_range] at this
      omega
    · refine iff_of_true (object_wellFormed h1 (by omega) ?_) heq
      rw [h2 _ (Nat.zero_le _) (by omega),
        show size - shf / 64 - 1 + shf / 64 = size - 1 by omega]
      exact hsgn

lemma words_last {junk : ℕ → ℕ} (h : WellFormed n) :
    words n junk (n.length - 1) = 0 ∨ words n junk (n.length - 1) = ones := by
  have := h.size
  rw [words, if_pos (by omega)]
  exact h.sign

lemma numShift_wellFormed {same : Bool} {junk : ℕ → ℕ} (h₁ : WellFormed n₁) (h₂ : WellFormed n₂)
    (hj : Bounded junk) (hs : same = true → n₁ = n₂) :
    WellFormed (numShift same n₁ n₂ junk) ↔ n₂ ≠ [64 * (n₁.length - 1), 0] := by
  have hsize₁ := h₁.size
  have hsize₂ := h₂.size
  rw [numShift]
  by_cases h0 : n₂.length ≤ 2 ∧ n₂.getD 0 0 = 0
  · rw [if_pos h0]
    refine iff_of_true h₁ ?_
    rintro rfl
    simp at h0
    omega
  rw [if_neg h0]
  by_cases h2 : 2 < n₂.length
  · rw [if_pos h2]
    refine iff_of_true h₁ ?_
    rintro rfl
    simp at h2
  rw [if_neg h2]
  obtain ⟨x, s, rfl⟩ := List.length_eq_two.mp (by omega : n₂.length = 2)
  have hx : x ≠ 0 := fun hx => h0 ⟨le_rfl, hx⟩
  have hlast : last [x, s] = s := rfl
  rw [hlast]
  by_cases hsgn : s ≠ 0
  · rw [if_pos hsgn]
    refine iff_of_true ?_ (by simpa using fun _ => hsgn)
    dsimp only
    have hneg : WellFormed (numNegate [x, s]) := (numNegate_wellFormed h₂).mpr fun h => hx (by
      simpa using h.2)
    cases same with
    | true => exact numShiftLeft_wellFormed (bounded_words hneg.words hj) hneg.size (words_last hneg)
    | false => exact numShiftLeft_wellFormed (bounded_words h₁.words hj) hsize₁ (words_last h₁)
  · rw [if_neg hsgn, show [x, s].getD 0 0 = x from rfl,
      numShiftRight_wellFormed (bounded_words h₁.words hj) hsize₁ (words_last h₁) hx]
    rw [not_not.mp hsgn]
    simp

/-! ### Bits -/

lemma words_zipWith {f : ℕ → ℕ → ℕ} (hf : ∀ x < wordMod, ∀ y < wordMod, f x y < wordMod)
    (h₁ : Words n₁) (h₂ : Words n₂) : Words (List.zipWith f n₁ n₂) := by
  intro w hw
  obtain ⟨i, hi, rfl⟩ := List.getElem_of_mem hw
  rw [List.getElem_zipWith]
  exact hf _ (h₁ _ (List.getElem_mem _)) _ (h₂ _ (List.getElem_mem _))

lemma numAnd_wellFormed (h₁ : WellFormed n₁) (h₂ : WellFormed n₂) : WellFormed (numAnd n₁ n₂) := by
  have hsize₁ := h₁.size
  have hsize₂ := h₂.size
  have hlen : (List.zipWith (· &&& ·) n₁ n₂).length = min n₁.length n₂.length :=
    List.length_zipWith
  have hw := words_zipWith (f := (· &&& ·))
    (fun x hx y _ => lt_of_le_of_lt Nat.and_le_left hx) h₁.words h₂.words
  rw [numAnd]
  generalize List.zipWith (· &&& ·) n₁ n₂ = xs at hlen hw
  obtain ⟨h1, h2, h3⟩ := trimZeroes_spec (xs ++ [0]).length
    (c := fun i => (xs ++ [0]).getD i 0) (by simp; omega) (last_concat xs 0)
  generalize trimZeroes (fun i => (xs ++ [0]).getD i 0) (xs ++ [0]).length = k at h1 h2 h3
  refine ⟨fun w hmem => ?_, by rw [List.length_take]; omega, ?_⟩
  · exact hw.append (by decide : Words [0]) w (List.mem_of_mem_take hmem)
  · obtain ⟨k, rfl⟩ : ∃ j, k = j + 1 := ⟨k - 1, by omega⟩
    rw [last_take (by omega)]
    exact h3

lemma combine_wellFormed {f : ℕ → ℕ → ℕ} (hf : ∀ x < wordMod, ∀ y < wordMod, f x y < wordMod)
    (hs : ∀ x y, (x = 0 ∨ x = ones) → (y = 0 ∨ y = ones) → f x y = 0 ∨ f x y = ones)
    (h₁ : WellFormed n₁) (h₂ : WellFormed n₂) (hle : n₂.length ≤ n₁.length) :
    WellFormed (combine f n₁ n₂) := by
  have hsize := h₂.size
  have hlen : (combine f n₁ n₂).length = n₁.length := by
    rw [combine, List.length_append, List.length_zipWith, List.length_drop]
    omega
  refine ⟨(words_zipWith hf h₁.words h₂.words).append fun w hw => h₁.words w
    (List.mem_of_mem_drop hw), by rw [hlen]; exact h₁.size, ?_⟩
  rw [last, hlen, combine]
  rcases hle.lt_or_eq with hlt | heq
  · rw [List.getD_append_right _ _ _ _ (by rw [List.length_zipWith]; omega), List.length_zipWith,
      List.getD_eq_getElem?_getD, List.getElem?_drop, ← List.getD_eq_getElem?_getD,
      show n₂.length + (n₁.length - 1 - min n₁.length n₂.length) = n₁.length - 1 by omega]
    exact h₁.sign
  · rw [List.getD_append _ _ _ _ (by rw [List.length_zipWith]; omega),
      List.getD_eq_getElem _ _ (by rw [List.length_zipWith]; omega), List.getElem_zipWith]
    refine hs _ _ ?_ ?_
    · rw [← List.getD_eq_getElem _ 0 (by omega)]
      exact h₁.sign
    · rw [← List.getD_eq_getElem _ 0 (by omega), ← heq]
      exact h₂.sign

lemma numOr_wellFormed (h₁ : WellFormed n₁) (h₂ : WellFormed n₂) : WellFormed (numOr n₁ n₂) := by
  have hs : ∀ x y, (x = 0 ∨ x = ones) → (y = 0 ∨ y = ones) → x ||| y = 0 ∨ x ||| y = ones := by
    rintro x y (rfl | rfl) (rfl | rfl) <;> decide
  rw [numOr]
  split_ifs with h
  · exact combine_wellFormed (fun x hx y hy => or_lt hx hy) hs h₁ h₁ le_rfl
  · exact combine_wellFormed (fun x hx y hy => or_lt hx hy) hs h₁ h₂ (not_lt.mp h)

lemma numXor_wellFormed (h₁ : WellFormed n₁) (h₂ : WellFormed n₂) : WellFormed (numXor n₁ n₂) := by
  have hf : ∀ x < wordMod, ∀ y < wordMod, x ^^^ y < wordMod := fun x hx y hy =>
    Nat.xor_lt_two_pow hx hy
  rw [numXor]
  split_ifs with h
  · exact combine_wellFormed hf (fun x y => sign_xor) h₁ h₁ le_rfl
  · exact combine_wellFormed hf (fun x y => sign_xor) h₁ h₂ (not_lt.mp h)

lemma numNot_wellFormed (h : WellFormed n) : WellFormed (numNot n) := by
  have hsize := h.size
  refine ⟨fun w hw => ?_, by simpa [numNot] using hsize, ?_⟩
  · obtain ⟨x, -, rfl⟩ := List.mem_map.mp hw
    exact wnot_lt x
  · have hlast : last (numNot n) = wnot (last n) := by
      rw [last, last, numNot, List.length_map, List.getD_eq_getElem _ _ (by simp; omega),
        List.getElem_map, List.getD_eq_getElem _ _ (by omega)]
    rw [hlast]
    rcases h.sign with h | h <;> rw [h] <;> decide

/-! ### Strings -/

lemma digitOf_lt {d : ℕ} (h : digitOf x = some d) : d < 16 := by
  unfold digitOf at h
  split_ifs at h <;> simp only [Option.some.injEq] at h <;> omega

lemma digitsLoop_lt {arr : List ℕ} {w : ℕ} (hx : x < wordMod) (h : digitsLoop x arr = some w) :
    w < wordMod := by
  induction arr generalizing x with
  | nil => exact Option.some.inj h ▸ hx
  | cons chr arr ih =>
    obtain ⟨d, hd, h2⟩ := Option.bind_eq_some_iff.mp h
    have hlt : d < wordMod := lt_trans (digitOf_lt hd) (by decide)
    exact ih (or_lt (wshl_lt _ _) hlt) h2

lemma wordsLoop_spec {arr ws : List ℕ} {os k : ℕ} (h : wordsLoop arr os k = some ws) :
    Words ws ∧ ws.length = k := by
  induction k generalizing ws with
  | zero =>
    obtain rfl := Option.some.inj h
    exact ⟨by simp [Words], rfl⟩
  | succ k ih =>
    obtain ⟨current, hcur, h2⟩ := Option.bind_eq_some_iff.mp h
    obtain ⟨ws', h3, rfl⟩ := Option.map_eq_some_iff.mp h2
    obtain ⟨h4, h5⟩ := ih h3
    exact ⟨h4.cons (digitsLoop_lt (by decide) hcur), by rw [List.length_cons, h5]⟩

/-- Before a sign, the words of the digits end with a word `0`. -/
lemma digitsToNum_spec {arr : List ℕ} (h : digitsToNum arr = some n) :
    WellFormed n ∧ last n = 0 := by
  obtain ⟨c, hc, h2⟩ := Option.bind_eq_some_iff.mp h
  obtain ⟨ws, hws, rfl⟩ := Option.map_eq_some_iff.mp h2
  obtain ⟨h3, h4⟩ := wordsLoop_spec hws
  refine ⟨wellFormed_concat.mpr ⟨?_, ?_, .inl rfl⟩, last_concat _ _⟩
  · split_ifs
    · exact h3.append fun w hw => List.mem_singleton.mp hw ▸ digitsLoop_lt (by decide) hc
    · exact h3
  · split_ifs with h5
    · simp
    · rw [← List.length_pos_iff, h4]
      omega

lemma strToNum_wellFormed {str : List ℕ} (h : strToNum str = some n) : WellFormed n := by
  unfold strToNum at h
  split at h
  · cases h
  · split_ifs at h
    · obtain ⟨m, hm, rfl⟩ := Option.map_eq_some_iff.mp h
      obtain ⟨h1, h2⟩ := digitsToNum_spec hm
      refine (numNegate_wellFormed h1).mpr fun h3 => ?_
      rw [Lowest, h2] at h3
      exact absurd h3.1 (by decide)
    · exact (digitsToNum_spec h).1

/-! ### The operations -/

/-- A call of an operation. -/
inductive Call
  | negate (n : List ℕ)
  | add (n₁ n₂ : List ℕ)
  | mul (same : Bool) (n₁ n₂ : List ℕ)
  | shift (same : Bool) (n₁ n₂ : List ℕ) (junk : ℕ → ℕ)
  | and (n₁ n₂ : List ℕ)
  | or (n₁ n₂ : List ℕ)
  | xor (n₁ n₂ : List ℕ)
  | not (n : List ℕ)
  | strToNum (str : List ℕ)

/-- The number that a call returns or leaves behind. -/
def Call.result : Call → Option (List ℕ)
  | negate n => some (numNegate n)
  | add n₁ n₂ => some (numAdd n₁ n₂)
  | mul same n₁ n₂ => some (numMul same n₁ n₂)
  | shift same n₁ n₂ junk => some (numShift same n₁ n₂ junk)
  | and n₁ n₂ => some (numAnd n₁ n₂)
  | or n₁ n₂ => some (numOr n₁ n₂)
  | xor n₁ n₂ => some (numXor n₁ n₂)
  | not n => some (numNot n)
  | strToNum str => Bignum.strToNum str

/-- The operands are well formed; they are equal when they are one object, and the memory consists
of words. -/
def Call.Valid : Call → Prop
  | negate n | not n => WellFormed n
  | add n₁ n₂ | and n₁ n₂ | or n₁ n₂ | xor n₁ n₂ => WellFormed n₁ ∧ WellFormed n₂
  | mul same n₁ n₂ => WellFormed n₁ ∧ WellFormed n₂ ∧ (same = true → n₁ = n₂)
  | shift same n₁ n₂ junk =>
    WellFormed n₁ ∧ WellFormed n₂ ∧ (same = true → n₁ = n₂) ∧ Bounded junk
  | strToNum _ => True

/-- The calls that lose the sign word. -/
def Call.Loses : Call → Prop
  | negate n => Lowest n
  | shift _ n₁ n₂ _ => n₂ = [64 * (n₁.length - 1), 0]
  | _ => False

/-- **The sign word** is kept by every call, except for the negation of the lowest number of its
size and a shift to the right by the bits of all the words but one. -/
theorem wellFormed_iff (call : Call) (h : call.Valid) :
    (∀ n ∈ call.result, WellFormed n) ↔ ¬ call.Loses := by
  have hsome : ∀ m, (∀ n ∈ some m, WellFormed n) ↔ WellFormed m := fun m => by simp
  cases call with
  | negate n => exact (hsome _).trans (numNegate_wellFormed h)
  | add n₁ n₂ => exact iff_of_true ((hsome _).mpr (numAdd_wellFormed h.1 h.2)) id
  | mul same n₁ n₂ => exact iff_of_true ((hsome _).mpr (numMul_wellFormed h.1 h.2.1 h.2.2)) id
  | shift same n₁ n₂ junk =>
    exact (hsome _).trans (numShift_wellFormed h.1 h.2.1 h.2.2.2 h.2.2.1)
  | and n₁ n₂ => exact iff_of_true ((hsome _).mpr (numAnd_wellFormed h.1 h.2)) id
  | or n₁ n₂ => exact iff_of_true ((hsome _).mpr (numOr_wellFormed h.1 h.2)) id
  | xor n₁ n₂ => exact iff_of_true ((hsome _).mpr (numXor_wellFormed h.1 h.2)) id
  | not n => exact iff_of_true ((hsome _).mpr (numNot_wellFormed h)) id
  | strToNum str => exact iff_of_true (fun n hn => strToNum_wellFormed hn) id

/-- The sum of `5` and `-7` -/
theorem wellFormed_add_five :
    (Call.add [5, 0] [wordMod - 7, ones]).result = some [wordMod - 2, ones] ∧
      ∀ n ∈ (Call.add [5, 0] [wordMod - 7, ones]).result, WellFormed n :=
  ⟨by decide, (wellFormed_iff (.add [5, 0] [wordMod - 7, ones]) ⟨by decide, by decide⟩).mpr id⟩

/-- The negation of `-2^64` in two words, and `5` shifted to the right by 64 bits. -/
theorem not_wellFormed :
    (WellFormed [0, ones] ∧ ¬ WellFormed (numNegate [0, ones])) ∧
      WellFormed [5, 0] ∧ WellFormed [64, 0] ∧
        ¬ WellFormed (numShift false [5, 0] [64, 0] fun _ => 0) := by
  decide

end LispMachine.BignumWf
