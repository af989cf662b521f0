import LispMachine.AsmRef

/-!
What the scanner of the assembler does at a token.

A place in the text is given by what follows there. A token is followed by a separator, so a
function that reads a part of it only stops within it, and the next one fails there.
-/

namespace LispMachine.AsmScan

open LispMachine.Memory LispMachine.Asm LispMachine.AsmRef LispMachine.Lib.Tokens

variable {code : List ℕ} {i : ℕ} {s r tok : List ℕ} {d : ℕ}

/-- The text `s` is what follows at the index `i`. -/
def At (code : List ℕ) (i : ℕ) (s : List ℕ) : Prop := i ≤ code.length ∧ code.drop i = s

/-- The characters of a token. -/
def Solid (tok : List ℕ) : Prop := ∀ c ∈ tok, whitespace c = false

/-- The next character is no separator. -/
def Clean (s : List ℕ) : Prop := ∀ c ∈ s.head?, whitespace c = false

lemma At.lt {c : ℕ} (h : At code i (c :: s)) : i < code.length := by
  by_contra hlt
  have := h.2
  rw [List.drop_eq_nil_of_le (by omega)] at this
  simp at this

lemma At.getD {c : ℕ} (h : At code i (c :: s)) : code.getD i 0 = c := by
  rw [List.getD_eq_getElem?_getD, ← Nat.add_zero i, ← List.getElem?_drop, h.2]
  rfl

lemma At.succ {c : ℕ} (h : At code i (c :: s)) : At code (i + 1) s := by
  refine ⟨h.lt, ?_⟩
  rw [← List.tail_drop, h.2]
  rfl

lemma At.append (h : At code i (s ++ r)) : At code (i + s.length) r := by
  induction s generalizing i with
  | nil => exact h
  | cons c s ih =>
    have := ih h.succ
    rwa [List.length_cons, ← Nat.add_assoc, Nat.add_right_comm]

lemma At.nil (h : At code i []) : i = code.length := by
  have := List.drop_eq_nil_iff.mp h.2
  exact le_antisymm h.1 this

lemma At.length_le (h : At code i s) : s.length ≤ code.length := by
  rw [← h.2, List.length_drop]
  omega

/-! ### Skipping -/

lemma skip_spec {p : ℕ → Bool} {n : ℕ} (h : At code i s) (hn : s.length ≤ n) :
    At code (skip code p n i) (s.dropWhile p) ∧ i ≤ skip code p n i := by
  induction n generalizing i s with
  | zero =>
    obtain rfl : s = [] := List.length_eq_zero_iff.mp (by omega)
    exact ⟨h, le_rfl⟩
  | succ n ih =>
    rw [skip]
    cases s with
    | nil =>
      rw [if_neg (by rw [h.nil]; omega)]
      exact ⟨h, le_rfl⟩
    | cons c s =>
      rw [h.getD]
      simp only [h.lt, true_and, List.dropWhile_cons]
      split_ifs with hp
      · obtain ⟨h1, h2⟩ := ih h.succ (by simpa using hn)
        exact ⟨h1, by omega⟩
      · exact ⟨h, le_rfl⟩

lemma ignoreWhitespace_spec (h : At code i s) :
    At code (ignoreWhitespace code i) (s.dropWhile whitespace) ∧
      i ≤ ignoreWhitespace code i :=
  skip_spec h h.length_le

lemma ignoreNonWhitespace_spec (h : At code i s) :
    At code (ignoreNonWhitespace code i) (s.dropWhile fun ch => !whitespace ch) ∧
      i ≤ ignoreNonWhitespace code i :=
  skip_spec h h.length_le

lemma clean_dropWhile (s : List ℕ) : Clean (s.dropWhile whitespace) := by
  intro c hc
  have := List.head?_dropWhile_not whitespace s
  rw [Option.mem_def.mp hc] at this
  simpa using this

lemma Clean.dropWhile (h : Clean s) : s.dropWhile whitespace = s := by
  cases s with
  | nil => rfl
  | cons c s => simp [h c (by simp)]

lemma tokens_dropWhile (s : List ℕ) :
    tokens whitespace (s.dropWhile whitespace) = tokens whitespace s := by
  conv_rhs => rw [← List.takeWhile_append_dropWhile (p := whitespace) (l := s)]
  exact (tokens_seps fun c hc => List.mem_takeWhile_imp hc).symm

lemma Solid.dropWhile (h : Solid tok) (hd : whitespace d = true) :
    (tok ++ d :: r).dropWhile (fun ch => !whitespace ch) = d :: r := by
  rw [List.dropWhile_append_of_pos fun c hc => by simp [h c hc]]
  simp [hd]

lemma expectWhitespace_sep (h : At code i (d :: r)) (hd : whitespace d = true) :
    expectWhitespace code i = (false, ignoreWhitespace code i) := by
  rw [expectWhitespace, h.getD, hd, if_neg]
  have := h.lt
  simp [this]

lemma expectWhitespace_solid {c : ℕ} (h : At code i (c :: s)) (hc : whitespace c = false) :
    expectWhitespace code i = (true, i) := by
  rw [expectWhitespace, h.getD, hc, if_pos (.inr rfl)]

lemma expectWhitespaceOrEnd_sep (h : At code i (d :: r)) (hd : whitespace d = true) :
    expectWhitespaceOrEnd code i = (false, ignoreWhitespace code i) := by
  rw [expectWhitespaceOrEnd, expectWhitespace_sep h hd]
  simp

lemma expectWhitespaceOrEnd_solid {c : ℕ} (h : At code i (c :: s)) (hc : whitespace c = false) :
    expectWhitespaceOrEnd code i = (true, i) := by
  have := h.lt
  rw [expectWhitespaceOrEnd, expectWhitespace_solid h hc]
  simp [this]

lemma expectWhitespaceOrEnd_end (h : At code i []) :
    expectWhitespaceOrEnd code i = (false, i) := by
  have := h.nil
  rw [expectWhitespaceOrEnd, expectWhitespace, if_pos (.inl this.ge)]
  simp [this]

/-! ### Numbers -/

lemma hexDigit_lt {c x : ℕ} (h : hexDigit c = some x) : x < 16 := by
  unfold hexDigit at h
  split_ifs at h <;> simp only [Option.some.injEq] at h <;> omega

lemma hexDigit_sep (hd : whitespace d = true) : hexDigit d = none := by
  simp only [whitespace, Bool.or_eq_true, decide_eq_true_eq] at hd
  rcases hd with ((rfl | rfl) | rfl) | rfl <;> rfl

lemma hexFrom_ge {v w : ℕ} (h : hexFrom v tok = some w) : v ≤ w := by
  induction tok generalizing v with
  | nil => exact (Option.some.inj h).le
  | cons c tok ih =>
    obtain ⟨x, -, h2⟩ := Option.bind_eq_some_iff.mp h
    have := ih h2
    omega

/-- The digits are read up to the end of the token, or to a place within it. -/
lemma hexLoop_spec (maxVal : ℕ) {n v : ℕ} (h : At code i (tok ++ d :: r)) (hd : hexDigit d = none)
    (hv : v < 16 ^ (16 - n)) (hn : n ≤ 16) :
    (∃ w, hexFrom v tok = some w ∧ tok.length ≤ n ∧ w ≤ max v maxVal ∧
      hexLoop code maxVal n i v = some (i + tok.length, w)) ∨
    (∀ w, hexFrom v tok = some w → n < tok.length ∨ maxVal < w) ∧
      (hexLoop code maxVal n i v = none ∨
        ∃ k w, k < tok.length ∧ hexLoop code maxVal n i v = some (i + k, w)) := by
  induction n generalizing i v tok with
  | zero =>
    cases tok with
    | nil => exact .inl ⟨v, rfl, by simp, by simp, rfl⟩
    | cons c tok => exact .inr ⟨fun w _ => .inl (by simp), .inr ⟨0, v, by simp, rfl⟩⟩
  | succ n ih =>
    cases tok with
    | nil =>
      refine .inl ⟨v, rfl, by simp, by simp, ?_⟩
      rw [List.nil_append] at h
      rw [hexLoop, if_pos h.lt, h.getD, hd]
      rfl
    | cons c tok =>
      rw [List.cons_append] at h
      rw [hexLoop, if_pos h.lt, h.getD]
      cases hc : hexDigit c with
      | none =>
        refine .inr ⟨fun w hw => ?_, .inr ⟨0, v, by simp, rfl⟩⟩
        simp [hexFrom, hc] at hw
      | some x =>
        have hx := hexDigit_lt hc
        have hpow : 16 ^ (16 - n) = 16 * 16 ^ (16 - (n + 1)) := by
          rw [show 16 - n = 16 - (n + 1) + 1 by omega, Nat.pow_succ, Nat.mul_comm]
        have hle : 16 ^ (16 - n) ≤ 16 ^ 16 := Nat.pow_le_pow_right (by omega) (by omega)
        -- the digit is put below the others
        have hshift : wshl v 4 ||| x = 16 * v + x := by
          have h16 : (16 : ℕ) ^ 16 = wordMod := by decide
          rw [wshl, Nat.shiftLeft_eq, Nat.mod_eq_of_lt (by omega), Nat.mul_comm]
          exact (Nat.two_pow_add_eq_or_of_lt (i := 4) hx v).symm
        have hfrom : hexFrom v (c :: tok) = hexFrom (16 * v + x) tok := by simp [hexFrom, hc]
        dsimp only
        rw [hshift, hfrom]
        by_cases hmax : maxVal < 16 * v + x
        · rw [if_pos hmax]
          exact .inr ⟨fun w hw => .inr (lt_of_lt_of_le hmax (hexFrom_ge hw)), .inl rfl⟩
        · rw [if_neg hmax, List.length_cons]
          rcases ih (v := 16 * v + x) h.succ (by omega) (by omega) with
            ⟨w, h1, h2, h3, h4⟩ | ⟨h1, h2⟩
          · refine .inl ⟨w, h1, by omega, by omega, ?_⟩
            rw [h4, Nat.add_assoc, Nat.add_comm 1]
          · refine .inr ⟨fun w hw => (h1 w hw).imp_left (by omega), h2.imp_right ?_⟩
            rintro ⟨k, w, hk, h3⟩
            exact ⟨k + 1, w, by omega, by rw [h3, Nat.add_assoc, Nat.add_comm 1]⟩

/-- A number is read as a whole, or the index stays within the token. -/
lemma expectHexFromStr_spec (maxVal : ℕ) (h : At code i (tok ++ d :: r))
    (hd : whitespace d = true) :
    (∃ v, hexNum tok = some v ∧ v ≤ maxVal ∧
      expectHexFromStr code i maxVal = (false, i + tok.length, v)) ∨
    (∀ v, hexNum tok = some v → maxVal < v) ∧
      ∃ e k v, expectHexFromStr code i maxVal = (e, i + k, v) ∧
        (e = true ∧ k = 0 ∨ e = false ∧ k < tok.length) := by
  rw [expectHexFromStr]
  rcases hexLoop_spec maxVal (n := 16) (v := 0) h (hexDigit_sep hd) (by simp) le_rfl
    with ⟨w, h1, h2, h3, h4⟩ | ⟨h1, h2⟩
  · rw [h4]
    by_cases h0 : tok.length = 0
    · refine .inr ⟨fun v hv => ?_, true, 0, 0, by simp [h0], .inl ⟨rfl, rfl⟩⟩
      simp [hexNum, h0] at hv
    · refine .inl ⟨w, ?_, by omega, ?_⟩
      · rw [hexNum, if_neg (by omega)]
        exact h1
      · dsimp only
        rw [if_neg (by omega)]
  · refine .inr ⟨fun v hv => ?_, ?_⟩
    · rw [hexNum] at hv
      split_ifs at hv with hlen
      exact (h1 v hv).resolve_left (by omega)
    · rcases h2 with h2 | ⟨k, w, hk, h2⟩
      · exact ⟨true, 0, 0, by rw [h2]; rfl, .inl ⟨rfl, rfl⟩⟩
      · rw [h2]
        dsimp only
        by_cases h0 : k = 0
        · exact ⟨true, 0, 0, by simp [h0], .inl ⟨rfl, rfl⟩⟩
        · exact ⟨false, k, w, by rw [if_neg (by omega)], .inr ⟨rfl, hk⟩⟩

/-- The next character, within a token or at its end. -/
lemma At.within (h : At code i (tok ++ d :: r)) {k : ℕ} (hk : k < tok.length) :
    ∃ c s, At code (i + k) (c :: s) ∧ c ∈ tok ∧ c :: s = tok.drop k ++ d :: r := by
  have hsplit : tok = tok.take k ++ tok.drop k := (List.take_append_drop k tok).symm
  have hlen : (tok.take k).length = k := by simp; omega
  obtain ⟨c, t, ht⟩ : ∃ c t, tok.drop k = c :: t :=
    List.exists_cons_of_ne_nil (by simp; omega)
  refine ⟨c, t ++ d :: r, ?_, List.mem_of_mem_drop (i := k) (by simp [ht]), by simp [ht]⟩
  rw [hsplit, ht, List.append_assoc] at h
  have := h.append
  rwa [hlen] at this

/-- What follows the separator. -/
def next (d : ℕ) (r : List ℕ) : List ℕ := (d :: r).dropWhile whitespace

/-- A number that should be followed by a separator or the end of the text: it is the whole
token, or this fails. -/
lemma hexToken_spec (maxVal : ℕ) (h : At code i (tok ++ d :: r)) (hs : Solid tok)
    (hd : whitespace d = true) {e₁ e₂ : Bool} {i₁ i₂ output : ℕ}
    (h₁ : expectHexFromStr code i maxVal = (e₁, i₁, output))
    (h₂ : expectWhitespaceOrEnd code i₁ = (e₂, i₂)) :
    (e₁ || e₂) = false ∧ hexNum tok = some output ∧ output ≤ maxVal ∧ At code i₂ (next d r) ∧
        i ≤ i₂ ∨
    (e₁ || e₂) = true ∧ (∀ v, hexNum tok = some v → maxVal < v) ∧
      (tok = [] ∧ At code i₂ (next d r) ∧ i ≤ i₂ ∨ ∃ k < tok.length, i₂ = i + k) := by
  rcases expectHexFromStr_spec maxVal h hd with ⟨v, h3, h4, h5⟩ | ⟨h3, e, k, v, h4, h5⟩
  · rw [h5] at h₁
    simp only [Prod.mk.injEq] at h₁
    obtain ⟨rfl, rfl, rfl⟩ := h₁
    rw [expectWhitespaceOrEnd_sep h.append hd] at h₂
    obtain ⟨rfl, rfl⟩ := Prod.mk.inj h₂
    obtain ⟨h6, h7⟩ := ignoreWhitespace_spec h.append
    exact .inl ⟨rfl, h3, h4, h6, by omega⟩
  · rw [h4] at h₁
    simp only [Prod.mk.injEq] at h₁
    obtain ⟨rfl, rfl, rfl⟩ := h₁
    right
    by_cases hk : k < tok.length
    · obtain ⟨c, s, h6, h7, -⟩ := h.within hk
      rw [expectWhitespaceOrEnd_solid h6 (hs c h7)] at h₂
      obtain ⟨rfl, rfl⟩ := Prod.mk.inj h₂
      exact ⟨by simp, h3, .inr ⟨k, hk, rfl⟩⟩
    · obtain ⟨rfl, rfl⟩ := h5.resolve_right fun h => hk h.2
      obtain rfl : tok = [] := List.length_eq_zero_iff.mp (by omega)
      rw [Nat.add_zero, expectWhitespaceOrEnd_sep h hd] at h₂
      obtain ⟨rfl, rfl⟩ := Prod.mk.inj h₂
      obtain ⟨h6, h7⟩ := ignoreWhitespace_spec h
      exact ⟨rfl, h3, .inl ⟨rfl, h6, h7⟩⟩

/-! ### Names -/

lemma expectStr_char {c x : ℕ} (h : At code i (c :: s)) :
    expectStr code i [x] = if c = x then (false, i + 1) else (true, i) := by
  have hlt := h.lt
  rw [expectStr, matchStr, h.getD]
  by_cases hc : c = x
  · rw [if_neg (by simp [hc, hlt]), if_pos hc]
    rfl
  · rw [if_pos (.inr hc), if_neg hc]

lemma expectStr_end {x : ℕ} (h : At code i []) : expectStr code i [x] = (true, i) := by
  rw [expectStr, matchStr, if_pos (.inl h.nil.ge)]

lemma matchName_spec {name : List ℕ} (h : At code i (tok ++ d :: r)) (hn : Solid name)
    (hd : whitespace d = true) : matchName code name i =
      if name.isPrefixOf tok = true then .yes (i + name.length) else .no := by
  induction name generalizing i tok with
  | nil => simp [matchName]
  | cons ch name ih =>
    have hch := hn ch (by simp)
    cases tok with
    | nil =>
      rw [List.nil_append] at h
      have hne : ch ≠ d := by rintro rfl; simp [hd] at hch
      rw [matchName, if_neg (not_le.mpr h.lt), h.getD, if_pos hne]
      rfl
    | cons c tok =>
      rw [List.cons_append] at h
      rw [matchName, if_neg (not_le.mpr h.lt), h.getD]
      by_cases hc : ch = c
      · subst hc
        rw [if_neg (by simp), ih h.succ fun x hx => hn x (by simp [hx])]
        simp only [List.isPrefixOf, beq_self_eq_true, Bool.true_and, List.length_cons]
        rw [Nat.add_assoc, Nat.add_comm 1]
      · rw [if_pos hc]
        simp [List.isPrefixOf, hc]

lemma matchOpcodeLoop_spec {ds : List OpData} (op : ℕ) (h : At code i (tok ++ d :: r))
    (hd : whitespace d = true) (hn : ∀ e ∈ ds, Solid e.name ∧ e.name.length = 3) :
    matchOpcodeLoop code i ds op =
      (ds.findIdx? fun e => e.name.isPrefixOf tok).map fun k => (i + 3, op + k) := by
  induction ds generalizing op with
  | nil => rfl
  | cons e ds ih =>
    obtain ⟨h1, h2⟩ := hn e (by simp)
    rw [matchOpcodeLoop, matchName_spec h h1 hd, List.findIdx?_cons]
    by_cases hp : e.name.isPrefixOf tok = true
    · simp [hp, h2]
    · rw [if_neg hp, if_neg hp]
      dsimp only
      rw [ih _ fun e he => hn e (by simp [he]), Option.map_map]
      congr 1
      funext k
      simp only [Function.comp_apply, Prod.mk.injEq, true_and]
      omega

lemma findIdx?_congr {α : Type*} {p q : α → Bool} {l : List α} (h : ∀ a ∈ l, p a = q a) :
    l.findIdx? p = l.findIdx? q := by
  induction l with
  | nil => rfl
  | cons a l ih =>
    rw [List.findIdx?_cons, List.findIdx?_cons, h a (by simp), ih fun b hb => h b (by simp [hb])]

lemma instructions_name : ∀ e ∈ instructions, Solid e.name ∧ e.name.length = 3 := by
  unfold Solid
  decide

/-- A mnemonic is found just when it is the whole token. -/
lemma opcode_spec (h : At code i (tok ++ d :: r)) (hs : Solid tok)
    (hd : whitespace d = true) {e₁ e₂ : Bool} {i₁ i₂ output : ℕ}
    (h₁ : matchOpcode code i = (e₁, i₁, output)) (h₂ : expectWhitespace code i₁ = (e₂, i₂)) :
    (e₁ || e₂) = false ∧ opcode tok = some output ∧ At code i₂ (next d r) ∧ i ≤ i₂ ∨
      (e₁ || e₂) = true ∧ opcode tok = none := by
  have hloop := matchOpcodeLoop_spec 0 h hd instructions_name
  rw [matchOpcode, hloop] at h₁
  by_cases h3 : tok.length = 3
  · have heq : (instructions.findIdx? fun e => e.name.isPrefixOf tok) = opcode tok := by
      refine findIdx?_congr fun e he => ?_
      rw [Bool.eq_iff_iff, List.isPrefixOf_iff_prefix, decide_eq_true_iff]
      refine ⟨fun hp => hp.eq_of_length ?_, fun hp => hp ▸ List.prefix_rfl⟩
      rw [(instructions_name e he).2, h3]
    rw [heq] at h₁
    cases hop : opcode tok with
    | none =>
      rw [hop] at h₁
      obtain ⟨rfl, -⟩ := Prod.mk.inj h₁
      exact .inr ⟨by simp, rfl⟩
    | some op =>
      rw [hop] at h₁
      simp only [Option.map_some, Nat.zero_add, Prod.mk.injEq] at h₁
      obtain ⟨rfl, rfl, rfl⟩ := h₁
      have hat := h.append
      rw [h3] at hat
      rw [expectWhitespace_sep hat hd] at h₂
      obtain ⟨rfl, rfl⟩ := Prod.mk.inj h₂
      obtain ⟨h6, h7⟩ := ignoreWhitespace_spec hat
      exact .inl ⟨rfl, rfl, h6, by omega⟩
  · -- the token is longer than the name that it begins with
    right
    have hnone : opcode tok = none := by
      refine List.findIdx?_eq_none_iff.mpr fun e he => decide_eq_false fun heq => h3 ?_
      rw [← heq, (instructions_name e he).2]
    refine ⟨?_, hnone⟩
    cases hf : instructions.findIdx? fun e => e.name.isPrefixOf tok with
    | none =>
      rw [hf] at h₁
      obtain ⟨rfl, -⟩ := Prod.mk.inj h₁
      simp
    | some k =>
      obtain ⟨hk, hp, -⟩ := List.findIdx?_eq_some_iff_getElem.mp hf
      have hlen := (List.isPrefixOf_iff_prefix.mp hp).length_le
      rw [(instructions_name _ (List.getElem_mem hk)).2] at hlen
      rw [hf] at h₁
      simp only [Option.map_some, Prod.mk.injEq] at h₁
      obtain ⟨rfl, rfl, -⟩ := h₁
      obtain ⟨c, s, h6, h7, -⟩ := h.within (k := 3) (by omega)
      rw [expectWhitespace_solid h6 (hs c h7)] at h₂
      obtain ⟨rfl, -⟩ := Prod.mk.inj h₂
      simp

end LispMachine.AsmScan
