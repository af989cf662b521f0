import LispMachine.AsmScan

/-!
What one round of the assembler's loop does, token by token.

After each argument the index is where the next token begins. The exception is a last argument
that is `r` and no more: the digits are then looked for after the separator, and the token there
is skipped along with the label that the argument is taken for.
-/

namespace LispMachine.AsmStep

open LispMachine.Memory LispMachine.Asm LispMachine.AsmRef LispMachine.AsmScan
open LispMachine.Lib.Tokens

variable {code : List ℕ} {i : ℕ} {s r tok : List ℕ} {d : ℕ}

/-! ### Fields -/

lemma or_field {x y k : ℕ} (hx : 2 ^ k ∣ x) (hy : y < 2 ^ k) : x ||| y = x + y := by
  obtain ⟨q, rfl⟩ := hx
  exact (Nat.two_pow_add_eq_or_of_lt hy q).symm

lemma wshl_eq {x n k : ℕ} (hx : x < 2 ^ k) (hk : n + k ≤ 64) : wshl x n = x * 2 ^ n := by
  rw [wshl, Nat.shiftLeft_eq, Nat.mod_eq_of_lt]
  calc x * 2 ^ n < 2 ^ k * 2 ^ n := Nat.mul_lt_mul_of_pos_right hx (by positivity)
    _ = 2 ^ (n + k) := by rw [← Nat.pow_add, Nat.add_comm]
    _ ≤ wordMod := Nat.pow_le_pow_right (by omega) hk

/-- A register is put below those before it. -/
lemma or_reg {x q k : ℕ} (hx : 2 ^ k ∣ x) (hq : q < 32) (h5 : 5 ≤ k) (hk : k ≤ 56) :
    x ||| wshl q (k - 5) = x + q * 2 ^ (k - 5) := by
  rw [wshl_eq (k := 5) hq (by omega)]
  refine or_field hx ?_
  calc q * 2 ^ (k - 5) < 2 ^ 5 * 2 ^ (k - 5) := Nat.mul_lt_mul_of_pos_right hq (by positivity)
    _ = 2 ^ k := by rw [← Nat.pow_add]; congr 1; omega

lemma dvd_reg {x q k : ℕ} (hx : 2 ^ k ∣ x) : 2 ^ (k - 5) ∣ x + q * 2 ^ (k - 5) :=
  Nat.dvd_add (Nat.dvd_trans (Nat.pow_dvd_pow 2 (Nat.sub_le k 5)) hx) (Dvd.intro_left q rfl)

/-- The instructions have one operand or three. -/
lemma nArgs_cases {op : ℕ} (h : op < instructions.length) : nArgs op = 1 ∨ nArgs op = 3 := by
  revert op
  decide

lemma getFlxOpMask_eq {n : ℕ} (h : n = 1 ∨ n = 3) :
    getFlxOpMask n = 2 ^ immBits n - 1 ∧ getFlxOpMask n >>> 1 = 2 ^ (immBits n - 1) - 1 := by
  rcases h with rfl | rfl <;> decide

/-! ### The arguments before the last one -/

/-- The text is empty, or it ends in a separator. -/
def Closed (s : List ℕ) : Prop := ∀ d ∈ s.getLast?, whitespace d = true

lemma Closed.of_append {l : List ℕ} (h : Closed (l ++ s)) : Closed s := by
  intro d hd
  refine h d ?_
  rw [List.getLast?_append, Option.mem_def.mp hd]
  rfl

/-- A text that begins with a token. -/
lemma Closed.exists_tok (h : Closed s) (hc : Clean s) (h0 : s ≠ []) :
    ∃ tok d r, s = tok ++ d :: r ∧ tok ≠ [] ∧ Solid tok ∧ whitespace d = true := by
  obtain ⟨c, l, rfl⟩ := List.exists_cons_of_ne_nil h0
  refine Lib.Tokens.exists_tok (hc c rfl) ⟨(c :: l).dropLast, (c :: l).getLast h0, ?_, ?_⟩
  · exact (List.dropLast_concat_getLast h0).symm
  · exact h _ (List.getLast?_eq_some_getLast h0)

lemma Closed.next (h : Closed (tok ++ d :: r)) : Closed (next d r) := by
  refine Closed.of_append (l := (d :: r).takeWhile whitespace) ?_
  rw [AsmScan.next, List.takeWhile_append_dropWhile]
  exact h.of_append

lemma tokens_next (h0 : tok ≠ []) (hs : Solid tok) (hd : whitespace d = true) :
    tokens whitespace (tok ++ d :: r) = tok :: tokens whitespace (next d r) := by
  rw [tokens_tok h0 hs hd, next, tokens_dropWhile, tokens_sep hd]

/-- The place `i` is at the beginning of the tokens `ts`, or at the end. -/
structure Place (code : List ℕ) (i : ℕ) (ts : List Token) (s : List ℕ) : Prop where
  here : At code i s
  clean : Clean s
  tokens : tokens whitespace s = ts

lemma Closed.drop (h : Closed code) (hs : At code i s) : Closed s := by
  refine Closed.of_append (l := code.take i) ?_
  rwa [← hs.2, List.take_append_drop]

/-- A text of more than one token has a separator after the first one. -/
lemma exists_sep {t u : Token} {us : List Token} (hc : Clean s)
    (h : tokens whitespace s = t :: u :: us) :
    ∃ tok d r, s = tok ++ d :: r ∧ tok ≠ [] ∧ Solid tok ∧ whitespace d = true := by
  have hsplit := List.takeWhile_append_dropWhile (p := fun ch => !whitespace ch) (l := s)
  have hsolid : Solid (s.takeWhile fun ch => !whitespace ch) := fun c hc => by
    simpa using List.mem_takeWhile_imp hc
  cases hd : s.dropWhile (fun ch => !whitespace ch) with
  | nil =>
    -- the whole text is one token
    rw [hd, List.append_nil] at hsplit
    have h1 := tokens_tok_le (hsplit ▸ hsolid)
    rw [h] at h1
    simp at h1
  | cons d r =>
    rw [hd] at hsplit
    refine ⟨_, d, r, hsplit.symm, fun h0 => ?_, hsolid, ?_⟩
    · rw [h0] at hsplit
      have h1 := hc d (by rw [← hsplit]; rfl)
      have h2 := List.head?_dropWhile_not (fun ch => !whitespace ch) s
      rw [hd] at h2
      simp [h1] at h2
    · have h2 := List.head?_dropWhile_not (fun ch => !whitespace ch) s
      rw [hd] at h2
      simpa using h2

/-- At a place where there is a token. -/
lemma Place.cons {t : Token} {ts : List Token} (h : Place code i (t :: ts) s)
    (hc : Closed code ∨ ts ≠ []) :
    ∃ d r, s = t ++ d :: r ∧ t ≠ [] ∧ Solid t ∧ whitespace d = true ∧
      ∀ j, At code j (next d r) → Place code j ts (next d r) := by
  have h0 : s ≠ [] := by
    rintro rfl
    simpa using h.tokens
  obtain ⟨tok, d, r, rfl, h1, h2, h3⟩ :
      ∃ tok d r, s = tok ++ d :: r ∧ tok ≠ [] ∧ Solid tok ∧ whitespace d = true := by
    rcases hc with hc | hc
    · exact (hc.drop h.here).exists_tok h.clean h0
    · obtain ⟨u, us, rfl⟩ := List.exists_cons_of_ne_nil hc
      exact exists_sep h.clean h.tokens
  have h4 := h.tokens
  rw [tokens_next h1 h2 h3] at h4
  obtain ⟨rfl, h5⟩ := List.cons.inj h4
  exact ⟨d, r, rfl, h1, h2, h3, fun j hj => ⟨hj, clean_dropWhile _, h5⟩⟩

lemma Place.empty (h : Place code i [] s) : s = [] := by
  cases s with
  | nil => rfl
  | cons c s => exact absurd h.tokens (tokens_ne_nil (h.clean c rfl))

lemma regDes_eq {c : ℕ} : [c] = regDes ↔ c = 114 := by
  rw [show regDes = [114] from rfl]
  simp

lemma mapM_register {t : Token} {ts : List Token} :
    (t :: ts).mapM register = (register t).bind fun q => (ts.mapM register).map (q :: ·) := by
  rw [List.mapM_cons]
  cases register t <;> cases ts.mapM register <;> rfl

/-- The arguments before the last one are registers, or this fails. -/
lemma compileArgs_spec {n idx instr k : ℕ} {ts : List Token} (h : Place code idx ts s)
    (hc : Closed code ∨ n < ts.length) (hk : 2 ^ k ∣ instr) (h5 : 5 * n ≤ k) (h56 : k ≤ 56) :
    (∃ regs idx' s', (ts.take n).mapM register = some regs ∧ regs.length = n ∧
      compileArgs code n idx instr k = some (idx', instr + regFields regs k, k - 5 * n) ∧
      2 ^ (k - 5 * n) ∣ instr + regFields regs k ∧ Place code idx' (ts.drop n) s' ∧
      idx ≤ idx') ∨
    (∀ regs, (ts.take n).mapM register = some regs → regs.length < n) ∧
      compileArgs code n idx instr k = none := by
  induction n generalizing idx instr k ts s with
  | zero => exact .inl ⟨[], idx, s, rfl, rfl, rfl, hk, h, le_rfl⟩
  | succ n ih =>
    cases ts with
    | nil =>
      obtain rfl := h.empty
      refine .inr ⟨fun regs hr => ?_, ?_⟩
      · obtain rfl : [] = regs := Option.some.inj hr
        simp
      · rw [compileArgs, show regDes = [114] from rfl, expectStr_end h.here]
        rfl
    | cons t ts =>
      have hc' : Closed code ∨ n < ts.length := hc.imp_right fun hlt => by
        rw [List.length_cons] at hlt
        omega
      obtain ⟨d, r, rfl, h0, hs, hd, hnext⟩ := h.cons (hc'.imp_right fun hlt h0 => by simp [h0] at hlt)
      obtain ⟨c, ds, rfl⟩ := List.exists_cons_of_ne_nil h0
      have hat := h.here
      rw [List.cons_append] at hat
      rw [List.take_succ_cons, mapM_register, compileArgs, show regDes = [114] from rfl,
        expectStr_char hat, register]
      by_cases h114 : c = 114
      · rw [if_pos h114, if_pos (regDes_eq.mpr h114)]
        dsimp only
        rw [if_neg (by simp)]
        have hds : Solid ds := fun x hx => hs x (by simp [hx])
        rcases expectHexFromStr_spec (numRegs - 1) hat.succ hd with ⟨v, h1, h2, h3⟩ |
          ⟨h1, e, m, v, h2, h3⟩
        · rw [h3, h1]
          have h32 : v < 32 := by
            have : numRegs - 1 = 31 := rfl
            omega
          have hsep := hat.succ.append
          obtain ⟨h4, h5⟩ := ignoreWhitespace_spec hsep
          dsimp only
          rw [expectWhitespace_sep hsep hd]
          dsimp only
          rw [if_neg (by simp), if_neg (by simp), show argSize = 5 from rfl,
            or_reg hk h32 (by omega) h56]
          have hfil : (some v).filter (· < 32) = some v := by simp [h32]
          rw [hfil, Option.bind_some]
          rcases ih (hnext _ h4) hc' (dvd_reg hk) (by omega) (by omega) with
            ⟨regs, idx', s', g1, g2, g3, g4, g5, g6⟩ | ⟨g1, g2⟩
          · refine .inl ⟨v :: regs, idx', s', by rw [g1]; rfl, by simp [g2], ?_, ?_, g5, ?_⟩
            · rw [g3, regFields]
              simp only [Option.some.injEq, Prod.mk.injEq, true_and]
              omega
            · rw [regFields, show k - 5 * (n + 1) = k - 5 - 5 * n by omega, ← Nat.add_assoc]
              exact g4
            · omega
          · refine .inr ⟨fun regs hr => ?_, g2⟩
            obtain ⟨regs', hr', rfl⟩ := Option.map_eq_some_iff.mp hr
            have := g1 regs' hr'
            simpa using this
        · -- the digits do not make up the rest of the token
          refine .inr ⟨fun regs hr => ?_, ?_⟩
          · obtain ⟨q, hq, -⟩ := Option.bind_eq_some_iff.mp hr
            obtain ⟨hq, h32⟩ := Option.filter_eq_some_iff.mp hq
            have := h1 q hq
            have : numRegs - 1 = 31 := rfl
            simp only [decide_eq_true_eq] at h32
            omega
          · rw [h2]
            dsimp only
            rcases h3 with ⟨rfl, -⟩ | ⟨rfl, hm⟩
            · rw [if_pos rfl]
            · obtain ⟨x, s', h4, h5, -⟩ := hat.succ.within hm
              rw [if_neg (by simp), expectWhitespace_solid h4 (hds x h5)]
              rfl
      · rw [if_neg h114, if_neg (mt regDes_eq.mp h114)]
        exact .inr ⟨fun regs hr => by simp at hr, rfl⟩

/-! ### The last argument -/

lemma Place.ignore {ts : List Token} (h : Place code i ts s) :
    Place code (ignoreWhitespace code i) ts s := by
  have := (ignoreWhitespace_spec h.here).1
  rw [h.clean.dropWhile] at this
  exact ⟨this, h.clean, h.tokens⟩

/-- The rest of a token is skipped. -/
lemma skip_rest (h : At code i (tok ++ d :: r)) (hs : Solid tok) (hd : whitespace d = true)
    {k : ℕ} (hk : k ≤ tok.length) :
    At code (ignoreWhitespace code (ignoreNonWhitespace code (i + k))) (next d r) := by
  have hlen : (tok.take k).length = k := by simp; omega
  rw [← List.take_append_drop k tok, List.append_assoc] at h
  have h1 := h.append
  rw [hlen] at h1
  have h2 := (ignoreNonWhitespace_spec h1).1
  rw [Solid.dropWhile (fun c hc => hs c (List.mem_of_mem_drop hc)) hd] at h2
  exact (ignoreWhitespace_spec h2).1

/-- A token is skipped. -/
lemma Place.skip {ts : List Token} (h : Place code i ts s) (hc : Closed code) :
    ∃ s', Place code (ignoreWhitespace code (ignoreNonWhitespace code i)) ts.tail s' := by
  cases ts with
  | nil =>
    obtain rfl := h.empty
    have h1 := (ignoreNonWhitespace_spec h.here).1
    exact ⟨[], (ignoreWhitespace_spec h1).1, h.clean, h.tokens⟩
  | cons t ts =>
    obtain ⟨d, r, rfl, h0, hs, hd, hnext⟩ := h.cons (.inl hc)
    exact ⟨_, hnext _ (by simpa using skip_rest h.here hs hd (Nat.zero_le _))⟩

/-- What the last operand adds to the word, below the bit `k`. -/
def lastBits (k : ℕ) : Operand → ℕ
  | .imm v => (v % 2 ^ k).toNat
  | .reg q => q * 2 ^ (k - 5) + 2 ^ 63
  | .label _ => 0

/-- The label reference that an operand at `i` makes. -/
def refAt (i : ℕ) : Operand → Option ℕ
  | .label _ => some i
  | _ => none

lemma negSgn_eq {c : ℕ} : [c] = negSgn ↔ c = 45 := by
  rw [show negSgn = [45] from rfl]
  simp

lemma or_negative {n x v : ℕ} (hn : n = 1 ∨ n = 3) (hx : 2 ^ immBits n ∣ x)
    (hv : v ≤ getFlxOpMask n >>> 1) :
    x ||| (wadd (wnot v) 1 &&& getFlxOpMask n) =
      x + lastBits (immBits n) (.imm (-(v : ℤ))) := by
  obtain ⟨h1, h2⟩ := getFlxOpMask_eq hn
  rw [h2] at hv
  rw [h1, Nat.and_two_pow_sub_one_eq_mod, or_field hx (Nat.mod_lt _ (by positivity)), lastBits,
    wadd, wnot, wordMod]
  rcases hn with rfl | rfl <;> simp only [immBits] at hv ⊢ <;> norm_num at hv ⊢ <;> omega

lemma or_positive {n x v : ℕ} (hn : n = 1 ∨ n = 3) (hx : 2 ^ immBits n ∣ x)
    (hv : v ≤ getFlxOpMask n >>> 1) :
    x ||| v = x + lastBits (immBits n) (.imm (v : ℤ)) := by
  have h2 := (getFlxOpMask_eq hn).2
  rw [h2] at hv
  have hlt : v < 2 ^ immBits n := by
    rcases hn with rfl | rfl <;> simp only [immBits] at hv ⊢ <;> omega
  rw [or_field hx hlt, lastBits]
  rcases hn with rfl | rfl <;> simp only [immBits] at hlt ⊢ <;> norm_num at hlt ⊢ <;> omega

lemma or_usesReg {x : ℕ} (hx : x < 2 ^ 63) : x ||| instrUsesReg = x + 2 ^ 63 := by
  have := Nat.two_pow_add_eq_or_of_lt hx 1
  rw [Nat.or_comm, show instrUsesReg = 2 ^ 63 * 1 from rfl, ← this]
  omega

/-- The attempt to read an immediate. -/
lemma immediate_spec {n x c : ℕ} {ds : List ℕ} (hn : n = 1 ∨ n = 3) (hx : 2 ^ immBits n ∣ x)
    (h : At code i (c :: ds ++ d :: r)) (hs : Solid (c :: ds)) (hd : whitespace d = true)
    {e₀ e₁ e₂ : Bool} {i₀ i₁ i₂ output : ℕ} (h₀ : expectStr code i negSgn = (e₀, i₀))
    (h₁ : expectHexFromStr code i₀ (getFlxOpMask n >>> 1) = (e₁, i₁, output))
    (h₂ : expectWhitespaceOrEnd code i₁ = (e₂, i₂)) :
    ((e₁ || e₂) = false ∧ At code i₂ (next d r) ∧ ∃ v, immediate n (c :: ds) = some v ∧
      (x ||| if !e₀ then wadd (wnot output) 1 &&& getFlxOpMask n else output) =
        x + lastBits (immBits n) (.imm v)) ∨
    (e₁ || e₂) = true ∧ immediate n (c :: ds) = none := by
  have hpos : 0 < 2 ^ (immBits n - 1) := by positivity
  have hmax := (getFlxOpMask_eq hn).2
  rw [show negSgn = [45] from rfl, expectStr_char h] at h₀
  rw [immediate]
  -- the digits are those of the token, or those after the sign
  by_cases hc : c = 45
  · rw [if_pos hc] at h₀
    obtain ⟨rfl, rfl⟩ := Prod.mk.inj h₀
    rw [if_pos (negSgn_eq.mpr hc)]
    rw [List.cons_append] at h
    rcases hexToken_spec _ h.succ (fun x hx => hs x (by simp [hx])) hd h₁ h₂ with
      ⟨h3, h4, h5, h6, -⟩ | ⟨h3, h4, -⟩
    · refine .inl ⟨h3, h6, -(output : ℤ), ?_, or_negative hn hx h5⟩
      have hlt : output < 2 ^ (immBits n - 1) := by omega
      simp [h4, hlt]
    · refine .inr ⟨h3, ?_⟩
      rw [Option.map_eq_none_iff, Option.filter_eq_none_iff]
      intro v hv
      have := h4 v hv
      simp only [decide_eq_true_eq]
      omega
  · rw [if_neg hc] at h₀
    obtain ⟨rfl, rfl⟩ := Prod.mk.inj h₀
    rw [if_neg (mt negSgn_eq.mp hc)]
    rcases hexToken_spec _ h hs hd h₁ h₂ with ⟨h3, h4, h5, h6, -⟩ | ⟨h3, h4, -⟩
    · refine .inl ⟨h3, h6, (output : ℤ), ?_, or_positive hn hx h5⟩
      have hlt : output < 2 ^ (immBits n - 1) := by omega
      simp [h4, hlt]
    · refine .inr ⟨h3, ?_⟩
      rw [Option.map_eq_none_iff, Option.filter_eq_none_iff]
      intro v hv
      have := h4 v hv
      simp only [decide_eq_true_eq]
      omega

/-- A token that is a small number is an immediate. -/
lemma immediate_of_hexNum {n v : ℕ} {t : Token} (hn : n = 1 ∨ n = 3) (h : hexNum t = some v)
    (hv : v < 32) : immediate n t ≠ none := by
  cases t with
  | nil => simp [hexNum] at h
  | cons c ds =>
    have hc : ¬ [c] = negSgn := by
      rw [negSgn_eq]
      rintro rfl
      have hnone : hexFrom 0 (45 :: ds) = none := by
        rw [hexFrom, show hexDigit 45 = none from rfl]
        rfl
      simp [hexNum, hnone] at h
    have hlt : v < 2 ^ (immBits n - 1) := by
      rcases hn with rfl | rfl <;> simp only [immBits] <;> omega
    rw [immediate, if_neg hc, h]
    simp [hlt]

/-- The attempt to read a register. -/
lemma register_spec {n c : ℕ} {ds : List ℕ} (hn : n = 1 ∨ n = 3)
    (h : At code i (c :: ds ++ d :: r)) (hs : Solid (c :: ds)) (hd : whitespace d = true)
    (himm : immediate n (c :: ds) = none) {e₁ e₂ e₃ : Bool} {i₁ i₂ i₃ output : ℕ}
    (h₁ : expectStr code i regDes = (e₁, i₁))
    (h₂ : expectHexFromStr code i₁ (numRegs - 1) = (e₂, i₂, output))
    (h₃ : expectWhitespaceOrEnd code i₂ = (e₃, i₃)) :
    (e₁ || e₂ || e₃) = false ∧ register (c :: ds) = some output ∧ output < 32 ∧
        At code i₃ (next d r) ∨
    (e₁ || e₂ || e₃) = true ∧ register (c :: ds) = none ∧
      (c :: ds = regDes ∧ At code i₃ (next d r) ∨
        c :: ds ≠ regDes ∧ ∃ k ≤ (c :: ds).length, i₃ = i + k) := by
  have h31 : numRegs - 1 = 31 := rfl
  rw [show regDes = [114] from rfl, expectStr_char h] at h₁
  rw [register]
  by_cases hc : c = 114
  · rw [if_pos hc] at h₁
    obtain ⟨rfl, rfl⟩ := Prod.mk.inj h₁
    rw [if_pos (regDes_eq.mpr hc), Bool.false_or]
    rw [List.cons_append] at h
    rcases hexToken_spec _ h.succ (fun x hx => hs x (by simp [hx])) hd h₂ h₃ with
      ⟨h4, h5, h6, h7, -⟩ | ⟨h4, h5, h6⟩
    · have hlt : output < 32 := by omega
      exact .inl ⟨h4, by simp [h5, hlt], hlt, h7⟩
    · refine .inr ⟨h4, ?_, ?_⟩
      · rw [Option.filter_eq_none_iff]
        intro v hv
        have := h5 v hv
        simp only [decide_eq_true_eq]
        omega
      · rw [show regDes = [114] from rfl, hc]
        rcases h6 with ⟨rfl, h6, -⟩ | ⟨k, hk, rfl⟩
        · exact .inl ⟨rfl, h6⟩
        · refine .inr ⟨fun heq => ?_, k + 1, by simp only [List.length_cons]; omega, by omega⟩
          rw [(List.cons.inj heq).2] at hk
          simp at hk
  · rw [if_neg hc] at h₁
    obtain ⟨rfl, rfl⟩ := Prod.mk.inj h₁
    rw [if_neg (mt regDes_eq.mp hc)]
    rcases hexToken_spec _ h hs hd h₂ h₃ with ⟨-, h5, h6, -⟩ | ⟨h4, -, h6⟩
    · exact absurd himm (immediate_of_hexNum hn h5 (by omega))
    · obtain ⟨k, hk, rfl⟩ := h6.resolve_left fun h => by simp at h
      refine .inr ⟨rfl, rfl, .inr ⟨fun heq => hc ?_, k, hk.le, rfl⟩⟩
      rw [show regDes = [114] from rfl] at heq
      exact (List.cons.inj heq).1

/-- The tokens that are left after a last operand. -/
def leftAfter (t : Token) (us : List Token) : List Token := if t = regDes then us.tail else us

/-- **The last argument**, if there is one. -/
lemma compileLast_spec {n x : ℕ} {t : Token} {us : List Token} (hn : n = 1 ∨ n = 3)
    (hx : 2 ^ immBits n ∣ x) (hlt : x < 2 ^ 62) (h : Place code i (t :: us) s)
    (hc : Closed code) :
    ∃ i' s', compileLast code n i x (immBits n) =
        (i', x + lastBits (immBits n) (lastOperand n t), refAt i (lastOperand n t)) ∧
      Place code (ignoreWhitespace code i') (leftAfter t us) s' := by
  obtain ⟨d, r, rfl, h0, hs, hd, hnext⟩ := h.cons (.inl hc)
  obtain ⟨c, ds, rfl⟩ := List.exists_cons_of_ne_nil h0
  have hne : immediate n (c :: ds) ≠ none ∨ register (c :: ds) ≠ none → c :: ds ≠ regDes := by
    rintro hreg heq
    rw [heq] at hreg
    rcases hn with rfl | rfl <;> revert hreg <;> decide
  rw [compileLast]
  generalize h₀ : expectStr code i negSgn = a₀
  obtain ⟨e₀, i₀⟩ := a₀
  dsimp only
  generalize h₁ : expectHexFromStr code i₀ (getFlxOpMask n >>> 1) = a₁
  obtain ⟨e₁, i₁, output⟩ := a₁
  dsimp only
  generalize h₂ : expectWhitespaceOrEnd code i₁ = a₂
  obtain ⟨e₂, i₂⟩ := a₂
  dsimp only
  rcases immediate_spec hn hx h.here hs hd h₀ h₁ h₂ with ⟨h3, h4, v, h5, h6⟩ | ⟨h3, h4⟩
  · have hl : leftAfter (c :: ds) us = us := if_neg (hne (.inl (by simp [h5])))
    rw [if_neg (by simp [h3]), h6, lastOperand, h5, hl]
    exact ⟨i₂, _, rfl, (hnext _ h4).ignore⟩
  · rw [if_pos h3, lastOperand, h4]
    dsimp only
    generalize g₁ : expectStr code i regDes = b₁
    obtain ⟨f₁, j₁⟩ := b₁
    dsimp only
    generalize g₂ : expectHexFromStr code j₁ (numRegs - 1) = b₂
    obtain ⟨f₂, j₂, q⟩ := b₂
    dsimp only
    generalize g₃ : expectWhitespaceOrEnd code j₂ = b₃
    obtain ⟨f₃, j₃⟩ := b₃
    dsimp only
    rcases register_spec hn h.here hs hd h4 g₁ g₂ g₃ with ⟨h5, h6, h7, h8⟩ | ⟨h5, h6, h7⟩
    · have hl : leftAfter (c :: ds) us = us := if_neg (hne (.inr (by simp [h6])))
      rw [if_neg (by simp [h5]), h6, hl]
      refine ⟨j₃, _, ?_, (hnext _ h8).ignore⟩
      have h56 : 5 ≤ immBits n ∧ immBits n ≤ 56 := by
        rcases hn with rfl | rfl <;> decide
      have hq : q * 2 ^ (immBits n - 5) < 2 ^ 62 := by
        have : (2 : ℕ) ^ (immBits n - 5) ≤ 2 ^ 51 := Nat.pow_le_pow_right (by omega) (by omega)
        have := Nat.mul_le_mul (show q ≤ 31 by omega) this
        omega
      rw [show argSize = 5 from rfl, or_reg hx h7 h56.1 h56.2, or_usesReg (by omega), lastBits,
        Nat.add_assoc]
      rfl
    · rw [if_pos h5, h6]
      dsimp only
      rcases h7 with ⟨h7, h8⟩ | ⟨h7, k, hk, rfl⟩
      · rw [leftAfter, if_pos h7]
        obtain ⟨s', h9⟩ := (hnext _ h8).skip hc
        exact ⟨_, s', rfl, h9⟩
      · rw [leftAfter, if_neg h7]
        exact ⟨_, _, rfl, hnext _ (skip_rest h.here hs hd hk)⟩

/-- The last argument is missing. -/
lemma compileLast_end {n x k : ℕ} (h : At code i []) :
    compileLast code n i x k = (i, x, some i) := by
  have hhex : ∀ m, expectHexFromStr code i m = (true, i, 0) := fun m => by
    rw [expectHexFromStr, hexLoop, if_neg (by rw [h.nil]; omega)]
    dsimp only
    rw [if_pos rfl]
  have hskip : ignoreNonWhitespace code i = i := by
    have h1 := (ignoreNonWhitespace_spec h).1
    rw [h1.nil, h.nil]
  have hreg : expectStr code i regDes = (true, i) := expectStr_end h
  have hneg : expectStr code i negSgn = (true, i) := expectStr_end h
  rw [compileLast, hneg]
  dsimp only
  rw [hhex]
  dsimp only
  rw [expectWhitespaceOrEnd_end h]
  simp [hreg, hhex, expectWhitespaceOrEnd_end h, hskip]

end LispMachine.AsmStep
