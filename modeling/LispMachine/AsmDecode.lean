import LispMachine.AsmResolve
import LispMachine.Machine

/-!
What the virtual machine makes of the words of the assembler.

The fields of an instruction are put one below the other, and taken out from the lowest one on.
-/

namespace LispMachine.AsmDecode

open LispMachine.Memory LispMachine.Asm LispMachine.AsmRef LispMachine.AsmScan
open LispMachine.AsmStep LispMachine.AsmCorrect LispMachine.Machine LispMachine.Lib.Tokens

/-! ### Fields -/

/-- The fields leave room below them. -/
lemma regFields_add_le {regs : List ℕ} {k : ℕ} (h : ∀ q ∈ regs, q < 32)
    (hk : 5 * regs.length ≤ k) : regFields regs k + 2 ^ (k - 5 * regs.length) ≤ 2 ^ k := by
  induction regs generalizing k with
  | nil => simp [regFields]
  | cons q regs ih =>
    rw [List.length_cons] at hk ⊢
    have h1 := ih (k := k - 5) (fun x hx => h x (by simp [hx])) (by omega)
    have h2 : q ≤ 31 := by have := h q (by simp); omega
    have h3 := Nat.mul_le_mul_right (2 ^ (k - 5)) h2
    have h4 : 2 ^ k = 32 * 2 ^ (k - 5) := by
      rw [show k = k - 5 + 5 by omega, Nat.pow_add, Nat.mul_comm]
      rfl
    rw [regFields, show k - 5 * (regs.length + 1) = k - 5 - 5 * regs.length by omega]
    omega

/-- The field `i` below the bit `k`. -/
lemma field_regs {regs : List ℕ} {a k low i q : ℕ} (hq : ∀ q ∈ regs, q < 32)
    (hk : 5 * regs.length ≤ k) (hlow : low < 2 ^ (k - 5 * regs.length))
    (hi : regs[i]? = some q) :
    (a * 2 ^ k + regFields regs k + low) / 2 ^ (k - 5 - 5 * i) % 32 = q := by
  induction regs generalizing a k i with
  | nil => simp at hi
  | cons q' regs ih =>
    rw [List.length_cons] at hk hlow
    have hq' : ∀ q ∈ regs, q < 32 := fun q h => hq q (by simp [h])
    have hpow : 2 ^ k = 32 * 2 ^ (k - 5) := by
      rw [show k = k - 5 + 5 by omega, Nat.pow_add, Nat.mul_comm]
      rfl
    have hsum : a * 2 ^ k + regFields (q' :: regs) k + low =
        (32 * a + q') * 2 ^ (k - 5) + regFields regs (k - 5) + low := by
      rw [regFields, hpow]
      ring
    rw [hsum]
    cases i with
    | zero =>
      obtain rfl := Option.some.inj hi
      have hrest : regFields regs (k - 5) + low < 2 ^ (k - 5) := by
        have := regFields_add_le hq' (k := k - 5) (by omega)
        rw [show k - 5 - 5 * regs.length = k - 5 * (regs.length + 1) by omega] at this
        omega
      rw [Nat.mul_zero, Nat.sub_zero, Nat.add_assoc, Nat.mul_comm, Nat.mul_add_div (by positivity),
        Nat.div_eq_of_lt hrest]
      have := hq q' (by simp)
      omega
    | succ i =>
      have := ih (a := 32 * a + q') (k := k - 5) hq' (by omega)
        (by rwa [show k - 5 - 5 * regs.length = k - 5 * (regs.length + 1) by omega]) hi
      rwa [show k - 5 - 5 * (i + 1) = k - 5 - 5 - 5 * i by omega]

lemma dvd_regFields {regs : List ℕ} {k : ℕ} : 2 ^ (k - 5 * regs.length) ∣ regFields regs k := by
  induction regs generalizing k with
  | nil => exact Dvd.intro_left 0 (Nat.zero_mul _)
  | cons q regs ih =>
    rw [List.length_cons, show k - 5 * (regs.length + 1) = k - 5 - 5 * regs.length by omega]
    refine Nat.dvd_add (Dvd.dvd.mul_left (Nat.pow_dvd_pow 2 (by omega)) q) ih

/-- The arguments that the loop takes out. -/
lemma argsLoop_apply {n instr i : ℕ} {args : ℕ → ℕ} :
    argsLoop n instr args i =
      if i < n then instr / 2 ^ (5 * (n - 1 - i)) % 32 else args i := by
  induction n generalizing instr args with
  | zero => rfl
  | succ n ih =>
    rw [argsLoop, ih]
    have hmask : instr &&& argMask = instr % 32 := Nat.and_two_pow_sub_one_eq_mod instr 5
    rcases Nat.lt_trichotomy i n with h | rfl | h
    · rw [if_pos h, if_pos (by omega), Nat.shiftRight_eq_div_pow, Nat.div_div_eq_div_mul,
        ← Nat.pow_add, show argSize + 5 * (n - 1 - i) = 5 * (n + 1 - 1 - i) by
          rw [show argSize = 5 from rfl]; omega]
    · simp [hmask]
    · rw [if_neg (by omega), if_neg (by omega), Function.update_of_ne (by omega)]

/-- The loop takes out the registers of an instruction. -/
lemma argsLoop_regs {regs : List ℕ} {a i q : ℕ} (low : ℕ) (args : ℕ → ℕ) (hq : ∀ q ∈ regs, q < 32)
    (hk : 5 * regs.length ≤ 56) (hlow : low < 2 ^ (56 - 5 * regs.length))
    (hi : regs[i]? = some q) :
    argsLoop regs.length ((a * 2 ^ 56 + regFields regs 56 + low) >>>
      (bits - (opcodeLen + regs.length * argSize))) args i = q := by
  have hlt := (List.getElem?_eq_some_iff.mp hi).1
  have hshift : bits - (opcodeLen + regs.length * argSize) = 56 - 5 * regs.length := by
    rw [show bits = 64 from rfl, show opcodeLen = 8 from rfl, show argSize = 5 from rfl]
    omega
  rw [argsLoop_apply, if_pos hlt, hshift, Nat.shiftRight_eq_div_pow, Nat.div_div_eq_div_mul,
    ← Nat.pow_add, show 56 - 5 * regs.length + 5 * (regs.length - 1 - i) = 56 - 5 - 5 * i by omega]
  exact field_regs hq hk hlow hi

lemma opcodeOf_eq (w : ℕ) : opcodeOf w = w / 2 ^ 56 % 128 := by
  rw [opcodeOf, Nat.shiftRight_and_distrib, show instMask >>> opcodeStart = 2 ^ 7 - 1 from rfl,
    Nat.and_two_pow_sub_one_eq_mod, Nat.shiftRight_eq_div_pow]
  rfl

lemma and_two_pow_eq_zero {w k : ℕ} : w &&& 2 ^ k = 0 ↔ w / 2 ^ k % 2 = 0 := by
  rw [Nat.and_two_pow, Nat.testBit_eq_decide_div_mod_eq]
  have := Nat.mod_two_eq_zero_or_one (w / 2 ^ k)
  rcases this with h | h <;> simp [h]

lemma getFlxOpMask_and {n : ℕ} (hn : n = 1 ∨ n = 3) (w : ℕ) :
    w &&& getFlxOpMask n = w % 2 ^ immBits n := by
  rw [(getFlxOpMask_eq hn).1, Nat.and_two_pow_sub_one_eq_mod]

/-- The sign of an immediate is extended. -/
lemma immediateOf_eq {n w x : ℕ} {v : ℤ} (hn : n = 1 ∨ n = 3)
    (hw : w = x * 2 ^ immBits n + (v % 2 ^ immBits n).toNat) (hlo : -2 ^ (immBits n - 1) < v)
    (hhi : v < 2 ^ (immBits n - 1)) : immediateOf w n = (v % 2 ^ 64).toNat := by
  have hidx : signBit >>> (opcodeLen + (n - 1) * argSize) = 2 ^ (immBits n - 1) ∧
      bits - (opcodeLen + (n - 1) * argSize) = immBits n := by
    rcases hn with rfl | rfl <;> decide
  have hmod : w &&& getFlxOpMask n = (v % 2 ^ immBits n).toNat := by
    rw [getFlxOpMask_and hn, hw, Nat.mul_add_mod_self_right, Nat.mod_eq_of_lt]
    have := Int.emod_lt_of_pos v (show (0 : ℤ) < 2 ^ immBits n by positivity)
    zify
    rw [Int.toNat_of_nonneg (Int.emod_nonneg _ (by positivity))]
    exact_mod_cast this
  have hext : wshl (wordMod - 1) (immBits n) = 2 ^ 64 - 2 ^ immBits n ∧
      2 ^ immBits n ∣ wshl (wordMod - 1) (immBits n) := by
    rcases hn with rfl | rfl <;> decide
  rw [immediateOf, hmod, hidx.1, hidx.2]
  rcases lt_or_ge v 0 with hv | hv
  · -- the sign is set
    have hbit : ¬ (v % 2 ^ immBits n).toNat / 2 ^ (immBits n - 1) % 2 = 0 := by
      rcases hn with rfl | rfl <;> simp only [immBits] at hlo ⊢ <;> norm_num at hlo ⊢ <;> omega
    rw [if_pos (mt and_two_pow_eq_zero.mp hbit), Nat.or_comm, or_field hext.2, hext.1]
    · rcases hn with rfl | rfl <;> simp only [immBits] at hlo ⊢ <;> norm_num at hlo ⊢ <;> omega
    · rcases hn with rfl | rfl <;> simp only [immBits] <;> norm_num <;> omega
  · have hbit : (v % 2 ^ immBits n).toNat / 2 ^ (immBits n - 1) % 2 = 0 := by
      rcases hn with rfl | rfl <;> simp only [immBits] at hhi ⊢ <;> norm_num at hhi ⊢ <;> omega
    rw [if_neg (not_not.mpr (and_two_pow_eq_zero.mpr hbit))]
    rcases hn with rfl | rfl <;> simp only [immBits] at hhi ⊢ <;> norm_num at hhi ⊢ <;> omega

/-! ### Instructions -/

/-- What the machine delivers to an instruction with the opcode `op`: the registers, and the last
operand in the register that it or the hidden one is. -/
def Delivers (w op : ℕ) (regs : List ℕ) (last : Operand) : Prop :=
  opcodeOf w = op ∧ ∀ s, (∀ i q, regs[i]? = some q → (decode w s).args i = q) ∧
    match last with
    | .imm v => (decode w s).args regs.length = numRegs ∧
        (decode w s).regs = Function.update s.regs numRegs (v % 2 ^ 64).toNat
    | .reg q => (decode w s).args regs.length = q ∧ (decode w s).regs = s.regs
    | .label _ => True

/-- **Decoding** undoes encoding. -/
lemma delivers_encode {op : ℕ} {regs : List ℕ} {last : Operand} (hop : op < instructions.length)
    (hlen : regs.length = nArgs op - 1) (hregs : ∀ q ∈ regs, q < 32)
    (himm : ∀ v, last = .imm v →
      -2 ^ (immBits (nArgs op) - 1) < v ∧ v < 2 ^ (immBits (nArgs op) - 1))
    (hreg : ∀ q, last = .reg q → q < 32) (hl : ∀ t, last ≠ .label t) :
    Delivers (encode op regs last) op regs last := by
  have hn := nArgs_cases hop
  have h16 : op < 16 := hop
  have hk : 56 - 5 * regs.length = immBits (nArgs op) := by rw [hlen]; rfl
  cases last with
  | label t => exact absurd rfl (hl t)
  | imm v =>
    obtain ⟨hlo, hhi⟩ := himm v rfl
    set low := (v % 2 ^ (56 - 5 * regs.length)).toNat with hlow
    have hlt : low < 2 ^ (56 - 5 * regs.length) := by
      rw [hlow]
      have := Int.emod_lt_of_pos v (show (0 : ℤ) < 2 ^ (56 - 5 * regs.length) by positivity)
      zify
      rw [Int.toNat_of_nonneg (Int.emod_nonneg _ (by positivity))]
      exact_mod_cast this
    have hsum := regFields_add_le hregs (k := 56) (by omega)
    have hw : encode op regs (.imm v) = op * 2 ^ 56 + regFields regs 56 + low := rfl
    have hbit : encode op regs (.imm v) &&& instrUsesReg = 0 := by
      refine and_two_pow_eq_zero (k := 63).mpr ?_
      rw [hw]
      omega
    obtain ⟨x, hx⟩ : 2 ^ immBits (nArgs op) ∣ op * 2 ^ 56 + regFields regs 56 := by
      rw [← hk]
      exact Nat.dvd_add (Dvd.dvd.mul_left (Nat.pow_dvd_pow 2 (by omega)) op) dvd_regFields
    have hval : immediateOf (encode op regs (.imm v)) (nArgs op) = (v % 2 ^ 64).toNat := by
      refine immediateOf_eq (x := x) hn ?_ hlo hhi
      rw [hw, hx, hlow, hk, Nat.mul_comm]
    have hopc : opcodeOf (encode op regs (.imm v)) = op := by
      rw [opcodeOf_eq, hw]
      omega
    refine ⟨hopc, fun s => ?_⟩
    rw [decode, hopc, if_pos ⟨hbit, by omega⟩, hval, ← hlen]
    refine ⟨fun i q hi => argsLoop_regs _ _ hregs (by omega) hlt hi, ?_, rfl⟩
    dsimp only
    rw [argsLoop_apply, if_neg (lt_irrefl _), Function.update_self]
  | reg q =>
    have hq := hreg q rfl
    have hregs' : ∀ x ∈ regs ++ [q], x < 32 := by
      intro x hx
      rcases List.mem_append.mp hx with hx | hx
      · exact hregs x hx
      · exact (List.mem_singleton.mp hx) ▸ hq
    have hlen' : (regs ++ [q]).length = nArgs op := by
      rw [List.length_append, List.length_singleton]
      omega
    have hsum := regFields_add_le hregs' (k := 56) (by omega)
    have hw : encode op regs (.reg q) =
        (128 + op) * 2 ^ 56 + regFields (regs ++ [q]) 56 + 0 := by
      rw [encode]
      ring
    have hpos : 0 < 2 ^ (56 - 5 * (regs ++ [q]).length) := by positivity
    have hbit : encode op regs (.reg q) &&& instrUsesReg ≠ 0 := by
      refine mt (and_two_pow_eq_zero (k := 63)).mp ?_
      rw [hw]
      omega
    have hopc : opcodeOf (encode op regs (.reg q)) = op := by
      rw [opcodeOf_eq, hw]
      omega
    refine ⟨hopc, fun s => ?_⟩
    rw [decode, hopc, if_neg (fun h => hbit h.1), ← hlen', hw]
    have harg := fun i x hi => argsLoop_regs (a := 128 + op) (i := i) (q := x) 0
      s.args hregs' (by omega) hpos hi
    refine ⟨fun i x hi => harg i x ?_, harg _ _ (by simp), rfl⟩
    rw [List.getElem?_append_left (List.getElem?_eq_some_iff.mp hi).1, hi]

/-! ### A text that need not end in a separator -/

variable {code : List ℕ} {c c' : Comp} {i : ℕ} {s : List ℕ} {t : Token} {ts us : List Token}

lemma At.concat (h : At code i s) : At (code ++ [32]) i (s ++ [32]) := by
  refine ⟨by rw [List.length_append]; exact Nat.le_add_right_of_le h.1, ?_⟩
  rw [List.drop_append_of_le_length h.1, h.2]

lemma expectStr_concat {x : ℕ} (h : At code i s) (hx : x ≠ 32) :
    expectStr (code ++ [32]) i [x] = expectStr code i [x] ∧
      (expectStr code i [x]).2 ≤ code.length := by
  cases s with
  | nil =>
    rw [expectStr_end h, expectStr_char (At.concat h), if_neg hx.symm]
    exact ⟨rfl, h.1⟩
  | cons c s =>
    rw [expectStr_char h, expectStr_char (At.concat h)]
    refine ⟨rfl, ?_⟩
    split_ifs
    · exact h.lt
    · exact h.1

lemma hexLoop_concat (maxVal : ℕ) {n v : ℕ} (h : i ≤ code.length) :
    hexLoop (code ++ [32]) maxVal n i v = hexLoop code maxVal n i v ∧
      ∀ p ∈ hexLoop code maxVal n i v, p.1 ≤ code.length := by
  induction n generalizing i v with
  | zero => simp [hexLoop, h]
  | succ n ih =>
    rw [hexLoop, hexLoop, List.length_append, List.length_singleton]
    rcases h.lt_or_eq with hlt | rfl
    · rw [if_pos hlt, if_pos (by omega), List.getD_append _ _ _ _ hlt]
      cases hexDigit (code.getD i 0) with
      | none => simp [h]
      | some x =>
        dsimp only
        split_ifs
        · simp
        · exact ih hlt
    · rw [if_neg (lt_irrefl _), if_pos (by omega), List.getD_append_right _ _ _ _ le_rfl,
        Nat.sub_self]
      simp [show hexDigit 32 = none from rfl]

lemma expectHexFromStr_concat (maxVal : ℕ) (h : i ≤ code.length) :
    expectHexFromStr (code ++ [32]) i maxVal = expectHexFromStr code i maxVal ∧
      (expectHexFromStr code i maxVal).2.1 ≤ code.length := by
  obtain ⟨h1, h2⟩ := hexLoop_concat maxVal (n := 16) (v := 0) h
  rw [expectHexFromStr, expectHexFromStr, h1]
  refine ⟨rfl, ?_⟩
  cases hloop : hexLoop code maxVal 16 i 0 with
  | none => exact h
  | some p =>
    dsimp only
    split_ifs
    · exact h
    · exact h2 p hloop

lemma expectWhitespaceOrEnd_concat (h : At code i s) :
    (expectWhitespaceOrEnd (code ++ [32]) i).1 = (expectWhitespaceOrEnd code i).1 := by
  cases s with
  | nil => rw [expectWhitespaceOrEnd_end h, expectWhitespaceOrEnd_sep (At.concat h) rfl]
  | cons c s =>
    cases hc : whitespace c with
    | true => rw [expectWhitespaceOrEnd_sep h hc, expectWhitespaceOrEnd_sep (At.concat h) hc]
    | false =>
      rw [expectWhitespaceOrEnd_solid h hc, expectWhitespaceOrEnd_solid (At.concat h) hc]

/-- The last argument is read alike when the text goes on with a separator. -/
lemma compileLast_concat {n x k : ℕ} (h : i ≤ code.length) :
    (compileLast (code ++ [32]) n i x k).2 = (compileLast code n i x k).2 := by
  have hat : ∀ j ≤ code.length, At code j (code.drop j) := fun j hj => ⟨hj, rfl⟩
  obtain ⟨hs, hs'⟩ := expectStr_concat (x := 45) (hat i h) (by decide)
  obtain ⟨hr, hr'⟩ := expectStr_concat (x := 114) (hat i h) (by decide)
  rw [compileLast, compileLast, show negSgn = [45] from rfl, show regDes = [114] from rfl, hs]
  generalize expectStr code i [45] = a₀ at hs'
  obtain ⟨e₀, i₀⟩ := a₀
  dsimp only at hs' ⊢
  obtain ⟨hh, hh'⟩ := expectHexFromStr_concat (getFlxOpMask n >>> 1) hs'
  rw [hh]
  generalize expectHexFromStr code i₀ (getFlxOpMask n >>> 1) = a₁ at hh'
  obtain ⟨e₁, i₁, output⟩ := a₁
  dsimp only at hh' ⊢
  have hw := expectWhitespaceOrEnd_concat (hat i₁ hh')
  generalize expectWhitespaceOrEnd (code ++ [32]) i₁ = a₂ at hw ⊢
  generalize expectWhitespaceOrEnd code i₁ = a₂' at hw ⊢
  obtain ⟨e₂, i₂⟩ := a₂
  obtain ⟨e₂', i₂'⟩ := a₂'
  dsimp only at hw ⊢
  rw [hw]
  by_cases he : (e₁ || e₂') = true
  · rw [if_pos he, if_pos he, hr]
    generalize expectStr code i [114] = b₀ at hr'
    obtain ⟨f₀, j₀⟩ := b₀
    dsimp only at hr' ⊢
    obtain ⟨gh, gh'⟩ := expectHexFromStr_concat (numRegs - 1) hr'
    rw [gh]
    generalize expectHexFromStr code j₀ (numRegs - 1) = b₁ at gh'
    obtain ⟨f₁, j₁, q⟩ := b₁
    dsimp only at gh' ⊢
    have gw := expectWhitespaceOrEnd_concat (hat j₁ gh')
    generalize expectWhitespaceOrEnd (code ++ [32]) j₁ = b₂ at gw ⊢
    generalize expectWhitespaceOrEnd code j₁ = b₂' at gw ⊢
    obtain ⟨f₂, j₂⟩ := b₂
    obtain ⟨f₂', j₂'⟩ := b₂'
    dsimp only at gw ⊢
    rw [gw]
    split_ifs <;> rfl
  · rw [if_neg he, if_neg he]

lemma tokens_concat (s : List ℕ) : tokens whitespace (s ++ [32]) = tokens whitespace s :=
  tokens_append_sep rfl

lemma Place.concat (h : Place code i (t :: ts) s) : Place (code ++ [32]) i (t :: ts) (s ++ [32]) := by
  refine ⟨At.concat h.here, fun c hc => ?_, (tokens_concat s).trans h.tokens⟩
  cases s with
  | nil => simpa using h.tokens
  | cons x s => exact h.clean c hc

/-! ### The words of the statements -/

/-- What is known of an instruction that the tokens begin with. -/
lemma first_instr {op : ℕ} {regs : List ℕ} {last : Operand}
    (h : first t ts = .stmt (.instr op regs last) us) :
    hexNum t = none ∧ opcode t = some op ∧ (ts.take (nArgs op - 1)).mapM register = some regs ∧
      nArgs op - 1 ≤ regs.length ∧
      ∃ u, ts.drop (nArgs op - 1) = u :: us ∧ lastOperand (nArgs op) u = last := by
  unfold first at h
  split at h
  · cases h
  · next hw =>
    split at h
    · cases h
    · next op' ho =>
      unfold firstInstr at h
      split at h
      · cases h
      · next regs' hr =>
        split_ifs at h with hlen
        split at h
        · cases h
        · next u us' hd =>
          cases h
          exact ⟨hw, ho, hr, not_lt.mp hlen, u, hd, rfl⟩

/-- One round at an instruction whose last operand is no label. -/
lemma compileStep_instr {op : ℕ} {regs : List ℕ} {last : Operand}
    (h : Place code c.idx (t :: ts) s) (hf : first t ts = .stmt (.instr op regs last) us)
    (hl : ∀ u, last ≠ .label u) :
    regs.length = nArgs op - 1 ∧ ∃ c', compileStep code c = some c' ∧
      c'.arr = c.arr ++ [encode op regs last] ∧ c'.lblRefs = c.lblRefs := by
  obtain ⟨hw, ho, hr, hlen, u, hd, hlast⟩ := first_instr hf
  have hts : nArgs op - 1 < ts.length := by
    have := congrArg List.length hd
    rw [List.length_drop, List.length_cons] at this
    omega
  have hts0 : ts ≠ [] := by
    rintro rfl
    simp at hts
  obtain ⟨e₁, i₁, op', e₂, i₂, h₁, h₂, hstep⟩ := compileStep_of_none (.inr hts0) h hw
  obtain ⟨d, r, rfl, h0, hs, hsep, hnext⟩ := h.cons (.inr hts0)
  rcases opcode_spec h.here hs hsep h₁ h₂ with ⟨h3, h4, h5, -⟩ | ⟨-, h4⟩
  · obtain rfl : op = op' := Option.some.inj (ho.symm.trans h4)
    have hn := nArgs_cases (opcode_lt ho)
    have h16 : op < 2 ^ 4 := opcode_lt ho
    have hshift : wshl op opcodeStart = op * 2 ^ 56 := wshl_eq (k := 4) h16 (by decide)
    rw [hstep, if_neg (by simp [h3]), compileInstr]
    simp only [if_pos (show nArgs op ≠ 0 by omega)]
    rw [hshift]
    rcases compileArgs_spec (n := nArgs op - 1) (k := 56) (hnext _ h5) (.inr hts)
      (Dvd.intro_left op rfl) (by omega) le_rfl with ⟨regs', idx', s', g1, g2, g3, g4, g5, -⟩ | ⟨g1, -⟩
    · obtain rfl : regs = regs' := Option.some.inj (hr.symm.trans g1)
      refine ⟨g2, ?_⟩
      have hk : 56 - 5 * (nArgs op - 1) = immBits (nArgs op) := rfl
      rw [hd] at g5
      rw [hk] at g3 g4
      have hlt : op * 2 ^ 56 + regFields regs 56 < 2 ^ 62 := by
        have := regFields_lt (mapM_register_lt g1) (k := 56) (by omega)
        have h16' : op < 16 := h16
        omega
      have hclosed : Closed (code ++ [32]) := by
        intro x hx
        rw [List.getLast?_concat] at hx
        exact Option.some.inj hx ▸ rfl
      obtain ⟨i', s'', g6, -⟩ := compileLast_spec hn g4 hlt (Place.concat g5) hclosed
      have g7 := compileLast_concat (n := nArgs op) (x := op * 2 ^ 56 + regFields regs 56)
        (k := immBits (nArgs op)) g5.here.1
      rw [g6, hlast, ← hk, ← g2, encode_eq] at g7
      rw [show opcodeStart = 56 from rfl, g3, ← hk, ← g2]
      simp only [Option.map_some]
      generalize compileLast code _ _ _ _ = q at g7 ⊢
      obtain ⟨j, w, ref⟩ := q
      obtain ⟨rfl, rfl⟩ := Prod.mk.inj g7
      cases last with
      | label v => exact absurd rfl (hl v)
      | imm v | reg v => exact ⟨_, rfl, rfl, rfl⟩
    · exact absurd (g1 regs hr) (not_lt.mpr hlen)
  · simp [ho] at h4

/-- The loop of `compile`, round by round. -/
def rounds (code : List ℕ) : Lib.Run.System Comp where
  init c := c = compileInit code
  step c c' := c.idx < code.length ∧ compileStep code c = some c'

/-- What the later rounds do: words and references are added at the end. -/
structure Grows (c c' : Comp) : Prop where
  arr : c.arr <+: c'.arr
  ctr : c'.prgmCtr + c.arr.length = c.prgmCtr + c'.arr.length
  refs : ∃ refs, c'.lblRefs = c.lblRefs ++ refs ∧
    ∀ l ∈ refs, c.prgmCtr ≤ l.addr ∧ l.addr < c'.prgmCtr

lemma Grows.refl (c : Comp) : Grows c c :=
  ⟨List.prefix_rfl, Nat.add_comm _ _ ▸ rfl, [], (List.append_nil _).symm, by simp⟩

lemma Grows.trans {c'' : Comp} (h : Grows c c') (h' : Grows c' c'') : Grows c c'' := by
  obtain ⟨refs, h1, h2⟩ := h.refs
  obtain ⟨refs', h3, h4⟩ := h'.refs
  have hlen := h.arr.length_le
  have hlen' := h'.arr.length_le
  have hctr := h.ctr
  have hctr' := h'.ctr
  refine ⟨h.arr.trans h'.arr, by omega, refs ++ refs', by rw [h3, h1, List.append_assoc], ?_⟩
  intro l hl
  rcases List.mem_append.mp hl with hl | hl
  · have := h2 l hl
    omega
  · have := h4 l hl
    omega

lemma clean_ignoreWhitespace (code : List ℕ) (i : ℕ) :
    Clean (code.drop (ignoreWhitespace code i)) := by
  rcases le_or_gt i code.length with h | h
  · rw [(ignoreWhitespace_spec (s := code.drop i) ⟨h, rfl⟩).1.2]
    exact clean_dropWhile _
  · have hstop : ignoreWhitespace code i = i := by
      rw [ignoreWhitespace]
      cases code.length with
      | zero => rfl
      | succ n => rw [skip, if_neg (by omega)]
    rw [hstop, List.drop_eq_nil_of_le h.le]
    simp [Clean]

lemma clean_expectWhitespaceOrEnd {e : Bool} {j : ℕ} (h : expectWhitespaceOrEnd code i = (e, j))
    (he : e = false) : Clean (code.drop j) := by
  subst he
  rw [expectWhitespaceOrEnd, expectWhitespace] at h
  split_ifs at h with hw
  · obtain ⟨h1, rfl⟩ := Prod.mk.inj h
    rw [List.drop_eq_nil_of_le (by simpa using h1)]
    simp [Clean]
  · obtain ⟨-, rfl⟩ := Prod.mk.inj h
    exact clean_ignoreWhitespace code i

/-- What a round does: it adds a word, and the references of this word, or none; the index is not at
a separator afterwards. -/
lemma compileStep_cases (h : compileStep code c = some c') : Clean (code.drop c'.idx) ∧
    (c'.arr = c.arr ∧ c'.lblRefs = c.lblRefs ∧ c'.prgmCtr = c.prgmCtr ∨
      ∃ w refs, c'.arr = c.arr ++ [w] ∧ c'.lblRefs = c.lblRefs ++ refs ∧
        (∀ l ∈ refs, l.addr = c.prgmCtr) ∧ c'.prgmCtr = c.prgmCtr + 1) := by
  rw [compileStep] at h
  dsimp only at h
  generalize h₁ : expectHexFromStr code c.idx (wordMod - 1) = a₁ at h
  obtain ⟨e₁, i₁, output⟩ := a₁
  dsimp only at h
  generalize h₂ : expectWhitespaceOrEnd code i₁ = a₂ at h
  obtain ⟨e₂, i₂⟩ := a₂
  dsimp only at h
  by_cases he : (e₁ || e₂) = true
  · rw [if_pos he] at h
    generalize matchOpcode code c.idx = a₃ at h
    obtain ⟨e₃, i₃, op⟩ := a₃
    dsimp only at h
    generalize expectWhitespace code i₃ = a₄ at h
    obtain ⟨e₄, i₄⟩ := a₄
    dsimp only at h
    by_cases ho : (e₃ || e₄) = true
    · rw [if_pos ho] at h
      obtain rfl := Option.some.inj h
      exact ⟨clean_ignoreWhitespace _ _, .inl ⟨rfl, rfl, rfl⟩⟩
    · rw [if_neg ho] at h
      unfold compileInstr at h
      obtain ⟨⟨idx, instr, instrIdx⟩, -, rfl⟩ := Option.map_eq_some_iff.mp h
      dsimp only
      generalize (if nArgs op ≠ 0 then compileLast code (nArgs op) idx instr instrIdx
        else (idx, instr, none)) = a₅
      obtain ⟨j, w, ref⟩ := a₅
      refine ⟨clean_ignoreWhitespace _ _, .inr ⟨w, ?_⟩⟩
      cases ref with
      | none => exact ⟨[], rfl, (List.append_nil _).symm, by simp, rfl⟩
      | some label => exact ⟨[⟨label, c.prgmCtr⟩], rfl, rfl, by simp, rfl⟩
  · rw [if_neg he] at h
    obtain rfl := Option.some.inj h
    rw [Bool.not_eq_true, Bool.or_eq_false_iff] at he
    exact ⟨clean_expectWhitespaceOrEnd h₂ he.2,
      .inr ⟨output, [], rfl, (List.append_nil _).symm, by simp, rfl⟩⟩

lemma compileStep_grows (h : compileStep code c = some c') : Grows c c' := by
  rcases (compileStep_cases h).2 with ⟨h1, h2, h3⟩ | ⟨w, refs, h1, h2, h3, h4⟩
  · exact ⟨h1 ▸ List.prefix_rfl, by rw [h1, h3], [], by rw [h2, List.append_nil], by simp⟩
  · refine ⟨h1 ▸ List.prefix_append _ _, ?_, refs, h2, fun l hl => ?_⟩
    · rw [h1, h4, List.length_append, List.length_singleton]
      omega
    · rw [h3 l hl, h4]
      omega

lemma compileLoop_grows {n : ℕ} (h : compileLoop code n c = some c') : Grows c c' := by
  induction n generalizing c with
  | zero => simp [compileLoop] at h
  | succ n ih =>
    rw [compileLoop] at h
    split_ifs at h
    · obtain ⟨c₁, h1, h2⟩ := Option.bind_eq_some_iff.mp h
      exact (compileStep_grows h1).trans (ih h2)
    · exact Option.some.inj h ▸ Grows.refl c

/-- In every round the words so far are counted, and the index is not at a separator. -/
lemma rounds_invariant (h : (rounds code).Reachable c) :
    Grows (compileInit code) c ∧ Clean (code.drop c.idx) := by
  induction h with
  | init h =>
    obtain rfl := h
    exact ⟨Grows.refl _, clean_ignoreWhitespace code 0⟩
  | step _ hs ih => exact ⟨ih.1.trans (compileStep_grows hs.2), (compileStep_cases hs.2).1⟩

/-- The loop goes through the states that the rounds reach. -/
lemma compileLoop_of_reachable {n : ℕ} {cf : Comp} (h : (rounds code).Reachable c)
    (hf : compileLoop code n (compileInit code) = some cf) :
    ∃ m, compileLoop code m c = some cf := by
  induction h with
  | init h => exact ⟨n, h ▸ hf⟩
  | step _ hs ih =>
    obtain ⟨m, hm⟩ := ih
    cases m with
    | zero => simp [compileLoop] at hm
    | succ m =>
      rw [compileLoop, if_pos hs.1, hs.2] at hm
      exact ⟨m, hm⟩

/-- Resolving changes only the words that refer to labels. -/
lemma resolve_get {lbls refs : List LblInfo} {arr ws : List ℕ} {a : ℕ}
    (h : resolve code lbls refs arr = some ws) (ha : ∀ l ∈ refs, l.addr ≠ a) :
    ws[a]? = arr[a]? := by
  induction refs generalizing arr with
  | nil => rw [Option.some.inj h]
  | cons ref refs ih =>
    rw [resolve] at h
    cases hfind : lbls.find? (lblStreq code ref) with
    | none => simp [hfind] at h
    | some l =>
      rw [hfind] at h
      have hne := ha ref (by simp)
      rw [ih h fun l hl => ha l (by simp [hl]), List.getElem?_modify]
      simp [hne]

lemma immediate_bounds {n : ℕ} {v : ℤ} (h : immediate n t = some v) :
    -2 ^ (immBits n - 1) < v ∧ v < 2 ^ (immBits n - 1) := by
  cases t with
  | nil => simp [immediate] at h
  | cons x ds =>
    have hpos : (0 : ℤ) < 2 ^ (immBits n - 1) := by positivity
    rw [immediate] at h
    split_ifs at h
    · obtain ⟨w, hw, rfl⟩ := Option.map_eq_some_iff.mp h
      have hlt := (Option.filter_eq_some_iff.mp hw).2
      rw [decide_eq_true_eq] at hlt
      zify at hlt
      omega
    · obtain ⟨w, hw, rfl⟩ := Option.map_eq_some_iff.mp h
      have hlt := (Option.filter_eq_some_iff.mp hw).2
      rw [decide_eq_true_eq] at hlt
      zify at hlt
      change _ < (w : ℤ) ∧ (w : ℤ) < _
      omega

/-- **Instruction decode** undoes encode: at every instruction with a register or an immediate as
its last operand that the assembler comes to, it emits a word that delivers the operands. -/
theorem decode_compile {code ws : List ℕ} (h : compile code = some ws) {c : Comp}
    (hc : (rounds code).Reachable c) {t : Token} {ts us : List Token} {op : ℕ} {regs : List ℕ}
    {last : Operand} (ht : tokens whitespace (code.drop c.idx) = t :: ts)
    (hf : first t ts = .stmt (.instr op regs last) us) (hl : ∀ u, last ≠ .label u) :
    ∃ w, ws[c.prgmCtr]? = some w ∧ Delivers w op regs last := by
  have hdrop : c.idx < code.length := by
    by_contra hle
    rw [List.drop_eq_nil_of_le (by omega)] at ht
    simp at ht
  obtain ⟨hgrow, hclean⟩ := rounds_invariant hc
  have hplace : Place code c.idx (t :: ts) (code.drop c.idx) := ⟨⟨hdrop.le, rfl⟩, hclean, ht⟩
  obtain ⟨hlen, c', hstep, harr, hrefs⟩ := compileStep_instr hplace hf hl
  obtain ⟨-, ho, hr, -, u, -, hlast⟩ := first_instr hf
  refine ⟨encode op regs last, ?_, delivers_encode (opcode_lt ho) hlen (mapM_register_lt hr)
    ?_ ?_ hl⟩
  · unfold compile at h
    split_ifs at h
    obtain ⟨cf, hloop, hres⟩ := Option.bind_eq_some_iff.mp h
    obtain ⟨m, hm⟩ := compileLoop_of_reachable (.step hc ⟨hdrop, hstep⟩) hloop
    have hgrow' := compileLoop_grows hm
    have hctr : c.prgmCtr = c.arr.length := by simpa [compileInit] using hgrow.ctr
    rw [resolve_get hres, hctr]
    · -- later rounds leave the word where it is
      obtain ⟨more, hmore⟩ := hgrow'.arr
      rw [← hmore, harr, List.append_assoc, List.getElem?_append_right le_rfl, Nat.sub_self]
      rfl
    · -- no reference is to this word
      obtain ⟨refs, hrefs', hpos⟩ := hgrow'.refs
      obtain ⟨refs₀, hrefs₀, hpos₀⟩ := hgrow.refs
      intro l hl
      rw [hrefs', hrefs] at hl
      rcases List.mem_append.mp hl with hl | hl
      · rw [hrefs₀] at hl
        exact (hpos₀ l (by simpa [compileInit] using hl)).2.ne
      · have hstep' := (compileStep_grows hstep).ctr
        have := (hpos l hl).1
        rw [harr, List.length_append, List.length_singleton] at hstep'
        omega
  · rintro v rfl
    unfold lastOperand at hlast
    split at hlast
    · next v' hv =>
      cases hlast
      exact immediate_bounds hv
    · split at hlast <;> cases hlast
  · rintro q rfl
    unfold lastOperand at hlast
    split at hlast
    · cases hlast
    · split at hlast
      · next q' hq =>
        cases hlast
        exact register_lt hq
      · cases hlast

/-- Two registers and a negative number are delivered to an addition. -/
theorem decode_compile_ads :
    ∃ w, [76842668642009083][0]? = some w ∧ Delivers w 1 [2, 3] (.imm (-5)) :=
  decode_compile (by decide +kernel : compile (chars "ads r2 r3 -5") = some [76842668642009083])
    (.init rfl) (by decide +kernel : _ = chars "ads" :: [chars "r2", chars "r3", chars "-5"]) rfl
    (by simp)

end LispMachine.AsmDecode
