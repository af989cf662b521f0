import LispMachine.AsmStep

/-!
The assembler against its reference.

A round of the loop does what the reading does with one statement, unless the statement ends in
an operand that is `r` and no more. What the loop has collected at the end is then resolved as
the reference assembler resolves it.
-/

namespace LispMachine.AsmCorrect

open LispMachine.Memory LispMachine.Asm LispMachine.AsmRef LispMachine.AsmScan
open LispMachine.AsmStep LispMachine.Lib.Tokens

variable {code : List ℕ} {c c' : Comp} {s : List ℕ} {t : Token} {ts us : List Token}

/-! ### One round -/

/-- The token at the index `i`, empty at the end of the text. -/
def tokAt (code : List ℕ) (i : ℕ) : Token := (code.drop i).takeWhile fun ch => !whitespace ch

def view (code : List ℕ) (l : LblInfo) : Token × ℕ := (tokAt code l.label, l.addr)

/-- The references to labels, with the first statement at `a`. -/
def refsOf : List Stmt → ℕ → List (Token × ℕ)
  | [], _ => []
  | .label _ :: ss, a => refsOf ss a
  | .instr _ _ (.label t) :: ss, a => (t, a) :: refsOf ss (a + 1)
  | _ :: ss, a => refsOf ss (a + 1)

/-- The variables after the round that reads the statement `st`. -/
structure Advance (code : List ℕ) (c : Comp) (st : Stmt) (c' : Comp) : Prop where
  arr : c'.arr = c.arr ++ wordsOf [st]
  lbls : c'.lbls.map (view code) = c.lbls.map (view code) ++ layout [st] c.prgmCtr
  refs : c'.lblRefs.map (view code) = c.lblRefs.map (view code) ++ refsOf [st] c.prgmCtr
  ctr : c'.prgmCtr = c.prgmCtr + (wordsOf [st]).length
  lblPos : ∀ l ∈ c'.lbls, l ∈ c.lbls ∨ l.label = c.idx
  refPos : ∀ l ∈ c'.lblRefs, l ∈ c.lblRefs ∨ tokAt code l.label ≠ []

lemma hexFrom_lt {v w : ℕ} (h : hexFrom v t = some w) : w < (v + 1) * 16 ^ t.length := by
  induction t generalizing v with
  | nil =>
    obtain rfl := Option.some.inj h
    simp
  | cons c t ih =>
    obtain ⟨x, hx, h2⟩ := Option.bind_eq_some_iff.mp h
    have hlt := hexDigit_lt hx
    calc w < (16 * v + x + 1) * 16 ^ t.length := ih h2
      _ ≤ (16 * (v + 1)) * 16 ^ t.length := Nat.mul_le_mul_right _ (by omega)
      _ = (v + 1) * 16 ^ (t.length + 1) := by rw [Nat.pow_succ]; ring

lemma hexNum_lt {w : ℕ} (h : hexNum t = some w) : w < wordMod := by
  rw [hexNum] at h
  split_ifs at h with hlen
  calc w < (0 + 1) * 16 ^ t.length := hexFrom_lt h
    _ = 16 ^ t.length := by rw [Nat.zero_add, Nat.one_mul]
    _ ≤ 16 ^ 16 := Nat.pow_le_pow_right (by omega) (by omega)
    _ = wordMod := by decide

lemma tokAt_eq {i d : ℕ} {r : List ℕ} (h : At code i (t ++ d :: r)) (hs : Solid t)
    (hd : whitespace d = true) : tokAt code i = t := by
  rw [tokAt, h.2, List.takeWhile_append_of_pos fun c hc => by simp [hs c hc]]
  simp [hd]

lemma compileStep_data {w : ℕ} (hc : Closed code) (h : Place code c.idx (t :: ts) s) (hw : hexNum t = some w) :
    ∃ c' s', compileStep code c = some c' ∧ Advance code c (.data w) c' ∧
      Place code c'.idx ts s' := by
  obtain ⟨d, r, rfl, h0, hs, hd, hnext⟩ := h.cons (.inl hc)
  rw [compileStep]
  dsimp only
  generalize h₁ : expectHexFromStr code c.idx (wordMod - 1) = a₁
  obtain ⟨e₁, i₁, output⟩ := a₁
  dsimp only
  generalize h₂ : expectWhitespaceOrEnd code i₁ = a₂
  obtain ⟨e₂, i₂⟩ := a₂
  rcases hexToken_spec _ h.here hs hd h₁ h₂ with ⟨h3, h4, -, h6, -⟩ | ⟨-, h4, -⟩
  · obtain rfl : output = w := Option.some.inj (h4.symm.trans hw)
    rw [if_neg (by simp [h3])]
    exact ⟨_, _, rfl, ⟨rfl, by simp [layout], by simp [refsOf], rfl, fun l hl => .inl hl,
      fun l hl => .inl hl⟩, hnext _ h6⟩
  · have := h4 w hw
    have := hexNum_lt hw
    omega

/-- A token that is no number is looked at again. -/
lemma compileStep_of_none (hc : Closed code ∨ ts ≠ []) (h : Place code c.idx (t :: ts) s) (hw : hexNum t = none) :
    ∃ e₁ i₁ op e₂ i₂, matchOpcode code c.idx = (e₁, i₁, op) ∧
      expectWhitespace code i₁ = (e₂, i₂) ∧ compileStep code c =
        if e₁ || e₂ then
          some { c with
            lbls := if c.lbls.any fun l => l.label = c.idx then c.lbls
              else c.lbls ++ [⟨c.idx, c.prgmCtr⟩]
            idx := ignoreWhitespace code (ignoreNonWhitespace code c.idx) }
        else compileInstr code { c with idx := i₂ } op := by
  obtain ⟨d, r, rfl, h0, hs, hd, hnext⟩ := h.cons hc
  rw [compileStep]
  dsimp only
  generalize h₁ : expectHexFromStr code c.idx (wordMod - 1) = a₁
  obtain ⟨e₁, i₁, output⟩ := a₁
  dsimp only
  generalize h₂ : expectWhitespaceOrEnd code i₁ = a₂
  obtain ⟨e₂, i₂⟩ := a₂
  rcases hexToken_spec _ h.here hs hd h₁ h₂ with ⟨-, h4, -⟩ | ⟨h3, -⟩
  · simp [hw] at h4
  · rw [if_pos h3]
    exact ⟨_, _, _, _, _, rfl, rfl, rfl⟩

lemma compileStep_label (hc : Closed code) (h : Place code c.idx (t :: ts) s)
    (hw : hexNum t = none) (ho : opcode t = none)
    (hl : ∀ l ∈ c.lbls, ts.length + 1 < (tokens whitespace (code.drop l.label)).length) :
    ∃ c' s', compileStep code c = some c' ∧ Advance code c (.label t) c' ∧
      Place code c'.idx ts s' := by
  obtain ⟨s', hskip⟩ := h.skip hc
  obtain ⟨d, r, rfl, h0, hs, hd, hnext⟩ := h.cons (.inl hc)
  have hnew : ¬ (c.lbls.any fun l => l.label = c.idx) = true := by
    rw [List.any_eq_true]
    rintro ⟨l, h1, h2⟩
    have h3 := hl l h1
    rw [of_decide_eq_true h2, h.here.2, h.tokens, List.length_cons] at h3
    omega
  obtain ⟨e₁, i₁, op, e₂, i₂, h₁, h₂, hstep⟩ := compileStep_of_none (.inl hc) h hw
  rw [hstep, if_neg hnew]
  rcases opcode_spec h.here hs hd h₁ h₂ with ⟨-, h4, -⟩ | ⟨h3, -⟩
  · simp [ho] at h4
  · rw [if_pos h3]
    refine ⟨_, s', rfl, ⟨by simp [wordsOf], ?_, by simp [refsOf], rfl, fun l hl => ?_,
      fun l hl => .inl hl⟩, hskip⟩
    · simp [layout, view, tokAt_eq h.here hs hd]
    · exact (List.mem_append.mp hl).imp_right fun h => by rw [List.mem_singleton.mp h]

lemma regFields_lt {regs : List ℕ} {k : ℕ} (h : ∀ q ∈ regs, q < 32)
    (hk : 5 * regs.length ≤ k) : regFields regs k < 2 ^ k := by
  induction regs generalizing k with
  | nil => simp [regFields]
  | cons q regs ih =>
    rw [List.length_cons] at hk
    have h1 := ih (k := k - 5) (fun x hx => h x (by simp [hx])) (by omega)
    have h2 : q ≤ 31 := by have := h q (by simp); omega
    have h3 := Nat.mul_le_mul_right (2 ^ (k - 5)) h2
    have h4 : 2 ^ k = 32 * 2 ^ (k - 5) := by
      rw [show k = k - 5 + 5 by omega, Nat.pow_add, Nat.mul_comm]
      rfl
    rw [regFields]
    omega

lemma regFields_snoc {regs : List ℕ} {q k : ℕ} :
    regFields (regs ++ [q]) k = regFields regs k + q * 2 ^ (k - 5 * regs.length - 5) := by
  induction regs generalizing k with
  | nil => simp [regFields]
  | cons q' regs ih =>
    rw [List.cons_append, regFields, regFields, ih, List.length_cons, Nat.add_assoc]
    congr 4
    omega

lemma opcode_lt {op : ℕ} (h : opcode t = some op) : op < instructions.length :=
  (List.findIdx?_eq_some_iff_getElem.mp h).1

lemma register_lt {q : ℕ} (h : register t = some q) : q < 32 := by
  cases t with
  | nil => simp [register] at h
  | cons c ds =>
    rw [register] at h
    split_ifs at h
    simpa using (Option.filter_eq_some_iff.mp h).2

lemma mapM_register_lt {regs : List ℕ} (h : ts.mapM register = some regs) :
    ∀ q ∈ regs, q < 32 := by
  induction ts generalizing regs with
  | nil =>
    obtain rfl := Option.some.inj h
    simp
  | cons t ts ih =>
    rw [mapM_register] at h
    obtain ⟨q, hq, h2⟩ := Option.bind_eq_some_iff.mp h
    obtain ⟨regs', h3, rfl⟩ := Option.map_eq_some_iff.mp h2
    exact List.forall_mem_cons.mpr ⟨register_lt hq, ih h3⟩

/-- The word of an instruction is what the arguments add up to. -/
lemma encode_eq {op : ℕ} {regs : List ℕ} {last : Operand} :
    op * 2 ^ 56 + regFields regs 56 + lastBits (56 - 5 * regs.length) last =
      encode op regs last := by
  cases last with
  | imm v => rfl
  | reg q =>
    rw [lastBits, encode, regFields_snoc]
    ring
  | label t => exact Nat.add_zero _

lemma lastOperand_label {n : ℕ} {tok : Token} (h : lastOperand n t = .label tok) : tok = t := by
  unfold lastOperand at h
  split at h
  · cases h
  · split at h
    · cases h
    · exact (Operand.label.inj h).symm

lemma leftAfter_eq {n : ℕ} {u : Token} {last : Operand} (op : ℕ) (regs : List ℕ)
    (us : List Token) (hn : n = 1 ∨ n = 3)
    (h : lastOperand n u = last) :
    leftAfter u us = if Bare (.instr op regs last) then us.tail else us := by
  have hreg : lastOperand n regDes = .label regDes := by rcases hn with rfl | rfl <;> decide
  cases last with
  | imm v | reg q =>
    refine (if_neg ?_).trans (if_neg id).symm
    rintro rfl
    rw [hreg] at h
    cases h
  | label tok =>
    rw [← lastOperand_label h]
    rfl

/-- What `compile_instr` does at the operands `ts`. -/
lemma compileInstr_spec {op : ℕ} (hc : Closed code) (h : Place code c.idx ts s)
    (hop : op < instructions.length) :
    match firstInstr op ts with
    | .stmt st us => ∃ c' s', compileInstr code c op = some c' ∧
        c'.arr = c.arr ++ wordsOf [st] ∧ c'.lbls = c.lbls ∧
        c'.lblRefs.map (view code) = c.lblRefs.map (view code) ++ refsOf [st] c.prgmCtr ∧
        (∀ l ∈ c'.lblRefs, l ∈ c.lblRefs ∨ tokAt code l.label ≠ []) ∧
        c'.prgmCtr = c.prgmCtr + 1 ∧ (wordsOf [st]).length = 1 ∧ layout [st] c.prgmCtr = [] ∧
        Place code c'.idx (if Bare st then us.tail else us) s'
    | .failed => compileInstr code c op = none
    | .short => ∃ c' w, compileInstr code c op = some c' ∧ c'.arr = c.arr ++ [w] ∧
        c'.lbls = c.lbls ∧ c'.lblRefs = c.lblRefs ++ [⟨code.length, c.prgmCtr⟩] ∧
        Place code c'.idx [] [] := by
  have hn := nArgs_cases hop
  have h0 : nArgs op ≠ 0 := by omega
  have h16 : op < 2 ^ 4 := hop
  have hshift : wshl op opcodeStart = op * 2 ^ 56 := wshl_eq (k := 4) h16 (by decide)
  rw [firstInstr, compileInstr]
  simp only [if_pos h0]
  rw [hshift]
  rcases compileArgs_spec (n := nArgs op - 1) (k := 56) h (.inl hc) (Dvd.intro_left op rfl) (by omega)
    le_rfl with ⟨regs, idx', s', h1, h2, h3, h4, h5, -⟩ | ⟨h1, h2⟩
  · rw [show opcodeStart = 56 from rfl, h3, h1]
    dsimp only
    rw [if_neg (by omega), Option.map_some]
    dsimp only
    have hk : 56 - 5 * (nArgs op - 1) = immBits (nArgs op) := rfl
    rw [hk] at h4 ⊢
    cases hdrop : ts.drop (nArgs op - 1) with
    | nil =>
      rw [hdrop] at h5
      obtain rfl := h5.empty
      rw [compileLast_end h5.here]
      exact ⟨_, _, rfl, rfl, rfl, by rw [h5.here.nil], h5.ignore⟩
    | cons u us =>
      rw [hdrop] at h5
      dsimp only
      have hlt : op * 2 ^ 56 + regFields regs 56 < 2 ^ 62 := by
        have := regFields_lt (mapM_register_lt h1) (k := 56) (by omega)
        omega
      obtain ⟨i', s'', h6, h7⟩ := compileLast_spec hn h4 hlt h5 hc
      obtain ⟨d, r, hs', hu0, hus, hd, -⟩ := h5.cons (.inl hc)
      have hat := h5.here
      rw [hs'] at hat
      have hpos : tokAt code idx' ≠ [] := by rwa [tokAt_eq hat hus hd]
      rw [h6, ← hk, ← h2, encode_eq]
      have hleft := leftAfter_eq op regs us hn (rfl : lastOperand (nArgs op) u = _)
      generalize hlast : lastOperand (nArgs op) u = last at hleft ⊢
      rw [hleft] at h7
      cases last with
      | imm v | reg q =>
        exact ⟨_, s'', rfl, rfl, rfl, by simp [refsOf, refAt], fun l hl => .inl hl, rfl, rfl, rfl,
          h7⟩
      | label tok =>
        obtain rfl := lastOperand_label hlast
        refine ⟨_, s'', rfl, rfl, rfl, ?_, fun l hl => ?_, rfl, rfl, rfl, h7⟩
        · simp [refsOf, refAt, view, tokAt_eq hat hus hd]
        · exact (List.mem_append.mp hl).imp_right fun h => by rwa [List.mem_singleton.mp h]
  · rw [show opcodeStart = 56 from rfl, h2]
    cases hm : (ts.take (nArgs op - 1)).mapM register with
    | none => rfl
    | some regs =>
      dsimp only
      rw [if_pos (h1 regs hm)]
      rfl

/-- What one round does at the tokens `t :: ts`. -/
lemma compileStep_spec (hc : Closed code) (h : Place code c.idx (t :: ts) s)
    (hl : ∀ l ∈ c.lbls, ts.length + 1 < (tokens whitespace (code.drop l.label)).length) :
    match first t ts with
    | .stmt st us => ∃ c' s', compileStep code c = some c' ∧ Advance code c st c' ∧
        Place code c'.idx (if Bare st then us.tail else us) s'
    | .failed => compileStep code c = none
    | .short => ∃ c' w, compileStep code c = some c' ∧ c'.arr = c.arr ++ [w] ∧
        c'.lbls = c.lbls ∧ c'.lblRefs = c.lblRefs ++ [⟨code.length, c.prgmCtr⟩] ∧
        Place code c'.idx [] [] := by
  rw [first]
  cases hw : hexNum t with
  | some w =>
    obtain ⟨c', s', h1, h2, h3⟩ := compileStep_data hc h hw
    exact ⟨c', s', h1, h2, h3⟩
  | none =>
    dsimp only
    cases ho : opcode t with
    | none =>
      obtain ⟨c', s', h1, h2, h3⟩ := compileStep_label hc h hw ho hl
      exact ⟨c', s', h1, h2, h3⟩
    | some op =>
      obtain ⟨e₁, i₁, op', e₂, i₂, h₁, h₂, hstep⟩ := compileStep_of_none (.inl hc) h hw
      obtain ⟨d, r, rfl, h0, hs, hd, hnext⟩ := h.cons (.inl hc)
      rcases opcode_spec h.here hs hd h₁ h₂ with ⟨h3, h4, h5, -⟩ | ⟨-, h4⟩
      · obtain rfl : op = op' := Option.some.inj (ho.symm.trans h4)
        rw [hstep, if_neg (by simp [h3])]
        have hspec := compileInstr_spec (c := { c with idx := i₂ }) hc (hnext _ h5) (opcode_lt ho)
        dsimp only at hspec ⊢
        cases hf : firstInstr op ts with
        | stmt st us =>
          rw [hf] at hspec
          obtain ⟨c', s', g1, g2, g3, g4, g5, g6, g7, g8, g9⟩ := hspec
          refine ⟨c', s', g1, ⟨g2, ?_, g4, by rw [g6, g7], fun l hl => .inl (g3 ▸ hl), g5⟩, g9⟩
          rw [g3, g8, List.append_nil]
        | failed =>
          rw [hf] at hspec
          exact hspec
        | short =>
          rw [hf] at hspec
          exact hspec
      · simp [ho] at h4

/-! ### The loop -/

/-- The variables after a loop that reads the statements of `r`. -/
structure Result (code : List ℕ) (c : Comp) (r : Reading) (c' : Comp) : Prop where
  arr : ∃ more, c'.arr = c.arr ++ wordsOf r.stmts ++ more ∧ (r.ending = .done → more = [])
  lbls : c'.lbls.map (view code) = c.lbls.map (view code) ++ layout r.stmts c.prgmCtr
  refs : ∃ a, c'.lblRefs.map (view code) = c.lblRefs.map (view code) ++ refsOf r.stmts c.prgmCtr ++
    if r.ending = .short then [([], a)] else []
  lblPos : ∀ l ∈ c'.lbls, l ∈ c.lbls ∨ (tokens whitespace (code.drop l.label)) ≠ []
  refPos : ∀ l ∈ c'.lblRefs, l ∈ c.lblRefs ∨ tokAt code l.label ≠ [] ∨ l.label = code.length

lemma wordsOf_cons (st : Stmt) (ss : List Stmt) : wordsOf (st :: ss) = wordsOf [st] ++ wordsOf ss := by
  cases st <;> rfl

lemma layout_cons (st : Stmt) (ss : List Stmt) (a : ℕ) :
    layout (st :: ss) a = layout [st] a ++ layout ss (a + (wordsOf [st]).length) := by
  cases st <;> rfl

lemma refsOf_cons (st : Stmt) (ss : List Stmt) (a : ℕ) :
    refsOf (st :: ss) a = refsOf [st] a ++ refsOf ss (a + (wordsOf [st]).length) := by
  cases st with
  | instr op regs last => cases last <;> rfl
  | _ => rfl

/-- The statements of a round and of the rounds after it. -/
lemma Result.cons {st : Stmt} {r : Reading} {c'' : Comp} (h : Advance code c st c')
    (hi : tokens whitespace (code.drop c.idx) = t :: ts) (hr : Result code c' r c'') :
    Result code c (r.cons st (t :: ts)) c'' := by
  obtain ⟨more, h1, h2⟩ := hr.arr
  obtain ⟨a, h3⟩ := hr.refs
  refine ⟨⟨more, ?_, h2⟩, ?_, ⟨a, ?_⟩, fun l hl => ?_, fun l hl => ?_⟩
  · rw [h1, h.arr, Reading.cons, wordsOf_cons st r.stmts, ← List.append_assoc]
  · rw [hr.lbls, h.lbls, h.ctr, Reading.cons, layout_cons st r.stmts, List.append_assoc]
  · rw [h3, h.refs, h.ctr, Reading.cons, refsOf_cons st r.stmts, ← List.append_assoc]
  · rcases hr.lblPos l hl with h4 | h4
    · refine (h.lblPos l h4).imp_right fun heq => ?_
      rw [heq, hi]
      simp
    · exact .inr h4
  · rcases hr.refPos l hl with h4 | h4
    · exact (h.refPos l h4).imp_right .inl
    · exact .inr h4

/-- The labels found are before the tokens that are left. -/
lemma Advance.labels {st : Stmt} (h : Advance code c st c')
    (hi : tokens whitespace (code.drop c.idx) = t :: ts) (hle : us.length ≤ ts.length)
    (hl : ∀ l ∈ c.lbls, ts.length + 1 < (tokens whitespace (code.drop l.label)).length) :
    ∀ l ∈ c'.lbls, us.length < (tokens whitespace (code.drop l.label)).length := by
  intro l h1
  rcases h.lblPos l h1 with h2 | h2
  · have := hl l h2
    omega
  · rw [h2, hi, List.length_cons]
    omega

lemma first_length {st : Stmt} (h : first t ts = .stmt st us) : us.length ≤ ts.length := by
  unfold first at h
  split at h
  · cases h; rfl
  · split at h
    · cases h; rfl
    · unfold firstInstr at h
      split at h
      · cases h
      · split_ifs at h
        split at h
        · cases h
        · next u us' hdrop =>
          obtain ⟨-, rfl⟩ := First.stmt.inj h
          have := congrArg List.length hdrop
          rw [List.length_drop, List.length_cons] at this
          omega

lemma BareFollowed.of_cons {st : Stmt} {r : Reading} (h : ¬ BareFollowed (r.cons st ts)) :
    ¬ BareFollowed r := by
  rintro ⟨i, st', h1, h2, h3⟩
  exact h ⟨i + 1, st', h1, h2, h3.imp_left fun hlt => by simpa [Reading.cons] using hlt⟩

lemma readTokens_nil (m : ℕ) : readTokens m [] = ⟨[], [], .done⟩ := by cases m <;> rfl

/-- Only the empty list of tokens has a reading without any statement that ends well. -/
lemma eq_nil_of_readTokens {m : ℕ} (h : (readTokens m ts).stmts = []) (he : (readTokens m ts).ending = .done) :
    ts = [] := by
  cases ts with
  | nil => rfl
  | cons t ts =>
    cases m with
    | zero => simp [readTokens] at he
    | succ m =>
      rw [readTokens] at h he
      cases hf : first t ts with
      | stmt st us => simp [hf, Reading.cons] at h
      | failed => simp [hf] at he
      | short => simp [hf] at he

/-- A bare operand that nothing follows. -/
lemma eq_nil_of_bare {st : Stmt} {m : ℕ} (h : ¬ BareFollowed ((readTokens m us).cons st ts))
    (hb : Bare st) : us = [] := by
  by_contra hne
  refine h ⟨0, st, rfl, hb, ?_⟩
  by_contra hc
  rw [not_or, not_not] at hc
  refine hne (eq_nil_of_readTokens (m := m) (List.length_eq_zero_iff.mp ?_) hc.2)
  have := hc.1
  simp only [Reading.cons, List.length_cons] at this
  omega

/-- **The loop** reads the statements, as long as no bare operand is followed by a token. -/
lemma compileLoop_spec {n m : ℕ} (hc : Closed code) (h : Place code c.idx ts s) (hn : ts.length < n)
    (hm : ts.length ≤ m) (hb : ¬ BareFollowed (readTokens m ts))
    (hl : ∀ l ∈ c.lbls, ts.length < (tokens whitespace (code.drop l.label)).length) :
    (headsLoop code n c).map (fun i => tokens whitespace (code.drop i)) = (readTokens m ts).left ∧
      ((readTokens m ts).ending = .failed ∧ compileLoop code n c = none ∨
        (readTokens m ts).ending ≠ .failed ∧
          ∃ c', compileLoop code n c = some c' ∧ Result code c (readTokens m ts) c') := by
  induction n generalizing c ts m s with
  | zero => omega
  | succ n ih =>
    rw [headsLoop, compileLoop]
    cases ts with
    | nil =>
      obtain rfl := h.empty
      have hend := h.here.nil
      rw [if_neg (by omega), if_neg (by omega), readTokens_nil]
      refine ⟨rfl, .inr ⟨by simp, c, rfl, ⟨[], by simp [wordsOf], fun _ => rfl⟩, by simp [layout],
        ⟨0, by simp [refsOf]⟩, fun l hl => .inl hl, fun l hl => .inl hl⟩⟩
    | cons t ts =>
      obtain ⟨m, rfl⟩ : ∃ k, m = k + 1 := ⟨m - 1, by simp only [List.length_cons] at hm; omega⟩
      have hlt : c.idx < code.length := by
        obtain ⟨d, r, rfl, h0, -⟩ := h.cons (.inl hc)
        obtain ⟨x, y, rfl⟩ := List.exists_cons_of_ne_nil h0
        exact h.here.lt
      have htok : tokens whitespace (code.drop c.idx) = t :: ts := by rw [h.here.2, h.tokens]
      have hspec := compileStep_spec hc h hl
      rw [if_pos hlt, if_pos hlt]
      rw [readTokens] at hb ⊢
      simp only [List.length_cons] at hn hm hl
      cases hf : first t ts with
      | stmt st us =>
        rw [hf] at hspec hb
        obtain ⟨c', s', h1, h2, h3⟩ := hspec
        have hus : (if Bare st then us.tail else us) = us := by
          split_ifs with hbare
          · rw [eq_nil_of_bare hb hbare]
            rfl
          · rfl
        rw [hus] at h3
        have hle := first_length hf
        obtain ⟨h4, h5⟩ := ih (m := m) h3 (by omega) (by omega) (BareFollowed.of_cons hb)
          (h2.labels htok hle hl)
        rw [h1, Option.bind_some]
        dsimp only
        refine ⟨by rw [List.map_cons, h4, htok]; rfl, ?_⟩
        exact h5.imp_right fun ⟨h6, c'', h7, h8⟩ => ⟨h6, c'', h7, h8.cons h2 htok⟩
      | failed =>
        rw [hf] at hspec
        rw [hspec]
        exact ⟨by simp [htok], .inl ⟨rfl, rfl⟩⟩
      | short =>
        rw [hf] at hspec
        obtain ⟨c', w, h1, h2, h3, h4, h5⟩ := hspec
        obtain ⟨n, rfl⟩ : ∃ k, n = k + 1 := ⟨n - 1, by omega⟩
        have hend := h5.here.nil
        have hview : view code ⟨code.length, c.prgmCtr⟩ = ([], c.prgmCtr) := by
          simp [view, tokAt]
        rw [h1, Option.bind_some]
        dsimp only
        rw [headsLoop, compileLoop, if_neg (by omega), if_neg (by omega)]
        refine ⟨by simp [htok], .inr ⟨by simp, c', rfl, ⟨[w], by simp [wordsOf, h2], by simp⟩,
          by simp [layout, h3], ⟨c.prgmCtr, by simp [refsOf, h4, hview]⟩,
          fun l hl => .inl (h3 ▸ hl), fun l hl => ?_⟩⟩
        rw [h4] at hl
        exact (List.mem_append.mp hl).imp_right fun h => .inr (by rw [List.mem_singleton.mp h])

/-- The first place of a loop is that of its first statement. -/
lemma headsLoop_head {n : ℕ} (us : List Token) (h : Place code c.idx ts s) :
    ((headsLoop code n c).map fun i => tokens whitespace (code.drop i)).head? ≠ some us ∨
      us = ts := by
  cases n with
  | zero => exact .inl (by simp [headsLoop])
  | succ n =>
    rw [headsLoop]
    split_ifs with hlt
    · rw [List.map_cons, List.head?_cons, h.here.2, h.tokens]
      by_cases heq : us = ts
      · exact .inr heq
      · exact .inl fun hc => heq (Option.some.inj hc).symm
    · exact .inl (by simp)

/-- The reading begins with all the tokens left. -/
lemma readTokens_head {m : ℕ} (h : us ≠ []) : (readTokens m us).left.head? = some us := by
  cases us with
  | nil => exact absurd rfl h
  | cons u us =>
    cases m with
    | zero => rfl
    | succ m =>
      rw [readTokens]
      cases first u us <;> rfl

/-- A bare operand that a token follows is the last one of a statement or a later one. -/
lemma BareFollowed.cases_cons {st : Stmt} {r : Reading} (h : BareFollowed (r.cons st ts)) :
    (Bare st ∧ (r.stmts ≠ [] ∨ r.ending ≠ .done)) ∨ BareFollowed r := by
  obtain ⟨i, st', h1, h2, h3⟩ := h
  cases i with
  | zero =>
    obtain rfl := Option.some.inj h1
    refine .inl ⟨h2, h3.imp_left fun hlt => ?_⟩
    rintro h0
    simp [Reading.cons, h0] at hlt
  | succ i =>
    exact .inr ⟨i, st', h1, h2, h3.imp_left fun hlt => by simpa [Reading.cons] using hlt⟩

/-- The loop loses a token after a bare operand. -/
lemma heads_ne {n m : ℕ} (hc : Closed code) (h : Place code c.idx ts s) (hn : ts.length < n)
    (hm : ts.length ≤ m) (hb : BareFollowed (readTokens m ts))
    (hl : ∀ l ∈ c.lbls, ts.length < (tokens whitespace (code.drop l.label)).length) :
    (headsLoop code n c).map (fun i => tokens whitespace (code.drop i)) ≠
      (readTokens m ts).left := by
  induction n generalizing c ts m s with
  | zero => omega
  | succ n ih =>
    cases ts with
    | nil =>
      obtain ⟨i, st, h1, -⟩ := hb
      simp [readTokens_nil] at h1
    | cons t ts =>
      obtain ⟨m, rfl⟩ : ∃ k, m = k + 1 := ⟨m - 1, by simp only [List.length_cons] at hm; omega⟩
      have htok : tokens whitespace (code.drop c.idx) = t :: ts := by rw [h.here.2, h.tokens]
      have hspec := compileStep_spec hc h hl
      have hlt : c.idx < code.length := by
        obtain ⟨d, r, rfl, h0, -⟩ := h.cons (.inl hc)
        obtain ⟨x, y, rfl⟩ := List.exists_cons_of_ne_nil h0
        exact h.here.lt
      rw [headsLoop, if_pos hlt]
      rw [readTokens] at hb ⊢
      simp only [List.length_cons] at hn hm hl
      cases hf : first t ts with
      | failed | short =>
        rw [hf] at hb
        obtain ⟨i, st, h1, -⟩ := hb
        simp at h1
      | stmt st us =>
        rw [hf] at hspec hb
        obtain ⟨c', s', h1, h2, h3⟩ := hspec
        have hle := first_length hf
        rw [h1]
        dsimp only
        rw [List.map_cons, htok, Reading.cons]
        refine fun heq => ?_
        have htail := (List.cons.inj heq).2
        by_cases hbare : Bare st ∧ us ≠ []
        · -- the loop goes on behind the token that is to be read next
          rw [if_pos hbare.1] at h3
          rcases headsLoop_head (n := n) us h3 with h4 | h4
          · rw [htail] at h4
            exact h4 (readTokens_head hbare.2)
          · obtain ⟨u, us', rfl⟩ := List.exists_cons_of_ne_nil hbare.2
            have := congrArg List.length h4
            simp at this
        · have hus : (if Bare st then us.tail else us) = us := by
            split_ifs with hb1
            · have h0 : us = [] := by
                by_contra h0
                exact hbare ⟨hb1, h0⟩
              rw [h0]
              rfl
            · rfl
          rw [hus] at h3
          refine ih (m := m) h3 (by omega) (by omega) ?_ (h2.labels htok hle hl) htail
          rcases BareFollowed.cases_cons hb with ⟨hb1, hb2⟩ | hb1
          · have h0 : us = [] := by
              by_contra h0
              exact hbare ⟨hb1, h0⟩
            rw [h0, readTokens_nil] at hb2
            simp at hb2
          · exact hb1

end LispMachine.AsmCorrect
