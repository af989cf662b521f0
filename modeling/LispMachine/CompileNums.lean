import LispMachine.CompileText
import LispMachine.MachineRun

/-!
Integers and comparisons in the code of the compiler.

A literal becomes the immediate of one instruction, which has 46 bits. The comparison is the sign
bit of a difference, which wraps.
-/

namespace LispMachine.CompileNums

open LispMachine.Memory LispMachine.Asm LispMachine.Machine LispMachine.AsmRef
open LispMachine.AsmStep LispMachine.AsmCorrect LispMachine.AsmParts LispMachine.MachineRun
open LispMachine.MachineStep LispMachine.CompilePy LispMachine.CompileText LispMachine.Lib.Tokens

variable {c c' : Cpu} {v : ℤ} {w : Text} {a b p : ℕ}

/-! ### Literals -/

lemma code_whitespace (hw : ∀ c ∈ w, whitespace c = true) : Code w [] := by
  have htok : tokens whitespace w = [] := by
    rw [← List.append_nil w, tokens_seps hw, tokens_nil]
  have hread : reading w = ⟨[], [], .done⟩ := by rw [reading, htok]; rfl
  exact ⟨fun d hd => hw d (List.mem_of_getLast? hd), by rw [hread], by rw [hread]⟩

/-- The words of a literal. -/
lemma compile_compileInt (v : ℤ) (hw : ∀ c ∈ w, whitespace c = true) :
    compile (compileInt v ++ w) = if v.natAbs < 2 ^ 45 then
      some [encode 9 [rr, rr] (.reg rr), encode 1 [rr, rr] (.imm v)] else none := by
  have hcode := (code_compileInt v).append (code_whitespace hw)
  have hne : compileInt v ++ w ≠ [] := by
    rw [compileInt, show chars "xor r1d r1d r1d\n" = 120 :: chars "or r1d r1d r1d\n" from rfl]
    exact List.cons_ne_nil _ _
  have hbare : ∀ st ∈ intStmts v ++ [], ¬ Bare st := by
    rw [List.append_nil, intStmts, numLine, lastOperand_toHex]
    split_ifs
    · simp [Bare]
    · simpa [Bare] using toHex_ne_regDes v
  rw [compile_code hcode hne hbare, List.append_nil, intStmts, numLine, lastOperand_toHex]
  split_ifs <;> rfl

/-- The instructions of a literal that fits -/
def intCode (v : ℤ) : List Instr := [⟨9, [rr, rr], .reg rr⟩, ⟨1, [rr, rr], .imm v⟩]

lemma intCode_plain (hv : v.natAbs < 2 ^ 45) : ∀ i ∈ intCode v, Plain i := by
  have hfits : Instr.Fits 3 (.imm v) := by
    change -2 ^ 45 < v ∧ v < 2 ^ 45
    omega
  have h2 : Plain ⟨1, [rr, rr], .imm v⟩ :=
    Plain.of_last (o := .imm 0) (by decide) (by decide) hfits
  simpa [intCode] using ⟨by decide, h2⟩

lemma intCode_block (p : ℕ) (v : ℤ) (c : Cpu) :
    block p (intCode v) c = c.setReg rr (toWord v) := by
  have h0 : rd p c rr ^^^ rd p c rr = 0 := Nat.xor_self _
  have h1 : wadd 0 (toWord v) = toWord v := by
    rw [wadd, Nat.zero_add, Nat.mod_eq_of_lt (toWord_lt v)]
  have h2 : line p ⟨9, [rr, rr], .reg rr⟩ c = c.setReg rr 0 := by
    change c.setReg rr (rd p c rr ^^^ rd p c rr) = _
    rw [h0]
  have h3 : line (p + 1) ⟨1, [rr, rr], .imm v⟩ (c.setReg rr 0) =
      (c.setReg rr 0).setReg rr (toWord v) := by
    change (c.setReg rr 0).setReg rr (wadd (rd (p + 1) (c.setReg rr 0) rr) (toWord v)) = _
    rw [rd, if_neg (by decide), setReg_regs, if_pos rfl, h1]
  rw [intCode, block, h2, block, h3, block, setReg_setReg]

/-- The text of the literal, with separators after it, is assembled, and the two words leave its
value in `r1d` wherever they are run. -/
def Survives (v : ℤ) : Prop :=
  ∀ w : Text, (∀ c ∈ w, whitespace c = true) →
    ∃ x y, compile (compileInt v ++ w) = some [x, y] ∧
      ∀ c : Cpu, c.regs sr &&& excContMask ≠ 0 → c.regs pc + 2 < wordMod →
        c.mem (addr (c.regs pc)) = x → c.mem (addr (c.regs pc + 1)) = y →
        Runs c ((c.setReg rr (toWord v)).setReg pc (c.regs pc + 2))

lemma survives_of_lt (hv : v.natAbs < 2 ^ 45) : Survives v := by
  intro w hw
  refine ⟨_, _, by rw [compile_compileInt v hw, if_pos hv], fun c hrun hlt hx hy => ?_⟩
  have hloaded : Loaded (c.regs pc) (intCode v) c.mem := by
    intro k i hi
    match k, hi with
    | 0, hi => cases hi; exact hx
    | 1, hi => cases hi; exact hy
  have hwrites : writes (c.regs pc) (intCode v) c = [] := rfl
  have h := block_runs (intCode_plain hv) rfl hrun hloaded (by simp [hwrites]) hlt
  rwa [intCode_block] at h

lemma not_survives_of_le (hv : 2 ^ 45 ≤ v.natAbs) : ¬ Survives v := by
  intro h
  obtain ⟨x, y, heq, -⟩ := h [] (by simp)
  rw [compile_compileInt v (by simp), if_neg (by omega)] at heq
  cases heq

/-- **A literal** survives if and only if it is less than `2 ^ 45` in absolute value. -/
theorem constant_survives_iff (v : ℤ) : Survives v ↔ v.natAbs < 2 ^ 45 :=
  ⟨fun h => not_le.mp fun hle => not_survives_of_le hle h, survives_of_lt⟩

/-- The literal `200000000000` is taken for a label. -/
theorem not_constant_survives : ¬ ∀ v : ℤ, -2 ^ 63 ≤ v → v < 2 ^ 64 → Survives v :=
  fun h => not_survives_of_le (v := 2 ^ 45) (by decide) (h _ (by decide) (by decide))

/-! ### Programs in the memory -/

/-- The program `code` is assembled, and its words are in the memory from `base` on. -/
def Holds (code : Text) (base : ℕ) (m : Mem) : Prop :=
  ∃ ws, compile code = some ws ∧ ∀ k w, ws[k]? = some w → m (addr (base + k)) = w

/-- The words of statements are in the memory from `p` on, with some addresses for their labels. -/
def Placed (p : ℕ) (ss : List Stmt) (m : Mem) : Prop :=
  ∃ labels ws, emit labels ss = some ws ∧ ∀ k w, ws[k]? = some w → m (addr (p + k)) = w

lemma emit_cons (labels : List (Token × ℕ)) (st : Stmt) (ss : List Stmt) :
    emit labels (st :: ss) = (emit labels [st]).bind fun ws => (emit labels ss).map (ws ++ ·) := by
  cases st with
  | data w => rfl
  | label t => simp [emit]
  | instr op regs last =>
    cases last with
    | imm v => rfl
    | reg r => rfl
    | label t =>
      rw [emit, emit]
      cases address labels t <;> rfl

lemma emit_append (labels : List (Token × ℕ)) (ss ss' : List Stmt) :
    emit labels (ss ++ ss') =
      (emit labels ss).bind fun ws => (emit labels ss').map (ws ++ ·) := by
  induction ss with
  | nil => simp [emit]
  | cons st ss ih =>
    rw [List.cons_append, emit_cons, ih, emit_cons labels st ss, Option.bind_assoc]
    refine congrArg _ (funext fun ws => ?_)
    cases emit labels ss <;> cases emit labels ss' <;> simp

lemma emit_length {labels : List (Token × ℕ)} {ss : List Stmt} {ws : List ℕ}
    (h : emit labels ss = some ws) : ws.length = (wordsOf ss).length := by
  induction ss generalizing ws with
  | nil => cases h; rfl
  | cons st ss ih =>
    rw [emit_cons] at h
    obtain ⟨us, hus, h⟩ := Option.bind_eq_some_iff.mp h
    obtain ⟨vs, hvs, rfl⟩ := Option.map_eq_some_iff.mp h
    rw [wordsOf_cons, List.length_append, List.length_append, ih hvs]
    refine congrArg (· + _) ?_
    cases st with
    | data w => exact congrArg List.length (Option.some.inj hus).symm
    | label t => exact congrArg List.length (Option.some.inj hus).symm
    | instr op regs last =>
      cases last with
      | imm v => exact congrArg List.length (Option.some.inj hus).symm
      | reg r => exact congrArg List.length (Option.some.inj hus).symm
      | label t =>
        obtain ⟨a, -, h⟩ := Option.bind_eq_some_iff.mp hus
        simp [← Option.some.inj h, wordsOf]

variable {ss ss' ss₀ ss₁ ss₂ ss₃ : List Stmt} {m : Mem} {is : List Instr}

lemma Placed.append (h : Placed p (ss ++ ss') m) :
    Placed p ss m ∧ Placed (p + (wordsOf ss).length) ss' m := by
  obtain ⟨labels, ws, hemit, hmem⟩ := h
  rw [emit_append] at hemit
  obtain ⟨us, hus, h⟩ := Option.bind_eq_some_iff.mp hemit
  obtain ⟨vs, hvs, rfl⟩ := Option.map_eq_some_iff.mp h
  refine ⟨⟨labels, us, hus, fun k w hk => ?_⟩, labels, vs, hvs, fun k w hk => ?_⟩
  · refine hmem k w ?_
    rwa [List.getElem?_append_left (List.getElem?_eq_some_iff.mp hk).1]
  · rw [← emit_length hus, Nat.add_assoc]
    refine hmem _ w ?_
    rwa [List.getElem?_append_right (Nat.le_add_right ..), Nat.add_sub_cancel_left]

/-- An instruction as a statement -/
def stmt (i : Instr) : Stmt := .instr i.op i.regs i.last

lemma emit_instrs (labels : List (Token × ℕ)) (h : ∀ i ∈ is, Plain i) :
    emit labels (is.map stmt) = some (is.map Instr.word) := by
  induction is with
  | nil => rfl
  | cons i is ih =>
    have h1 := (h i (by simp)).valid.last
    rw [List.map_cons, emit_cons, ih fun i hi => h i (by simp [hi])]
    obtain ⟨op, regs, last⟩ := i
    cases last with
    | imm v => rfl
    | reg r => rfl
    | label t => exact absurd h1 id

lemma Placed.loaded (h : Placed p (is.map stmt) m) (hi : ∀ i ∈ is, Plain i) : Loaded p is m := by
  obtain ⟨labels, ws, hemit, hmem⟩ := h
  obtain rfl := Option.some.inj (hemit.symm.trans (emit_instrs labels hi))
  intro k i hk
  exact hmem k _ (by rw [List.getElem?_map, hk]; rfl)

/-- **A part of a program** is in the memory where the words before it end. -/
lemma Holds.placed {pre t post : Text} {base : ℕ} (h : Holds (pre ++ t ++ post) base m)
    (hpre : Code pre ss₀) (ht : Code t ss) (hpost : Code post ss₃) (h0 : t ≠ [])
    (hb : ∀ st ∈ ss₀ ++ ss ++ ss₃, ¬ Bare st) : Placed (base + (wordsOf ss₀).length) ss m := by
  obtain ⟨ws, hws, hmem⟩ := h
  have hall : Placed base (ss₀ ++ ss ++ ss₃) m := by
    have h1 := compile_code ((hpre.append ht).append hpost) (by simp [h0]) hb
    exact ⟨_, ws, h1.symm.trans hws, hmem⟩
  exact hall.append.1.append.2

/-! ### Comparisons -/

/-- The instructions before the operands of `>`, between them, and after them. -/
def before (idx : ℕ) : List Instr := [⟨1, [sp, sp], .imm 2⟩, ⟨13, [0, fp], .imm (idx + 1)⟩]
def between (idx : ℕ) : List Instr := [⟨13, [rr, fp], .imm (idx + 2)⟩]
def after (idx : ℕ) : List Instr :=
  [⟨12, [0, fp], .imm (idx + 2)⟩, ⟨2, [rr, 0], .reg rr⟩, ⟨11, [rr, rr], .imm 63⟩,
    ⟨12, [0, fp], .imm (idx + 1)⟩, ⟨2, [sp, sp], .imm 2⟩]

/-- The state after instructions that do not jump. -/
def past (is : List Instr) (c : Cpu) : Cpu :=
  (block (c.regs pc) is c).setReg pc (c.regs pc + is.length)

lemma plain_around {idx : ℕ} (h : idx + 2 < 2 ^ 45) :
    (∀ i ∈ before idx, Plain i) ∧ (∀ i ∈ between idx, Plain i) ∧ ∀ i ∈ after idx, Plain i := by
  have hfits (k : ℕ) (hk : k ≤ 2) : Instr.Fits 3 (.imm (idx + k)) := by
    change -2 ^ 45 < (idx + k : ℤ) ∧ (idx + k : ℤ) < 2 ^ 45
    omega
  have h1 := hfits 1 (by decide)
  have h2 := hfits 2 (by decide)
  have hstr : Plain ⟨13, [0, fp], .imm (idx + 1)⟩ :=
    Plain.of_last (o := .imm 0) (by decide) (by decide) h1
  have hstr' : Plain ⟨13, [rr, fp], .imm (idx + 2)⟩ :=
    Plain.of_last (o := .imm 0) (by decide) (by decide) h2
  have hldr : Plain ⟨12, [0, fp], .imm (idx + 1)⟩ :=
    Plain.of_last (o := .imm 0) (by decide) (by decide) h1
  have hldr' : Plain ⟨12, [0, fp], .imm (idx + 2)⟩ :=
    Plain.of_last (o := .imm 0) (by decide) (by decide) h2
  refine ⟨?_, ?_, ?_⟩
  · simpa [before] using ⟨by decide, hstr⟩
  · simpa [between] using hstr'
  · simpa [after] using ⟨hldr', by decide, by decide, hldr, by decide⟩

/-- The address of a slot of the frame -/
def slot (c : Cpu) (k : ℕ) : ℕ := addr (c.regs fp + k)

/-- The code of an operand leaves `v` in `r1d` after its `n` words, and keeps the frame pointer and
the words at the addresses `keep`. -/
structure Evaluates (n : ℕ) (keep : ℕ → Prop) (c c' : Cpu) (v : ℕ) : Prop where
  runs : Runs c c'
  counter : c'.regs pc = c.regs pc + n
  value : c'.regs rr = v
  frame : c'.regs fp = c.regs fp
  running : c'.regs sr &&& excContMask ≠ 0
  mem : ∀ x, keep x → c'.mem x = c.mem x

/-- The code of `[> x y]` with `n₁` and `n₂` words for `x` and `y` is to be run from `c`, beside the
frame. The operands evaluate to `a` and `b`, from the states in which their code begins, and
without a change to the code; and the first operand, whose code is the last, keeps the value of the
second one. -/
structure Comparison (idx n₁ n₂ : ℕ) (c c₂ c₁ : Cpu) (a b : ℕ) : Prop where
  running : c.regs sr &&& excContMask ≠ 0
  slots : idx + 2 < 2 ^ 45
  room : c.regs pc + (n₁ + n₂ + 8) < wordMod
  apart : ∀ k < n₁ + n₂ + 8, ∀ j ∈ [1, 2], slot c (idx + j) ≠ addr (c.regs pc + k)
  second : Evaluates n₂ (fun x => ∃ k < n₁ + n₂ + 8, x = addr (c.regs pc + k))
    (past (before idx) c) c₂ b
  first : Evaluates n₁ (fun x => x = slot c (idx + 2) ∨
    ∃ k < n₁ + n₂ + 8, x = addr (c.regs pc + k)) (past (between idx) c₂) c₁ a
  words : a < wordMod ∧ b < wordMod

variable {idx n₁ n₂ : ℕ} {c₁ c₂ : Cpu}

/-- The code of a comparison in three pieces around the operands -/
def gtStmts (idx : ℕ) (ss₁ ss₂ : List Stmt) : List Stmt :=
  (before idx).map stmt ++ ss₂ ++ (between idx).map stmt ++ ss₁ ++ (after idx).map stmt

lemma gtStmts_eq (h : idx + 2 < 2 ^ 45) : binaryStmts idx ss₂ ss₁
    [.instr 2 [rr, 0] (.reg rr), .instr 11 [rr, rr] (.imm 63)] = gtStmts idx ss₁ ss₂ := by
  have hline (o d a k : ℕ) (hk : k ≤ 2) :
      numLine o d a (idx + k) = .instr o [d, a] (.imm (idx + k)) := by
    rw [numLine, lastOperand_toHex, if_pos (by omega)]
  have h1 := hline 13 0 fp 1 (by decide)
  have h2 := hline 13 rr fp 2 (by decide)
  have h3 := hline 12 0 fp 2 (by decide)
  have h4 := hline 12 0 fp 1 (by decide)
  simp only [Nat.cast_one, Nat.cast_ofNat] at h1 h2 h3 h4
  rw [binaryStmts, h1, h2, h3, h4]
  simp [gtStmts, before, between, after, stmt]

/-- What is placed `k` words behind `p` is placed at the program counter, if the code is as it
was. -/
lemma Placed.moved {n k : ℕ} (h : Placed (p + k) ss m) (hpc : c.regs pc = p + k)
    (hm : ∀ j < n, c.mem (addr (p + j)) = m (addr (p + j))) (hk : k + (wordsOf ss).length ≤ n) :
    Placed (c.regs pc) ss c.mem := by
  obtain ⟨labels, ws, hemit, hmem⟩ := h
  refine ⟨labels, ws, hemit, fun j w hj => ?_⟩
  have hlt := (List.getElem?_eq_some_iff.mp hj).1
  rw [emit_length hemit] at hlt
  rw [hpc, Nat.add_assoc, hm _ (by omega), ← Nat.add_assoc, hmem j w hj]

lemma wordsOf_instrs (is : List Instr) : (wordsOf (is.map stmt)).length = is.length := by
  induction is with
  | nil => rfl
  | cons i is ih =>
    rw [List.map_cons, wordsOf_cons, List.length_append, ih, List.length_cons, Nat.add_comm]
    rfl

/-- Where the pieces and the operands are placed. -/
lemma placed_gt (h : Placed p (gtStmts idx ss₁ ss₂) m) :
    Placed p ((before idx).map stmt) m ∧ Placed (p + 2) ss₂ m ∧
      Placed (p + (2 + (wordsOf ss₂).length)) ((between idx).map stmt) m ∧
      Placed (p + (3 + (wordsOf ss₂).length)) ss₁ m ∧
      Placed (p + (3 + (wordsOf ss₂).length + (wordsOf ss₁).length)) ((after idx).map stmt) m := by
  obtain ⟨h1, h5⟩ := h.append
  obtain ⟨h1, h4⟩ := h1.append
  obtain ⟨h1, h3⟩ := h1.append
  obtain ⟨h1, h2⟩ := h1.append
  simp only [wordsOf_append, List.length_append, wordsOf_instrs] at h2 h3 h4 h5
  have hbefore : (before idx).length = 2 := rfl
  have hbetween : (between idx).length = 1 := rfl
  have h4' : 3 + (wordsOf ss₂).length =
      (before idx).length + (wordsOf ss₂).length + (between idx).length := by
    omega
  have h5' : 3 + (wordsOf ss₂).length + (wordsOf ss₁).length =
      (before idx).length + (wordsOf ss₂).length + (between idx).length + (wordsOf ss₁).length := by
    omega
  exact ⟨h1, h2, h3, h4' ▸ h4, h5' ▸ h5⟩

/-! ### What the pieces do -/

lemma past_pc (is : List Instr) (c : Cpu) : (past is c).regs pc = c.regs pc + is.length := by
  rw [past, setReg_regs, if_pos rfl]

lemma past_regs {r : ℕ} (hi : ∀ i ∈ is, Plain i) (hr : r ∉ dests is) (hpc : r ≠ pc) :
    (past is c).regs r = c.regs r := by
  rw [past, setReg_regs, if_neg hpc]
  exact block_regs hi hr

lemma past_mem {x : ℕ} (hi : ∀ i ∈ is, Plain i) (hx : x ∉ writes (c.regs pc) is c) :
    (past is c).mem x = c.mem x := by
  rw [past, setReg_mem]
  exact block_mem hi hx

/-- A piece of the code at `p`, `k` words behind, is carried out, and the code is as before. -/
lemma runs_piece {n k : ℕ} (hi : ∀ i ∈ is, Plain i) (hrun : c.regs sr &&& excContMask ≠ 0)
    (hp : Placed (p + k) (is.map stmt) m) (hm : ∀ j < n, c.mem (addr (p + j)) = m (addr (p + j)))
    (hpc : c.regs pc = p + k) (hk : k + is.length ≤ n) (hlt : p + n < wordMod)
    (hw : ∀ x ∈ writes (c.regs pc) is c, ∀ j < n, x ≠ addr (p + j)) :
    Runs c (past is c) ∧ ∀ j < n, (past is c).mem (addr (p + j)) = m (addr (p + j)) := by
  have hadd (j : ℕ) : p + k + j = p + (k + j) := Nat.add_assoc ..
  refine ⟨block_runs hi rfl hrun ?_ ?_ (by omega), fun j hj => ?_⟩
  · exact (hp.moved hpc hm (by rwa [wordsOf_instrs])).loaded hi
  · intro x hx j hj
    rw [hpc, hadd]
    exact hw x hx _ (by omega)
  · rw [past_mem hi fun hx => hw _ hx j hj rfl]
    exact hm j hj

lemma slot_eq {k : ℕ} (h : k < 2 ^ 45) (c : Cpu) :
    addr (c.regs fp + toWord (k : ℤ)) = slot c k := by
  rw [toWord_natCast (h.trans (by decide)), slot]

lemma writes_before (h : idx + 2 < 2 ^ 45) (c : Cpu) :
    writes (c.regs pc) (before idx) c = [slot c (idx + 1)] := by
  rw [← slot_eq (by omega), Nat.cast_add, Nat.cast_one]
  rfl

lemma writes_between (h : idx + 2 < 2 ^ 45) (c : Cpu) :
    writes (c.regs pc) (between idx) c = [slot c (idx + 2)] := by
  rw [← slot_eq h, Nat.cast_add, Nat.cast_ofNat]
  rfl

lemma mem_between (h : idx + 2 < 2 ^ 45) (c : Cpu) :
    (past (between idx) c).mem (slot c (idx + 2)) = c.regs rr := by
  have h1 := slot_eq h c
  rw [Nat.cast_add, Nat.cast_ofNat] at h1
  change c.mem.set (addr (c.regs fp + toWord (idx + 2))) (c.regs rr) (slot c (idx + 2)) = _
  rw [h1, set_apply, if_pos rfl]

/-- The sign bit of the difference -/
lemma rr_after (h : idx + 2 < 2 ^ 45) (c : Cpu) :
    (past (after idx) c).regs rr = wsub (c.mem (slot c (idx + 2))) (c.regs rr) / 2 ^ 63 := by
  have h1 := slot_eq h c
  rw [Nat.cast_add, Nat.cast_ofNat] at h1
  have hshf (q x : ℕ) (c : Cpu) (hx : c.regs rr = x) :
      (line q ⟨11, [rr, rr], .imm 63⟩ c).regs rr = x / 2 ^ 63 := by
    have halu : alu 11 x (toWord 63) = some (x / 2 ^ 63) := by
      rw [alu, sword_toWord (by decide), if_pos (by decide), shifted, if_neg (by decide)]
      norm_num
    have hline : line q ⟨11, [rr, rr], .imm 63⟩ c =
        c.setReg rr ((alu 11 (rd q c rr) (toWord 63)).getD 0) := rfl
    rw [hline, rd, if_neg (by decide), hx, halu, Option.getD_some, setReg_regs, if_pos rfl]
  have halu (x y : ℕ) : alu 2 x y = some (wsub x y) := by rw [alu]
  have hsbs (q : ℕ) (c : Cpu) :
      (line q ⟨2, [rr, 0], .reg rr⟩ c).regs rr = wsub (c.regs 0) (c.regs rr) := by
    have hline : line q ⟨2, [rr, 0], .reg rr⟩ c =
        c.setReg rr ((alu 2 (rd q c 0) (rd q c rr)).getD 0) := rfl
    rw [hline, halu, Option.getD_some, setReg_regs, if_pos rfl, rd, if_neg (by decide), rd,
      if_neg (by decide)]
  have hldr (q : ℕ) (c : Cpu) : line q ⟨12, [0, fp], .imm (idx + 2)⟩ c =
      c.setReg 0 (c.mem (addr (c.regs fp + toWord (idx + 2)))) := rfl
  have hlast : ∀ i ∈ (after idx).drop 3, Plain i := fun i hi =>
    (plain_around h).2.2 i (List.mem_of_mem_drop hi)
  rw [past, setReg_regs, if_neg (by decide), after, block, block, block]
  refine (block_regs hlast (show rr ∉ [0, sp] by decide)).trans (hshf _ _ _ ?_)
  rw [hsbs, hldr, h1, setReg_regs, setReg_regs, if_pos rfl, if_neg (by decide)]

lemma writes_after (idx : ℕ) (c : Cpu) : writes (c.regs pc) (after idx) c = [] := rfl

/-- The code of a comparison leaves the sign bit of the difference of its operands. -/
lemma Comparison.result (h : Comparison idx (wordsOf ss₁).length (wordsOf ss₂).length c c₂ c₁ a b)
    (hp : Placed (c.regs pc) (gtStmts idx ss₁ ss₂) c.mem) :
    ∃ c', Runs c c' ∧
      c'.regs pc = c.regs pc + ((wordsOf ss₁).length + (wordsOf ss₂).length + 8) ∧
      c'.regs rr = wsub b a / 2 ^ 63 := by
  obtain ⟨hp1, -, hp2, -, hp3⟩ := placed_gt hp
  generalize (wordsOf ss₁).length = n₁ at h hp3 ⊢
  generalize (wordsOf ss₂).length = n₂ at h hp2 hp3 ⊢
  obtain ⟨h1, h2, h3⟩ := plain_around h.slots
  have hlen : (before idx).length = 2 ∧ (between idx).length = 1 ∧ (after idx).length = 5 :=
    ⟨rfl, rfl, rfl⟩
  -- up to the second operand
  obtain ⟨hrun₁, hcode₁⟩ := runs_piece (p := c.regs pc) (k := 0) (n := n₁ + n₂ + 8) h1 h.running
    hp1 (fun _ _ => rfl) rfl (by omega) h.room (by
      rw [writes_before h.slots]
      simpa using fun j hj => h.apart j hj 1 (by simp))
  have hpc₂ : c₂.regs pc = c.regs pc + (2 + n₂) := by
    rw [h.second.counter, past_pc, hlen.1, Nat.add_assoc]
  have hfp₂ : c₂.regs fp = c.regs fp := by
    rw [h.second.frame, past_regs h1 (show fp ∉ [sp] by decide) (by decide)]
  have hslot₂ : slot c₂ (idx + 2) = slot c (idx + 2) := by rw [slot, hfp₂, slot]
  -- up to the first operand
  obtain ⟨hrun₂, hcode₂⟩ := runs_piece (p := c.regs pc) (k := 2 + n₂) (n := n₁ + n₂ + 8) h2
    h.second.running hp2
    (fun j hj => (h.second.mem _ ⟨j, hj, rfl⟩).trans (hcode₁ j hj)) hpc₂ (by omega) h.room (by
      rw [writes_between h.slots, hslot₂]
      simpa using fun j hj => h.apart j hj 2 (by simp))
  have hpc₃ : c₁.regs pc = c.regs pc + (3 + n₂ + n₁) := by
    rw [h.first.counter, past_pc, hpc₂, hlen.2.1]
    omega
  have hfp₃ : c₁.regs fp = c.regs fp := by
    rw [h.first.frame, past_regs h2 (show fp ∉ [] by decide) (by decide), hfp₂]
  have hb : c₁.mem (slot c₁ (idx + 2)) = b := by
    have hslot₃ : slot c₁ (idx + 2) = slot c (idx + 2) := by rw [slot, hfp₃, slot]
    rw [hslot₃, h.first.mem _ (.inl rfl), ← hslot₂, mem_between h.slots, h.second.value]
  -- up to the end
  obtain ⟨hrun₃, -⟩ := runs_piece (p := c.regs pc) (k := 3 + n₂ + n₁) (n := n₁ + n₂ + 8) h3
    h.first.running hp3
    (fun j hj => (h.first.mem _ (.inr ⟨j, hj, rfl⟩)).trans (hcode₂ j hj)) hpc₃ (by omega) h.room (by
      rw [writes_after]
      simp)
  refine ⟨past (after idx) c₁, ?_, ?_, ?_⟩
  · exact (hrun₁.trans h.second.runs).trans ((hrun₂.trans h.first.runs).trans hrun₃)
  · rw [past_pc, hpc₃, hlen.2.2]
    omega
  · rw [rr_after h.slots, hb, h.first.value]

/-- The sign bit of the wrapped difference is that of the difference unless it overflows. -/
lemma sign_iff (ha : a < wordMod) (hb : b < wordMod) :
    wsub b a / 2 ^ 63 = (if sword b < sword a then 1 else 0) ↔
      -2 ^ 63 ≤ sword b - sword a ∧ sword b - sword a < 2 ^ 63 := by
  have hdiv (x : ℕ) (hx : x < wordMod) : x / 2 ^ 63 = if x < 2 ^ 63 then 0 else 1 := by
    unfold wordMod at hx
    split_ifs <;> omega
  rw [hdiv _ (wsub_lt b a)]
  rcases le_or_gt a b with h | h
  · rw [wsub_eq h hb]
    unfold sword wordMod at *
    split_ifs <;> first | omega | (rw [false_iff]; omega)
  · have hw : wsub b a = b + wordMod - a := by
      rw [wsub, Nat.mod_eq_of_lt ha, Nat.mod_eq_of_lt (by omega)]
    rw [hw]
    unfold sword wordMod at *
    split_ifs <;> first | omega | (rw [false_iff]; omega)

/-! ### Variables as operands -/

/-- The instruction that loads a slot -/
def loadVar (k : ℕ) : Instr := ⟨12, [rr, fp], .imm k⟩

lemma loadVar_plain {k : ℕ} (h : k < 2 ^ 45) : ∀ i ∈ [loadVar k], Plain i := by
  have hfits : Instr.Fits 3 (.imm k) := by
    change -2 ^ 45 < (k : ℤ) ∧ (k : ℤ) < 2 ^ 45
    omega
  have hzero : Plain ⟨12, [rr, fp], .imm 0⟩ := by decide
  simpa [loadVar] using hzero.of_last (by decide) hfits

/-- The code of a variable evaluates to the word in its slot. -/
lemma evaluates_var {k : ℕ} (hk : k < 2 ^ 45) (hrun : c.regs sr &&& excContMask ≠ 0)
    (hp : Placed (c.regs pc) ([loadVar k].map stmt) c.mem) (hlt : c.regs pc + 1 < wordMod)
    (keep : ℕ → Prop) : Evaluates 1 keep c (past [loadVar k] c) (c.mem (slot c k)) := by
  have hi := loadVar_plain hk
  have hkeep {r : ℕ} (hr : r ∉ [rr]) (hpc : r ≠ pc) : (past [loadVar k] c).regs r = c.regs r :=
    past_regs hi hr hpc
  refine ⟨(runs_piece (k := 0) (n := 1) hi hrun hp (fun _ _ => rfl) rfl le_rfl hlt (by simp [
    writes, written, loadVar])).1, past_pc _ _, ?_, hkeep (by decide) (by decide), ?_, ?_⟩
  · rw [← slot_eq hk]
    rfl
  · rwa [hkeep (by decide) (by decide)]
  · exact fun x _ => past_mem hi (by simp [writes, written, loadVar])

/-- Two variables are compared, if their slots are not those of the comparison. -/
lemma comparison_vars {k l : ℕ} (hrun : c.regs sr &&& excContMask ≠ 0) (hidx : idx + 2 < 2 ^ 45)
    (hp : Placed (c.regs pc) (gtStmts idx ([loadVar k].map stmt) ([loadVar l].map stmt)) c.mem)
    (hlt : c.regs pc + 10 < wordMod) (hk : k ≤ idx) (hl : l ≤ idx)
    (hapart : ∀ n < 10, ∀ j ∈ [1, 2], slot c (idx + j) ≠ addr (c.regs pc + n))
    (hslots : ∀ n ∈ [k, l], ∀ j ∈ [1, 2], slot c n ≠ slot c (idx + j))
    (hwords : c.mem (slot c k) < wordMod ∧ c.mem (slot c l) < wordMod) :
    ∃ c₂ c₁, Comparison idx 1 1 c c₂ c₁ (c.mem (slot c k)) (c.mem (slot c l)) := by
  obtain ⟨hp1, hp2, hp3, hp4, -⟩ := placed_gt hp
  obtain ⟨h1, h2, -⟩ := plain_around hidx
  have hslot {q : Cpu} (hq : q.regs fp = c.regs fp) (n : ℕ) : slot q n = slot c n := by
    rw [slot, hq, slot]
  -- the second operand
  generalize hq : past (before idx) c = q
  have hqpc : q.regs pc = c.regs pc + 2 := hq ▸ past_pc _ _
  have hqfp : q.regs fp = c.regs fp := hq ▸ past_regs h1 (show fp ∉ [sp] by decide) (by decide)
  have hqsr : q.regs sr = c.regs sr := hq ▸ past_regs h1 (show sr ∉ [sp] by decide) (by decide)
  have hqmem : ∀ x, x ≠ slot c (idx + 1) → q.mem x = c.mem x := fun x hx =>
    hq ▸ past_mem h1 (by rw [writes_before hidx]; simpa using hx)
  have hqcode (n : ℕ) (hn : n < 10) := hqmem _ (hapart n hn 1 (by simp)).symm
  have hq2 := hp2.moved hqpc hqcode (show 2 + 1 ≤ 10 by decide)
  generalize hq₂ : past [loadVar l] q = c₂
  have hsecond : Evaluates 1 (fun x => ∃ n < 1 + 1 + 8, x = addr (c.regs pc + n)) q c₂
      (c.mem (slot c l)) := by
    rw [← hqmem _ (hslots l (by simp) 1 (by simp)), ← hslot hqfp l, ← hq₂]
    exact evaluates_var (by omega) (hqsr ▸ hrun) hq2 (by omega) _
  have hfp₂ : c₂.regs fp = c.regs fp := hsecond.frame.trans hqfp
  have hmem₂ : ∀ x, x ≠ slot c (idx + 1) → c₂.mem x = c.mem x := fun x hx =>
    (congrArg (Cpu.mem · x) hq₂).symm.trans
      ((past_mem (loadVar_plain (by omega)) (by simp [writes, written, loadVar])).trans
        (hqmem x hx))
  -- the first operand
  generalize hr : past (between idx) c₂ = r
  have hrpc : r.regs pc = c.regs pc + (3 + 1) := by
    rw [← hr, past_pc, hsecond.counter, hqpc]
    rfl
  have hrfp : r.regs fp = c.regs fp :=
    (hr ▸ past_regs h2 (show fp ∉ [] by decide) (by decide)).trans hfp₂
  have hrsr : r.regs sr = c₂.regs sr := hr ▸ past_regs h2 (show sr ∉ [] by decide) (by decide)
  have hrmem : ∀ x, (∀ j ∈ [1, 2], x ≠ slot c (idx + j)) → r.mem x = c.mem x := fun x hx =>
    (hr ▸ past_mem h2 (by rw [writes_between hidx, hslot hfp₂]; simpa using hx 2 (by simp))).trans
      (hmem₂ x (hx 1 (by simp)))
  have hrcode (n : ℕ) (hn : n < 10) := hrmem _ fun j hj => (hapart n hn j hj).symm
  have hfirst : Evaluates 1 (fun x => x = slot c (idx + 2) ∨
      ∃ n < 1 + 1 + 8, x = addr (c.regs pc + n)) r (past [loadVar k] r) (c.mem (slot c k)) := by
    rw [← hrmem _ (hslots k (by simp)), ← hslot hrfp k]
    exact evaluates_var (by omega) (hrsr ▸ hsecond.running)
      (hp4.moved hrpc hrcode (show 3 + 1 + 1 ≤ 10 by decide)) (by omega) _
  exact ⟨c₂, _, ⟨hrun, hidx, hlt, hapart, hq ▸ hsecond, hr ▸ hfirst, hwords⟩⟩

/-- **The comparison** `[> x y]` is right if and only if the difference of the operands does not
overflow. -/
theorem gt_compares_iff {x y : Ast} {env : Env} {ls ls₁ ls₂ : Labels} {ex ey pre post : Text}
    (hy : compileExpr y (idx + 1) env ls = some (ey, ls₁))
    (hx : compileExpr x (idx + 2) env ls₁ = some (ex, ls₂))
    (cy : Code ey ss₂) (cx : Code ex ss₁) (cpre : Code pre ss₀) (cpost : Code post ss₃)
    (hbare : ∀ st ∈ ss₀ ++ gtStmts idx ss₁ ss₂ ++ ss₃, ¬ Bare st) :
    ∃ t, compileExpr (.list [.sym (chars ">"), x, y]) idx env ls = some (t, ls₂) ∧
      ∀ base c c₂ c₁ a b, Holds (pre ++ t ++ post) base c.mem →
        c.regs pc = base + (wordsOf ss₀).length →
        Comparison idx (wordsOf ss₁).length (wordsOf ss₂).length c c₂ c₁ a b →
        ∃ c', Runs c c' ∧
          c'.regs pc = c.regs pc + ((wordsOf ss₁).length + (wordsOf ss₂).length + 8) ∧
          (c'.regs rr = (if sword b < sword a then 1 else 0) ↔
            -2 ^ 63 ≤ sword b - sword a ∧ sword b - sword a < 2 ^ 63) := by
  refine ⟨binaryText idx ey ex (chars "sbs r1d r0 r1d\n" ++ chars "shf r1d r1d 3f\n"), ?_, ?_⟩
  · have hhead : headOf (.sym (chars ">")) =
        .binary ⟨chars "sbs r1d r0 r1d\n" ++ chars "shf r1d r1d 3f\n", true⟩ := by decide
    rw [compileExpr, keyOf, Option.bind_some, hhead, compileCall, hy]
    change (compileExpr x (idx + 2) env ls₁).bind _ = _
    rw [hx]
    rfl
  · intro base c c₂ c₁ a b hholds hpc h
    have hcode : Code (binaryText idx ey ex (chars "sbs r1d r0 r1d\n" ++ chars "shf r1d r1d 3f\n"))
        (gtStmts idx ss₁ ss₂) := by
      rw [← gtStmts_eq h.slots]
      exact code_binaryText idx cy cx (by decide)
    have hplaced := hholds.placed cpre hcode cpost (by simp [binaryText, chars]) hbare
    rw [← hpc] at hplaced
    obtain ⟨c', hruns, hend, hval⟩ := h.result hplaced
    exact ⟨c', hruns, hend, by rw [hval]; exact sign_iff h.words.1 h.words.2⟩

/-- The text of `[> x y]` for two variables in the slots 1 and 2 -/
def gtText : Text :=
  binaryText 2 (loadSlot 2) (loadSlot 1)
    (chars "sbs r1d r0 r1d\n" ++ chars "shf r1d r1d 3f\n")

/-- The slots of the two variables -/
def gtEnv : Env := [(.sym (chars "y"), 2), (.sym (chars "x"), 1)]

lemma gtText_eq : compileExpr (.list [.sym (chars ">"), .sym (chars "x"), .sym (chars "y")]) 2
    gtEnv [] = some (gtText, []) := rfl

/-- A machine with this text in the memory from the word 100 on, and with `a` and `b` in the
slots -/
def gtCpu (a b : ℕ) : Cpu where
  regs := fun r => if r = fp then 200 else if r = pc then 100 else if r = sr then 2 ^ 63 else 0
  mem := fun x =>
    if x = 201 then a else if x = 202 then b
    else if x < 100 then 0 else ((compile gtText).getD []).getD (x - 100) 0

lemma gtCpu_holds (a b : ℕ) : Holds ([] ++ gtText ++ []) 100 (gtCpu a b).mem := by
  have hlen : (compile gtText).map List.length = some 10 := by decide +kernel
  obtain ⟨ws, hws, hws10⟩ := Option.map_eq_some_iff.mp hlen
  refine ⟨ws, (congrArg compile (List.append_nil gtText)).trans hws, fun k w hk => ?_⟩
  have hk10 := (List.getElem?_eq_some_iff.mp hk).1
  have haddr : addr (100 + k) = 100 + k := Nat.mod_eq_of_lt (by unfold addrSpace; omega)
  simp only [gtCpu, haddr]
  rw [if_neg (by omega), if_neg (by omega), if_neg (by omega), hws, Option.getD_some,
    Nat.add_sub_cancel_left, List.getD_eq_getElem?_getD, hk, Option.getD_some]

lemma code_gtText : Code gtText (gtStmts 2 ([loadVar 1].map stmt) ([loadVar 2].map stmt)) := by
  decide +kernel

lemma gtCpu_placed (a b : ℕ) : Placed ((gtCpu a b).regs pc)
    (gtStmts 2 ([loadVar 1].map stmt) ([loadVar 2].map stmt)) (gtCpu a b).mem :=
  (gtCpu_holds a b).placed Code.nil code_gtText Code.nil (by decide +kernel) (by decide +kernel)

/-- The comparison of the two variables in this machine -/
lemma gtCpu_comparison {a b : ℕ} (ha : a < wordMod) (hb : b < wordMod) :
    ∃ c₂ c₁, Comparison 2 1 1 (gtCpu a b) c₂ c₁ a b := by
  have hslot (n : ℕ) (hn : n < 10) : slot (gtCpu a b) n = 200 + n :=
    Nat.mod_eq_of_lt (show 200 + n < 2 ^ 61 by omega)
  have haddr (n : ℕ) (hn : n < 10) : addr ((gtCpu a b).regs pc + n) = 100 + n :=
    Nat.mod_eq_of_lt (show 100 + n < 2 ^ 61 by omega)
  have hmem : (gtCpu a b).mem (slot (gtCpu a b) 1) = a ∧
      (gtCpu a b).mem (slot (gtCpu a b) 2) = b := by
    rw [hslot 1 (by decide), hslot 2 (by decide)]
    exact ⟨rfl, rfl⟩
  have h := comparison_vars (show (gtCpu a b).regs sr &&& excContMask ≠ 0 by
      change 2 ^ 63 &&& excContMask ≠ 0
      decide)
    (by decide) (gtCpu_placed a b)
    (show 100 + 10 < 2 ^ 64 by decide) (by decide) (by decide) ?_ ?_
    (by rw [hmem.1, hmem.2]; exact ⟨ha, hb⟩)
  · rwa [hmem.1, hmem.2] at h
  · intro n hn j hj
    rw [haddr n hn]
    simp only [List.mem_cons, List.not_mem_nil, or_false] at hj
    rcases hj with rfl | rfl <;> rw [hslot _ (by decide)] <;> omega
  · intro n hn j hj
    simp only [List.mem_cons, List.not_mem_nil, or_false] at hn hj
    rcases hn with rfl | rfl <;> rcases hj with rfl | rfl <;>
      rw [hslot _ (by decide), hslot _ (by decide)] <;> decide

/-- Five is greater than three. -/
theorem gt_compares_small : ∃ c', Runs (gtCpu 5 3) c' ∧ c'.regs pc = 110 ∧ c'.regs rr = 1 := by
  have hy : compileExpr (.sym (chars "y")) (2 + 1) gtEnv [] = some (loadSlot 2, []) := rfl
  have hx : compileExpr (.sym (chars "x")) (2 + 2) gtEnv [] = some (loadSlot 1, []) := rfl
  have cy : Code (loadSlot 2) ([loadVar 2].map stmt) := by decide +kernel
  have cx : Code (loadSlot 1) ([loadVar 1].map stmt) := by decide +kernel
  obtain ⟨t, ht, h⟩ := gt_compares_iff hy hx cy cx Code.nil Code.nil (by decide +kernel)
  obtain rfl : gtText = t := congrArg Prod.fst (Option.some.inj (gtText_eq.symm.trans ht))
  obtain ⟨c₂, c₁, hc⟩ := gtCpu_comparison (a := 5) (b := 3) (by decide) (by decide)
  obtain ⟨c', hruns, hend, hiff⟩ := h 100 _ c₂ c₁ 5 3 (gtCpu_holds 5 3) rfl hc
  exact ⟨c', hruns, hend, hiff.mpr (by decide)⟩

/-- The least word is taken to be greater than one. -/
theorem gt_overflows : compileExpr (.list [.sym (chars ">"), .sym (chars "x"), .sym (chars "y")]) 2
      [(.sym (chars "y"), 2), (.sym (chars "x"), 1)] [] = some (gtText, []) ∧
    ∃ c₂ c₁ c', Comparison 2 1 1 (gtCpu (2 ^ 63) 1) c₂ c₁ (2 ^ 63) 1 ∧
    Holds ([] ++ gtText ++ []) 100 (gtCpu (2 ^ 63) 1).mem ∧ Runs (gtCpu (2 ^ 63) 1) c' ∧
    c'.regs pc = 110 ∧ c'.regs rr = 1 ∧ ¬ sword 1 < sword (2 ^ 63) := by
  obtain ⟨c₂, c₁, hc⟩ := gtCpu_comparison (a := 2 ^ 63) (b := 1) (by decide) (by decide)
  obtain ⟨c', hruns, hend, hval⟩ := hc.result (gtCpu_placed _ _)
  exact ⟨gtText_eq, c₂, c₁, c', hc, gtCpu_holds _ _, hruns, hend, hval.trans (by decide), by decide⟩

end LispMachine.CompileNums
