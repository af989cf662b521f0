import LispMachine.AsmParts
import LispMachine.CompilePy
import LispMachine.Machine

/-!
What the assembler reads in the texts of the compiler.

A number that is written in hexadecimal is read again as long as it fits into the operand; else it
is taken for a label. In both cases the line is one statement.
-/

namespace LispMachine.CompileText

open LispMachine.Memory LispMachine.Asm LispMachine.AsmRef LispMachine.AsmScan LispMachine.Machine
open LispMachine.AsmStep LispMachine.AsmParts LispMachine.CompilePy

variable {n c d a o idx : ℕ} {v : ℤ} {t e₁ e₂ op : List ℕ} {tok : Token} {ss₁ ss₂ ss : List Stmt}

/-! ### Numbers -/

lemma hexDigit_digitChar : ∀ d < 16, hexDigit d.digitChar.toNat = some d ∧
    whitespace d.digitChar.toNat = false ∧ d.digitChar.toNat ≠ 114 ∧ d.digitChar.toNat ≠ 45 ∧
    d.digitChar.toNat ≠ 10 := by
  decide

lemma hex_of_lt (h : n < 16) : hex n = [n.digitChar.toNat] := by
  rw [hex, Nat.toDigits_of_lt_base h, List.map_singleton]

lemma hex_of_le (h : 16 ≤ n) : hex n = hex (n / 16) ++ [(n % 16).digitChar.toNat] := by
  rw [hex, Nat.toDigits_of_base_le (by decide) h, List.map_append, List.map_singleton]
  rfl

lemma hex_ne_nil (n : ℕ) : hex n ≠ [] := mt List.map_eq_nil_iff.mp Nat.toDigits_ne_nil

lemma mem_hex (h : c ∈ hex n) : ∃ d < 16, c = d.digitChar.toNat := by
  induction n using Nat.strong_induction_on with
  | _ n ih =>
    by_cases hn : n < 16
    · rw [hex_of_lt hn, List.mem_singleton] at h
      exact ⟨n, hn, h⟩
    · rw [hex_of_le (by omega), List.mem_append, List.mem_singleton] at h
      rcases h with h | h
      · exact ih (n / 16) (by omega) h
      · exact ⟨n % 16, by omega, h⟩

lemma hexFrom_concat (v : ℕ) (t : Token) (c : ℕ) :
    hexFrom v (t ++ [c]) = (hexFrom v t).bind fun w => (hexDigit c).map (16 * w + ·) := by
  induction t generalizing v with
  | nil => cases h : hexDigit c <;> simp [hexFrom, h]
  | cons x t ih =>
    rw [List.cons_append, hexFrom, hexFrom]
    cases hexDigit x with
    | none => rfl
    | some d => exact ih _

lemma hexFrom_hex (n : ℕ) : hexFrom 0 (hex n) = some n := by
  induction n using Nat.strong_induction_on with
  | _ n ih =>
    by_cases hn : n < 16
    · rw [hex_of_lt hn, hexFrom, (hexDigit_digitChar n hn).1]
      simp [hexFrom]
    · rw [hex_of_le (by omega), hexFrom_concat, ih (n / 16) (by omega),
        (hexDigit_digitChar (n % 16) (by omega)).1]
      exact congrArg some (Nat.div_add_mod n 16)

lemma hex_length_le : (hex n).length ≤ 16 ↔ n < wordMod := by
  rw [hex, List.length_map, Nat.length_toDigits_le_iff (by decide) (by decide)]
  rfl

lemma hexNum_hex (n : ℕ) : hexNum (hex n) = if n < wordMod then some n else none := by
  have h0 : (hex n).length ≠ 0 := mt List.length_eq_zero_iff.mp (hex_ne_nil n)
  rw [hexNum, hexFrom_hex]
  by_cases h : n < wordMod
  · rw [if_neg (by have := hex_length_le.mpr h; omega), if_pos h]
  · rw [if_pos (.inr (not_le.mp (mt hex_length_le.mp h))), if_neg h]

lemma solid_hex (n : ℕ) : Solid (hex n) := by
  intro c hc
  obtain ⟨d, hd, rfl⟩ := mem_hex hc
  exact (hexDigit_digitChar d hd).2.1

lemma toHex_cases (v : ℤ) :
    (v < 0 ∧ toHex v = 45 :: hex v.natAbs) ∨ (0 ≤ v ∧ toHex v = hex v.natAbs) := by
  unfold toHex
  split_ifs with h
  · exact .inl ⟨h, rfl⟩
  · exact .inr ⟨not_lt.mp h, rfl⟩

lemma solid_toHex (v : ℤ) : Solid (toHex v) := by
  rcases toHex_cases v with ⟨-, h⟩ | ⟨-, h⟩
  · rw [h]
    exact List.forall_mem_cons.mpr ⟨by decide, solid_hex _⟩
  · exact h ▸ solid_hex _

/-- The first character is no `r`. -/
lemma toHex_head (v : ℤ) : ∃ x t, toHex v = x :: t ∧ x ≠ 114 := by
  rcases toHex_cases v with ⟨-, h⟩ | ⟨-, h⟩
  · exact ⟨45, _, h, by decide⟩
  · obtain ⟨x, t, hx⟩ := List.exists_cons_of_ne_nil (hex_ne_nil v.natAbs)
    obtain ⟨d, hd, rfl⟩ := mem_hex (n := v.natAbs) (c := x) (by rw [hx]; simp)
    exact ⟨_, t, h.trans hx, (hexDigit_digitChar d hd).2.2.1⟩

lemma toHex_ne_nil (v : ℤ) : toHex v ≠ [] := by
  obtain ⟨x, t, h, -⟩ := toHex_head v
  exact h ▸ List.cons_ne_nil _ _

lemma toHex_ne_regDes (v : ℤ) : toHex v ≠ regDes := by
  obtain ⟨x, t, h, hx⟩ := toHex_head v
  exact fun heq => hx (List.cons.inj (h.symm.trans heq)).1

lemma toHex_natCast (n : ℕ) : toHex n = hex n := by
  rw [toHex, if_neg (by omega), Int.natAbs_natCast]

lemma immediate_toHex (h : 2 ^ (immBits n - 1) ≤ wordMod) :
    immediate n (toHex v) = if v.natAbs < 2 ^ (immBits n - 1) then some v else none := by
  have hfilter : (hexNum (hex v.natAbs)).filter (· < 2 ^ (immBits n - 1)) =
      if v.natAbs < 2 ^ (immBits n - 1) then some v.natAbs else none := by
    rw [hexNum_hex]
    by_cases h1 : v.natAbs < 2 ^ (immBits n - 1)
    · rw [if_pos (h1.trans_le h), if_pos h1]
      simp [h1]
    · rw [if_neg h1]
      split_ifs <;> simp [not_lt.mp h1]
  rcases toHex_cases v with ⟨hv, heq⟩ | ⟨hv, heq⟩
  · rw [heq, immediate, if_pos (by decide), hfilter]
    split_ifs
    · exact congrArg some (show -(v.natAbs : ℤ) = v by omega)
    · rfl
  · obtain ⟨x, ds, hx⟩ := List.exists_cons_of_ne_nil (hex_ne_nil v.natAbs)
    obtain ⟨d, hd, hxd⟩ := mem_hex (n := v.natAbs) (c := x) (by rw [hx]; simp)
    have hneg : [x] ≠ negSgn := fun h => (hexDigit_digitChar d hd).2.2.2.1
      (hxd.symm.trans (List.cons.inj h).1)
    rw [heq, hx, immediate, if_neg hneg, ← hx, hfilter]
    split_ifs
    · exact congrArg some (Int.natAbs_of_nonneg hv)
    · rfl

lemma register_toHex (v : ℤ) : register (toHex v) = none := by
  obtain ⟨x, t, h, hx⟩ := toHex_head v
  rw [h, register, if_neg]
  exact fun heq => hx (List.cons.inj heq).1

/-- **A number** as the last of three operands. -/
lemma lastOperand_toHex (v : ℤ) :
    lastOperand 3 (toHex v) = if v.natAbs < 2 ^ 45 then .imm v else .label (toHex v) := by
  have himm : immediate 3 (toHex v) = if v.natAbs < 2 ^ 45 then some v else none :=
    immediate_toHex (by decide)
  rw [lastOperand, himm, register_toHex]
  split_ifs <;> rfl

/-! ### Lines -/

/-- An instruction with a number as its last operand -/
def numLine (o d a : ℕ) (v : ℤ) : Stmt := .instr o [d, a] (lastOperand 3 (toHex v))

lemma code_numLine (t : List ℕ) (v : ℤ) (h : instrHead t = some (o, d, a)) (hc : Closed t) :
    Code (t ++ toHex v ++ chars "\n") [numLine o d a v] :=
  code_line h hc (solid_toHex v) (toHex_ne_nil v)

lemma code_storeSlot (v : ℤ) : Code (storeSlot v) [numLine 13 rr fp v] :=
  code_numLine (chars "str r1d r19 ") v (by decide) (by decide)

/-- The statements of a literal -/
def intStmts (v : ℤ) : List Stmt := [.instr 9 [rr, rr] (.reg rr), numLine 1 rr rr v]

lemma code_compileInt (v : ℤ) : Code (compileInt v) (intStmts v) := by
  have h1 : Code (chars "xor r1d r1d r1d\n") [.instr 9 [rr, rr] (.reg rr)] := by decide
  have h2 := code_numLine (chars "ads r1d r1d ") (o := 1) (d := rr) (a := rr) v (by decide)
    (by decide)
  rw [compileInt, List.append_assoc, List.append_assoc, ← List.append_assoc (chars "ads r1d r1d ")]
  exact h1.append h2

/-- The statements of an operation on two operands -/
def binaryStmts (idx : ℕ) (ss₁ ss₂ ss : List Stmt) : List Stmt :=
  [.instr 1 [sp, sp] (.imm 2)] ++ [numLine 13 0 fp (idx + 1)] ++ ss₁ ++
    [numLine 13 rr fp (idx + 2)] ++ ss₂ ++ [numLine 12 0 fp (idx + 2)] ++ ss ++
    [numLine 12 0 fp (idx + 1)] ++ [.instr 2 [sp, sp] (.imm 2)]

lemma code_binaryText (idx : ℕ) (h₁ : Code e₁ ss₁) (h₂ : Code e₂ ss₂) (ho : Code op ss) :
    Code (binaryText idx e₁ e₂ op) (binaryStmts idx ss₁ ss₂ ss) := by
  have hads : Code (chars "ads r18 r18 2\n") [.instr 1 [sp, sp] (.imm 2)] := by decide
  have hsbs : Code (chars "sbs r18 r18 2\n") [.instr 2 [sp, sp] (.imm 2)] := by decide
  have hstr (v : ℤ) := code_numLine (chars "str r0 r19 ") (o := 13) (d := 0) (a := fp) v
    (by decide) (by decide)
  have hldr (v : ℤ) := code_numLine (chars "ldr r0 r19 ") (o := 12) (d := 0) (a := fp) v
    (by decide) (by decide)
  exact (((((((hads.append (hstr _)).append h₁).append (code_storeSlot _)).append h₂).append
    (hldr _)).append ho).append (hldr _)).append hsbs

end LispMachine.CompileText
