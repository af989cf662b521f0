import LispMachine.Asm
import LispMachine.Lib.Tokens

/-!
What the assembler is for: a reading of the text as a list of tokens.

The reading goes through the tokens once, statement by statement. It ends well, or at an operand
that is no register, or at an instruction whose last operand is missing.
-/

namespace LispMachine.AsmRef

open LispMachine.Memory LispMachine.Asm LispMachine.Lib.Tokens

abbrev Token := List ℕ

/-- The number that hex digits stand for after those of `v`. -/
def hexFrom (v : ℕ) : Token → Option ℕ
  | [] => some v
  | c :: tok => (hexDigit c).bind fun d => hexFrom (16 * v + d) tok

/-- The number that 1 to 16 hex digits stand for. -/
def hexNum (tok : Token) : Option ℕ :=
  if tok.length = 0 ∨ 16 < tok.length then none else hexFrom 0 tok

/-- A register: `r` and a number of at most `1f`. -/
def register : Token → Option ℕ
  | [] => none
  | c :: ds => if [c] = regDes then (hexNum ds).filter (· < 32) else none

/-- The number of bits of the last operand of an instruction with `n` operands. -/
def immBits (n : ℕ) : ℕ := 56 - 5 * (n - 1)

/-- An immediate: a number, negated or not, of one bit less. -/
def immediate (n : ℕ) : Token → Option ℤ
  | [] => none
  | c :: ds =>
    if [c] = negSgn then ((hexNum ds).filter (· < 2 ^ (immBits n - 1))).map fun v : ℕ => -(v : ℤ)
    else ((hexNum (c :: ds)).filter (· < 2 ^ (immBits n - 1))).map Int.ofNat

/-- The last operand of an instruction. -/
inductive Operand
  | imm (v : ℤ)
  | reg (r : ℕ)
  | label (tok : Token)
deriving DecidableEq

def lastOperand (n : ℕ) (tok : Token) : Operand :=
  match immediate n tok with
  | some v => .imm v
  | none =>
    match register tok with
    | some r => .reg r
    | none => .label tok

inductive Stmt
  | data (w : ℕ)
  | label (tok : Token)
  | instr (op : ℕ) (regs : List ℕ) (last : Operand)
deriving DecidableEq

/-- The opcode with the name `tok`. -/
def opcode (tok : Token) : Option ℕ := instructions.findIdx? fun d => d.name = tok

inductive Ending
  | done
  | failed
  | short
deriving DecidableEq

/-- The statements, the tokens that are left at the beginning of each one and of that at which
the reading ended, and how it ended. -/
structure Reading where
  stmts : List Stmt
  left : List (List Token)
  ending : Ending

def Reading.cons (s : Stmt) (ts : List Token) (r : Reading) : Reading :=
  ⟨s :: r.stmts, ts :: r.left, r.ending⟩

/-- What the first tokens are: a statement, with the tokens after it, or the end of the
reading. -/
inductive First
  | stmt (s : Stmt) (us : List Token)
  | failed
  | short

/-- An instruction with the opcode `op` and the operands at the beginning of `ts`. -/
def firstInstr (op : ℕ) (ts : List Token) : First :=
  match (ts.take (nArgs op - 1)).mapM register with
  | none => .failed
  | some regs =>
    if regs.length < nArgs op - 1 then .failed
    else
      match ts.drop (nArgs op - 1) with
      | [] => .short
      | u :: us => .stmt (.instr op regs (lastOperand (nArgs op) u)) us

/-- The statement at the beginning of `t :: ts`. -/
def first (t : Token) (ts : List Token) : First :=
  match hexNum t with
  | some w => .stmt (.data w) ts
  | none =>
    match opcode t with
    | none => .stmt (.label t) ts
    | some op => firstInstr op ts

/-- The reading of the tokens, for at most `n` statements. -/
def readTokens : ℕ → List Token → Reading
  | _, [] => ⟨[], [], .done⟩
  | 0, ts => ⟨[], [ts], .failed⟩
  | n + 1, t :: ts =>
    match first t ts with
    | .stmt s us => (readTokens n us).cons s (t :: ts)
    | .failed => ⟨[], [t :: ts], .failed⟩
    | .short => ⟨[], [t :: ts], .short⟩

/-- The reading of a text. -/
def reading (code : List ℕ) : Reading :=
  readTokens (tokens whitespace code).length (tokens whitespace code)

/-! ### The words -/

/-- The labels and their addresses, with the first statement at `a`. -/
def layout : List Stmt → ℕ → List (Token × ℕ)
  | [], _ => []
  | .label t :: ss, a => (t, a) :: layout ss a
  | _ :: ss, a => layout ss (a + 1)

/-- The registers, one after the other below the bit `k`. -/
def regFields : List ℕ → ℕ → ℕ
  | [], _ => 0
  | r :: rs, k => r * 2 ^ (k - 5) + regFields rs (k - 5)

/-- The word of an instruction, without the label. -/
def encode (op : ℕ) (regs : List ℕ) : Operand → ℕ
  | .imm v => op * 2 ^ 56 + regFields regs 56 + (v % 2 ^ (56 - 5 * regs.length)).toNat
  | .reg r => 2 ^ 63 + op * 2 ^ 56 + regFields (regs ++ [r]) 56
  | .label _ => op * 2 ^ 56 + regFields regs 56

/-- The words, without the labels. -/
def wordsOf : List Stmt → List ℕ
  | [] => []
  | .data w :: ss => w :: wordsOf ss
  | .label _ :: ss => wordsOf ss
  | .instr op regs last :: ss => encode op regs last :: wordsOf ss

/-- The address of a label, which is that of its first definition. -/
def address (labels : List (Token × ℕ)) (tok : Token) : Option ℕ :=
  (labels.find? fun l => l.1 = tok).map Prod.snd

/-- The words of the statements: one for each that is no label. -/
def emit (labels : List (Token × ℕ)) : List Stmt → Option (List ℕ)
  | [] => some []
  | .data w :: ss => (emit labels ss).map (w :: ·)
  | .label _ :: ss => emit labels ss
  | .instr op regs (.label tok) :: ss =>
    (address labels tok).bind fun a =>
      (emit labels ss).map ((encode op regs (.label tok) ||| a) :: ·)
  | .instr op regs last :: ss => (emit labels ss).map (encode op regs last :: ·)

/-- The reference assembler. -/
def assemble (code : List ℕ) : Option (List ℕ) :=
  let r := reading code
  match r.ending with
  | .done => emit (layout r.stmts 0) r.stmts
  | .failed => none
  | .short => none

/-! ### The texts that `compile` does not read right -/

/-- A last operand that is `r` and no more. -/
def Bare : Stmt → Prop
  | .instr _ _ (.label tok) => tok = regDes
  | _ => False

instance (s : Stmt) : Decidable (Bare s) := by
  unfold Bare
  split <;> infer_instance

/-- Such an operand is followed by another token. -/
def BareFollowed (r : Reading) : Prop :=
  ∃ i s, r.stmts[i]? = some s ∧ Bare s ∧ (i + 1 < r.stmts.length ∨ r.ending ≠ .done)

instance (r : Reading) : Decidable (BareFollowed r) :=
  decidable_of_iff (∃ i ∈ List.range r.stmts.length, ∃ s ∈ r.stmts[i]?.toList, Bare s ∧
      (i + 1 < r.stmts.length ∨ r.ending ≠ .done))
    ⟨fun ⟨i, _, s, hs, h⟩ => ⟨i, s, by simpa using hs, h⟩,
      fun ⟨i, s, hs, h⟩ => ⟨i, List.mem_range.mpr (List.getElem?_eq_some_iff.mp hs).1, s,
        by simpa using hs, h⟩⟩

/-- The last operand of the text is missing, but there are labels, and the others that are
referred to are defined. -/
def ShortAccepted (r : Reading) : Prop :=
  r.ending = .short ∧ layout r.stmts 0 ≠ [] ∧ (emit (layout r.stmts 0) r.stmts).isSome

instance (r : Reading) : Decidable (ShortAccepted r) := inferInstanceAs (Decidable (_ ∧ _ ∧ _))

end LispMachine.AsmRef
