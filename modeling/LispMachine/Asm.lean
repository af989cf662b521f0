import LispMachine.Memory

/-!
The assembler of `asm.c`.

A text is a list of characters, one a word. The functions share an index into it: each returns
whether it failed, and the index afterwards. The arrays that the allocator hands out are lists.
-/

namespace LispMachine.Asm

open LispMachine.Memory

def bits : ℕ := 64
def opcodeLen : ℕ := 8
def argSize : ℕ := 5
def opcodeStart : ℕ := bits - opcodeLen
def numRegs : ℕ := 1 <<< argSize
def instMask : ℕ := ((1 <<< (opcodeLen - 1)) - 1) <<< opcodeStart
def signBit : ℕ := 1 <<< (bits - 1)
def instrUsesReg : ℕ := signBit
def mxRegArgs : ℕ := opcodeStart / argSize - 1

def regDes : List ℕ := chars "r"
def negSgn : List ℕ := chars "-"

/-- `op_data` -/
structure OpData where
  nArgs : ℕ
  name : List ℕ

def instructions : List OpData :=
  [⟨3, chars "acx"⟩, ⟨3, chars "ads"⟩, ⟨3, chars "sbs"⟩, ⟨3, chars "mls"⟩, ⟨3, chars "mlu"⟩,
    ⟨3, chars "dvs"⟩, ⟨3, chars "dvu"⟩, ⟨3, chars "and"⟩, ⟨3, chars "orr"⟩, ⟨3, chars "xor"⟩,
    ⟨3, chars "nor"⟩, ⟨3, chars "shf"⟩, ⟨3, chars "ldr"⟩, ⟨3, chars "str"⟩, ⟨3, chars "jnc"⟩,
    ⟨1, chars "exc"⟩]

/-- `instructions[op].n_args` -/
def nArgs (op : ℕ) : ℕ := (instructions.map OpData.nArgs).getD op 0

/-- `get_flx_op_mask` -/
def getFlxOpMask (n : ℕ) : ℕ :=
  (wordMod - 1) >>> (opcodeLen + (if n ≠ 0 then n - 1 else 0) * argSize)

def whitespace (ch : ℕ) : Bool := ch = 32 || ch = 10 || ch = 9 || ch = 0

/-! ### The scanner -/

variable (code : List ℕ)

/-- The loop that skips the characters with the property `p`. -/
def skip (p : ℕ → Bool) : ℕ → ℕ → ℕ
  | 0, i => i
  | n + 1, i => if i < code.length ∧ p (code.getD i 0) then skip p n (i + 1) else i

def ignoreWhitespace (i : ℕ) : ℕ := skip code whitespace code.length i

def ignoreNonWhitespace (i : ℕ) : ℕ := skip code (fun ch => !whitespace ch) code.length i

def expectWhitespace (i : ℕ) : Bool × ℕ :=
  if code.length ≤ i ∨ !whitespace (code.getD i 0) then (true, i)
  else (false, ignoreWhitespace code i)

def expectWhitespaceOrEnd (i : ℕ) : Bool × ℕ :=
  let (ws, i) := expectWhitespace code i
  (!(!ws || code.length ≤ i), i)

/-- The loop of `expect_str`. -/
def matchStr : List ℕ → ℕ → Option ℕ
  | [], i => some i
  | val :: str, i =>
    if code.length ≤ i ∨ code.getD i 0 ≠ val then none else matchStr str (i + 1)

def expectStr (i : ℕ) (str : List ℕ) : Bool × ℕ :=
  match matchStr code str i with
  | some i' => (false, i')
  | none => (true, i)

/-- What the inner loop of `match_opcode` ends with. -/
inductive Match
  | yes (i : ℕ)
  | no
  | ended

/-- The inner loop of `match_opcode`. -/
def matchName : List ℕ → ℕ → Match
  | [], i => .yes i
  | ch :: name, i =>
    if code.length ≤ i then .ended
    else if ch ≠ code.getD i 0 then .no
    else matchName name (i + 1)

/-- The outer loop of `match_opcode`, from the instruction `op` on. -/
def matchOpcodeLoop (i : ℕ) : List OpData → ℕ → Option (ℕ × ℕ)
  | [], _ => none
  | d :: ds, op =>
    match matchName code d.name i with
    | .yes i' => some (i', op)
    | .no => matchOpcodeLoop i ds (op + 1)
    | .ended => none

/-- `match_opcode`: whether it failed, the index, and the opcode. -/
def matchOpcode (i : ℕ) : Bool × ℕ × ℕ :=
  match matchOpcodeLoop code i instructions 0 with
  | some (i', op) => (false, i', op)
  | none => (true, i, 0)

/-- The value of a digit. -/
def hexDigit (ch : ℕ) : Option ℕ :=
  if 48 ≤ ch ∧ ch ≤ 57 then some (ch - 48)
  else if 97 ≤ ch ∧ ch ≤ 102 then some (ch - 97 + 10)
  else if 65 ≤ ch ∧ ch ≤ 70 then some (ch - 65 + 10)
  else none

/-- The loop of `expect_hex_from_str`, for at most `n` digits more: the index and the value. -/
def hexLoop (maxVal : ℕ) : ℕ → ℕ → ℕ → Option (ℕ × ℕ)
  | 0, i, res => some (i, res)
  | n + 1, i, res =>
    if i < code.length then
      match hexDigit (code.getD i 0) with
      | none => some (i, res)
      | some d =>
        let pval := wshl res 4 ||| d
        if maxVal < pval then none else hexLoop maxVal n (i + 1) pval
    else some (i, res)

/-- `expect_hex_from_str`: whether it failed, the index, and the value. -/
def expectHexFromStr (i maxVal : ℕ) : Bool × ℕ × ℕ :=
  match hexLoop code maxVal 16 i 0 with
  | some (i', res) => if i' = i then (true, i, 0) else (false, i', res)
  | none => (true, i, 0)

/-! ### The compiler -/

/-- `lbl_info`: where a label stands, and an address. -/
structure LblInfo where
  label : ℕ
  addr : ℕ
deriving DecidableEq

/-- The variables of `compile`. -/
structure Comp where
  arr : List ℕ
  lblRefs : List LblInfo
  lbls : List LblInfo
  prgmCtr : ℕ
  idx : ℕ

/-- All the arguments except the last one: the index, the instruction, and the place of the
last argument. -/
def compileArgs : ℕ → ℕ → ℕ → ℕ → Option (ℕ × ℕ × ℕ)
  | 0, idx, instr, instrIdx => some (idx, instr, instrIdx)
  | n + 1, idx, instr, instrIdx =>
    let (e, idx) := expectStr code idx regDes
    if e then none
    else
      let (e, idx, output) := expectHexFromStr code idx (numRegs - 1)
      if e then none
      else
        let instrIdx := instrIdx - argSize
        let instr := instr ||| wshl output instrIdx
        let (e, idx) := expectWhitespace code idx
        if e then none else compileArgs n idx instr instrIdx

/-- The last argument: the index, the instruction, and the label if it is one. -/
def compileLast (n idx instr instrIdx : ℕ) : ℕ × ℕ × Option ℕ :=
  let resetAddr := idx
  let (notNeg, idx) := expectStr code idx negSgn
  let (e₁, idx, output) := expectHexFromStr code idx (getFlxOpMask n >>> 1)
  let (e₂, idx) := expectWhitespaceOrEnd code idx
  if e₁ || e₂ then
    let idx := resetAddr
    let (e₁, idx) := expectStr code idx regDes
    let (e₂, idx, output) := expectHexFromStr code idx (numRegs - 1)
    let (e₃, idx) := expectWhitespaceOrEnd code idx
    if e₁ || e₂ || e₃ then (ignoreNonWhitespace code idx, instr, some resetAddr)
    else
      let instrIdx := instrIdx - argSize
      (idx, instr ||| wshl output instrIdx ||| instrUsesReg, none)
  else
    let output := if !notNeg then wadd (wnot output) 1 &&& getFlxOpMask n else output
    (idx, instr ||| output, none)

/-- The rest of an instruction with the opcode `op`. -/
def compileInstr (c : Comp) (op : ℕ) : Option Comp :=
  let instr := wshl op opcodeStart
  let n := nArgs op
  (compileArgs code (if n ≠ 0 then n - 1 else 0) c.idx instr opcodeStart).map
    fun (idx, instr, instrIdx) =>
      let (idx, instr, ref) :=
        if n ≠ 0 then compileLast code n idx instr instrIdx else (idx, instr, none)
      { c with
        arr := c.arr ++ [instr]
        lblRefs := match ref with
          | some label => c.lblRefs ++ [⟨label, c.prgmCtr⟩]
          | none => c.lblRefs
        idx := ignoreWhitespace code idx
        prgmCtr := c.prgmCtr + 1 }

/-- The loop body of `compile`. -/
def compileStep (c : Comp) : Option Comp :=
  let instrBegin := c.idx
  let (e₁, idx, output) := expectHexFromStr code c.idx (wordMod - 1)
  let (e₂, idx) := expectWhitespaceOrEnd code idx
  if e₁ || e₂ then
    let (e₁, idx, output) := matchOpcode code instrBegin
    let (e₂, idx) := expectWhitespace code idx
    if e₁ || e₂ then
      let lbl : LblInfo := ⟨instrBegin, c.prgmCtr⟩
      let lbls := if c.lbls.any fun l => l.label = lbl.label then c.lbls else c.lbls ++ [lbl]
      let idx := ignoreNonWhitespace code instrBegin
      some { c with lbls := lbls, idx := ignoreWhitespace code idx }
    else compileInstr code { c with idx := idx } output
  else some { c with arr := c.arr ++ [output], idx := idx, prgmCtr := c.prgmCtr + 1 }

/-- The loop of `compile`. -/
def compileLoop : ℕ → Comp → Option Comp
  | 0, _ => none
  | n + 1, c =>
    if c.idx < code.length then (compileStep code c).bind (compileLoop n) else some c

/-- The loop of `lbl_streq`. -/
def lblStreqLoop : ℕ → ℕ → ℕ → Bool
  | 0, _, _ => true
  | n + 1, l₁, l₂ =>
    if l₁ < code.length ∧ l₂ < code.length then
      if whitespace (code.getD l₁ 0) then whitespace (code.getD l₂ 0)
      else if code.getD l₁ 0 ≠ code.getD l₂ 0 then false
      else lblStreqLoop n (l₁ + 1) (l₂ + 1)
    else true

/-- `lbl_streq`, up to the end of the text. -/
def lblStreq (s₁ s₂ : LblInfo) : Bool := lblStreqLoop code code.length s₁.label s₂.label

/-- The loop that resolves the label references. -/
def resolve (lbls : List LblInfo) : List LblInfo → List ℕ → Option (List ℕ)
  | [], arr => some arr
  | ref :: refs, arr =>
    match lbls.find? (lblStreq code ref) with
    | some l => resolve lbls refs (arr.modify ref.addr (· ||| l.addr))
    | none => none

/-- The variables before the loop. -/
def compileInit : Comp := ⟨[], [], [], 0, ignoreWhitespace code 0⟩

/-- `compile` -/
def compile : Option (List ℕ) :=
  if code.length = 0 then none
  else
    (compileLoop code (code.length + 1) (compileInit code)).bind fun c =>
      resolve code c.lbls c.lblRefs c.arr

/-- Where the loop of `compile` begins a statement. -/
def headsLoop : ℕ → Comp → List ℕ
  | 0, _ => []
  | n + 1, c =>
    if c.idx < code.length then
      c.idx :: match compileStep code c with
        | some c => headsLoop n c
        | none => []
    else []

def compileHeads : List ℕ := headsLoop code (code.length + 1) (compileInit code)

end LispMachine.Asm
