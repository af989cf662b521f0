import LispMachine.Asm
import LispMachine.Lib.Run

/-!
The virtual machine of `asm.c`.

A word of the memory is addressed by its index, as the bytecode does: an index times eight is the
byte address, so indexes wrap at the number of words. A step has no result where the language
leaves what the source does undefined: an opcode above those of the table, a product or quotient
that is no signed word, a division by zero, a shift by the width of a word or more.
-/

namespace LispMachine.Machine

open LispMachine.Memory LispMachine.Asm

/-! ### Registers -/

def sp : ℕ := numRegs - 8
def fp : ℕ := numRegs - 7
def bp : ℕ := numRegs - 6
def lr : ℕ := numRegs - 5
def ir : ℕ := numRegs - 4
def rr : ℕ := numRegs - 3
def pc : ℕ := numRegs - 2
def sr : ℕ := numRegs - 1

def excContMask : ℕ := signBit
def argMask : ℕ := (1 <<< argSize) - 1

/-- The variables of `run`: the registers with the hidden one, the arguments, and the memory. -/
structure Vm where
  regs : ℕ → ℕ
  args : ℕ → ℕ
  mem : Mem

/-- `regs[r] = v` -/
def Vm.setReg (s : Vm) (r v : ℕ) : Vm := { s with regs := Function.update s.regs r v }

/-- The register that the argument `i` names. -/
def Vm.arg (s : Vm) (i : ℕ) : ℕ := s.regs (s.args i)

/-- The address of a word. -/
def addr (x : ℕ) : ℕ := x % addrSpace

/-! ### Decoding -/

/-- The loop that takes the arguments out of the instruction. -/
def argsLoop : ℕ → ℕ → (ℕ → ℕ) → ℕ → ℕ
  | 0, _, args => args
  | i + 1, instr, args => argsLoop i (instr >>> argSize) (Function.update args i (instr &&& argMask))

/-- The opcode of an instruction. -/
def opcodeOf (instr : ℕ) : ℕ := (instr &&& instMask) >>> opcodeStart

/-- The immediate of an instruction with `n` arguments. -/
def immediateOf (instr n : ℕ) : ℕ :=
  let idx := opcodeLen + (n - 1) * argSize
  let imm := instr &&& getFlxOpMask n
  if imm &&& (signBit >>> idx) ≠ 0 then imm ||| wshl (wordMod - 1) (bits - idx) else imm

/-- What `run` does with an instruction before it looks at the opcode. -/
def decode (instr : ℕ) (s : Vm) : Vm :=
  let n := nArgs (opcodeOf instr)
  if instr &&& instrUsesReg = 0 ∧ n ≠ 0 then
    { s with
      regs := Function.update s.regs numRegs (immediateOf instr n)
      args := argsLoop (n - 1) (instr >>> (bits - (opcodeLen + (n - 1) * argSize)))
        (Function.update s.args (n - 1) numRegs) }
  else { s with args := argsLoop n (instr >>> (bits - (opcodeLen + n * argSize))) s.args }

/-! ### The instructions -/

/-- `(sword)x`, and an integer cast to a word. -/
def sword (x : ℕ) : ℤ := if x < 2 ^ 63 then x else x - 2 ^ 64
def toWord (z : ℤ) : ℕ := (z % 2 ^ 64).toNat

/-- `abs` -/
def abs (x : ℕ) : ℕ := if (x >>> (bits - 1)) &&& 1 ≠ 0 then wadd (wnot x) 1 else x

/-- `min` -/
def min (x y : ℕ) : ℕ := if sword x < sword y then x else y

/-- What `atomic_cas` leaves in the memory; it returns what was there. -/
def atomicCas (m : Mem) (ptr cmp new : ℕ) : Mem := if m ptr = cmp then m.set ptr new else m

/-- How an instruction ends. -/
inductive Outcome
  | next (s : Vm)
  | jump (s : Vm)
  | retn (v : ℕ)

/-- `jnc` -/
def jnc (retnZero : Bool) (s : Vm) : Outcome :=
  if s.arg 0 ≠ 0 then
    let s := s.setReg pc (wadd (s.arg 1) (s.arg 2))
    if s.regs pc = 0 ∧ retnZero then .retn (s.regs rr) else .jump s
  else .next s

/-- `exc`. A supervisor call changes nothing here: its handler adds to the exception queue. -/
def exc (excNumSz : ℕ) (s : Vm) : Outcome :=
  if s.arg 0 = wordMod - 1 then
    let s := s.setReg pc (s.regs lr)
    let s := s.setReg lr (s.mem (addr (s.regs sp)))
    .jump (s.setReg sp (wsub (s.regs sp) (1 + excNumSz)))
  else .next s

/-- `shf` -/
def shf (s : Vm) : Option Vm :=
  let sh := s.arg 2
  let shift := min (abs sh) bits
  if bits ≤ shift then none
  else if sword sh < 0 then some (s.setReg (s.args 0) (wshl (s.arg 1) shift))
  else some (s.setReg (s.args 0) (s.arg 1 >>> shift))

/-- `mls` -/
def mls (s : Vm) : Option Vm :=
  let p := sword (s.arg 1) * sword (s.arg 2)
  if -2 ^ 63 ≤ p ∧ p < 2 ^ 63 then some (s.setReg (s.args 0) (toWord p)) else none

/-- `dvs` -/
def dvs (s : Vm) : Option Vm :=
  if s.arg 2 = 0 ∨ s.arg 1 = signBit ∧ s.arg 2 = wordMod - 1 then none
  else
    let s := s.setReg rr (toWord ((sword (s.arg 1)).tmod (sword (s.arg 2))))
    if s.arg 2 = 0 ∨ s.arg 1 = signBit ∧ s.arg 2 = wordMod - 1 then none
    else some (s.setReg (s.args 0) (toWord ((sword (s.arg 1)).tdiv (sword (s.arg 2)))))

/-- `dvu` -/
def dvu (s : Vm) : Option Vm :=
  if s.arg 2 = 0 then none
  else
    let s := s.setReg rr (s.arg 1 % s.arg 2)
    if s.arg 2 = 0 then none else some (s.setReg (s.args 0) (s.arg 1 / s.arg 2))

/-- `ldr`: two halves of a word. -/
def ldr (s : Vm) : Vm :=
  let adr := addr (s.arg 1 + s.arg 2)
  let lower := s.mem adr % 2 ^ 32
  let upper := wshl (s.mem adr >>> 32) 32
  s.setReg (s.args 0) (lower ||| upper)

/-- `str` -/
def str (s : Vm) : Vm :=
  let l := s.arg 0 % 2 ^ 32
  let u := s.arg 0 >>> 32
  let adr := addr (s.arg 1 + s.arg 2)
  { s with mem := s.mem.set adr (wshl u 32 ||| l) }

/-- `acx` -/
def acx (s : Vm) : Vm :=
  let ptr := addr (s.arg 0)
  let old := s.mem ptr
  { s with mem := atomicCas s.mem ptr (s.arg 1) (s.arg 2) }.setReg (s.args 1) old

/-- The instruction with the opcode `op`. -/
def exec (excNumSz : ℕ) (retnZero : Bool) (op : ℕ) (s : Vm) : Option Outcome :=
  match op with
  | 0 => some (.next (acx s))
  | 1 => some (.next (s.setReg (s.args 0) (wadd (s.arg 1) (s.arg 2))))
  | 2 => some (.next (s.setReg (s.args 0) (wadd (s.arg 1) (wadd (wnot (s.arg 2)) 1))))
  | 3 => (mls s).map .next
  | 4 => some (.next (s.setReg (s.args 0) (s.arg 1 * s.arg 2 % wordMod)))
  | 5 => (dvs s).map .next
  | 6 => (dvu s).map .next
  | 7 => some (.next (s.setReg (s.args 0) (s.arg 1 &&& s.arg 2)))
  | 8 => some (.next (s.setReg (s.args 0) (s.arg 1 ||| s.arg 2)))
  | 9 => some (.next (s.setReg (s.args 0) (s.arg 1 ^^^ s.arg 2)))
  | 10 => some (.next (s.setReg (s.args 0) (wnot (s.arg 1 ||| s.arg 2))))
  | 11 => (shf s).map .next
  | 12 => some (.next (ldr s))
  | 13 => some (.next (str s))
  | 14 => some (jnc retnZero s)
  | 15 => some (exc excNumSz s)
  | _ => none

/-! ### The loop -/

/-- The words of a record are put one after the other. -/
def putRecord (a : ℕ) : List ℕ → Mem → Mem
  | [], m => m
  | x :: xs, m => putRecord (a + 1) xs (m.set (addr a) x)

/-- The entry into the handler of an exception with the record `excNum`. -/
def enter (excNum : List ℕ) (s : Vm) : Vm :=
  let oldsp := wadd (s.regs sp) 1
  let s := s.setReg sp (wadd (s.regs sp) (1 + excNum.length))
  let s := { s with mem := s.mem.set (addr (s.regs sp)) (s.regs lr) }
  let s := { s with mem := putRecord oldsp excNum s.mem }
  let s := s.setReg lr (s.regs pc)
  s.setReg pc (s.regs ir)

/-- The instruction at the program counter. -/
def execute (excNumSz : ℕ) (retnZero : Bool) (s : Vm) : Option Outcome :=
  let instr := s.mem (addr (s.regs pc))
  (exec excNumSz retnZero (opcodeOf instr) (decode instr s)).map fun
    | .next s => .jump (s.setReg pc (wadd (s.regs pc) 1))
    | o => o

/-- One round of the loop of `run`, with what the exception queue gives. -/
def runStep (excNumSz : ℕ) (retnZero : Bool) (excNum : Option (List ℕ)) (s : Vm) :
    Option Outcome :=
  if s.regs sr &&& excContMask ≠ 0 then
    execute excNumSz retnZero (match excNum with
      | some excNum => enter excNum s
      | none => s)
  else some (.retn (s.regs rr))

end LispMachine.Machine
