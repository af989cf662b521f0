import LispMachine.AsmParts
import LispMachine.Body
import LispMachine.Bignum

/-!
Numbers as strings, by `word_to_str` of `kernel`.

The routine was written after `uintn_to_str`, but it bounds the number of digits by the base and not
by the size of the buffer.
-/

namespace LispMachine.KernelStr

open LispMachine.Memory LispMachine.Asm LispMachine.AsmRef
open LispMachine.AsmStep LispMachine.AsmParts LispMachine.AsmResolve LispMachine.MachineStep
open LispMachine.MachineRun LispMachine.Routine LispMachine.Body LispMachine.Bignum
open LispMachine.Machine hiding ldr str shf dvu

/-- `word_to_str`, with the names of `kernel` expanded -/
def wordToStrLines : List String :=
  ["ads r18 r18 9 ", "str r19 r18 -8 ", "ads r19 r18 -8 ", "str r1b r19 1 ", "str r1 r19 2 ",
    "str r2 r19 3 ", "str r3 r19 4 ", "str r4 r19 5 ", "str r5 r19 6 ", "str r6 r19 7 ",
    "str r1a r19 8 ", "ads r1a r1e -B ", "ldr r1 r1d 0 ", "ldr r2 r1d 1 ", "shf r3 r2 1 ",
    "shf r3 r3 -1 ", "jnc r3 r1e 2 ", "jnc r1f r1a retn_fail ", "ldr r3 r1d 2 ",
    "jnc r3 r1a non_zero ", "ads r4 r0 30 ", "str r4 r1 0 ", "str r0 r1 1 ", "ads r1d r0 1 ",
    "jnc r1f r1a word_to_str_cleanup ", "non_zero ", "ldr r4 r1d 3 ", "sbs r2 r4 1 ",
    "xor r5 r5 r5 ", "loop_1 ", "sbs r1d r4 r5 ", "jnc r1d r1e 2 ", "jnc r1f r1a retn_fail ",
    "dvu r3 r3 r4 ", "ads r1d r1d 30 ", "sbs r6 r1d 3A ", "shf r6 r6 3F ", "jnc r6 r1a cond_end ",
    "ads r1d r1d 7 ", "sbs r6 r1d 5B ", "shf r6 r6 3F ", "jnc r6 r1a cond_end ", "ads r1d r1d 6 ",
    "cond_end ", "str r1d r1 r5 ", "ads r5 r5 1 ", "jnc r3 r1a loop_1 ", "ads r1d r5 0 ",
    "str r0 r1 r5 ", "sbs r5 r5 1 ", "xor r2 r2 r2 ", "loop_2 ", "ldr r3 r1 r2 ", "ldr r4 r1 r5 ",
    "str r3 r1 r5 ", "str r4 r1 r2 ", "sbs r5 r5 1 ", "ads r2 r2 1 ", "sbs r3 r2 r5 ",
    "shf r3 r3 3F ", "jnc r3 r1a loop_2 ", "jnc r1f r1a word_to_str_cleanup ", "retn_fail ",
    "sbs r1d r0 1 ", "word_to_str_cleanup ", "ldr r1a r19 8 ", "ldr r6 r19 7 ", "ldr r5 r19 6 ",
    "ldr r4 r19 5 ", "ldr r3 r19 4 ", "ldr r2 r19 3 ", "ldr r1 r19 2 ", "ldr r1b r19 1 ",
    "ldr r19 r19 0 ", "sbs r18 r18 9 ", "jnc r1f r1b 0 "]

/-- The text of `word_to_str` -/
def wordToStrText : List ℕ := wordToStrLines.flatMap chars

/-- The registers that `word_to_str` saves -/
def saved : List ℕ := [lr, 1, 2, 3, 4, 5, 6, bp]

/-- `word_to_str` -/
def wordToStr : List Instr := [
  ads sp sp (.imm 9),
  str fp sp (.imm (-8)),
  ads fp sp (.imm (-8)),
  str lr fp (.imm 1),
  str 1 fp (.imm 2),
  str 2 fp (.imm 3),
  str 3 fp (.imm 4),
  str 4 fp (.imm 5),
  str 5 fp (.imm 6),
  str 6 fp (.imm 7),
  str bp fp (.imm 8),
  ads bp pc (.imm (-11)),
  ldr 1 rr (.imm 0),
  ldr 2 rr (.imm 1),
  shf 3 2 1,
  shf 3 3 (-1),
  jnc 3 pc (.imm 2),
  jnc sr bp (.imm 58), -- `retn_fail`
  ldr 3 rr (.imm 2),
  jnc 3 bp (.imm 25), -- `non_zero`
  ads 4 zr (.imm 48),
  str 4 1 (.imm 0),
  str zr 1 (.imm 1),
  ads rr zr (.imm 1),
  jnc sr bp (.imm 59), -- `word_to_str_cleanup`
  ldr 4 rr (.imm 3), -- `non_zero`
  sbs 2 4 (.imm 1),
  xor 5 5 (.reg 5),
  sbs rr 4 (.reg 5), -- `loop_1`
  jnc rr pc (.imm 2),
  jnc sr bp (.imm 58), -- `retn_fail`
  dvu 3 3 (.reg 4),
  ads rr rr (.imm 48),
  sbs 6 rr (.imm 58),
  shf 6 6 63,
  jnc 6 bp (.imm 41), -- `cond_end`
  ads rr rr (.imm 7),
  sbs 6 rr (.imm 91),
  shf 6 6 63,
  jnc 6 bp (.imm 41), -- `cond_end`
  ads rr rr (.imm 6),
  str rr 1 (.reg 5), -- `cond_end`
  ads 5 5 (.imm 1),
  jnc 3 bp (.imm 28), -- `loop_1`
  ads rr 5 (.imm 0),
  str zr 1 (.reg 5),
  sbs 5 5 (.imm 1),
  xor 2 2 (.reg 2),
  ldr 3 1 (.reg 2), -- `loop_2`
  ldr 4 1 (.reg 5),
  str 3 1 (.reg 5),
  str 4 1 (.reg 2),
  sbs 5 5 (.imm 1),
  ads 2 2 (.imm 1),
  sbs 3 2 (.reg 5),
  shf 3 3 63,
  jnc 3 bp (.imm 48), -- `loop_2`
  jnc sr bp (.imm 59), -- `word_to_str_cleanup`
  sbs rr zr (.imm 1), -- `retn_fail`
  ldr bp fp (.imm 8), -- `word_to_str_cleanup`
  ldr 6 fp (.imm 7),
  ldr 5 fp (.imm 6),
  ldr 4 fp (.imm 5),
  ldr 3 fp (.imm 4),
  ldr 2 fp (.imm 3),
  ldr 1 fp (.imm 2),
  ldr lr fp (.imm 1),
  ldr fp fp (.imm 0),
  sbs sp sp (.imm 9),
  ret]

/-- **The assembler** on the text of the routine -/
lemma compile_wordToStr : compile wordToStrText = some (wordToStr.map Instr.word) := by
  obtain ⟨hclosed, hne, hbare, hshort, hwords⟩ : Closed wordToStrText ∧ wordToStrText ≠ [] ∧
      ¬ BareFollowed (reading wordToStrText) ∧ ¬ ShortAccepted (reading wordToStrText) ∧
      assemble wordToStrText = some (wordToStr.map Instr.word) := by
    decide +kernel
  exact ((agrees_iff hclosed hne).mpr ⟨hbare, hshort⟩).1.trans hwords

end LispMachine.KernelStr
