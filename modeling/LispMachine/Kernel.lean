import LispMachine.AvlCode
import LispMachine.Routine

/-!
The tree routines of `kernel`, as the assembler encodes them.

A routine is called with its argument, or the address of its arguments, in `rr`. The labels of a
routine are relative to `bp`, which holds its base, and other routines are called by their address.
A node is four words as in C, but its children are word addresses.
-/

namespace LispMachine.Kernel

open LispMachine.Memory LispMachine.Asm LispMachine.AsmRef LispMachine.MachineRun
open LispMachine.Routine LispMachine.AvlCode LispMachine.Lib.BalTree
open LispMachine.Machine hiding ldr str shf

/-- The routines -/
inductive Name
  | getParent
  | getBalanceFactor
  | balanceFactor
  | revBalanceFactor
  | setBalanceFactor
  | avlMove
  | avlRotateLeft
  | avlRotateRight
deriving DecidableEq

/-- `get_parent` -/
def getParent : List Instr := [
  jnc rr pc (.imm 2),
  ret,
  ldr rr rr (.imm 0),
  shf rr rr 3,
  ret]

/-- `get_balance_factor` -/
def getBalanceFactor : List Instr := [
  jnc rr pc (.imm 3),
  ads rr rr (.imm 3),
  ret,
  ldr rr rr (.imm 0),
  and rr rr (.imm 3),
  ret]

/-- `rev_balance_factor` -/
def revBalanceFactor : List Instr := [
  jnc rr pc (.imm 3),
  ads rr rr (.imm 3),
  ret,
  ads rr rr (.imm 1),
  jnc rr pc (.imm 3),
  ads rr zr (.imm 2),
  ret,
  ads rr zr (.imm 1),
  ret]

section

variable (K : Name → ℕ)

/-- `balance_factor` -/
def balanceFactor : List Instr := [
  jnc rr pc (.imm 2),
  ret,
  ads sp sp (.imm 1),
  str lr sp (.imm 0)] ++
  callb (K .getBalanceFactor) ++ [
  ldr lr sp (.imm 0),
  ads sp sp (.imm (-1)),
  sbs rr rr (.imm 1),
  jnc rr pc (.imm 3),
  ads rr rr (.imm 1),
  ret,
  sbs rr rr (.imm 2),
  ret]

/-- `set_balance_factor`. It does not save `lr`. -/
def setBalanceFactor : List Instr := [
  ads sp sp (.imm 3),
  str fp sp (.imm (-2)),
  ads fp sp (.imm (-2)),
  str 1 fp (.imm 1),
  str 2 fp (.imm 2),
  ldr 1 rr (.imm 0),
  ldr 2 1 (.imm 0),
  ldr rr rr (.imm 1),
  shf 2 2 3,
  shf 2 2 (-3)] ++
  callb (K .revBalanceFactor) ++ [
  orr rr 2 (.reg rr),
  str rr 1 (.imm 0),
  ldr 2 fp (.imm 2),
  ldr 1 fp (.imm 1),
  ldr fp fp (.imm 0),
  sbs sp sp (.imm 3),
  ret]

/-- `avl_move`. The test of the parent jumps over the update of its link if there is one. -/
def avlMove : List Instr := [
  ads sp sp (.imm 6),
  str fp sp (.imm (-5)),
  ads fp sp (.imm (-5)),
  str lr fp (.imm 1),
  str 1 fp (.imm 2),
  str 2 fp (.imm 3),
  str 3 fp (.imm 4),
  str bp fp (.imm 5),
  ads bp pc (.imm (-8)),
  ldr 1 rr (.imm 1),
  ldr 2 rr (.imm 2),
  xor 3 2 (.reg 1),
  jnc 3 pc (.imm 2),
  jnc sr bp (.imm 55), -- `avl_move_cleanup`
  ldr 3 rr (.imm 0),
  ldr rr 3 (.imm 0),
  xor rr rr (.reg 2),
  jnc rr pc (.imm 2),
  str 1 3 (.imm 0),
  ads rr 2 (.imm 0)] ++
  callb (K .getParent) ++ [
  jnc rr pc (.imm 7),
  ldr 3 rr (.imm 1),
  xor 3 3 (.reg 2),
  jnc 3 pc (.imm 3),
  str 1 rr (.imm 1),
  jnc sr pc (.imm 2),
  str 1 rr (.imm 2),
  ldr 3 2 (.imm 1),
  jnc 3 pc (.imm 2),
  jnc sr bp (.imm 39), -- `ltest_end`
  ads rr 3 (.imm 0)] ++
  callb (K .getBalanceFactor) ++ [
  shf 1 1 (-3),
  orr rr rr (.reg 1),
  str rr 3 (.imm 0),
  shf 1 1 3,
  str 3 1 (.imm 1), -- `ltest_end`
  ldr 3 2 (.imm 2),
  jnc 3 pc (.imm 2),
  jnc sr bp (.imm 50), -- `rtest_end`
  ads rr 3 (.imm 0)] ++
  callb (K .getBalanceFactor) ++ [
  shf 1 1 (-3),
  orr rr rr (.reg 1),
  str rr 3 (.imm 0),
  shf 1 1 3,
  str 3 1 (.imm 2), -- `rtest_end`
  ldr 3 2 (.imm 0),
  str 3 1 (.imm 0),
  ldr 3 2 (.imm 3),
  str 3 1 (.imm 3),
  ldr bp fp (.imm 5), -- `avl_move_cleanup`
  ldr 3 fp (.imm 4),
  ldr 2 fp (.imm 3),
  ldr 1 fp (.imm 2),
  ldr lr fp (.imm 1),
  ldr fp fp (.imm 0),
  sbs sp sp (.imm 6),
  ret]

/-- `avl_rotate_left`. The new parent of the inner grandchild is put in as a word address. -/
def avlRotateLeft : List Instr := [
  ads sp sp (.imm 7),
  str fp sp (.imm (-6)),
  ads fp sp (.imm (-6)),
  str lr fp (.imm 1),
  str 1 fp (.imm 2),
  str 2 fp (.imm 3),
  str 3 fp (.imm 4),
  str 4 fp (.imm 5),
  str bp fp (.imm 6),
  ads bp pc (.imm (-9)),
  ldr 1 rr (.imm 0),
  ldr 2 rr (.imm 1),
  jnc 2 pc (.imm 2),
  jnc sr bp (.imm 70), -- `retn_zero`
  ldr 3 2 (.imm 2),
  jnc 3 pc (.imm 2),
  jnc sr bp (.imm 70), -- `retn_zero`
  ldr 4 3 (.imm 1),
  jnc 4 bp (.imm 20), -- `has_rl_child`
  jnc sr bp (.imm 25), -- `hasnt_rl_child`
  ads rr 4 (.imm 0)] ++ -- `has_rl_child`
  callb (K .getBalanceFactor) ++ [
  orr rr rr (.reg 2),
  str rr 4 (.imm 0),
  ads rr 2 (.imm 0)] ++ -- `hasnt_rl_child`
  callb (K .getParent) ++ [
  jnc rr pc (.imm 2),
  jnc sr bp (.imm 37), -- `hasnt_parent`
  ldr 1 rr (.imm 1),
  xor 1 1 (.reg 2),
  jnc 1 pc (.imm 3),
  str 3 rr (.imm 1),
  jnc sr bp (.imm 38), -- `test_parent_end`
  str 3 rr (.imm 2),
  jnc sr bp (.imm 38), -- `test_parent_end`
  str 3 1 (.imm 0), -- `hasnt_parent`
  ads 1 rr (.imm 0), -- `test_parent_end`
  ads rr 3 (.imm 0)] ++
  callb (K .balanceFactor) ++ [
  str 4 2 (.imm 2),
  str 2 3 (.imm 1),
  jnc rr bp (.imm 59), -- `old_rootbf_true`
  ads rr zr (.imm 1)] ++
  callb (K .revBalanceFactor) ++ [
  shf 4 3 (-3),
  orr rr 4 (.reg rr),
  str rr 2 (.imm 0),
  sbs rr zr (.imm 1)] ++
  callb (K .revBalanceFactor) ++ [
  shf 4 1 (-3),
  orr rr 4 (.reg rr),
  str rr 3 (.imm 0),
  ads rr 3 (.imm 0),
  jnc sr bp (.imm 71), -- `avl_rotate_left_cleanup`
  xor rr rr (.reg rr)] ++ -- `old_rootbf_true`
  callb (K .revBalanceFactor) ++ [
  shf 4 3 (-3),
  orr 4 4 (.reg rr),
  str 4 2 (.imm 0),
  shf 4 1 (-3),
  orr 4 4 (.reg rr),
  str 4 3 (.imm 0),
  ads rr 3 (.imm 0),
  jnc sr bp (.imm 71), -- `avl_rotate_left_cleanup`
  xor rr rr (.reg rr), -- `retn_zero`
  ldr bp fp (.imm 6), -- `avl_rotate_left_cleanup`
  ldr 4 fp (.imm 5),
  ldr 3 fp (.imm 4),
  ldr 2 fp (.imm 3),
  ldr 1 fp (.imm 2),
  ldr lr fp (.imm 1),
  ldr fp fp (.imm 0),
  sbs sp sp (.imm 7),
  ret]

/-- `avl_rotate_right` -/
def avlRotateRight : List Instr := [
  ads sp sp (.imm 7),
  str fp sp (.imm (-6)),
  ads fp sp (.imm (-6)),
  str lr fp (.imm 1),
  str 1 fp (.imm 2),
  str 2 fp (.imm 3),
  str 3 fp (.imm 4),
  str 4 fp (.imm 5),
  str bp fp (.imm 6),
  ads bp pc (.imm (-9)),
  ldr 1 rr (.imm 0),
  ldr 2 rr (.imm 1),
  jnc 2 pc (.imm 2),
  jnc sr bp (.imm 72), -- `retn_zero`
  ldr 3 2 (.imm 1),
  jnc 3 pc (.imm 2),
  jnc sr bp (.imm 72), -- `retn_zero`
  ldr 4 3 (.imm 2),
  jnc 4 bp (.imm 20), -- `has_lr_child`
  jnc sr bp (.imm 27), -- `hasnt_lr_child`
  ads rr 4 (.imm 0)] ++ -- `has_lr_child`
  callb (K .getBalanceFactor) ++ [
  shf 2 2 (-3),
  orr rr rr (.reg 2),
  str rr 4 (.imm 0),
  shf 2 2 3,
  ads rr 2 (.imm 0)] ++ -- `hasnt_lr_child`
  callb (K .getParent) ++ [
  jnc rr pc (.imm 2),
  jnc sr bp (.imm 39), -- `hasnt_parent`
  ldr 1 rr (.imm 1),
  xor 1 1 (.reg 2),
  jnc 1 pc (.imm 3),
  str 3 rr (.imm 1),
  jnc sr bp (.imm 40), -- `test_parent_end`
  str 3 rr (.imm 2),
  jnc sr bp (.imm 40), -- `test_parent_end`
  str 3 1 (.imm 0), -- `hasnt_parent`
  ads 1 rr (.imm 0), -- `test_parent_end`
  ads rr 3 (.imm 0)] ++
  callb (K .balanceFactor) ++ [
  str 4 2 (.imm 1),
  str 2 3 (.imm 2),
  jnc rr bp (.imm 61), -- `old_rootbf_true`
  sbs rr zr (.imm 1)] ++
  callb (K .revBalanceFactor) ++ [
  shf 4 3 (-3),
  orr rr 4 (.reg rr),
  str rr 2 (.imm 0),
  ads rr zr (.imm 1)] ++
  callb (K .revBalanceFactor) ++ [
  shf 4 1 (-3),
  orr rr 4 (.reg rr),
  str rr 3 (.imm 0),
  ads rr 3 (.imm 0),
  jnc sr bp (.imm 73), -- `avl_rotate_right_cleanup`
  xor rr rr (.reg rr)] ++ -- `old_rootbf_true`
  callb (K .revBalanceFactor) ++ [
  shf 4 3 (-3),
  orr 4 4 (.reg rr),
  str 4 2 (.imm 0),
  shf 4 1 (-3),
  orr 4 4 (.reg rr),
  str 4 3 (.imm 0),
  ads rr 3 (.imm 0),
  jnc sr bp (.imm 73), -- `avl_rotate_right_cleanup`
  xor rr rr (.reg rr), -- `retn_zero`
  ldr bp fp (.imm 6), -- `avl_rotate_right_cleanup`
  ldr 4 fp (.imm 5),
  ldr 3 fp (.imm 4),
  ldr 2 fp (.imm 3),
  ldr 1 fp (.imm 2),
  ldr lr fp (.imm 1),
  ldr fp fp (.imm 0),
  sbs sp sp (.imm 7),
  ret]

/-- The routines that a routine calls, directly or not -/
def callees : Name → List Name
  | .balanceFactor => [.getBalanceFactor]
  | .setBalanceFactor => [.revBalanceFactor]
  | .avlMove => [.getParent, .getBalanceFactor]
  | .avlRotateLeft | .avlRotateRight =>
    [.getParent, .getBalanceFactor, .balanceFactor, .revBalanceFactor]
  | .getParent | .getBalanceFactor | .revBalanceFactor => []

/-- The instructions of a routine -/
def code : Name → List Instr
  | .getParent => getParent
  | .getBalanceFactor => getBalanceFactor
  | .balanceFactor => balanceFactor K
  | .revBalanceFactor => revBalanceFactor
  | .setBalanceFactor => setBalanceFactor K
  | .avlMove => avlMove K
  | .avlRotateLeft => avlRotateLeft K
  | .avlRotateRight => avlRotateRight K

end

end LispMachine.Kernel
