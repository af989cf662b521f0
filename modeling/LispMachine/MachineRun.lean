import LispMachine.MachineStep
import LispMachine.AsmResolve
import Mathlib.Logic.Relation

/-!
Running assembled programs.

The machine is seen as its registers and its memory, without the hidden register and the decoded
arguments. An instruction is what the assembler encodes, and it is carried out on this view. A list
of instructions without jumps is carried out as a whole; the addresses that it writes are known, and
everything else is as before.
-/

namespace LispMachine.MachineRun

open LispMachine.Memory LispMachine.Asm LispMachine.Machine LispMachine.AsmRef
open LispMachine.AsmDecode LispMachine.MachineStep Relation

/-- The registers and the memory. -/
structure Cpu where
  regs : ℕ → ℕ
  mem : Mem

def Cpu.setReg (c : Cpu) (r v : ℕ) : Cpu := { c with regs := Function.update c.regs r v }

/-- What a program sees of the state of the machine. -/
def view (s : Vm) : Cpu := ⟨fun r => if r < numRegs then s.regs r else 0, s.mem⟩

/-- All that the machine holds are words. -/
structure Words (s : Vm) : Prop where
  regs : ∀ r, s.regs r < wordMod
  mem : ∀ a, s.mem a < wordMod

/-- An instruction as it is written, with its labels resolved. -/
structure Instr where
  op : ℕ
  regs : List ℕ
  last : Operand
deriving DecidableEq

namespace Instr

/-- The word that it is assembled to. -/
def word (i : Instr) : ℕ := encode i.op i.regs i.last

/-- The last operand fits into the word. -/
def Fits (n : ℕ) : Operand → Prop
  | .imm v => -2 ^ (immBits n - 1) < v ∧ v < 2 ^ (immBits n - 1)
  | .reg r => r < numRegs
  | .label _ => False

instance (n : ℕ) : DecidablePred (Fits n) := fun o => by
  cases o <;> unfold Fits <;> infer_instance

/-- The operands are those of an instruction with three of them. -/
structure Valid (i : Instr) (d a : ℕ) : Prop where
  op : i.op < instructions.length
  count : nArgs i.op = 3
  regs : i.regs = [d, a]
  dest : d < numRegs
  arg : a < numRegs
  last : Fits 3 i.last

end Instr

variable {c c' c'' : Cpu} {i : Instr} {a b d n p q r v x y z : ℕ} {retn : Bool} {o : Operand}
variable {s t : Vm}

/-! ### One instruction -/

/-- The value of a last operand. -/
def operand (c : Cpu) : Operand → ℕ
  | .imm v => toWord v
  | .reg r => c.regs r
  | .label _ => 0

/-- The results of the instructions that compute one. -/
def alu (op x y : ℕ) : Option ℕ :=
  match op with
  | 1 => some (wadd x y)
  | 2 => some (wsub x y)
  | 3 => if -2 ^ 63 ≤ sword x * sword y ∧ sword x * sword y < 2 ^ 63 then
      some (toWord (sword x * sword y)) else none
  | 4 => some (x * y % wordMod)
  | 7 => some (x &&& y)
  | 8 => some (x ||| y)
  | 9 => some (x ^^^ y)
  | 10 => some (wnot (x ||| y))
  | 11 => if (sword y).natAbs < 64 then some (shifted x (sword y)) else none
  | _ => none

/-- The step from one view of the machine to another, without an exception. -/
def Step (c c' : Cpu) : Prop :=
  ∀ z s, Words s → view s = c →
    ∃ s', runStep z true none s = some (.jump s') ∧ Words s' ∧ view s' = c'

lemma view_regs (hr : r < numRegs) : (view s).regs r = s.regs r := if_pos hr

lemma view_setReg (hr : r < numRegs) : view (s.setReg r v) = (view s).setReg r v := by
  refine congrArg (Cpu.mk · _) (funext fun x => ?_)
  simp only [view, Vm.setReg, Function.update_apply]
  split_ifs with h1 h2 h3
  · rfl
  · rfl
  · exact absurd (h3 ▸ hr) h1
  · rfl

lemma Words.setReg (hs : Words s) (hv : v < wordMod) : Words (s.setReg r v) := by
  refine ⟨fun x => ?_, hs.mem⟩
  simp only [Vm.setReg, Function.update_apply]
  split_ifs
  · exact hv
  · exact hs.regs x

lemma wadd_lt (x y : ℕ) : wadd x y < wordMod := Nat.mod_lt _ (by decide)
lemma wsub_lt (x y : ℕ) : wsub x y < wordMod := Nat.mod_lt _ (by decide)

lemma wsub_of_wnot (hy : y < wordMod) : wadd x (wadd (wnot y) 1) = wsub x y := by
  unfold wadd wnot wsub wordMod at *
  omega

lemma shifted_lt (hx : x < wordMod) (v : ℤ) : shifted x v < wordMod := by
  unfold shifted
  split_ifs
  · exact Nat.mod_lt _ (by decide)
  · exact (Nat.div_le_self _ _).trans_lt hx

lemma alu_lt {op : ℕ} (hx : x < wordMod) (hy : y < wordMod) (h : alu op x y = some v) :
    v < wordMod := by
  unfold alu at h
  split at h
  · cases h; exact wadd_lt ..
  · cases h; exact wsub_lt ..
  · split_ifs at h
    cases h; exact toWord_lt _
  · cases h; exact Nat.mod_lt _ (by decide)
  · cases h; exact Nat.and_le_left.trans_lt hx
  · cases h; exact Nat.or_lt_two_pow hx hy
  · cases h; exact Nat.xor_lt_two_pow hx hy
  · cases h; unfold wnot wordMod; omega
  · split_ifs at h
    cases h; exact shifted_lt hx _
  · cases h

/-- What the decoded arguments of an instruction stand for. -/
structure Decoded (s t : Vm) (d a : ℕ) (o : Operand) : Prop where
  words : Words t
  view : view t = view s
  dest : t.args 0 = d
  arg : t.args 1 = a
  last : t.arg 2 = operand (MachineRun.view s) o
  reg : t.args 2 = numRegs ∨ o = .reg (t.args 2)

/-- **Decoding** the word of an instruction. -/
lemma execute_word (hs : Words s) (hi : i.Valid d a) (hf : s.mem (addr (s.regs pc)) = i.word) :
    ∃ t, Decoded s t d a i.last ∧ execute z retn s = (exec z retn i.op t).map fun
      | .next s => .jump (s.setReg pc (wadd (s.regs pc) 1))
      | o => o := by
  obtain ⟨op, regs, last⟩ := i
  obtain ⟨hop, hcount, rfl, hd, ha, hlast⟩ := hi
  have hdel : Delivers (encode op [d, a] last) op [d, a] last := by
    refine delivers_encode hop (by rw [hcount]; rfl) ?_ ?_ ?_ ?_
    · simpa using ⟨hd, ha⟩
    · rintro v rfl
      rw [hcount]
      exact hlast
    · rintro q rfl
      exact hlast
    · rintro t rfl
      exact hlast
  obtain ⟨hopc, hdec⟩ := hdel
  obtain ⟨hargs, hval⟩ := hdec s
  have hregs := decode_regs (encode op [d, a] last) hs.regs
  have hmem : (decode (encode op [d, a] last) s).mem = s.mem := by
    rw [decode]
    split_ifs <;> rfl
  have hexec : execute z retn s = (exec z retn op (decode (encode op [d, a] last) s)).map fun
      | .next s => .jump (s.setReg pc (wadd (s.regs pc) 1))
      | o => o := by
    rw [execute, hf]
    change Option.map _ (exec z retn (opcodeOf (encode op [d, a] last)) _) = _
    rw [hopc]
    rfl
  generalize decode (encode op [d, a] last) s = t at hargs hval hregs hmem hexec
  refine ⟨t, ⟨⟨hregs, hmem ▸ hs.mem⟩, ?_, hargs 0 d rfl, hargs 1 a rfl, ?_, ?_⟩, hexec⟩
  · refine congrArg₂ Cpu.mk (funext fun x => ?_) hmem
    cases last with
    | imm v =>
      rw [hval.2]
      split_ifs with hx
      · exact Function.update_of_ne (by omega) _ _
      · rfl
    | reg q => rw [hval.2]
    | label u => exact absurd hlast id
  · cases last with
    | imm v =>
      have h1 : t.args 2 = numRegs := hval.1
      rw [Vm.arg, h1, hval.2, Function.update_self]
      rfl
    | reg q =>
      have h1 : t.args 2 = q := hval.1
      rw [Vm.arg, h1, hval.2]
      exact (view_regs hlast).symm
    | label u => exact absurd hlast id
  · cases last with
    | imm v => exact .inl hval.1
    | reg q => exact .inr (congrArg Operand.reg (show t.args 2 = q from hval.1).symm)
    | label u => exact absurd hlast id

/-- The state behind the instruction. -/
def Cpu.next (c : Cpu) : Cpu := c.setReg pc (wadd (c.regs pc) 1)

/-- The instruction `i` is at the program counter, and the machine has not been stopped. -/
structure Fetch (c : Cpu) (i : Instr) (d a : ℕ) : Prop where
  word : c.mem (addr (c.regs pc)) = i.word
  valid : i.Valid d a
  running : c.regs sr &&& excContMask ≠ 0

/-- A step is what its instruction does with the decoded arguments. -/
lemma step_of (hf : Fetch c i d a) (h : ∀ z s t, view s = c → Words s → Decoded s t d a i.last →
    ∃ u, Words u ∧ (exec z true i.op t = some (.next u) ∧ (view u).next = c' ∨
      exec z true i.op t = some (.jump u) ∧ view u = c')) : Step c c' := by
  rintro z s hs rfl
  obtain ⟨hword, hvalid, hrun⟩ := hf
  rw [view_regs (by decide)] at hword hrun
  obtain ⟨t, ht, hexec⟩ : ∃ t, Decoded s t d a i.last ∧ execute z true s = _ :=
    execute_word hs hvalid hword
  obtain ⟨u, hu, h1 | h1⟩ := h z s t rfl hs ht
  · refine ⟨u.setReg pc (wadd (u.regs pc) 1), ?_, hu.setReg (wadd_lt ..), ?_⟩
    · rw [runStep, if_pos hrun]
      exact hexec.trans (by rw [h1.1]; rfl)
    · rw [view_setReg (by decide), ← h1.2, Cpu.next, view_regs (by decide)]
  · refine ⟨u, ?_, hu, h1.2⟩
    rw [runStep, if_pos hrun]
    exact hexec.trans (by rw [h1.1]; rfl)

lemma arg_eq (hd : Decoded s t d a o) (ha : a < numRegs) :
    t.arg 1 = (view s).regs a := by
  rw [Vm.arg, hd.arg, ← hd.view, view_regs ha]

lemma dest_eq (hd : Decoded s t d a o) (hr : d < numRegs) :
    t.arg 0 = (view s).regs d := by
  rw [Vm.arg, hd.dest, ← hd.view, view_regs hr]

/-- An instruction that computes a result. -/
lemma step_alu (hf : Fetch c i d a) (hv : alu i.op (c.regs a) (operand c i.last) = some v) :
    Step c (c.setReg d v).next := by
  refine step_of hf fun z s t hc hs hd => ?_
  have hx := arg_eq hd hf.valid.arg
  have hy := hd.last
  rw [hc] at hx hy
  rw [← hx, ← hy] at hv
  have hlt := alu_lt (hd.words.regs _) (hd.words.regs _) hv
  refine ⟨t.setReg d v, hd.words.setReg hlt, .inl ⟨?_, ?_⟩⟩
  · rw [← hd.dest]
    generalize i.op = op at hv
    unfold alu at hv
    split at hv
    · cases hv; rfl
    · cases hv
      rw [← wsub_of_wnot (y := t.arg 2) (hd.words.regs _)]
      rfl
    · split_ifs at hv with h
      cases hv
      rw [exec, mls, if_pos h]
      rfl
    · cases hv; rfl
    · cases hv; rfl
    · cases hv; rfl
    · cases hv; rfl
    · cases hv; rfl
    · split_ifs at hv with h
      cases hv
      rw [exec, shf_eq hd.words.regs, if_pos h]
      rfl
    · cases hv
  · rw [view_setReg hf.valid.dest, hd.view, hc]

lemma ldr_word (hx : x < wordMod) : x % 2 ^ 32 ||| wshl (x >>> 32) 32 = x := by
  have hlt : x / 2 ^ 32 * 2 ^ 32 < wordMod := (Nat.div_mul_le_self _ _).trans_lt hx
  rw [wshl, Nat.shiftLeft_eq, Nat.shiftRight_eq_div_pow, Nat.lor_comm, Nat.mod_eq_of_lt hlt,
    Nat.mul_comm, ← Nat.two_pow_add_eq_or_of_lt (Nat.mod_lt _ (by decide)), Nat.div_add_mod]

/-- A word is loaded. -/
lemma step_ldr (hf : Fetch c i d a) (hop : i.op = 12) :
    Step c (c.setReg d (c.mem (addr (c.regs a + operand c i.last)))).next := by
  refine step_of hf fun z s t hc hs hd => ?_
  have hx := arg_eq hd hf.valid.arg
  have hy := hd.last
  have hmem : t.mem = c.mem := (congrArg Cpu.mem hd.view).trans (congrArg Cpu.mem hc)
  rw [hc] at hx hy
  refine ⟨t.setReg d (c.mem (addr (c.regs a + operand c i.last))), hd.words.setReg ?_,
    .inl ⟨?_, ?_⟩⟩
  · exact hmem ▸ hd.words.mem _
  · rw [hop, exec, ldr, hx, hy, hmem, hd.dest, ldr_word (hmem ▸ hd.words.mem _)]
  · rw [view_setReg hf.valid.dest, hd.view, hc]

/-- A word is stored. -/
lemma step_str (hf : Fetch c i d a) (hop : i.op = 13) :
    Step c (Cpu.mk c.regs (c.mem.set (addr (c.regs a + operand c i.last)) (c.regs d))).next := by
  refine step_of hf fun z s t hc hs hd => ?_
  have hx := arg_eq hd hf.valid.arg
  have hq := dest_eq hd hf.valid.dest
  have hy := hd.last
  have hmem : t.mem = c.mem := (congrArg Cpu.mem hd.view).trans (congrArg Cpu.mem hc)
  have hregs : (view t).regs = c.regs :=
    (congrArg Cpu.regs hd.view).trans (congrArg Cpu.regs hc)
  have hlt : t.arg 0 < wordMod := hd.words.regs _
  rw [hc] at hx hy hq
  refine ⟨{ t with mem := c.mem.set (addr (c.regs a + operand c i.last)) (c.regs d) },
    ⟨hd.words.regs, fun b => ?_⟩, .inl ⟨?_, ?_⟩⟩
  · dsimp only
    rw [set_apply]
    split_ifs
    · exact hq ▸ hlt
    · exact hmem ▸ hd.words.mem b
  · rw [hop, exec, str, hx, hy, hmem, Nat.lor_comm, ldr_word hlt, hq]
  · exact congrArg Cpu.next (congrArg (Cpu.mk · _) hregs)

/-- A jump that is not taken. -/
lemma step_skip (hf : Fetch c i d a) (hop : i.op = 14) (h0 : c.regs d = 0) : Step c c.next := by
  refine step_of hf fun z s t hc hs hd => ?_
  have hq := dest_eq hd hf.valid.dest
  rw [hc] at hq
  refine ⟨t, hd.words, .inl ⟨?_, by rw [hd.view, hc]⟩⟩
  rw [hop, exec, jnc, if_neg (not_not.mpr (hq.trans h0))]

/-- A jump, but to zero, where the program returns. -/
lemma step_jump (hf : Fetch c i d a) (hop : i.op = 14) (h0 : c.regs d ≠ 0)
    (hv : wadd (c.regs a) (operand c i.last) ≠ 0) :
    Step c (c.setReg pc (wadd (c.regs a) (operand c i.last))) := by
  refine step_of hf fun z s t hc hs hd => ?_
  have hx := arg_eq hd hf.valid.arg
  have hq := dest_eq hd hf.valid.dest
  have hy := hd.last
  rw [hc] at hx hy hq
  refine ⟨t.setReg pc (wadd (t.arg 1) (t.arg 2)), hd.words.setReg (wadd_lt ..), .inr ⟨?_, ?_⟩⟩
  · have hpc : (t.setReg pc (wadd (t.arg 1) (t.arg 2))).regs pc ≠ 0 := by
      rw [MachineStep.setReg_self, hx, hy]
      exact hv
    rw [hop, exec, jnc, if_pos (by rw [hq]; exact h0)]
    exact congrArg some (if_neg fun h => hpc h.1)
  · rw [view_setReg (by decide), hd.view, hc, hx, hy]

/-- A division of registers other than the one that the remainder is put into. -/
lemma step_dvu (hf : Fetch c i d a) (hop : i.op = 6) (ha : a ≠ rr) (hl : i.last ≠ .reg rr)
    (h0 : operand c i.last ≠ 0) : Step c (((c.setReg rr (c.regs a % operand c i.last)).setReg d
      (c.regs a / operand c i.last))).next := by
  refine step_of hf fun z s t hc hs hd => ?_
  have hx := arg_eq hd hf.valid.arg
  have hy := hd.last
  rw [hc] at hx hy
  have hxlt : t.arg 1 < wordMod := hd.words.regs _
  have hylt : t.arg 2 < wordMod := hd.words.regs _
  rw [hx] at hxlt
  rw [hy] at hylt
  have hmod := Nat.mod_lt (c.regs a) (Nat.pos_of_ne_zero h0)
  have hw := hd.words.setReg (r := rr) (hmod.trans hylt)
  refine ⟨(t.setReg rr (c.regs a % operand c i.last)).setReg d (c.regs a / operand c i.last),
    hw.setReg ((Nat.div_le_self _ _).trans_lt hxlt), .inl ⟨?_, ?_⟩⟩
  · have h1 : (t.setReg rr (c.regs a % operand c i.last)).arg 1 = c.regs a := by
      rw [arg_setReg, if_neg (hd.arg ▸ ha), hx]
    have h2 : (t.setReg rr (c.regs a % operand c i.last)).arg 2 = operand c i.last := by
      rw [arg_setReg, if_neg ?_, hy]
      rcases hd.reg with h | h
      · rw [h]
        decide
      · exact fun hr => hl (hr ▸ h)
    have h3 : (t.setReg rr (c.regs a % operand c i.last)).args 0 = d := hd.dest
    rw [hop, exec, dvu, if_neg (by rw [hy]; exact h0)]
    dsimp only
    rw [hx, hy, if_neg (by rw [h2]; exact h0), h1, h2, h3]
    rfl
  · rw [view_setReg hf.valid.dest, view_setReg (by decide), hd.view, hc]

/-! ### Lists of instructions -/

/-- What a register holds for the instruction at `p`. -/
def rd (p : ℕ) (c : Cpu) (r : ℕ) : ℕ := if r = pc then p else c.regs r

/-- The value of the last operand of the instruction at `p`. -/
def val (p : ℕ) (c : Cpu) : Operand → ℕ
  | .imm v => toWord v
  | .reg r => rd p c r
  | .label _ => 0

/-- The instruction at `p`, if it is not one that jumps. -/
def line (p : ℕ) (i : Instr) (c : Cpu) : Cpu :=
  match i.op, i.regs with
  | 12, [d, a] => c.setReg d (c.mem (addr (rd p c a + val p c i.last)))
  | 13, [d, a] => ⟨c.regs, c.mem.set (addr (rd p c a + val p c i.last)) (rd p c d)⟩
  | op, [d, a] => c.setReg d ((alu op (rd p c a) (val p c i.last)).getD 0)
  | _, _ => c

/-- The instructions from `p` on, but for the program counter. -/
def block : ℕ → List Instr → Cpu → Cpu
  | _, [], c => c
  | p, i :: is, c => block (p + 1) is (line p i c)

/-- The address that the instruction at `p` writes. -/
def written (p : ℕ) (i : Instr) (c : Cpu) : List ℕ :=
  match i.op, i.regs with
  | 13, [_, a] => [addr (rd p c a + val p c i.last)]
  | _, _ => []

/-- The addresses that are written. -/
def writes : ℕ → List Instr → Cpu → List ℕ
  | _, [], _ => []
  | p, i :: is, c => written p i c ++ writes (p + 1) is (line p i c)

/-- A shift by a constant of less than the width of a word. -/
def SmallShift : Operand → Prop
  | .imm v => v.natAbs < 64
  | _ => False

instance : DecidablePred SmallShift := fun o => by
  cases o <;> unfold SmallShift <;> infer_instance

/-- An instruction that neither jumps nor stops the machine, and that is defined whatever the
registers hold. -/
structure Plain (i : Instr) : Prop where
  op : i.op ∈ [1, 2, 4, 7, 8, 9, 10, 11, 12, 13]
  valid : i.Valid (i.regs.getD 0 0) (i.regs.getD 1 0)
  dest : i.op ≠ 13 → i.regs.getD 0 0 ≠ pc ∧ i.regs.getD 0 0 ≠ sr
  shift : i.op = 11 → SmallShift i.last

instance (i : Instr) (d a : ℕ) : Decidable (i.Valid d a) :=
  decidable_of_iff (i.op < instructions.length ∧ nArgs i.op = 3 ∧ i.regs = [d, a] ∧
      d < numRegs ∧ a < numRegs ∧ Instr.Fits 3 i.last)
    ⟨fun ⟨h1, h2, h3, h4, h5, h6⟩ => ⟨h1, h2, h3, h4, h5, h6⟩,
      fun ⟨h1, h2, h3, h4, h5, h6⟩ => ⟨h1, h2, h3, h4, h5, h6⟩⟩

instance : DecidablePred Plain := fun i =>
  decidable_of_iff (i.op ∈ [1, 2, 4, 7, 8, 9, 10, 11, 12, 13] ∧
      i.Valid (i.regs.getD 0 0) (i.regs.getD 1 0) ∧
      (i.op ≠ 13 → i.regs.getD 0 0 ≠ pc ∧ i.regs.getD 0 0 ≠ sr) ∧
      (i.op = 11 → SmallShift i.last))
    ⟨fun ⟨h1, h2, h3, h4⟩ => ⟨h1, h2, h3, h4⟩, fun ⟨h1, h2, h3, h4⟩ => ⟨h1, h2, h3, h4⟩⟩

/-- The last operand may be another one that fits. -/
lemma Plain.of_last {op d a : ℕ} {o o' : Operand} (h : Plain ⟨op, [d, a], o⟩) (hop : op ≠ 11)
    (ho : Instr.Fits 3 o') : Plain ⟨op, [d, a], o'⟩ :=
  ⟨h.op, ⟨h.valid.op, h.valid.count, rfl, h.valid.dest, h.valid.arg, ho⟩, h.dest,
    fun h => absurd h hop⟩

/-- The steps from one view of the machine to another. -/
abbrev Runs : Cpu → Cpu → Prop := ReflTransGen Step

/-- The instructions of `prog` are in the memory from `base` on. -/
def Loaded (base : ℕ) (prog : List Instr) (m : Mem) : Prop :=
  ∀ k i, prog[k]? = some i → m (addr (base + k)) = i.word

/-- The registers that are written. -/
def dests (is : List Instr) : List ℕ :=
  is.filterMap fun i => if i.op = 13 then none else some (i.regs.getD 0 0)

variable {is prog : List Instr} {base k : ℕ}

/-- The instructions of a list are written in three ways. -/
lemma Plain.cases (h : Plain i) : ∃ d a, i.Valid d a ∧
    ((i.op = 12 ∧ d ≠ pc ∧ d ≠ sr ∧ ∀ p c, written p i c = [] ∧
        line p i c = c.setReg d (c.mem (addr (rd p c a + val p c i.last)))) ∨
      (i.op = 13 ∧ ∀ p c, written p i c = [addr (rd p c a + val p c i.last)] ∧
        line p i c = ⟨c.regs, c.mem.set (addr (rd p c a + val p c i.last)) (rd p c d)⟩) ∨
      (i.op ≠ 13 ∧ d ≠ pc ∧ d ≠ sr ∧ ∀ p c, written p i c = [] ∧
        ∃ v, alu i.op (rd p c a) (val p c i.last) = some v ∧ line p i c = c.setReg d v)) := by
  obtain ⟨op, regs, last⟩ := i
  obtain ⟨hop, hvalid, hdest, hshift⟩ := h
  obtain ⟨d, a, rfl⟩ : ∃ d a, regs = [d, a] := ⟨_, _, hvalid.regs⟩
  simp only at hop hshift hdest hvalid
  refine ⟨d, a, hvalid, ?_⟩
  have hother : op ≠ 13 → (∀ p c, written p ⟨op, [d, a], last⟩ c = [] ∧
      line p ⟨op, [d, a], last⟩ c =
        c.setReg d ((alu op (rd p c a) (val p c last)).getD 0)) →
      (∀ p c, ∃ v, alu op (rd p c a) (val p c last) = some v) →
      op ≠ 13 ∧ d ≠ pc ∧ d ≠ sr ∧ ∀ p c, written p ⟨op, [d, a], last⟩ c = [] ∧
        ∃ v, alu op (rd p c a) (val p c last) = some v ∧
          line p ⟨op, [d, a], last⟩ c = c.setReg d v := by
    intro h13 hline hsome
    refine ⟨h13, (hdest h13).1, (hdest h13).2, fun p c => ⟨(hline p c).1, ?_⟩⟩
    obtain ⟨v, hv⟩ := hsome p c
    exact ⟨v, hv, by rw [(hline p c).2, hv, Option.getD_some]⟩
  simp only [List.mem_cons, List.not_mem_nil, or_false] at hop
  rcases hop with rfl | rfl | rfl | rfl | rfl | rfl | rfl | rfl | rfl | rfl
  case inr.inr.inr.inr.inr.inr.inr.inr.inr =>
    exact .inr (.inl ⟨rfl, fun p c => ⟨rfl, rfl⟩⟩)
  case inr.inr.inr.inr.inr.inr.inr.inr.inl =>
    exact .inl ⟨rfl, (hdest (by decide)).1, (hdest (by decide)).2, fun p c => ⟨rfl, rfl⟩⟩
  case inr.inr.inr.inr.inr.inr.inr.inl =>
    refine .inr (.inr (hother (by decide) (fun p c => ⟨rfl, rfl⟩) fun p c => ?_))
    cases last with
    | imm v =>
      have hv : v.natAbs < 64 := hshift rfl
      rw [val, alu, sword_toWord (by omega), if_pos hv]
      exact ⟨_, rfl⟩
    | reg r => exact absurd (hshift rfl) id
    | label t => exact absurd (hshift rfl) id
  all_goals
    exact .inr (.inr (hother (by decide) (fun p c => ⟨rfl, rfl⟩) fun p c => ⟨_, rfl⟩))

@[simp] lemma setReg_regs (c : Cpu) (r v x : ℕ) :
    (c.setReg r v).regs x = if x = r then v else c.regs x := Function.update_apply ..

@[simp] lemma setReg_mem (c : Cpu) (r v : ℕ) : (c.setReg r v).mem = c.mem := rfl

lemma setReg_comm (c : Cpu) (h : r ≠ q) :
    (c.setReg r x).setReg q y = (c.setReg q y).setReg r x :=
  congrArg (Cpu.mk · _) (Function.update_comm h ..)

lemma setReg_setReg (c : Cpu) (r x y : ℕ) : (c.setReg r x).setReg r y = c.setReg r y :=
  congrArg (Cpu.mk · _) (Function.update_idem ..)

lemma rd_setPc (p : ℕ) (c : Cpu) (v r : ℕ) : rd p (c.setReg pc v) r = rd p c r := by
  unfold rd
  split_ifs with h
  · rfl
  · rw [setReg_regs, if_neg h]

lemma val_setPc (p : ℕ) (c : Cpu) (v : ℕ) (o : Operand) :
    val p (c.setReg pc v) o = val p c o := by
  cases o with
  | imm v => rfl
  | reg r => exact rd_setPc ..
  | label t => rfl

/-- The program counter of the view does not matter. -/
lemma Plain.line_setPc (h : Plain i) (p : ℕ) (c : Cpu) (v : ℕ) :
    line p i (c.setReg pc v) = (line p i c).setReg pc v ∧
      written p i (c.setReg pc v) = written p i c := by
  obtain ⟨d, a, -, ⟨-, hd, -, hl⟩ | ⟨-, hl⟩ | ⟨-, hd, -, hl⟩⟩ := h.cases
  · rw [(hl p c).1, (hl p c).2, (hl p _).1, (hl p _).2, rd_setPc, val_setPc, setReg_mem]
    exact ⟨setReg_comm _ hd.symm, rfl⟩
  · rw [(hl p c).1, (hl p c).2, (hl p _).1, (hl p _).2, rd_setPc, rd_setPc, val_setPc]
    exact ⟨rfl, rfl⟩
  · obtain ⟨hw, w, h1, h2⟩ := hl p c
    obtain ⟨hw', w', h1', h2'⟩ := hl p (c.setReg pc v)
    rw [rd_setPc, val_setPc, h1] at h1'
    cases h1'
    rw [hw, hw', h2, h2']
    exact ⟨setReg_comm _ hd.symm, rfl⟩

lemma block_setPc (h : ∀ i ∈ is, Plain i) (p : ℕ) (c : Cpu) (v : ℕ) :
    block p is (c.setReg pc v) = (block p is c).setReg pc v ∧
      writes p is (c.setReg pc v) = writes p is c := by
  induction is generalizing p c with
  | nil => exact ⟨rfl, rfl⟩
  | cons i is ih =>
    obtain ⟨h1, h2⟩ := (h i (by simp)).line_setPc p c v
    obtain ⟨h3, h4⟩ := ih (fun i hi => h i (by simp [hi])) (p + 1) (line p i c)
    rw [block, block, writes, writes, h1, h2]
    exact ⟨h3, congrArg _ h4⟩

lemma rd_pc (c : Cpu) (r : ℕ) : rd (c.regs pc) c r = c.regs r := by
  unfold rd
  split_ifs with h
  · rw [h]
  · rfl

lemma val_pc (c : Cpu) (o : Operand) : val (c.regs pc) c o = operand c o := by
  cases o with
  | imm v => rfl
  | reg r => exact rd_pc c r
  | label t => rfl

/-- One instruction that does not jump. -/
lemma Plain.step (h : Plain i) (hw : c.mem (addr p) = i.word) (hrun : c.regs sr &&& excContMask ≠ 0)
    (hp : c.regs pc = p) (hlt : p + 1 < wordMod) :
    Step c ((line p i c).setReg pc (p + 1)) ∧
      (line p i c).regs sr &&& excContMask ≠ 0 := by
  obtain ⟨d, a, hv, hcase⟩ := h.cases
  have hf : Fetch c i d a := ⟨hp.symm ▸ hw, hv, hrun⟩
  have hpc : wadd p 1 = p + 1 := wadd_eq hlt
  rcases hcase with ⟨hop, hd, hs, hl⟩ | ⟨hop, hl⟩ | ⟨-, hd, hs, hl⟩
  · have h1 := step_ldr hf hop
    rw [Cpu.next, setReg_regs, if_neg (Ne.symm hd), hp, hpc] at h1
    rw [(hl p c).2, ← hp, rd_pc, val_pc, hp]
    exact ⟨h1, by rwa [setReg_regs, if_neg (Ne.symm hs)]⟩
  · have h1 := step_str hf hop
    rw [Cpu.next, hp, hpc] at h1
    rw [(hl p c).2, ← hp, rd_pc, rd_pc, val_pc, hp]
    exact ⟨h1, hrun⟩
  · obtain ⟨-, v, h1, h2⟩ := hl p c
    rw [← hp, rd_pc, val_pc] at h1
    have h3 := step_alu hf h1
    rw [Cpu.next, setReg_regs, if_neg (Ne.symm hd), hp, hpc] at h3
    rw [h2]
    exact ⟨h3, by rwa [setReg_regs, if_neg (Ne.symm hs)]⟩

lemma line_mem (h : Plain i) (hx : x ∉ written p i c) : (line p i c).mem x = c.mem x := by
  obtain ⟨d, a, -, ⟨-, -, -, hl⟩ | ⟨-, hl⟩ | ⟨-, -, -, hl⟩⟩ := h.cases
  · rw [(hl p c).2]
    rfl
  · rw [(hl p c).1, List.mem_singleton] at hx
    rw [(hl p c).2]
    exact set_ne _ _ hx
  · obtain ⟨-, v, -, h2⟩ := hl p c
    rw [h2]
    rfl

/-- Only the written addresses change. -/
lemma block_mem (h : ∀ i ∈ is, Plain i) (hx : x ∉ writes p is c) :
    (block p is c).mem x = c.mem x := by
  induction is generalizing p c with
  | nil => rfl
  | cons i is ih =>
    rw [writes, List.mem_append, not_or] at hx
    exact (ih (fun i hi => h i (by simp [hi])) hx.2).trans (line_mem (h i (by simp)) hx.1)

lemma line_regs (h : Plain i) (hr : i.op ≠ 13 → r ≠ i.regs.getD 0 0) :
    (line p i c).regs r = c.regs r := by
  obtain ⟨d, a, hv, ⟨hop, -, -, hl⟩ | ⟨-, hl⟩ | ⟨hop, -, -, hl⟩⟩ := h.cases
  · rw [hv.regs] at hr
    rw [(hl p c).2, setReg_regs]
    exact if_neg (hr (by omega))
  · rw [(hl p c).2]
  · obtain ⟨-, v, -, h2⟩ := hl p c
    rw [hv.regs] at hr
    rw [h2, setReg_regs]
    exact if_neg (hr hop)

/-- Only the destinations change. -/
lemma block_regs (h : ∀ i ∈ is, Plain i) (hr : r ∉ dests is) :
    (block p is c).regs r = c.regs r := by
  induction is generalizing p c with
  | nil => rfl
  | cons i is ih =>
    have hr' : r ∉ dests is ∧ (i.op ≠ 13 → r ≠ i.regs.getD 0 0) := by
      rw [dests, List.filterMap_cons] at hr
      split_ifs at hr with h13
      · exact ⟨hr, fun h => absurd h13 h⟩
      · rw [List.mem_cons, not_or] at hr
        exact ⟨hr.2, fun _ => hr.1⟩
    exact (ih (fun i hi => h i (by simp [hi])) hr'.1).trans (line_regs (h i (by simp)) hr'.2)

/-- **A list of instructions** without jumps is carried out as a whole, if it does not write over
itself. -/
theorem block_runs (h : ∀ i ∈ is, Plain i) (hpc : c.regs pc = p)
    (hrun : c.regs sr &&& excContMask ≠ 0) (hl : Loaded p is c.mem)
    (hw : ∀ x ∈ writes p is c, ∀ k < is.length, x ≠ addr (p + k))
    (hlt : p + is.length < wordMod) :
    Runs c ((block p is c).setReg pc (p + is.length)) := by
  induction is generalizing p c with
  | nil =>
    have heq : (block p [] c).setReg pc (p + 0) = c :=
      congrArg (Cpu.mk · _) (by rw [Nat.add_zero, ← hpc]; exact Function.update_eq_self ..)
    rw [List.length_nil, heq]
  | cons i is ih =>
    have hi := h i (by simp)
    have his : ∀ i ∈ is, Plain i := fun i hi => h i (by simp [hi])
    rw [List.length_cons] at hlt hw ⊢
    obtain ⟨h1, h2⟩ := hi.step (hl 0 i rfl) hrun hpc (by omega)
    obtain ⟨h3, h4⟩ := block_setPc his (p + 1) (line p i c) (p + 1)
    have h5 := ih (p := p + 1) (c := (line p i c).setReg pc (p + 1)) his (by simp)
      (by rwa [setReg_regs, if_neg (by decide)]) ?_ ?_ (by omega)
    · rw [h3, setReg_setReg] at h5
      rw [block, show p + (is.length + 1) = p + 1 + is.length by omega]
      exact .head h1 h5
    · intro k j hj
      rw [setReg_mem, line_mem hi, show p + 1 + k = p + (k + 1) by omega, hl (k + 1) j hj]
      intro hx
      have hk := (List.getElem?_eq_some_iff.mp hj).1
      exact hw _ (by rw [writes]; exact List.mem_append_left _ hx) (k + 1) (by omega)
        (by rw [show p + (k + 1) = p + 1 + k by omega])
    · intro x hx k hk
      rw [h4] at hx
      rw [show p + 1 + k = p + (k + 1) by omega]
      exact hw x (by rw [writes]; exact List.mem_append_right _ hx) (k + 1) (by omega)

end LispMachine.MachineRun
