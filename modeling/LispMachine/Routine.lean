import LispMachine.MachineRun

/-!
Routines in the machine's memory.

A routine runs within its code, and changes the memory only where it may. The runs of a routine up
to where it leaves its code are determined, so what holds at one such end holds at every end.
-/

namespace LispMachine.Routine

open LispMachine.Memory LispMachine.Asm LispMachine.AsmRef LispMachine.MachineStep
open LispMachine.MachineRun Relation
open LispMachine.Machine hiding ldr str shf

/-- A state that the machine can be in. -/
def Real (c : Cpu) : Prop := ∃ s, Words s ∧ view s = c

/-- The words that are carried out, those that may change, and the memory at the start. -/
structure Zone where
  code : Set ℕ
  free : Set ℕ
  mem : Mem

/-- A step within the code that changes only what may change. -/
structure Zone.Step (Z : Zone) (c c' : Cpu) : Prop where
  real : Real c
  inside : c.regs pc ∈ Z.code
  step : MachineRun.Step c c'
  kept : ∀ x ∉ Z.free, c'.mem x = Z.mem x

/-- Such steps, one after the other. -/
abbrev Zone.Runs (Z : Zone) : Cpu → Cpu → Prop := ReflTransGen Z.Step

variable {Z : Zone} {c c' c₀ c₁ c₂ : Cpu} {i : Instr} {is prog : List Instr} {o : Operand}
variable {a base d k n p q r v x : ℕ}

lemma Real.regs_lt (h : Real c) (r : ℕ) : c.regs r < wordMod := by
  obtain ⟨s, hs, rfl⟩ := h
  change (if r < numRegs then s.regs r else 0) < wordMod
  split_ifs
  · exact hs.regs r
  · decide

lemma Real.mem_lt (h : Real c) (x : ℕ) : c.mem x < wordMod := by
  obtain ⟨s, hs, rfl⟩ := h
  exact hs.mem x

lemma Real.step (h : Real c) (hs : MachineRun.Step c c') : Real c' := by
  obtain ⟨s, hw, hv⟩ := h
  obtain ⟨s', -, hw', hv'⟩ := hs 0 s hw hv
  exact ⟨s', hw', hv'⟩

/-- **A step** is determined. -/
lemma step_unique (h : Real c) (h₁ : MachineRun.Step c c₁) (h₂ : MachineRun.Step c c₂) :
    c₁ = c₂ := by
  obtain ⟨s, hw, hv⟩ := h
  obtain ⟨s₁, hs₁, -, hv₁⟩ := h₁ 0 s hw hv
  obtain ⟨s₂, hs₂, -, hv₂⟩ := h₂ 0 s hw hv
  rw [hs₁] at hs₂
  cases hs₂
  exact hv₁.symm.trans hv₂

/-- One of two runs continues the other. -/
lemma Zone.Runs.total (h₁ : Z.Runs c c₁) (h₂ : Z.Runs c c₂) : Z.Runs c₁ c₂ ∨ Z.Runs c₂ c₁ :=
  ReflTransGen.total_of_right_unique (fun _ _ _ h₁ h₂ => step_unique h₁.real h₁.step h₂.step) h₁ h₂

/-- A run ends where it leaves the code. -/
lemma Zone.Runs.ended (h : Z.Runs c c') (hp : c.regs pc ∉ Z.code) : c = c' := by
  rcases h.cases_head with heq | ⟨d, hstep, -⟩
  · exact heq
  · exact absurd hstep.inside hp

/-- **The end** of a run out of the code is determined. -/
lemma Zone.Runs.unique (h₁ : Z.Runs c c₁) (h₂ : Z.Runs c c₂) (hp₁ : c₁.regs pc ∉ Z.code)
    (hp₂ : c₂.regs pc ∉ Z.code) : c₁ = c₂ := by
  rcases h₁.total h₂ with h | h
  · exact h.ended hp₁
  · exact (h.ended hp₂).symm

/-- The instructions of `prog` are part of the code, which does not change. -/
structure Zone.Holds (Z : Zone) (base : ℕ) (prog : List Instr) : Prop where
  loaded : Loaded base prog Z.mem
  inside : ∀ k < prog.length, base + k ∈ Z.code
  apart : ∀ k < prog.length, addr (base + k) ∉ Z.free
  room : base + prog.length < wordMod

/-- The machine runs at the word `p`, and the memory is as it may be. -/
structure Zone.At (Z : Zone) (p : ℕ) (c : Cpu) : Prop where
  real : Real c
  counter : c.regs pc = p
  running : c.regs sr &&& excContMask ≠ 0
  kept : ∀ x ∉ Z.free, c.mem x = Z.mem x

namespace Zone

lemma Holds.word (h : Z.Holds base prog) (hc : Z.At (base + k) c) (hi : prog[k]? = some i) :
    c.mem (addr (c.regs pc)) = i.word := by
  have hk := (List.getElem?_eq_some_iff.mp hi).1
  rw [hc.counter, hc.kept _ (h.apart k hk)]
  exact h.loaded k i hi

/-- One instruction that does not jump. -/
lemma At.plain (hz : Z.Holds base prog) (hc : Z.At (base + k) c) (hi : prog[k]? = some i)
    (h : Plain i) (hw : ∀ x ∈ written (base + k) i c, x ∈ Z.free) :
    Z.Step c ((line (base + k) i c).setReg pc (base + k + 1)) ∧
      Z.At (base + k + 1) ((line (base + k) i c).setReg pc (base + k + 1)) := by
  have hk := (List.getElem?_eq_some_iff.mp hi).1
  have hroom := hz.room
  have hword := hz.word hc hi
  rw [hc.counter] at hword
  obtain ⟨h1, h2⟩ := h.step hword hc.running hc.counter (by omega)
  have hkept : ∀ x ∉ Z.free,
      ((line (base + k) i c).setReg pc (base + k + 1)).mem x = Z.mem x := fun x hx => by
    rw [setReg_mem, line_mem h fun hw' => hx (hw x hw')]
    exact hc.kept x hx
  refine ⟨⟨hc.real, hc.counter ▸ hz.inside k hk, h1, hkept⟩, hc.real.step h1, ?_, ?_, hkept⟩
  · rw [setReg_regs, if_pos rfl]
  · rwa [setReg_regs, if_neg (by decide)]

/-- **A list of instructions** without jumps is carried out as a whole. -/
lemma At.blocks (hz : Z.Holds base prog) (hc : Z.At (base + k) c) (his : is <+: prog.drop k)
    (h : ∀ i ∈ is, Plain i) (hw : ∀ x ∈ writes (base + k) is c, x ∈ Z.free) :
    Z.Runs c ((block (base + k) is c).setReg pc (base + k + is.length)) ∧
      Z.At (base + k + is.length) ((block (base + k) is c).setReg pc (base + k + is.length)) := by
  induction is generalizing k c with
  | nil =>
    have heq : (block (base + k) [] c).setReg pc (base + k + 0) = c :=
      congrArg (Cpu.mk · _) (by rw [Nat.add_zero, ← hc.counter]; exact Function.update_eq_self ..)
    rw [List.length_nil, heq]
    exact ⟨.refl, hc⟩
  | cons i is ih =>
    have hi := h i (by simp)
    have his' : ∀ i ∈ is, Plain i := fun i hi => h i (by simp [hi])
    have hget : prog[k]? = some i := by
      obtain ⟨t, ht⟩ := his
      rw [← List.head?_drop, ← ht]
      rfl
    have hrest : is <+: prog.drop (k + 1) := by
      obtain ⟨t, ht⟩ := his
      exact ⟨t, by rw [← List.tail_drop, ← ht]; rfl⟩
    rw [writes] at hw
    obtain ⟨h1, h2⟩ := hc.plain hz hget hi fun x hx => hw x (List.mem_append_left _ hx)
    obtain ⟨h3, h4⟩ := block_setPc his' (base + k + 1) (line (base + k) i c) (base + k + 1)
    obtain ⟨h5, h6⟩ := ih (k := k + 1) h2 hrest his' fun x hx =>
      hw x (List.mem_append_right _ (h4 ▸ hx))
    rw [← Nat.add_assoc, h3, setReg_setReg] at h5 h6
    rw [block, List.length_cons, Nat.add_comm is.length, ← Nat.add_assoc]
    exact ⟨.head h1 h5, h6⟩

/-- A step at an instruction that does not jump -/
lemma Step.plain (hs : Z.Step c c') (hz : Z.Holds base prog) (hc : Z.At (base + k) c)
    (hi : prog[k]? = some i) (h : Plain i) :
    c' = (line (base + k) i c).setReg pc (base + k + 1) ∧ Z.At (base + k + 1) c' := by
  have hk := (List.getElem?_eq_some_iff.mp hi).1
  have hroom := hz.room
  have hword := hz.word hc hi
  rw [hc.counter] at hword
  obtain ⟨h1, h2⟩ := h.step hword hc.running hc.counter (by omega)
  have heq := step_unique hc.real hs.step h1
  refine ⟨heq, hc.real.step hs.step, ?_, ?_, hs.kept⟩
  · rw [heq, setReg_regs, if_pos rfl]
  · rwa [heq, setReg_regs, if_neg (by decide)]

/-- **A write** to a word that may not change ends the run. -/
lemma At.stuck (hz : Z.Holds base prog) (hc : Z.At (base + k) c) (hi : prog[k]? = some i)
    (h : Plain i) (hx : x ∉ Z.free) (hne : (line (base + k) i c).mem x ≠ Z.mem x) :
    ¬ Z.Step c c' := by
  intro hstep
  have hkept := hstep.kept x hx
  rw [(hstep.plain hz hc hi h).1, setReg_mem] at hkept
  exact hne hkept

/-- **A jump** that is taken. -/
lemma At.jump (hz : Z.Holds base prog) (hc : Z.At (base + k) c)
    (hi : prog[k]? = some ⟨14, [d, a], o⟩) (hv : Instr.Valid ⟨14, [d, a], o⟩ d a)
    (hd : c.regs d ≠ 0) (hq : wadd (c.regs a) (operand c o) = q) (h0 : q ≠ 0) :
    Z.Step c (c.setReg pc q) ∧ Z.At q (c.setReg pc q) := by
  have hk := (List.getElem?_eq_some_iff.mp hi).1
  have hf : Fetch c ⟨14, [d, a], o⟩ d a := ⟨hz.word hc hi, hv, hc.running⟩
  have h1 := step_jump hf rfl hd (by rw [hq]; exact h0)
  rw [hq] at h1
  have hkept : ∀ x ∉ Z.free, (c.setReg pc q).mem x = Z.mem x := hc.kept
  refine ⟨⟨hc.real, hc.counter ▸ hz.inside k hk, h1, hkept⟩, hc.real.step h1, ?_, ?_, hkept⟩
  · rw [setReg_regs, if_pos rfl]
  · rw [setReg_regs, if_neg (by decide)]
    exact hc.running

/-- A step at a jump that is taken -/
lemma Step.jump (hs : Z.Step c c') (hz : Z.Holds base prog) (hc : Z.At (base + k) c)
    (hi : prog[k]? = some ⟨14, [d, a], o⟩) (hv : Instr.Valid ⟨14, [d, a], o⟩ d a)
    (hd : c.regs d ≠ 0) (hq : wadd (c.regs a) (operand c o) = q) (h0 : q ≠ 0) :
    c' = c.setReg pc q ∧ Z.At q c' := by
  obtain ⟨h1, h2⟩ := hc.jump hz hi hv hd hq h0
  have heq := step_unique hc.real hs.step h1.step
  exact ⟨heq, heq ▸ h2⟩

/-- **A jump** that is not taken. -/
lemma At.skip (hz : Z.Holds base prog) (hc : Z.At (base + k) c)
    (hi : prog[k]? = some ⟨14, [d, a], o⟩) (hv : Instr.Valid ⟨14, [d, a], o⟩ d a)
    (hd : c.regs d = 0) :
    Z.Step c (c.setReg pc (base + k + 1)) ∧ Z.At (base + k + 1) (c.setReg pc (base + k + 1)) := by
  have hk := (List.getElem?_eq_some_iff.mp hi).1
  have hroom := hz.room
  have hf : Fetch c ⟨14, [d, a], o⟩ d a := ⟨hz.word hc hi, hv, hc.running⟩
  have h1 := step_skip hf rfl hd
  rw [Cpu.next, hc.counter, wadd_eq (by omega)] at h1
  have hkept : ∀ x ∉ Z.free, (c.setReg pc (base + k + 1)).mem x = Z.mem x := hc.kept
  refine ⟨⟨hc.real, hc.counter ▸ hz.inside k hk, h1, hkept⟩, hc.real.step h1, ?_, ?_, hkept⟩
  · rw [setReg_regs, if_pos rfl]
  · rw [setReg_regs, if_neg (by decide)]
    exact hc.running

end Zone

/-! ### The instructions of the kernel -/

abbrev ads (d a : ℕ) (o : Operand) : Instr := ⟨1, [d, a], o⟩
abbrev sbs (d a : ℕ) (o : Operand) : Instr := ⟨2, [d, a], o⟩
abbrev dvu (d a : ℕ) (o : Operand) : Instr := ⟨6, [d, a], o⟩
abbrev and (d a : ℕ) (o : Operand) : Instr := ⟨7, [d, a], o⟩
abbrev orr (d a : ℕ) (o : Operand) : Instr := ⟨8, [d, a], o⟩
abbrev xor (d a : ℕ) (o : Operand) : Instr := ⟨9, [d, a], o⟩
abbrev shf (d a : ℕ) (n : ℤ) : Instr := ⟨11, [d, a], .imm n⟩
abbrev ldr (d a : ℕ) (o : Operand) : Instr := ⟨12, [d, a], o⟩
abbrev str (d a : ℕ) (o : Operand) : Instr := ⟨13, [d, a], o⟩
abbrev jnc (d a : ℕ) (o : Operand) : Instr := ⟨14, [d, a], o⟩

/-- The register that holds zero. -/
def zr : ℕ := 0

/-- `ret` -/
def ret : Instr := jnc sr lr (.imm 0)

/-- `callb` of the routine at `q` -/
def callb (q : ℕ) : List Instr := [ads lr pc (.imm 2), jnc sr zr (.imm q)]

variable {u : ℤ}

@[simp] lemma line_ads (p d a : ℕ) (o : Operand) (c : Cpu) :
    line p (ads d a o) c = c.setReg d (wadd (rd p c a) (val p c o)) := by
  change c.setReg d ((alu 1 (rd p c a) (val p c o)).getD 0) = _
  rw [alu, Option.getD_some]

@[simp] lemma line_sbs (p d a : ℕ) (o : Operand) (c : Cpu) :
    line p (sbs d a o) c = c.setReg d (wsub (rd p c a) (val p c o)) := by
  change c.setReg d ((alu 2 (rd p c a) (val p c o)).getD 0) = _
  rw [alu, Option.getD_some]

@[simp] lemma line_and (p d a : ℕ) (o : Operand) (c : Cpu) :
    line p (and d a o) c = c.setReg d (rd p c a &&& val p c o) := by
  change c.setReg d ((alu 7 (rd p c a) (val p c o)).getD 0) = _
  rw [alu, Option.getD_some]

@[simp] lemma line_orr (p d a : ℕ) (o : Operand) (c : Cpu) :
    line p (orr d a o) c = c.setReg d (rd p c a ||| val p c o) := by
  change c.setReg d ((alu 8 (rd p c a) (val p c o)).getD 0) = _
  rw [alu, Option.getD_some]

@[simp] lemma line_xor (p d a : ℕ) (o : Operand) (c : Cpu) :
    line p (xor d a o) c = c.setReg d (rd p c a ^^^ val p c o) := by
  change c.setReg d ((alu 9 (rd p c a) (val p c o)).getD 0) = _
  rw [alu, Option.getD_some]

lemma line_shf (p d a : ℕ) (c : Cpu) (h : u.natAbs < 64) :
    line p (shf d a u) c = c.setReg d (shifted (rd p c a) u) := by
  change c.setReg d ((alu 11 (rd p c a) (toWord u)).getD 0) = _
  rw [alu, sword_toWord (by omega), if_pos h, Option.getD_some]

@[simp] lemma line_ldr (p d a : ℕ) (o : Operand) (c : Cpu) :
    line p (ldr d a o) c = c.setReg d (c.mem (addr (rd p c a + val p c o))) := rfl

@[simp] lemma line_str (p d a : ℕ) (o : Operand) (c : Cpu) :
    line p (str d a o) c = ⟨c.regs, c.mem.set (addr (rd p c a + val p c o)) (rd p c d)⟩ := rfl

@[simp] lemma written_str (p d a : ℕ) (o : Operand) (c : Cpu) :
    written p (str d a o) c = [addr (rd p c a + val p c o)] := rfl

@[simp] lemma written_of_ne {op : ℕ} (h : op ≠ 13) (p d a : ℕ) (o : Operand) (c : Cpu) :
    written p ⟨op, [d, a], o⟩ c = [] := by
  unfold written
  split
  · exact absurd (by assumption) h
  · rfl

lemma block_append (p : ℕ) (is is' : List Instr) (c : Cpu) :
    block p (is ++ is') c = block (p + is.length) is' (block p is c) := by
  induction is generalizing p c with
  | nil => rfl
  | cons i is ih => rw [List.cons_append, block, ih, block, List.length_cons, Nat.add_assoc,
      Nat.add_comm 1]

lemma writes_append (p : ℕ) (is is' : List Instr) (c : Cpu) :
    writes p (is ++ is') c = writes p is c ++ writes (p + is.length) is' (block p is c) := by
  induction is generalizing p c with
  | nil => rfl
  | cons i is ih => rw [List.cons_append, writes, ih, writes, block, List.length_cons,
      List.append_assoc, Nat.add_assoc, Nat.add_comm 1]

/-! ### Frames -/

/-- The word `j` of the frame above the stack pointer `s`. -/
def frame (s j : ℕ) : ℕ := addr (s + 1 + j)

/-- Registers are stored in the words of the frame from `j` on. -/
def storesFrom : ℕ → List ℕ → List Instr
  | _, [] => []
  | j, r :: rs => str r fp (.imm j) :: storesFrom (j + 1) rs

/-- Registers are loaded again, the last one first. -/
def loadsFrom : ℕ → List ℕ → List Instr
  | _, [] => []
  | j, r :: rs => loadsFrom (j + 1) rs ++ [ldr r fp (.imm j)]

/-- The start of a routine, which saves the frame pointer and the registers `rs`. -/
def prologue (rs : List ℕ) : List Instr :=
  [ads sp sp (.imm (rs.length + 1)), str fp sp (.imm (-rs.length)),
    ads fp sp (.imm (-rs.length))] ++ storesFrom 1 rs

/-- The prologue, and the base of the routine for its labels. -/
def opening (rs : List ℕ) : List Instr :=
  prologue rs ++ [ads bp pc (.imm (-(rs.length + 3)))]

/-- The end of a routine, which restores them. -/
def epilogue (rs : List ℕ) : List Instr :=
  loadsFrom 1 rs ++ [ldr fp fp (.imm 0), sbs sp sp (.imm (rs.length + 1))]

variable {rs : List ℕ} {j s y : ℕ}

lemma addr_wadd (x y : ℕ) : addr (wadd x y) = addr (x + y) :=
  Nat.mod_mod_of_dvd _ (by decide)

lemma addr_wadd_add (x y z : ℕ) : addr (wadd x y + z) = addr (x + y + z) := by
  rw [addr, addr, wadd, Nat.add_mod, Nat.mod_mod_of_dvd _ (by decide), ← Nat.add_mod]

/-- The words of a frame are different ones. -/
lemma frame_inj (hk : k < addrSpace) (hj : j < addrSpace) (h : frame s k = frame s j) : k = j := by
  unfold frame addr at h
  unfold addrSpace at *
  omega

lemma operand_nat (p : ℕ) (c : Cpu) (hj : j < wordMod) : val p c (.imm j) = j := toWord_natCast hj

lemma storesFrom_length (j : ℕ) (rs : List ℕ) : (storesFrom j rs).length = rs.length := by
  induction rs generalizing j with
  | nil => rfl
  | cons r rs ih => rw [storesFrom, List.length_cons, ih, List.length_cons]

lemma storesFrom_spec (hs : c.regs fp = wadd s 1) (hrs : pc ∉ rs) (hj : j + rs.length < addrSpace) :
    (block p (storesFrom j rs) c).regs = c.regs ∧
      (∀ x, (∀ i < rs.length, x ≠ frame s (j + i)) →
        (block p (storesFrom j rs) c).mem x = c.mem x) ∧
      (∀ i r, rs[i]? = some r →
        (block p (storesFrom j rs) c).mem (frame s (j + i)) = c.regs r) ∧
      ∀ x ∈ writes p (storesFrom j rs) c, ∃ i < rs.length, x = frame s (j + i) := by
  induction rs generalizing j p c with
  | nil => exact ⟨rfl, fun x _ => rfl, fun i r h => (by cases h), fun x hx => (by cases hx)⟩
  | cons r rs ih =>
    rw [List.mem_cons, not_or] at hrs
    rw [List.length_cons] at hj
    have hword : addr (rd p c fp + val p c (.imm j)) = frame s j := by
      rw [operand_nat _ _ (by unfold addrSpace at hj; unfold wordMod; omega), rd, if_neg (by decide),
        hs, addr_wadd_add, frame]
    have hline : line p (str r fp (.imm j)) c = ⟨c.regs, c.mem.set (frame s j) (c.regs r)⟩ := by
      rw [line_str, hword, rd, if_neg (Ne.symm hrs.1)]
    obtain ⟨h1, h2, h3, h4⟩ := ih (p := p + 1) (c := ⟨c.regs, c.mem.set (frame s j) (c.regs r)⟩) hs
      hrs.2 (show j + 1 + rs.length < addrSpace by omega)
    rw [storesFrom, block, hline, writes, written_str, hword, hline]
    refine ⟨h1, fun x hx => ?_, fun i q hi => ?_, fun x hx => ?_⟩
    · rw [h2 x fun i hi => by simpa [Nat.add_assoc, Nat.add_comm 1] using hx (i + 1) (by simpa using hi)]
      exact set_ne _ _ (hx 0 (Nat.succ_pos _))
    · cases i with
      | zero =>
        obtain rfl : r = q := by simpa using hi
        rw [Nat.add_zero, h2 _ fun i hi' heq => ?_]
        · exact set_self ..
        · have := frame_inj (by omega) (by omega) heq
          omega
      | succ i =>
        have := h3 i q (by simpa using hi)
        rwa [Nat.add_assoc, Nat.add_comm 1] at this
    · rw [List.singleton_append, List.mem_cons] at hx
      rcases hx with rfl | hx
      · exact ⟨0, Nat.succ_pos _, rfl⟩
      · obtain ⟨i, hi, rfl⟩ := h4 x hx
        exact ⟨i + 1, Nat.succ_lt_succ hi, by rw [Nat.add_assoc, Nat.add_comm 1]⟩

lemma loadsFrom_spec (hs : c.regs fp = wadd s 1) (hfp : fp ∉ rs) (hnd : rs.Nodup)
    (hj : j + rs.length < addrSpace) :
    (block p (loadsFrom j rs) c).mem = c.mem ∧
      (∀ r ∉ rs, (block p (loadsFrom j rs) c).regs r = c.regs r) ∧
      (∀ i r, rs[i]? = some r →
        (block p (loadsFrom j rs) c).regs r = c.mem (frame s (j + i))) ∧
      writes p (loadsFrom j rs) c = [] := by
  induction rs generalizing j with
  | nil => exact ⟨rfl, fun r _ => rfl, fun i r h => (by cases h), rfl⟩
  | cons r rs ih =>
    rw [List.mem_cons, not_or] at hfp
    rw [List.nodup_cons] at hnd
    rw [List.length_cons] at hj
    obtain ⟨h1, h2, h3, h4⟩ := ih (j := j + 1) hfp.2 hnd.2 (by omega)
    have hfp' := (h2 fp hfp.2).trans hs
    rw [loadsFrom, block_append, writes_append]
    generalize block p (loadsFrom (j + 1) rs) c = c₁ at h1 h2 h3 h4 hfp'
    generalize p + (loadsFrom (j + 1) rs).length = p₁
    have hword : addr (rd p₁ c₁ fp + val p₁ c₁ (.imm j)) = frame s j := by
      rw [operand_nat _ _ (by unfold addrSpace at hj; unfold wordMod; omega), rd, if_neg (by decide),
        hfp', addr_wadd_add, frame]
    have hblock : block p₁ [ldr r fp (.imm j)] c₁ = c₁.setReg r (c.mem (frame s j)) := by
      rw [block, block, line_ldr, hword, h1]
    rw [hblock, h4]
    refine ⟨h1, fun q hq => ?_, fun i q hi => ?_, rfl⟩
    · rw [List.mem_cons, not_or] at hq
      rw [setReg_regs, if_neg hq.1]
      exact h2 q hq.2
    · cases i with
      | zero =>
        obtain rfl : r = q := by simpa using hi
        rw [setReg_regs, if_pos rfl]
        rfl
      | succ i =>
        have hi' : rs[i]? = some q := by simpa using hi
        have hqr : q ≠ r := fun heq => hnd.1 (heq ▸ List.mem_of_getElem? hi')
        rw [setReg_regs, if_neg hqr, h3 i q hi', Nat.add_assoc, Nat.add_comm 1]

/-- Registers that a routine can save. -/
structure Saves (rs : List ℕ) : Prop where
  nodup : rs.Nodup
  length : rs.length < numRegs
  scratch : ∀ r ∈ rs, r ∉ [rr, pc, sp, fp, sr]

lemma Saves.ne (h : Saves rs) (hr : r ∈ [rr, pc, sp, fp, sr]) : r ∉ rs :=
  fun hmem => h.scratch r hmem hr

instance : DecidablePred Saves := fun rs =>
  decidable_of_iff (rs.Nodup ∧ rs.length < numRegs ∧ ∀ r ∈ rs, r ∉ [rr, pc, sp, fp, sr])
    ⟨fun ⟨h1, h2, h3⟩ => ⟨h1, h2, h3⟩, fun ⟨h1, h2, h3⟩ => ⟨h1, h2, h3⟩⟩

/-- The state `c` within a routine that was called in the state `c₀` and has saved `rs`. -/
structure Framed (c₀ : Cpu) (rs : List ℕ) (c : Cpu) : Prop where
  stack : c.regs sp = wadd (c₀.regs sp) (rs.length + 1)
  base : c.regs fp = wadd (c₀.regs sp) 1
  saved : ∀ i r, (fp :: rs)[i]? = some r → c.mem (frame (c₀.regs sp) i) = c₀.regs r
  others : ∀ r, r ∉ rr :: pc :: sp :: fp :: rs → c.regs r = c₀.regs r

/-- The routine may use the registers that it has saved, and memory outside of its frame. -/
lemma Framed.mono (h : Framed c₀ rs c) (hrs : Saves rs)
    (hr : ∀ r, r ∉ rr :: pc :: rs → c'.regs r = c.regs r)
    (hm : ∀ i ≤ rs.length, c'.mem (frame (c₀.regs sp) i) = c.mem (frame (c₀.regs sp) i)) :
    Framed c₀ rs c' := by
  have hsp : sp ∉ rr :: pc :: rs := by simp +decide [hrs.ne]
  have hfp : fp ∉ rr :: pc :: rs := by simp +decide [hrs.ne]
  refine ⟨(hr sp hsp).trans h.stack, (hr fp hfp).trans h.base, fun i r hi => ?_, fun r h' => ?_⟩
  · have := (List.getElem?_eq_some_iff.mp hi).1
    rw [List.length_cons] at this
    exact (hm i (by omega)).trans (h.saved i r hi)
  · simp only [List.mem_cons, not_or] at h'
    refine (hr r ?_).trans (h.others r ?_)
    · simp only [List.mem_cons, not_or]
      tauto
    · simp only [List.mem_cons, not_or]
      tauto

/-- **The prologue** saves the registers in the frame. -/
lemma prologue_spec (hrs : Saves rs) :
    Framed c₀ rs (block p (prologue rs) c₀) ∧
      (∀ r, r ∉ [sp, fp] → (block p (prologue rs) c₀).regs r = c₀.regs r) ∧
      (∀ x, (∀ i ≤ rs.length, x ≠ frame (c₀.regs sp) i) →
        (block p (prologue rs) c₀).mem x = c₀.mem x) ∧
      ∀ x ∈ writes p (prologue rs) c₀, ∃ i ≤ rs.length, x = frame (c₀.regs sp) i := by
  have hn := hrs.length
  rw [show numRegs = 32 from rfl] at hn
  have hadd : wadd (wadd (c₀.regs sp) (rs.length + 1)) (toWord (-rs.length)) =
      wadd (c₀.regs sp) 1 := by
    unfold wadd toWord wordMod
    omega
  have hzero : addr (wadd (c₀.regs sp) (rs.length + 1) + toWord (-rs.length)) =
      frame (c₀.regs sp) 0 := by
    rw [← addr_wadd, hadd, addr_wadd, frame]
  have hnat : toWord ((rs.length : ℤ) + 1) = rs.length + 1 := by
    unfold toWord
    omega
  set c₁ : Cpu := ⟨((c₀.setReg sp (wadd (c₀.regs sp) (rs.length + 1))).setReg fp
    (wadd (c₀.regs sp) 1)).regs, c₀.mem.set (frame (c₀.regs sp) 0) (c₀.regs fp)⟩ with hc₁
  have hblock : block p [ads sp sp (.imm (rs.length + 1)), str fp sp (.imm (-rs.length)),
      ads fp sp (.imm (-rs.length))] c₀ = c₁ := by
    simp +decide [block, rd, val, hnat, hadd, hzero, hc₁, Cpu.setReg]
  have hwrites : writes p [ads sp sp (.imm (rs.length + 1)), str fp sp (.imm (-rs.length)),
      ads fp sp (.imm (-rs.length))] c₀ = [frame (c₀.regs sp) 0] := by
    simp +decide [writes, rd, val, hnat, hzero, written_of_ne]
  obtain ⟨h1, h2, h3, h4⟩ := storesFrom_spec (p := p + 3) (c := c₁) (s := c₀.regs sp) (j := 1)
    (by simp +decide [hc₁]) (hrs.ne (by decide)) (by unfold addrSpace; omega)
  have hother (r : ℕ) (hr : r ∉ [sp, fp]) : c₁.regs r = c₀.regs r := by
    simp only [List.mem_cons, List.not_mem_nil, or_false, not_or] at hr
    simp [hc₁, hr]
  have hout (x : ℕ) (hx : ∀ i ≤ rs.length, x ≠ frame (c₀.regs sp) i) :
      (block (p + 3) (storesFrom 1 rs) c₁).mem x = c₀.mem x := by
    rw [h2 x fun i hi => hx (1 + i) (by omega)]
    exact set_ne _ _ (hx 0 (Nat.zero_le _))
  rw [prologue, block_append, writes_append, hblock, hwrites]
  change Framed c₀ rs (block (p + 3) (storesFrom 1 rs) c₁) ∧ _
  refine ⟨⟨?_, ?_, fun i r hi => ?_, fun r hr => ?_⟩, fun r hr => ?_, hout, fun x hx => ?_⟩
  · rw [h1]
    simp +decide [hc₁]
  · rw [h1]
    simp +decide [hc₁]
  · cases i with
    | zero =>
      obtain rfl : fp = r := by simpa using hi
      rw [h2 _ fun i hi heq => ?_]
      · exact set_self ..
      · have := frame_inj (by decide) (by unfold addrSpace; omega) heq
        omega
    | succ i =>
      have hi' : rs[i]? = some r := by simpa using hi
      rw [Nat.add_comm i, h3 i r hi']
      refine hother r fun h => hrs.scratch r (List.mem_of_getElem? hi') ?_
      simp only [List.mem_cons] at h ⊢
      tauto
  · rw [h1]
    exact hother r fun h => hr (by simp only [List.mem_cons] at h ⊢; tauto)
  · change (block (p + 3) (storesFrom 1 rs) c₁).regs r = _
    rw [h1]
    exact hother r hr
  · rw [List.singleton_append, List.mem_cons] at hx
    rcases hx with rfl | hx
    · exact ⟨0, Nat.zero_le _, rfl⟩
    · obtain ⟨i, hi, rfl⟩ := h4 x hx
      exact ⟨1 + i, by omega, rfl⟩

/-- **The epilogue** restores all registers but the one of the result. -/
lemma epilogue_spec (h : Framed c₀ rs c) (hrs : Saves rs) (hc : c₀.regs sp < wordMod) :
    (∀ r, r ∉ [rr, pc] → (block p (epilogue rs) c).regs r = c₀.regs r) ∧
      (block p (epilogue rs) c).regs rr = c.regs rr ∧
      (block p (epilogue rs) c).mem = c.mem ∧ writes p (epilogue rs) c = [] := by
  have hn := hrs.length
  rw [show numRegs = 32 from rfl] at hn
  obtain ⟨h1, h2, h3, h4⟩ := loadsFrom_spec (p := p) (j := 1) h.base (hrs.ne (by decide)) hrs.nodup
    (by unfold addrSpace; omega)
  rw [epilogue, block_append, writes_append, h4]
  generalize p + (loadsFrom 1 rs).length = p₁
  have hfp := (h2 fp (hrs.ne (by decide))).trans h.base
  have hsp := (h2 sp (hrs.ne (by decide))).trans h.stack
  have hrr := h2 rr (hrs.ne (by decide))
  have hothers (r : ℕ) (hr : r ∉ rr :: pc :: sp :: fp :: rs) :
      (block p (loadsFrom 1 rs) c).regs r = c₀.regs r := by
    refine (h2 r fun hmem => hr ?_).trans (h.others r hr)
    simp only [List.mem_cons]
    tauto
  generalize block p (loadsFrom 1 rs) c = c₁ at h1 h3 hfp hsp hrr hothers
  have hnat : toWord ((rs.length : ℤ) + 1) = rs.length + 1 := by
    unfold toWord
    omega
  have hzero : addr (wadd (c₀.regs sp) 1) = frame (c₀.regs sp) 0 := by
    rw [addr_wadd]
    rfl
  have hsub : wsub (wadd (c₀.regs sp) (rs.length + 1)) (rs.length + 1) = c₀.regs sp := by
    unfold wsub wadd
    unfold wordMod at *
    omega
  have hblock : block p₁ [ldr fp fp (.imm 0), sbs sp sp (.imm (rs.length + 1))] c₁ =
      (c₁.setReg fp (c₀.regs fp)).setReg sp (c₀.regs sp) := by
    have := h.saved 0 fp rfl
    simp +decide [block, rd, val, hfp, hsp, hnat, hzero, hsub, h1, this, show toWord 0 = 0 from rfl]
  rw [hblock]
  refine ⟨fun r hr => ?_, ?_, h1, ?_⟩
  · by_cases hs : r = sp
    · simp [hs]
    by_cases hf : r = fp
    · simp +decide [hf]
    rw [setReg_regs, if_neg hs, setReg_regs, if_neg hf]
    by_cases hmem : r ∈ rs
    · obtain ⟨i, hi⟩ := List.mem_iff_getElem?.mp hmem
      rw [h3 i r hi, Nat.add_comm 1]
      exact h.saved (i + 1) r (by simpa using hi)
    · refine hothers r ?_
      simp only [List.mem_cons, List.not_mem_nil, or_false] at hr ⊢
      tauto
  · simpa +decide using hrr
  · simp +decide [writes]

/-! ### Running a routine -/

/-- From the state `c` the routine gets to a state with the property `Q`. -/
def Zone.Ends (Z : Zone) (Q : Cpu → Prop) (c : Cpu) : Prop := ∃ c', Z.Runs c c' ∧ Q c'

variable {Q : Cpu → Prop} {t : ℕ}

lemma Zone.Runs.ends (h : Z.Runs c c') (hQ : Z.Ends Q c') : Z.Ends Q c := by
  obtain ⟨d, hd, hq⟩ := hQ
  exact ⟨d, h.trans hd, hq⟩

lemma Zone.Step.ends (h : Z.Step c c') (hQ : Z.Ends Q c') : Z.Ends Q c :=
  Zone.Runs.ends (.single h) hQ

/-- The states are the same but for the program counter. -/
structure Same (c c' : Cpu) : Prop where
  regs : ∀ r, r ≠ pc → c'.regs r = c.regs r
  mem : c'.mem = c.mem

lemma same_setPc (c : Cpu) (v : ℕ) : Same c (c.setReg pc v) :=
  ⟨fun r hr => by rw [setReg_regs, if_neg hr], rfl⟩

lemma Zone.Ends.imp {Q' : Cpu → Prop} (h : Z.Ends Q c) (hQ : ∀ c', Q c' → Q' c') : Z.Ends Q' c := by
  obtain ⟨d, hd, hq⟩ := h
  exact ⟨d, hd, hQ d hq⟩

namespace Zone

/-- **Instructions** without jumps -/
lemma At.run (hc : Z.At (base + k) c) (hz : Z.Holds base prog) (is : List Instr)
    (his : is <+: prog.drop k) (hp : ∀ i ∈ is, Plain i)
    (hw : ∀ x ∈ writes (base + k) is c, x ∈ Z.free)
    (hQ : ∀ c', Z.At (base + (k + is.length)) c' → Same (block (base + k) is c) c' →
      Z.Ends Q c') : Z.Ends Q c := by
  obtain ⟨h1, h2⟩ := hc.blocks hz his hp hw
  exact Runs.ends h1 (hQ _ (Nat.add_assoc .. ▸ h2) (same_setPc ..))

/-- **A branch** over some instructions -/
lemma At.branch (hc : Z.At (base + k) c) (hz : Z.Holds base prog)
    (hi : prog[k]? = some (jnc d pc (.imm t))) (hv : Instr.Valid (jnc d pc (.imm t)) d pc)
    (hn : k + t < prog.length) (h0 : 0 < k + t)
    (hne : c.regs d ≠ 0 → ∀ c', Z.At (base + (k + t)) c' → Same c c' → Z.Ends Q c')
    (heq : c.regs d = 0 → ∀ c', Z.At (base + (k + 1)) c' → Same c c' → Z.Ends Q c') :
    Z.Ends Q c := by
  have hroom := hz.room
  by_cases hd : c.regs d = 0
  · obtain ⟨h1, h2⟩ := hc.skip hz hi hv hd
    exact h1.ends (heq hd _ h2 (same_setPc ..))
  · have htarget : wadd (c.regs pc) (operand c (.imm t)) = base + (k + t) := by
      have ht : operand c (.imm t) = t := toWord_natCast (by omega)
      rw [ht, hc.counter, wadd_eq (by omega), Nat.add_assoc]
    obtain ⟨h1, h2⟩ := hc.jump hz hi hv hd htarget (by omega)
    exact h1.ends (hne hd _ h2 (same_setPc ..))

/-- **A return** -/
lemma At.leave (hc : Z.At (base + k) c) (hz : Z.Holds base prog) (hi : prog[k]? = some ret)
    (hlr : c.regs lr ≠ 0) : Z.Ends (fun c' => Z.At (c.regs lr) c' ∧ Same c c') c := by
  have hsr : c.regs sr ≠ 0 := fun hzero =>
    absurd (by rw [hzero]; exact Nat.zero_and _) hc.running
  have htarget : wadd (c.regs lr) (operand c (.imm 0)) = c.regs lr :=
    Nat.mod_eq_of_lt (hc.real.regs_lt lr)
  obtain ⟨h1, h2⟩ := hc.jump hz hi (by decide) hsr htarget hlr
  exact h1.ends ⟨_, .refl, h2, same_setPc ..⟩

/-- The routine at `q` returns `f` of the memory and its argument. It may use `n` words of the
stack. -/
def Serves (Z : Zone) (q n : ℕ) (f : Mem → ℕ → ℕ) : Prop :=
  ∀ c, Z.At q c → c.regs lr ≠ 0 → c.regs zr = 0 → (∀ i < n, frame (c.regs sp) i ∈ Z.free) →
    Z.Ends (fun c' => Z.At (c.regs lr) c' ∧ (∀ r, r ∉ [rr, pc] → c'.regs r = c.regs r) ∧
      c'.regs rr = f c'.mem (c.regs rr) ∧
      ∀ x, (∀ i < n, x ≠ frame (c.regs sp) i) → c'.mem x = c.mem x) c

/-- **The jump** of a call -/
lemma At.callb (hc : Z.At (base + k) c) (hz : Z.Holds base prog) (hi : callb q <+: prog.drop k)
    (hq : 0 < q ∧ q < 2 ^ 45) (hzr : c.regs zr = 0) :
    ∃ c', Z.Runs c c' ∧ Z.At q c' ∧ c'.regs lr = base + (k + 2) ∧
      (∀ r, r ∉ [lr, pc] → c'.regs r = c.regs r) ∧ c'.mem = c.mem := by
  have hroom := hz.room
  obtain ⟨u, hu⟩ := hi
  have hget₀ : prog[k]? = some (ads lr pc (.imm 2)) := by
    rw [← List.head?_drop, ← hu]
    rfl
  have hget₁ : prog[k + 1]? = some (jnc sr zr (.imm q)) := by
    rw [← List.getElem?_drop, ← hu]
    rfl
  have hk := (List.getElem?_eq_some_iff.mp hget₁).1
  -- the return address
  obtain ⟨h1, h2⟩ := hc.plain hz hget₀ (by decide) (by simp)
  have hline : line (base + k) (ads lr pc (.imm 2)) c = c.setReg lr (base + (k + 2)) := by
    rw [line_ads, rd, if_pos rfl, val, show toWord 2 = 2 from rfl, wadd_eq (by omega),
      Nat.add_assoc]
  rw [hline, Nat.add_assoc] at h1 h2
  generalize hc₁ : (c.setReg lr (base + (k + 2))).setReg pc (base + (k + 1)) = c₁ at h1 h2
  have hregs₁ (r : ℕ) (hr : r ∉ [lr, pc]) : c₁.regs r = c.regs r := by
    simp only [List.mem_cons, List.not_mem_nil, or_false, not_or] at hr
    simp [← hc₁, hr]
  have hlr₁ : c₁.regs lr = base + (k + 2) := by simp +decide [← hc₁]
  have hmem₁ : c₁.mem = c.mem := by rw [← hc₁]; rfl
  -- the jump
  have hzr₁ : c₁.regs zr = 0 := (hregs₁ zr (by decide)).trans hzr
  have hv : Instr.Valid (jnc sr zr (.imm q)) sr zr :=
    ⟨show 14 < instructions.length by decide, rfl, rfl, by decide, by decide, by
      change -2 ^ 45 < (q : ℤ) ∧ (q : ℤ) < 2 ^ 45
      omega⟩
  have hsr₁ : c₁.regs sr ≠ 0 := fun hzero =>
    absurd (by rw [hzero]; exact Nat.zero_and _) h2.running
  have htarget : wadd (c₁.regs zr) (operand c₁ (.imm q)) = q := by
    have hq' : operand c₁ (.imm q) = q := toWord_natCast (hq.2.trans (by decide))
    rw [hzr₁, hq', wadd_eq (by unfold wordMod; omega), Nat.zero_add]
  obtain ⟨h3, h4⟩ := h2.jump hz hget₁ hv hsr₁ htarget hq.1.ne'
  have hsame := same_setPc c₁ q
  refine ⟨_, .head h1 (.single h3), h4, (hsame.regs lr (by decide)).trans hlr₁, fun r hr => ?_,
    hsame.mem.trans hmem₁⟩
  have hpc : r ≠ pc := fun heq => hr (by simp [heq])
  rw [hsame.regs r hpc, hregs₁ r hr]

/-- **A call** -/
lemma At.call {f : Mem → ℕ → ℕ} (hc : Z.At (base + k) c) (hz : Z.Holds base prog)
    (hs : Z.Serves q n f) (hi : Routine.callb q <+: prog.drop k) (hq : 0 < q ∧ q < 2 ^ 45)
    (hzr : c.regs zr = 0) (hfree : ∀ i < n, frame (c.regs sp) i ∈ Z.free)
    (hQ : ∀ c', Z.At (base + (k + 2)) c' → (∀ r, r ∉ [rr, lr, pc] → c'.regs r = c.regs r) →
      c'.regs lr = base + (k + 2) → c'.regs rr = f c'.mem (c.regs rr) →
      (∀ x, (∀ i < n, x ≠ frame (c.regs sp) i) → c'.mem x = c.mem x) → Z.Ends Q c') :
    Z.Ends Q c := by
  obtain ⟨c₁, h1, h2, h3, h4, h5⟩ := hc.callb hz hi hq hzr
  have hsp : c₁.regs sp = c.regs sp := h4 sp (by decide)
  obtain ⟨c', hrun, h6, h7, h8, h9⟩ := hs c₁ h2 (by rw [h3]; omega)
    ((h4 zr (by decide)).trans hzr) (by rw [hsp]; exact hfree)
  rw [h3] at h6
  refine Runs.ends h1 (Runs.ends hrun (hQ c' h6 (fun r hr => ?_) ?_ ?_ fun x hx => ?_))
  · simp only [List.mem_cons, List.not_mem_nil, or_false, not_or] at hr
    rw [h7 r (by simp [hr]), h4 r (by simp [hr])]
  · rw [h7 lr (by decide), h3]
  · rw [h8, h4 rr (by decide)]
  · rw [h9 x (by rw [hsp]; exact hx), h5]

end Zone

/-- The routine `prog` at `base` is called in the state `c₀`, and saves `rs`. -/
structure Zone.Called (Z : Zone) (base : ℕ) (prog : List Instr) (c₀ : Cpu) (rs : List ℕ) :
    Prop where
  holds : Z.Holds base prog
  saves : Saves rs
  frame : ∀ i ≤ rs.length, frame (c₀.regs sp) i ∈ Z.free
  pool : bp ∈ rs

/-- The routine is at its word `k`. -/
structure Zone.Inside (Z : Zone) (base : ℕ) (c₀ : Cpu) (rs : List ℕ) (k : ℕ) (c : Cpu) :
    Prop where
  here : Z.At (base + k) c
  framed : Framed c₀ rs c
  pool : c.regs bp = base

namespace Zone

/-- **Instructions** in the body of a routine -/
lemma Inside.run (h : Z.Inside base c₀ rs k c) (hR : Z.Called base prog c₀ rs)
    (is : List Instr) (his : is <+: prog.drop k) (hp : ∀ i ∈ is, Plain i)
    (hd : ∀ r ∈ dests is, r ∈ rr :: rs ∧ r ≠ bp)
    (hw : ∀ x ∈ writes (base + k) is c, x ∈ Z.free ∧
      ∀ i ≤ rs.length, x ≠ Routine.frame (c₀.regs sp) i)
    (hQ : ∀ c', Z.Inside base c₀ rs (k + is.length) c' → Same (block (base + k) is c) c' →
      Z.Ends Q c') : Z.Ends Q c := by
  obtain ⟨h1, h2⟩ := h.here.blocks hR.holds his hp fun x hx => (hw x hx).1
  refine Runs.ends h1 (hQ _ ⟨Nat.add_assoc .. ▸ h2, ?_, ?_⟩ (same_setPc ..))
  · refine h.framed.mono hR.saves (fun r hr => ?_) fun i hi => ?_
    · have hne : r ≠ pc := fun heq => hr (by simp [heq])
      rw [setReg_regs, if_neg hne]
      refine block_regs hp fun hmem => hr ?_
      have := (hd r hmem).1
      simp only [List.mem_cons] at this ⊢
      tauto
    · rw [setReg_mem]
      exact block_mem hp fun hx => (hw _ hx).2 i hi rfl
  · rw [setReg_regs, if_neg (by decide), block_regs hp fun hmem => (hd bp hmem).2 rfl]
    exact h.pool

lemma Inside.same (h : Z.Inside base c₀ rs k c) (hR : Z.Called base prog c₀ rs)
    (h' : Z.At (base + n) c') (hs : Same c c') : Z.Inside base c₀ rs n c' := by
  refine ⟨h', h.framed.mono hR.saves (fun r hr => hs.regs r fun heq => hr (by simp [heq]))
    fun i hi => by rw [hs.mem], (hs.regs bp (by decide)).trans h.pool⟩

/-- **A branch** in the body of a routine, to a label or over some instructions -/
lemma Inside.branch (h : Z.Inside base c₀ rs k c) (hR : Z.Called base prog c₀ rs)
    (hi : prog[k]? = some (jnc d a (.imm t)))
    (hv : Instr.Valid (jnc d a (.imm t)) d a) (ha : a = bp ∧ n = t ∨ a = pc ∧ n = k + t)
    (hn : n < prog.length) (h0 : 0 < n)
    (hne : c.regs d ≠ 0 → ∀ c', Z.Inside base c₀ rs n c' → Same c c' → Z.Ends Q c')
    (heq : c.regs d = 0 → ∀ c', Z.Inside base c₀ rs (k + 1) c' → Same c c' → Z.Ends Q c') :
    Z.Ends Q c := by
  have hroom := hR.holds.room
  by_cases hd : c.regs d = 0
  · obtain ⟨h1, h2⟩ := h.here.skip hR.holds hi hv hd
    exact h1.ends (heq hd _ (h.same hR h2 (same_setPc ..)) (same_setPc ..))
  · have htarget : wadd (c.regs a) (operand c (.imm t)) = base + n := by
      have ht : operand c (.imm t) = t := toWord_natCast (by omega)
      rw [ht]
      rcases ha with ⟨rfl, rfl⟩ | ⟨rfl, rfl⟩
      · rw [h.pool, wadd_eq (by omega)]
      · rw [h.here.counter, wadd_eq (by omega), Nat.add_assoc]
    obtain ⟨h1, h2⟩ := h.here.jump hR.holds hi hv hd htarget (by omega)
    exact h1.ends (hne hd _ (h.same hR h2 (same_setPc ..)) (same_setPc ..))

/-- A jump that is always taken -/
lemma Inside.goto (h : Z.Inside base c₀ rs k c) (hR : Z.Called base prog c₀ rs)
    (hi : prog[k]? = some (jnc sr a (.imm t)))
    (hv : Instr.Valid (jnc sr a (.imm t)) sr a) (ha : a = bp ∧ n = t ∨ a = pc ∧ n = k + t)
    (hn : n < prog.length) (h0 : 0 < n)
    (hne : ∀ c', Z.Inside base c₀ rs n c' → Same c c' → Z.Ends Q c') : Z.Ends Q c := by
  refine h.branch hR hi hv ha hn h0 (fun _ => hne) fun hsr => ?_
  exact absurd (by rw [hsr]; exact Nat.zero_and _) h.here.running

/-- **The start** of a routine -/
lemma Called.enter (hR : Z.Called base prog c₀ rs) (h : Z.At base c₀)
    (his : opening rs <+: prog) (hp : ∀ i ∈ opening rs, Plain i)
    (hQ : ∀ c', Z.Inside base c₀ rs (rs.length + 4) c' →
      (∀ r, r ∉ [sp, fp, bp, pc] → c'.regs r = c₀.regs r) →
      (∀ x, (∀ i ≤ rs.length, x ≠ Routine.frame (c₀.regs sp) i) → c'.mem x = c₀.mem x) →
      Z.Ends Q c') : Z.Ends Q c₀ := by
  have hspec : Framed c₀ rs (block base (prologue rs) c₀) ∧ _ := prologue_spec hR.saves
  obtain ⟨h1, h2, h3, h4⟩ := hspec
  have hlen : (opening rs).length = rs.length + 4 := by simp [opening, prologue, storesFrom_length]
  have hroom := hR.holds.room
  have hle := his.length_le
  generalize hc₁ : block base (prologue rs) c₀ = c₁ at h1 h2 h3
  have hblock : block base (opening rs) c₀ = c₁.setReg bp base := by
    have hval : wadd (base + (prologue rs).length) (toWord (-(rs.length + 3))) = base := by
      simp only [prologue, List.length_append, storesFrom_length, List.length_cons, List.length_nil]
      unfold wadd toWord
      unfold wordMod at *
      omega
    rw [opening, block_append, hc₁, block, block, line_ads, rd, if_pos rfl, val, hval]
  have hwrites : writes base (opening rs) c₀ = writes base (prologue rs) c₀ := by
    rw [opening, writes_append]
    simp +decide [writes]
  have h' : Z.At (base + 0) c₀ := h
  obtain ⟨h5, h6⟩ := h'.blocks hR.holds (by simpa using his) hp fun x hx => by
    rw [Nat.add_zero, hwrites] at hx
    obtain ⟨i, hi, rfl⟩ := h4 x hx
    exact hR.frame i hi
  rw [Nat.add_zero, hblock, hlen] at h5 h6
  have hregs (r : ℕ) (hr : r ∉ [bp, pc]) :
      ((c₁.setReg bp base).setReg pc (base + (rs.length + 4))).regs r = c₁.regs r := by
    simp only [List.mem_cons, List.not_mem_nil, or_false, not_or] at hr
    simp [hr]
  refine Runs.ends h5 (hQ _ ⟨h6, ?_, ?_⟩ (fun r hr => ?_) fun x hx => h3 x hx)
  · refine h1.mono hR.saves (fun r hr => hregs r fun hmem => hr ?_) fun i _ => rfl
    simp only [List.mem_cons, List.not_mem_nil, or_false] at hmem ⊢
    rcases hmem with rfl | rfl
    · exact .inr (.inr hR.pool)
    · exact .inr (.inl rfl)
  · simp +decide
  · simp only [List.mem_cons, List.not_mem_nil, or_false, not_or] at hr
    rw [hregs r (by simp [hr]), h2 r (by simp [hr])]

/-- **The end** of a routine -/
lemma Inside.leave (h : Z.Inside base c₀ rs k c) (hR : Z.Called base prog c₀ rs)
    (hsp : c₀.regs sp < wordMod) (his : epilogue rs ++ [ret] <+: prog.drop k)
    (hp : ∀ i ∈ epilogue rs, Plain i) (hlr : c₀.regs lr ≠ 0) :
    Z.Ends (fun c' => Z.At (c₀.regs lr) c' ∧ (∀ r, r ∉ [rr, pc] → c'.regs r = c₀.regs r) ∧
      c'.regs rr = c.regs rr ∧ c'.mem = c.mem) c := by
  obtain ⟨h1, h2, h3, h4⟩ := epilogue_spec (p := base + k) h.framed hR.saves hsp
  obtain ⟨h5, h6⟩ := h.here.blocks hR.holds ((List.prefix_append _ _).trans his) hp fun x hx => by
    rw [h4] at hx
    exact absurd hx List.not_mem_nil
  generalize block (base + k) (epilogue rs) c = c₁ at h1 h2 h3 h5 h6
  have hget : prog[k + (epilogue rs).length]? = some ret := by
    obtain ⟨u, hu⟩ := his
    rw [← List.getElem?_drop, ← hu, List.append_assoc, List.getElem?_append_right le_rfl,
      Nat.sub_self]
    rfl
  rw [Nat.add_assoc] at h5 h6
  have hlr' : (c₁.setReg pc (base + (k + (epilogue rs).length))).regs lr = c₀.regs lr := by
    rw [setReg_regs, if_neg (by decide)]
    exact h1 lr (by decide)
  have hsame := same_setPc c₁ (base + (k + (epilogue rs).length))
  refine Runs.ends h5 ((h6.leave hR.holds hget (hlr' ▸ hlr)).imp fun c' ⟨h7, h8⟩ => ?_)
  rw [hlr'] at h7
  refine ⟨h7, fun r hr => ?_, ?_, h8.mem.trans h3⟩
  · have hpc : r ≠ pc := fun heq => hr (by simp [heq])
    rw [h8.regs r hpc, hsame.regs r hpc, h1 r hr]
  · rw [h8.regs rr (by decide), hsame.regs rr (by decide), h2]

/-- **A call** in the body of a routine -/
lemma Inside.call {f : Mem → ℕ → ℕ} (h : Z.Inside base c₀ rs k c)
    (hR : Z.Called base prog c₀ rs) (hs : Z.Serves q n f) (hi : callb q <+: prog.drop k)
    (hq : 0 < q ∧ q < 2 ^ 45) (hlr : lr ∈ rs) (hzr : c₀.regs zr = 0 ∧ zr ∉ rs) (hn : n < numRegs)
    (hfree : ∀ i < n, Routine.frame (c₀.regs sp) (rs.length + 1 + i) ∈ Z.free)
    (hQ : ∀ c', Z.Inside base c₀ rs (k + 2) c' →
      (∀ r, r ∉ [rr, lr, pc] → c'.regs r = c.regs r) → c'.regs rr = f c'.mem (c.regs rr) →
      (∀ x, (∀ i < n, x ≠ Routine.frame (c₀.regs sp) (rs.length + 1 + i)) →
        c'.mem x = c.mem x) → Z.Ends Q c') : Z.Ends Q c := by
  have hlen := hR.saves.length
  rw [show numRegs = 32 from rfl] at hlen hn
  have hframe (i : ℕ) : Routine.frame (c.regs sp) i =
      Routine.frame (c₀.regs sp) (rs.length + 1 + i) := by
    rw [h.framed.stack, Routine.frame, Routine.frame, Nat.add_assoc, addr_wadd_add]
    congr 1
    omega
  refine h.here.call hR.holds hs hi hq ?_ (fun i hi => by rw [hframe]; exact hfree i hi)
    fun c' h1 h2 _ h3 h4 => ?_
  · rw [h.framed.others zr (by simp +decide [hzr.2]), hzr.1]
  · simp only [hframe] at h4
    refine hQ c' ⟨h1, ?_, (h2 bp (by decide)).trans h.pool⟩ h2 h3 h4
    refine h.framed.mono hR.saves (fun r hr => h2 r fun hmem => hr ?_) fun i hi => ?_
    · simp only [List.mem_cons, List.not_mem_nil, or_false] at hmem ⊢
      rcases hmem with rfl | rfl | rfl
      · exact .inl rfl
      · exact .inr (.inr hlr)
      · exact .inr (.inl rfl)
    · refine h4 _ fun j hj heq => ?_
      have := frame_inj (by unfold addrSpace; omega) (by unfold addrSpace; omega) heq
      omega

end Zone

end LispMachine.Routine
