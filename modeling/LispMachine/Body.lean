import LispMachine.Routine

/-!
The body of a routine as it sees the machine.

A body works on registers of its own and on memory outside of the stack, and leaves the registers of
the frame alone. What it does is followed on a state in which neither the stack nor these registers
matter.
-/

namespace LispMachine.Body

open LispMachine.Memory LispMachine.Asm LispMachine.AsmRef LispMachine.MachineStep
open LispMachine.MachineRun LispMachine.Routine
open LispMachine.Machine hiding ldr str shf

/-- The registers of the frame and of the calls -/
def linkage : List ℕ := [lr, sp, fp, bp, pc]

/-- The word is not one of the `n` words of the stack above `s`. -/
def Clear (s n x : ℕ) : Prop := ∀ i < n, x ≠ frame s i

/-- The state `c` is `e`, but for the linkage and for `n` words of the stack above `s`. -/
structure Seen (s n : ℕ) (e c : Cpu) : Prop where
  regs : ∀ r ∉ linkage, c.regs r = e.regs r
  mem : ∀ x, Clear s n x → c.mem x = e.mem x

/-- The registers of an instruction -/
def named (i : Instr) : List ℕ :=
  i.regs ++ match i.last with
    | .reg r => [r]
    | _ => []

/-- The address that the instruction reads or writes -/
def touched (i : Instr) (e : Cpu) : List ℕ :=
  match i.op, i.regs with
  | 12, [_, a] | 13, [_, a] => [addr (rd 0 e a + val 0 e i.last)]
  | _, _ => []

/-- The addresses that are read or written -/
def touches : List Instr → Cpu → List ℕ
  | [], _ => []
  | i :: is, e => touched i e ++ touches is (line 0 i e)

/-- What the instructions do, whatever the program counter is -/
def effect : List Instr → Cpu → Cpu
  | [], e => e
  | i :: is, e => effect is (line 0 i e)

/-- The addresses that are written -/
def stores : List Instr → Cpu → List ℕ
  | [], _ => []
  | i :: is, e => written 0 i e ++ stores is (line 0 i e)

variable {Z : Zone} {c c' c₀ e e' : Cpu} {i : Instr} {is prog : List Instr} {rs : List ℕ}
variable {a base d k k' n p q r s t v x : ℕ} {Q : Cpu → Prop}

@[simp] lemma touched_ldr (d a : ℕ) (o : Operand) (e : Cpu) :
    touched (ldr d a o) e = [addr (rd 0 e a + val 0 e o)] := rfl

@[simp] lemma touched_str (d a : ℕ) (o : Operand) (e : Cpu) :
    touched (str d a o) e = [addr (rd 0 e a + val 0 e o)] := rfl

@[simp] lemma touched_of_ne {op : ℕ} (h : op ≠ 12 ∧ op ≠ 13) (d a : ℕ) (o : Operand) (e : Cpu) :
    touched ⟨op, [d, a], o⟩ e = [] := by
  unfold touched
  split
  · exact absurd (by assumption) h.1
  · exact absurd (by assumption) h.2
  · rfl

lemma Seen.rd (h : Seen s n e c) (hr : r ∉ linkage) : rd p c r = rd 0 e r := by
  have hpc : r ≠ pc := fun heq => hr (by simp [heq, linkage])
  rw [MachineRun.rd, MachineRun.rd, if_neg hpc, if_neg hpc, h.regs r hr]

lemma Seen.val (h : Seen s n e c) {o : Operand} (hr : ∀ r, o = .reg r → r ∉ linkage) :
    val p c o = val 0 e o := by
  cases o with
  | imm v => rfl
  | reg r => exact h.rd (hr r rfl)
  | label t => rfl

lemma Seen.setReg (h : Seen s n e c) (r v : ℕ) : Seen s n (e.setReg r v) (c.setReg r v) := by
  refine ⟨fun q hq => ?_, h.mem⟩
  rw [setReg_regs, setReg_regs, h.regs q hq]

/-- **One instruction** on registers of the body -/
lemma Seen.line (h : Seen s n e c) (hi : Plain i) (hn : ∀ r ∈ named i, r ∉ linkage)
    (ha : ∀ x ∈ touched i e, Clear s n x) :
    Seen s n (line 0 i e) (line p i c) ∧ written p i c = written 0 i e ∧
      ∀ x ∈ written 0 i e, x ∈ touched i e := by
  obtain ⟨d, a, hv, hcases⟩ := hi.cases
  obtain ⟨op, regs, last⟩ := i
  obtain rfl : regs = [d, a] := hv.regs
  have hd : MachineRun.rd p c d = MachineRun.rd 0 e d := h.rd (hn d (by simp [named]))
  have ha' : MachineRun.rd p c a = MachineRun.rd 0 e a := h.rd (hn a (by simp [named]))
  have ho : MachineRun.val p c last = MachineRun.val 0 e last :=
    h.val fun r hr => hn r (by simp [named, hr])
  rcases hcases with ⟨hop, -, -, hl⟩ | ⟨hop, hl⟩ | ⟨-, -, -, hl⟩
  · obtain rfl : op = 12 := hop
    have htouch : touched ⟨12, [d, a], last⟩ e =
      [addr (MachineRun.rd 0 e a + MachineRun.val 0 e last)] := rfl
    rw [(hl p c).1, (hl p c).2, (hl 0 e).1, (hl 0 e).2, ha', ho]
    rw [htouch] at ha
    rw [h.mem _ (ha _ (List.mem_singleton_self _))]
    exact ⟨h.setReg .., rfl, by simp⟩
  · obtain rfl : op = 13 := hop
    have htouch : touched ⟨13, [d, a], last⟩ e =
      [addr (MachineRun.rd 0 e a + MachineRun.val 0 e last)] := rfl
    rw [(hl p c).1, (hl p c).2, (hl 0 e).1, (hl 0 e).2, ha', ho, hd, htouch]
    refine ⟨⟨h.regs, fun x hx => ?_⟩, rfl, fun x hx => hx⟩
    change c.mem.set _ _ x = e.mem.set _ _ x
    rw [set_apply, set_apply, h.mem x hx]
  · obtain ⟨h1, v, h2, h3⟩ := hl p c
    obtain ⟨h1', v', h2', h3'⟩ := hl 0 e
    rw [ha', ho, h2'] at h2
    cases h2
    rw [h1, h1', h3, h3']
    exact ⟨h.setReg .., rfl, by simp⟩

/-- Instructions that the body of a routine which saves `rs` may contain -/
def Bodily (rs : List ℕ) (is : List Instr) : Prop :=
  ∀ i ∈ is, Plain i ∧ (∀ r ∈ named i, r ∉ linkage) ∧ (i.op ≠ 13 → i.regs.getD 0 0 ∈ rr :: rs)

instance (rs : List ℕ) : DecidablePred (Bodily rs) := fun is => by
  unfold Bodily
  infer_instance

/-- **Instructions** on registers of the body -/
lemma Seen.block (h : Seen s n e c) (hi : Bodily rs is)
    (ha : ∀ x ∈ touches is e, Clear s n x) :
    Seen s n (effect is e) (block p is c) ∧ writes p is c = stores is e ∧
      ∀ x ∈ stores is e, x ∈ touches is e := by
  induction is generalizing p c e with
  | nil => exact ⟨h, rfl, fun x hx => hx⟩
  | cons i is ih =>
    obtain ⟨h1, h2, -⟩ := hi i (by simp)
    rw [touches] at ha
    obtain ⟨h3, h4, h5⟩ := h.line (p := p) h1 h2 fun x hx => ha x (List.mem_append_left _ hx)
    obtain ⟨h6, h7, h8⟩ := ih (p := p + 1) h3 (fun i hi' => hi i (by simp [hi']))
      fun x hx => ha x (List.mem_append_right _ hx)
    rw [MachineRun.block, writes, stores, touches, effect, h4, h7]
    refine ⟨h6, rfl, fun x hx => ?_⟩
    rw [List.mem_append] at hx ⊢
    exact hx.imp (h5 x) (h8 x)

lemma Bodily.dests (hi : Bodily rs is) : ∀ r ∈ dests is, r ∈ rr :: rs ∧ r ≠ bp := by
  intro r hr
  obtain ⟨i, him, hr'⟩ := List.mem_filterMap.mp hr
  obtain ⟨h1, h2, h3⟩ := hi i him
  split_ifs at hr' with hop
  obtain rfl : i.regs.getD 0 0 = r := by simpa using hr'
  refine ⟨h3 hop, fun heq => h2 bp ?_ (by decide)⟩
  have hv := h1.valid.regs
  rw [← heq, named, hv]
  simp

/-- **The body** of a routine at its word `k`, as it sees the state `c` -/
structure At (Z : Zone) (base : ℕ) (c₀ : Cpu) (rs : List ℕ) (n k : ℕ) (e c : Cpu) : Prop where
  inside : Z.Inside base c₀ rs k c
  seen : Seen (c₀.regs sp) n e c

lemma Seen.same (h : Seen s n e c) (hs : Same c c') : Seen s n e c' := by
  refine ⟨fun r hr => ?_, fun x hx => by rw [hs.mem, h.mem x hx]⟩
  rw [hs.regs r fun heq => hr (by simp [heq, linkage]), h.regs r hr]

lemma At.regs_lt (h : At Z base c₀ rs n k e c) (hr : r ∉ linkage) : e.regs r < wordMod :=
  h.seen.regs r hr ▸ h.inside.here.real.regs_lt r

/-- **Instructions** without jumps -/
lemma At.run (h : At Z base c₀ rs n k e c) (hR : Z.Called base prog c₀ rs) (hn : rs.length < n)
    (k' : ℕ) (is : List Instr) (e' : Cpu) (his : is <+: prog.drop k) (hi : Bodily rs is)
    (hk : k + is.length = k') (he : effect is e = e') (hw : ∀ x ∈ stores is e, x ∈ Z.free)
    (ha : ∀ x ∈ touches is e, Clear (c₀.regs sp) n x)
    (hQ : ∀ c', At Z base c₀ rs n k' e' c' → Z.Ends Q c') : Z.Ends Q c := by
  subst hk he
  obtain ⟨h1, h2, h3⟩ := h.seen.block (p := base + k) hi ha
  refine h.inside.run hR is his (fun i him => (hi i him).1) hi.dests (fun x hx => ?_)
    fun c' h4 h5 => hQ c' ⟨h4, h1.same h5⟩
  rw [h2] at hx
  exact ⟨hw x hx, fun i hi' => ha x (h3 x hx) i (by omega)⟩

/-- **A division** of registers of the body -/
lemma At.divide {b : ℕ} (h : At Z base c₀ rs n k e c) (hR : Z.Called base prog c₀ rs) (d a : ℕ)
    (hi : prog[k]? = some (Routine.dvu d a (.reg b)))
    (hv : Instr.Valid (Routine.dvu d a (.reg b)) d a) (hd : d ∈ rs ∧ d ∉ linkage)
    (ha : a ∉ rr :: linkage) (hb : b ∉ rr :: linkage) (h0 : e.regs b ≠ 0)
    (hQ : ∀ c', At Z base c₀ rs n (k + 1) ((e.setReg rr (e.regs a % e.regs b)).setReg d
      (e.regs a / e.regs b)) c' → Z.Ends Q c') : Z.Ends Q c := by
  rw [List.mem_cons, not_or] at ha hb
  have hroom := hR.holds.room
  have hk := (List.getElem?_eq_some_iff.mp hi).1
  have hpc : pc ≠ d ∧ sr ≠ d :=
    ⟨fun heq => hR.saves.ne (r := pc) (by simp) (heq ▸ hd.1),
      fun heq => hR.saves.ne (r := sr) (by simp) (heq ▸ hd.1)⟩
  have hstep := step_dvu (c := c) ⟨hR.holds.word h.inside.here hi, hv, h.inside.here.running⟩ rfl
    ha.1 (by simpa using hb.1) (by rw [MachineRun.operand, h.seen.regs b hb.2]; exact h0)
  rw [MachineRun.operand, h.seen.regs a ha.2, h.seen.regs b hb.2] at hstep
  have hnext : ((c.setReg rr (e.regs a % e.regs b)).setReg d (e.regs a / e.regs b)).next =
      ((c.setReg rr (e.regs a % e.regs b)).setReg d (e.regs a / e.regs b)).setReg pc
        (base + (k + 1)) := by
    rw [Cpu.next, setReg_regs, if_neg hpc.1, setReg_regs, if_neg (by decide),
      h.inside.here.counter, wadd_eq (by omega), Nat.add_assoc]
  rw [hnext] at hstep
  have hsame := same_setPc ((c.setReg rr (e.regs a % e.regs b)).setReg d (e.regs a / e.regs b))
    (base + (k + 1))
  refine Zone.Step.ends ⟨h.inside.here.real, h.inside.here.counter ▸ hR.holds.inside k hk, hstep,
    h.inside.here.kept⟩ (hQ _ ⟨⟨⟨h.inside.here.real.step hstep, ?_, ?_, h.inside.here.kept⟩,
      h.inside.framed.mono hR.saves (fun r hr => ?_) (fun _ _ => rfl), ?_⟩,
      ((h.seen.setReg rr _).setReg d _).same hsame⟩)
  · simp
  · rw [hsame.regs sr (by decide), setReg_regs, if_neg hpc.2, setReg_regs, if_neg (by decide)]
    exact h.inside.here.running
  · simp only [List.mem_cons, not_or] at hr
    have hrd : r ≠ d := fun heq => hr.2.2 (heq ▸ hd.1)
    rw [hsame.regs r hr.2.1, setReg_regs, if_neg hrd, setReg_regs, if_neg hr.1]
  · have hbp : bp ≠ d := fun heq => hd.2 (heq ▸ by decide)
    rw [hsame.regs bp (by decide), setReg_regs, if_neg hbp, setReg_regs, if_neg (by decide)]
    exact h.inside.pool

/-- **A branch** -/
lemma At.branch (h : At Z base c₀ rs n k e c) (hR : Z.Called base prog c₀ rs) (k' d a t : ℕ)
    (hi : prog[k]? = some (jnc d a (.imm t))) (hv : Instr.Valid (jnc d a (.imm t)) d a)
    (hd : d ∉ linkage) (ha : a = bp ∧ k' = t ∨ a = pc ∧ k' = k + t) (hk : k' < prog.length)
    (h0 : 0 < k') (hne : e.regs d ≠ 0 → ∀ c', At Z base c₀ rs n k' e c' → Z.Ends Q c')
    (heq : e.regs d = 0 → ∀ c', At Z base c₀ rs n (k + 1) e c' → Z.Ends Q c') :
    Z.Ends Q c := by
  have hreg := h.seen.regs d hd
  refine h.inside.branch hR hi hv ha hk h0 (fun hd' c' h1 h2 => ?_) fun hd' c' h1 h2 => ?_
  · exact hne (hreg ▸ hd') c' ⟨h1, h.seen.same h2⟩
  · exact heq (hreg ▸ hd') c' ⟨h1, h.seen.same h2⟩

/-- **A store** of what is there already -/
lemma At.idle (h : At Z base c₀ rs n k e c) (hR : Z.Called base prog c₀ rs) (d a : ℕ) (t : ℤ)
    (hi : prog[k]? = some (str d a (.imm t))) (hp : Plain (str d a (.imm t)))
    (hd : d ∉ linkage ∧ a ∉ linkage)
    (hx : Clear (c₀.regs sp) n (addr (e.regs a + toWord t)))
    (he : e.mem (addr (e.regs a + toWord t)) = e.regs d)
    (hQ : ∀ c', At Z base c₀ rs n (k + 1) e c' → Z.Ends Q c') : Z.Ends Q c := by
  have hroom := hR.holds.room
  have hk := (List.getElem?_eq_some_iff.mp hi).1
  have hpc (r : ℕ) (hr : r ∉ linkage) : MachineRun.rd (base + k) c r = e.regs r := by
    rw [MachineRun.rd, if_neg fun heq => hr (by simp [heq, linkage]), h.seen.regs r hr]
  have hline : MachineRun.line (base + k) (str d a (.imm t)) c = c := by
    rw [line_str, hpc d hd.1, hpc a hd.2, MachineRun.val, ← he, ← h.seen.mem _ hx]
    refine congrArg (Cpu.mk c.regs) (funext fun x => ?_)
    rw [set_apply]
    split_ifs with heq
    · rw [heq]
    · rfl
  have hword := hR.holds.word h.inside.here hi
  rw [h.inside.here.counter] at hword
  obtain ⟨h1, -⟩ := hp.step hword h.inside.here.running h.inside.here.counter (by omega)
  rw [hline] at h1
  have hsame := same_setPc c (base + k + 1)
  have hkept : ∀ x ∉ Z.free, (c.setReg pc (base + k + 1)).mem x = Z.mem x := h.inside.here.kept
  refine Zone.Step.ends ⟨h.inside.here.real, h.inside.here.counter ▸ hR.holds.inside k hk, h1,
    hkept⟩ (hQ _ ⟨h.inside.same hR ⟨h.inside.here.real.step h1, ?_, ?_, hkept⟩ hsame,
      h.seen.same hsame⟩)
  · rw [setReg_regs, if_pos rfl, Nat.add_assoc]
  · rw [setReg_regs, if_neg (by decide)]
    exact h.inside.here.running

/-- **A store** to a word that may not change -/
lemma At.stuck (h : At Z base c₀ rs n k e c) (hR : Z.Called base prog c₀ rs) (d a : ℕ) (t : ℤ)
    (hi : prog[k]? = some (str d a (.imm t))) (hp : Plain (str d a (.imm t)))
    (hd : d ∉ linkage ∧ a ∉ linkage)
    (hx : Clear (c₀.regs sp) n (addr (e.regs a + toWord t)))
    (hfree : addr (e.regs a + toWord t) ∉ Z.free)
    (he : e.mem (addr (e.regs a + toWord t)) ≠ e.regs d) : ¬ Z.Step c c' := by
  have hpc (r : ℕ) (hr : r ∉ linkage) : MachineRun.rd (base + k) c r = e.regs r := by
    rw [MachineRun.rd, if_neg fun heq => hr (by simp [heq, linkage]), h.seen.regs r hr]
  refine h.inside.here.stuck hR.holds hi hp hfree ?_
  rw [line_str, hpc d hd.1, hpc a hd.2, MachineRun.val, ← h.inside.here.kept _ hfree,
    h.seen.mem _ hx]
  change Mem.set _ _ _ _ ≠ _
  rw [set_self]
  exact Ne.symm he

/-- **A jump** that is always taken -/
lemma At.goto (h : At Z base c₀ rs n k e c) (hR : Z.Called base prog c₀ rs) (k' a t : ℕ)
    (hi : prog[k]? = some (jnc sr a (.imm t))) (hv : Instr.Valid (jnc sr a (.imm t)) sr a)
    (ha : a = bp ∧ k' = t ∨ a = pc ∧ k' = k + t) (hk : k' < prog.length) (h0 : 0 < k')
    (hQ : ∀ c', At Z base c₀ rs n k' e c' → Z.Ends Q c') : Z.Ends Q c :=
  h.inside.goto hR hi hv ha hk h0 fun c' h1 h2 => hQ c' ⟨h1, h.seen.same h2⟩

/-- **A call** of a routine whose result depends only on memory outside of the stack -/
lemma At.call {f : Mem → ℕ → ℕ} {m : ℕ} (h : At Z base c₀ rs n k e c)
    (hR : Z.Called base prog c₀ rs) (k' : ℕ) (hs : Z.Serves q m f) (hi : callb q <+: prog.drop k)
    (hq : 0 < q ∧ q < 2 ^ 45) (hlr : lr ∈ rs) (hzr : c₀.regs zr = 0 ∧ zr ∉ rs)
    (hn : rs.length + 1 + m ≤ n ∧ n ≤ numRegs) (hk : k + 2 = k')
    (hfree : ∀ i < n, frame (c₀.regs sp) i ∈ Z.free)
    (hf : ∀ m : Mem, (∀ x, Clear (c₀.regs sp) n x → m x = e.mem x) → f m (e.regs rr) = v)
    (hQ : ∀ c', At Z base c₀ rs n k' (e.setReg rr v) c' → Z.Ends Q c') : Z.Ends Q c := by
  subst hk
  obtain ⟨hn, hn'⟩ := hn
  refine h.inside.call hR hs hi hq hlr hzr (by omega) (fun i hi => hfree _ (by omega))
    fun c' h1 h2 h3 h4 => hQ c' ⟨h1, ?_, ?_⟩
  all_goals
    have hmem : ∀ x, Clear (c₀.regs sp) n x → c'.mem x = e.mem x := fun x hx =>
      (h4 x fun i hi => hx _ (by omega)).trans (h.seen.mem x hx)
  · intro r hr
    rw [setReg_regs]
    split_ifs with heq
    · rw [heq, h3, h.seen.regs rr (by decide), hf _ hmem]
    · rw [h2 r fun hmem => hr ?_, h.seen.regs r hr]
      simp only [List.mem_cons, List.not_mem_nil, or_false] at hmem
      rcases hmem with rfl | rfl | rfl
      · exact absurd rfl heq
      · decide
      · decide
  · exact hmem

/-! ### The registers of a body -/

/-- The registers that a body works with; the others are as in `ρ`. -/
def file (ρ : ℕ → ℕ) (m : Mem) (r a b c d e f : ℕ) : Cpu :=
  ⟨fun x => if x = rr then r else if x = 1 then a else if x = 2 then b else if x = 3 then c
    else if x = 4 then d else if x = 5 then e else if x = 6 then f else ρ x, m⟩

section

variable (ρ : ℕ → ℕ) (m m' : Mem) (r a b c d e f x : ℕ)

lemma file_regs : (file ρ m r a b c d e f).regs x =
    if x = rr then r else if x = 1 then a else if x = 2 then b else if x = 3 then c
    else if x = 4 then d else if x = 5 then e else if x = 6 then f else ρ x := rfl

@[simp] lemma file_rr : (file ρ m r a b c d e f).regs rr = r := rfl
@[simp] lemma file_zero : (file ρ m r a b c d e f).regs 0 = ρ 0 := rfl
@[simp] lemma file_one : (file ρ m r a b c d e f).regs 1 = a := rfl
@[simp] lemma file_two : (file ρ m r a b c d e f).regs 2 = b := rfl
@[simp] lemma file_three : (file ρ m r a b c d e f).regs 3 = c := rfl
@[simp] lemma file_four : (file ρ m r a b c d e f).regs 4 = d := rfl
@[simp] lemma file_five : (file ρ m r a b c d e f).regs 5 = e := rfl
@[simp] lemma file_six : (file ρ m r a b c d e f).regs 6 = f := rfl
@[simp] lemma file_mem : (file ρ m r a b c d e f).mem = m := rfl

@[simp] lemma file_mk :
    (⟨(file ρ m r a b c d e f).regs, m'⟩ : Cpu) = file ρ m' r a b c d e f := rfl

variable {ρ m r a b c d e f x}

@[simp] lemma rd_file_rr : rd 0 (file ρ m r a b c d e f) rr = r := rfl
@[simp] lemma rd_file_zr : rd 0 (file ρ m r a b c d e f) zr = ρ 0 := rfl
@[simp] lemma rd_file_one : rd 0 (file ρ m r a b c d e f) 1 = a := rfl
@[simp] lemma rd_file_two : rd 0 (file ρ m r a b c d e f) 2 = b := rfl
@[simp] lemma rd_file_three : rd 0 (file ρ m r a b c d e f) 3 = c := rfl
@[simp] lemma rd_file_four : rd 0 (file ρ m r a b c d e f) 4 = d := rfl
@[simp] lemma rd_file_five : rd 0 (file ρ m r a b c d e f) 5 = e := rfl
@[simp] lemma rd_file_six : rd 0 (file ρ m r a b c d e f) 6 = f := rfl

lemma file_ext {c' : Cpu} (h : ∀ y, c'.regs y = (file ρ m r a b c d e f).regs y)
    (hm : c'.mem = m) : c' = file ρ m r a b c d e f := by
  obtain ⟨regs, mem⟩ := c'
  obtain rfl : regs = (file ρ m r a b c d e f).regs := funext h
  obtain rfl : mem = m := hm
  rfl

lemma file_self (c : Cpu) : c = file c.regs c.mem (c.regs rr) (c.regs 1) (c.regs 2) (c.regs 3)
    (c.regs 4) (c.regs 5) (c.regs 6) := by
  refine file_ext (fun y => ?_) rfl
  rw [file_regs]
  split_ifs with h0 h1 h2 h3 h4 h5 h6
  all_goals subst_vars; rfl

@[simp] lemma file_setReg_rr :
    (file ρ m r a b c d e f).setReg rr x = file ρ m x a b c d e f := by
  refine file_ext (fun y => ?_) rfl
  rw [setReg_regs, file_regs, file_regs]
  split_ifs <;> rfl

@[simp] lemma file_setReg_one :
    (file ρ m r a b c d e f).setReg 1 x = file ρ m r x b c d e f := by
  refine file_ext (fun y => ?_) rfl
  rw [setReg_regs, file_regs, file_regs]
  by_cases h : y = 1
  · subst h
    rfl
  · simp only [h, if_false]

@[simp] lemma file_setReg_two :
    (file ρ m r a b c d e f).setReg 2 x = file ρ m r a x c d e f := by
  refine file_ext (fun y => ?_) rfl
  rw [setReg_regs, file_regs, file_regs]
  by_cases h : y = 2
  · subst h
    rfl
  · simp only [h, if_false]

@[simp] lemma file_setReg_three :
    (file ρ m r a b c d e f).setReg 3 x = file ρ m r a b x d e f := by
  refine file_ext (fun y => ?_) rfl
  rw [setReg_regs, file_regs, file_regs]
  by_cases h : y = 3
  · subst h
    rfl
  · simp only [h, if_false]

@[simp] lemma file_setReg_four :
    (file ρ m r a b c d e f).setReg 4 x = file ρ m r a b c x e f := by
  refine file_ext (fun y => ?_) rfl
  rw [setReg_regs, file_regs, file_regs]
  by_cases h : y = 4
  · subst h
    rfl
  · simp only [h, if_false]

@[simp] lemma file_setReg_five :
    (file ρ m r a b c d e f).setReg 5 x = file ρ m r a b c d x f := by
  refine file_ext (fun y => ?_) rfl
  rw [setReg_regs, file_regs, file_regs]
  by_cases h : y = 5
  · subst h
    rfl
  · simp only [h, if_false]

@[simp] lemma file_setReg_six :
    (file ρ m r a b c d e f).setReg 6 x = file ρ m r a b c d e x := by
  refine file_ext (fun y => ?_) rfl
  rw [setReg_regs, file_regs, file_regs]
  by_cases h : y = 6
  · subst h
    rfl
  · simp only [h, if_false]

end

/-! ### Start and end -/

/-- **The start** of a routine -/
lemma start (hR : Z.Called base prog c₀ rs) (h : Z.At base c₀) (his : opening rs <+: prog)
    (hp : ∀ i ∈ opening rs, Plain i) (hn : rs.length < n) (k : ℕ) (hk : rs.length + 4 = k)
    (hQ : ∀ c', At Z base c₀ rs n k (file c₀.regs c₀.mem (c₀.regs rr) (c₀.regs 1) (c₀.regs 2)
      (c₀.regs 3) (c₀.regs 4) (c₀.regs 5) (c₀.regs 6)) c' → Z.Ends Q c') : Z.Ends Q c₀ := by
  subst hk
  rw [← file_self] at hQ
  refine hR.enter h his hp fun c' h1 h2 h3 => hQ c' ⟨h1, fun r hr => h2 r fun hmem => hr ?_,
    fun x hx => h3 x fun i hi => hx i (by omega)⟩
  simp only [List.mem_cons, List.not_mem_nil, or_false] at hmem
  rcases hmem with rfl | rfl | rfl | rfl <;> decide

/-- The routine that was called in the state `c₀` has returned `v`, and left the memory `m` but for
the stack. -/
structure Returned (Z : Zone) (c₀ : Cpu) (n v : ℕ) (m : Mem) (c' : Cpu) : Prop where
  here : Z.At (c₀.regs lr) c'
  regs : ∀ r, r ∉ [rr, pc] → c'.regs r = c₀.regs r
  result : c'.regs rr = v
  mem : ∀ x, Clear (c₀.regs sp) n x → c'.mem x = m x

/-- **The end** of a routine -/
lemma At.leave (h : At Z base c₀ rs n k e c) (hR : Z.Called base prog c₀ rs)
    (hsp : c₀.regs sp < wordMod) (his : epilogue rs ++ [ret] <+: prog.drop k)
    (hp : ∀ i ∈ epilogue rs, Plain i) (hlr : c₀.regs lr ≠ 0) :
    Z.Ends (Returned Z c₀ n (e.regs rr) e.mem) c := by
  refine (h.inside.leave hR hsp his hp hlr).imp fun c' ⟨h1, h2, h3, h4⟩ => ⟨h1, h2, ?_, ?_⟩
  · rw [h3, h.seen.regs rr (by decide)]
  · intro x hx
    rw [h4, h.seen.mem x hx]

end LispMachine.Body
