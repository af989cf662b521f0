import LispMachine.Kernel

/-!
What the small routines of `kernel` return.

Each of them returns to its caller with all registers but `rr` as they were; only `balance_factor`
writes a word, the one above the stack.
-/

namespace LispMachine.KernelCalls

open LispMachine.Memory LispMachine.Asm LispMachine.AsmRef LispMachine.MachineStep
open LispMachine.MachineRun LispMachine.Routine LispMachine.Kernel
open LispMachine.Machine hiding ldr str shf

/-- The parent of a node, as a word address -/
def parentAt (m : Mem) (x : ℕ) : ℕ := if x = 0 then 0 else m (addr x) / 8

/-- The tag of a node, that of a balance of zero for none -/
def tagAt (m : Mem) (x : ℕ) : ℕ := if x = 0 then 3 else m (addr x) &&& 3

/-- The balance of a node as a word -/
def balanceAt (m : Mem) (x : ℕ) : ℕ :=
  if x = 0 then 0 else if wsub (tagAt m x) 1 = 0 then 1 else wsub (wsub (tagAt m x) 1) 2

/-- The tag of a balance -/
def tagOf (_ : Mem) (x : ℕ) : ℕ := if x = 0 then 3 else if wadd x 1 = 0 then 2 else 1

variable {Z : Zone} {c c' c₁ : Cpu} {q : ℕ} {K : Name → ℕ}

variable {f : Mem → ℕ → ℕ} {prog is : List Instr} {k n x : ℕ}

/-- **The return** of a routine that has changed only `rr` and the word above the stack -/
lemma serve (h : Z.At (q + k) c') (hz : Z.Holds q prog) (hi : prog[k]? = some ret)
    (hlr : c.regs lr ≠ 0) (hr : ∀ r, r ∉ [rr, pc] → c'.regs r = c.regs r)
    (hrr : c'.regs rr = f c'.mem (c.regs rr))
    (hm : ∀ x, (∀ i < n, x ≠ frame (c.regs sp) i) → c'.mem x = c.mem x) :
    Z.Ends (fun c' => Z.At (c.regs lr) c' ∧ (∀ r, r ∉ [rr, pc] → c'.regs r = c.regs r) ∧
      c'.regs rr = f c'.mem (c.regs rr) ∧
      ∀ x, (∀ i < n, x ≠ frame (c.regs sp) i) → c'.mem x = c.mem x) c' := by
  have hlr' := hr lr (by decide)
  refine (h.leave hz hi (hlr' ▸ hlr)).imp fun c₁ ⟨h₁, s₁⟩ => ?_
  refine ⟨hlr' ▸ h₁, fun r hr' => ?_, ?_, fun x hx => by rw [s₁.mem, hm x hx]⟩
  · have hpc : r ≠ pc := fun heq => hr' (by simp [heq])
    rw [s₁.regs r hpc, hr r hr']
  · rw [s₁.regs rr (by decide), s₁.mem, hrr]

/-- Instructions that compute a value in `rr` -/
lemma computes (s : Same c c₁) (s' : Same (block k is c₁) c')
    (hb : block k is c₁ = c₁.setReg rr x) :
    (∀ r, r ∉ [rr, pc] → c'.regs r = c.regs r) ∧ c'.regs rr = x ∧ c'.mem = c.mem := by
  rw [hb] at s'
  refine ⟨fun r hr => ?_, ?_, s'.mem.trans s.mem⟩
  · simp only [List.mem_cons, List.not_mem_nil, or_false, not_or] at hr
    rw [s'.regs r hr.2, setReg_regs, if_neg hr.1, s.regs r hr.2]
  · rw [s'.regs rr (by decide), setReg_regs, if_pos rfl]

lemma toWord_small : toWord 0 = 0 ∧ toWord 1 = 1 ∧ toWord 2 = 2 ∧ toWord 3 = 3 := by decide

lemma getParent_serves (hz : Z.Holds q getParent) : Z.Serves q 0 parentAt := by
  intro c hc hlr hzr hframe
  refine Zone.At.branch (k := 0) hc hz rfl (by decide) (by decide) (by decide)
    (fun hne c₁ h₁ s₁ => ?_) fun heq c₁ h₁ s₁ => ?_
  · refine h₁.run hz [ldr rr rr (.imm 0), shf rr rr 3] ⟨_, rfl⟩ (by decide) (by simp [writes])
      fun c₂ h₂ s₂ => ?_
    obtain ⟨h3, h4, h5⟩ := computes (x := c.mem (addr (c.regs rr)) / 8) s₁ s₂ (by
      simp +decide [block, line_shf, rd, val, toWord_small, setReg_setReg, shifted, s₁.mem, s₁.regs])
    refine serve h₂ hz rfl hlr h3 ?_ fun x _ => by rw [h5]
    rw [h4, h5, parentAt, if_neg hne]
  · refine serve h₁ hz rfl hlr (fun r hr => s₁.regs r ?_) ?_ fun x _ => by rw [s₁.mem]
    · exact fun h => hr (by simp [h])
    · rw [s₁.regs rr (by decide), parentAt, if_pos heq, heq]

lemma getBalanceFactor_serves (hz : Z.Holds q getBalanceFactor) : Z.Serves q 0 tagAt := by
  intro c hc hlr hzr hframe
  refine Zone.At.branch (k := 0) hc hz rfl (by decide) (by decide) (by decide)
    (fun hne c₁ h₁ s₁ => ?_) fun heq c₁ h₁ s₁ => ?_
  · refine h₁.run hz [ldr rr rr (.imm 0), and rr rr (.imm 3)] ⟨_, rfl⟩ (by decide)
      (by simp [writes]) fun c₂ h₂ s₂ => ?_
    obtain ⟨h3, h4, h5⟩ := computes (x := c.mem (addr (c.regs rr)) &&& 3) s₁ s₂ (by
      simp +decide [block, rd, val, toWord_small, setReg_setReg, s₁.mem, s₁.regs])
    refine serve h₂ hz rfl hlr h3 ?_ fun x _ => by rw [h5]
    rw [h4, h5, tagAt, if_neg hne]
  · refine h₁.run hz [ads rr rr (.imm 3)] ⟨_, rfl⟩ (by decide) (by simp [writes])
      fun c₂ h₂ s₂ => ?_
    obtain ⟨h3, h4, h5⟩ := computes (x := 3) s₁ s₂ (by
      simp +decide [block, rd, val, toWord_small, s₁.regs, heq, wadd_eq])
    refine serve h₂ hz rfl hlr h3 ?_ fun x _ => by rw [h5]
    rw [h4, tagAt, if_pos heq]

lemma revBalanceFactor_serves (hz : Z.Holds q revBalanceFactor) : Z.Serves q 0 tagOf := by
  intro c hc hlr hzr hframe
  refine Zone.At.branch (k := 0) hc hz rfl (by decide) (by decide) (by decide)
    (fun hne c₁ h₁ s₁ => ?_) fun heq c₁ h₁ s₁ => ?_
  · refine h₁.run hz [ads rr rr (.imm 1)] ⟨_, rfl⟩ (by decide) (by simp [writes])
      fun c₂ h₂ s₂ => ?_
    obtain ⟨h3, h4, h5⟩ := computes (x := wadd (c.regs rr) 1) s₁ s₂ (by
      simp +decide [block, rd, val, toWord_small, s₁.regs])
    refine h₂.branch hz rfl (by decide) (by decide) (by decide) (fun hne' c₃ h₆ s₃ => ?_)
      fun heq' c₃ h₆ s₃ => ?_
    · refine h₆.run hz [ads rr zr (.imm 1)] ⟨_, rfl⟩ (by decide) (by simp [writes])
        fun c₄ h₇ s₄ => ?_
      obtain ⟨h8, h9, h10⟩ := computes (x := 1) s₃ s₄ (by
        simp +decide [block, rd, val, toWord_small, s₃.regs, h3, hzr, wadd_eq])
      refine serve h₇ hz rfl hlr (fun r hr => (h8 r hr).trans (h3 r hr)) ?_ fun x _ => by rw [h10, h5]
      rw [h9, tagOf, if_neg hne, if_neg (h4 ▸ hne')]
    · refine h₆.run hz [ads rr zr (.imm 2)] ⟨_, rfl⟩ (by decide) (by simp [writes])
        fun c₄ h₇ s₄ => ?_
      obtain ⟨h8, h9, h10⟩ := computes (x := 2) s₃ s₄ (by
        simp +decide [block, rd, val, toWord_small, s₃.regs, h3, hzr, wadd_eq])
      refine serve h₇ hz rfl hlr (fun r hr => (h8 r hr).trans (h3 r hr)) ?_ fun x _ => by rw [h10, h5]
      rw [h9, tagOf, if_neg hne, if_pos (h4 ▸ heq')]
  · refine h₁.run hz [ads rr rr (.imm 3)] ⟨_, rfl⟩ (by decide) (by simp [writes])
      fun c₂ h₂ s₂ => ?_
    obtain ⟨h3, h4, h5⟩ := computes (x := 3) s₁ s₂ (by
      simp +decide [block, rd, val, toWord_small, s₁.regs, heq, wadd_eq])
    refine serve h₂ hz rfl hlr h3 ?_ fun x _ => by rw [h5]
    rw [h4, tagOf, if_pos heq]

lemma balanceFactor_length (K : Name → ℕ) : (balanceFactor K).length = 14 := rfl

lemma wadd_pred (hx : x < wordMod) : wadd (wadd x 1) (toWord (-1)) = x := by
  unfold wadd toWord
  unfold wordMod at *
  omega

/-- `balance_factor` saves its return address above the stack. -/
lemma balanceFactor_serves (hz : Z.Holds q (balanceFactor K))
    (hg : Z.Holds (K .getBalanceFactor) getBalanceFactor)
    (hK : 0 < K .getBalanceFactor ∧ K .getBalanceFactor < 2 ^ 45) : Z.Serves q 1 balanceAt := by
  intro c hc hlr hzr hframe
  have hsp := hc.real.regs_lt sp
  have hpush : addr (wadd (c.regs sp) 1) = frame (c.regs sp) 0 := by rw [addr_wadd]; rfl
  refine Zone.At.branch (k := 0) hc hz rfl (by decide) (by rw [balanceFactor_length]; decide)
    (by decide)
    (fun hne c₁ h₁ s₁ => ?_) fun heq c₁ h₁ s₁ => ?_
  · -- the return address is pushed
    refine h₁.run hz [ads sp sp (.imm 1), str lr sp (.imm 0)] ⟨_, rfl⟩ (by decide) ?_
      fun c₂ h₂ s₂ => ?_
    · simp +decide [writes, rd, val, toWord_small, s₁.regs, hpush, hframe]
    have hmem₂ : c₂.mem = c.mem.set (frame (c.regs sp) 0) (c.regs lr) := by
      rw [s₂.mem]
      simp +decide [block, rd, val, toWord_small, s₁.regs, s₁.mem, hpush]
    have hsp₂ : c₂.regs sp = wadd (c.regs sp) 1 := by
      rw [s₂.regs sp (by decide)]
      simp +decide [block, rd, val, toWord_small, s₁.regs]
    have hregs₂ (r : ℕ) (hr : r ∉ [sp, pc]) : c₂.regs r = c.regs r := by
      simp only [List.mem_cons, List.not_mem_nil, or_false, not_or] at hr
      rw [s₂.regs r hr.2]
      simp +decide [block, hr, s₁.regs]
    refine h₂.call hz (getBalanceFactor_serves hg) ⟨_, rfl⟩ hK ((hregs₂ zr (by decide)).trans hzr)
      (by simp) fun c₃ h₃ r₃ _ v₃ m₃ => ?_
    have hmem₃ : c₃.mem = c₂.mem := funext fun x => m₃ x (by simp)
    rw [hmem₃, hregs₂ rr (by decide)] at v₃
    -- the return address is popped
    refine h₃.run hz [ldr lr sp (.imm 0), ads sp sp (.imm (-1)), sbs rr rr (.imm 1)] ⟨_, rfl⟩
      (by decide) (by simp [writes]) fun c₄ h₄ s₄ => ?_
    have hmem₄ : c₄.mem = c₂.mem := s₄.mem.trans hmem₃
    have hrr₄ : c₄.regs rr = wsub (tagAt c₄.mem (c.regs rr)) 1 := by
      rw [s₄.regs rr (by decide), hmem₄, ← v₃]
      simp +decide [block, rd, val, toWord_small]
    have hregs₄ (r : ℕ) (hr : r ∉ [rr, pc]) : c₄.regs r = c.regs r := by
      simp only [List.mem_cons, List.not_mem_nil, or_false, not_or] at hr
      rw [s₄.regs r hr.2]
      by_cases hs : r = sp
      · simp +decide [block, rd, val, hs, r₃, hsp₂, wadd_pred hsp]
      · by_cases hl : r = lr
        · simp +decide [block, rd, val, toWord_small, hl, r₃, hsp₂, hmem₃, hmem₂, hpush]
        · simp +decide [block, hr, hs, hl, r₃, hregs₂]
    have hkept (x : ℕ) (hx : ∀ i < 1, x ≠ frame (c.regs sp) i) : c₄.mem x = c.mem x := by
      rw [hmem₄, hmem₂, set_ne _ _ (hx 0 Nat.one_pos)]
    refine h₄.branch hz rfl (by decide) (by rw [balanceFactor_length]; decide) (by decide)
      (fun hne' c₅ h₅ s₅ => ?_) fun heq' c₅ h₅ s₅ => ?_
    · refine h₅.run hz [sbs rr rr (.imm 2)] ⟨_, rfl⟩ (by decide) (by simp [writes])
        fun c₆ h₆ s₆ => ?_
      obtain ⟨h7, h8, h9⟩ := computes (x := wsub (c₄.regs rr) 2) s₅ s₆ (by
        simp +decide [block, rd, val, toWord_small, s₅.regs])
      refine serve h₆ hz rfl hlr (fun r hr => (h7 r hr).trans (hregs₄ r hr)) ?_
        fun x hx => by rw [h9, hkept x hx]
      rw [h8, h9, balanceAt, if_neg hne, if_neg (hrr₄ ▸ hne'), hrr₄]
    · refine h₅.run hz [ads rr rr (.imm 1)] ⟨_, rfl⟩ (by decide) (by simp [writes])
        fun c₆ h₆ s₆ => ?_
      obtain ⟨h7, h8, h9⟩ := computes (x := 1) s₅ s₆ (by
        simp +decide [block, rd, val, toWord_small, s₅.regs, heq', wadd_eq])
      refine serve h₆ hz rfl hlr (fun r hr => (h7 r hr).trans (hregs₄ r hr)) ?_
        fun x hx => by rw [h9, hkept x hx]
      rw [h8, h9, balanceAt, if_neg hne, if_pos (hrr₄ ▸ heq')]
  · refine serve h₁ hz rfl hlr (fun r hr => s₁.regs r ?_) ?_ fun x _ => by rw [s₁.mem]
    · exact fun h => hr (by simp [h])
    · rw [s₁.regs rr (by decide), balanceAt, if_pos heq, heq]

/-! ### Words -/

variable {m m' : Mem}

lemma parentAt_congr (h : x ≠ 0 → m' (addr x) = m (addr x)) : parentAt m' x = parentAt m x := by
  unfold parentAt
  split_ifs with h0
  · rfl
  · rw [h h0]

lemma tagAt_congr (h : x ≠ 0 → m' (addr x) = m (addr x)) : tagAt m' x = tagAt m x := by
  unfold tagAt
  split_ifs with h0
  · rfl
  · rw [h h0]

lemma balanceAt_congr (h : x ≠ 0 → m' (addr x) = m (addr x)) : balanceAt m' x = balanceAt m x := by
  rw [balanceAt, balanceAt, tagAt_congr h]

lemma wadd_zero (h : x < wordMod) : wadd x 0 = x := Nat.mod_eq_of_lt h

/-- A word address, made a byte address and back again -/
lemma shifted_shifted (h : x < addrSpace) : shifted (shifted x (-3)) 3 = x := by
  unfold addrSpace at h
  simp only [shifted, wordMod]
  norm_num
  omega

end LispMachine.KernelCalls
