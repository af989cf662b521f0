import LispMachine.Body
import LispMachine.KernelCalls

/-!
What `avl_move` of `kernel` does to the words of the tree.

It is followed only as far as its writes go. Where the source has no parent, it writes to the links
of the null node.
-/

namespace LispMachine.KernelMove

open LispMachine.Memory LispMachine.Asm LispMachine.AsmRef LispMachine.MachineStep
open LispMachine.MachineRun LispMachine.Routine LispMachine.Body LispMachine.Kernel
open LispMachine.KernelCalls
open LispMachine.Machine hiding ldr str shf

/-- The registers that `avl_move` saves -/
def saved : List ℕ := [lr, 1, 2, 3, bp]

/-- The words of the tree that a move of `src` to `dst` is meant to update -/
def moveWords (m : Mem) (tr dst src : ℕ) : List ℕ :=
  let par := parentAt m src
  let l := m (addr (src + 1))
  let r := m (addr (src + 2))
  if dst = src then []
  else (if m (addr tr) = src then [addr tr] else []) ++
    (if par = 0 then [] else [addr (par + 1), addr (par + 2)]) ++
    (if l = 0 then [] else [addr l]) ++ (if r = 0 then [] else [addr r]) ++
    [addr dst, addr (dst + 1), addr (dst + 2), addr (dst + 3)]

/-- The link of the null node that is written where the source has no parent -/
def strayWord (m : Mem) (tr src : ℕ) : ℕ := if m 1 = src ∧ addr tr ≠ 1 then 1 else 2

/-- `avl_move` with its calls written out -/
def moveCode (K : Name → ℕ) : List Instr := [
  ads sp sp (.imm 6),
  str fp sp (.imm (-5)),
  ads fp sp (.imm (-5)),
  str lr fp (.imm 1),
  str 1 fp (.imm 2),
  str 2 fp (.imm 3),
  str 3 fp (.imm 4),
  str bp fp (.imm 5),
  ads bp pc (.imm (-8)),
  ldr 1 rr (.imm 1),
  ldr 2 rr (.imm 2),
  xor 3 2 (.reg 1),
  jnc 3 pc (.imm 2),
  jnc sr bp (.imm 55),
  ldr 3 rr (.imm 0),
  ldr rr 3 (.imm 0),
  xor rr rr (.reg 2),
  jnc rr pc (.imm 2),
  str 1 3 (.imm 0),
  ads rr 2 (.imm 0),
  ads lr pc (.imm 2), jnc sr zr (.imm (K .getParent)),
  jnc rr pc (.imm 7),
  ldr 3 rr (.imm 1),
  xor 3 3 (.reg 2),
  jnc 3 pc (.imm 3),
  str 1 rr (.imm 1),
  jnc sr pc (.imm 2),
  str 1 rr (.imm 2),
  ldr 3 2 (.imm 1),
  jnc 3 pc (.imm 2),
  jnc sr bp (.imm 39),
  ads rr 3 (.imm 0),
  ads lr pc (.imm 2), jnc sr zr (.imm (K .getBalanceFactor)),
  shf 1 1 (-3),
  orr rr rr (.reg 1),
  str rr 3 (.imm 0),
  shf 1 1 3,
  str 3 1 (.imm 1),
  ldr 3 2 (.imm 2),
  jnc 3 pc (.imm 2),
  jnc sr bp (.imm 50),
  ads rr 3 (.imm 0),
  ads lr pc (.imm 2), jnc sr zr (.imm (K .getBalanceFactor)),
  shf 1 1 (-3),
  orr rr rr (.reg 1),
  str rr 3 (.imm 0),
  shf 1 1 3,
  str 3 1 (.imm 2),
  ldr 3 2 (.imm 0),
  str 3 1 (.imm 0),
  ldr 3 2 (.imm 3),
  str 3 1 (.imm 3),
  ldr bp fp (.imm 5),
  ldr 3 fp (.imm 4),
  ldr 2 fp (.imm 3),
  ldr 1 fp (.imm 2),
  ldr lr fp (.imm 1),
  ldr fp fp (.imm 0),
  sbs sp sp (.imm 6),
  ret]

lemma code_move (K : Name → ℕ) : code K .avlMove = moveCode K := by
  simp only [code, avlMove, callb, moveCode, List.cons_append, List.nil_append]

lemma moveCode_length (K : Name → ℕ) : (moveCode K).length = 63 := rfl

variable {Z : Zone} {K : Name → ℕ} {c₀ c : Cpu} {q n : ℕ} {Q : Cpu → Prop}
variable {ρ : ℕ → ℕ} {m m' : Mem} {r a b t g e f x v tr dst src : ℕ}

section

variable (hR : Z.Called q (moveCode K) c₀ saved)
  (hz : ∀ R, R ∈ callees .avlMove → Z.Holds (K R) (code K R))
  (hK : ∀ R, 0 < K R ∧ K R < 2 ^ 45) (h0 : c₀.regs zr = 0)
  (hs : ∀ i < 6, frame (c₀.regs sp) i ∈ Z.free)

include hR hz hK h0 hs in
/-- A child of the source gets the destination as its parent, and becomes its child. -/
lemma child_moves (i k : ℕ) (hik : i = 1 ∧ k = 29 ∨ i = 2 ∧ k = 40) (hlt : dst < addrSpace)
    (h : Body.At Z q c₀ saved 6 k (file ρ m r dst src t g e f) c)
    (hsrc : Clear (c₀.regs sp) 6 (addr (src + i)))
    (hch : m (addr (src + i)) ≠ 0 → Clear (c₀.regs sp) 6 (addr (m (addr (src + i)))) ∧
      addr (m (addr (src + i))) ∈ Z.free)
    (hdst : Clear (c₀.regs sp) 6 (addr (dst + i)) ∧ addr (dst + i) ∈ Z.free)
    (hQ : ∀ m' r' t' c', Body.At Z q c₀ saved 6 (k + 11) (file ρ m' r' dst src t' g e f) c' →
      (∀ x, x ≠ addr (dst + i) → (m (addr (src + i)) ≠ 0 → x ≠ addr (m (addr (src + i)))) →
        m' x = m x) → Z.Ends Q c') : Z.Ends Q c := by
  have hn : saved.length < 6 := by decide
  have hlen := moveCode_length K
  have hoff : toWord i = i := toWord_natCast (by rcases hik with ⟨rfl, -⟩ | ⟨rfl, -⟩ <;> decide)
  set ch := m (addr (src + i)) with hchild
  have hget : Z.Holds (K .getBalanceFactor) getBalanceFactor :=
    hz .getBalanceFactor (by decide)
  -- the destination gets the child
  have hlast {m' : Mem} {r' : ℕ} {c : Cpu} (h : Body.At Z q c₀ saved 6 (k + 10)
      (file ρ m' r' dst src ch g e f) c)
      (hm : ∀ x, (ch ≠ 0 → x ≠ addr ch) → m' x = m x) : Z.Ends Q c := by
    refine h.run hR hn (k + 11) [str 3 1 (.imm i)]
      (file ρ (m'.set (addr (dst + i)) ch) r' dst src ch g e f)
      (by rcases hik with ⟨rfl, rfl⟩ | ⟨rfl, rfl⟩ <;> exact ⟨_, rfl⟩)
      (by rcases hik with ⟨rfl, rfl⟩ | ⟨rfl, rfl⟩ <;> decide) rfl ?_ ?_ ?_
      fun c' h' => hQ _ _ _ c' h' fun x hx hx' => ?_
    · simp [effect, val, hoff]
    · simp [stores, val, hoff, hdst.2]
    · simp [touches, val, hoff, hdst.1]
    · rw [set_ne _ _ hx, hm x hx']
  refine h.run hR hn (k + 1) [ldr 3 2 (.imm i)] (file ρ m r dst src ch g e f)
    (by rcases hik with ⟨rfl, rfl⟩ | ⟨rfl, rfl⟩ <;> exact ⟨_, rfl⟩)
    (by rcases hik with ⟨rfl, rfl⟩ | ⟨rfl, rfl⟩ <;> decide) rfl ?_ ?_ ?_ fun c₁ h₁ => ?_
  · simp [effect, val, hoff, hchild]
  · simp [stores]
  · simp [touches, val, hoff, hsrc]
  refine h₁.branch hR (k + 3) 3 pc 2 (by rcases hik with ⟨rfl, rfl⟩ | ⟨rfl, rfl⟩ <;> rfl)
    (by decide) (by decide) (.inr ⟨rfl, rfl⟩) (by omega) (by omega) (fun hne c₂ h₂ => ?_)
    fun heq c₂ h₂ => ?_
  · rw [file_three] at hne
    obtain ⟨hc, hc'⟩ := hch hne
    have hlt' : ch < wordMod := h₂.regs_lt (r := 3) (by decide)
    refine h₂.run hR hn (k + 4) [ads rr 3 (.imm 0)] (file ρ m ch dst src ch g e f)
      (by rcases hik with ⟨rfl, rfl⟩ | ⟨rfl, rfl⟩ <;> exact ⟨_, rfl⟩) (by decide) rfl ?_ ?_ ?_
      fun c₃ h₃ => ?_
    · simp [effect, val, toWord_small, wadd_zero hlt']
    · simp [stores]
    · simp [touches]
    refine h₃.call hR (k + 6) (getBalanceFactor_serves hget)
      (by rcases hik with ⟨rfl, rfl⟩ | ⟨rfl, rfl⟩ <;> exact ⟨_, rfl⟩) (hK _) (by decide)
      ⟨h0, by decide⟩ (by decide) rfl hs (fun m' hm => tagAt_congr fun _ => hm _ hc)
      fun c₄ h₄ => ?_
    simp only [file_setReg_rr, file_mem, file_rr] at h₄
    refine h₄.run hR hn (k + 10) [shf 1 1 (-3), orr rr rr (.reg 1), str rr 3 (.imm 0), shf 1 1 3]
      (file ρ (m.set (addr ch) (tagAt m ch ||| shifted dst (-3))) (tagAt m ch ||| shifted dst (-3))
        dst src ch g e f)
      (by rcases hik with ⟨rfl, rfl⟩ | ⟨rfl, rfl⟩ <;> exact ⟨_, rfl⟩) (by decide) rfl ?_ ?_ ?_
      fun c₅ h₅ => hlast h₅ fun x hx => set_ne _ _ (hx hne)
    · simp [effect, val, toWord_small, line_shf, shifted_shifted hlt]
    · simp [stores, val, toWord_small, line_shf, hc']
    · simp [touches, val, toWord_small, line_shf, hc]
  · rw [file_three] at heq
    refine h₂.goto hR (k + 10) bp (k + 10)
      (by rcases hik with ⟨rfl, rfl⟩ | ⟨rfl, rfl⟩ <;> rfl)
      (by rcases hik with ⟨rfl, rfl⟩ | ⟨rfl, rfl⟩ <;> decide) (.inl ⟨rfl, rfl⟩) (by omega)
      (by omega) fun c₃ h₃ => hlast h₃ fun x _ => rfl

/-- The memory with the root redirected -/
def rooted (m : Mem) (tr dst src : ℕ) : Mem :=
  if m (addr tr) = src then m.set (addr tr) dst else m

/-- A move of `src` to `dst` is called, and the stack is apart from what it reads. -/
structure Moves (Z : Zone) (c₀ : Cpu) (tr dst src : ℕ) : Prop where
  first : c₀.mem (addr (c₀.regs rr)) = tr
  second : c₀.mem (addr (c₀.regs rr + 1)) = dst
  third : c₀.mem (addr (c₀.regs rr + 2)) = src
  args : ∀ i ∈ [0, 1, 2], Clear (c₀.regs sp) 6 (addr (c₀.regs rr + i))
  root : Clear (c₀.regs sp) 6 (addr tr)
  node : ∀ i ∈ [0, 1, 2, 3], Clear (c₀.regs sp) 6 (addr (src + i))
  null : ∀ i ∈ [1, 2], Clear (c₀.regs sp) 6 i
  free : ∀ x ∈ moveWords c₀.mem tr dst src, Clear (c₀.regs sp) 6 x ∧ x ∈ Z.free
  apart : ∀ i ∈ [0, 1, 2], addr (src + i) ∉ moveWords c₀.mem tr dst src
  small : dst < addrSpace

include hR hz hK h0 hs in
/-- The start of a move, up to the parent of the source -/
lemma move_starts (h : Z.At q c₀) (hm : Moves Z c₀ tr dst src)
    (heq : dst = src → ∀ r t c', Body.At Z q c₀ saved 6 55 (file c₀.regs c₀.mem r dst src t
      (c₀.regs 4) (c₀.regs 5) (c₀.regs 6)) c' → Z.Ends Q c')
    (hQ : dst ≠ src → ∀ t c', Body.At Z q c₀ saved 6 22 (file c₀.regs (rooted c₀.mem tr dst src)
      (parentAt c₀.mem src) dst src t (c₀.regs 4) (c₀.regs 5) (c₀.regs 6)) c' → Z.Ends Q c') :
    Z.Ends Q c₀ := by
  have hn : saved.length < 6 := by decide
  have hlen := moveCode_length K
  have hget : Z.Holds (K .getParent) getParent := hz .getParent (by decide)
  obtain ⟨ha0, ha1, ha2⟩ : _ ∧ _ ∧ _ := by simpa using hm.args
  refine start hR h ⟨_, rfl⟩ (by decide) hn 9 rfl fun c₁ h₁ => ?_
  refine h₁.run hR hn 12 [ldr 1 rr (.imm 1), ldr 2 rr (.imm 2), xor 3 2 (.reg 1)]
    (file c₀.regs c₀.mem (c₀.regs rr) dst src (src ^^^ dst) (c₀.regs 4) (c₀.regs 5) (c₀.regs 6))
    ⟨_, rfl⟩ (by decide) rfl ?_ ?_ ?_ fun c₂ h₂ => ?_
  · simp [effect, val, toWord_small, hm.second, hm.third]
  · simp [stores]
  · simp [touches, val, toWord_small, ha1, ha2]
  refine h₂.branch hR 14 3 pc 2 rfl (by decide) (by decide) (.inr ⟨rfl, rfl⟩) (by omega)
    (by omega) (fun hne c₃ h₃ => ?_) fun hzero c₃ h₃ => ?_
  swap
  · rw [file_three, Nat.xor_eq_zero_iff] at hzero
    exact h₃.goto hR 55 bp 55 rfl (by decide) (.inl ⟨rfl, rfl⟩) (by omega) (by omega)
      (heq hzero.symm _ _)
  rw [file_three] at hne
  have hne' : dst ≠ src := fun h => hne (by simp [h])
  -- the root
  refine h₃.run hR hn 17 [ldr 3 rr (.imm 0), ldr rr 3 (.imm 0), xor rr rr (.reg 2)]
    (file c₀.regs c₀.mem (c₀.mem (addr tr) ^^^ src) dst src tr (c₀.regs 4) (c₀.regs 5)
      (c₀.regs 6)) ⟨_, rfl⟩ (by decide) rfl ?_ ?_ ?_ fun c₄ h₄ => ?_
  · simp [effect, val, toWord_small, hm.first]
  · simp [stores]
  · simp [touches, val, toWord_small, ha0, hm.first, hm.root]
  -- the parent
  have hnext {r : ℕ} {c : Cpu} (h : Body.At Z q c₀ saved 6 19
      (file c₀.regs (rooted c₀.mem tr dst src) r dst src tr (c₀.regs 4) (c₀.regs 5)
        (c₀.regs 6)) c) : Z.Ends Q c := by
    have hlt : src < wordMod := h.regs_lt (r := 2) (by decide)
    refine h.run hR hn 20 [ads rr 2 (.imm 0)] (file c₀.regs (rooted c₀.mem tr dst src) src dst
      src tr (c₀.regs 4) (c₀.regs 5) (c₀.regs 6)) ⟨_, rfl⟩ (by decide) rfl ?_ ?_ ?_
      fun c₁ h₁ => ?_
    · simp [effect, val, toWord_small, wadd_zero hlt]
    · simp [stores]
    · simp [touches]
    refine h₁.call hR 22 (getParent_serves hget) ⟨_, rfl⟩ (hK _) (by decide) ⟨h0, by decide⟩
      (by decide) rfl hs (fun m' hm' => parentAt_congr fun _ => ?_) fun c₂ h₂ =>
      hQ hne' _ _ (by simpa using h₂)
    have hclear := hm.node 0 (by simp)
    have hap := hm.apart 0 (by simp)
    rw [Nat.add_zero] at hclear hap
    rw [file_rr, hm' _ hclear, file_mem, rooted]
    split_ifs with hroot
    · refine set_ne _ _ fun heq => hap ?_
      simp [moveWords, hne', hroot, heq]
    · rfl
  refine h₄.branch hR 19 rr pc 2 rfl (by decide) (by decide) (.inr ⟨rfl, rfl⟩) (by omega)
    (by omega) (fun hroot c₅ h₅ => ?_) fun hroot c₅ h₅ => ?_
  · have hroot' : c₀.mem (addr tr) ≠ src := fun h => hroot (by simp [h])
    exact hnext (r := c₀.mem (addr tr) ^^^ src) (by rwa [rooted, if_neg hroot'])
  · rw [file_rr, Nat.xor_eq_zero_iff] at hroot
    have hfree := hm.free (addr tr) (by simp [moveWords, hne', hroot])
    refine h₅.run hR hn 19 [str 1 3 (.imm 0)] (file c₀.regs (rooted c₀.mem tr dst src)
      (c₀.mem (addr tr) ^^^ src) dst src tr (c₀.regs 4) (c₀.regs 5) (c₀.regs 6)) ⟨_, rfl⟩
      (by decide) rfl ?_ ?_ ?_ fun c₆ h₆ => hnext h₆
    · simp [effect, val, toWord_small, rooted, hroot]
    · simp [stores, val, toWord_small, hfree.2]
    · simp [touches, val, toWord_small, hfree.1]

lemma rooted_kept (hne : dst ≠ src) (hx : x ∉ moveWords m tr dst src) :
    rooted m tr dst src x = m x := by
  unfold rooted
  split_ifs with hroot
  · refine set_ne _ _ fun heq => hx ?_
    simp [moveWords, hne, hroot, heq]
  · rfl

/-- The stray word, as the comparison of the left link of the null node with the source finds it -/
lemma strayWord_eq (hne : dst ≠ src) :
    strayWord m tr src = if rooted m tr dst src 1 = src then 1 else 2 := by
  unfold strayWord rooted
  by_cases htr : addr tr = 1
  · by_cases h1 : m 1 = src
    · simp [htr, h1, hne]
    · simp [htr, h1]
  · by_cases hroot : m (addr tr) = src
    · simp [htr, hroot, set_ne _ _ (Ne.symm htr)]
    · simp [htr, hroot]

/-- When `avl_move` writes only what it is meant to. -/
def MovesWell (m : Mem) (tr dst src : ℕ) : Prop :=
  dst = src ∨ parentAt m src ≠ 0 ∨ strayWord m tr src ∈ moveWords m tr dst src ∨
    m (strayWord m tr src) = dst

include hR in
/-- The links of the null node, where the source has no parent -/
lemma strays (hm : Moves Z c₀ tr dst src) (hne : dst ≠ src)
    (h : Body.At Z q c₀ saved 6 22
      (file c₀.regs (rooted c₀.mem tr dst src) 0 dst src t g e f) c)
    (hQ : ∀ w k t' c', (w = 1 ∧ k = 26 ∨ w = 2 ∧ k = 28) → w = strayWord c₀.mem tr src →
      Body.At Z q c₀ saved 6 k (file c₀.regs (rooted c₀.mem tr dst src) 0 dst src t' g e f) c' →
      Z.Ends Q c') : Z.Ends Q c := by
  have hn : saved.length < 6 := by decide
  have hlen := moveCode_length K
  have haddr : addr 1 = 1 := by decide
  have hstray : strayWord c₀.mem tr src = if rooted c₀.mem tr dst src 1 = src then 1 else 2 :=
    strayWord_eq hne
  generalize rooted c₀.mem tr dst src = M at h hstray hQ
  refine h.branch hR 29 rr pc 7 rfl (by decide) (by decide) (.inr ⟨rfl, rfl⟩) (by omega)
    (by omega) (fun h => absurd rfl h) fun _ c₁ h₁ => ?_
  refine h₁.run hR hn 25 [ldr 3 rr (.imm 1), xor 3 3 (.reg 2)]
    (file c₀.regs M 0 dst src (M 1 ^^^ src) g e f) ⟨_, rfl⟩ (by decide) rfl ?_ ?_ ?_
    fun c₂ h₂ => ?_
  · simp [effect, val, toWord_small, haddr]
  · simp [stores]
  · simp [touches, val, toWord_small, haddr, hm.null]
  refine h₂.branch hR 28 3 pc 3 rfl (by decide) (by decide) (.inr ⟨rfl, rfl⟩) (by omega)
    (by omega) (fun hlink c₃ h₃ => ?_) fun hlink c₃ h₃ => ?_
  · have hlink' : M 1 ≠ src := fun h => hlink (by simp [h])
    exact hQ 2 28 _ c₃ (.inr ⟨rfl, rfl⟩) (by rw [hstray, if_neg hlink']) h₃
  · rw [file_three, Nat.xor_eq_zero_iff] at hlink
    exact hQ 1 26 _ c₃ (.inl ⟨rfl, rfl⟩) (by rw [hstray, if_pos hlink]) h₃

include hR hz hK h0 hs in
/-- **A move** that writes only what it is meant to returns. -/
theorem move_ends (h : Z.At q c₀) (hlr : c₀.regs lr ≠ 0) (hm : Moves Z c₀ tr dst src)
    (hw : MovesWell c₀.mem tr dst src) :
    Z.Ends (fun c' => Z.At (c₀.regs lr) c' ∧ ∀ r, r ∉ [rr, pc] → c'.regs r = c₀.regs r) c₀ := by
  have hn : saved.length < 6 := by decide
  have hlen := moveCode_length K
  have hsp : c₀.regs sp < wordMod := h.real.regs_lt sp
  have hleave {e c : Cpu} (h : Body.At Z q c₀ saved 6 55 e c) :
      Z.Ends (fun c' => Z.At (c₀.regs lr) c' ∧ ∀ r, r ∉ [rr, pc] → c'.regs r = c₀.regs r) c :=
    (h.leave hR hsp ⟨_, rfl⟩ (by decide) hlr).imp fun c' h => ⟨h.here, h.regs⟩
  refine move_starts hR hz hK h0 hs h hm (fun _ _ _ _ h => hleave h) fun hne t c₁ h₁ => ?_
  -- from where the parent has its link
  have hrest {M : Mem} {r t : ℕ} {c : Cpu} (hM : ∀ x ∉ moveWords c₀.mem tr dst src, M x = c₀.mem x)
      (h : Body.At Z q c₀ saved 6 29 (file c₀.regs M r dst src t (c₀.regs 4) (c₀.regs 5)
        (c₀.regs 6)) c) :
      Z.Ends (fun c' => Z.At (c₀.regs lr) c' ∧ ∀ r, r ∉ [rr, pc] → c'.regs r = c₀.regs r) c := by
    have hsrc (i : ℕ) (hi : i ∈ [0, 1, 2]) : M (addr (src + i)) = c₀.mem (addr (src + i)) :=
      hM _ (hm.apart i hi)
    have hchild (i : ℕ) (hi : i ∈ [1, 2]) (M' : Mem)
        (hM' : M' (addr (src + i)) = c₀.mem (addr (src + i))) (h0 : M' (addr (src + i)) ≠ 0) :
        addr (M' (addr (src + i))) ∈ moveWords c₀.mem tr dst src := by
      rw [hM'] at h0 ⊢
      simp only [List.mem_cons, List.not_mem_nil, or_false] at hi
      rcases hi with rfl | rfl <;> simp [moveWords, hne, h0]
    have hdst (i : ℕ) (hi : i ∈ [0, 1, 2, 3]) : addr (dst + i) ∈ moveWords c₀.mem tr dst src := by
      simp only [List.mem_cons, List.not_mem_nil, or_false] at hi
      rcases hi with rfl | rfl | rfl | rfl <;> simp [moveWords, hne]
    refine child_moves hR hz hK h0 hs 1 29 (.inl ⟨rfl, rfl⟩) hm.small h (hm.node 1 (by simp))
      (fun h0 => hm.free _ (hchild 1 (by simp) M (hsrc 1 (by simp)) h0))
      (hm.free _ (hdst 1 (by simp))) fun M₁ r₁ t₁ c₁ h₁ k₁ => ?_
    have hM₁ : ∀ x ∉ moveWords c₀.mem tr dst src, M₁ x = c₀.mem x := fun x hx =>
      (k₁ x (fun heq => hx (heq ▸ hdst 1 (by simp))) fun h0 heq => hx (heq ▸
        hchild 1 (by simp) M (hsrc 1 (by simp)) h0)).trans (hM x hx)
    have hsrc₁ := hM₁ _ (hm.apart 2 (by simp))
    refine child_moves hR hz hK h0 hs 2 40 (.inr ⟨rfl, rfl⟩) hm.small h₁ (hm.node 2 (by simp))
      (fun h0 => hm.free _ (hchild 2 (by simp) M₁ hsrc₁ h0))
      (hm.free _ (hdst 2 (by simp))) fun M₂ r₂ t₂ c₂ h₂ k₂ => ?_
    obtain ⟨hd0, hd0'⟩ := hm.free _ (hdst 0 (by simp))
    obtain ⟨hd3, hd3'⟩ := hm.free _ (hdst 3 (by simp))
    have hs0 := hm.node 0 (by simp)
    have hs3 := hm.node 3 (by simp)
    rw [Nat.add_zero] at hd0 hd0' hs0
    refine h₂.run hR hn 55 [ldr 3 2 (.imm 0), str 3 1 (.imm 0), ldr 3 2 (.imm 3),
      str 3 1 (.imm 3)] _ ⟨_, rfl⟩ (by decide) rfl rfl ?_ ?_ fun c₃ h₃ => hleave h₃
    · simp [stores, val, toWord_small, hd0', hd3']
    · simp [touches, val, toWord_small, hd0, hd3, hs0, hs3]
  by_cases hpar : parentAt c₀.mem src = 0
  · -- the source has no parent
    rw [hpar] at h₁
    refine strays hR hm hne h₁ fun w k t' c₂ hwk hstray h₂ => ?_
    have hword : addr w = w := by rcases hwk with ⟨rfl, -⟩ | ⟨rfl, -⟩ <;> decide
    have hclear : Clear (c₀.regs sp) 6 w := hm.null w (by
      rcases hwk with ⟨rfl, -⟩ | ⟨rfl, -⟩ <;> simp)
    have hoff : toWord w = w := toWord_natCast (by rcases hwk with ⟨rfl, -⟩ | ⟨rfl, -⟩ <;> decide)
    have hget : (moveCode K)[k]? = some (str 1 rr (.imm w)) := by
      rcases hwk with ⟨rfl, rfl⟩ | ⟨rfl, rfl⟩ <;> rfl
    have hskip {M : Mem} {t : ℕ} {c : Cpu} (hM : ∀ x ∉ moveWords c₀.mem tr dst src, M x = c₀.mem x)
        (h : Body.At Z q c₀ saved 6 (k + 1) (file c₀.regs M 0 dst src t (c₀.regs 4) (c₀.regs 5)
          (c₀.regs 6)) c) :
        Z.Ends (fun c' => Z.At (c₀.regs lr) c' ∧ ∀ r, r ∉ [rr, pc] → c'.regs r = c₀.regs r) c := by
      rcases hwk with ⟨rfl, rfl⟩ | ⟨rfl, rfl⟩
      · exact h.goto hR 29 pc 2 rfl (by decide) (.inr ⟨rfl, rfl⟩) (by omega) (by omega)
          fun c' h' => hrest hM h'
      · exact hrest hM h
    by_cases hin : w ∈ moveWords c₀.mem tr dst src
    · refine h₂.run hR hn (k + 1) [str 1 rr (.imm w)] (file c₀.regs
        ((rooted c₀.mem tr dst src).set w dst) 0 dst src t' (c₀.regs 4) (c₀.regs 5) (c₀.regs 6))
        (by rcases hwk with ⟨rfl, rfl⟩ | ⟨rfl, rfl⟩ <;> exact ⟨_, rfl⟩)
        (by rcases hwk with ⟨rfl, rfl⟩ | ⟨rfl, rfl⟩ <;> decide) rfl ?_ ?_ ?_
        fun c₃ h₃ => hskip (fun x hx => ?_) h₃
      · simp [effect, val, hoff, hword]
      · simp [stores, val, hoff, hword, (hm.free w hin).2]
      · simp [touches, val, hoff, hword, hclear]
      · have hxw : x ≠ w := fun heq => hx (heq ▸ hin)
        rw [set_ne _ _ hxw, rooted_kept hne hx]
    · have hval : c₀.mem w = dst := by
        rcases hw with h | h | h | h
        · exact absurd h hne
        · exact absurd hpar h
        · exact absurd (hstray ▸ h) hin
        · exact hstray ▸ h
      refine h₂.idle hR 1 rr w hget (by rcases hwk with ⟨rfl, -⟩ | ⟨rfl, -⟩ <;> decide)
        (by decide) ?_ ?_ fun c₃ h₃ => hskip (fun x hx => rooted_kept hne hx) h₃
      · simpa [hoff, hword] using hclear
      · simp [hoff, hword, rooted_kept hne hin, hval]
  · refine h₁.branch hR 29 rr pc 7 rfl (by decide) (by decide) (.inr ⟨rfl, rfl⟩) (by omega)
      (by omega) (fun _ c₂ h₂ => hrest (fun x hx => rooted_kept hne hx) h₂) fun h => ?_
    exact absurd h hpar

include hR hz hK h0 hs in
/-- **A move** that does not gets stuck. -/
theorem move_stuck (h : Z.At q c₀) (hm : Moves Z c₀ tr dst src)
    (hfree : ∀ x, Clear (c₀.regs sp) 6 x → x ∉ moveWords c₀.mem tr dst src → x ∉ Z.free)
    (hw : ¬ MovesWell c₀.mem tr dst src) :
    Z.Ends (fun c => c.regs pc ∈ Z.code ∧ ∀ c', ¬ Z.Step c c') c₀ := by
  simp only [MovesWell, not_or, not_not] at hw
  obtain ⟨hne, hpar, hin, hval⟩ := hw
  refine move_starts hR hz hK h0 hs h hm (fun heq => absurd heq hne) fun _ t c₁ h₁ => ?_
  rw [hpar] at h₁
  refine strays hR hm hne h₁ fun w k t' c₂ hwk hstray h₂ => ⟨c₂, .refl, ?_, fun c' => ?_⟩
  · rw [h₂.inside.here.counter]
    have hlen := moveCode_length K
    exact hR.holds.inside k (by rcases hwk with ⟨-, rfl⟩ | ⟨-, rfl⟩ <;> omega)
  · rw [← hstray] at hin hval
    have hword : addr w = w := by rcases hwk with ⟨rfl, -⟩ | ⟨rfl, -⟩ <;> decide
    have hclear : Clear (c₀.regs sp) 6 w := hm.null w (by
      rcases hwk with ⟨rfl, -⟩ | ⟨rfl, -⟩ <;> simp)
    have hoff : toWord w = w := toWord_natCast (by rcases hwk with ⟨rfl, -⟩ | ⟨rfl, -⟩ <;> decide)
    refine h₂.stuck hR 1 rr w (by rcases hwk with ⟨rfl, rfl⟩ | ⟨rfl, rfl⟩ <;> rfl)
      (by rcases hwk with ⟨rfl, -⟩ | ⟨rfl, -⟩ <;> decide) (by decide) ?_ ?_ ?_
    · simpa [hoff, hword] using hclear
    · simpa [hoff, hword] using hfree w hclear hin
    · simpa [hoff, hword, rooted_kept hne hin] using hval

end

end LispMachine.KernelMove
