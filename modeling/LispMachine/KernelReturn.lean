import LispMachine.KernelMove
import LispMachine.KernelRotate

/-!
Which routines of `kernel` return to their caller.
-/

namespace LispMachine.KernelReturn

open LispMachine.Memory LispMachine.Asm LispMachine.AsmRef LispMachine.MachineStep
open LispMachine.MachineRun LispMachine.Routine LispMachine.Body LispMachine.Kernel
open LispMachine.KernelCalls LispMachine.KernelMove LispMachine.KernelRotate
open LispMachine.AvlCode LispMachine.Lib.BalTree Relation
open LispMachine.Machine hiding ldr str shf

/-- The number of words of the stack that a routine uses -/
def depth : Name → ℕ
  | .getParent | .getBalanceFactor | .revBalanceFactor => 0
  | .balanceFactor => 1
  | .setBalanceFactor => 3
  | .avlMove => 6
  | .avlRotateLeft | .avlRotateRight => 8

/-- The words of the tree that a routine is meant to update -/
def updates (R : Name) (m : Mem) (arg : ℕ) : List ℕ :=
  match R with
  | .getParent | .getBalanceFactor | .balanceFactor | .revBalanceFactor => []
  | .setBalanceFactor => [addr (m (addr arg))]
  | .avlMove => moveWords m (m (addr arg)) (m (addr (arg + 1))) (m (addr (arg + 2)))
  | .avlRotateLeft => rotateWords .R m (m (addr arg)) (m (addr (arg + 1)))
  | .avlRotateRight => rotateWords .L m (m (addr arg)) (m (addr (arg + 1)))

/-- The words that it reads apart from these -/
def reads (R : Name) (m : Mem) (arg : ℕ) : List ℕ :=
  match R with
  | .getParent | .getBalanceFactor | .balanceFactor => if arg = 0 then [] else [addr arg]
  | .revBalanceFactor => []
  | .setBalanceFactor => [addr arg, addr (arg + 1)]
  | .avlMove =>
    let src := m (addr (arg + 2))
    [addr arg, addr (arg + 1), addr (arg + 2), addr (m (addr arg))] ++
      [addr src, addr (src + 1), addr (src + 2), addr (src + 3)]
  | .avlRotateLeft | .avlRotateRight =>
    let nd := m (addr (arg + 1))
    [addr arg, addr (arg + 1)] ++ if nd = 0 then [] else [addr (nd + 1), addr (nd + 2)]

/-- The nodes that a routine is given are addresses, and different ones: a move does not write to
its source, and a node is not its own inner grandchild. -/
def Placed (R : Name) (m : Mem) (arg : ℕ) : Prop :=
  match R with
  | .getParent | .getBalanceFactor | .balanceFactor | .revBalanceFactor | .setBalanceFactor => True
  | .avlMove => m (addr (arg + 1)) < addrSpace ∧
    ∀ i ∈ [0, 1, 2], addr (m (addr (arg + 2)) + i) ∉ updates .avlMove m arg
  | .avlRotateLeft => rotatePlaced .R m (m (addr (arg + 1)))
  | .avlRotateRight => rotatePlaced .L m (m (addr (arg + 1)))

instance (R : Name) (m : Mem) (arg : ℕ) : Decidable (Placed R m arg) :=
  match R with
  | .getParent | .getBalanceFactor | .balanceFactor | .revBalanceFactor | .setBalanceFactor =>
    inferInstanceAs (Decidable True)
  | .avlMove => inferInstanceAs (Decidable (m (addr (arg + 1)) < addrSpace ∧
    ∀ i ∈ [0, 1, 2], addr (m (addr (arg + 2)) + i) ∉ updates .avlMove m arg))
  | .avlRotateLeft => inferInstanceAs (Decidable (rotatePlaced .R m (m (addr (arg + 1)))))
  | .avlRotateRight => inferInstanceAs (Decidable (rotatePlaced .L m (m (addr (arg + 1)))))

/-- The places of the call at `p` of a routine, and of the routines that it calls -/
def places (K : Name → ℕ) (R : Name) (p : ℕ) : Set ℕ :=
  {x | x = p ∨ x = p + 1 ∨ ∃ S ∈ R :: callees R, ∃ k < (code K S).length, x = K S + k}

/-- The routine `R` is called in the state `c`, with its arguments in place. The stack is apart from
the code, from the tree and from the words that a null pointer leads to; so is the code from the
tree. -/
structure Call (K : Name → ℕ) (R : Name) (c : Cpu) : Prop where
  real : Real c
  running : c.regs sr &&& excContMask ≠ 0
  zero : c.regs zr = 0
  site : Loaded (c.regs pc) (callb (K R)) c.mem
  loaded : ∀ S ∈ R :: callees R, Loaded (K S) (code K S) c.mem
  bound : ∀ S, 0 < K S ∧ K S < 2 ^ 45
  room : c.regs pc + 2 < wordMod
  back : c.regs pc + 2 ∉ places K R (c.regs pc)
  placed : Placed R c.mem (c.regs rr)
  stack : ∀ x ∈ reads R c.mem (c.regs rr) ++ updates R c.mem (c.regs rr),
    Clear (c.regs sp) (depth R) x
  null : ∀ x < 4, Clear (c.regs sp) (depth R) x
  apart : ∀ p ∈ places K R (c.regs pc),
    Clear (c.regs sp) (depth R) (addr p) ∧ addr p ∉ updates R c.mem (c.regs rr)

/-- What is carried out and what may change in a call -/
def callZone (K : Name → ℕ) (R : Name) (c : Cpu) : Zone where
  code := places K R (c.regs pc)
  free := {x | ¬ Clear (c.regs sp) (depth R) x ∨ x ∈ updates R c.mem (c.regs rr)}
  mem := c.mem

/-- The call returns to where it was made, with all registers restored, and changes only its own
stack and the words of the tree that it is meant to update. -/
def Returns (K : Name → ℕ) (R : Name) (c : Cpu) : Prop :=
  ∃ c', (callZone K R c).Runs c c' ∧ c'.regs pc = c.regs pc + 2 ∧
    ∀ r ∈ [sp, fp, bp, 1, 2, 3, 4, 5, 6], c'.regs r = c.regs r

variable {Z : Zone} {K : Name → ℕ} {c₀ c c' : Cpu} {q n k : ℕ} {Q : Cpu → Prop}

/-! ### `set_balance_factor` -/

/-- The end of `set_balance_factor` after its call, from where it returns to -/
structure Looping (Z : Zone) (q : ℕ) (c : Cpu) : Prop where
  link : c.regs lr = q + 12
  here : ∃ k, 12 ≤ k ∧ k < 19 ∧ Z.At (q + k) c

lemma Looping.step (hz : Z.Holds q (setBalanceFactor K)) (h : Looping Z q c) (hs : Z.Step c c') :
    Looping Z q c' := by
  obtain ⟨hlr, k, h12, h19, hk⟩ := h
  by_cases h18 : k = 18
  · -- the jump to the first of these words
    subst h18
    have hsr : c.regs sr ≠ 0 := fun hzero =>
      absurd (by rw [hzero]; exact Nat.zero_and _) hk.running
    have htarget : wadd (c.regs lr) (operand c (.imm 0)) = q + 12 := by
      rw [hlr]
      exact Nat.mod_eq_of_lt (hlr ▸ hk.real.regs_lt lr)
    obtain ⟨h1, h2⟩ := hs.jump (d := sr) (a := lr) (o := .imm 0) hz hk rfl (by decide) hsr
      htarget (by omega)
    refine ⟨?_, 12, le_rfl, by omega, h2⟩
    rw [h1, setReg_regs, if_neg (by decide), hlr]
  · obtain ⟨i, hi, hp, hd⟩ : ∃ i, (setBalanceFactor K)[k]? = some i ∧ Plain i ∧
        (i.op ≠ 13 → lr ≠ i.regs.getD 0 0) := by
      have hk' : k = 12 ∨ k = 13 ∨ k = 14 ∨ k = 15 ∨ k = 16 ∨ k = 17 := by omega
      rcases hk' with rfl | rfl | rfl | rfl | rfl | rfl
      all_goals exact ⟨_, rfl, by decide, by decide⟩
    obtain ⟨h1, h2⟩ := hs.plain hz hk hi hp
    refine ⟨?_, k + 1, by omega, by omega, h2⟩
    rw [h1, setReg_regs, if_neg (by decide), line_regs hp hd, hlr]

lemma Looping.runs (hz : Z.Holds q (setBalanceFactor K)) (h : Looping Z q c)
    (hs : Z.Runs c c') : Looping Z q c' := by
  induction hs with
  | refl => exact h
  | tail _ hs ih => exact ih.step hz hs

/-- **`set_balance_factor`** returns into itself, as it does not save `lr`. -/
lemma setBalanceFactor_loops (hz : Z.Holds q (setBalanceFactor K))
    (hrev : Z.Holds (K .revBalanceFactor) revBalanceFactor)
    (hK : ∀ R, 0 < K R ∧ K R < 2 ^ 45) (h0 : c.regs zr = 0)
    (hs : ∀ i < 3, frame (c.regs sp) i ∈ Z.free) (h : Z.At q c) :
    Z.Ends (Looping Z q) c := by
  have h' : Z.At (q + 0) c := h
  have hsaves : Saves [1, 2] := by decide
  refine h'.run hz (prologue [1, 2] ++ [ldr 1 rr (.imm 0), ldr 2 1 (.imm 0), ldr rr rr (.imm 1),
    shf 2 2 3, shf 2 2 (-3)]) ⟨_, rfl⟩ (by decide) (fun x hx => ?_) fun c₁ h₁ s₁ => ?_
  · have h4 : ∀ x ∈ writes q (prologue [1, 2]) c, ∃ i ≤ 2, x = Routine.frame (c.regs sp) i :=
      (prologue_spec hsaves).2.2.2
    rw [Nat.add_zero, writes_append, List.mem_append] at hx
    rcases hx with hx | hx
    · obtain ⟨i, hi, rfl⟩ := h4 x hx
      exact hs i (Nat.lt_succ_of_le hi)
    · simp [writes] at hx
  have hzr : c₁.regs zr = 0 := by
    rw [s₁.regs zr (by decide), block_regs (by decide) (by decide), h0]
  refine h₁.call hz (revBalanceFactor_serves hrev) ⟨_, rfl⟩ (hK _) hzr (by simp)
    fun c₂ h₂ _ hlr _ _ => ⟨c₂, .refl, hlr, 12, le_rfl, by omega, h₂⟩

/-! ### Calls -/

variable {R S : Name}

/-- The number of instructions of a routine -/
def size : Name → ℕ
  | .getParent => 5
  | .getBalanceFactor => 6
  | .revBalanceFactor => 9
  | .balanceFactor => 14
  | .setBalanceFactor => 19
  | .avlMove => 63
  | .avlRotateLeft => 80
  | .avlRotateRight => 82

lemma code_length (K : Name → ℕ) (R : Name) : (code K R).length = size R := by
  cases R with
  | avlMove => rw [code_move]; rfl
  | avlRotateLeft => exact (congrArg _ (code_rotation K .R)).trans rfl
  | avlRotateRight => exact (congrArg _ (code_rotation K .L)).trans rfl
  | _ => rfl

lemma size_le (R : Name) : size R ≤ 82 := by cases R <;> decide

lemma Call.holds (h : Call K R c) (hS : S ∈ R :: callees R) :
    (callZone K R c).Holds (K S) (code K S) := by
  have hplace {k : ℕ} (hk : k < (code K S).length) : K S + k ∈ places K R (c.regs pc) :=
    .inr (.inr ⟨S, hS, k, hk, rfl⟩)
  refine ⟨h.loaded S hS, fun k hk => hplace hk, fun k hk => ?_, ?_⟩
  · rintro (hfree | hfree)
    · exact hfree (h.apart _ (hplace hk)).1
    · exact (h.apart _ (hplace hk)).2 hfree
  · have := size_le S
    rw [code_length]
    have := (h.bound S).2
    unfold wordMod
    omega

/-- The state in which the routine starts -/
structure Entered (K : Name → ℕ) (R : Name) (c c₀ : Cpu) : Prop where
  runs : (callZone K R c).Runs c c₀
  here : (callZone K R c).At (K R) c₀
  link : c₀.regs lr = c.regs pc + 2
  regs : ∀ r, r ∉ [lr, pc] → c₀.regs r = c.regs r
  mem : c₀.mem = c.mem

/-- **The jump** to the routine -/
lemma Call.enter (h : Call K R c) : ∃ c₀, Entered K R c c₀ := by
  have hplace {k : ℕ} (hk : k < 2) : c.regs pc + k ∈ places K R (c.regs pc) := by
    have hk' : k = 0 ∨ k = 1 := by omega
    rcases hk' with rfl | rfl
    · exact .inl rfl
    · exact .inr (.inl rfl)
  have hz : (callZone K R c).Holds (c.regs pc) (callb (K R)) := by
    refine ⟨h.site, fun k hk => hplace hk, fun k hk => ?_, h.room⟩
    rintro (hfree | hfree)
    · exact hfree (h.apart _ (hplace hk)).1
    · exact (h.apart _ (hplace hk)).2 hfree
  have hc : (callZone K R c).At (c.regs pc + 0) c := ⟨h.real, rfl, h.running, fun x _ => rfl⟩
  obtain ⟨c₀, h1, h2, h3, h4, h5⟩ := hc.callb hz (List.prefix_refl _) (h.bound R) h.zero
  exact ⟨c₀, h1, h2, h3, h4, h5⟩

lemma Entered.stack (h : Entered K R c c₀) :
    ∀ i < depth R, frame (c₀.regs sp) i ∈ (callZone K R c).free := fun i hi =>
  .inl fun hclear => hclear i hi (by rw [h.regs sp (by decide)])

lemma Entered.returns (h : Entered K R c c₀)
    (hends : (callZone K R c).Ends (fun c' => (callZone K R c).At (c₀.regs lr) c' ∧
      ∀ r, r ∉ [rr, pc] → c'.regs r = c₀.regs r) c₀) : Returns K R c := by
  obtain ⟨c', hruns, hc', hregs⟩ := hends
  refine ⟨c', h.runs.trans hruns, hc'.counter.trans h.link, fun r hr => ?_⟩
  have hr' : r ∉ [rr, pc] ∧ r ∉ [lr, pc] := by
    simp only [List.mem_cons, List.not_mem_nil, or_false] at hr
    rcases hr with rfl | rfl | rfl | rfl | rfl | rfl | rfl | rfl | rfl <;> decide
  rw [hregs r hr'.1, h.regs r hr'.2]

/-- A call does not return if it gets to where it does not leave the code any more. -/
lemma Call.not_returns (h : Call K R c)
    (hends : (callZone K R c).Ends (fun c₁ => ∀ c', (callZone K R c).Runs c₁ c' →
      c'.regs pc ∈ places K R (c.regs pc)) c) : ¬ Returns K R c := by
  rintro ⟨c', hruns, hpc, -⟩
  obtain ⟨c₁, hruns₁, hstay⟩ := hends
  have hout : c'.regs pc ∉ places K R (c.regs pc) := hpc ▸ h.back
  rcases hruns.total hruns₁ with hr | hr
  · obtain rfl := hr.ended hout
    exact hout (hstay _ .refl)
  · exact hout (hstay _ hr)

/-- When a call returns -/
def Well (R : Name) (m : Mem) (arg : ℕ) : Prop :=
  R ≠ .setBalanceFactor ∧ (R = .avlMove →
    MovesWell m (m (addr arg)) (m (addr (arg + 1))) (m (addr (arg + 2))))

lemma Call.setBalanceFactor_stays (h : Call K .setBalanceFactor c) :
    ¬ Returns K .setBalanceFactor c := by
  obtain ⟨c₀, he⟩ := h.enter
  have hz := h.holds (S := .setBalanceFactor) (by simp)
  refine h.not_returns (Zone.Runs.ends he.runs ((setBalanceFactor_loops hz
    (h.holds (S := .revBalanceFactor) (by simp [callees])) h.bound
    ((he.regs zr (by decide)).trans h.zero) he.stack he.here).imp fun c₁ h₁ c' h' => ?_))
  obtain ⟨-, k, -, hk, hc'⟩ := h₁.runs hz h'
  rw [hc'.counter]
  exact hz.inside k hk

lemma Call.serves {f : Mem → ℕ → ℕ} (h : Call K R c)
    (hs : (callZone K R c).Serves (K R) (depth R) f) : Returns K R c := by
  obtain ⟨c₀, he⟩ := h.enter
  refine he.returns ((hs c₀ he.here (by rw [he.link]; omega)
    ((he.regs zr (by decide)).trans h.zero) he.stack).imp fun c' ⟨h1, h2, _⟩ => ⟨h1, h2⟩)

lemma Call.called {rs : List ℕ} (h : Call K R c) (he : Entered K R c c₀) (hrs : Saves rs)
    (hlen : rs.length < depth R) (hbp : bp ∈ rs) :
    (callZone K R c).Called (K R) (code K R) c₀ rs :=
  ⟨h.holds (by simp), hrs, fun i hi => he.stack i (by omega), hbp⟩

lemma Call.callees (h : Call K R c) :
    ∀ S, S ∈ callees R → (callZone K R c).Holds (K S) (code K S) := fun S hS =>
  h.holds (by simp [hS])

/-- The words that a call reads and updates are apart from the stack. -/
lemma Call.clear (h : Call K R c) (he : Entered K R c c₀) {x : ℕ}
    (hx : x ∈ reads R c.mem (c.regs rr)) : Clear (c₀.regs sp) (depth R) x := by
  rw [he.regs sp (by decide)]
  exact h.stack x (List.mem_append_left _ hx)

lemma Call.free (h : Call K R c) (he : Entered K R c c₀) {x : ℕ}
    (hx : x ∈ updates R c.mem (c.regs rr)) :
    Clear (c₀.regs sp) (depth R) x ∧ x ∈ (callZone K R c).free := by
  rw [he.regs sp (by decide)]
  exact ⟨h.stack x (List.mem_append_right _ hx), .inr hx⟩

lemma Call.moves (h : Call K .avlMove c) (he : Entered K .avlMove c c₀) :
    Moves (callZone K .avlMove c) c₀ (c.mem (addr (c.regs rr))) (c.mem (addr (c.regs rr + 1)))
      (c.mem (addr (c.regs rr + 2))) := by
  have hrr := he.regs rr (by decide)
  refine ⟨?_, ?_, ?_, fun i hi => ?_, ?_, fun i hi => ?_, fun i hi => ?_, fun x hx => ?_, ?_, ?_⟩
  · rw [he.mem, hrr]
  · rw [he.mem, hrr]
  · rw [he.mem, hrr]
  · rw [hrr]
    refine h.clear he ?_
    simp only [List.mem_cons, List.not_mem_nil, or_false] at hi
    rcases hi with rfl | rfl | rfl <;> simp [reads]
  · exact h.clear he (by simp [reads])
  · refine h.clear he ?_
    simp only [List.mem_cons, List.not_mem_nil, or_false] at hi
    rcases hi with rfl | rfl | rfl | rfl <;> simp [reads]
  · rw [he.regs sp (by decide)]
    refine h.null i ?_
    simp only [List.mem_cons, List.not_mem_nil, or_false] at hi
    omega
  · rw [he.mem] at hx
    exact h.free he hx
  · rw [he.mem]
    exact h.placed.2
  · exact h.placed.1

lemma Call.avlMove_returns (h : Call K .avlMove c) :
    Returns K .avlMove c ↔ MovesWell c.mem (c.mem (addr (c.regs rr)))
      (c.mem (addr (c.regs rr + 1))) (c.mem (addr (c.regs rr + 2))) := by
  obtain ⟨c₀, he⟩ := h.enter
  have hm := h.moves he
  have hR := h.called he (show Saves KernelMove.saved by decide) (by decide) (by decide)
  have h0 : c₀.regs zr = 0 := (he.regs zr (by decide)).trans h.zero
  rw [code_move] at hR
  constructor
  · contrapose!
    intro hw
    refine h.not_returns (Zone.Runs.ends he.runs ((move_stuck hR h.callees h.bound h0 he.stack
      he.here hm ?_ (he.mem ▸ hw)).imp fun c₁ ⟨hpc, hstuck⟩ c' hruns => ?_))
    · rintro x hx hx' (hfree | hfree)
      · exact hfree (he.regs sp (by decide) ▸ hx)
      · exact hx' (he.mem ▸ hfree)
    · rcases hruns.cases_head with rfl | ⟨d, hstep, -⟩
      · exact hpc
      · exact absurd hstep (hstuck d)
  · intro hw
    exact he.returns (move_ends hR h.callees h.bound h0 he.stack he.here
      (by rw [he.link]; omega) hm (he.mem ▸ hw))

/-- A rotation returns, with the memory that it computes. -/
lemma Call.rotates {d : Dir} (h : Call K (rotation d) c) :
    ∃ c₀, Entered K (rotation d) c c₀ ∧ (callZone K (rotation d) c).Ends
      (Returned (callZone K (rotation d) c) c₀ 8
        (rotateAt d c.mem (c.mem (addr (c.regs rr))) (c.mem (addr (c.regs rr + 1)))).2
        (rotateAt d c.mem (c.mem (addr (c.regs rr))) (c.mem (addr (c.regs rr + 1)))).1) c₀ := by
  obtain ⟨c₀, he⟩ := h.enter
  have hd : depth (rotation d) = 8 := by cases d <;> rfl
  have hR := h.called he (show Saves KernelRotate.saved by decide) (by rw [hd]; decide) (by decide)
  have h0 : c₀.regs zr = 0 := (he.regs zr (by decide)).trans h.zero
  rw [code_rotation] at hR
  have hstack := he.stack
  rw [hd] at hstack
  have hclear {x : ℕ} (hx : x ∈ reads (rotation d) c.mem (c.regs rr)) := hd ▸ h.clear he hx
  have hupd : updates (rotation d) c.mem (c.regs rr) =
      rotateWords d c.mem (c.mem (addr (c.regs rr))) (c.mem (addr (c.regs rr + 1))) := by
    cases d <;> rfl
  have hreads : reads (rotation d) c.mem (c.regs rr) = [addr (c.regs rr), addr (c.regs rr + 1)] ++
      if c.mem (addr (c.regs rr + 1)) = 0 then [] else
        [addr (c.mem (addr (c.regs rr + 1)) + 1), addr (c.mem (addr (c.regs rr + 1)) + 2)] := by
    cases d <;> rfl
  have hends := rotation_ends hR h.callees h.bound h0 hstack he.here (by rw [he.link]; omega)
    (he.regs rr (by decide)) rfl rfl ?_ ?_ ?_ ?_
  · rw [he.mem] at hends
    exact ⟨c₀, he, hends⟩
  · rw [he.mem]
    have := h.placed
    cases d <;> exact this
  · intro i hi
    refine hclear ?_
    rw [hreads]
    simp only [List.mem_cons, List.not_mem_nil, or_false] at hi
    rcases hi with rfl | rfl <;> simp
  · rw [he.mem]
    intro hnd
    refine hclear ?_
    rw [hreads, if_neg hnd]
    cases d <;> simp [off]
  · rw [he.mem]
    intro x hx
    rw [← hupd] at hx
    exact hd ▸ h.free he hx

/-! ### An image of the routines -/

/-- Where the routines are -/
def place : Name → ℕ
  | .getParent => 128
  | .getBalanceFactor => 256
  | .balanceFactor => 384
  | .revBalanceFactor => 512
  | .setBalanceFactor => 640
  | .avlMove => 768
  | .avlRotateLeft => 896
  | .avlRotateRight => 1024

/-- The routine in the `n`-th part of the memory -/
def routineAt : ℕ → Option Name
  | 1 => some .getParent
  | 2 => some .getBalanceFactor
  | 3 => some .balanceFactor
  | 4 => some .revBalanceFactor
  | 5 => some .setBalanceFactor
  | 6 => some .avlMove
  | 7 => some .avlRotateLeft
  | 8 => some .avlRotateRight
  | _ => none

/-- The word `k` of a list of instructions -/
def wordAt (prog : List Instr) (k : ℕ) : ℕ := (prog[k]?.map Instr.word).getD 0

/-- The routines, a call of `R` at 2048, and the words `data` from 3000 on -/
def image (R : Name) (data : List ℕ) : Mem := fun x =>
  if x < 2048 then ((routineAt (x / 128)).map fun S => wordAt (code place S) (x % 128)).getD 0
  else if x < 3000 then wordAt (callb (place R)) (x - 2048)
  else data.getD (x - 3000) 0

/-- The state at the call of `R` with the argument `arg` -/
def caller (R : Name) (arg : ℕ) (data : List ℕ) : Cpu where
  regs r := if r = pc then 2048 else if r = sp then 4000 else if r = rr then arg
    else if r = sr then excContMask else 0
  mem := image R data

lemma word_lt (R : Name) : ∀ i ∈ code place R, i.word < wordMod := by
  cases R <;> decide +kernel

lemma callb_word_lt (R : Name) : ∀ i ∈ callb (place R), i.word < wordMod := by
  cases R <;> decide +kernel

lemma wordAt_lt {prog : List Instr} (h : ∀ i ∈ prog, i.word < wordMod) (k : ℕ) :
    wordAt prog k < wordMod := by
  unfold wordAt
  cases hk : prog[k]? with
  | none => decide
  | some i => exact h i (List.mem_of_getElem? hk)

lemma image_lt {R : Name} {data : List ℕ} (h : ∀ w ∈ data, w < wordMod) (x : ℕ) :
    image R data x < wordMod := by
  unfold image
  split_ifs
  · cases routineAt (x / 128) with
    | none => exact (by decide : 0 < wordMod)
    | some S => exact wordAt_lt (word_lt S) _
  · exact wordAt_lt (callb_word_lt R) _
  · rw [List.getD_eq_getElem?_getD]
    cases hk : data[x - 3000]? with
    | none => decide
    | some w => exact h w (List.mem_of_getElem? hk)

lemma routineAt_place (S : Name) {k : ℕ} (hk : k < 128) :
    place S + k < 2048 ∧ routineAt ((place S + k) / 128) = some S ∧ (place S + k) % 128 = k := by
  have hdiv (n : ℕ) : (n * 128 + k) / 128 = n := by omega
  have hmod (n : ℕ) : (n * 128 + k) % 128 = k := by omega
  cases S
  all_goals
    refine ⟨by simp only [place]; omega, ?_, by simp only [place]; omega⟩
  · exact congrArg routineAt (hdiv 1)
  · exact congrArg routineAt (hdiv 2)
  · exact congrArg routineAt (hdiv 3)
  · exact congrArg routineAt (hdiv 4)
  · exact congrArg routineAt (hdiv 5)
  · exact congrArg routineAt (hdiv 6)
  · exact congrArg routineAt (hdiv 7)
  · exact congrArg routineAt (hdiv 8)

lemma image_loaded (R S : Name) (data : List ℕ) :
    Loaded (place S) (code place S) (image R data) := by
  intro k i hi
  have hk := (List.getElem?_eq_some_iff.mp hi).1
  rw [code_length] at hk
  have := size_le S
  obtain ⟨h1, h2, h3⟩ := routineAt_place S (k := k) (by omega)
  have haddr : addr (place S + k) = place S + k := Nat.mod_eq_of_lt (by unfold addrSpace; omega)
  rw [haddr, image, if_pos h1, h2, h3]
  simp [wordAt, hi]

lemma places_lt {R : Name} {x : ℕ} (hx : x ∈ places place R 2048) : x < 2050 := by
  rcases hx with rfl | rfl | ⟨S, -, k, hk, rfl⟩
  · decide
  · decide
  · rw [code_length] at hk
    have := size_le S
    have := (routineAt_place S (k := k) (by omega)).1
    omega

lemma caller_regs (R : Name) (arg : ℕ) (data : List ℕ) (r : ℕ) :
    (caller R arg data).regs r = if r = pc then 2048 else if r = sp then 4000
      else if r = rr then arg else if r = sr then excContMask else 0 := rfl

/-- The words from 3000 to 4000 are apart from the stack. -/
lemma clear_of_lt {n x : ℕ} (hn : n ≤ 8) (hx : x ≤ 4000) : Clear 4000 n x := by
  intro i hi heq
  rw [frame, addr, Nat.mod_eq_of_lt (by unfold addrSpace; omega)] at heq
  omega

lemma depth_le (R : Name) : depth R ≤ 8 := by cases R <;> decide

lemma caller_real {R : Name} {arg : ℕ} {data : List ℕ} (hdata : ∀ w ∈ data, w < wordMod)
    (harg : arg < wordMod) : Real (caller R arg data) := by
  refine ⟨⟨(caller R arg data).regs, fun _ => 0, image R data⟩, ⟨fun r => ?_, image_lt hdata⟩, ?_⟩
  · change (caller R arg data).regs r < wordMod
    rw [caller_regs]
    have h1 : excContMask < wordMod := by decide
    have h2 : (4000 : ℕ) < wordMod := by decide
    split_ifs <;> omega
  · refine congrArg (Cpu.mk · _) (funext fun r => ?_)
    have hr : pc < numRegs ∧ sp < numRegs ∧ rr < numRegs ∧ sr < numRegs := by decide
    change (if r < numRegs then (caller R arg data).regs r else 0) = (caller R arg data).regs r
    rw [caller_regs]
    split_ifs <;> omega

/-- **A call** in the image -/
lemma caller_call {R : Name} {arg : ℕ} {data : List ℕ} (hdata : ∀ w ∈ data, w < wordMod)
    (harg : arg < wordMod) (hplaced : Placed R (image R data) arg)
    (hwords : ∀ x ∈ reads R (image R data) arg ++ updates R (image R data) arg,
      3000 ≤ x ∧ x ≤ 4000) : Call place R (caller R arg data) := by
  have hmem : (caller R arg data).mem = image R data := rfl
  have hpc : (caller R arg data).regs pc = 2048 := rfl
  have hsp : (caller R arg data).regs sp = 4000 := rfl
  have hrr : (caller R arg data).regs rr = arg := rfl
  have hzr : (caller R arg data).regs zr = 0 := rfl
  have hsr : (caller R arg data).regs sr = excContMask := by simp +decide [caller_regs]
  have hreal := caller_real (R := R) hdata harg
  generalize caller R arg data = c at *
  refine ⟨hreal, ?_, hzr, ?_, fun S _ => hmem ▸ image_loaded R S data, fun S => ?_, ?_, ?_, ?_,
    fun x hx => ?_, fun x hx => ?_, fun x hx => ?_⟩
  · rw [hsr]
    decide
  · rw [hpc, hmem]
    intro k i hi
    have hk := (List.getElem?_eq_some_iff.mp hi).1
    rw [show (callb (place R)).length = 2 from rfl] at hk
    have haddr : addr (2048 + k) = 2048 + k := Nat.mod_eq_of_lt (by unfold addrSpace; omega)
    rw [haddr, image, if_neg (by omega), if_pos (by omega), Nat.add_sub_cancel_left]
    simp [wordAt, hi]
  · cases S <;> decide
  · rw [hpc]
    decide
  · rw [hpc]
    exact fun h => absurd (places_lt h) (by omega)
  · rwa [hmem, hrr]
  · rw [hmem, hrr] at hx
    rw [hsp]
    exact clear_of_lt (depth_le R) (hwords x hx).2
  · rw [hsp]
    exact clear_of_lt (depth_le R) (by omega)
  · rw [hpc] at hx
    have hlt := places_lt hx
    have haddr : addr x = x := Nat.mod_eq_of_lt (by unfold addrSpace; omega)
    rw [haddr, hsp, hmem, hrr]
    refine ⟨clear_of_lt (depth_le R) (by omega), fun h => ?_⟩
    have := (hwords x (List.mem_append_right _ h)).1
    omega

/-! ### Returning -/

/-- **Kernel routines return** to their caller but for `set_balance_factor`, and for a move of a
node without a parent that writes to a link of the null node. -/
theorem call_returns_iff (h : Call K R c) : Returns K R c ↔ Well R c.mem (c.regs rr) := by
  have hself := h.holds (S := R) (by simp)
  have hrotation {d : Dir} (hd : R = rotation d) : Returns K R c := by
    subst hd
    obtain ⟨c₀, he, hends⟩ := h.rotates
    exact he.returns (hends.imp fun c' h => ⟨h.here, h.regs⟩)
  cases R with
  | setBalanceFactor => exact iff_of_false h.setBalanceFactor_stays fun hw => hw.1 rfl
  | avlMove =>
    rw [h.avlMove_returns]
    exact ⟨fun hw => ⟨by simp, fun _ => hw⟩, fun hw => hw.2 rfl⟩
  | getParent => exact iff_of_true (h.serves (getParent_serves hself)) (by simp [Well])
  | getBalanceFactor =>
    exact iff_of_true (h.serves (getBalanceFactor_serves hself)) (by simp [Well])
  | revBalanceFactor =>
    exact iff_of_true (h.serves (revBalanceFactor_serves hself)) (by simp [Well])
  | balanceFactor =>
    exact iff_of_true (h.serves (balanceFactor_serves hself
      (h.callees .getBalanceFactor (by simp [Kernel.callees])) (h.bound _))) (by simp [Well])
  | avlRotateLeft => exact iff_of_true (hrotation (d := .R) rfl) (by simp [Well])
  | avlRotateRight => exact iff_of_true (hrotation (d := .L) rfl) (by simp [Well])

/-- A right rotation of the node at 3004 -/
theorem call_returns_iff_rotation :
    Returns place .avlRotateRight
      (caller .avlRotateRight 3000 [3002, 3004, 3004, 0, 2, 3008, 0, 5, 24035, 0, 0, 7]) :=
  (call_returns_iff (caller_call (by decide) (by decide)
    (by decide +kernel) (by decide +kernel))).mpr ⟨by simp, by simp⟩

/-- The balance of the node at 3004 is set to 0. -/
theorem not_call_returns :
    Call place .setBalanceFactor (caller .setBalanceFactor 3000 [3004, 0, 0, 0, 1, 0, 0, 5]) ∧
      ¬ Returns place .setBalanceFactor
        (caller .setBalanceFactor 3000 [3004, 0, 0, 0, 1, 0, 0, 5]) := by
  have h : Call place .setBalanceFactor
      (caller .setBalanceFactor 3000 [3004, 0, 0, 0, 1, 0, 0, 5]) :=
    caller_call (by decide) (by decide) (by decide +kernel) (by decide +kernel)
  exact ⟨h, h.setBalanceFactor_stays⟩

end LispMachine.KernelReturn
