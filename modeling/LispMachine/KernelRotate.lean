import LispMachine.Body
import LispMachine.KernelCalls

/-!
What the rotations of `kernel` do.
-/

namespace LispMachine.KernelRotate

open LispMachine.Memory LispMachine.Asm LispMachine.AsmRef LispMachine.MachineStep
open LispMachine.MachineRun LispMachine.Routine LispMachine.Body LispMachine.Kernel
open LispMachine.KernelCalls LispMachine.AvlCode LispMachine.Lib.BalTree
open LispMachine.Machine hiding ldr str shf

/-- The routine that moves the child in direction `d` up -/
def rotation : Dir → Name
  | .L => .avlRotateRight
  | .R => .avlRotateLeft

/-- The first label of a rotation that all paths reach -/
def lab : Dir → ℕ
  | .L => 27
  | .R => 25

/-- The registers that a rotation saves -/
def saved : List ℕ := [lr, 1, 2, 3, 4, bp]

/-- The link of a node in direction `d` -/
def link (m : Mem) (d : Dir) (x : ℕ) : ℕ := m (addr (x + off d))

/-- The new parent of the inner grandchild, as it is put in. The left rotation does not make a byte
address of it. -/
def raised : Dir → ℕ → ℕ
  | .L, x => shifted x (-3)
  | .R, x => x

/-- The node after that -/
def lowered : Dir → ℕ → ℕ
  | .L, x => shifted (shifted x (-3)) 3
  | .R, x => x

/-- Giving the node `x` the parent `p` -/
def adoptAt (d : Dir) (m : Mem) (x p : ℕ) : Mem := m.set (addr x) (tagAt m x ||| raised d p)

/-- Redirecting the link that leads to `old` -/
def relinkAt (m : Mem) (tr par old new : ℕ) : Mem :=
  if par = 0 then m.set (addr tr) new
  else if m (addr (par + 1)) = old then m.set (addr (par + 1)) new
  else m.set (addr (par + 2)) new

/-- The rest of a rotation of `nd`, its child `ch` and inner grandchild `gr` -/
def turnAt (d : Dir) (m : Mem) (par nd ch gr : ℕ) : Mem :=
  let lean := if balanceAt m ch = 0 then d.sgn else 0
  let m := (m.set (addr (nd + off d)) gr).set (addr (ch + off d.flip)) nd
  let m := m.set (addr nd) (shifted ch (-3) ||| revBalanceFactor lean)
  m.set (addr ch) (shifted par (-3) ||| revBalanceFactor (-lean))

/-- The memory after a rotation of `nd`, and what it returns -/
def rotateAt (d : Dir) (m : Mem) (tr nd : ℕ) : Mem × ℕ :=
  let ch := link m d nd
  if nd = 0 ∨ ch = 0 then (m, 0)
  else
    let gr := link m d.flip ch
    let m := if gr = 0 then m else adoptAt d m gr nd
    let par := parentAt m nd
    (turnAt d (relinkAt m tr par nd ch) par nd ch gr, ch)

/-- The words of the tree that a rotation is meant to update -/
def rotateWords (d : Dir) (m : Mem) (tr nd : ℕ) : List ℕ :=
  let ch := link m d nd
  let gr := link m d.flip ch
  let par := parentAt m nd
  if nd = 0 ∨ ch = 0 then []
  else [addr nd, addr (nd + off d), addr ch, addr (ch + off d.flip)] ++
    (if gr = 0 then [] else [addr gr]) ++
    (if par = 0 then [addr tr] else [addr (par + 1), addr (par + 2)])

/-- The node is an address, and not its own inner grandchild. -/
def rotatePlaced (d : Dir) (m : Mem) (nd : ℕ) : Prop :=
  nd < addrSpace ∧ (nd ≠ 0 → link m d.flip (link m d nd) ≠ 0 →
    addr (link m d.flip (link m d nd)) ≠ addr nd)

instance (d : Dir) (m : Mem) (nd : ℕ) : Decidable (rotatePlaced d m nd) := by
  unfold rotatePlaced
  infer_instance

/-- The start of a rotation: the node, its child and the inner grandchild -/
def entering (d : Dir) : List Instr := [
  ads sp sp (.imm 7),
  str fp sp (.imm (-6)),
  ads fp sp (.imm (-6)),
  str lr fp (.imm 1),
  str 1 fp (.imm 2),
  str 2 fp (.imm 3),
  str 3 fp (.imm 4),
  str 4 fp (.imm 5),
  str bp fp (.imm 6),
  ads bp pc (.imm (-9)),
  ldr 1 rr (.imm 0),
  ldr 2 rr (.imm 1),
  jnc 2 pc (.imm 2),
  jnc sr bp (.imm ↑(lab d + 45)),
  ldr 3 2 (.imm (off d)),
  jnc 3 pc (.imm 2),
  jnc sr bp (.imm ↑(lab d + 45)),
  ldr 4 3 (.imm (off d.flip)),
  jnc 4 bp (.imm 20),
  jnc sr bp (.imm (lab d))]

/-- The inner grandchild gets its new parent. -/
def adopting (d : Dir) (K : Name → ℕ) : List Instr :=
  ads rr 4 (.imm 0) :: ads lr pc (.imm 2) :: jnc sr zr (.imm (K .getBalanceFactor)) ::
  match d with
  | .L => [shf 2 2 (-3), orr rr rr (.reg 2), str rr 4 (.imm 0), shf 2 2 3]
  | .R => [orr rr rr (.reg 2), str rr 4 (.imm 0)]

/-- Loading the balance `b` of -1, 0 or 1 -/
def balancing (b : ℤ) : Instr := if b = 1 then ads rr zr (.imm 1) else sbs rr zr (.imm 1)

/-- The rest of a rotation -/
def turning (d : Dir) (K : Name → ℕ) : List Instr := [
  ads rr 2 (.imm 0),
  ads lr pc (.imm 2), jnc sr zr (.imm (K .getParent)),
  jnc rr pc (.imm 2),
  jnc sr bp (.imm ↑(lab d + 12)),
  ldr 1 rr (.imm 1),
  xor 1 1 (.reg 2),
  jnc 1 pc (.imm 3),
  str 3 rr (.imm 1),
  jnc sr bp (.imm ↑(lab d + 13)),
  str 3 rr (.imm 2),
  jnc sr bp (.imm ↑(lab d + 13)),
  str 3 1 (.imm 0),
  ads 1 rr (.imm 0),
  ads rr 3 (.imm 0),
  ads lr pc (.imm 2), jnc sr zr (.imm (K .balanceFactor)),
  str 4 2 (.imm (off d)),
  str 2 3 (.imm (off d.flip)),
  jnc rr bp (.imm ↑(lab d + 34)),
  balancing d.sgn,
  ads lr pc (.imm 2), jnc sr zr (.imm (K .revBalanceFactor)),
  shf 4 3 (-3),
  orr rr 4 (.reg rr),
  str rr 2 (.imm 0),
  balancing (-d.sgn),
  ads lr pc (.imm 2), jnc sr zr (.imm (K .revBalanceFactor)),
  shf 4 1 (-3),
  orr rr 4 (.reg rr),
  str rr 3 (.imm 0),
  ads rr 3 (.imm 0),
  jnc sr bp (.imm ↑(lab d + 46)),
  xor rr rr (.reg rr),
  ads lr pc (.imm 2), jnc sr zr (.imm (K .revBalanceFactor)),
  shf 4 3 (-3),
  orr 4 4 (.reg rr),
  str 4 2 (.imm 0),
  shf 4 1 (-3),
  orr 4 4 (.reg rr),
  str 4 3 (.imm 0),
  ads rr 3 (.imm 0),
  jnc sr bp (.imm ↑(lab d + 46)),
  xor rr rr (.reg rr),
  ldr bp fp (.imm 6),
  ldr 4 fp (.imm 5),
  ldr 3 fp (.imm 4),
  ldr 2 fp (.imm 3),
  ldr 1 fp (.imm 2),
  ldr lr fp (.imm 1),
  ldr fp fp (.imm 0),
  sbs sp sp (.imm 7),
  ret]

/-- The two rotations mirror each other but for the new parent of the inner grandchild. -/
def rotationCode (d : Dir) (K : Name → ℕ) : List Instr :=
  entering d ++ (adopting d K ++ turning d K)

variable {Z : Zone} {K : Name → ℕ} {d : Dir} {c₀ c : Cpu} {q n : ℕ} {Q : Cpu → Prop}
variable {ρ : ℕ → ℕ} {m m' : Mem} {r a p t g e f x v : ℕ}

lemma code_rotation (K : Name → ℕ) (d : Dir) : code K (rotation d) = rotationCode d K := by
  cases d
  all_goals
    simp only [code, rotation, Kernel.avlRotateLeft, Kernel.avlRotateRight, callb, rotationCode, entering,
      adopting, turning, List.cons_append, List.nil_append]
    rfl

lemma rotationCode_length (d : Dir) (K : Name → ℕ) :
    (rotationCode d K).length = lab d + 55 := by
  cases d <;> rfl

lemma toWord_off (d : Dir) : toWord (off d) = off d := by cases d <;> decide

section

variable (hR : Z.Called q (rotationCode d K) c₀ saved)
  (hz : ∀ R, R ∈ callees (rotation d) → Z.Holds (K R) (code K R))
  (hK : ∀ R, 0 < K R ∧ K R < 2 ^ 45) (h0 : c₀.regs zr = 0)
  (hs : ∀ i < 8, frame (c₀.regs sp) i ∈ Z.free)

include hR hz hK h0 hs in
/-- The inner grandchild gets its new parent. -/
lemma adopts (h : Body.At Z q c₀ saved 8 20 (file ρ m r a p t g e f) c)
    (hg : Clear (c₀.regs sp) 8 (addr g)) (hg' : addr g ∈ Z.free)
    (hQ : ∀ r' c', Body.At Z q c₀ saved 8 (lab d)
      (file ρ (adoptAt d m g p) r' a (lowered d p) t g e f) c' → Z.Ends Q c') : Z.Ends Q c := by
  have hn : saved.length < 8 := by decide
  have hlt : g < wordMod := h.regs_lt (r := 4) (by decide)
  have hget : Z.Holds (K .getBalanceFactor) getBalanceFactor :=
    hz .getBalanceFactor (by cases d <;> decide)
  refine h.run hR hn 21 [ads rr 4 (.imm 0)] (file ρ m g a p t g e f)
    (by cases d <;> exact ⟨_, rfl⟩) (by decide) rfl ?_ ?_ ?_ fun c₁ h₁ => ?_
  · simp [effect, val, toWord_small, wadd_zero hlt]
  · simp [stores]
  · simp [touches]
  refine h₁.call hR 23 (getBalanceFactor_serves hget) (by cases d <;> exact ⟨_, rfl⟩) (hK _)
    (by decide) ⟨h0, by decide⟩ (by decide) rfl hs
    (fun m' hm => tagAt_congr fun _ => hm _ hg) fun c₂ h₂ => ?_
  simp only [file_setReg_rr, file_mem, file_rr] at h₂
  cases d with
  | L =>
    refine h₂.run hR hn 27 [shf 2 2 (-3), orr rr rr (.reg 2), str rr 4 (.imm 0), shf 2 2 3] _
      ⟨_, rfl⟩ (by decide) rfl rfl ?_ ?_ fun c₃ h₃ => hQ (tagAt m g ||| shifted p (-3)) c₃ ?_
    · simp [stores, val, toWord_small, line_shf, hg']
    · simpa [touches, val, toWord_small, line_shf] using hg
    · simpa [effect, val, toWord_small, adoptAt, lowered, raised, lab, line_shf] using h₃
  | R =>
    refine h₂.run hR hn 25 [orr rr rr (.reg 2), str rr 4 (.imm 0)] _ ⟨_, rfl⟩ (by decide) rfl rfl
      ?_ ?_ fun c₃ h₃ => hQ (tagAt m g ||| p) c₃ ?_
    · simp [stores, val, toWord_small, hg']
    · simpa [touches, val, toWord_small] using hg
    · simpa [effect, val, toWord_small, adoptAt, lowered, raised, lab] using h₃

include hR hz hK h0 hs in
/-- The link to the node is redirected to its child. -/
lemma relinks (h : Body.At Z q c₀ saved 8 (lab d) (file ρ m r a p t g e f) c)
    (hp : p ≠ 0 → Clear (c₀.regs sp) 8 (addr p))
    (hroot : parentAt m p = 0 → Clear (c₀.regs sp) 8 (addr a) ∧ addr a ∈ Z.free)
    (hpar : parentAt m p ≠ 0 → ∀ i ∈ [1, 2], Clear (c₀.regs sp) 8 (addr (parentAt m p + i)) ∧
      addr (parentAt m p + i) ∈ Z.free)
    (hQ : ∀ a' c', Body.At Z q c₀ saved 8 (lab d + 13)
      (file ρ (relinkAt m a (parentAt m p) p t) (parentAt m p) a' p t g e f) c' → Z.Ends Q c') :
    Z.Ends Q c := by
  have hn : saved.length < 8 := by decide
  have hlt : p < wordMod := h.regs_lt (r := 2) (by decide)
  have hlen := rotationCode_length d K
  have hget : Z.Holds (K .getParent) getParent := hz .getParent (by cases d <;> decide)
  refine h.run hR hn (lab d + 1) [ads rr 2 (.imm 0)] (file ρ m p a p t g e f)
    (by cases d <;> exact ⟨_, rfl⟩) (by decide) rfl ?_ ?_ ?_ fun c₁ h₁ => ?_
  · simp [effect, val, toWord_small, wadd_zero hlt]
  · simp [stores]
  · simp [touches]
  refine h₁.call hR (lab d + 3) (getParent_serves hget) (by cases d <;> exact ⟨_, rfl⟩) (hK _)
    (by decide) ⟨h0, by decide⟩ (by decide) rfl hs
    (fun m' hm => parentAt_congr fun h => hm _ (hp h)) fun c₂ h₂ => ?_
  simp only [file_setReg_rr, file_mem, file_rr] at h₂
  refine h₂.branch hR (lab d + 5) rr pc 2 (by cases d <;> rfl) (by decide) (by decide)
    (.inr ⟨rfl, rfl⟩) (by omega) (by omega) (fun hne c₃ h₃ => ?_) fun heq c₃ h₃ => ?_
  · -- the node has a parent
    rw [file_rr] at hne
    obtain ⟨hp1, hp2⟩ : _ ∧ _ := by simpa using hpar hne
    refine h₃.run hR hn (lab d + 7) [ldr 1 rr (.imm 1), xor 1 1 (.reg 2)]
      (file ρ m (parentAt m p) (m (addr (parentAt m p + 1)) ^^^ p) p t g e f)
      (by cases d <;> exact ⟨_, rfl⟩) (by decide) rfl ?_ ?_ ?_ fun c₄ h₄ => ?_
    · simp [effect, val, toWord_small]
    · simp [stores]
    · simpa [touches, val, toWord_small] using hp1.1
    refine h₄.branch hR (lab d + 10) 1 pc 3 (by cases d <;> rfl) (by decide) (by decide)
      (.inr ⟨rfl, rfl⟩) (by omega) (by omega) (fun hne' c₅ h₅ => ?_) fun heq' c₅ h₅ => ?_
    · -- the node is not a left child
      have hlink : m (addr (parentAt m p + 1)) ≠ p := fun h => hne' (by simp [h])
      refine h₅.run hR hn (lab d + 11) [str 3 rr (.imm 2)] _ (by cases d <;> exact ⟨_, rfl⟩)
        (by decide) rfl rfl ?_ ?_ fun c₆ h₆ => ?_
      · simp [stores, val, toWord_small, hp2.2]
      · simp [touches, val, toWord_small, hp2.1]
      refine h₆.goto hR (lab d + 13) bp (lab d + 13) (by cases d <;> rfl)
        (by cases d <;> decide) (.inl ⟨rfl, rfl⟩) (by omega) (by omega) fun c₇ h₇ =>
        hQ (m (addr (parentAt m p + 1)) ^^^ p) c₇ ?_
      simpa [effect, val, toWord_small, relinkAt, hne, hlink] using h₇
    · have hlink : m (addr (parentAt m p + 1)) = p := Nat.xor_eq_zero_iff.mp heq'
      refine h₅.run hR hn (lab d + 9) [str 3 rr (.imm 1)] _ (by cases d <;> exact ⟨_, rfl⟩)
        (by decide) rfl rfl ?_ ?_ fun c₆ h₆ => ?_
      · simp [stores, val, toWord_small, hp1.2]
      · simp [touches, val, toWord_small, hp1.1]
      refine h₆.goto hR (lab d + 13) bp (lab d + 13) (by cases d <;> rfl)
        (by cases d <;> decide) (.inl ⟨rfl, rfl⟩) (by omega) (by omega) fun c₇ h₇ =>
        hQ (m (addr (parentAt m p + 1)) ^^^ p) c₇ ?_
      simpa [effect, val, toWord_small, relinkAt, hne, hlink] using h₇
  · -- the node is the root
    rw [file_rr] at heq
    obtain ⟨ha, ha'⟩ := hroot heq
    refine h₃.goto hR (lab d + 12) bp (lab d + 12) (by cases d <;> rfl)
      (by cases d <;> decide) (.inl ⟨rfl, rfl⟩) (by omega) (by omega) fun c₄ h₄ => ?_
    refine h₄.run hR hn (lab d + 13) [str 3 1 (.imm 0)] _ (by cases d <;> exact ⟨_, rfl⟩)
      (by decide) rfl rfl ?_ ?_ fun c₅ h₅ => hQ a c₅ ?_
    · simp [stores, val, toWord_small, ha']
    · simp [touches, val, toWord_small, ha]
    simpa [effect, val, toWord_small, relinkAt, heq] using h₅

lemma effect_clear (ρ : ℕ → ℕ) (m : Mem) (r a b t g e f : ℕ) :
    effect [xor rr rr (.reg rr)] (file ρ m r a b t g e f) = file ρ m 0 a b t g e f := by
  simp [effect, val]

lemma tagOf_zero (m : Mem) : tagOf m 0 = revBalanceFactor 0 := rfl

lemma tagOf_sgn (m : Mem) (d : Dir) :
    tagOf m (toWord d.sgn) = revBalanceFactor d.sgn ∧
      tagOf m (toWord (-d.sgn)) = revBalanceFactor (-d.sgn) := by
  cases d <;> exact ⟨rfl, rfl⟩

/-- The instruction that loads a balance -/
lemma balancing_spec {s : ℤ} (hs : s = 1 ∨ s = -1) :
    Bodily saved [balancing s] ∧ (∀ c : Cpu, stores [balancing s] c = []) ∧
      (∀ c : Cpu, touches [balancing s] c = []) ∧
      (ρ 0 = 0 → effect [balancing s] (file ρ m r a p t g e f) =
        file ρ m (toWord s) a p t g e f) := by
  rcases hs with rfl | rfl
  · refine ⟨by decide, fun c => ?_, fun c => ?_, fun h => ?_⟩
    · simp [balancing, stores]
    · simp [balancing, touches]
    · simp [balancing, effect, val, toWord_small, h, wadd, wordMod]
  · refine ⟨by decide, fun c => ?_, fun c => ?_, fun h => ?_⟩
    · simp [balancing, stores]
    · simp [balancing, touches]
    · simp [balancing, effect, val, h, wsub, toWord, wordMod]

include hR hz hK h0 hs in
/-- The node and its child change places. -/
lemma turns (h : Body.At Z q c₀ saved 8 (lab d + 13) (file ρ m p a v t g e f) c)
    (hρ : ρ 0 = 0)
    (hv : ∀ i ∈ [0, off d], Clear (c₀.regs sp) 8 (addr (v + i)) ∧ addr (v + i) ∈ Z.free)
    (ht : ∀ i ∈ [0, off d.flip], Clear (c₀.regs sp) 8 (addr (t + i)) ∧ addr (t + i) ∈ Z.free)
    (hQ : ∀ g' c', Body.At Z q c₀ saved 8 (lab d + 46)
      (file ρ (turnAt d m p v t g) t p v t g' e f) c' → Z.Ends Q c') : Z.Ends Q c := by
  have hn : saved.length < 8 := by decide
  have hlen := rotationCode_length d K
  have hlt : p < wordMod := h.regs_lt (r := rr) (by decide)
  have hlt' : t < wordMod := h.regs_lt (r := 3) (by decide)
  have hbal : Z.Holds (K .balanceFactor) (balanceFactor K) :=
    hz .balanceFactor (by cases d <;> decide)
  have hget : Z.Holds (K .getBalanceFactor) getBalanceFactor :=
    hz .getBalanceFactor (by cases d <;> decide)
  have hrev : Z.Holds (K .revBalanceFactor) revBalanceFactor :=
    hz .revBalanceFactor (by cases d <;> decide)
  obtain ⟨⟨hv0, hv0'⟩, hv1, hv1'⟩ : _ ∧ _ := by simpa using hv
  obtain ⟨⟨ht0, ht0'⟩, ht1, ht1'⟩ : _ ∧ _ := by simpa using ht
  refine h.run hR hn (lab d + 15) [ads 1 rr (.imm 0), ads rr 3 (.imm 0)]
    (file ρ m t p v t g e f) (by cases d <;> exact ⟨_, rfl⟩) (by decide) rfl ?_ ?_ ?_
    fun c₁ h₁ => ?_
  · simp [effect, val, toWord_small, wadd_zero hlt, wadd_zero hlt']
  · simp [stores]
  · simp [touches]
  refine h₁.call hR (lab d + 17) (balanceFactor_serves hbal hget (hK _))
    (by cases d <;> exact ⟨_, rfl⟩) (hK _) (by decide) ⟨h0, by decide⟩ (by decide) rfl hs
    (fun m' hm => balanceAt_congr fun _ => hm _ ht0) fun c₂ h₂ => ?_
  simp only [file_setReg_rr, file_mem, file_rr] at h₂
  set M := (m.set (addr (v + off d)) g).set (addr (t + off d.flip)) v with hM
  refine h₂.run hR hn (lab d + 19) [str 4 2 (.imm (off d)), str 2 3 (.imm (off d.flip))]
    (file ρ M (balanceAt m t) p v t g e f) (by cases d <;> exact ⟨_, rfl⟩)
    (by cases d <;> decide) rfl ?_ ?_ ?_ fun c₃ h₃ => ?_
  · simp [effect, val, toWord_off, hM]
  · simp [stores, val, toWord_off, hv1', ht1']
  · simp [touches, val, toWord_off, hv1, ht1]
  have hsgn : d.sgn = 1 ∨ d.sgn = -1 := by cases d <;> decide
  have hsgn' : -d.sgn = 1 ∨ -d.sgn = -1 := by cases d <;> decide
  refine h₃.branch hR (lab d + 34) rr bp (lab d + 34) (by cases d <;> rfl)
    (by cases d <;> decide) (by decide) (.inl ⟨rfl, rfl⟩) (by omega) (by omega)
    (fun hne c₄ h₄ => ?_) fun heq c₄ h₄ => ?_
  · -- the child leans to one side
    rw [file_rr] at hne
    refine h₄.run hR hn (lab d + 35) [xor rr rr (.reg rr)] (file ρ M 0 p v t g e f)
      (by cases d <;> exact ⟨_, rfl⟩) (by decide) rfl (effect_clear ..) ?_ ?_ fun c₅ h₅ => ?_
    · simp [stores]
    · simp [touches]
    refine h₅.call hR (lab d + 37) (revBalanceFactor_serves hrev)
      (by cases d <;> exact ⟨_, rfl⟩) (hK _) (by decide) ⟨h0, by decide⟩ (by decide) rfl hs
      (fun m' _ => tagOf_zero m') fun c₆ h₆ => ?_
    simp only [file_setReg_rr] at h₆
    refine h₆.run hR hn (lab d + 44) [shf 4 3 (-3), orr 4 4 (.reg rr), str 4 2 (.imm 0),
      shf 4 1 (-3), orr 4 4 (.reg rr), str 4 3 (.imm 0), ads rr 3 (.imm 0)]
      (file ρ (turnAt d m p v t g) t p v t (shifted p (-3) ||| revBalanceFactor 0) e f)
      (by cases d <;> exact ⟨_, rfl⟩) (by decide) rfl ?_ ?_ ?_ fun c₇ h₇ => ?_
    · simp [effect, val, toWord_small, line_shf, turnAt, hne, hM, wadd_zero hlt']
    · simp [stores, val, toWord_small, line_shf, hv0', ht0']
    · simp [touches, val, toWord_small, line_shf, hv0, ht0]
    exact h₇.goto hR (lab d + 46) bp (lab d + 46) (by cases d <;> rfl) (by cases d <;> decide)
      (.inl ⟨rfl, rfl⟩) (by omega) (by omega) fun c₈ h₈ => hQ _ c₈ h₈
  · -- the child is balanced
    rw [file_rr] at heq
    obtain ⟨hb1, hb2, hb3, hb4⟩ := balancing_spec (ρ := ρ) (m := M) (r := balanceAt m t) (a := p)
      (p := v) (t := t) (g := g) (e := e) (f := f) hsgn
    refine h₄.run hR hn (lab d + 21) [balancing d.sgn] _ (by cases d <;> exact ⟨_, rfl⟩) hb1
      rfl (hb4 hρ) (by simp [hb2]) (by simp [hb3]) fun c₅ h₅ => ?_
    refine h₅.call hR (lab d + 23) (revBalanceFactor_serves hrev)
      (by cases d <;> exact ⟨_, rfl⟩) (hK _) (by decide) ⟨h0, by decide⟩ (by decide) rfl hs
      (fun m' _ => (tagOf_sgn m' d).1) fun c₆ h₆ => ?_
    simp only [file_setReg_rr] at h₆
    set M' := M.set (addr v) (shifted t (-3) ||| revBalanceFactor d.sgn) with hM'
    refine h₆.run hR hn (lab d + 26) [shf 4 3 (-3), orr rr 4 (.reg rr), str rr 2 (.imm 0)]
      (file ρ M' (shifted t (-3) ||| revBalanceFactor d.sgn) p v t (shifted t (-3)) e f)
      (by cases d <;> exact ⟨_, rfl⟩) (by decide) rfl ?_ ?_ ?_ fun c₇ h₇ => ?_
    · simp [effect, val, toWord_small, line_shf, hM']
    · simp [stores, val, toWord_small, line_shf, hv0']
    · simp [touches, val, toWord_small, line_shf, hv0]
    obtain ⟨hb1, hb2, hb3, hb4⟩ := balancing_spec (ρ := ρ) (m := M')
      (r := shifted t (-3) ||| revBalanceFactor d.sgn) (a := p) (p := v) (t := t)
      (g := shifted t (-3)) (e := e) (f := f) hsgn'
    refine h₇.run hR hn (lab d + 27) [balancing (-d.sgn)] _ (by cases d <;> exact ⟨_, rfl⟩) hb1
      rfl (hb4 hρ) (by simp [hb2]) (by simp [hb3]) fun c₈ h₈ => ?_
    refine h₈.call hR (lab d + 29) (revBalanceFactor_serves hrev)
      (by cases d <;> exact ⟨_, rfl⟩) (hK _) (by decide) ⟨h0, by decide⟩ (by decide) rfl hs
      (fun m' _ => (tagOf_sgn m' d).2) fun c₉ h₉ => ?_
    simp only [file_setReg_rr] at h₉
    refine h₉.run hR hn (lab d + 33) [shf 4 1 (-3), orr rr 4 (.reg rr), str rr 3 (.imm 0),
      ads rr 3 (.imm 0)] (file ρ (turnAt d m p v t g) t p v t (shifted p (-3)) e f)
      (by cases d <;> exact ⟨_, rfl⟩) (by decide) rfl ?_ ?_ ?_ fun c₁ h₁ => ?_
    · simp [effect, val, toWord_small, line_shf, turnAt, heq, hM, hM', wadd_zero hlt']
    · simp [stores, val, toWord_small, line_shf, ht0']
    · simp [touches, val, toWord_small, line_shf, ht0]
    exact h₁.goto hR (lab d + 46) bp (lab d + 46) (by cases d <;> rfl) (by cases d <;> decide)
      (.inl ⟨rfl, rfl⟩) (by omega) (by omega) fun c₂ h₂ => hQ _ c₂ h₂

lemma lowered_eq (h : x < addrSpace) (d : Dir) : lowered d x = x := by
  cases d with
  | L => exact shifted_shifted h
  | R => rfl

include hR hz hK h0 hs in
/-- **A rotation** -/
theorem rotation_ends (h : Z.At q c₀) (hlr : c₀.regs lr ≠ 0) {arg tr nd : ℕ}
    (harg : c₀.regs rr = arg) (htr : c₀.mem (addr arg) = tr) (hnd : c₀.mem (addr (arg + 1)) = nd)
    (hplaced : rotatePlaced d c₀.mem nd)
    (hargs : ∀ i ∈ [0, 1], Clear (c₀.regs sp) 8 (addr (arg + i)))
    (hlink : nd ≠ 0 → Clear (c₀.regs sp) 8 (addr (nd + off d)))
    (hw : ∀ x ∈ rotateWords d c₀.mem tr nd, Clear (c₀.regs sp) 8 x ∧ x ∈ Z.free) :
    Z.Ends (Returned Z c₀ 8 (rotateAt d c₀.mem tr nd).2 (rotateAt d c₀.mem tr nd).1) c₀ := by
  obtain ⟨hlt, hgr⟩ := hplaced
  have hn : saved.length < 8 := by decide
  have hlen := rotationCode_length d K
  have hsp : c₀.regs sp < wordMod := h.real.regs_lt sp
  -- the end without a rotation
  have hzero {x a p t g e f : ℕ} {c : Cpu} (hr : rotateAt d c₀.mem tr nd = (c₀.mem, 0))
      (h : Body.At Z q c₀ saved 8 (lab d + 45) (file c₀.regs c₀.mem x a p t g e f) c) :
      Z.Ends (Returned Z c₀ 8 (rotateAt d c₀.mem tr nd).2 (rotateAt d c₀.mem tr nd).1) c := by
    refine h.run hR hn (lab d + 46) [xor rr rr (.reg rr)] (file c₀.regs c₀.mem 0 a p t g e f)
      (by cases d <;> exact ⟨_, rfl⟩) (by decide) rfl (effect_clear ..) ?_ ?_ fun c₁ h₁ => ?_
    · simp [stores]
    · simp [touches]
    rw [hr]
    exact h₁.leave hR hsp (by cases d <;> exact ⟨_, rfl⟩) (by decide) hlr
  refine start hR h (by cases d <;> exact ⟨_, rfl⟩) (by decide) hn 10 rfl fun c₁ h₁ => ?_
  rw [harg] at h₁
  refine h₁.run hR hn 12 [ldr 1 rr (.imm 0), ldr 2 rr (.imm 1)]
    (file c₀.regs c₀.mem arg tr nd (c₀.regs 3) (c₀.regs 4) (c₀.regs 5) (c₀.regs 6))
    (by cases d <;> exact ⟨_, rfl⟩) (by decide) rfl ?_ ?_ ?_ fun c₂ h₂ => ?_
  · simp [effect, val, toWord_small, htr, hnd]
  · simp [stores]
  · simpa [touches, val, toWord_small] using hargs
  refine h₂.branch hR 14 2 pc 2 (by cases d <;> rfl) (by decide) (by decide)
    (.inr ⟨rfl, rfl⟩) (by omega) (by omega) (fun hne c₃ h₃ => ?_) fun heq c₃ h₃ => ?_
  swap
  · rw [file_two] at heq
    exact h₃.goto hR (lab d + 45) bp (lab d + 45) (by cases d <;> rfl) (by cases d <;> decide)
      (.inl ⟨rfl, rfl⟩) (by omega) (by omega) fun c₄ h₄ =>
      hzero (by simp [rotateAt, heq]) h₄
  rw [file_two] at hne
  set ch := link c₀.mem d nd with hch
  refine h₃.run hR hn 15 [ldr 3 2 (.imm (off d))]
    (file c₀.regs c₀.mem arg tr nd ch (c₀.regs 4) (c₀.regs 5) (c₀.regs 6))
    (by cases d <;> exact ⟨_, rfl⟩) (by cases d <;> decide) rfl ?_ ?_ ?_ fun c₄ h₄ => ?_
  · simp [effect, val, toWord_off, hch, link]
  · simp [stores]
  · simpa [touches, val, toWord_off] using hlink hne
  refine h₄.branch hR 17 3 pc 2 (by cases d <;> rfl) (by decide) (by decide)
    (.inr ⟨rfl, rfl⟩) (by omega) (by omega) (fun hne' c₅ h₅ => ?_) fun heq c₅ h₅ => ?_
  swap
  · rw [file_three] at heq
    exact h₅.goto hR (lab d + 45) bp (lab d + 45) (by cases d <;> rfl) (by cases d <;> decide)
      (.inl ⟨rfl, rfl⟩) (by omega) (by omega) fun c₄ h₄ =>
      hzero (by simp [rotateAt, ← hch, heq]) h₄
  rw [file_three] at hne'
  set gr := link c₀.mem d.flip ch with hgr'
  obtain ⟨⟨hwt, hwg⟩, hwp⟩ : _ ∧ _ := by
    simpa only [rotateWords, ← hch, ← hgr', hne, hne', or_self, if_false, List.forall_mem_append]
      using hw
  set m := if gr = 0 then c₀.mem else adoptAt d c₀.mem gr nd with hm
  have hpar : parentAt m nd = parentAt c₀.mem nd := parentAt_congr fun _ => by
    rw [hm]
    split_ifs
    · rfl
    · exact set_ne _ _ (hgr hne (by assumption)).symm
  have hrot : rotateAt d c₀.mem tr nd =
      (turnAt d (relinkAt m tr (parentAt m nd) nd ch) (parentAt m nd) nd ch gr, ch) := by
    simp only [rotateAt, ← hch, ← hgr', hne, hne', or_self, if_false, ← hm]
  have hrest {r : ℕ} {c : Cpu} (h : Body.At Z q c₀ saved 8 (lab d) (file c₀.regs m r tr nd ch gr
      (c₀.regs 5) (c₀.regs 6)) c) :
      Z.Ends (Returned Z c₀ 8 (rotateAt d c₀.mem tr nd).2 (rotateAt d c₀.mem tr nd).1) c := by
    refine relinks hR hz hK h0 hs h (fun _ => (hwt _ (by simp)).1) (fun hp => ?_) (fun hp => ?_)
      fun a' c₁ h₁ => turns hR hz hK h0 hs h₁ h0 ?_ ?_ fun g' c₂ h₂ => ?_
    · rw [hpar] at hp
      exact hwp _ (by simp [hp])
    · rw [hpar] at hp ⊢
      simpa [hp] using hwp
    · simpa using ⟨hwt _ (by simp), hwt _ (by simp)⟩
    · simpa using ⟨hwt (addr ch) (by simp), hwt _ (by simp)⟩
    · rw [hrot]
      exact h₂.leave hR hsp (by cases d <;> exact ⟨_, rfl⟩) (by decide) hlr
  refine h₅.run hR hn 18 [ldr 4 3 (.imm (off d.flip))]
    (file c₀.regs c₀.mem arg tr nd ch gr (c₀.regs 5) (c₀.regs 6))
    (by cases d <;> exact ⟨_, rfl⟩) (by cases d <;> decide) rfl ?_ ?_ ?_ fun c₆ h₆ => ?_
  · simp [effect, val, toWord_off, hgr', link]
  · simp [stores]
  · simpa [touches, val, toWord_off] using (hwt (addr (ch + off d.flip)) (by simp)).1
  refine h₆.branch hR 20 4 bp 20 (by cases d <;> rfl) (by decide) (by decide)
    (.inl ⟨rfl, rfl⟩) (by omega) (by omega) (fun hne c₇ h₇ => ?_) fun heq c₇ h₇ => ?_
  · rw [file_four] at hne
    obtain ⟨hg, hg'⟩ := hwg (addr gr) (by simp [hne])
    refine adopts hR hz hK h0 hs h₇ hg hg' fun r' c₈ h₈ => hrest (r := r') ?_
    rw [hm, if_neg hne]
    rwa [lowered_eq hlt] at h₈
  · rw [file_four] at heq
    refine h₇.goto hR (lab d) bp (lab d) (by cases d <;> rfl) (by cases d <;> decide)
      (.inl ⟨rfl, rfl⟩) (by omega) (by cases d <;> decide) fun c₈ h₈ => hrest (r := arg) ?_
    rwa [hm, if_pos heq]

end

end LispMachine.KernelRotate
