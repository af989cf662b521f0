import LispMachine.AvlRotate
import LispMachine.KernelReturn
import Mathlib.Data.List.Pairwise

/-!
The rotations of `kernel` and those of C.

The kernel keeps the links of a node, and the one to the root, as word addresses; C keeps them as
byte addresses. The parent of a node is kept as a byte address by both. A tree of the kernel is one
whose memory, so translated, holds a tree for C.
-/

namespace LispMachine.KernelTree

open LispMachine.Memory LispMachine.Asm LispMachine.AsmRef LispMachine.MachineStep
open LispMachine.MachineRun LispMachine.Routine LispMachine.Body LispMachine.Kernel
open LispMachine.KernelCalls LispMachine.KernelRotate LispMachine.KernelReturn
open LispMachine.AvlCode LispMachine.AvlRepr LispMachine.AvlRotate LispMachine.Lib.BalTree
open LispMachine.Lib.BalTree.BTree
open LispMachine.Machine hiding ldr str shf

/-- The words that hold a link: that of the root, and two of each node -/
def Linked (tr : ℕ) (L : List ℕ) (a : ℕ) : Prop := a = tr ∨ ∃ p ∈ L, a = p + 1 ∨ a = p + 2

instance (tr : ℕ) (L : List ℕ) : DecidablePred (Linked tr L) := fun a => by
  unfold Linked
  infer_instance

/-- The memory as C has it -/
def toC (tr : ℕ) (L : List ℕ) (m : Mem) : Mem := fun a =>
  if Linked tr L a then 8 * m a else m a

/-- The memory of the kernel holds a path with a tree in its hole. -/
structure KernelZip (m : Mem) (tr : ℕ) (π : P) (t : T) : Prop where
  zip : Zip (toC tr (nodes π t) m) tr π t
  small : ∀ a, a = tr ∨ Within a (nodes π t) → a < addrSpace

variable {m m' : Mem} {tr : ℕ} {L : List ℕ} {π : P} {d : Dir} {b bq : ℤ} {A B C t : T}
variable {a p q v w x : ℕ}

lemma toC_set (h : Linked tr L a) (m : Mem) (v : ℕ) :
    toC tr L (m.set a v) = (toC tr L m).setPtr a v := by
  funext x
  simp only [toC, setPtr_apply, set_apply]
  by_cases hx : x = a
  · simp [hx, h]
  · simp [hx]

lemma toC_set_of_not (h : ¬ Linked tr L a) (m : Mem) (v : ℕ) :
    toC tr L (m.set a v) = (toC tr L m).set a v := by
  funext x
  simp only [toC, set_apply]
  by_cases hx : x = a
  · simp [hx, h]
  · simp [hx]

lemma toC_linked (h : Linked tr L a) (m : Mem) : toC tr L m a = 8 * m a := if_pos h

lemma toC_of_not (h : ¬ Linked tr L a) (m : Mem) : toC tr L m a = m a := if_neg h

lemma linked_off (hp : p ∈ L) (d : Dir) : Linked tr L (p + off d) := by
  cases d
  · exact .inr ⟨p, hp, .inl rfl⟩
  · exact .inr ⟨p, hp, .inr rfl⟩

instance : Std.Symm Apart := ⟨fun _ _ h => h.symm⟩

/-- Two nodes are the same or apart. -/
lemma apart_of_ne (hs : Sep tr L) (hp : p ∈ L) (hq : q ∈ L) (hne : p ≠ q) : Apart p q :=
  hs.1.forall hp hq hne

/-- The first word of a node holds no link. -/
lemma not_linked (hs : Sep tr L) (hp : p ∈ L) : ¬ Linked tr L p := by
  rintro (heq | ⟨x, hx, hpx⟩)
  · exact hs.2 ⟨p, hp, by omega, by omega⟩
  · by_cases heq : p = x
    · omega
    · have := apart_of_ne hs hp hx heq
      unfold Apart at this
      omega

lemma addr_eq (h : a < addrSpace) : addr a = a := Nat.mod_eq_of_lt h

/-! ### A rotation in the words of the kernel -/

/-- What a rotation reads of the tree -/
structure Spot (m : Mem) (tr : ℕ) (π : P) (d : Dir) (b bq : ℤ) (B : T) (L : List ℕ) (p q : ℕ) :
    Prop where
  sep : Sep tr L
  small : ∀ a, a = tr ∨ Within a L → a < addrSpace
  node : p ≠ 0 ∧ p ∈ L
  child : q ≠ 0 ∧ q ∈ L
  inner : root B ≠ 0 → root B ∈ L
  path : parent π ≠ 0 → parent π ∈ L
  ne : p ≠ q ∧ p ≠ root B ∧ q ≠ root B
  prev : m p = 8 * parent π + revBalanceFactor b ∧ m q = 8 * p + revBalanceFactor bq
  links : m (p + off d) = q ∧ m (q + off d.flip) = root B
  cell : Linked tr L (linkCell tr π)
  hole : ∀ m' : Mem, (∀ x ∈ L, m' (x + 1) = m (x + 1)) →
    ∀ c, relinkAt m' tr (parent π) p c = m'.set (linkCell tr π) c

lemma KernelZip.spot (hz : KernelZip m tr π (dnode d b (dnode d bq C (q, w) B) (p, v) A)) :
    Spot m tr π d b bq B (nodes π (dnode d b (dnode d bq C (q, w) B) (p, v) A)) p q := by
  obtain ⟨⟨ht, hp, hs⟩, hsmall⟩ := hz
  obtain ⟨p0, p1, p2, p3, p4, hQ, hA⟩ := repr_dnode.mp ht
  obtain ⟨q0, q1, q2, q3, q4, hC, hB⟩ := repr_dnode.mp hQ
  rw [root_dnode] at p2 hp
  obtain ⟨hpw, -⟩ := sep_two hs
  simp only [List.pairwise_cons, List.mem_cons, List.mem_append] at hpw
  obtain ⟨hp', hq', -⟩ := hpw
  have hpL : p ∈ nodes π (dnode d b (dnode d bq C (q, w) B) (p, v) A) := by simp
  have hqL : q ∈ nodes π (dnode d b (dnode d bq C (q, w) B) (p, v) A) := by simp
  have hBL (h : root B ≠ 0) : root B ∈ nodes π (dnode d b (dnode d bq C (q, w) B) (p, v) A) := by
    simp [root_mem_addrs h]
  have hπL : ∀ x ∈ pathAddrs π, x ∈ nodes π (dnode d b (dnode d bq C (q, w) B) (p, v) A) :=
    fun x hx => by simp [hx]
  have hpπ : p ∉ pathAddrs π := fun h => by
    have := hp' p (.inr (.inr (.inr (.inr h))))
    unfold Apart at this
    omega
  change AvlRepr.Sep tr (nodes π (dnode d b (dnode d bq C (q, w) B) (p, v) A)) at hs
  generalize nodes π (dnode d b (dnode d bq C (q, w) B) (p, v) A) = L at *
  rw [toC_of_not (not_linked hs hpL)] at p1
  rw [toC_of_not (not_linked hs hqL)] at q1
  rw [toC_linked (linked_off hpL d)] at p2
  rw [toC_linked (linked_off hqL d.flip)] at q3
  refine ⟨hs, hsmall, ⟨p0, hpL⟩, ⟨q0, hqL⟩, hBL, fun h => ?_, ⟨fun h => ?_, fun h => ?_,
    fun h => ?_⟩, ⟨p1, q1⟩, ⟨by omega, by omega⟩, ?_, fun m' hm' c => ?_⟩
  · cases π with
    | nil => exact absurd rfl h
    | cons s π => exact hπL _ (by simp)
  · have := hp' q (.inl rfl)
    unfold Apart at this
    omega
  · have := hp' p (.inr (.inl (h ▸ root_mem_addrs (h ▸ p0))))
    unfold Apart at this
    omega
  · have := hq' q (.inl (h ▸ root_mem_addrs (h ▸ q0)))
    unfold Apart at this
    omega
  · cases π with
    | nil => exact .inl rfl
    | cons s π => exact linked_off (hπL _ (by simp)) _
  · cases π with
    | nil => rw [relinkAt, parent_nil, if_pos rfl, addr_eq (hsmall tr (.inl rfl)), linkCell]
    | cons s π =>
      obtain ⟨e, be, ⟨y, vy⟩, S⟩ := s
      obtain ⟨h0, h1, h2, h3, -⟩ := hp
      have hyL : y ∈ L := hπL y (by simp)
      rw [toC_linked (linked_off hyL _)] at h2 h3
      have hw {i : ℕ} (hi : i < 4) : addr (y + i) = y + i :=
        addr_eq (hsmall _ (.inr ⟨y, hyL, by omega, by omega⟩))
      have hSp : root S ≠ p := fun h => hpπ (by simp [← h, root_mem_addrs (h ▸ p0)])
      rw [relinkAt, parent_cons, if_neg h0, hw (by omega), hw (by omega), hm' y hyL, linkCell]
      cases e with
      | L =>
        have : m (y + 1) = p := by simpa using h2
        rw [if_pos this]
        rfl
      | R =>
        have : m (y + 1) = root S := by simpa using h3
        rw [if_neg (this ▸ hSp)]
        rfl

/-- A word address as a byte address -/
lemma shifted_up (h : x < addrSpace) : shifted x (-3) = 8 * x := by
  unfold addrSpace at h
  simp only [shifted, wordMod]
  norm_num
  omega

section

variable (hs : Spot m tr π d b bq B L p q)

include hs

lemma Spot.addr_off (hx : x ∈ L) (i : ℕ) (hi : i < 4) : addr (x + i) = x + i :=
  addr_eq (hs.small _ (.inr ⟨x, hx, by omega, by omega⟩))

lemma Spot.addr_self (hx : x ∈ L) : addr x = x := hs.addr_off hx 0 (by omega)

lemma Spot.link : link m d p = q ∧ link m d.flip q = root B := by
  have hd := off_le d
  have hd' := off_le d.flip
  rw [KernelRotate.link, KernelRotate.link, hs.addr_off hs.node.2 _ (by omega),
    hs.addr_off hs.child.2 _ (by omega)]
  exact hs.links

/-- The memory when the inner grandchild, if there is one, has its new parent -/
def adopted (d : Dir) (m : Mem) (x p : ℕ) : Mem := if x = 0 then m else adoptAt d m x p

lemma Spot.adopted_of_ne (h : x ≠ root B) : adopted d m (root B) p x = m x := by
  unfold adopted
  split_ifs with h0
  · rfl
  · rw [adoptAt, hs.addr_self (hs.inner h0), set_ne _ _ h]

/-- The rotation in closed form -/
lemma Spot.rotateAt_eq : rotateAt d m tr p =
    (turnAt d ((adopted d m (root B) p).set (linkCell tr π) q) (parent π) p q (root B), q) := by
  obtain ⟨h1, h2⟩ := hs.link
  have hlt := revBalanceFactor_lt b
  have hpar : parentAt (adopted d m (root B) p) p = parent π := by
    rw [parentAt, if_neg hs.node.1, hs.addr_self hs.node.2, hs.adopted_of_ne hs.ne.2.1, hs.prev.1]
    omega
  have hhole := hs.hole (adopted d m (root B) p) (fun x hx => hs.adopted_of_ne fun heq => ?_) q
  · simp only [rotateAt, h1, h2, hs.node.1, hs.child.1, or_self, if_false]
    change (turnAt d (relinkAt (adopted d m (root B) p) tr (parentAt (adopted d m (root B) p) p) p q)
      (parentAt (adopted d m (root B) p) p) p q (root B), q) = _
    rw [hpar, hhole]
  · -- a link is not the first word of a node
    have hB : root B ≠ 0 := fun h => by omega
    exact not_linked hs.sep (hs.inner hB) (heq ▸ .inr ⟨x, hx, .inl rfl⟩)

lemma Spot.balance (hq : IsBal bq) : balanceAt ((adopted d m (root B) p).set (linkCell tr π) q) q = 0
    ↔ bq = 0 := by
  have hcell : q ≠ linkCell tr π := fun h => not_linked hs.sep hs.child.2 (h ▸ hs.cell)
  have htag : tagAt ((adopted d m (root B) p).set (linkCell tr π) q) q = revBalanceFactor bq := by
    rw [tagAt, if_neg hs.child.1, hs.addr_self hs.child.2, set_ne _ _ hcell,
      hs.adopted_of_ne hs.ne.2.2, hs.prev.2, and_three]
    have := revBalanceFactor_lt bq
    omega
  rw [balanceAt, if_neg hs.child.1, htag]
  rcases hq with rfl | rfl | rfl <;> decide

lemma Spot.small_of_mem (hx : x ∈ L) : x < addrSpace :=
  hs.small x (.inr ⟨x, hx, by omega, by omega⟩)

lemma Spot.toC_turnAt (hq : IsBal bq) :
    toC tr L (rotateAt d m tr p).1 =
      ((((toC tr L ((adopted d m (root B) p).set (linkCell tr π) q)).setPtr (p + off d)
        (root B)).setPtr (q + off d.flip) p).set p
        (8 * q + revBalanceFactor (if bq = 0 then d.sgn else 0))).set q
        (8 * parent π + revBalanceFactor (if bq = 0 then -d.sgn else 0)) := by
  have hd := off_le d
  have hd' := off_le d.flip
  have hpar : parent π < addrSpace := by
    by_cases h : parent π = 0
    · rw [h]
      decide
    · exact hs.small_of_mem (hs.path h)
  have hlean : -(if bq = 0 then d.sgn else 0) = if bq = 0 then -d.sgn else 0 := by
    split_ifs <;> simp
  simp only [hs.rotateAt_eq, turnAt, hs.balance hq, hs.addr_self hs.node.2, hs.addr_self hs.child.2,
    hs.addr_off hs.node.2 _ (show off d < 4 by omega),
    hs.addr_off hs.child.2 _ (show off d.flip < 4 by omega),
    toC_set_of_not (not_linked hs.sep hs.child.2), toC_set_of_not (not_linked hs.sep hs.node.2),
    toC_set (linked_off hs.child.2 d.flip), toC_set (linked_off hs.node.2 d), hlean]
  rw [shifted_up (hs.small_of_mem hs.child.2), shifted_up hpar, ← tagged, ← tagged,
    tagged_eq (revBalanceFactor_lt _), tagged_eq (revBalanceFactor_lt _)]

/-- **The rotations agree** but for the new parent of the inner grandchild. -/
lemma Spot.rotated_eq (hq : IsBal bq) (hd : d = .L ∨ root B = 0) :
    toC tr L (rotateAt d m tr p).1 = rotated (toC tr L m) tr π d bq (root B) p q := by
  have hadopt : toC tr L (adopted d m (root B) p) = adopt (toC tr L m) (root B) p := by
    by_cases hB : root B = 0
    · rw [adopted, if_pos hB, adopt, if_pos hB]
    · obtain rfl : d = .L := by tauto
      have hBL := hs.inner hB
      rw [adopted, if_neg hB, adopt, if_neg hB, adoptAt, hs.addr_self hBL,
        toC_set_of_not (not_linked hs.sep hBL), raised, shifted_up (hs.small_of_mem hs.node.2),
        tagAt, if_neg hB, hs.addr_self hBL, AvlCode.getBalanceFactor, if_neg hB,
        toC_of_not (not_linked hs.sep hBL), Nat.or_comm, tagged]
  rw [hs.toC_turnAt hq, toC_set hs.cell, hadopt, rotated]

/-- The new parent of the inner grandchild -/
lemma Spot.inner_eq (hq : IsBal bq) (hB : root B ≠ 0) :
    toC tr L (rotateAt d m tr p).1 (root B) = (m (root B) &&& 3) ||| raised d p ∧
      rotated (toC tr L m) tr π d bq (root B) p q (root B) = (m (root B) &&& 3) ||| 8 * p := by
  have hBL := hs.inner hB
  have hnot := not_linked hs.sep hBL
  have h1 : root B ≠ p + off d := fun h => hnot (h ▸ linked_off hs.node.2 d)
  have h2 : root B ≠ q + off d.flip := fun h => hnot (h ▸ linked_off hs.child.2 d.flip)
  have h3 : root B ≠ linkCell tr π := fun h => hnot (h ▸ hs.cell)
  constructor
  · rw [hs.toC_turnAt hq, set_ne _ _ (Ne.symm hs.ne.2.2), set_ne _ _ (Ne.symm hs.ne.2.1),
      setPtr_ne _ _ h2, setPtr_ne _ _ h1, toC_set hs.cell, setPtr_ne _ _ h3, toC_of_not hnot,
      adopted, if_neg hB, adoptAt, hs.addr_self hBL, set_self, tagAt, if_neg hB, hs.addr_self hBL]
  · rw [rotated, set_ne _ _ (Ne.symm hs.ne.2.2), set_ne _ _ (Ne.symm hs.ne.2.1),
      setPtr_ne _ _ h2, setPtr_ne _ _ h1, setPtr_ne _ _ h3, adopt, if_neg hB, set_self,
      AvlCode.getBalanceFactor, if_neg hB, toC_of_not hnot, tagged, Nat.or_comm]

/-- **The left rotation** gives the inner grandchild a wrong parent. -/
lemma Spot.inner_ne (hq : IsBal bq) (hB : root B ≠ 0) (hd : d = .R) :
    toC tr L (rotateAt d m tr p).1 (root B) ≠
      rotated (toC tr L m) tr π d bq (root B) p q (root B) := by
  obtain ⟨h1, h2⟩ := hs.inner_eq hq hB
  have hp := hs.node.1
  have hlt : (m (root B) &&& 3) / 2 ^ 2 = 0 := by
    rw [and_three]
    omega
  rw [h1, h2, hd, raised]
  intro heq
  -- the bits above the tag
  have := congrArg (· / 2 ^ 2) heq
  simp only [Nat.or_div_two_pow, hlt, Nat.zero_or] at this
  omega

end

lemma root_eq_zero {par : ℕ} (h : AvlRepr.Repr m B par) : root B = 0 ↔ B = .nil := by
  cases B with
  | nil => exact iff_of_true rfl rfl
  | node b l e r => exact iff_of_false h.1 (by simp)

/-! ### Calls of the rotations -/

/-- The rotation that is called returns, and leaves the tree that the one of C does. -/
def Agrees (K : Name → ℕ) (d : Dir) (c : Cpu) (tr p : ℕ) (L : List ℕ) : Prop :=
  ∃ c', (callZone K (rotation d) c).Runs c c' ∧ c'.regs pc = c.regs pc + 2 ∧
    ∀ a, a = tr ∨ Within a L → toC tr L c'.mem a = (avlRotate d (toC tr L c.mem) tr p).1 a

/-- A rotation is called for the node `p` of a tree, with its child `q`. The stack is apart from the
tree. -/
structure Rotating (K : Name → ℕ) (d : Dir) (c : Cpu) (tr : ℕ) (π : P) (b bq : ℤ) (C B A : T)
    (p v q w : ℕ) : Prop where
  call : Call K (rotation d) c
  first : c.mem (addr (c.regs rr)) = tr
  second : c.mem (addr (c.regs rr + 1)) = p
  tree : KernelZip c.mem tr π (dnode d b (dnode d bq C (q, w) B) (p, v) A)
  bal : IsBal bq
  stack : ∀ a, a = tr ∨ Within a (nodes π (dnode d b (dnode d bq C (q, w) B) (p, v) A)) →
    Clear (c.regs sp) 8 a

section

variable {K : Name → ℕ} {c : Cpu} (h : Rotating K d c tr π b bq C B A p v q w)

include h

/-- What a rotation leaves -/
lemma Rotating.runs :
    ∃ c', (callZone K (rotation d) c).Runs c c' ∧ c'.regs pc = c.regs pc + 2 ∧
      ∀ a, a = tr ∨ Within a (nodes π (dnode d b (dnode d bq C (q, w) B) (p, v) A)) →
        toC tr (nodes π (dnode d b (dnode d bq C (q, w) B) (p, v) A)) c'.mem a =
          toC tr (nodes π (dnode d b (dnode d bq C (q, w) B) (p, v) A))
            (rotateAt d c.mem tr p).1 a := by
  obtain ⟨c₀, he, c', hruns, hret⟩ := h.call.rotates
  rw [h.first, h.second] at hret
  refine ⟨c', he.runs.trans hruns, hret.here.counter.trans he.link, fun a ha => ?_⟩
  have hclear := h.stack a ha
  rw [← he.regs sp (by decide)] at hclear
  rw [toC, toC, hret.mem a hclear]

lemma Rotating.agrees (hd : d = .L ∨ B = .nil) :
    Agrees K d c tr p (nodes π (dnode d b (dnode d bq C (q, w) B) (p, v) A)) := by
  obtain ⟨c', hruns, hpc, hmem⟩ := h.runs
  have hC := congrArg Prod.fst (avlRotate_eq h.tree.zip h.bal)
  refine ⟨c', hruns, hpc, fun a ha => ?_⟩
  rw [hmem a ha, hC, h.tree.spot.rotated_eq h.bal (hd.imp_right fun hB => by rw [hB, root_nil])]

lemma Rotating.disagrees (hd : d = .R) (hB : B ≠ .nil) :
    ¬ Agrees K d c tr p (nodes π (dnode d b (dnode d bq C (q, w) B) (p, v) A)) := by
  rintro ⟨c₁, hruns₁, hpc₁, hagree⟩
  obtain ⟨c', hruns, hpc, hmem⟩ := h.runs
  have hs := h.tree.spot
  have hC := congrArg Prod.fst (avlRotate_eq h.tree.zip h.bal)
  have hroot : root B ≠ 0 := by
    obtain ⟨-, -, -, -, -, hQ, -⟩ := repr_dnode.mp h.tree.zip.tree
    obtain ⟨-, -, -, -, -, -, hB'⟩ := repr_dnode.mp hQ
    exact fun h0 => hB ((root_eq_zero hB').mp h0)
  obtain rfl : c₁ = c' := Zone.Runs.unique hruns₁ hruns (by rw [hpc₁]; exact h.call.back)
    (by rw [hpc]; exact h.call.back)
  have hin : Within (root B) (nodes π (dnode d b (dnode d bq C (q, w) B) (p, v) A)) :=
    ⟨root B, hs.inner hroot, by omega, by omega⟩
  have := hagree (root B) (.inr hin)
  rw [hmem _ (.inr hin), hC] at this
  exact hs.inner_ne h.bal hroot hd this

end

/-- **The rotations of the kernel** leave the tree that those of C do, except that the left one
gives an inner grandchild a wrong parent. -/
theorem rotation_agrees_iff {K : Name → ℕ} {c : Cpu}
    (h : Rotating K d c tr π b bq C B A p v q w) :
    Agrees K d c tr p (nodes π (dnode d b (dnode d bq C (q, w) B) (p, v) A)) ↔
      d = .L ∨ B = .nil := by
  refine ⟨fun hagree => ?_, h.agrees⟩
  cases d with
  | L => exact .inl rfl
  | R => exact .inr (by_contra fun hB => h.disagrees rfl hB hagree)

/-- A leaf -/
def leaf (e : Entry) : T := .node 0 .nil e .nil

/-- The words from 3000 on: the arguments of a rotation, the link to the root, and four nodes. The
node at 3004 leans to one child, and that one to its inner child. -/
def leaning : Dir → List ℕ
  | .L => [3002, 3004, 3004, 0, 2, 3008, 3016, 10, 24033, 0, 3012, 20, 24067, 0, 0, 15,
      24035, 0, 0, 5]
  | .R => [3002, 3004, 3004, 0, 1, 3016, 3008, 10, 24034, 3012, 0, 20, 24067, 0, 0, 15,
      24035, 0, 0, 5]

lemma leaning_rotating (d : Dir) : Rotating place d (caller (rotation d) 3000 (leaning d)) 3002 []
    d.sgn (-d.sgn) .nil (leaf (3012, 15)) (leaf (3016, 5)) 3004 10 3008 20 := by
  have hnodes (x : ℕ) : x ∈ nodes [] (dnode d d.sgn (dnode d (-d.sgn) .nil (3008, 20)
      (leaf (3012, 15))) (3004, 10) (leaf (3016, 5))) ↔ x ∈ [3004, 3016, 3008, 3012] := by
    cases d with
    | L =>
      simp only [nodes, dnode, leaf, addrs, pathAddrs_nil, List.mem_append, List.mem_cons,
        List.not_mem_nil, or_false]
      tauto
    | R => simp [nodes, dnode, leaf, addrs]
  have hin (a : ℕ) (ha : a = 3002 ∨ Within a (nodes [] (dnode d d.sgn (dnode d (-d.sgn) .nil
      (3008, 20) (leaf (3012, 15))) (3004, 10) (leaf (3016, 5))))) : 3002 ≤ a ∧ a ≤ 4000 := by
    rcases ha with rfl | ⟨p, hp, h⟩
    · omega
    · rw [hnodes] at hp
      simp only [List.mem_cons, List.not_mem_nil, or_false] at hp
      omega
  refine ⟨?_, ?_, ?_, ⟨⟨?_, ?_, ?_⟩, fun a ha => (hin a ha).2.trans_lt (by decide)⟩, ?_,
    fun a ha => clear_of_lt ?_ (hin a ha).2⟩
  · cases d <;> exact caller_call (by decide) (by decide) (by decide +kernel) (by decide +kernel)
  · cases d <;> decide +kernel
  · cases d <;> decide +kernel
  · cases d
    · refine ⟨by decide, ?_, ?_, ?_, ?_, ⟨by decide, ?_, ?_, ?_, ?_, trivial, ⟨by decide,
        ?_, ?_, ?_, ?_, trivial, trivial⟩⟩, ⟨by decide, ?_, ?_, ?_, ?_, trivial, trivial⟩⟩
      all_goals decide +kernel
    · refine ⟨by decide, ?_, ?_, ?_, ?_, ⟨by decide, ?_, ?_, ?_, ?_, trivial, trivial⟩, ⟨by decide,
        ?_, ?_, ?_, ?_, ⟨by decide, ?_, ?_, ?_, ?_, trivial, trivial⟩, trivial⟩⟩
      all_goals decide +kernel
  · change toC _ _ _ 3002 = _
    cases d <;> decide +kernel
  · unfold AvlRepr.Sep Within Apart
    cases d <;> decide
  · cases d
    · exact .inr (.inr rfl)
    · exact .inl rfl
  · cases d <;> exact le_rfl

/-- The right rotation of the node at 3004, whose child has an inner child -/
theorem rotation_agrees_iff_leaning :
    Agrees place .L (caller .avlRotateRight 3000 (leaning .L)) 3002 3004
      (nodes [] (dnode .L (-1) (dnode .L 1 .nil (3008, 20) (leaf (3012, 15))) (3004, 10)
        (leaf (3016, 5)))) :=
  (rotation_agrees_iff (leaning_rotating .L)).mpr (.inl rfl)

/-- The left rotation of the node at 3004 -/
theorem not_rotation_agrees :
    (dnode .R 1 (dnode .R (-1) .nil (3008, 20) (leaf (3012, 15))) (3004, 10)
      (leaf (3016, 5))).Balanced ∧
    Rotating place .R (caller .avlRotateLeft 3000 (leaning .R)) 3002 [] 1 (-1) .nil
      (leaf (3012, 15)) (leaf (3016, 5)) 3004 10 3008 20 ∧
    ¬ Agrees place .R (caller .avlRotateLeft 3000 (leaning .R)) 3002 3004
        (nodes [] (dnode .R 1 (dnode .R (-1) .nil (3008, 20) (leaf (3012, 15))) (3004, 10)
          (leaf (3016, 5)))) := by
  refine ⟨?_, leaning_rotating .R, (leaning_rotating .R).disagrees rfl (by simp [leaf])⟩
  simp [dnode, leaf, BTree.Balanced, height]

end LispMachine.KernelTree
